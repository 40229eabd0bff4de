import Descent.Recipe.Variant
import Descent.Parser.Fix

/-!
# What a recipe does

A host gives the values in a recipe their meaning: how a function is applied, what a deferred
reference yields, and how characters, texts and lists are values. With it each recipe is a parser.

* `Recipe.denote h go`: the parser, operation by operation, where `go` stands for the recipes that
  functions and deferred references come up with while it runs. A part of a recipe costs nothing
  until it is run, however often it is written down.
* `Host.Related ρ c h h'` and `denote_related`: two programs that differ by a change, and what their
  recipes do, for any relation between runs.
* `Host.parse`: the parser with `go` tied back to itself.
* `Host.parse_agrees`: a recipe does what its outermost operation does with its parts.
-/

namespace Descent

/-- How the things a parser handles are values, and how values are read. -/
structure Carrier (ε κ : Type) where
  text : Text → κ
  nat : Nat → κ
  list : List κ → κ
  nothing : κ
  /-- Whether a test that gives this value is passed. -/
  holds : κ → Bool
  recipe : κ → Except ε (Recipe κ)
  outcome : κ → Except ε (Outcome κ)

/-- **The meaning of the values that recipes mention.** -/
structure Host (ω ε κ : Type) extends Carrier ε κ where
  /-- Applies a function to an argument. -/
  apply : κ → κ → Run ω ε κ
  /-- Carries out a deferred reference. -/
  force : κ → Run ω ε κ

variable {ω ω' ε κ : Type}

namespace Recipe

variable (h : Host ω ε κ) (go : Recipe κ → Parser ω ε κ)

/-- The parser that a value is. -/
def called (x : κ) : Run ω ε (Parser ω ε κ) := do
  let r ← h.recipe x
  return go r

/-- An observer is a function whose result is dropped. -/
def observer (o : κ) (s : Text) : Run ω ε Unit := do
  let _ ← h.apply o (h.text s)
  return ()

/-- A test is a function whose result holds or not. -/
def test (f : κ) (c : Char) : Run ω ε Bool := do
  let x ← h.apply f (h.text [c])
  return h.holds x

/-- A character as a value. -/
def ofChar (p : Parser ω ε Char) : Parser ω ε κ := p.map fun c => pure (h.text [c])

/-- A text as a value. -/
def ofText (p : Parser ω ε Text) : Parser ω ε κ := p.map fun s => pure (h.text s)

/-- A number as a value. -/
def ofNat (p : Parser ω ε Nat) : Parser ω ε κ := p.map fun n => pure (h.nat n)

/-- The value of a parser that has none to give. -/
def ofUnit (p : Parser ω ε Unit) : Parser ω ε κ := p.map fun _ => pure h.nothing

/-- Many values as one. -/
def ofList (p : Parser ω ε (List κ)) : Parser ω ε κ := p.map fun xs => pure (h.list xs)

/-- A function from the text to the outcome, as a parser. -/
def ofFunction (f : κ) : Parser ω ε κ := ⟨fun s => do
  let x ← h.apply f (h.text s)
  let o ← h.outcome x
  return o⟩

mutual

/-- What the recipe does with a text. Its parts are looked into only as far as they are run. -/
def denoteOn : Recipe κ → Text → Run ω ε (Outcome κ)
  | .anyChar, s => (ofChar h .anyChar).run s
  | .peek, s => (ofText h .peek).run s
  | .letter, s => (ofChar h .letter).run s
  | .digit, s => (ofChar h .digit).run s
  | .letterOrDigit, s => (ofChar h .letterOrDigit).run s
  | .space, s => (ofChar h .space).run s
  | .blank, s => (ofChar h .blank).run s
  | .digitValue, s => (ofNat h .digitValue).run s
  | .satisfy f, s => (ofChar h (.satisfy (test h f))).run s
  | .char c, s => (ofChar h (.char c)).run s
  | .literal l, s => (ofText h (.literal l)).run s
  | .succeed x, s => (Parser.succeed x).run s
  | .fail, s => Parser.fail.run s
  | .bind p f, s => (Parser.bind ⟨denoteOn p⟩ fun x => do
    let y ← h.apply f x
    called h go y).run s
  | .map f p, s => (Parser.map (h.apply f) ⟨denoteOn p⟩).run s
  | .ap p q, s => (Parser.ap h.apply ⟨denoteOn p⟩ ⟨denoteOn q⟩).run s
  | .liftAs f p ps, s => (Parser.liftAs h.apply f ⟨denoteOn p⟩ (denoteAll ps)).run s
  | .keepRight p q, s => (Parser.keepRight ⟨denoteOn p⟩ ⟨denoteOn q⟩).run s
  | .keepLeft p q, s => (Parser.keepLeft ⟨denoteOn p⟩ ⟨denoteOn q⟩).run s
  | .lazily r, s => (Parser.lazily (denoteRef r)).run s
  | .orElse p r, s => (Parser.orElse ⟨denoteOn p⟩ (denoteRef r)).run s
  | .firstOf rs, s => (Parser.firstOf (denoteRefs rs)).run s
  | .many p, s => (ofList h (.many ⟨denoteOn p⟩)).run s
  | .many1 p, s => (ofList h (.many1 ⟨denoteOn p⟩)).run s
  | .lexeme p, s => (Parser.lexeme ⟨denoteOn p⟩).run s
  | .tap o, s => (ofUnit h (.tap (observer h o))).run s
  | .logInput o p, s => (Parser.logInput (observer h o) ⟨denoteOn p⟩).run s
  | .custom f, s => (ofFunction h f).run s
termination_by structural p => p

def denoteAll : List (Recipe κ) → List (Parser ω ε κ)
  | [] => []
  | p :: ps => ⟨denoteOn p⟩ :: denoteAll ps
termination_by structural ps => ps

/-- A deferred value is forced, and has to be a parser then. -/
def denoteRef : RecipeRef κ → Ref ω ε κ
  | .ready p => .ready ⟨denoteOn p⟩
  | .deferred x => .deferred do
    let y ← h.force x
    called h go y
termination_by structural r => r

def denoteRefs : List (RecipeRef κ) → List (Ref ω ε κ)
  | [] => []
  | r :: rs => denoteRef r :: denoteRefs rs
termination_by structural rs => rs

end

/-- **The parser that is written down.** -/
def denote (r : Recipe κ) : Parser ω ε κ := ⟨denoteOn h go r⟩

theorem denote_many (r : Recipe κ) : denote h go (.many r) = ofList h (.many (denote h go r)) := rfl

theorem denote_many1 (r : Recipe κ) :
    denote h go (.many1 r) = ofList h (.many1 (denote h go r)) := rfl

theorem denoteAll_eq_map (rs : List (Recipe κ)) : denoteAll h go rs = rs.map (denote h go) := by
  induction rs with
  | nil => rfl
  | cons r rs ih => rw [denoteAll, ih, List.map_cons, denote]

theorem denoteRefs_eq_map (rs : List (RecipeRef κ)) :
    denoteRefs h go rs = rs.map (denoteRef h go) := by
  induction rs with
  | nil => rfl
  | cons r rs ih => rw [denoteRefs, ih, List.map_cons]

theorem denote_liftAs (f : κ) (r : Recipe κ) (rs : List (Recipe κ)) :
    denote h go (.liftAs f r rs) =
      Parser.liftAs h.apply f (denote h go r) (rs.map (denote h go)) := by
  rw [← denoteAll_eq_map]
  rfl

theorem denote_firstOf (rs : List (RecipeRef κ)) :
    denote h go (.firstOf rs) = Parser.firstOf (rs.map (denoteRef h go)) := by
  rw [← denoteRefs_eq_map]
  rfl

end Recipe

namespace Host

open Recipe (denote denoteOn denoteAll denoteRef denoteRefs)

/-- The second reading of a value is the first with a change made in it. -/
inductive Reads (c : Change κ) : Except ε (Recipe κ) → Except ε (Recipe κ) → Prop
  | ok {r r' : Recipe κ} (h : Variant c r r') : Reads c (.ok r) (.ok r')
  | error (e : ε) : Reads c (.error e) (.error e)

theorem Reads.refl {c : Change κ} (x : Except ε (Recipe κ)) : Reads c x x := by
  cases x with
  | ok r => exact .ok (.refl r)
  | error e => exact .error e

/-- **Two programs that differ by a change:** the same values stand for recipes that differ by it,
their calls are related, and so is what the change puts in the place of an observer. -/
structure Related (ρ : Run.Relator ω ω' ε) (c : Change κ) (h : Host ω ε κ) (h' : Host ω' ε κ) :
    Prop where
  carrier : h'.toCarrier = { h.toCarrier with recipe := h'.recipe }
  recipe : ∀ y, Reads c (h.recipe y) (h'.recipe y)
  apply : ∀ f x, ρ.Rel Eq (h.apply f x) (h'.apply f x)
  force : ∀ x, ρ.Rel Eq (h.force x) (h'.force x)
  bare : ∀ o s, c.bare o → ρ.Rel Eq (Recipe.observer h o s) (pure ())
  defer : ∀ o x q s, c.defer o x q →
    ρ.Rel (fun _ y => h'.recipe y = .ok q) (Recipe.observer h o s) (h'.force x)

section

variable {ρ : Run.Relator ω ω' ε} {c : Change κ} {h : Host ω ε κ} {h' : Host ω' ε κ}
  {go : Recipe κ → Parser ω ε κ} {go' : Recipe κ → Parser ω' ε κ}

theorem called_related (hh : Related ρ c h h')
    (hgo : ∀ r r', Variant c r r' → Parser.Related ρ (go r) (go' r')) (y : κ) :
    ρ.Rel (Parser.Related ρ) (Recipe.called h go y) (Recipe.called h' go' y) := by
  have hread : ρ.Rel (Variant c) (Run.ofExcept (h.recipe y)) (Run.ofExcept (h'.recipe y)) := by
    have hy := hh.recipe y
    generalize h.recipe y = x at hy ⊢
    generalize h'.recipe y = x' at hy ⊢
    cases hy with
    | ok hr => exact ρ.pure hr
    | error e => exact ρ.raise _ e
  exact ρ.bind hread fun r r' hr => ρ.pure (hgo r r' hr)

theorem Related.text_eq (hh : Related ρ c h h') : h.text = h'.text := by rw [hh.carrier]

theorem Related.nat_eq (hh : Related ρ c h h') : h.nat = h'.nat := by rw [hh.carrier]

theorem Related.list_eq (hh : Related ρ c h h') : h.list = h'.list := by rw [hh.carrier]

theorem Related.nothing_eq (hh : Related ρ c h h') : h.nothing = h'.nothing := by rw [hh.carrier]

/-- What a parser finds, as a value: the same in both programs. -/
theorem value_related {α : Type} {p : Parser ω ε α} {p' : Parser ω' ε α} {f f' : α → κ}
    (hf : ∀ a, f a = f' a) (hp : Parser.Related ρ p p') :
    Parser.Related ρ (p.map fun a => pure (f a)) (p'.map fun a => pure (f' a)) :=
  Parser.map_related hp fun a => ρ.pure (hf a)

theorem observer_related (hh : Related ρ c h h') (o : κ) (s : Text) :
    ρ.Rel Eq (Recipe.observer h o s) (Recipe.observer h' o s) := by
  unfold Recipe.observer
  rw [hh.carrier]
  exact ρ.bind_eq (hh.apply o _) fun _ => ρ.pure rfl

theorem test_related (hh : Related ρ c h h') (f : κ) (d : Char) :
    ρ.Rel Eq (Recipe.test h f d) (Recipe.test h' f d) := by
  unfold Recipe.test
  rw [hh.carrier]
  exact ρ.bind_eq (hh.apply f _) fun _ => ρ.pure rfl

theorem ofFunction_related (hh : Related ρ c h h') (f : κ) :
    Parser.Related ρ (Recipe.ofFunction h f) (Recipe.ofFunction h' f) := by
  unfold Recipe.ofFunction
  rw [hh.carrier]
  exact fun s => ρ.bind_eq (hh.apply f _) fun x => ρ.ofExcept (h.outcome x)

/-- A recipe without parts is related to itself. -/
theorem leaf_related (hh : Related ρ c h h') {r : Recipe κ} (hr : r.isLeaf = true) :
    Parser.Related ρ (denote h go r) (denote h' go' r) := by
  have htext (s : Text) : h.text s = h'.text s := congrFun hh.text_eq s
  cases r with
  | anyChar => exact value_related (fun d => htext [d]) Parser.anyChar_related
  | peek => exact value_related htext Parser.peek_related
  | letter | digit | space | blank | char =>
    exact value_related (fun d => htext [d]) (Parser.oneOf_related _)
  | letterOrDigit => exact value_related (fun d => htext [d]) Parser.letterOrDigit_related
  | digitValue => exact value_related (congrFun hh.nat_eq) Parser.digitValue_related
  | satisfy f =>
    exact value_related (fun d => htext [d]) (Parser.satisfy_related (test_related hh f))
  | literal l => exact value_related htext (Parser.literal_related l)
  | succeed x => exact Parser.succeed_related x
  | fail => exact Parser.fail_related
  | tap o =>
    exact value_related (fun _ => hh.nothing_eq) (Parser.tap_related (observer_related hh o))
  | custom f => exact ofFunction_related hh f
  | _ => cases hr

/-- A watched parser is related to the deferred reference that takes its place: the one shows the
text where the other is forced. -/
theorem defer_related (hh : Related ρ c h h') {o x : κ} {p p' : Recipe κ} (ho : c.defer o x p')
    (hp : Parser.Related ρ (denote h go p) (go' p')) :
    Parser.RefRelated ρ (.ready (denote h go (.logInput o p)))
      (denoteRef h' go' (.deferred x)) := by
  intro s
  rw [Parser.lazily_ready]
  change ρ.Rel Eq (Recipe.observer h o s >>= fun _ => (denote h go p).run s)
    ((h'.force x >>= Recipe.called h' go') >>= fun q => q.run s)
  rw [bind_assoc]
  refine ρ.bind (hh.defer o x p' s ho) fun _ y hy => ?_
  have hcall : Recipe.called h' go' y = pure (go' p') := by
    unfold Recipe.called
    rw [hy]
    exact pure_bind ..
  rw [hcall, pure_bind]
  exact hp s

/-- What stands for the recipes that come up is related, and it may stand for a part that is
deferred. -/
structure Carries (ρ : Run.Relator ω ω' ε) (c : Change κ) (h : Host ω ε κ) (h' : Host ω' ε κ)
    (go : Recipe κ → Parser ω ε κ) (go' : Recipe κ → Parser ω' ε κ) : Prop where
  called : ∀ r r', Variant c r r' → Parser.Related ρ (go r) (go' r')
  part : ∀ o x r r', c.defer o x r' → Variant c r r' →
    Parser.Related ρ (denote h go r) (denote h' go' r') → Parser.Related ρ (denote h go r) (go' r')

mutual

/-- **A change to a recipe is a change to what it does,** operation by operation. -/
theorem denote_related (hh : Related ρ c h h') (hg : Carries ρ c h h' go go') :
    ∀ {r r' : Recipe κ}, Variant c r r' → Parser.Related ρ (denote h go r) (denote h' go' r')
  | _, _, .leaf hr => leaf_related hh hr
  | _, _, .bind f hp => Parser.bind_related (denote_related hh hg hp) fun x =>
    ρ.bind_eq (hh.apply f x) (called_related hh hg.called)
  | _, _, .map f hp => Parser.map_related (denote_related hh hg hp) (hh.apply f)
  | _, _, .ap hp hq =>
    Parser.ap_related (denote_related hh hg hp) (denote_related hh hg hq) hh.apply
  | _, _, .liftAs _ hp hs => by
    rw [Recipe.denote_liftAs, Recipe.denote_liftAs, List.map_map, List.map_map]
    exact Parser.liftAs_related hh.apply (denote_related hh hg hp) fun q hq =>
      denote_related hh hg (hs q hq)
  | _, _, .keepRight hp hq =>
    Parser.keepRight_related (denote_related hh hg hp) (denote_related hh hg hq)
  | _, _, .keepLeft hp hq =>
    Parser.keepLeft_related (denote_related hh hg hp) (denote_related hh hg hq)
  | _, _, .lazily hr => denoteRef_related hh hg hr
  | _, _, .orElse hp hr =>
    Parser.orElse_related (denote_related hh hg hp) (denoteRef_related hh hg hr)
  | _, _, .firstOf hs => by
    rw [Recipe.denote_firstOf, Recipe.denote_firstOf, List.map_map, List.map_map]
    exact Parser.firstOf_related fun q hq => denoteRef_related hh hg (hs q hq)
  | _, _, .many hp =>
    value_related (congrFun hh.list_eq) (Parser.many_related (denote_related hh hg hp))
  | _, _, .many1 hp =>
    value_related (congrFun hh.list_eq) (Parser.many1_related (denote_related hh hg hp))
  | _, _, .lexeme hp => Parser.lexeme_related (denote_related hh hg hp)
  | _, _, .logInput o hp =>
    Parser.logInput_related (observer_related hh o) (denote_related hh hg hp)
  | _, _, .bare ho hp => fun s => by
    have hs := ρ.bind_eq (hh.bare _ s ho) fun _ => denote_related hh hg hp s
    rwa [pure_bind] at hs
  | _, _, .defer ho hp => by
    -- the part is run in place on the one side and comes up as a recipe on the other
    have hs := defer_related hh ho (hg.part _ _ _ _ ho hp (denote_related hh hg hp))
    unfold Parser.RefRelated at hs
    rwa [Parser.lazily_ready] at hs

theorem denoteRef_related (hh : Related ρ c h h') (hg : Carries ρ c h h' go go') :
    ∀ {r r' : RecipeRef κ}, RefVariant c r r' →
      Parser.RefRelated ρ (denoteRef h go r) (denoteRef h' go' r')
  | _, _, .ready hp => Parser.ready_related (denote_related hh hg hp)
  | _, _, .deferred x =>
    Parser.deferred_related (ρ.bind_eq (hh.force x) (called_related hh hg.called))
  | _, _, .defer ho hp =>
    defer_related hh ho (hg.part _ _ _ _ ho hp (denote_related hh hg hp))

end

end

/-- Two hosts with the same values, where the first shows earlier views of calls. -/
structure BelowAt (n : Nat) (h h' : Host ω ε κ) : Prop where
  carrier : h.toCarrier = h'.toCarrier
  apply : ∀ f x, Run.BelowAt Eq n (h.apply f x) (h'.apply f x)
  force : ∀ x, Run.BelowAt Eq n (h.force x) (h'.force x)

theorem BelowAt.refl {n : Nat} {h : Host ω ε κ} : BelowAt n h h :=
  ⟨rfl, fun _ _ => Run.belowAt_self, fun _ => Run.belowAt_self⟩

theorem BelowAt.related {n : Nat} {h h' : Host ω ε κ} (hh : BelowAt n h h') :
    Related (.belowAt n) .none h h' where
  carrier := by rw [hh.carrier]
  recipe y := by
    rw [hh.carrier]
    exact .refl _
  apply := hh.apply
  force := hh.force
  bare _ _ ho := ho.elim
  defer _ _ _ _ ho := ho.elim

/-- What a recipe shows only grows with what its host and the recipes it comes up with show. -/
theorem denote_belowAt {n : Nat} {h h' : Host ω ε κ} {go go' : Recipe κ → Parser ω ε κ}
    (hh : BelowAt n h h') (hgo : ∀ r, Parser.BelowAt n (go r) (go' r)) (r : Recipe κ) :
    Parser.BelowAt n (denote h go r) (denote h' go' r) := by
  have hg : Carries (.belowAt n) .none h h' go go' :=
    ⟨fun r r' hr => hr.eq_of_none ▸ hgo r, fun _ _ _ _ ho => ho.elim⟩
  exact denote_related hh.related hg (.refl r)

/-- **The parser that a recipe is** under a host. -/
def parse (h : Host ω ε κ) : Recipe κ → Parser ω ε κ :=
  Parser.fix (denote h) fun _ _ _ hself => denote_belowAt .refl hself

/-- A recipe does what its operation does with its parts. -/
theorem parse_agrees (h : Host ω ε κ) (r : Recipe κ) :
    (h.parse r).Agrees (denote h h.parse r) := Parser.fix_agrees _ r

/-- Recipes do the same if their outermost operations do. -/
theorem parse_agrees_of_denote {h : Host ω ε κ} {r r' : Recipe κ}
    (hr : (denote h h.parse r).Agrees (denote h h.parse r')) : (h.parse r).Agrees (h.parse r') :=
  (h.parse_agrees r).trans (hr.trans (h.parse_agrees r').symm)

theorem parse_map_agrees (h : Host ω ε κ) (f : κ) (r : Recipe κ) :
    (h.parse (.map f r)).Agrees ((h.parse r).map (h.apply f)) := by
  have hr := (h.parse_agrees r).symm
  exact (h.parse_agrees (.map f r)).trans (Parser.map_agrees hr fun _ => .refl _)

theorem parse_many_agrees (h : Host ω ε κ) (r : Recipe κ) :
    (h.parse (.many r)).Agrees (Recipe.ofList h (.many (h.parse r))) := by
  have hr := (h.parse_agrees r).symm
  have hmany := (Parser.many_related hr.related).agrees
  exact (h.parse_agrees (.many r)).trans (Parser.map_agrees hmany fun _ => .refl _)

theorem parse_many1_agrees (h : Host ω ε κ) (r : Recipe κ) :
    (h.parse (.many1 r)).Agrees (Recipe.ofList h (.many1 (h.parse r))) := by
  have hr := (h.parse_agrees r).symm
  have hmany := (Parser.many1_related hr.related).agrees
  exact (h.parse_agrees (.many1 r)).trans (Parser.map_agrees hmany fun _ => .refl _)

theorem parse_belowAt {n : Nat} {h h' : Host ω ε κ} (hh : BelowAt n h h') (r : Recipe κ) :
    Parser.BelowAt n (h.parse r) (h'.parse r) :=
  Parser.fix_belowAt _ _ (fun _ _ hself => denote_belowAt hh hself) r

end Host

end Descent
