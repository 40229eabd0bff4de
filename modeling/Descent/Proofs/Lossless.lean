import Descent.Proofs.Literals
import Descent.Proofs.Programs
import Descent.Proofs.Remainders

/-!
# Parsers that lose nothing

A parser is lossless when its value is the text that it has consumed: with the remainder behind it,
this is the text that it was run on. The operations that choose, wait and look on keep a parser so,
and those that put values together do if these are put together in order.

* `Lossless text p`: the value and the remainder of every success are together the text.
* `lossless_consumed`, `lossless_bind`, …: one lemma for each operation.
* `yields_feed`: **what a curried function is fed with** is what was consumed, piece by piece.
* `Host.Keeps h S r`: recipes made from lossless parts by these operations, where `S` are the
  recipes that references and functions come up with. A recipe may come back to itself.
* `denote_lossless`: one step, operation by operation. `parse_lossless`: **every such recipe is
  lossless.**
* `Script.joiner`, `Script.prefixing f`: the functions in scripts that put texts together.
* `lossless_composes`: the results together.
-/

namespace Descent

namespace Parser

variable {ω ε α β φ : Type} {text text' : Text → α}

/-- **The value and the remainder of every success are together the text.** -/
def Lossless (text : Text → α) (p : Parser ω ε α) : Prop :=
  p.Yields fun s a r => ∃ u, a = text u ∧ u ++ r = s

variable {p : Parser ω ε α}

/-- What was consumed, as the value. -/
theorem lossless_consumed {q : Parser ω ε β} {k : β → Text}
    (hq : q.Yields fun s b r => k b ++ r = s) :
    (q.map fun b => pure (text (k b))).Lossless text := by
  refine yields_map hq fun s b r t a hs ha => ?_
  cases (Run.ends_pure.1 ha).2
  exact ⟨k b, rfl, hs⟩

theorem lossless_succeed : (succeed (text []) : Parser ω ε α).Lossless text :=
  yields_succeed fun _ => ⟨[], rfl, rfl⟩

/-- A function on the value, which may change what stands for a text. -/
theorem lossless_map {k : α → Run ω ε α} (hp : p.Lossless text)
    (hk : ∀ u, (k (text u)).Ends [] (.ok (text' u))) : (p.map k).Lossless text' := by
  refine yields_map hp fun s a r t b ha hb => ?_
  obtain ⟨u, rfl, hs⟩ := ha
  exact ⟨u, Except.ok.inj (hb.unique (hk u)).2, hs⟩

/-- **A sequence** goes on from a text with a parser that puts this text before its own. -/
theorem lossless_bind {f : α → Run ω ε (Parser ω ε α)} (hp : p.Lossless text)
    (hf : ∀ u t q, (f (text u)).Ends t (.ok q) → q.Lossless fun w => text (u ++ w)) :
    (p.bind f).Lossless text := by
  refine yields_bind hp fun s a s' t q ha hq => ?_
  obtain ⟨u, rfl, hs⟩ := ha
  rintro s₁ t₁ b r hb rfl
  obtain ⟨w, rfl, hw⟩ := hf u t q hq s₁ t₁ b r hb
  exact ⟨u ++ w, rfl, by rw [List.append_assoc, hw, hs]⟩

/-- **What a curried function is fed with.** Its value is that of applying it to texts in order, and
these are what was consumed. -/
theorem yields_feed {app : φ → α → Run ω ε φ} {ps : List (Parser ω ε α)}
    (hps : ∀ p ∈ ps, p.Lossless text) (f : φ) :
    (feed app f ps).Yields fun s g r => ∃ us : List Text, us.length = ps.length ∧
      us.flatten ++ r = s ∧ ∃ t, ((us.map text).foldlM app f).Ends t (.ok g) := by
  induction ps generalizing f with
  | nil => exact yields_succeed fun s => ⟨[], rfl, rfl, [], Run.ends_pure.2 ⟨rfl, rfl⟩⟩
  | cons p ps ih =>
    refine yields_bind (hps p List.mem_cons_self) fun s a s' t q ha hq => ?_
    obtain ⟨u, rfl, hs⟩ := ha
    obtain ⟨f', t₁, t₂, happ, hq, -⟩ := Run.ends_bind_ok.1 hq
    cases (Run.ends_pure.1 hq).2
    rintro s₁ t₃ g r hg rfl
    -- the parsers that are left feed the function that the first text has given
    have hrest := ih (fun q hq => hps q (List.mem_cons_of_mem p hq)) f'
    obtain ⟨us, hlen, hus, t₄, hfold⟩ := hrest s₁ t₃ g r hg
    refine ⟨u :: us, congrArg (· + 1) hlen, ?_, t₁ ++ t₄, ?_⟩
    · rw [List.flatten_cons, List.append_assoc, hus, hs]
    · exact Run.ends_bind_ok.2 ⟨f', t₁, t₄, happ, hfold, rfl⟩

theorem lossless_liftAs {app : α → α → Run ω ε α} {f : α} {ps : List (Parser ω ε α)}
    (hf : Concatenates app (ps.length + 1) f text) (hp : p.Lossless text)
    (hps : ∀ q ∈ ps, q.Lossless text) : (liftAs app f p ps).Lossless text := by
  rw [liftAs_eq_feed]
  intro s t a r ha
  have hall : ∀ q ∈ p :: ps, q.Lossless text := List.forall_mem_cons.2 ⟨hp, hps⟩
  obtain ⟨us, hlen, hus, t', hfold⟩ := yields_feed hall f s t a r ha
  exact ⟨us.flatten, Except.ok.inj (hfold.unique (hf us hlen)).2, hus⟩

/-- Texts in order, which are together what stands before the remainder. -/
def SpellsOut (text : Text → α) (s : Text) (as : List α) (r : Text) : Prop :=
  ∃ us : List Text, as = us.map text ∧ us.flatten ++ r = s

theorem SpellsOut.nil (s : Text) : SpellsOut text s [] s := ⟨[], rfl, rfl⟩

theorem SpellsOut.cons (s : Text) (a : α) (s' : Text) (as : List α) (r : Text)
    (ha : ∃ u, a = text u ∧ u ++ s' = s) (has : SpellsOut text s' as r) :
    SpellsOut text s (a :: as) r := by
  obtain ⟨u, rfl, hs⟩ := ha
  obtain ⟨us, rfl, hus⟩ := has
  exact ⟨u :: us, rfl, by rw [List.flatten_cons, List.append_assoc, hus, hs]⟩

/-- **Texts that were found in order** may be joined. -/
theorem lossless_join {q : Parser ω ε (List α)} (hq : q.Yields (SpellsOut text))
    {k : List α → Run ω ε α}
    (hk : ∀ us : List Text, (k (us.map text)).Ends [] (.ok (text us.flatten))) :
    (q.map k).Lossless text := by
  refine yields_map hq fun s as r t a has ha => ?_
  obtain ⟨us, rfl, hus⟩ := has
  exact ⟨us.flatten, Except.ok.inj (ha.unique (hk us)).2, hus⟩

/-- The value of a success that leaves nothing over is the whole text. -/
theorem Lossless.eq_text (hp : p.Lossless text) {s : Text} {t : List ω} {a : α}
    (ha : (p.run s).Ends t (.ok (.success a []))) : a = text s := by
  obtain ⟨u, rfl, hs⟩ := hp s t a [] ha
  rw [← hs, List.append_nil]

/-- **A parse of the whole text gives back the text,** or nothing if the parser fails or leaves
something over. -/
theorem Lossless.ends_unpack_iff (hp : p.Lossless text) {s : Text} {t : List ω} {x : Option α} :
    (p.unpack s).Ends t (.ok x) ↔
      (x = some (text s) ∧ ∃ a, (p.run s).Ends t (.ok (.success a []))) ∨
      x = none ∧ ∃ o, (∀ a, o ≠ .success a []) ∧ (p.run s).Ends t (.ok o) := by
  rw [Parser.unpack, Run.ends_bind_pure_ok]
  constructor
  · rintro ⟨o, ho, rfl⟩
    cases o with
    | failure => exact .inr ⟨rfl, _, fun a h => (by cases h), ho⟩
    | success a r =>
      cases r with
      | nil => exact .inl ⟨congrArg some (hp.eq_text ho), a, ho⟩
      | cons c r => exact .inr ⟨rfl, _, fun a h => (by cases h), ho⟩
  · rintro (⟨rfl, a, ha⟩ | ⟨rfl, o, hne, ho⟩)
    · exact ⟨_, ha, congrArg some (hp.eq_text ha).symm⟩
    · exact ⟨o, ho, (Outcome.whole?_eq_none_iff.2 hne).symm⟩

end Parser

namespace Recipe

variable {κ : Type}

/-- The recipes that consume one character and give it. -/
def takesCharacter : Recipe κ → Bool
  | .anyChar | .satisfy _ | .char _ | .letter | .digit | .letterOrDigit | .space | .blank => true
  | _ => false

end Recipe

namespace Host

open Descent.Parser (Concatenates Lossless)
open Descent.Recipe (denote denoteRef denoteRefs)

variable {ω ε κ : Type}

/-- **The function that puts the text `u` before a text,** and does nothing else. -/
def Prepends (h : Host ω ε κ) (u : Text) (g : κ) : Prop :=
  ∀ w, (h.apply g (h.text w)).Ends [] (.ok (h.text (u ++ w)))

/-- **The function that puts the texts of a list together,** and does nothing else. -/
def Joins (h : Host ω ε κ) (f : κ) : Prop :=
  ∀ us : List Text, (h.apply f (h.list (us.map h.text))).Ends [] (.ok (h.text us.flatten))

mutual

/-- **Recipes that keep every character.** They are made from lossless parts by choices, references
and observation, and by sequences and repetitions whose values are put together in order. The
recipes that a reference comes up with are in `S`. So are those that a function comes up with on a
text, but for the function that then puts this text before the value. -/
inductive Keeps (h : Host ω ε κ) (S : Recipe κ → Prop) : Recipe κ → Prop
  | part {r : Recipe κ} (hr : (h.parse r).Lossless h.text) : Keeps h S r
  | character {r : Recipe κ} (hr : r.takesCharacter = true) : Keeps h S r
  | literal (l : Text) : Keeps h S (.literal l)
  | empty : Keeps h S (.succeed (h.text []))
  | fail : Keeps h S .fail
  | orElse {p : Recipe κ} {r : RecipeRef κ} (hp : Keeps h S p) (hr : KeepsRef h S r) :
      Keeps h S (.orElse p r)
  | firstOf {rs : List (RecipeRef κ)} (hs : ∀ r ∈ rs, KeepsRef h S r) : Keeps h S (.firstOf rs)
  | lazily {r : RecipeRef κ} (hr : KeepsRef h S r) : Keeps h S (.lazily r)
  | logInput (o : κ) {p : Recipe κ} (hp : Keeps h S p) : Keeps h S (.logInput o p)
  | liftAs {f : κ} {p : Recipe κ} {ps : List (Recipe κ)}
      (hf : Concatenates h.apply (ps.length + 1) f h.text) (hp : Keeps h S p)
      (hps : ∀ q ∈ ps, Keeps h S q) : Keeps h S (.liftAs f p ps)
  | bind {p : Recipe κ} {f : κ} (hp : Keeps h S p)
      (hf : ∀ u t y r, (h.apply f (h.text u)).Ends t (.ok y) → h.recipe y = .ok r →
        ∃ g q, r = .map g q ∧ h.Prepends u g ∧ S q) : Keeps h S (.bind p f)
  | many {f : κ} {p : Recipe κ} (hf : h.Joins f) (hp : Keeps h S p) :
      Keeps h S (.map f (.many p))
  | many1 {f : κ} {p : Recipe κ} (hf : h.Joins f) (hp : Keeps h S p) :
      Keeps h S (.map f (.many1 p))

inductive KeepsRef (h : Host ω ε κ) (S : Recipe κ → Prop) : RecipeRef κ → Prop
  | ready {p : Recipe κ} (hp : Keeps h S p) : KeepsRef h S (.ready p)
  | deferred {x : κ} (hx : ∀ t y r, (h.force x).Ends t (.ok y) → h.recipe y = .ok r → S r) :
      KeepsRef h S (.deferred x)

end

variable {h : Host ω ε κ} {S : Recipe κ → Prop} {go : Recipe κ → Parser ω ε κ}

/-- What stands for the recipes that come up is lossless, also behind a function that puts a text
before the value, and it may stand for a part. -/
structure Preserves (h : Host ω ε κ) (S : Recipe κ → Prop) (go : Recipe κ → Parser ω ε κ) :
    Prop where
  called : ∀ r, S r → (go r).Lossless h.text
  prepended : ∀ u g q, h.Prepends u g → S q →
    (go (.map g q)).Lossless fun w => h.text (u ++ w)
  part : ∀ r, (h.parse r).Lossless h.text → (denote h go r).Lossless h.text

theorem denote_takesCharacter {r : Recipe κ} (hr : r.takesCharacter = true) :
    (denote h go r).Lossless h.text := by
  cases r with
  | anyChar => exact Parser.lossless_consumed (Parser.yields_anyChar fun _ _ => rfl)
  | satisfy | char | letter | digit | space | blank =>
    exact Parser.lossless_consumed (Parser.yields_satisfy (fun _ _ => rfl) _)
  | letterOrDigit =>
    refine Parser.lossless_consumed (k := fun c => [c]) ?_
    refine Parser.yields_orElse (Parser.yields_satisfy (fun _ _ => rfl) _) ?_
    rw [Parser.lazily_deferred, Parser.after_pure]
    exact Parser.yields_satisfy (fun _ _ => rfl) _
  | _ => cases hr

/-- The results of a repetition are put into a list and joined. -/
theorem joined_lossless {f : κ} (hf : h.Joins f) {q : Parser ω ε (List κ)}
    (hq : q.Yields (Parser.SpellsOut h.text)) :
    ((Recipe.ofList h q).map (h.apply f)).Lossless h.text := by
  unfold Recipe.ofList
  rw [Parser.map_pure_map]
  exact Parser.lossless_join hq hf

mutual

/-- **One step:** an operation loses nothing if its parts and the recipes that come up do not. -/
theorem denote_lossless (hg : h.Preserves S go) :
    ∀ {r : Recipe κ}, h.Keeps S r → (denote h go r).Lossless h.text
  | _, .part hr => hg.part _ hr
  | _, .character hr => denote_takesCharacter hr
  | _, .literal l =>
    Parser.lossless_consumed (k := fun u => u) (Parser.yields_literal l fun _ => rfl)
  | _, .empty => Parser.lossless_succeed
  | _, .fail => Parser.yields_fail
  | _, .orElse hp hr => Parser.yields_orElse (denote_lossless hg hp) (denoteRef_lossless hg hr)
  | _, .firstOf hs => by
    refine Parser.yields_firstOf fun q hq => ?_
    rw [Recipe.denoteRefs_eq_map] at hq
    obtain ⟨r, hr, rfl⟩ := List.mem_map.1 hq
    exact denoteRef_lossless hg (hs r hr)
  | _, .lazily hr => denoteRef_lossless hg hr
  | _, .logInput _ hp => Parser.yields_logInput _ (denote_lossless hg hp)
  | _, .liftAs hf hp hps => by
    rw [Recipe.denote_liftAs]
    refine Parser.lossless_liftAs ?_ (denote_lossless hg hp) fun q hq => ?_
    · rwa [List.length_map]
    · obtain ⟨r, hr, rfl⟩ := List.mem_map.1 hq
      exact denote_lossless hg (hps r hr)
  | _, .bind hp hf => by
    refine Parser.lossless_bind (denote_lossless hg hp) fun u t q hq => ?_
    obtain ⟨y, t₁, t₂, hy, hq, -⟩ := Run.ends_bind_ok.1 hq
    -- here the recipes that come up are those of `S` behind a function that prepends `u`
    refine called_yields (fun r hr => ?_) (fun r hr => hf u t₁ y r hy hr) hq
    obtain ⟨g, r', rfl, hprepends, hr'⟩ := hr
    exact hg.prepended u g r' hprepends hr'
  | _, .many hf hp =>
    joined_lossless hf (Parser.yields_many .nil .cons (denote_lossless hg hp))
  | _, .many1 hf hp =>
    joined_lossless hf (Parser.yields_many1 .nil .cons (denote_lossless hg hp))

theorem denoteRef_lossless (hg : h.Preserves S go) :
    ∀ {r : RecipeRef κ}, h.KeepsRef S r → (Parser.lazily (denoteRef h go r)).Lossless h.text
  | _, .ready hp => by
    change (Parser.lazily (.ready (denote h go _))).Lossless h.text
    rw [Parser.lazily_ready]
    exact denote_lossless hg hp
  | _, .deferred hx => by
    refine Parser.yields_lazily fun t q hq => ?_
    obtain ⟨y, t₁, t₂, hy, hq, -⟩ := Run.ends_bind_ok.1 hq
    exact called_yields hg.called (fun r hr => hx t₁ y r hy hr) hq

end

/-- What an unfolding of a recipe ends with, the recipe ends with. -/
theorem ends_of_parseAt {n : Nat} {r : Recipe κ} {s : Text} {t : List ω}
    {x : Except ε (Outcome κ)} (hx : ((h.parseAt n r).run s).Ends t x) :
    ((h.parse r).run s).Ends t x := by
  have hF : Parser.Monotonic (denote h) := fun _ _ _ hself => denote_belowAt .refl hself
  exact (Run.fixAt_within_fix (Parser.onTexts_monotonic hF) n (r, s)).ends hx

/-- **Every unfolding of the recipes is lossless.** The induction is on how often references are
unfolded; with none left a recipe does not end. -/
theorem parseAt_lossless (hS : ∀ r, S r → h.Keeps S r) (n : Nat) :
    ∀ r, h.Keeps S r → (h.parseAt n r).Lossless h.text := by
  induction n with
  | zero => exact fun r _ s t a rest he => absurd he Run.not_ends_never
  | succ n ih =>
    intro r hr
    have hg : h.Preserves S (h.parseAt n) := by
      refine ⟨fun q hq => ih q (hS q hq), fun u g q hprepends hq => ?_,
        fun q hq s t a rest he => ?_⟩
      · -- unfolded once, this is the recipe `q` and the function on its value
        cases n with
        | zero => exact fun s t a rest he => absurd he Run.not_ends_never
        | succ n => exact Parser.lossless_map (ih q (hS q hq)) hprepends
      · exact hq s t a rest (ends_of_parseAt (n := n + 1) he)
    exact denote_lossless hg hr

/-- **A recipe that keeps every character is lossless.** -/
theorem parse_lossless (hS : ∀ r, S r → h.Keeps S r) {r : Recipe κ} (hr : h.Keeps S r) :
    (h.parse r).Lossless h.text := by
  -- a success within the budget `n` is one of the `n`th unfolding
  rintro s t a rest ⟨n, hn⟩
  exact parseAt_lossless hS n r hr s t a rest ⟨n, hn⟩

end Host

/-! ## Functions in scripts -/

namespace Script

open Descent.Parser (Lossless)

/-- The function that joins the texts of a list. -/
def joiner : Value := .closure [] "xs" (.call (.data .join) [.var "xs"])

/-- The sum of two variables. -/
def addition : Term := .call (.data .add) [.var "x", .var "y"]

/-- The function that goes on from a value `x` with the parser that `f` comes up with, and then adds
the value of that to `x`. -/
def prefixing (f : Value) : Value :=
  .closure [("f", f)] "x"
    (.call (.make .mapped) [.call (.act .call) [.var "f", .var "x"], .fn "y" addition])

/-- The function that it puts on the value, where `x` is the text `u`. -/
def adder (f : Value) (u : Text) : Value := .closure [("x", .text u), ("f", f)] "y" addition

variable (globals : Env)

theorem joinTexts_texts (us : List Text) : joinTexts (us.map .text) = .ok us.flatten := by
  induction us with
  | nil => rfl
  | cons u us ih =>
    rw [List.map_cons, joinTexts, ih]
    rfl

theorem joiner_joins : (calls globals).Joins joiner := by
  intro us
  refine (calls_apply_agrees ..).ends_iff.2 ?_
  have hjoin : DataOp.compute .join [.list (us.map .text)] = .ok (.text us.flatten) := by
    change (joinTexts (us.map .text) >>= fun s => .ok (Value.text s)) = _
    rw [joinTexts_texts]
    rfl
  rw [eval_call_one, eval_var rfl, pure_bind]
  exact Run.ends_ofExcept.2 ⟨rfl, hjoin.symm⟩

theorem adder_prepends (f : Value) (u : Text) : (calls globals).Prepends u (adder f u) := by
  intro w
  refine (calls_apply_agrees ..).ends_iff.2 ?_
  rw [addition, eval_call_two, eval_var rfl, eval_var rfl, pure_bind, pure_bind]
  exact Run.ends_pure.2 ⟨rfl, rfl⟩

/-- On a text the function comes up with the parser that `f` does, and an addition on its value. -/
theorem ends_prefixing {f y : Value} {u : Text} {t : List Mark}
    (hy : ((calls globals).apply (prefixing f) (.text u)).Ends t (.ok y)) :
    ∃ q, ((calls globals).apply f (.text u)).Ends t (.ok (.parser q)) ∧
      y = .parser (.map (adder f u) q) := by
  have hcall := (calls_apply_agrees ..).ends_iff.1 hy
  rw [eval_call_two, eval_apply, eval_var (x := f) rfl, eval_var (x := .text u) rfl] at hcall
  simp only [pure_bind] at hcall
  -- making the mapped parser leaves no marks, and needs `z` to be a parser
  obtain ⟨z, t₁, t₂, hz, hmade, rfl⟩ := Run.ends_bind_ok.1 hcall
  change (Run.ofExcept (Maker.make .mapped [z, adder f u])).Ends t₂ (.ok y) at hmade
  obtain ⟨rfl, hmake⟩ := Run.ends_ofExcept.1 hmade
  rw [List.append_nil]
  cases z with
  | parser q => exact ⟨q, hz, Except.ok.inj hmake⟩
  | _ => cases hmake

variable {globals} {S : Recipe Value → Prop} {p : Recipe Value}

theorem keeps_concatenator {x : String} {xs : List String} {ps : List (Recipe Value)}
    (hnames : (x :: xs).Nodup) (hlen : xs.length = ps.length) (hp : (calls globals).Keeps S p)
    (hps : ∀ q ∈ ps, (calls globals).Keeps S q) :
    (calls globals).Keeps S (.liftAs (concatenator x xs) p ps) :=
  .liftAs (hlen ▸ concatenator_concatenates globals x xs hnames) hp hps

theorem keeps_prefixing {f : Value} (hp : (calls globals).Keeps S p)
    (hf : ∀ u t q, ((calls globals).apply f (.text u)).Ends t (.ok (.parser q)) → S q) :
    (calls globals).Keeps S (.bind p (prefixing f)) := by
  refine .bind hp fun u t y r hy hr => ?_
  obtain ⟨q, hq, rfl⟩ := ends_prefixing globals hy
  cases hr
  exact ⟨adder f u, q, rfl, adder_prepends globals f u, hf u t q hq⟩

/-- **In scripts, a parse of the whole text gives back the text or null.** -/
theorem ends_apply_unpacked_iff {r : Recipe Value} (hr : ((calls globals).parse r).Lossless .text)
    {s : Text} {t : List Mark} {v : Value} :
    ((calls globals).apply (.unpacked r) (.text s)).Ends t (.ok v) ↔
      (v = .text s ∧ ∃ a, (((calls globals).parse r).run s).Ends t (.ok (.success a []))) ∨
      v = .null ∧ ∃ o, (∀ a, o ≠ .success a []) ∧
        (((calls globals).parse r).run s).Ends t (.ok o) := by
  rw [(apply_unpacked_agrees globals r s).ends_iff, Run.ends_bind_pure_ok]
  constructor
  · rintro ⟨x, hx, rfl⟩
    rcases hr.ends_unpack_iff.1 hx with ⟨rfl, hwhole⟩ | ⟨rfl, hother⟩
    · exact .inl ⟨rfl, hwhole⟩
    · exact .inr ⟨rfl, hother⟩
  · rintro (⟨rfl, hwhole⟩ | ⟨rfl, hother⟩)
    · exact ⟨_, hr.ends_unpack_iff.2 (.inl ⟨rfl, hwhole⟩), rfl⟩
    · exact ⟨_, hr.ends_unpack_iff.2 (.inr ⟨rfl, hother⟩), rfl⟩

end Script

namespace Host

open Descent.Script (Value calls concatenator joiner prefixing)

variable {ω ε κ : Type}

/-- **Lossless parsers stay lossless.** The parsers for characters and literals are lossless, and so
are the empty text and failure. Whatever is made from these and from other lossless parsers by
choices, references and observation, by curried concatenation, by a sequence that puts what it has
found before what follows, and by joined repetitions, is lossless too. References may lead back to
where they stand. So a parse of the whole text gives this text itself when the parser succeeds and
leaves nothing over, it gives nothing when the parser comes to another outcome, and it gives no
other value.

In scripts the functions that put texts together are there: the adding function, for any different
names of its arguments, the joining one, and the one that adds what follows to what was found. There
a parse of the whole text gives the text or null. -/
theorem lossless_composes {h : Host ω ε κ} {S : Recipe κ → Prop} (hS : ∀ r, S r → h.Keeps S r) :
    (∀ r, h.Keeps S r → (h.parse r).Lossless h.text ∧
      ∀ s t x, ((h.parse r).unpack s).Ends t (.ok x) ↔
        (x = some (h.text s) ∧ ∃ v, ((h.parse r).run s).Ends t (.ok (.success v []))) ∨
        x = none ∧ ∃ o, (∀ v, o ≠ .success v []) ∧ ((h.parse r).run s).Ends t (.ok o)) ∧
    ∀ globals,
      (∀ S' x xs p ps, (x :: xs).Nodup → xs.length = ps.length → (calls globals).Keeps S' p →
        (∀ q ∈ ps, (calls globals).Keeps S' q) →
          (calls globals).Keeps S' (.liftAs (concatenator x xs) p ps)) ∧
      (∀ S' p f, (calls globals).Keeps S' p →
        (∀ u t q, ((calls globals).apply f (.text u)).Ends t (.ok (.parser q)) → S' q) →
          (calls globals).Keeps S' (.bind p (prefixing f))) ∧
      (∀ S' p, (calls globals).Keeps S' p → (calls globals).Keeps S' (.map joiner (.many p)) ∧
        (calls globals).Keeps S' (.map joiner (.many1 p))) ∧
      ∀ r, ((calls globals).parse r).Lossless .text → ∀ s t v,
        ((calls globals).apply (.unpacked r) (.text s)).Ends t (.ok v) ↔
          (v = .text s ∧ ∃ v', (((calls globals).parse r).run s).Ends t (.ok (.success v' []))) ∨
          v = .null ∧ ∃ o, (∀ v', o ≠ .success v' []) ∧
            (((calls globals).parse r).run s).Ends t (.ok o) := by
  refine ⟨fun r hr => ?_, fun globals => ⟨?_, ?_, ?_, ?_⟩⟩
  · have hlossless := parse_lossless hS hr
    exact ⟨hlossless, fun s t x => hlossless.ends_unpack_iff⟩
  · exact fun S' x xs p ps hnames hlen hp hps => Script.keeps_concatenator hnames hlen hp hps
  · exact fun S' p f hp hf => Script.keeps_prefixing hp hf
  · have hjoins := Script.joiner_joins globals
    exact fun S' p hp => ⟨.many hjoins hp, .many1 hjoins hp⟩
  · exact fun r hr s t v => Script.ends_apply_unpacked_iff hr

/-- Parentheses that are nested, as the text that they are. Within them the parser refers to itself
by its name. -/
def parentheses : Recipe Value :=
  .orElse
    (.liftAs (concatenator "a" ["b", "c"]) (.char '(')
      [.lazily (.deferred (.thunk [] (.var "parentheses") none)), .char ')'])
    (.ready (.succeed (.text [])))

/-- Nested parentheses are kept, and what follows them is left. As a whole text they are given
back. -/
theorem lossless_composes_parentheses :
    let globals := [("parentheses", Value.parser parentheses)]
    let h := calls globals
    h.Keeps (· = parentheses) parentheses ∧ (h.parse parentheses).Lossless .text ∧
    ((h.parse parentheses).run ['(', ')', 'x']).Ends []
      (.ok (.success (.text ['(', ')']) ['x'])) ∧
    (h.apply (.unpacked parentheses) (.text ['(', ')'])).Ends [] (.ok (.text ['(', ')'])) := by
  intro globals h
  have hforce : ∀ t y r, (h.force (.thunk [] (.var "parentheses") none)).Ends t (.ok y) →
      h.recipe y = .ok r → r = parentheses := by
    intro t y r hy hr
    have heval := (Script.calls_force_agrees ..).ends_iff.1 hy
    cases (Run.ends_pure.1 heval).2
    exact (Except.ok.inj hr).symm
  have hkeeps : ∀ r, r = parentheses → h.Keeps (· = parentheses) r := by
    rintro r rfl
    refine .orElse (Script.keeps_concatenator (by decide) rfl (.character rfl) ?_) (.ready .empty)
    refine List.forall_mem_cons.2 ⟨.lazily (.deferred hforce), ?_⟩
    exact List.forall_mem_singleton.2 (.character rfl)
  obtain ⟨hcomposes, hscripts⟩ := lossless_composes hkeeps
  have hlossless := (hcomposes _ (hkeeps _ rfl)).1
  obtain ⟨-, -, -, hunpacked⟩ := hscripts globals
  have hwhole := (hunpacked parentheses hlossless ['(', ')'] [] (.text ['(', ')'])).2
  exact ⟨hkeeps _ rfl, hlossless, ⟨8, rfl⟩, hwhole (.inl ⟨rfl, .text ['(', ')'], ⟨8, rfl⟩⟩)⟩

end Host

end Descent
