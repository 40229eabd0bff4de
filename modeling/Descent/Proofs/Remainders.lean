import Descent.Recipe.Denote
import Descent.Proofs.Ensures

/-!
# Remainders are suffixes

No parse invents, reorders or repeats input, nor skips back over it: what a success leaves is a
suffix of the text, whatever the functions and deferred references of the recipe come up with.

* `Recipe.sources`: the values in a recipe that bring in parsers or outcomes of their own.
* `Host.Closed S`: what these values yield stays within the recipes `S`, and outcomes made by hand
  leave suffixes. A recipe may come back to itself.
* `denote_moves`: one step, operation by operation.
* `rest_suffix_of_parse`: **the remainder of every success is a suffix.**
-/

namespace Descent

/-- A value in a recipe that brings in behaviour of its own. -/
inductive Source (κ : Type) where
  /-- A function that goes on from a value with a parser. -/
  | continuation (f : κ)
  /-- A deferred reference. -/
  | deferred (thunk : κ)
  /-- A function from the text to the outcome. -/
  | custom (f : κ)

namespace Recipe

variable {κ : Type}

mutual

/-- The sources that are written down in a recipe. -/
def sources : Recipe κ → List (Source κ)
  | .bind p f => .continuation f :: sources p
  | .custom f => [.custom f]
  | .map _ p | .many p | .many1 p | .lexeme p | .logInput _ p => sources p
  | .ap p q | .keepRight p q | .keepLeft p q => sources p ++ sources q
  | .liftAs _ p ps => sources p ++ sourcesAll ps
  | .lazily r => sourcesRef r
  | .orElse p r => sources p ++ sourcesRef r
  | .firstOf rs => sourcesRefs rs
  | _ => []
termination_by structural p => p

def sourcesAll : List (Recipe κ) → List (Source κ)
  | [] => []
  | p :: ps => sources p ++ sourcesAll ps
termination_by structural ps => ps

def sourcesRef : RecipeRef κ → List (Source κ)
  | .ready p => sources p
  | .deferred x => [.deferred x]
termination_by structural r => r

def sourcesRefs : List (RecipeRef κ) → List (Source κ)
  | [] => []
  | r :: rs => sourcesRef r ++ sourcesRefs rs
termination_by structural rs => rs

end

end Recipe

variable {ω ε κ : Type}

/-- What the source yields is a recipe in `S`, or an outcome that leaves a suffix of the text. -/
def Host.Allows (h : Host ω ε κ) (S : Recipe κ → Prop) : Source κ → Prop
  | .continuation f => ∀ x t y r, (h.apply f x).Ends t (.ok y) → h.recipe y = .ok r → S r
  | .deferred x => ∀ t y r, (h.force x).Ends t (.ok y) → h.recipe y = .ok r → S r
  | .custom f => ∀ s t y v rest, (h.apply f (h.text s)).Ends t (.ok y) →
      h.outcome y = .ok (.success v rest) → rest <:+ s

/-- **Recipes that come up with recipes of the same kind only,** and never with an outcome whose
remainder is not a suffix. -/
def Host.Closed (h : Host ω ε κ) (S : Recipe κ → Prop) : Prop :=
  ∀ r, S r → ∀ x ∈ r.sources, h.Allows S x

/-- What is left of a text. -/
def Remains (s r : Text) : Prop := r <:+ s

theorem Remains.refl (s : Text) : Remains s s := List.suffix_refl s

theorem Remains.trans (s s' r : Text) (h : Remains s s') (k : Remains s' r) : Remains s r :=
  List.IsSuffix.trans k h

theorem Remains.step (c : Char) (s : Text) : Remains (c :: s) s := List.suffix_cons c s

namespace Host

open Recipe (denote denoteAll denoteRef denoteRefs sources sourcesAll sourcesRef sourcesRefs)

section

variable {h : Host ω ε κ} {S : Recipe κ → Prop} {go : Recipe κ → Parser ω ε κ}

/-- A value that is a recipe in `S` yields what the recipes in `S` yield. -/
theorem called_yields {Q : Text → κ → Text → Prop} (hgo : ∀ r, S r → (go r).Yields Q) {y : κ}
    (hy : ∀ r, h.recipe y = .ok r → S r) {t : List ω} {q : Parser ω ε κ}
    (hq : (Recipe.called h go y).Ends t (.ok q)) : q.Yields Q := by
  obtain ⟨r, u, v, hr, hv, -⟩ := Run.ends_bind_ok.1 hq
  cases (Run.ends_pure.1 hv).2
  exact hgo r (hy r (Run.ends_ofExcept.1 hr).2.symm)

theorem ofFunction_moves {f : κ} (hf : h.Allows S (.custom f)) :
    (Recipe.ofFunction h f).Moves Remains := by
  intro s t v rest he
  obtain ⟨y, u, w, hy, ho, -⟩ := Run.ends_bind_ok.1 he
  exact hf s u y v rest hy (Run.ends_ofExcept.1 ho).2.symm

mutual

/-- **One step:** an operation leaves a suffix if its parts and the recipes it comes up with do. -/
theorem denote_moves (hgo : ∀ r, S r → (go r).Moves Remains) :
    ∀ r : Recipe κ, (∀ x ∈ sources r, h.Allows S x) → (denote h go r).Moves Remains
  | .anyChar, _ => Parser.moves_map _ (Parser.moves_anyChar Remains.step)
  | .peek, _ => Parser.moves_map _ (Parser.moves_peek Remains.refl)
  | .letter, _ | .digit, _ | .space, _ | .blank, _ | .satisfy _, _ | .char _, _ =>
    Parser.moves_map _ (Parser.moves_satisfy Remains.step _)
  | .letterOrDigit, _ => by
    refine Parser.moves_map _ (Parser.moves_orElse (Parser.moves_satisfy Remains.step _) ?_)
    rw [Parser.lazily_deferred, Parser.after_pure]
    exact Parser.moves_satisfy Remains.step _
  | .digitValue, _ =>
    Parser.moves_map _ (Parser.moves_map _ (Parser.moves_satisfy Remains.step _))
  | .literal l, _ => Parser.moves_map _ (Parser.moves_literal l (List.suffix_append l))
  | .succeed x, _ => Parser.moves_succeed Remains.refl x
  | .fail, _ => Parser.moves_fail
  | .bind p f, hs => by
    have hp := denote_moves hgo p fun x hx => hs x (List.mem_cons_of_mem _ hx)
    have hf : h.Allows S (.continuation f) := hs _ List.mem_cons_self
    refine Parser.moves_bind Remains.trans hp fun a t q hq => ?_
    obtain ⟨y, u, v, hy, hv, -⟩ := Run.ends_bind_ok.1 hq
    exact called_yields hgo (fun r hr => hf a u y r hy hr) hv
  | .map _ p, hs => Parser.moves_map _ (denote_moves hgo p hs)
  | .ap p q, hs => Parser.moves_ap Remains.trans
    (denote_moves hgo p fun x hx => hs x (List.mem_append_left _ hx))
    (denote_moves hgo q fun x hx => hs x (List.mem_append_right _ hx))
  | .liftAs _ p ps, hs => Parser.moves_liftAs Remains.trans
    (denote_moves hgo p fun x hx => hs x (List.mem_append_left _ hx))
    (denoteAll_moves hgo ps fun x hx => hs x (List.mem_append_right _ hx))
  | .keepRight p q, hs => Parser.moves_keepRight Remains.trans
    (denote_moves hgo p fun x hx => hs x (List.mem_append_left _ hx))
    (denote_moves hgo q fun x hx => hs x (List.mem_append_right _ hx))
  | .keepLeft p q, hs => Parser.moves_keepLeft Remains.trans
    (denote_moves hgo p fun x hx => hs x (List.mem_append_left _ hx))
    (denote_moves hgo q fun x hx => hs x (List.mem_append_right _ hx))
  | .lazily r, hs => denoteRef_moves hgo r hs
  | .orElse p r, hs => Parser.moves_orElse
    (denote_moves hgo p fun x hx => hs x (List.mem_append_left _ hx))
    (denoteRef_moves hgo r fun x hx => hs x (List.mem_append_right _ hx))
  | .firstOf rs, hs => Parser.moves_firstOf (denoteRefs_moves hgo rs hs)
  | .many p, hs =>
    Parser.moves_map _ (Parser.moves_many Remains.refl Remains.trans (denote_moves hgo p hs))
  | .many1 p, hs =>
    Parser.moves_map _ (Parser.moves_many1 Remains.refl Remains.trans (denote_moves hgo p hs))
  | .lexeme p, hs =>
    Parser.moves_lexeme Remains.refl Remains.trans Remains.step (denote_moves hgo p hs)
  | .tap _, _ => Parser.moves_map _ (Parser.moves_tap Remains.refl _)
  | .logInput _ p, hs => Parser.moves_logInput _ (denote_moves hgo p hs)
  | .custom _, hs => ofFunction_moves (hs _ List.mem_cons_self)

theorem denoteAll_moves (hgo : ∀ r, S r → (go r).Moves Remains) :
    ∀ ps : List (Recipe κ), (∀ x ∈ sourcesAll ps, h.Allows S x) →
      ∀ q ∈ denoteAll h go ps, q.Moves Remains
  | [], _, q, hq => by cases hq
  | p :: ps, hs, q, hq => by
    rcases List.mem_cons.1 hq with rfl | hq
    · exact denote_moves hgo p fun x hx => hs x (List.mem_append_left _ hx)
    · exact denoteAll_moves hgo ps (fun x hx => hs x (List.mem_append_right _ hx)) q hq

theorem denoteRef_moves (hgo : ∀ r, S r → (go r).Moves Remains) :
    ∀ r : RecipeRef κ, (∀ x ∈ sourcesRef r, h.Allows S x) →
      (Parser.lazily (denoteRef h go r)).Moves Remains
  | .ready p, hs => by
    have hp := denote_moves hgo p hs
    change (Parser.lazily (.ready (denote h go p))).Moves Remains
    rwa [Parser.lazily_ready]
  | .deferred x, hs => by
    have hx : h.Allows S (.deferred x) := hs _ List.mem_cons_self
    refine Parser.moves_lazily fun t q hq => ?_
    obtain ⟨y, u, v, hy, hv, -⟩ := Run.ends_bind_ok.1 hq
    exact called_yields hgo (fun r hr => hx u y r hy hr) hv

theorem denoteRefs_moves (hgo : ∀ r, S r → (go r).Moves Remains) :
    ∀ rs : List (RecipeRef κ), (∀ x ∈ sourcesRefs rs, h.Allows S x) →
      ∀ r ∈ denoteRefs h go rs, (Parser.lazily r).Moves Remains
  | [], _, r, hr => by cases hr
  | r' :: rs, hs, r, hr => by
    rcases List.mem_cons.1 hr with rfl | hr
    · exact denoteRef_moves hgo r' fun x hx => hs x (List.mem_append_left _ hx)
    · exact denoteRefs_moves hgo rs (fun x hx => hs x (List.mem_append_right _ hx)) r hr

end

end

/-- **The remainder of a success is a suffix of the text,** also where recipes refer to themselves,
and whatever values the functions compute. -/
theorem rest_suffix_of_parse {h : Host ω ε κ} {S : Recipe κ → Prop} (hS : h.Closed S)
    {r : Recipe κ} (hr : S r) {s rest : Text} {t : List ω} {v : κ}
    (he : ((h.parse r).run s).Ends t (.ok (.success v rest))) : rest <:+ s := by
  have hfix : (h.parse r).Ensures fun s _ x => S r → ∀ v rest, x = .ok (.success v rest) →
      Remains s rest := by
    -- the induction is over the run: `go` stands for the recipes met while it goes on
    refine Parser.fix_ensures (Q := fun r s _ x => S r → ∀ v rest, x = .ok (.success v rest) →
      Remains s rest) ?_ r
    intro go hgo r s t x hx hr v rest e
    subst e
    have hgo : ∀ r, S r → (go r).Moves Remains :=
      fun r hr s t v rest h => hgo r s t _ h hr v rest rfl
    exact denote_moves hgo r (hS r hr) s t v rest hx
  exact hfix s t _ he hr v rest rfl

/-- Values for a small host: two recipes and the texts. -/
inductive Sample where
  | again
  | halve
  | text (s : Text)

/-- As many `a`s as there are, by self-reference, and half of what follows, by hand. -/
def halving : Recipe Sample := .firstOf [.ready (.bind (.char 'a') .again), .deferred .halve]

/-- The host under which `again` is `halving` and `halve` drops half of a text. -/
def sampleHost : Host Unit Unit Sample where
  text := .text
  nat _ := .again
  list _ := .again
  nothing := .again
  holds _ := true
  recipe
    | .again => .ok halving
    | .halve => .ok (.custom .halve)
    | .text _ => .error ()
  outcome
    | .text s => .ok (.success (.text s) s)
    | _ => .error ()
  apply
    | .halve, .text s => pure (.text (s.drop (s.length / 2)))
    | f, _ => pure f
  force x := pure x

/-- No other recipes come up than these two. -/
theorem sampleHost_closed : sampleHost.Closed fun r => r = halving ∨ r = .custom .halve := by
  have recipe_mem : ∀ y r, sampleHost.recipe y = .ok r → r = halving ∨ r = .custom .halve := by
    intro y r h
    cases y <;> cases h
    · exact .inl rfl
    · exact .inr rfl
  rintro r (rfl | rfl) x hx
  · rcases List.mem_cons.1 hx with rfl | hx
    · exact fun _ _ y r _ h => recipe_mem y r h
    · cases List.mem_singleton.1 hx
      exact fun _ y r _ h => recipe_mem y r h
  · cases List.mem_singleton.1 hx
    intro s t y v rest hy ho
    cases (Run.ends_pure.1 hy).2
    cases ho
    exact List.drop_suffix _ s

theorem rest_suffix_of_parse_halving :
    ((sampleHost.parse halving).run "aabcd".toList).Ends []
        (.ok (.success (.text ['c', 'd']) ['c', 'd'])) ∧
      ['c', 'd'] <:+ "aabcd".toList := by
  have he : ((sampleHost.parse halving).run "aabcd".toList).Ends []
      (.ok (.success (.text ['c', 'd']) ['c', 'd'])) := ⟨4, rfl⟩
  exact ⟨he, rest_suffix_of_parse sampleHost_closed (.inl rfl) he⟩

end Host

end Descent
