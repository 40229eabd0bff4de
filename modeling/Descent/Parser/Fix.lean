import Descent.Parser.Related
import Descent.Run.Fix

/-!
# Grammars that refer to themselves

`Parser.fix F` is the family of parsers that `F` describes in terms of itself: a grammar, with a
rule for each index.

* `BelowAt n p q`: within budget `n`, on every text, `p` shows an earlier view of what `q` shows.
* Every operation respects this order (`bind_belowAt`, `many_belowAt`, …), as it does every relation
  between runs; this is what a description needs (`Monotonic`).
* `fix_agrees`: each parser of the family does what its rule says.
-/

namespace Descent

namespace Parser

variable {ω ε ι α β : Type}

/-- Within the budget, on every text, the first parser shows an earlier view. -/
def BelowAt (n : Nat) (p q : Parser ω ε α) : Prop :=
  ∀ s, Run.BelowAt Eq n (p.run s) (q.run s)

variable {n : Nat} {p p' : Parser ω ε α} {q q' : Parser ω ε β}

theorem belowAt_self {p : Parser ω ε α} : BelowAt n p p := fun _ => Run.belowAt_self

theorem after_belowAt {r r' : Run ω ε (Parser ω ε α)} (h : Run.BelowAt (BelowAt n) n r r') :
    BelowAt n (after r) (after r') := after_related (ρ := .belowAt n) h

theorem bind_belowAt {f f' : α → Run ω ε (Parser ω ε β)} (h : BelowAt n p p')
    (hf : ∀ a, Run.BelowAt (BelowAt n) n (f a) (f' a)) : BelowAt n (p.bind f) (p'.bind f') :=
  bind_related (ρ := .belowAt n) h hf

theorem map_belowAt {f f' : α → Run ω ε β} (h : BelowAt n p p')
    (hf : ∀ a, Run.BelowAt Eq n (f a) (f' a)) : BelowAt n (p.map f) (p'.map f') :=
  map_related (ρ := .belowAt n) h hf

theorem keepRight_belowAt (h : BelowAt n p p') (k : BelowAt n q q') :
    BelowAt n (p.keepRight q) (p'.keepRight q') := keepRight_related (ρ := .belowAt n) h k

theorem keepLeft_belowAt (h : BelowAt n p p') (k : BelowAt n q q') :
    BelowAt n (p.keepLeft q) (p'.keepLeft q') := keepLeft_related (ρ := .belowAt n) h k

/-- References in order, each an earlier view of its counterpart. -/
def RefBelowAt (n : Nat) (r r' : Ref ω ε α) : Prop :=
  Run.BelowAt (BelowAt n) n r.force r'.force

theorem lazily_belowAt {r r' : Ref ω ε α} (h : RefBelowAt n r r') :
    BelowAt n (lazily r) (lazily r') := after_belowAt h

theorem orElse_belowAt {r r' : Ref ω ε α} (h : BelowAt n p p') (k : RefBelowAt n r r') :
    BelowAt n (p.orElse r) (p'.orElse r') :=
  orElse_related (ρ := .belowAt n) h (lazily_belowAt k)

theorem firstOf_cons_belowAt {r r' : Ref ω ε α} {rs rs' : List (Ref ω ε α)} (h : RefBelowAt n r r')
    (hs : BelowAt n (firstOf rs) (firstOf rs')) :
    BelowAt n (firstOf (r :: rs)) (firstOf (r' :: rs')) :=
  firstOf_cons_related (ρ := .belowAt n) (lazily_belowAt h) hs

theorem firstOf_belowAt {l : List ι} {g g' : ι → Ref ω ε α}
    (hl : ∀ i ∈ l, RefBelowAt n (g i) (g' i)) :
    BelowAt n (firstOf (l.map g)) (firstOf (l.map g')) :=
  firstOf_related (ρ := .belowAt n) fun i hi => lazily_belowAt (hl i hi)

theorem many_belowAt (h : BelowAt n p p') : BelowAt n (many p) (many p') :=
  many_related (ρ := .belowAt n) h

theorem many1_belowAt (h : BelowAt n p p') : BelowAt n (many1 p) (many1 p') :=
  many1_related (ρ := .belowAt n) h

theorem lexeme_belowAt (h : BelowAt n p p') : BelowAt n (lexeme p) (lexeme p') :=
  lexeme_related (ρ := .belowAt n) h

/-- A description of a family of parsers in terms of itself that respects the order. -/
def Monotonic (F : (ι → Parser ω ε α) → ι → Parser ω ε α) : Prop :=
  ∀ n self self', (∀ j, BelowAt n (self j) (self' j)) → ∀ i, BelowAt n (F self i) (F self' i)

/-- The description, on pairs of an index and a text. -/
def onTexts (F : (ι → Parser ω ε α) → ι → Parser ω ε α) (self : ι × Text → Run ω ε (Outcome α))
    (i : ι × Text) : Run ω ε (Outcome α) :=
  (F (fun j => ⟨fun s => self (j, s)⟩) i.1).run i.2

theorem onTexts_monotonic {F : (ι → Parser ω ε α) → ι → Parser ω ε α} (hF : Monotonic F) :
    Run.Monotonic (onTexts F) := fun n _ _ h i => hF n _ _ (fun j s => h (j, s)) i.1 i.2

/-- **The family of parsers described in terms of itself.** -/
def fix (F : (ι → Parser ω ε α) → ι → Parser ω ε α) (hF : Monotonic F) (i : ι) : Parser ω ε α :=
  ⟨fun s => Run.fix (onTexts F) (onTexts_monotonic hF) (i, s)⟩

/-- A family whose rules show earlier views shows earlier views. -/
theorem fix_belowAt {F F' : (ι → Parser ω ε α) → ι → Parser ω ε α} (hF : Monotonic F)
    (hF' : Monotonic F') {n : Nat} (h : ∀ self self', (∀ j, BelowAt n (self j) (self' j)) →
      ∀ i, BelowAt n (F self i) (F' self' i)) (i : ι) : BelowAt n (fix F hF i) (fix F' hF' i) :=
  fun s => Run.fix_belowAt (onTexts_monotonic hF) (onTexts_monotonic hF')
    (fun _ _ k j => h _ _ (fun l s => k (l, s)) j.1 j.2) (i, s)

/-- Each parser of the family does what its rule says. -/
theorem fix_agrees {F : (ι → Parser ω ε α) → ι → Parser ω ε α} (hF : Monotonic F) (i : ι) :
    (fix F hF i).Agrees (F (fix F hF) i) := fun s => Run.fix_agrees (onTexts_monotonic hF) (i, s)

end Parser

end Descent
