import Descent.Run.Basic

/-!
# Self-reference

`Run.fix F` is the family of runs that `F` describes in terms of itself. Within budget `n` the
description is unfolded `n` times, and beyond that the run is still going.

* `Monotonic F`: what is seen of the family only grows with what is seen of the references in it.
* `fix_unfold_below`, `fix_fold_below`: unfolding once changes the budget, not the run.
* `fix_belowAt`: a family respects earlier views of its description.
-/

namespace Descent.Run

variable {ω ε ι α : Type}

/-- Within every budget, a family described from earlier views is itself an earlier view. -/
def Monotonic (F : (ι → Run ω ε α) → ι → Run ω ε α) : Prop :=
  ∀ n self self', (∀ j, BelowAt Eq n (self j) (self' j)) → ∀ i, BelowAt Eq n (F self i) (F self' i)

/-- The description unfolded `n` times; the references left over never end. -/
def fixAt (F : (ι → Run ω ε α) → ι → Run ω ε α) : Nat → ι → Run ω ε α
  | 0, _ => never
  | n + 1, i => F (fixAt F n) i

theorem fixAt_below {F : (ι → Run ω ε α) → ι → Run ω ε α} (hF : Monotonic F) (n k : Nat) (i : ι) :
    BelowAt Eq n (fixAt F k i) (fixAt F (k + 1) i) := by
  induction k generalizing i with
  | zero => exact Progress.going_le _
  | succ k ih => exact hF n _ _ ih i

/-- **The family described in terms of itself.** -/
def fix (F : (ι → Run ω ε α) → ι → Run ω ε α) (hF : Monotonic F) (i : ι) : Run ω ε α :=
  ⟨fun n => (fixAt F n i).upTo n, fun n =>
    Progress.le_trans (fixAt_below hF n n i) ((fixAt F (n + 1) i).mono n)⟩

variable {F : (ι → Run ω ε α) → ι → Run ω ε α} {hF : Monotonic F}

/-- Within a budget, the description of the family unfolds to its next approximation. -/
theorem unfold_upTo (i : ι) (n : Nat) : (F (fix F hF) i).upTo n = (fixAt F (n + 1) i).upTo n :=
  Progress.le_antisymm (hF n (fix F hF) (fixAt F n) (fun _ => Progress.le_refl _) i)
    (hF n (fixAt F n) (fix F hF) (fun _ => Progress.le_refl _) i)

/-- The family shows no more than its description. -/
theorem fix_unfold_below (i : ι) (n : Nat) : (fix F hF i).upTo n ≤ (F (fix F hF) i).upTo n := by
  rw [unfold_upTo]
  exact fixAt_below hF n n i

/-- The description shows no more than the family does with one unit more. -/
theorem fix_fold_below (i : ι) (n : Nat) :
    (F (fix F hF) i).upTo n ≤ (fix F hF i).upTo (n + 1) := by
  rw [unfold_upTo]
  exact (fixAt F (n + 1) i).mono n

/-- A family whose description shows earlier views shows earlier views. -/
theorem fix_belowAt {F F' : (ι → Run ω ε α) → ι → Run ω ε α} (hF : Monotonic F)
    (hF' : Monotonic F') {n : Nat}
    (h : ∀ self self', (∀ j, BelowAt Eq n (self j) (self' j)) →
      ∀ i, BelowAt Eq n (F self i) (F' self' i)) (i : ι) :
    BelowAt Eq n (fix F hF i) (fix F' hF' i) := by
  suffices ∀ k i, BelowAt Eq n (fixAt F k i) (fixAt F' k i) from this n i
  intro k
  induction k with
  | zero => exact fun _ => belowAt_self
  | succ k ih => exact h _ _ ih

end Descent.Run
