import Descent.Run.Progress

/-!
# Runs

A computation that leaves marks, may raise an error, and need not end. It is known through its
finite views: `r.upTo n` is what a budget of `n` shows, and a larger budget only shows more.

* `Run` is a lawful monad: `pure` leaves no marks, and `>>=` runs one after the other and stops at
  the first error.
* `emit`, `raise`, `never` and `ofExcept` are the basic runs.
* `Run.mono_le`: views grow with the budget.
* `BelowAt R n r s`: what `r` shows within `n` is an earlier view of what `s` shows within `n`.
-/

namespace Descent

/-- **A run**, given by its view at each budget, where a larger budget shows a later view. -/
@[ext] structure Run (ω ε α : Type) where
  upTo : Nat → Progress ω ε α
  mono : ∀ n, upTo n ≤ upTo (n + 1)

namespace Run

variable {ω ε α β γ δ : Type}

theorem mono_le (r : Run ω ε α) {m n : Nat} (h : m ≤ n) : r.upTo m ≤ r.upTo n := by
  induction h with
  | refl => exact Progress.le_refl _
  | step _ ih => exact Progress.le_trans ih (r.mono _)

/-- A run whose view is the same at every budget. -/
def constant (p : Progress ω ε α) : Run ω ε α := ⟨fun _ => p, fun _ => Progress.le_refl p⟩

/-- Leaves one mark. -/
def emit (m : ω) : Run ω ε Unit := constant (.done [m] ())

/-- Raises an error. -/
def raise (e : ε) : Run ω ε α := constant (.raised [] e)

/-- Goes on for ever and leaves no marks. -/
def never : Run ω ε α := constant .going

instance : Inhabited (Run ω ε α) := ⟨never⟩

instance : Monad (Run ω ε) where
  pure a := constant (.done [] a)
  bind r f := ⟨fun n => (r.upTo n).andThen fun a => (f a).upTo n, fun n =>
    Progress.andThen_le (r.mono n) fun a => (f a).mono n⟩

/-- A value or an error at hand, as a run. -/
def ofExcept : Except ε α → Run ω ε α
  | .ok a => pure a
  | .error e => raise e

instance : MonadLift (Except ε) (Run ω ε) := ⟨ofExcept⟩

@[simp] theorem pure_upTo (a : α) (n : Nat) : (pure a : Run ω ε α).upTo n = .done [] a := rfl

@[simp] theorem emit_upTo (m : ω) (n : Nat) : (emit m : Run ω ε Unit).upTo n = .done [m] () := rfl

@[simp] theorem raise_upTo (e : ε) (n : Nat) : (raise e : Run ω ε α).upTo n = .raised [] e := rfl

@[simp] theorem never_upTo (n : Nat) : (never : Run ω ε α).upTo n = .going := rfl

@[simp] theorem bind_upTo (r : Run ω ε α) (f : α → Run ω ε β) (n : Nat) :
    (r >>= f).upTo n = (r.upTo n).andThen fun a => (f a).upTo n := rfl

theorem ext_upTo {r s : Run ω ε α} (h : ∀ n, r.upTo n = s.upTo n) : r = s :=
  Run.ext (funext h)

@[simp] theorem raise_bind (e : ε) (f : α → Run ω ε β) : raise e >>= f = raise e :=
  ext_upTo fun _ => by simp

@[simp] theorem never_bind (f : α → Run ω ε β) : never >>= f = never :=
  ext_upTo fun _ => rfl

@[simp] theorem ofExcept_ok (a : α) : (ofExcept (.ok a) : Run ω ε α) = pure a := rfl

@[simp] theorem ofExcept_error (e : ε) : (ofExcept (.error e) : Run ω ε α) = raise e := rfl

instance : LawfulMonad (Run ω ε) := LawfulMonad.mk' (Run ω ε)
  (fun r => ext_upTo fun n => Progress.andThen_done (r.upTo n))
  (fun _ _ => ext_upTo fun _ => by simp)
  (fun _ _ _ => ext_upTo fun _ => Progress.andThen_andThen _ _ _)

/-- Within budget `n` the first run shows an earlier view than the second. -/
def BelowAt (R : α → β → Prop) (n : Nat) (r : Run ω ε α) (s : Run ω ε β) : Prop :=
  Progress.Below R (r.upTo n) (s.upTo n)

theorem belowAt_self {n : Nat} {r : Run ω ε α} : BelowAt Eq n r r := Progress.le_refl _

theorem BelowAt.pure {R : α → β → Prop} {a : α} {b : β} (h : R a b) (n : Nat) :
    BelowAt R n (Pure.pure a : Run ω ε α) (Pure.pure b) := .value h

theorem BelowAt.raise {R : α → β → Prop} (e : ε) (n : Nat) :
    BelowAt R n (Run.raise e : Run ω ε α) (Run.raise e) := .error e

theorem BelowAt.bind {R : α → β → Prop} {S : γ → δ → Prop} {n : Nat} {r : Run ω ε α}
    {s : Run ω ε β} {f : α → Run ω ε γ} {g : β → Run ω ε δ} (h : BelowAt R n r s)
    (hf : ∀ a b, R a b → BelowAt S n (f a) (g b)) : BelowAt S n (r >>= f) (s >>= g) :=
  Progress.andThen_below h hf

/-- Sequencing two runs whose first parts have equal values. -/
theorem BelowAt.bind_eq {S : γ → δ → Prop} {n : Nat} {r s : Run ω ε α}
    {f : α → Run ω ε γ} {g : α → Run ω ε δ} (h : BelowAt Eq n r s)
    (hf : ∀ a, BelowAt S n (f a) (g a)) : BelowAt S n (r >>= f) (s >>= g) :=
  h.bind fun a _ e => e ▸ hf a

end Run

end Descent
