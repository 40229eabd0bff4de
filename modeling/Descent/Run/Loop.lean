import Descent.Run.Basic

/-!
# Loops

`Run.loop body s` runs `body` from the state `s`, again from every state it hands on, until it
gives a result. A loop that never gives one goes on for ever, and so does its view: a budget of
`n` shows `n` rounds.

* `loopUpTo_mono`: more rounds and larger budgets only show more.
* `loop_below`: the loop of an earlier view is an earlier view of the loop.
* `loopUpTo_succ`: one round, then the rest.
-/

namespace Descent.Run

variable {ω ε σ τ β γ : Type}

/-- At most `k` rounds of the body, each shown within budget `n`. -/
def loopUpTo (body : σ → Run ω ε (σ ⊕ β)) (n : Nat) : Nat → σ → Progress ω ε β
  | 0, _ => .going
  | k + 1, s => ((body s).upTo n).andThen fun
    | .inl s => loopUpTo body n k s
    | .inr b => .done [] b

/-- Rounds that show earlier views make a loop that shows earlier views, by induction on the rounds of
the first loop. -/
theorem loopUpTo_below {S : β → γ → Prop} {R : σ → τ → Prop} {body : σ → Run ω ε (σ ⊕ β)}
    {body' : τ → Run ω ε (τ ⊕ γ)} {n n' : Nat}
    (h : ∀ s t, R s t → Progress.Below (Sum.LiftRel R S) ((body s).upTo n) ((body' t).upTo n'))
    {k k' : Nat} (hk : k ≤ k') {s : σ} {t : τ} (hs : R s t) :
    Progress.Below S (loopUpTo body n k s) (loopUpTo body' n' k' t) := by
  induction k generalizing k' s t with
  | zero => exact .going _
  | succ k ih =>
    obtain ⟨j, rfl⟩ : ∃ j, k' = j + 1 := ⟨k' - 1, by omega⟩
    refine Progress.andThen_below (h s t hs) fun x y hxy => ?_
    cases hxy with
    | inl hst => exact ih (by omega) hst
    | inr hb => exact .value hb

/-- More rounds, each with a larger budget, only show more. -/
theorem loopUpTo_mono (body : σ → Run ω ε (σ ⊕ β)) {n n' k k' : Nat} (hn : n ≤ n') (hk : k ≤ k')
    (s : σ) : loopUpTo body n k s ≤ loopUpTo body n' k' s := by
  refine loopUpTo_below (R := Eq) (fun s _ e => ?_) hk rfl
  subst e
  refine ((body s).mono_le hn).mono fun x _ e => ?_
  subst e
  cases x with
  | inl s => exact .inl rfl
  | inr b => exact .inr rfl

/-- **Repeats the body** from state to state until it gives a result. -/
def loop (body : σ → Run ω ε (σ ⊕ β)) (s : σ) : Run ω ε β :=
  ⟨fun n => loopUpTo body n n s, fun n => loopUpTo_mono body (Nat.le_succ n) (Nat.le_succ n) s⟩

theorem loop_upTo (body : σ → Run ω ε (σ ⊕ β)) (s : σ) (n : Nat) :
    (loop body s).upTo n = loopUpTo body n n s := rfl

theorem loopUpTo_succ (body : σ → Run ω ε (σ ⊕ β)) (n k : Nat) (s : σ) :
    loopUpTo body n (k + 1) s = ((body s).upTo n).andThen fun
      | .inl s => loopUpTo body n k s
      | .inr b => .done [] b := rfl

/-- A loop respects earlier views of its body, also when the two keep different states or give
different results. -/
theorem loop_below {S : β → γ → Prop} {R : σ → τ → Prop} {body : σ → Run ω ε (σ ⊕ β)}
    {body' : τ → Run ω ε (τ ⊕ γ)} {n : Nat}
    (h : ∀ s t, R s t → BelowAt (Sum.LiftRel R S) n (body s) (body' t)) {s : σ} {t : τ}
    (hs : R s t) : BelowAt S n (loop body s) (loop body' t) :=
  loopUpTo_below h (Nat.le_refl n) hs

end Descent.Run
