import Descent.Run.Loop

/-!
# Relations between runs

What is to be shown of two programs that are built alike is shown part by part: it holds of values
and errors at hand, it passes from parts to their sequence, and from a body to its loop.

* `Run.Relator ω ω' ε`: a relation between runs with these properties, for every relation of their
  values. The two runs may leave marks of different kinds.
* `Relator.belowAt n`: earlier views within budget `n`.
* `Relator.flip`, `Relator.both`: the relation the other way round, and two relations at once.
-/

namespace Descent.Run

/-- **A relation between runs that respects how runs are made.** -/
structure Relator (ω ω' ε : Type) where
  /-- The runs are related, and so are their values. -/
  Rel : {α β : Type} → (α → β → Prop) → Run ω ε α → Run ω' ε β → Prop
  pure {α β : Type} {R : α → β → Prop} {a : α} {b : β} (h : R a b) :
    Rel R (Pure.pure a) (Pure.pure b)
  raise {α β : Type} (R : α → β → Prop) (e : ε) : Rel R (Run.raise e) (Run.raise e)
  bind {α β γ δ : Type} {R : α → β → Prop} {S : γ → δ → Prop} {r : Run ω ε α} {s : Run ω' ε β}
    {f : α → Run ω ε γ} {g : β → Run ω' ε δ} (h : Rel R r s)
    (hf : ∀ a b, R a b → Rel S (f a) (g b)) : Rel S (r >>= f) (s >>= g)
  loop {σ τ β γ : Type} {R : σ → τ → Prop} {S : β → γ → Prop} {body : σ → Run ω ε (σ ⊕ β)}
    {body' : τ → Run ω' ε (τ ⊕ γ)} {s : σ} {t : τ}
    (h : ∀ s t, R s t → Rel (Sum.LiftRel R S) (body s) (body' t)) (hs : R s t) :
    Rel S (Run.loop body s) (Run.loop body' t)

namespace Relator

variable {ω ω' ε α β γ : Type}

/-- Sequencing two runs whose first parts have equal values. -/
theorem bind_eq (ρ : Relator ω ω' ε) {S : β → γ → Prop} {r : Run ω ε α} {s : Run ω' ε α}
    {f : α → Run ω ε β} {g : α → Run ω' ε γ} (h : ρ.Rel Eq r s)
    (hf : ∀ a, ρ.Rel S (f a) (g a)) : ρ.Rel S (r >>= f) (s >>= g) :=
  ρ.bind h fun a _ e => e ▸ hf a

theorem ofExcept (ρ : Relator ω ω' ε) (x : Except ε α) :
    ρ.Rel Eq (Run.ofExcept x) (Run.ofExcept x) := by
  cases x with
  | ok a => exact ρ.pure rfl
  | error e => exact ρ.raise Eq e

/-- The first run shows an earlier view within the budget. -/
def belowAt (n : Nat) : Relator ω ω ε where
  Rel R r s := BelowAt R n r s
  pure h := .pure h n
  raise _ e := .raise e n
  bind := .bind
  loop h := loop_below h

theorem liftRel_flip {σ τ : Type} (R : σ → τ → Prop) (S : β → γ → Prop) :
    (fun x y => Sum.LiftRel R S y x) = Sum.LiftRel (fun t s => R s t) (fun c b => S b c) := by
  funext x y
  refine propext ⟨fun h => ?_, fun h => ?_⟩ <;> cases h <;> constructor <;> assumption

/-- The relation read from right to left. -/
def flip (ρ : Relator ω ω' ε) : Relator ω' ω ε where
  Rel R r s := ρ.Rel (fun b a => R a b) s r
  pure h := ρ.pure h
  raise _ e := ρ.raise _ e
  bind h hf := ρ.bind h fun a b hab => hf b a hab
  loop {_ _ _ _ R S _ _ _ _} h hs := ρ.loop (fun t s hst => liftRel_flip R S ▸ h s t hst) hs

/-- Both relations at once. -/
def both (ρ σ : Relator ω ω' ε) : Relator ω ω' ε where
  Rel R r s := ρ.Rel R r s ∧ σ.Rel R r s
  pure h := ⟨ρ.pure h, σ.pure h⟩
  raise R e := ⟨ρ.raise R e, σ.raise R e⟩
  bind h hf := ⟨ρ.bind h.1 fun a b hab => (hf a b hab).1, σ.bind h.2 fun a b hab => (hf a b hab).2⟩
  loop h hs := ⟨ρ.loop (fun s t hst => (h s t hst).1) hs, σ.loop (fun s t hst => (h s t hst).2) hs⟩

end Relator

end Descent.Run
