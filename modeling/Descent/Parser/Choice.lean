import Descent.Parser.Basic

/-!
# Ordered choice

A choice commits to the first alternative that succeeds. Every alternative sees the text as it was,
and an alternative may be deferred: it is then computed only when its turn comes, and anew each
time.

* `Ref`: a parser at hand, or one to be computed on demand.
* `Ref.force` gets the parser; `lazily` does so whenever it is run.
* `orElse` is the choice between a parser and a reference, `firstOf` that among many references.
-/

namespace Descent

variable {ω ε α : Type}

/-- **A reference to a parser:** the parser itself, or a computation to be carried out each time
the parser is wanted. -/
inductive Ref (ω ε α : Type) where
  | ready (p : Parser ω ε α)
  | deferred (thunk : Run ω ε (Parser ω ε α))

/-- The parser referred to. -/
def Ref.force : Ref ω ε α → Run ω ε (Parser ω ε α)
  | .ready p => pure p
  | .deferred thunk => thunk

namespace Parser

/-- Runs the parser referred to, which is looked up when there is a text and not before. -/
def lazily (r : Ref ω ε α) : Parser ω ε α := after r.force

/-- Runs `p`, and if it fails, the other parser on the same text. -/
protected def orElse (p : Parser ω ε α) (r : Ref ω ε α) : Parser ω ε α :=
  ⟨fun s => p.run s >>= fun
    | .success a rest => pure (.success a rest)
    | .failure => (lazily r).run s⟩

/-- Tries the references in order on the same text. -/
def firstOf : List (Ref ω ε α) → Parser ω ε α
  | [] => fail
  | r :: rs => ⟨fun s => (lazily r).run s >>= fun
    | .success a rest => pure (.success a rest)
    | .failure => (firstOf rs).run s⟩

@[simp] theorem lazily_ready (p : Parser ω ε α) : lazily (.ready p) = p := after_pure p

@[simp] theorem lazily_deferred (t : Run ω ε (Parser ω ε α)) :
    lazily (.deferred t) = after t := rfl

theorem orElse_run (p : Parser ω ε α) (r : Ref ω ε α) (s : Text) :
    (p.orElse r).run s = p.run s >>= fun
      | .success a rest => pure (.success a rest)
      | .failure => r.force >>= fun q => q.run s := rfl

@[simp] theorem firstOf_nil : (firstOf [] : Parser ω ε α) = fail := rfl

/-- A choice among many is the choice between its head and the choice among the others. -/
theorem firstOf_cons (r : Ref ω ε α) (rs : List (Ref ω ε α)) :
    firstOf (r :: rs) = (lazily r).orElse (.ready (firstOf rs)) := by
  refine Parser.ext (funext fun s => ?_)
  rw [Parser.orElse, lazily_ready, firstOf]

/-- A choice succeeds with its first part, or with the second when the first fails. -/
theorem ends_orElse_success {p : Parser ω ε α} {r : Ref ω ε α} {s rest : Text} {t : List ω}
    {a : α} : ((p.orElse r).run s).Ends t (.ok (.success a rest)) ↔
      (p.run s).Ends t (.ok (.success a rest)) ∨
      ∃ u v, (p.run s).Ends u (.ok .failure) ∧
        ((lazily r).run s).Ends v (.ok (.success a rest)) ∧ t = u ++ v := by
  rw [Parser.orElse, Run.ends_bind_ok]
  constructor
  · rintro ⟨o, u, v, hp, hq, rfl⟩
    cases o with
    | failure => exact .inr ⟨u, v, hp, hq, rfl⟩
    | success b rest' =>
      obtain ⟨rfl, h⟩ := Run.ends_pure.1 hq
      obtain ⟨rfl, rfl⟩ : a = b ∧ rest = rest' := by simpa using h
      exact .inl (by simpa using hp)
  · rintro (hp | ⟨u, v, hp, hq, rfl⟩)
    · exact ⟨_, t, [], hp, Run.ends_pure.2 ⟨rfl, rfl⟩, by simp⟩
    · exact ⟨_, u, v, hp, hq, rfl⟩

/-- A choice fails when both of its parts do. -/
theorem ends_orElse_failure {p : Parser ω ε α} {r : Ref ω ε α} {s : Text} {t : List ω} :
    ((p.orElse r).run s).Ends t (.ok .failure) ↔
      ∃ u v, (p.run s).Ends u (.ok .failure) ∧ ((lazily r).run s).Ends v (.ok .failure) ∧
        t = u ++ v := by
  rw [Parser.orElse, Run.ends_bind_ok]
  constructor
  · rintro ⟨o, u, v, hp, hq, rfl⟩
    cases o with
    | failure => exact ⟨u, v, hp, hq, rfl⟩
    | success b rest' => simp at hq
  · rintro ⟨u, v, hp, hq, rfl⟩
    exact ⟨_, u, v, hp, hq, rfl⟩

end Parser

end Descent
