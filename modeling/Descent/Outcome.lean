/-!
# Outcomes

What a parser makes of a text: a value and the text it leaves, or failure. There is never a second
outcome. The value plays no part in whether a parse succeeded.
-/

namespace Descent

/-- A text is the list of its characters, one for each code point. -/
abbrev Text := List Char

/-- The outcome of a parse. -/
inductive Outcome (α : Type) where
  /-- The value, and the text that was not consumed. -/
  | success (value : α) (rest : Text)
  | failure
deriving Repr, DecidableEq

namespace Outcome

variable {α β γ : Type}

/-- Changes the value and nothing else. -/
def map (f : α → β) : Outcome α → Outcome β
  | success a r => success (f a) r
  | failure => failure

def succeeded : Outcome α → Bool
  | success _ _ => true
  | failure => false

@[simp] theorem map_success (f : α → β) (a : α) (r : Text) :
    (success a r).map f = success (f a) r := rfl

@[simp] theorem map_failure (f : α → β) : (failure : Outcome α).map f = failure := rfl

@[simp] theorem map_map (f : α → β) (g : β → γ) (o : Outcome α) :
    (o.map f).map g = o.map (g ∘ f) := by cases o <;> rfl

@[simp] theorem succeeded_map (f : α → β) (o : Outcome α) :
    (o.map f).succeeded = o.succeeded := by cases o <;> rfl

end Outcome

end Descent
