import Descent.Parser.Basic

/-!
# Parsing a whole text

A parse of a whole text has to leave nothing over. `unpack` gives the value or nothing;
`parseAll` says in the second case whether the parser failed or stopped early.
-/

namespace Descent

/-- Why a text as a whole has no parse. -/
inductive ParseError where
  /-- The parser failed. -/
  | noParse
  /-- The parser succeeded, but it left a part of the text. -/
  | incomplete
deriving Repr, DecidableEq

namespace ParseError

def message : ParseError → String
  | noParse => "parser failed on input"
  | incomplete => "parser succeeded but input was left unconsumed"

/-- The message with its heading. -/
def render (e : ParseError) : String := "Parse error: " ++ e.message

end ParseError

namespace Outcome

variable {α : Type}

/-- The value of a success that leaves nothing over. -/
def whole? : Outcome α → Option α
  | success a [] => some a
  | success _ (_ :: _) => none
  | failure => none

/-- The same, with the reason if there is none. -/
def whole : Outcome α → Except ParseError α
  | success a [] => .ok a
  | success _ (_ :: _) => .error .incomplete
  | failure => .error .noParse

theorem whole?_eq_none_iff {o : Outcome α} : o.whole? = none ↔ ∀ a, o ≠ .success a [] := by
  match o with
  | .failure | .success _ (_ :: _) => exact ⟨fun _ _ h => (by cases h), fun _ => rfl⟩
  | .success a [] => exact ⟨fun h => (by cases h), fun h => absurd rfl (h a)⟩

end Outcome

namespace Parser

variable {ω ε α : Type}

/-- The value of a parse of the whole text, if there is one. -/
def unpack (p : Parser ω ε α) (s : Text) : Run ω ε (Option α) :=
  p.run s >>= fun o => pure o.whole?

/-- The value of a parse of the whole text, or why there is none. -/
def parseAll (p : Parser ω ε α) (s : Text) : Run ω ε (Except ParseError α) :=
  p.run s >>= fun o => pure o.whole

end Parser

end Descent
