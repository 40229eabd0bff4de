import Descent.Parser.Character

/-!
# Lexemes

`lexeme p` strips whitespace on both sides of `p`, as much as there is, and keeps the value.
-/

namespace Descent.Parser

variable {ω ε α : Type}

/-- As many blanks as there are. -/
def skipBlanks : Parser ω ε Text := many blank

/-- Blanks, `p` and blanks again, under a function of three values that keeps the middle one. -/
def lexeme (p : Parser ω ε α) : Parser ω ε α :=
  ap (fun f b => pure (f b))
    (ap (fun f a => pure (f a)) (skipBlanks.map fun _ => pure fun a _ => a) p)
    skipBlanks

end Descent.Parser
