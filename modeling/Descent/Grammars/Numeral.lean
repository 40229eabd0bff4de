import Descent.Parser.Character

/-!
# Decimal numerals

* `number`: one or more digits, read as a number in base ten.
* `value ds`: the number that the digits write, most significant first.
* `numeral n`: the numeral of a number, without leading zeros.
-/

namespace Descent.Numeral

variable {ω ε : Type}

/-- The number that digits write. -/
def value (ds : List Nat) : Nat := ds.foldl (fun a d => 10 * a + d) 0

/-- **One or more digits as a number.** -/
def number : Parser ω ε Nat := (Parser.many1 .digitValue).map fun ds => pure (value ds)

/-- The numeral of a number. -/
def numeral (n : Nat) : Text := Nat.toDigits 10 n

end Descent.Numeral
