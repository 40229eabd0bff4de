import Descent.Outcome
import Descent.Text.Escaped

/-!
# Quoted text

A text between quotes, with escapes for what would not be seen or would end it early.

* `quoteFor s`: the quote in use, a single one unless that stands in the text and a double one
  does not.
* `escape e q c`: how a character is written inside the quote `q`, where `e` says which characters
  outside ASCII are escaped.
* `quoted s`: the text in quotes.
* `unquote? t`: the text that is quoted by `t`, read by undoing the escapes up to the closing quote,
  which has to be the last character.
-/

namespace Descent.Text

/-- The quote to be used. -/
def quoteFor (s : Text) : Char := if s.contains '\'' && !s.contains '"' then '"' else '\''

/-- The last `w` hexadecimal digits of a number. -/
def hex : Nat → Nat → Text
  | 0, _ => []
  | w + 1, n => hex w (n / 16) ++ [Nat.digitChar (n % 16)]

/-- A code point in as few digits as one of the three forms allows. -/
def escapeCode (n : Nat) : Text :=
  if n < 0x100 then '\\' :: 'x' :: hex 2 n
  else if n < 0x10000 then '\\' :: 'u' :: hex 4 n
  else '\\' :: 'U' :: hex 8 n

/-- A character as it is written inside the quote `q`. -/
def escape (escaped : Char → Bool) (q c : Char) : Text :=
  if c = '\\' || c = q then ['\\', c]
  else if c = '\n' then ['\\', 'n']
  else if c = '\r' then ['\\', 'r']
  else if c = '\t' then ['\\', 't']
  else if c.toNat < 0x20 || c.toNat = 0x7f || (0x80 ≤ c.toNat && escaped c) then
    escapeCode c.toNat
  else [c]

/-- **The text in quotes**, given which characters outside ASCII are escaped. -/
def quotedWith (escaped : Char → Bool) (s : Text) : Text :=
  let q := quoteFor s
  q :: (s.flatMap (escape escaped q) ++ [q])

/-- The text in quotes. -/
def quoted (s : Text) : Text := quotedWith isEscaped s

/-- The value of a hexadecimal digit. -/
def hexVal? (c : Char) : Option Nat :=
  if '0' ≤ c ∧ c ≤ '9' then some (c.toNat - '0'.toNat)
  else if 'a' ≤ c ∧ c ≤ 'f' then some (c.toNat - 'a'.toNat + 10)
  else if 'A' ≤ c ∧ c ≤ 'F' then some (c.toNat - 'A'.toNat + 10)
  else none

/-- The character whose code point the digits write, most significant first. -/
def ofHex? (ds : Text) : Option Char := do
  let n ← ds.foldlM (fun n d => do return 16 * n + (← hexVal? d)) 0
  if n.isValidChar then return Char.ofNat n else none

/-- The text up to the closing quote `q`, with its escapes undone. The quote has to close the
whole. -/
def unescape? (q : Char) : Text → Option Text
  | '\\' :: 'x' :: a :: b :: t => do return (← ofHex? [a, b]) :: (← unescape? q t)
  | '\\' :: 'u' :: a :: b :: c :: d :: t => do
    return (← ofHex? [a, b, c, d]) :: (← unescape? q t)
  | '\\' :: 'U' :: a :: b :: c :: d :: e :: f :: g :: h :: t => do
    return (← ofHex? [a, b, c, d, e, f, g, h]) :: (← unescape? q t)
  | '\\' :: 'n' :: t => do return '\n' :: (← unescape? q t)
  | '\\' :: 'r' :: t => do return '\r' :: (← unescape? q t)
  | '\\' :: 't' :: t => do return '\t' :: (← unescape? q t)
  | '\\' :: '\\' :: t => do return '\\' :: (← unescape? q t)
  | '\\' :: '\'' :: t => do return '\'' :: (← unescape? q t)
  | '\\' :: '"' :: t => do return '"' :: (← unescape? q t)
  | '\\' :: _ => none
  | c :: t => if c = q then (if t = [] then some [] else none)
    else do return c :: (← unescape? q t)
  | [] => none

/-- **The text that is quoted**, if this is a quoted text. -/
def unquote? : Text → Option Text
  | q :: t => if q = '\'' || q = '"' then unescape? q t else none
  | [] => none

end Descent.Text
