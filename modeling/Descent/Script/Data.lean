import Descent.Script.Value

/-!
# Computing with values

What the data operations give. They are functions of their arguments alone.
-/

namespace Descent.Script

/-- Whether the one text stands somewhere in the other. -/
def occursIn (u : Text) : Text → Bool
  | [] => u.isEmpty
  | c :: s => u.isPrefixOf (c :: s) || occursIn u s

def Value.text? : Value → Except Fault Text
  | .text s => .ok s
  | _ => .error .illTyped

/-- The text this many times over. -/
def copies (n : Nat) (s : Text) : Text :=
  if s.isEmpty then [] else (List.replicate n s).flatten

/-- Texts one after the other. -/
def joinTexts : List Value → Except Fault Text
  | [] => .ok []
  | x :: xs => do return (← x.text?) ++ (← joinTexts xs)

/-- The elements of a list or a tuple, and the characters of a text. -/
def Value.elements? : Value → Except Fault (List Value)
  | .list xs => .ok xs
  | .tuple xs => .ok xs
  | .text s => .ok (s.map fun c => .text [c])
  | _ => .error .illTyped

/-- The element at an index from zero. -/
def elementAt (xs : List Value) (i : Int) : Except Fault Value :=
  if i < 0 then .error .illTyped
  else match xs[i.toNat]? with
    | some x => .ok x
    | none => .error .illTyped

/-- **The value that a data operation gives.** -/
def DataOp.compute : DataOp → List Value → Except Fault Value
  | equals, [x] => .ok (.equals x)
  | blanks, [] => .ok (.text Descent.blanks)
  | success, [x, .text rest] => .ok (.outcome (.success x rest))
  | failure, [] => .ok (.outcome .failure)
  | same, [x, y] => .ok (.bool (x.alike y).val)
  | succeeded, [.outcome o] => .ok (.bool o.succeeded)
  | outcomeValue, [.outcome (.success x _)] => .ok x
  | outcomeRest, [.outcome (.success _ rest)] => .ok (.text rest)
  | list, xs => .ok (.list xs)
  | tuple, xs => .ok (.tuple xs)
  | last, xs => match xs.getLast? with
    | some x => .ok x
    | none => .error .illTyped
  | add, [.int a, .int b] => .ok (.int (a + b))
  | add, [.text a, .text b] => .ok (.text (a ++ b))
  | add, [.list a, .list b] => .ok (.list (a ++ b))
  | sub, [.int a, .int b] => .ok (.int (a - b))
  | mul, [.int a, .int b] => .ok (.int (a * b))
  | le, [.int a, .int b] => .ok (.bool (a ≤ b))
  | le, [.text a, .text b] => .ok (.bool (!decide (b < a)))
  | not, [x] => .ok (.bool !x.holds)
  | size, [x] => do return .int (← x.elements?).length
  | codePoint, [.text [c]] => .ok (.int c.toNat)
  | join, [x] => do return .text (← joinTexts (← x.elements?))
  | repeated, [.text s, .int n] => .ok (.text (copies n.toNat s))
  | member, [.text c, .text s] => .ok (.bool (occursIn c s))
  | get, [x, .int i] => do elementAt (← x.elements?) i
  | tail, [.text s] => .ok (.text (s.drop 1))
  | raise, [.text message] => .error (.raised message)
  | _, _ => .error .illTyped

end Descent.Script
