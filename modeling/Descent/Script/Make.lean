import Descent.Script.Value

/-!
# Making parsers

What the makers make of their arguments. Nothing is called, forced or run here, so nothing can
be recorded or printed; the only refusals are those of a single character and of a choice, and
arguments of a wrong kind.

The last are for ill-typed arguments only, and all are noticed when the parser is made. A part that is
no parser might as well be taken here and be noticed when it is run, or never; scripts that rely on
this are left out.
-/

namespace Descent.Script

/-- A refusal to make a parser is a fault. -/
def refused {α : Type} : Except BuildError α → Except Fault α
  | .ok a => .ok a
  | .error e => .error (.build e)

/-- A value in the place of an observer: a label to record the text under, or else a function. -/
def Value.toObserver : Value → Value
  | .text label => .recorder label
  | o => o

/-- **The value that a maker makes** of its arguments. -/
def Maker.make : Maker → List Value → Except Fault Value
  | anyChar, [] => .ok (.parser .anyChar)
  | peek, [] => .ok (.parser .peek)
  | letter, [] => .ok (.parser .letter)
  | digit, [] => .ok (.parser .digit)
  | letterOrDigit, [] => .ok (.parser .letterOrDigit)
  | space, [] => .ok (.parser .space)
  | blank, [] => .ok (.parser .blank)
  | digitValue, [] => .ok (.parser .digitValue)
  | satisfy, [f] => .ok (.parser (.satisfy f))
  | char, [.text s] => do return .parser (← refused (Recipe.ofChar? s))
  | literal, [.text s] => .ok (.parser (.literal s))
  | succeed, [x] => .ok (.parser (.succeed x))
  | fail, [] => .ok (.parser .fail)
  | bind, [p, f] => do return .parser (.bind (← p.parser?) f)
  | map, [f, p] => do return .parser (.map f (← p.parser?))
  | mapped, [p, f] => do return .parser (.map f (← p.parser?))
  | ap, [p, q] => do return .parser (.ap (← p.parser?) (← q.parser?))
  | liftAs, [f] => .ok f
  | liftAs, f :: p :: ps => do return .parser (.liftAs f (← p.parser?) (← Value.parsers? ps))
  | keepRight, [p, q] => do return .parser (.keepRight (← p.parser?) (← q.parser?))
  | keepLeft, [p, q] => do return .parser (.keepLeft (← p.parser?) (← q.parser?))
  | lazily, [r] => .ok (.parser (.lazily r.toRef))
  | orElse, [p, r] => do return .parser (.orElse (← p.parser?) r.toRef)
  | firstOf, rs => do return .parser (← refused (Recipe.ofChoices? (rs.map Value.toRef)))
  | many, [p] => do return .parser (.many (← p.parser?))
  | many1, [p] => do return .parser (.many1 (← p.parser?))
  | lexeme, [p] => do return .parser (.lexeme (← p.parser?))
  | tap, [o] => .ok (.parser (.tap o.toObserver))
  | logInput, [p, o] => do return .parser (.logInput o.toObserver (← p.parser?))
  | printInput, [p] => do return .parser (.logInput .printer (← p.parser?))
  | custom, [f] => .ok (.parser (.custom f))
  | unpack, [p] => do return .unpacked (← p.parser?)
  | _, _ => .error .illTyped

end Descent.Script
