import Descent.Parser.Fix

/-!
# Counting by self-reference

Two parsers that refer to themselves and count how often they do.

* `parens`: the depth of nested parentheses.
* `counter`: the number of `a`s before a `b`. Each look-up of the reference leaves the marks of a
  given run, so that the marks of a parse count them.
-/

namespace Descent.Nesting

variable {ω ε : Type}

/-- A pair of parentheses around what is counted, or nothing. -/
def nested (self : Unit → Parser ω ε Nat) (_ : Unit) : Parser ω ε Nat :=
  .firstOf [
    .deferred <| pure <| (Parser.char '(').bind fun _ => pure <|
      (Parser.lazily (.deferred (pure (self ())))).bind fun n => pure <|
        (Parser.char ')').bind fun _ => pure (.succeed (n + 1)),
    .deferred <| pure <| .succeed 0]

theorem nested_monotonic : Parser.Monotonic (nested (ω := ω) (ε := ε)) := by
  intro n self self' h _
  refine Parser.firstOf_cons_belowAt (.pure ?_ n) Parser.belowAt_self
  refine Parser.bind_belowAt Parser.belowAt_self fun _ => .pure ?_ n
  refine Parser.bind_belowAt (Parser.lazily_belowAt (.pure (h ()) n)) fun m => ?_
  exact .pure Parser.belowAt_self n

/-- **The depth of nested parentheses.** -/
def parens : Parser ω ε Nat := Parser.fix nested nested_monotonic ()

/-- A `b`, or an `a` before what is counted. -/
def counted (note : Run ω ε Unit) (self : Unit → Parser ω ε Nat) (_ : Unit) : Parser ω ε Nat :=
  ((Parser.char 'b').map fun _ => pure 0).orElse <| .deferred do
    note
    return ((Parser.char 'a').bind fun _ => pure (self ())).map fun n => pure (n + 1)

theorem counted_monotonic (note : Run ω ε Unit) : Parser.Monotonic (counted note) := by
  intro n self self' h _
  refine Parser.orElse_belowAt Parser.belowAt_self (Run.belowAt_self.bind_eq fun _ => .pure ?_ n)
  refine Parser.map_belowAt ?_ fun _ => Run.belowAt_self
  exact Parser.bind_belowAt Parser.belowAt_self fun _ => .pure (h ()) n

/-- **The number of `a`s before a `b`.** -/
def counter (note : Run ω ε Unit) : Parser ω ε Nat :=
  Parser.fix (counted note) (counted_monotonic note) ()

end Descent.Nesting
