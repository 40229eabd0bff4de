import Descent.Script.Eval
import Descent.Run.Observe

/-!
# Sessions

A session runs terms one after the other and may keep their values under global names. Each step is
watched: it is stopped before it records one event too many, so a step that would go on for ever
while it records still has an answer.
-/

namespace Descent.Script

/-- No step records more events than this. -/
def eventLimit : Nat := 60

/-- A term, and the name its value is to be kept under, if any. -/
structure Step where
  name : Option String
  term : Term

/-- The answer to a step: what it left behind and how it came out. It is absent for a step that
neither ends nor meets the limit within the largest budget. -/
abbrev Answer := Option (Observation Mark Fault Value)

/-- The value of the step, if it has one. -/
def Answer.value? : Answer → Option Value
  | some ⟨_, .ended (.ok x)⟩ => some x
  | _ => none

/-- The events, in order, with their labels. -/
def events (t : List Mark) : List (Text × Value) :=
  t.filterMap fun
    | .event label x => some (label, x)
    | .printed _ => none

/-- All that was printed. -/
def printed (t : List Mark) : Text :=
  t.flatMap fun
    | .event _ _ => []
    | .printed s => s

/-- What a step answers under the given globals. -/
def answer (globals : Env) (t : Term) : Answer := (run globals t).observe Mark.isEvent eventLimit

/-- The globals after a step: a name given to a value replaces an older one. A step without a
value changes nothing. -/
def define (globals : Env) (name : Option String) (x? : Option Value) : Env :=
  match name, x? with
  | some name, some x => (name, x) :: globals.filter (·.1 != name)
  | _, _ => globals

/-- **Runs the steps in order**, from the given globals. -/
def session (globals : Env) : List Step → List Answer
  | [] => []
  | s :: ss =>
    let a := answer globals s.term
    a :: session (define globals s.name a.value?) ss

end Descent.Script
