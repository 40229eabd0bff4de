import Descent.Script.Make
import Descent.Script.Data

/-!
# Evaluating scripts

* `Action.perform h`: what the actions do, given what calls do.
* `eval h globals env`: the value of a term. A name is looked up among the variables in sight and
  then among the globals, at the moment the term is evaluated.
* `calls globals`: what applying a function or forcing a reference does, tied to itself through
  the terms in functions and references.
* `run globals`: a term evaluated on its own.
-/

namespace Descent.Script

/-- The meaning of script values, with calls as given. -/
abbrev Calls := Host Mark Fault Value

/-- A left fold: at each element the function takes the value so far and then the element. -/
def foldValues (h : Calls) (f acc : Value) : List Value → Run Mark Fault Value
  | [] => pure acc
  | x :: xs => do
    let g ← h.apply f acc
    let acc ← h.apply g x
    foldValues h f acc xs

/-- A fold that at each element does what `step` does, and nothing else, gives what the fold over
`step` gives. -/
theorem foldValues_agrees {α β : Type} {h : Calls} {f : Value} {acc : α → Value} {elem : β → Value}
    {step : α → β → α} (hf : ∀ a x, (h.apply f (acc a) >>= fun g => h.apply g (elem x)).Agrees
      (pure (acc (step a x)))) (a : α) (xs : List β) :
    (foldValues h f (acc a) (xs.map elem)).Agrees (pure (acc (xs.foldl step a))) := by
  induction xs generalizing a with
  | nil => exact .refl _
  | cons x xs ih =>
    rw [List.map_cons, foldValues, ← bind_assoc]
    refine ((hf a x).bind fun _ => .refl _).trans ?_
    rw [pure_bind]
    exact ih (step a x)

/-- **What an action does.** -/
def Action.perform (h : Calls) : Action → List Value → Run Mark Fault Value
  | force, [.parser r] => pure (.parser r)
  | force, [x] => h.force x
  | run, [.parser r, .text s] => do
    let o ← (h.parse r).run s
    return .outcome o
  | parseAll, [.parser r, .text s] => do
    match ← (h.parse r).parseAll s with
    | .ok x => return .tuple [x, .null]
    | .error e => return .tuple [.null, .parseError e]
  | call, [f, x] => h.apply f x
  | fold, [f, acc, xs] => do
    let xs ← xs.elements?
    foldValues h f acc xs
  | trace, [.text label, x] => do
    Run.emit (.event label x)
    return x
  | _, _ => Run.raise .illTyped

/-- Carries out an operation on its arguments. -/
def Op.perform (h : Calls) : Op → List Value → Run Mark Fault Value
  | make m, xs => m.make xs
  | data d, xs => d.compute xs
  | act a, xs => a.perform h xs

section

variable (h : Calls) (globals env : Env)

mutual

/-- **The value of a term.** -/
def eval : Term → Run Mark Fault Value
  | .null => pure .null
  | .bool b => pure (.bool b)
  | .int i => pure (.int i)
  | .text s => pure (.text s)
  | .var name => match (env.lookup name).or (globals.lookup name) with
    | some x => pure x
    | none => Run.raise (.unbound name)
  | .fn param body => pure (.closure env param body)
  | .thunk body label => pure (.thunk env body label)
  | .ite c a b => do
    let x ← eval c
    if x.holds then eval a else eval b
  | .call op args => do
    let xs ← evalAll args
    op.perform h xs
termination_by structural t => t

/-- The values of terms, from left to right. -/
def evalAll : List Term → Run Mark Fault (List Value)
  | [] => pure []
  | t :: ts => do
    let x ← eval t
    let xs ← evalAll ts
    return x :: xs
termination_by structural ts => ts

end

end

theorem eval_var {h : Calls} {globals env : Env} {name : String} {x : Value}
    (hx : env.lookup name = some x) : eval h globals env (.var name) = pure x := by
  rw [eval, hx]
  rfl

theorem eval_call_one (h : Calls) (globals env : Env) (op : Op) (t : Term) :
    eval h globals env (.call op [t]) = eval h globals env t >>= fun x => op.perform h [x] := by
  simp only [eval, evalAll, bind_assoc, pure_bind]

theorem eval_call_two (h : Calls) (globals env : Env) (op : Op) (t u : Term) :
    eval h globals env (.call op [t, u]) =
      eval h globals env t >>= fun x => eval h globals env u >>= fun y => op.perform h [x, y] := by
  simp only [eval, evalAll, bind_assoc, pure_bind]

/-- An application of one term to another: the function is evaluated first. -/
theorem eval_apply (h : Calls) (globals env : Env) (f x : Term) :
    eval h globals env (.call (.act .call) [f, x]) =
      eval h globals env f >>= fun g => eval h globals env x >>= fun y => h.apply g y :=
  eval_call_two ..

/-- A call: a function with its argument, or a deferred reference. -/
inductive Call where
  | apply (f x : Value)
  | force (x : Value)

/-- The meaning of script values when calls do this. -/
def host (self : Call → Run Mark Fault Value) : Calls where
  toCarrier := carrier
  apply f x := self (.apply f x)
  force x := self (.force x)

/-- What one call does, given what the calls in it do. -/
def callStep (globals : Env) (self : Call → Run Mark Fault Value) : Call → Run Mark Fault Value
  | .apply (.closure env param body) x => eval (host self) globals ((param, x) :: env) body
  | .apply (.equals x) y => pure (.bool (x.alike y).val)
  | .apply (.unpacked r) (.text s) => do
    let x? ← ((host self).parse r).unpack s
    return x?.getD .null
  | .apply (.parser r) (.text s) => do
    let o ← ((host self).parse r).run s
    return .outcome o
  | .apply (.recorder label) x => do
    Run.emit (.event label x)
    return .null
  | .apply .printer (.text s) => do
    Run.emit (.printed (s ++ ['\n']))
    return .null
  | .force (.thunk env body none) => eval (host self) globals env body
  | .force (.thunk env body (some label)) => do
    Run.emit (.event label .null)
    eval (host self) globals env body
  | .apply _ _ => Run.raise .illTyped
  | .force _ => Run.raise .illTyped

section

variable {n : Nat} {h h' : Calls}

theorem foldValues_belowAt (hh : Host.BelowAt n h h') (f acc : Value) (xs : List Value) :
    Run.BelowAt Eq n (foldValues h f acc xs) (foldValues h' f acc xs) := by
  induction xs generalizing acc with
  | nil => exact Run.belowAt_self
  | cons x xs ih => exact (hh.apply f acc).bind_eq fun g => (hh.apply g x).bind_eq ih

theorem Action.perform_belowAt (hh : Host.BelowAt n h h') (a : Action) (xs : List Value) :
    Run.BelowAt Eq n (a.perform h xs) (a.perform h' xs) := by
  unfold Action.perform
  split
  · exact Run.belowAt_self
  · exact hh.force _
  · exact (Host.parse_belowAt hh _ _).bind_eq fun _ => Run.belowAt_self
  · refine Run.BelowAt.bind_eq ?_ fun _ => Run.belowAt_self
    exact (Host.parse_belowAt hh _ _).bind_eq fun _ => Run.belowAt_self
  · exact hh.apply _ _
  · exact Run.belowAt_self.bind_eq (foldValues_belowAt hh _ _)
  · exact Run.belowAt_self
  · exact Run.belowAt_self

theorem Op.perform_belowAt (hh : Host.BelowAt n h h') (op : Op) (xs : List Value) :
    Run.BelowAt Eq n (op.perform h xs) (op.perform h' xs) := by
  cases op with
  | make | data => exact Run.belowAt_self
  | act a => exact a.perform_belowAt hh xs

mutual

theorem eval_belowAt (hh : Host.BelowAt n h h') (globals env : Env) :
    ∀ t : Term, Run.BelowAt Eq n (eval h globals env t) (eval h' globals env t)
  | .null | .bool _ | .int _ | .text _ | .var _ | .fn _ _ | .thunk _ _ => Run.belowAt_self
  | .ite c a b => (eval_belowAt hh globals env c).bind_eq fun x => by
    split
    · exact eval_belowAt hh globals env a
    · exact eval_belowAt hh globals env b
  | .call op args => (evalAll_belowAt hh globals env args).bind_eq (op.perform_belowAt hh)

theorem evalAll_belowAt (hh : Host.BelowAt n h h') (globals env : Env) :
    ∀ ts : List Term, Run.BelowAt Eq n (evalAll h globals env ts) (evalAll h' globals env ts)
  | [] => Run.belowAt_self
  | t :: ts => (eval_belowAt hh globals env t).bind_eq fun _ =>
    (evalAll_belowAt hh globals env ts).bind_eq fun _ => Run.belowAt_self

end

end

/-- What calls show only grows with what is shown by the calls that they make. -/
theorem callStep_monotonic (globals : Env) : Run.Monotonic (callStep globals) := by
  intro n self self' hself c
  have hh : Host.BelowAt n (host self) (host self') :=
    ⟨rfl, fun f x => hself (.apply f x), fun x => hself (.force x)⟩
  unfold callStep
  split
  · exact eval_belowAt hh _ _ _
  · exact Run.belowAt_self
  · refine Run.BelowAt.bind_eq ?_ fun _ => Run.belowAt_self
    exact (Host.parse_belowAt hh _ _).bind_eq fun _ => Run.belowAt_self
  · exact (Host.parse_belowAt hh _ _).bind_eq fun _ => Run.belowAt_self
  · exact Run.belowAt_self
  · exact Run.belowAt_self
  · exact eval_belowAt hh _ _ _
  · exact Run.belowAt_self.bind_eq fun _ => eval_belowAt hh _ _ _
  · exact Run.belowAt_self
  · exact Run.belowAt_self

/-- **What calls do** under the given globals. -/
def calls (globals : Env) : Calls := host (Run.fix (callStep globals) (callStep_monotonic globals))

/-- A term evaluated on its own. -/
def run (globals : Env) (t : Term) : Run Mark Fault Value := eval (calls globals) globals [] t

end Descent.Script
