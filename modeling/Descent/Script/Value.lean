import Descent.Script.Term
import Descent.Recipe.Denote
import Descent.Parser.Whole

/-!
# Script values

What script terms evaluate to. Parsers are values as recipes, and functions are values as the term
they came from with the variables they were made among, so a value can be taken apart and compared
without calling anything.

* `Value.holds`: the values that pass for true in a test.
* `Value.same`: equality by value. Values of different kinds differ, but for truth values and the
  numbers that they count as. Which object a function or a parser is cannot be told from the value, so
  no two of these are told apart.
* `Value.alike`: the same answer, found without a look into what two values share.
-/

namespace Descent.Script

/-- **A value of a script.** -/
inductive Value where
  | null
  | bool (b : Bool)
  | int (i : Int)
  | text (s : Text)
  | list (xs : List Value)
  | tuple (xs : List Value)
  | outcome (o : Outcome Value)
  | parseError (e : ParseError)
  | parser (r : Recipe Value)
  | closure (env : List (String × Value)) (param : String) (body : Term)
  | thunk (env : List (String × Value)) (body : Term) (label : Option Text)
  /-- The test for equality with a value, as `Value.same` has it. -/
  | equals (x : Value)
  /-- The function from a whole text to the value of its parse. -/
  | unpacked (r : Recipe Value)
  /-- The function that records its argument under a label. -/
  | recorder (label : Text)
  /-- The function that prints its argument on a line. -/
  | printer

instance : Inhabited Value := ⟨.null⟩

/-- The variables in sight, the innermost first. -/
abbrev Env := List (String × Value)

namespace Value

/-- Null, zero, a failure and all that is empty do not hold. -/
def holds : Value → Bool
  | null => false
  | bool b => b
  | int i => i != 0
  | text s => !s.isEmpty
  | list xs => !xs.isEmpty
  | tuple xs => !xs.isEmpty
  | outcome o => o.succeeded
  | _ => true

/-- Whether there is something to compare in the value: parsers and functions are only run. -/
def isData : Value → Bool
  | parser _ | closure .. | thunk .. | equals _ | unpacked _ | recorder _ | printer => false
  | _ => true

mutual

/-- **Equality by value.** A truth value is the same as the number one or zero. Functions and parsers
have nothing to compare, and there are no objects here by which two of them would differ. -/
def same : Value → Value → Bool
  | null, null => true
  | bool a, bool b => a == b
  | bool a, int b => a.toInt == b
  | int a, bool b => a == b.toInt
  | int a, int b => a == b
  | text a, text b => a == b
  | list xs, list ys => sameAll xs ys
  | tuple xs, tuple ys => sameAll xs ys
  | outcome o, outcome o' => sameOutcome o o'
  | parseError e, parseError e' => e == e'
  | x, y => !x.isData && !y.isData
termination_by structural x => x

def sameAll : List Value → List Value → Bool
  | [], [] => true
  | x :: xs, y :: ys => same x y && sameAll xs ys
  | _, _ => false
termination_by structural xs => xs

def sameOutcome : Outcome Value → Outcome Value → Bool
  | .failure, .failure => true
  | .success x r, .success y r' => same x y && r == r'
  | _, _ => false
termination_by structural o => o

end

mutual

/-- Every value is the same as itself. -/
theorem same_self : ∀ x : Value, same x x = true
  | null | closure .. | thunk .. | equals _ | unpacked _ | recorder _ | printer | parser _ => rfl
  | bool _ | int _ | text _ | parseError _ => by simp [same]
  | list xs | tuple xs => sameAll_self xs
  | outcome o => sameOutcome_self o

theorem sameAll_self : ∀ xs : List Value, sameAll xs xs = true
  | [] => rfl
  | x :: xs => by rw [sameAll, same_self x, sameAll_self xs]; rfl

theorem sameOutcome_self : ∀ o : Outcome Value, sameOutcome o o = true
  | .failure => rfl
  | .success x r => by rw [sameOutcome, same_self x]; simp

end

mutual

/-- **Compares two values.** Parts that are one object in memory are the same and are not looked
into, so the work is bounded by what the values do not share. -/
def alike : (x y : Value) → { b : Bool // b = same x y }
  | list xs, list ys => alikeAll xs ys
  | tuple xs, tuple ys => alikeAll xs ys
  | outcome o, outcome o' => alikeOutcome o o'
  | x, y => ⟨same x y, rfl⟩
termination_by structural x => x

def alikeAll : (xs ys : List Value) → { b : Bool // b = sameAll xs ys }
  | x :: xs, y :: ys =>
    have part : x = y → (alike x y).val = true := fun h =>
      (alike x y).property.trans (h ▸ same_self x)
    ⟨withPtrEq x y (fun _ => (alike x y).val) part && (alikeAll xs ys).val,
      congr (congrArg and (alike x y).property) (alikeAll xs ys).property⟩
  | xs, ys => ⟨sameAll xs ys, rfl⟩
termination_by structural xs => xs

def alikeOutcome : (o o' : Outcome Value) → { b : Bool // b = sameOutcome o o' }
  | .success x r, .success y r' =>
    have part : x = y → (alike x y).val = true := fun h =>
      (alike x y).property.trans (h ▸ same_self x)
    ⟨withPtrEq x y (fun _ => (alike x y).val) part && r == r',
      congrArg (· && r == r') (alike x y).property⟩
  | o, o' => ⟨sameOutcome o o', rfl⟩
termination_by structural o => o

end

end Value

/-- Why a step of a script has no value. -/
inductive Fault where
  /-- A parser could not be made. -/
  | build (e : BuildError)
  /-- The script raised it. -/
  | raised (message : Text)
  /-- No variable has this name. -/
  | unbound (name : String)
  /-- Something was applied that is no function, or an operation got values it does not take. -/
  | illTyped
deriving Repr, DecidableEq

/-- What a step of a script leaves behind besides its value. -/
inductive Mark where
  | event (label : Text) (x : Value)
  | printed (s : Text)

def Mark.isEvent : Mark → Bool
  | event _ _ => true
  | printed _ => false

namespace Value

def parser? : Value → Except Fault (Recipe Value)
  | parser r => .ok r
  | _ => .error .illTyped

def parsers? : List Value → Except Fault (List (Recipe Value))
  | [] => .ok []
  | x :: xs => do return (← x.parser?) :: (← parsers? xs)

def outcome? : Value → Except Fault (Outcome Value)
  | outcome o => .ok o
  | _ => .error .illTyped

/-- A value in the place of a reference: a parser, or else something to be forced. -/
def toRef : Value → RecipeRef Value
  | parser r => .ready r
  | x => .deferred x

end Value

/-- How parsing is done with the values of a script. -/
def carrier : Carrier Fault Value where
  text := .text
  nat n := .int n
  list := .list
  nothing := .null
  holds := Value.holds
  recipe := Value.parser?
  outcome := Value.outcome?

end Descent.Script
