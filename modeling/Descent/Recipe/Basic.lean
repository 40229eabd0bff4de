import Descent.Text.Quoted

/-!
# Recipes

A recipe is a parser written down: which operation, from which parts. The functions, deferred
references and observers it mentions are values of a type `κ`, and writing a recipe down does
nothing with them.

* `Recipe κ` has one constructor for each operation, and `RecipeRef κ` is a place that takes a
  parser or a deferred reference.
* `ofChar?` and `ofChoices?` are the two operations that can be refused; `BuildError` says why.
-/

namespace Descent

mutual

/-- **A parser written down.** -/
inductive Recipe (κ : Type) where
  | anyChar
  | peek
  | letter
  | digit
  | letterOrDigit
  | space
  | blank
  | digitValue
  | satisfy (test : κ)
  | char (c : Char)
  | literal (l : Text)
  | succeed (x : κ)
  | fail
  | bind (p : Recipe κ) (f : κ)
  | map (f : κ) (p : Recipe κ)
  | ap (p q : Recipe κ)
  | liftAs (f : κ) (p : Recipe κ) (ps : List (Recipe κ))
  | keepRight (p q : Recipe κ)
  | keepLeft (p q : Recipe κ)
  | lazily (r : RecipeRef κ)
  | orElse (p : Recipe κ) (r : RecipeRef κ)
  | firstOf (rs : List (RecipeRef κ))
  | many (p : Recipe κ)
  | many1 (p : Recipe κ)
  | lexeme (p : Recipe κ)
  | tap (observer : κ)
  | logInput (observer : κ) (p : Recipe κ)
  /-- A function from the text to the outcome. -/
  | custom (f : κ)

/-- A parser, or a value that yields one each time it is forced. -/
inductive RecipeRef (κ : Type) where
  | ready (p : Recipe κ)
  | deferred (thunk : κ)

end

/-- Why a parser could not be made. -/
inductive BuildError where
  /-- A single character was asked for by this text, which is longer or empty. -/
  | notOneChar (s : Text)
  /-- A choice was to be made of less than two alternatives. -/
  | tooFewChoices
deriving Repr, DecidableEq

/-- What is said of a refusal. The rejected text is shown in quotes. -/
def BuildError.message : BuildError → Text
  | notOneChar s => "char: expected a single character, got ".toList ++ Text.quoted s
  | tooFewChoices => "alts: at least two alternatives are required".toList

namespace Recipe

variable {κ : Type}

/-- The character that the text consists of. -/
def ofChar? : Text → Except BuildError (Recipe κ)
  | [c] => .ok (.char c)
  | s => .error (.notOneChar s)

/-- The choice among at least two alternatives. -/
def ofChoices? : List (RecipeRef κ) → Except BuildError (Recipe κ)
  | r :: r' :: rs => .ok (.firstOf (r :: r' :: rs))
  | _ => .error .tooFewChoices

theorem ofChar?_eq_error_iff {s : Text} {e : BuildError} :
    (ofChar? s : Except BuildError (Recipe κ)) = .error e ↔ s.length ≠ 1 ∧ e = .notOneChar s := by
  match s with
  | [] => simp [ofChar?, eq_comm]
  | [c] => simp [ofChar?]
  | c :: d :: s => simp [ofChar?, eq_comm]

end Recipe

end Descent
