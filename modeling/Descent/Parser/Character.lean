import Descent.Parser.Repeat

/-!
# Characters

Parsers for single characters and fixed texts. The classes are those of ASCII: a letter is one of
`a` to `z` and `A` to `Z`, a digit one of `0` to `9`, and whitespace is a space, a tab or a newline.

* `anyChar` consumes one character, `peek` none; at the end of the text `peek` gives the empty text.
* `satisfy`, `char` and the classes consume one character that passes a test.
* `literal` consumes exactly the given text.
* `literal_run`: its length need not be looked at. `literal_append` and `literal_of_not`: it succeeds
  when the text begins with it, and fails otherwise.
-/

namespace Descent

namespace Parser

variable {ω ε : Type}

/-- Consumes one character and fails at the end of the text. -/
def anyChar : Parser ω ε Char := ⟨fun
  | [] => pure .failure
  | c :: s => pure (.success c s)⟩

/-- The next character as a text, without consuming it; the empty text at the end. -/
def peek : Parser ω ε Text := ⟨fun s => pure (.success (s.take 1) s)⟩

/-- Consumes one character that passes the test. The test is called on nothing else. -/
def satisfy (test : Char → Run ω ε Bool) : Parser ω ε Char :=
  anyChar.bind fun c => test c >>= fun b => pure (if b then succeed c else fail)

/-- Consumes one character that passes a test without effects. -/
def oneOf (test : Char → Bool) : Parser ω ε Char := satisfy fun c => pure (test c)

/-- Consumes the given character. -/
def char (c : Char) : Parser ω ε Char := oneOf (c == ·)

/-- Consumes the given text. A slice is compared only if there are enough characters for it. -/
def literal (l : Text) : Parser ω ε Text := ⟨fun s =>
  if s.length < l.length then pure .failure
  else if s.take l.length = l then pure (.success (s.take l.length) (s.drop l.length))
  else pure .failure⟩

end Parser

/-- A letter of ASCII. -/
def isLetter (c : Char) : Bool := ('a' ≤ c && c ≤ 'z') || ('A' ≤ c && c ≤ 'Z')

/-- A digit of ASCII. -/
def isDigit (c : Char) : Bool := '0' ≤ c && c ≤ '9'

/-- The characters that separate tokens. -/
def blanks : Text := [' ', '\t', '\n']

def isBlank (c : Char) : Bool := blanks.contains c

/-- The value of a digit. -/
def digitVal (c : Char) : Nat := c.toNat - '0'.toNat

namespace Parser

variable {ω ε : Type}

def letter : Parser ω ε Char := oneOf isLetter

def digit : Parser ω ε Char := oneOf isDigit

def letterOrDigit : Parser ω ε Char := letter.orElse (.deferred (pure digit))

def space : Parser ω ε Char := char ' '

def blank : Parser ω ε Char := oneOf isBlank

/-- One digit, as a number. -/
def digitValue : Parser ω ε Nat := digit.map fun c => pure (digitVal c)

@[simp] theorem anyChar_nil : (anyChar : Parser ω ε Char).run [] = pure .failure := rfl

@[simp] theorem anyChar_cons (c : Char) (s : Text) :
    (anyChar : Parser ω ε Char).run (c :: s) = pure (.success c s) := rfl

@[simp] theorem satisfy_nil (test : Char → Run ω ε Bool) :
    (satisfy test).run [] = pure .failure := by simp [satisfy, bind_run]

theorem satisfy_cons (test : Char → Run ω ε Bool) (c : Char) (s : Text) :
    (satisfy test).run (c :: s) = test c >>= fun b =>
      pure (if b then .success c s else .failure) := by
  simp only [satisfy, bind_run, anyChar_cons, pure_bind, bind_assoc]
  refine congrArg (test c >>= ·) (funext fun b => ?_)
  cases b <;> rfl

@[simp] theorem oneOf_nil (test : Char → Bool) :
    (oneOf test : Parser ω ε Char).run [] = pure .failure := satisfy_nil _

@[simp] theorem oneOf_cons (test : Char → Bool) (c : Char) (s : Text) :
    (oneOf test : Parser ω ε Char).run (c :: s) =
      pure (if test c then .success c s else .failure) := by simp [oneOf, satisfy_cons]

theorem char_cons (c : Char) (s : Text) :
    (char c : Parser ω ε Char).run (c :: s) = pure (.success c s) := by simp [char]

theorem char_of_not {c : Char} {s : Text} (h : ∀ r, s ≠ c :: r) :
    (char c : Parser ω ε Char).run s = pure .failure := by
  cases s with
  | nil => exact oneOf_nil _
  | cons d s =>
    have hne : ¬(c == d) := fun e => h s (congrArg (· :: s) (beq_iff_eq.1 e).symm)
    rw [char, oneOf_cons, if_neg hne]

/-- **The length need not be looked at first,** since no slice of a shorter text is the literal. -/
theorem literal_run (l s : Text) : (literal l : Parser ω ε Text).run s =
    if s.take l.length = l then pure (.success l (s.drop l.length)) else pure .failure := by
  rw [literal]
  by_cases hs : s.take l.length = l
  · have hlength : ¬s.length < l.length := by
      have hle : (s.take l.length).length ≤ s.length := List.length_take_le' ..
      rw [hs] at hle
      omega
    simp only [if_neg hlength, hs]
  · simp only [if_neg hs, ite_self]

/-- **A literal consumes itself** and nothing else. -/
theorem literal_append (l s : Text) :
    (literal l : Parser ω ε Text).run (l ++ s) = pure (.success l s) := by simp [literal_run]

theorem literal_of_not {l s : Text} (h : ¬l <+: s) :
    (literal l : Parser ω ε Text).run s = pure .failure := by
  rw [literal_run]
  refine if_neg fun e => ?_
  exact h ⟨s.drop l.length, (congrArg (· ++ _) e.symm).trans (List.take_append_drop _ _)⟩

end Parser

end Descent
