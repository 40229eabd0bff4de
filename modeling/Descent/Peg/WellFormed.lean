import Descent.Peg.Basic

/-!
# Well-formed grammars

A grammar can be seen to end on every text without running it, if no name can come back to itself
before something is consumed, and nothing is repeated that may consume nothing.

* `Nullable G a`: the expression may succeed without consuming anything. This errs on the side of
  saying yes.
* `Reaches G a n`: the expression may come to the name `n` before anything is consumed.
* `Peg.LoopsConsume G a`: nothing in the expression is repeated that is nullable.
* `Grammar.WellFormed`: both conditions, for all names.
-/

namespace Descent.Peg

variable {N : Type}

/-- The expression may succeed without consuming: the least relation closed under these rules. -/
inductive Nullable (G : Grammar N) : Peg N → Prop
  | literal : Nullable G (.literal [])
  | succeed (x : Piece) : Nullable G (.succeed x)
  | keepRight {a b : Peg N} (h : Nullable G a) (k : Nullable G b) : Nullable G (.keepRight a b)
  | keepLeft {a b : Peg N} (h : Nullable G a) (k : Nullable G b) : Nullable G (.keepLeft a b)
  | orElse_first {a : Peg N} {b : PegRef N} (h : Nullable G a) : Nullable G (.orElse a b)
  | orElse_second {a : Peg N} {b : PegRef N} (h : Nullable G b.expr) : Nullable G (.orElse a b)
  | firstOf {as : List (PegRef N)} {a : PegRef N} (h : a ∈ as) (k : Nullable G a.expr) :
      Nullable G (.firstOf as)
  | many (a : Peg N) : Nullable G (.many a)
  | many1 {a : Peg N} (h : Nullable G a) : Nullable G (.many1 a)
  | lexeme {a : Peg N} (h : Nullable G a) : Nullable G (.lexeme a)
  | name {n : N} (h : Nullable G (G n)) : Nullable G (.name n)

/-- The expression may come to the name before anything is consumed, without looking into other
names. The right part of a sequence counts when the left part is nullable. -/
inductive Reaches (G : Grammar N) : Peg N → N → Prop
  | name (n : N) : Reaches G (.name n) n
  | keepRight_left {a b : Peg N} {n : N} (h : Reaches G a n) : Reaches G (.keepRight a b) n
  | keepRight_right {a b : Peg N} {n : N} (h : Nullable G a) (k : Reaches G b n) :
      Reaches G (.keepRight a b) n
  | keepLeft_left {a b : Peg N} {n : N} (h : Reaches G a n) : Reaches G (.keepLeft a b) n
  | keepLeft_right {a b : Peg N} {n : N} (h : Nullable G a) (k : Reaches G b n) :
      Reaches G (.keepLeft a b) n
  | orElse_first {a : Peg N} {b : PegRef N} {n : N} (h : Reaches G a n) : Reaches G (.orElse a b) n
  | orElse_second {a : Peg N} {b : PegRef N} {n : N} (h : Reaches G b.expr n) :
      Reaches G (.orElse a b) n
  | firstOf {as : List (PegRef N)} {a : PegRef N} {n : N} (h : a ∈ as) (k : Reaches G a.expr n) :
      Reaches G (.firstOf as) n
  | many {a : Peg N} {n : N} (h : Reaches G a n) : Reaches G (.many a) n
  | many1 {a : Peg N} {n : N} (h : Reaches G a n) : Reaches G (.many1 a) n
  | lexeme {a : Peg N} {n : N} (h : Reaches G a n) : Reaches G (.lexeme a) n

/-- Nothing in the expression is repeated that may consume nothing. -/
inductive LoopsConsume (G : Grammar N) : Peg N → Prop
  | anyChar : LoopsConsume G .anyChar
  | satisfy (test : Char → Bool) : LoopsConsume G (.satisfy test)
  | char (c : Char) : LoopsConsume G (.char c)
  | literal (l : Text) : LoopsConsume G (.literal l)
  | succeed (x : Piece) : LoopsConsume G (.succeed x)
  | fail : LoopsConsume G .fail
  | keepRight {a b : Peg N} (h : LoopsConsume G a) (k : LoopsConsume G b) :
      LoopsConsume G (.keepRight a b)
  | keepLeft {a b : Peg N} (h : LoopsConsume G a) (k : LoopsConsume G b) :
      LoopsConsume G (.keepLeft a b)
  | orElse {a : Peg N} {b : PegRef N} (h : LoopsConsume G a) (k : LoopsConsume G b.expr) :
      LoopsConsume G (.orElse a b)
  | firstOf {as : List (PegRef N)} (h : ∀ a ∈ as, LoopsConsume G a.expr) :
      LoopsConsume G (.firstOf as)
  | many {a : Peg N} (h : LoopsConsume G a) (k : ¬Nullable G a) : LoopsConsume G (.many a)
  | many1 {a : Peg N} (h : LoopsConsume G a) (k : ¬Nullable G a) : LoopsConsume G (.many1 a)
  | lexeme {a : Peg N} (h : LoopsConsume G a) : LoopsConsume G (.lexeme a)
  | name (n : N) : LoopsConsume G (.name n)

end Descent.Peg

namespace Descent.Grammar

variable {N : Type}

/-- The rule of the first name may come to the second before anything is consumed. -/
def LeftCalls (G : Grammar N) (m n : N) : Prop := Peg.Reaches G (G m) n

/-- **Well-formed:** no name comes back to itself before something is consumed, and every loop
consumes. -/
structure WellFormed (G : Grammar N) : Prop where
  acyclic : ∀ n, ¬Relation.TransGen G.LeftCalls n n
  loops : ∀ n, Peg.LoopsConsume G (G n)

end Descent.Grammar
