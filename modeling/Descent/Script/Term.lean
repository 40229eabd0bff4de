import Descent.Outcome

/-!
# Script terms

A script is a small functional program that makes parsers and runs them. Functions have one
argument; a deferred term has none and is evaluated anew each time it is forced.

The operations come in three kinds, by what carrying one out can do.

* A `Maker` puts a parser together and does nothing else.
* A `DataOp` computes with values and does nothing else.
* An `Action` may call functions, force references and run parsers.
-/

namespace Descent.Script

/-- The operations that make parsers, and those that make functions from parsers. -/
inductive Maker where
  | anyChar
  | peek
  | letter
  | digit
  | letterOrDigit
  | space
  | blank
  | digitValue
  | satisfy
  | char
  | literal
  | succeed
  | fail
  | bind
  /-- The function first, then the parser. -/
  | map
  /-- The parser first, then the function. -/
  | mapped
  | ap
  | liftAs
  | keepRight
  | keepLeft
  | lazily
  | orElse
  | firstOf
  | many
  | many1
  | lexeme
  /-- Shows the text to an observer, or records it under a label. -/
  | tap
  /-- The same before the parser runs. -/
  | logInput
  /-- Prints the text before the parser runs. -/
  | printInput
  | custom
  | unpack
deriving Repr, DecidableEq

/-- The operations on values that call nothing. -/
inductive DataOp where
  /-- A test for equality with a value. -/
  | equals
  /-- The characters that separate tokens. -/
  | blanks
  | success
  | failure
  | same
  | succeeded
  | outcomeValue
  | outcomeRest
  | list
  | tuple
  /-- The last of the arguments. -/
  | last
  | add
  | sub
  | mul
  | le
  | not
  | size
  | codePoint
  | join
  | repeated
  | member
  | get
  | tail
  | raise
deriving Repr, DecidableEq

/-- The operations that may call functions, force references and run parsers. -/
inductive Action where
  | force
  | run
  | parseAll
  | call
  | fold
  /-- Records a value under a label. -/
  | trace
deriving Repr, DecidableEq

inductive Op where
  | make (m : Maker)
  | data (d : DataOp)
  | act (a : Action)
deriving Repr, DecidableEq

/-- A term of a script. The arguments of an operation are evaluated from left to right. -/
inductive Term where
  | null
  | bool (b : Bool)
  | int (i : Int)
  | text (s : Text)
  | var (name : String)
  | fn (param : String) (body : Term)
  /-- A deferred term, which may record a label each time it is forced. -/
  | thunk (body : Term) (label : Option Text)
  | ite (cond yes no : Term)
  | call (op : Op) (args : List Term)

end Descent.Script
