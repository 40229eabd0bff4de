import Descent.Parser.Fix

/-!
# Parsing expression grammars

A parsing expression grammar has one expression for each of its names. Here such grammars are
written with the operations of this library, and each expression is a parser.

* `Peg N`: the expressions over names from `N`. An alternative may be a name that is looked up only
  when its turn comes (`PegRef`).
* `Grammar N`: an expression for each name.
* `Grammar.parser G e`: the parser that the expression `e` of the grammar `G` is.
* `Grammar.parser_name`: a name parses as its expression.
-/

namespace Descent

/-- What the expressions of a grammar give. -/
inductive Piece where
  | nothing
  | char (c : Char)
  | text (s : Text)
  | list (ps : List Piece)

mutual

/-- **A parsing expression** over the names `N`. -/
inductive Peg (N : Type) where
  | anyChar
  | satisfy (test : Char → Bool)
  | char (c : Char)
  | literal (l : Text)
  | succeed (x : Piece)
  | fail
  | keepRight (a b : Peg N)
  | keepLeft (a b : Peg N)
  | orElse (a : Peg N) (b : PegRef N)
  | firstOf (as : List (PegRef N))
  | many (a : Peg N)
  | many1 (a : Peg N)
  | lexeme (a : Peg N)
  /-- A name, looked up when it is run. -/
  | name (n : N)

/-- An alternative: an expression, or a name that is looked up when its turn comes. -/
inductive PegRef (N : Type) where
  | ready (a : Peg N)
  | deferred (n : N)

end

/-- The expression that an alternative stands for. -/
def PegRef.expr {N : Type} : PegRef N → Peg N
  | .ready a => a
  | .deferred n => .name n

/-- An expression for each name. -/
abbrev Grammar (N : Type) := N → Peg N

namespace Peg

variable {ω ε N : Type}

section

variable (rules : N → Parser ω ε Piece)

mutual

/-- The parser that an expression is, given those of the names. -/
def toParser : Peg N → Parser ω ε Piece
  | .anyChar => Parser.anyChar.map fun c => pure (.char c)
  | .satisfy test => (Parser.satisfy fun c => pure (test c)).map fun c => pure (.char c)
  | .char c => (Parser.char c).map fun c => pure (.char c)
  | .literal l => (Parser.literal l).map fun s => pure (.text s)
  | .succeed x => .succeed x
  | .fail => .fail
  | .keepRight a b => (toParser a).keepRight (toParser b)
  | .keepLeft a b => (toParser a).keepLeft (toParser b)
  | .orElse a b => (toParser a).orElse (toRef b)
  | .firstOf as => .firstOf (toRefs as)
  | .many a => (Parser.many (toParser a)).map fun xs => pure (.list xs)
  | .many1 a => (Parser.many1 (toParser a)).map fun xs => pure (.list xs)
  | .lexeme a => .lexeme (toParser a)
  | .name n => .lazily (.deferred (pure (rules n)))
termination_by structural a => a

def toRef : PegRef N → Ref ω ε Piece
  | .ready a => .ready (toParser a)
  | .deferred n => .deferred (pure (rules n))
termination_by structural a => a

def toRefs : List (PegRef N) → List (Ref ω ε Piece)
  | [] => []
  | a :: as => toRef a :: toRefs as
termination_by structural as => as

end

theorem toRefs_eq_map (as : List (PegRef N)) : toRefs rules as = as.map (toRef rules) := by
  induction as with
  | nil => rfl
  | cons a as ih => rw [toRefs, ih, List.map_cons]

end

section

variable {rules rules' : N → Parser ω ε Piece} {n : Nat}

mutual

/-- An expression only shows more when its names do, operation by operation. -/
theorem toParser_belowAt (h : ∀ m, Parser.BelowAt n (rules m) (rules' m)) :
    ∀ a : Peg N, Parser.BelowAt n (toParser rules a) (toParser rules' a)
  | .anyChar | .satisfy _ | .char _ | .literal _ | .succeed _ | .fail => Parser.belowAt_self
  | .keepRight a b => Parser.keepRight_belowAt (toParser_belowAt h a) (toParser_belowAt h b)
  | .keepLeft a b => Parser.keepLeft_belowAt (toParser_belowAt h a) (toParser_belowAt h b)
  | .orElse a b => Parser.orElse_belowAt (toParser_belowAt h a) (toRef_belowAt h b)
  | .firstOf as => by
    rw [toParser, toParser, toRefs_eq_map, toRefs_eq_map]
    exact Parser.firstOf_belowAt (toRefs_belowAt h as)
  | .many a => Parser.map_belowAt (Parser.many_belowAt (toParser_belowAt h a))
    fun _ => Run.belowAt_self
  | .many1 a => Parser.map_belowAt (Parser.many1_belowAt (toParser_belowAt h a))
    fun _ => Run.belowAt_self
  | .lexeme a => Parser.lexeme_belowAt (toParser_belowAt h a)
  | .name m => Parser.lazily_belowAt (.pure (h m) n)

theorem toRef_belowAt (h : ∀ m, Parser.BelowAt n (rules m) (rules' m)) :
    ∀ a : PegRef N, Parser.RefBelowAt n (toRef rules a) (toRef rules' a)
  | .ready a => .pure (toParser_belowAt h a) n
  | .deferred m => .pure (h m) n

theorem toRefs_belowAt (h : ∀ m, Parser.BelowAt n (rules m) (rules' m)) :
    ∀ as : List (PegRef N), ∀ a ∈ as, Parser.RefBelowAt n (toRef rules a) (toRef rules' a)
  | [] => List.forall_mem_nil _
  | a :: as => List.forall_mem_cons.2 ⟨toRef_belowAt h a, toRefs_belowAt h as⟩

end

end

end Peg

namespace Grammar

variable {N : Type} (ω ε : Type)

/-- The parser of each name. -/
def rules (G : Grammar N) : N → Parser ω ε Piece :=
  Parser.fix (fun self n => Peg.toParser self (G n)) fun _ _ _ h n => Peg.toParser_belowAt h (G n)

/-- **The parser that an expression of the grammar is.** -/
def parser (G : Grammar N) (a : Peg N) : Parser ω ε Piece := Peg.toParser (G.rules ω ε) a

/-- A name parses as its expression. -/
theorem parser_name (G : Grammar N) (n : N) :
    (G.parser ω ε (.name n)).Agrees (G.parser ω ε (G n)) := by
  have h : G.parser ω ε (.name n) = G.rules ω ε n := Parser.after_pure _
  rw [h]
  exact Parser.fix_agrees _ n

end Grammar

end Descent
