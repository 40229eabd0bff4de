import Descent.Parser.Fix

/-!
# Markup

Elements with an opening and a closing tag of the same name, and elements and text inside.
Whitespace is free before the document and after every tag.

* `Node`: an element with its children, or a piece of text.
* `Markup.document`: the parser. An element refers to its children before they are known, and the
  closing tag depends on the opening one.
* `Proper ns`: the nodes can stand next to each other as they are.
* `Layout ns s`: the text `s` writes the nodes out, one after the other.
* `Writes t s`: the text `s` is a document with the root `t`.
-/

namespace Descent

/-- A node of a document. -/
inductive Node where
  | text (s : Text)
  | element (tag : Text) (children : List Node)

namespace Markup

variable {ω ε : Type}

/-- One or more letters. -/
def name : Parser ω ε Text := .many1 .letter

/-- A name in angle brackets. -/
def openTag : Parser ω ε Text := .lexeme <|
  (Parser.char '<').bind fun _ => pure <|
    name.bind fun n => pure <|
      (Parser.char '>').bind fun _ => pure (.succeed n)

/-- The tag that ends an element. -/
def closeTag (tag : Text) : Text := '<' :: '/' :: (tag ++ ['>'])

/-- All that comes before the next tag. -/
def text : Parser ω ε Node := (Parser.many1 (.oneOf (· != '<'))).map fun s => pure (.text s)

/-- The children of an element and its closing tag. -/
def elementBody (node : Parser ω ε Node) (tag : Text) : Parser ω ε Node :=
  (Parser.many (.lazily (.deferred (pure node)))).bind fun children => pure <|
    (Parser.lexeme (.literal (closeTag tag))).bind fun _ => pure <|
      .succeed (.element tag children)

/-- The rules of the grammar. -/
inductive Rule where
  | node
  | element
deriving DecidableEq

/-- Each rule in terms of the others. -/
def rule (self : Rule → Parser ω ε Node) : Rule → Parser ω ε Node
  | .node => .firstOf [.deferred (pure text), .deferred (pure (self .element))]
  | .element => openTag.bind fun tag => pure (elementBody (self .node) tag)

theorem rule_monotonic : Parser.Monotonic (rule (ω := ω) (ε := ε)) := by
  intro n self self' h i
  cases i with
  | node =>
    refine Parser.firstOf_cons_belowAt (.pure Parser.belowAt_self n) ?_
    exact Parser.firstOf_cons_belowAt (.pure (h .element) n) Parser.belowAt_self
  | element =>
    refine Parser.bind_belowAt Parser.belowAt_self fun tag => .pure ?_ n
    refine Parser.bind_belowAt ?_ fun _ => .pure Parser.belowAt_self n
    exact Parser.many_belowAt (Parser.lazily_belowAt (.pure (h .node) n))

/-- The parser of each rule. -/
def rules : Rule → Parser ω ε Node := Parser.fix rule rule_monotonic

/-- **The parser of a document,** which is one element. -/
def document : Parser ω ε Node := rules .element

/-- The whitespace that may stand around tags. -/
def Blank (w : Text) : Prop := ∀ c ∈ w, isBlank c = true

/-- A name of a tag. -/
def IsTag (tag : Text) : Prop := tag ≠ [] ∧ ∀ c ∈ tag, isLetter c = true

/-- A text that can stand in a document as it is. -/
def IsContent (s : Text) : Prop := ∃ c s', s = c :: s' ∧ isBlank c = false ∧ '<' ∉ s

/-- **Nodes that can stand next to each other:** tags are names, texts are not empty, hold no
opening bracket and begin with no whitespace, and no two texts are adjacent. -/
inductive Proper : List Node → Prop
  | nil : Proper []
  | text {s : Text} {ns : List Node} (h : IsContent s) (hs : Proper ns)
      (next : ∀ u, ns.head? ≠ some (.text u)) : Proper (.text s :: ns)
  | element {tag : Text} {cs ns : List Node} (h : IsTag tag) (hc : Proper cs) (hs : Proper ns) :
      Proper (.element tag cs :: ns)

/-- **Nodes written out,** with any whitespace after each tag. -/
inductive Layout : List Node → Text → Prop
  | nil : Layout [] []
  | text {s u : Text} {ns : List Node} (hs : Layout ns u) : Layout (.text s :: ns) (s ++ u)
  | element {tag w b w' u : Text} {cs ns : List Node} (hw : Blank w) (hc : Layout cs b)
      (hw' : Blank w') (hs : Layout ns u) :
      Layout (.element tag cs :: ns)
        ('<' :: tag ++ '>' :: w ++ b ++ closeTag tag ++ w' ++ u)

/-- The text is a document with this root. -/
def Writes (t : Node) (s : Text) : Prop :=
  ∃ w u, Blank w ∧ Layout [t] u ∧ s = w ++ u ∧ ∃ tag cs, t = .element tag cs

end Markup

end Descent
