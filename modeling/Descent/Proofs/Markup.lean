import Descent.Grammars.Markup
import Descent.Proofs.Decides

/-!
# Documents are exactly what is written out

The parser of a document accepts the layouts of proper trees and nothing else, and it comes to an
answer on every text.

* `Reads s t r`: the text `s` begins with a node, as far as its parser would read, and leaves `r`.
* `chain_of_layout` and `layout_of_chain`: **nodes written out are read one by one,** and what is
  read one by one is written out.
* `node_decides`: the parser of a node decides `Reads`, by induction on the length of the text.
* `unpack_document`: **a text is a document exactly when it is a layout of a proper tree.**
-/

namespace Descent.Markup

variable {ω ε : Type}

/-- A text that is at a tag or at its end. -/
def AtTag (r : Text) : Prop := ∀ c r', r = c :: r' → c = '<'

theorem AtTag.trimmed {r : Text} (h : AtTag r) : Trimmed r := by
  intro c r' hr
  rw [h c r' hr]
  decide

theorem atTag_bracket (s : Text) : AtTag ('<' :: s) := by
  intro c r' h
  cases h
  rfl

/-- **The text begins with this node and leaves `r`.** A text takes all that comes before the next
tag, and an element the whitespace after it. -/
def Reads (s : Text) (t : Node) (r : Text) : Prop :=
  ∃ u, s = u ++ r ∧ Layout [t] u ∧ Proper [t] ∧ Trimmed r ∧ ∀ x, t = .text x → AtTag r

/-! ## Layouts of nodes next to each other -/

theorem layout_text (x : Text) : Layout [.text x] x := by
  have h : Layout [.text x] (x ++ []) := .text .nil
  rwa [List.append_nil] at h

theorem layout_element {tag w b w' : Text} {cs : List Node} (hw : Blank w) (hb : Layout cs b)
    (hw' : Blank w') :
    Layout [.element tag cs] ('<' :: tag ++ '>' :: w ++ b ++ closeTag tag ++ w') := by
  have h : Layout [.element tag cs] ('<' :: tag ++ '>' :: w ++ b ++ closeTag tag ++ w' ++ []) :=
    .element hw hb hw' .nil
  rwa [List.append_nil] at h

theorem layout_text_iff {x u : Text} : Layout [.text x] u ↔ u = x := by
  constructor
  · intro h
    cases h with
    | text h =>
      cases h
      exact List.append_nil x
  · rintro rfl
    exact layout_text u

/-- An element written out: its tags, the layout of its children, and blanks after each tag. -/
theorem layout_element_iff {tag u : Text} {cs : List Node} : Layout [.element tag cs] u ↔
    ∃ w b w', u = '<' :: tag ++ '>' :: w ++ b ++ closeTag tag ++ w' ∧ Blank w ∧ Layout cs b ∧
      Blank w' := by
  constructor
  · intro h
    cases h with
    | element hw hb hw' h =>
      cases h
      exact ⟨_, _, _, List.append_nil _, hw, hb, hw'⟩
  · rintro ⟨w, b, w', rfl, hw, hb, hw'⟩
    exact layout_element hw hb hw'

theorem Layout.cons {t : Node} {ns : List Node} {u b : Text} (h : Layout [t] u)
    (hb : Layout ns b) : Layout (t :: ns) (u ++ b) := by
  cases t with
  | text x =>
    cases layout_text_iff.1 h
    exact .text hb
  | element tag cs =>
    obtain ⟨w, b', w', rfl, hw, hc, hw'⟩ := layout_element_iff.1 h
    exact .element hw hc hw' hb

/-- The layout of nodes is that of the first and that of the others. -/
theorem layout_cons_iff {t : Node} {ns : List Node} {s : Text} :
    Layout (t :: ns) s ↔ ∃ u b, s = u ++ b ∧ Layout [t] u ∧ Layout ns b := by
  constructor
  · intro h
    cases h with
    | text hs => exact ⟨_, _, rfl, layout_text _, hs⟩
    | element hw hc hw' hs => exact ⟨_, _, rfl, layout_element hw hc hw', hs⟩
  · rintro ⟨u, b, rfl, h, hb⟩
    exact h.cons hb

theorem Proper.head {t : Node} {ns : List Node} (h : Proper (t :: ns)) : Proper [t] := by
  cases h with
  | text h _ _ => exact .text h .nil fun _ e => by cases e
  | element h hc _ => exact .element h hc .nil

theorem Proper.tail {t : Node} {ns : List Node} (h : Proper (t :: ns)) : Proper ns := by
  cases h with
  | text _ hs _ => exact hs
  | element _ _ hs => exact hs

theorem proper_text_iff {x : Text} : Proper [.text x] ↔ IsContent x := by
  constructor
  · intro h
    cases h with
    | text h _ _ => exact h
  · intro h
    exact .text h .nil fun _ e => by cases e

theorem proper_element_iff {tag : Text} {cs : List Node} :
    Proper [.element tag cs] ↔ IsTag tag ∧ Proper cs := by
  constructor
  · intro h
    cases h with
    | element h hc _ => exact ⟨h, hc⟩
  · rintro ⟨h, hc⟩
    exact .element h hc .nil

/-- Two texts are not adjacent, so what follows a text is at a tag. -/
theorem atTag_of_next {x : Text} {ns : List Node} (h : Proper (.text x :: ns)) {b k : Text}
    (hb : Layout ns b) (hk : AtTag k) : AtTag (b ++ k) := by
  cases h with
  | text _ _ next =>
    cases hb with
    | nil => exact hk
    | text => exact absurd rfl (next _)
    | element => exact atTag_bracket _

/-- Proper nodes written out begin with no whitespace. -/
theorem trimmed_of_layout {ns : List Node} (h : Proper ns) {b k : Text} (hb : Layout ns b)
    (hk : AtTag k) : Trimmed (b ++ k) := by
  cases hb with
  | nil => exact hk.trimmed
  | text =>
    obtain ⟨c, x, rfl, hc, -⟩ := proper_text_iff.1 h.head
    intro d r e
    cases e
    exact hc
  | element => exact (atTag_bracket _).trimmed

/-- A node written out is not empty. -/
theorem layout_length_pos {t : Node} {u : Text} (ht : Proper [t]) (hu : Layout [t] u) :
    0 < u.length := by
  cases t with
  | text x =>
    obtain ⟨c, x', rfl, -, -⟩ := proper_text_iff.1 ht
    cases layout_text_iff.1 hu
    exact Nat.succ_pos _
  | element tag cs =>
    obtain ⟨w, b, w', rfl, -⟩ := layout_element_iff.1 hu
    exact Nat.succ_pos _

/-- **Nodes written out are read one by one.** -/
theorem chain_of_layout {ns : List Node} (h : Proper ns) {b k : Text} (hb : Layout ns b)
    (hk : AtTag k) : Parser.Chain Reads (b ++ k) ns k := by
  induction ns generalizing b with
  | nil =>
    cases hb
    exact .nil k
  | cons t ns ih =>
    obtain ⟨u, b', rfl, ht, hb'⟩ := layout_cons_iff.1 hb
    have htext : ∀ x, t = .text x → AtTag (b' ++ k) := by
      rintro x rfl
      exact atTag_of_next h hb' hk
    have hreads : Reads (u ++ b' ++ k) t (b' ++ k) :=
      ⟨u, List.append_assoc u b' k, ht, h.head, trimmed_of_layout h.tail hb' hk, htext⟩
    exact .cons hreads (ih h.tail hb')

/-- **What is read one by one is written out.** -/
theorem layout_of_chain {s k : Text} {ns : List Node} (h : Parser.Chain Reads s ns k) :
    ∃ b, s = b ++ k ∧ Layout ns b ∧ Proper ns := by
  induction h with
  | nil s => exact ⟨[], rfl, .nil, .nil⟩
  | @cons s s' k t ns h _ ih =>
    obtain ⟨u, rfl, hu, ht, -, htag⟩ := h
    obtain ⟨b, rfl, hb, hns⟩ := ih
    refine ⟨u ++ b, (List.append_assoc u b k).symm, hu.cons hb, ?_⟩
    cases t with
    | element tag cs =>
      obtain ⟨htag, hcs⟩ := proper_element_iff.1 ht
      exact .element htag hcs hns
    | text x =>
      refine .text (proper_text_iff.1 ht) hns fun y hy => ?_
      -- a second text would begin right here, but here is a tag
      cases ns with
      | nil => cases hy
      | cons n ns =>
        cases hy
        obtain ⟨v, b', rfl, hv, -⟩ := layout_cons_iff.1 hb
        cases layout_text_iff.1 hv
        obtain ⟨c, y, rfl, -, hno⟩ := proper_text_iff.1 hns.head
        have hc : c = '<' := htag x rfl c _ rfl
        exact hno (hc ▸ List.mem_cons_self)

/-! ## Tags -/

/-- **The text begins with an opening tag,** possibly between blanks. -/
def Opens (s tag r : Text) : Prop :=
  ∃ w w', s = w ++ '<' :: tag ++ '>' :: w' ++ r ∧ Blank w ∧ IsTag tag ∧ Blank w' ∧ Trimmed r

/-- The opening tag is found wherever there is one, and nowhere else. -/
theorem openTag_decides (s : Text) : (openTag : Parser ω ε Text).Decides s (Opens s) := by
  refine (Parser.decides_lexeme <|
    Parser.decides_bind (Parser.decides_char '<' (trim s)) fun _ s₁ _ =>
    Parser.decides_bind (Parser.decides_many1 (Parser.decides_span isLetter s₁)) fun n s₂ _ =>
    Parser.decides_bind (Parser.decides_char '>' s₂) fun _ s₃ _ =>
    Parser.decides_succeed n s₃).congr fun tag r => ?_
  constructor
  · rintro ⟨r', ⟨_, s₁, ⟨rfl, hs⟩, n, s₂, ⟨hn, rfl, hl, -⟩, _, s₃, ⟨rfl, rfl⟩, rfl, rfl⟩, rfl⟩
    obtain ⟨w, rfl, hw, -⟩ := trim_eq_iff.1 hs
    obtain ⟨w', hr', hw', hr⟩ := trim_eq_iff.1 (rfl : trim r' = trim r')
    refine ⟨w, w', ?_, hw, ⟨hn, hl⟩, hw', hr⟩
    simp [← hr']
  · rintro ⟨w, w', rfl, hw, ⟨hn, hl⟩, hw', hr⟩
    have hs : trim (w ++ '<' :: tag ++ '>' :: w' ++ r) = '<' :: (tag ++ '>' :: (w' ++ r)) :=
      trim_eq_iff.2 ⟨w, by simp, hw, (atTag_bracket _).trimmed⟩
    have hr' : r = trim (w' ++ r) := (trim_eq_iff.2 ⟨w', rfl, hw', hr⟩).symm
    -- the name ends at the bracket, which is no letter
    have hname : Span isLetter (tag ++ '>' :: (w' ++ r)) tag ('>' :: (w' ++ r)) := by
      refine ⟨rfl, hl, fun c r' h => ?_⟩
      cases h
      decide
    exact ⟨w' ++ r, ⟨'<', _, ⟨rfl, hs⟩, tag, _, ⟨hn, hname⟩, '>', _, ⟨rfl, rfl⟩, rfl, rfl⟩, hr'⟩

/-- An opening tag takes something off the text, and what follows is trimmed. -/
theorem Opens.shorter {s tag r : Text} (h : Opens s tag r) :
    Trimmed r ∧ r.length < s.length := by
  obtain ⟨w, w', rfl, -, -, -, hr⟩ := h
  refine ⟨hr, ?_⟩
  simp only [List.length_append, List.length_cons]
  omega

/-- What is read is not empty, and what follows is trimmed. -/
theorem Reads.shorter {s r : Text} {t : Node} (h : Reads s t r) :
    Trimmed r ∧ r.length < s.length := by
  obtain ⟨u, rfl, hu, ht, hr, -⟩ := h
  have := layout_length_pos ht hu
  refine ⟨hr, ?_⟩
  simp only [List.length_append]
  omega

/-- **No node begins with a closing tag,** so the children end there. -/
theorem not_reads_closeTag (tag s : Text) (t : Node) (r : Text) :
    ¬Reads (closeTag tag ++ s) t r := by
  rintro ⟨u, hs, hu, ht, -⟩
  cases t with
  | text x =>
    obtain ⟨c, x, rfl, -, hno⟩ := proper_text_iff.1 ht
    cases layout_text_iff.1 hu
    have hc : '<' = c := (List.cons.inj hs).1
    exact hno (hc ▸ List.mem_cons_self)
  | element tag' cs =>
    obtain ⟨w, b, w', rfl, -⟩ := layout_element_iff.1 hu
    obtain ⟨⟨hn, hl⟩, -⟩ := proper_element_iff.1 ht
    cases tag' with
    | nil => exact hn rfl
    | cons d tag' =>
      have hd : '/' = d := (List.cons.inj (List.cons.inj hs).2).1
      have := hl d List.mem_cons_self
      rw [← hd] at this
      exact absurd this (by decide)

/-! ## Nodes -/

/-- **The text begins with an element,** possibly after blanks. -/
def ReadsElement (s : Text) (t : Node) (r : Text) : Prop :=
  ∃ w u, s = w ++ u ++ r ∧ Blank w ∧ Layout [t] u ∧ Proper [t] ∧ Trimmed r ∧
    ∃ tag cs, t = .element tag cs

theorem Reads.chain_trimmed {s k : Text} {ns : List Node} (h : Parser.Chain Reads s ns k)
    (hs : Trimmed s) : Trimmed k := by
  induction h with
  | nil s => exact hs
  | cons h _ ih => exact ih h.shorter.1

/-- **The children of an element are read up to its closing tag.** -/
theorem elementBody_decides {node : Parser ω ε Node} {s : Text} (hs : Trimmed s)
    (hnode : ∀ s', s'.length ≤ s.length → Trimmed s' → node.Decides s' (Reads s')) (tag : Text) :
    (elementBody node tag).Decides s fun t r => ∃ cs b w, t = Node.element tag cs ∧
      s = b ++ closeTag tag ++ w ++ r ∧ Layout cs b ∧ Proper cs ∧ Blank w ∧ Trimmed r := by
  have hmany := Parser.decides_many (p := node) (D := Reads)
    (I := fun s' => Trimmed s' ∧ s'.length ≤ s.length) (fun s' h => hnode s' h.2 h.1)
    (fun s' t r h hr => ⟨⟨hr.shorter.1, by have := hr.shorter.2; omega⟩, hr.shorter.2⟩)
    ⟨hs, Nat.le_refl _⟩
  have hlazy : Parser.lazily (.deferred (pure node)) = node := Parser.after_pure node
  rw [← hlazy] at hmany
  refine (Parser.decides_bind hmany fun cs k _ =>
    Parser.decides_bind (Parser.decides_lexeme (Parser.decides_literal (closeTag tag) (trim k)))
      fun _ s' _ => Parser.decides_succeed (Node.element tag cs) s').congr fun t r => ?_
  constructor
  · rintro ⟨cs, k, ⟨hc, -⟩, _, _, ⟨r', ⟨rfl, hk⟩, rfl⟩, rfl, rfl⟩
    -- the children leave nothing to trim before the closing tag
    rw [(Reads.chain_trimmed hc hs).trim] at hk
    obtain ⟨b, rfl, hb, hcs⟩ := layout_of_chain hc
    obtain ⟨w, hr', hw, hr⟩ := trim_eq_iff.1 (rfl : trim r' = trim r')
    refine ⟨cs, b, w, rfl, ?_, hb, hcs, hw, hr⟩
    simp [hk, ← hr']
  · rintro ⟨cs, b, w, rfl, rfl, hb, hcs, hw, hr⟩
    have hk : AtTag (closeTag tag ++ (w ++ r)) := atTag_bracket _
    have hchildren : Parser.Chain Reads (b ++ closeTag tag ++ w ++ r) cs
        (closeTag tag ++ (w ++ r)) := by
      have hc := chain_of_layout hcs hb hk
      rwa [← List.append_assoc, ← List.append_assoc] at hc
    have hstop := not_reads_closeTag tag (w ++ r)
    have hclose : trim (closeTag tag ++ (w ++ r)) = closeTag tag ++ (w ++ r) := hk.trimmed.trim
    have hr' : r = trim (w ++ r) := (trim_eq_iff.2 ⟨w, rfl, hw, hr⟩).symm
    exact ⟨cs, _, ⟨hchildren, hstop⟩, closeTag tag, r, ⟨w ++ r, ⟨rfl, hclose⟩, hr'⟩, rfl, rfl⟩

/-- **One rule:** an element is decided on a text when its children are on shorter ones. -/
theorem element_decides {self : Rule → Parser ω ε Node} {s : Text}
    (hnode : ∀ s', s'.length < s.length → Trimmed s' → (self .node).Decides s' (Reads s')) :
    (rule self .element).Decides s (ReadsElement s) := by
  refine (Parser.decides_bind (openTag_decides s) fun tag s' h =>
    elementBody_decides h.shorter.1 (fun s'' hs'' ht =>
      hnode s'' (by have := h.shorter.2; omega) ht) tag).congr fun t r => ?_
  constructor
  · rintro ⟨tag, s', ⟨w, w', rfl, hw, htag, hw', -⟩, cs, b, w'', rfl, rfl, hb, hcs, hw'', hr⟩
    have hu : Layout [.element tag cs] ('<' :: tag ++ '>' :: w' ++ b ++ closeTag tag ++ w'') :=
      layout_element hw' hb hw''
    have ht : Proper [.element tag cs] := proper_element_iff.2 ⟨htag, hcs⟩
    refine ⟨w, _, ?_, hw, hu, ht, hr, tag, cs, rfl⟩
    simp
  · rintro ⟨w, u, rfl, hw, hu, ht, hr, tag, cs, rfl⟩
    obtain ⟨w', b, w'', rfl, hw', hb, hw''⟩ := layout_element_iff.1 hu
    obtain ⟨htag, hcs⟩ := proper_element_iff.1 ht
    -- whitespace after the opening tag is not mixed up with the children
    have htrim : Trimmed (b ++ closeTag tag ++ w'' ++ r) := by
      have h := trimmed_of_layout hcs hb (atTag_bracket ('/' :: tag ++ '>' :: (w'' ++ r)))
      simpa [closeTag] using h
    have hopen : Opens (w ++ ('<' :: tag ++ '>' :: w' ++ b ++ closeTag tag ++ w'') ++ r) tag
        (b ++ closeTag tag ++ w'' ++ r) := by
      refine ⟨w, w', ?_, hw, htag, hw', htrim⟩
      simp
    exact ⟨tag, _, hopen, cs, b, w'', rfl, rfl, hb, hcs, hw'', hr⟩

/-- A text is all that comes before the next tag. -/
theorem text_decides (s : Text) : (text : Parser ω ε Node).Decides s fun t r =>
    ∃ x, (x ≠ [] ∧ Span (· != '<') s x r) ∧ t = .text x :=
  Parser.decides_map (Parser.decides_many1 (Parser.decides_span _ s))

/-- A piece of text is all that stands before the next tag, and is not empty. -/
theorem reads_text_iff {s x r : Text} (hs : Trimmed s) :
    Reads s (.text x) r ↔ x ≠ [] ∧ Span (· != '<') s x r := by
  constructor
  · rintro ⟨u, rfl, hu, ht, -, htag⟩
    cases layout_text_iff.1 hu
    obtain ⟨c, x, rfl, -, hno⟩ := proper_text_iff.1 ht
    refine ⟨List.cons_ne_nil c x, rfl, fun d hd => ?_, fun d r' hr => ?_⟩
    · refine bne_iff_ne.2 ?_
      rintro rfl
      exact hno hd
    · cases htag _ rfl d r' hr
      rfl
  · rintro ⟨hx, rfl, hne, hr⟩
    have htag : AtTag r := by
      intro c r' h
      simpa using hr c r' h
    refine ⟨x, rfl, layout_text x, proper_text_iff.2 ?_, htag.trimmed, fun _ _ => htag⟩
    cases x with
    | nil => exact absurd rfl hx
    | cons c x =>
      refine ⟨c, x, rfl, hs c _ rfl, fun h => ?_⟩
      simpa using hne '<' h

/-- An element is read from its opening tag, its children and the closing tag of the same name. -/
theorem reads_element_iff {s tag r : Text} {cs : List Node} (hs : Trimmed s) :
    Reads s (.element tag cs) r ↔ ReadsElement s (.element tag cs) r := by
  constructor
  · rintro ⟨u, rfl, hu, ht, hr, -⟩
    exact ⟨[], u, rfl, fun _ h => (by cases h), hu, ht, hr, tag, cs, rfl⟩
  · rintro ⟨w, u, rfl, hw, hu, ht, hr, -⟩
    -- the text has no leading blanks, so there are none to skip
    cases w with
    | nil => exact ⟨u, rfl, hu, ht, hr, fun x h => by cases h⟩
    | cons c w =>
      have hc : isBlank c = true := hw c List.mem_cons_self
      rw [hs c _ rfl] at hc
      cases hc

/-- Where an element begins there is no text before it. -/
theorem not_span_of_reads {s tag r : Text} {cs : List Node} (h : Reads s (.element tag cs) r)
    {x r' : Text} (hx : x ≠ []) : ¬Span (· != '<') s x r' := by
  rintro ⟨hs, hne, -⟩
  obtain ⟨u, rfl, hu, -⟩ := h
  obtain ⟨w, b, w', rfl, -⟩ := layout_element_iff.1 hu
  cases x with
  | nil => exact hx rfl
  | cons c x =>
    have hc : '<' = c := (List.cons.inj hs).1
    have := hne c List.mem_cons_self
    rw [← hc] at this
    cases this

/-- **One rule:** a node is a text or an element. -/
theorem rule_node_decides {self : Rule → Parser ω ε Node} {s : Text} (hs : Trimmed s)
    (helement : (self .element).Decides s (ReadsElement s)) :
    (rule self .node).Decides s (Reads s) := by
  have hfirst : rule self .node = text.orElse (.ready ((self .element).orElse (.ready .fail))) := by
    simp only [rule, Parser.firstOf_cons, Parser.firstOf_nil, Parser.lazily_deferred,
      Parser.after_pure]
  have hfail : (Parser.lazily (.ready (.fail : Parser ω ε Node))).Decides s fun _ _ => False :=
    Parser.decides_of_failure (.of_eq (by rw [Parser.lazily_ready]; rfl)) fun _ _ h => h
  have horElse := Parser.decides_orElse helement hfail
  rw [← Parser.lazily_ready ((self .element).orElse _)] at horElse
  rw [hfirst]
  refine (Parser.decides_orElse (text_decides s) horElse).congr fun t r => ?_
  constructor
  · rintro (⟨x, h, rfl⟩ | ⟨-, h | ⟨-, h⟩⟩)
    · exact (reads_text_iff hs).2 h
    · obtain ⟨tag, cs, rfl⟩ : ∃ tag cs, t = .element tag cs := by
        obtain ⟨w, u, -, -, -, -, -, h⟩ := h
        exact h
      exact (reads_element_iff hs).2 h
    · exact absurd h id
  · intro h
    cases t with
    | text x => exact .inl ⟨x, (reads_text_iff hs).1 h, rfl⟩
    | element tag cs =>
      refine .inr ⟨?_, .inl ((reads_element_iff hs).1 h)⟩
      rintro t' r' ⟨x, ⟨hx, hspan⟩, -⟩
      exact not_span_of_reads h hx hspan

/-! ## Documents -/

theorem rules_element_decides {s : Text}
    (hnode : ∀ s', s'.length < s.length → Trimmed s' →
      (rules .node : Parser ω ε Node).Decides s' (Reads s')) :
    (rules .element : Parser ω ε Node).Decides s (ReadsElement s) :=
  Parser.decides_of_agrees (Parser.fix_agrees rule_monotonic .element s) (element_decides hnode)

/-- **The parser of a node decides what it reads,** by induction on the length of the text. -/
theorem node_decides {s : Text} (hs : Trimmed s) :
    (rules .node : Parser ω ε Node).Decides s (Reads s) := by
  induction hn : s.length using Nat.strongRecOn generalizing s with
  | _ n ih =>
    subst hn
    have helement : (rules .element : Parser ω ε Node).Decides s (ReadsElement s) :=
      rules_element_decides fun s' hlt hs' => ih s'.length hlt hs' rfl
    exact Parser.decides_of_agrees (Parser.fix_agrees rule_monotonic .node s)
      (rule_node_decides hs helement)

theorem document_decides (s : Text) :
    (document : Parser ω ε Node).Decides s (ReadsElement s) :=
  rules_element_decides fun _ _ hs' => node_decides hs'

/-- An element that takes the whole text is one that the text writes. -/
theorem readsElement_nil_iff {s : Text} {t : Node} :
    ReadsElement s t [] ↔ Proper [t] ∧ Writes t s := by
  constructor
  · rintro ⟨w, u, hs, hw, hu, ht, -, h⟩
    rw [List.append_nil] at hs
    exact ⟨ht, w, u, hw, hu, hs, h⟩
  · rintro ⟨ht, w, u, hw, hu, rfl, h⟩
    exact ⟨w, u, (List.append_nil _).symm, hw, hu, ht, fun c r' e => (by cases e), h⟩

/-- **A text is a document exactly when it writes out a proper tree.** On every text the parse ends
without marks or errors; it gives the tree that the text writes, and nothing where there is none. -/
theorem unpack_document (s : Text) :
    (∃ x, ((document : Parser ω ε Node).unpack s).Ends [] (.ok x)) ∧
      (∀ t, ((document : Parser ω ε Node).unpack s).Ends [] (.ok (some t)) ↔
        Proper [t] ∧ Writes t s) ∧
      (((document : Parser ω ε Node).unpack s).Ends [] (.ok none) ↔
        ∀ t, ¬(Proper [t] ∧ Writes t s)) := by
  obtain ⟨x, hx, h⟩ := Parser.decides_unpack (document_decides (ω := ω) (ε := ε) s)
  have ends_iff : ∀ y, ((document : Parser ω ε Node).unpack s).Ends [] (.ok y) ↔ y = x := by
    intro y
    constructor
    · intro hy
      exact Except.ok.inj (hy.unique hx).2
    · rintro rfl
      exact hx
  refine ⟨⟨x, hx⟩, fun t => ?_, ?_⟩
  · rw [ends_iff, eq_comm, h, readsElement_nil_iff]
  · rw [ends_iff]
    simp only [← readsElement_nil_iff, ← h]
    cases x with
    | none => simp
    | some t => simp

end Descent.Markup
