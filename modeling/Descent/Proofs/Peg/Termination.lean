import Descent.Peg.WellFormed
import Descent.Proofs.Peg.Adequacy

/-!
# Well-formed grammars end on every text

The two conditions of a well-formed grammar rule out the two ways in which a parse can go on for
ever.

* `nullable_of_derives`: what succeeds without consuming is nullable.
* `begins_of_path`: a name that an expression comes to on the same text is one that it may begin
  with, so that a left recursion is a cycle of left calls (`leftCalls_of_recursion`).
* `loopsConsume_of_needs`: no task is met whose loops may consume nothing.
* `parser_ends`: **a well-formed grammar ends on every text,** without marks and without raising.
-/

namespace Descent.Peg

variable {N : Type} {G : Grammar N}

/-! ## Nullable expressions -/

/-- **Nullability is sound:** what succeeds without consuming is nullable. -/
theorem nullable_of_derives {a : Peg N} {s : Text} {x : Option Text} (h : Derives G a s x) :
    x = some s → Nullable G a := by
  induction h with
  | anyChar c s | char c s | satisfy s _ =>
    intro e
    exact absurd (Option.some.inj e).symm (List.cons_ne_self _ s)
  | literal l s =>
    intro e
    have hl : l ++ s = [] ++ s := (Option.some.inj e).symm
    cases List.append_cancel_right hl
    exact .literal
  | succeed x s => exact fun _ => .succeed x
  | anyChar_end | satisfy_other | satisfy_end | char_other | char_end | literal_other | fail
  | keepRight_fail | keepLeft_fail | firstOf_fail => rintro ⟨⟩
  | keepRight h k iha ihb =>
    rintro rfl
    -- both parts leave a remainder of the same text, so neither consumes
    have e := (derives_suffix h _ rfl).eq_of_length_le (derives_suffix k _ rfl).length_le
    subst e
    exact .keepRight (iha rfl) (ihb rfl)
  | keepLeft h k iha ihb =>
    rintro rfl
    have e := (derives_suffix h _ rfl).eq_of_length_le (derives_suffix k _ rfl).length_le
    subst e
    exact .keepLeft (iha rfl) (ihb rfl)
  | orElse_first _ ih => exact fun e => .orElse_first (ih e)
  | orElse_second _ _ _ ih => exact fun e => .orElse_second (ih e)
  | firstOf _ _ _ ih => exact fun e => .firstOf (List.mem_append_right _ List.mem_cons_self) (ih e)
  | many_stop | many_more => exact fun _ => .many _
  | many1 _ ih =>
    intro e
    cases ih e with
    | keepRight h _ => exact .many1 h
  | lexeme _ ih =>
    intro e
    cases ih e with
    | keepRight _ h =>
      cases h with
      | keepRight h _ => exact .lexeme h
  | name _ ih => exact fun e => .name (ih e)

/-! ## Left recursion -/

/-- The expression may come to the name, through the rules of other names, before anything is
consumed. -/
def Begins (G : Grammar N) (a : Peg N) (n : N) : Prop :=
  ∃ m, Reaches G a m ∧ Relation.ReflTransGen G.LeftCalls m n

/-- A rule may begin with what a part of it may begin with, if it may come to that part first. -/
theorem Begins.of_part {a b : Peg N} {n : N} (hb : Begins G b n)
    (h : ∀ m, Reaches G b m → Reaches G a m) : Begins G a n := by
  obtain ⟨m, hm, hmn⟩ := hb
  exact ⟨m, h m hm, hmn⟩

/-- **An expression may begin with what it comes to on the same text.** -/
theorem begins_of_needs {c d : Task N} {n : N} (h : Needs G c d) (e : d.2 = c.2)
    (hb : Begins G d.1 n) : Begins G c.1 n := by
  cases h with
  | keepRight_left => exact hb.of_part fun _ => .keepRight_left
  | keepRight_right b h =>
    have hnull := nullable_of_derives h (congrArg some e)
    exact hb.of_part fun _ => .keepRight_right hnull
  | keepLeft_left => exact hb.of_part fun _ => .keepLeft_left
  | keepLeft_right b h =>
    have hnull := nullable_of_derives h (congrArg some e)
    exact hb.of_part fun _ => .keepLeft_right hnull
  | orElse_first => exact hb.of_part fun _ => .orElse_first
  | orElse_second => exact hb.of_part fun _ => .orElse_second
  | firstOf a bs => exact hb.of_part fun _ => .firstOf (List.mem_append_right _ List.mem_cons_self)
  | many_once => exact hb.of_part fun _ => .many
  | many_again => exact hb
  | many1_once => exact hb.of_part fun _ => .many1
  | many1_again =>
    refine hb.of_part fun m hm => ?_
    cases hm with
    | many hm => exact .many1 hm
  | lexeme => exact hb.of_part fun _ => .lexeme
  | name k s =>
    obtain ⟨m, hm, hmn⟩ := hb
    exact ⟨k, .name k, .head hm hmn⟩

/-- **A path of demands on one text is a path of left calls.** -/
theorem begins_of_path {c : Task N} {n : N} {s : Text}
    (h : Relation.ReflTransGen (Needs G) c (.name n, s)) (e : c.2 = s) : Begins G c.1 n := by
  induction h using Relation.ReflTransGen.head_induction_on with
  | refl => exact ⟨n, .name n, .refl⟩
  | @head c d h hd ih =>
    subst e
    -- the text never grows, so a path that comes back to it has kept it
    have hdc : d.2 = c.2 :=
      h.suffix.eq_of_length_le (suffix_of_path hd).length_le
    exact begins_of_needs h hdc (ih hdc)

/-- **A left recursion is a cycle of left calls.** -/
theorem leftCalls_of_recursion {n : N} {s : Text}
    (h : Relation.TransGen (Needs G) (.name n, s) (.name n, s)) :
    Relation.TransGen G.LeftCalls n n := by
  obtain ⟨d, hd, hn⟩ := Relation.TransGen.head'_iff.1 h
  cases hd with
  | name =>
    obtain ⟨m, hm, hmn⟩ := begins_of_path hn rfl
    exact .head' hm hmn

/-! ## Loops -/

/-- The tasks that a task comes to have loops that consume, if its own loops and those of the rules
do. -/
theorem loopsConsume_of_needs (hG : ∀ n, LoopsConsume G (G n)) {c d : Task N} (h : Needs G c d)
    (hc : LoopsConsume G c.1) : LoopsConsume G d.1 := by
  cases h with
  | keepRight_left | keepRight_right | keepLeft_left | keepLeft_right | orElse_first
  | orElse_second | many_once | many1_once | lexeme => cases hc; assumption
  | firstOf a bs =>
    cases hc with
    | firstOf hc => exact hc a (List.mem_append_right _ List.mem_cons_self)
  | many_again => exact hc
  | many1_again =>
    cases hc with
    | many1 hc hn => exact .many hc hn
  | name n s => exact hG n

theorem loopsConsume_of_path (hG : ∀ n, LoopsConsume G (G n)) {c d : Task N}
    (h : Relation.ReflTransGen (Needs G) c d) (hc : LoopsConsume G c.1) : LoopsConsume G d.1 := by
  induction h with
  | refl => exact hc
  | tail _ h ih => exact loopsConsume_of_needs hG h ih

/-! ## Termination -/

/-- **Nothing in a well-formed grammar is endless:** a left recursion would be a cycle of left
calls, and an idle repetition would have a nullable body. -/
theorem safe_of_wellFormed (hG : G.WellFormed) {a : Peg N} (ha : LoopsConsume G a) (s : Text) :
    Safe G (a, s) := by
  intro d hd he
  have hloops : LoopsConsume G d.1 := loopsConsume_of_path hG.loops hd ha
  cases he with
  | leftRecursion h => exact hG.acyclic _ (leftCalls_of_recursion h)
  | idleRepetition h =>
    cases hloops with
    | many _ hn => exact hn (nullable_of_derives h rfl)

/-- **A parse of a well-formed grammar ends on every text,** with a success or a failure. -/
theorem parser_ends [Finite N] (ω ε : Type) {G : Grammar N} (hG : G.WellFormed) {a : Peg N}
    (ha : LoopsConsume G a) (s : Text) : ∃ o, ((G.parser ω ε a).run s).Ends [] (.ok o) := by
  have hs : Founded G (a, s) := (safe_of_wellFormed hG ha s).founded
  obtain ⟨x, hx⟩ := derivable_iff_founded.2 hs
  obtain ⟨o, ho, -⟩ := gives_of_derives hx
  exact ⟨o, ho⟩

/-- Lists of items (`true`), where an item (`false`) is an `a` or a list in parentheses. -/
def items : Grammar Bool
  | true => .many1 (.name false)
  | false => .firstOf [.ready (.char 'a'),
      .ready (.keepRight (.char '(') (.keepLeft (.name true) (.char ')')))]

theorem item_consumes : ¬Nullable items (.name false) := by
  intro h
  cases h with
  | name h =>
    cases h with
    | firstOf ha h =>
      -- both alternatives take a character first
      rcases List.mem_cons.1 ha with rfl | ha
      · cases h
      · cases List.mem_singleton.1 ha
        cases h with
        | keepRight h _ => cases h

/-- Only a list may begin with another name, and that is an item. -/
theorem items_leftCalls {m n : Bool} (h : items.LeftCalls m n) : m = true ∧ n = false := by
  cases m with
  | true =>
    cases h with
    | many1 h =>
      cases h
      exact ⟨rfl, rfl⟩
  | false =>
    cases h with
    | firstOf ha h =>
      rcases List.mem_cons.1 ha with rfl | ha
      · cases h
      · cases List.mem_singleton.1 ha
        cases h with
        | keepRight_left h => cases h
        | keepRight_right h _ => cases h

/-- Lists begin with items, which begin with neither, and what is repeated consumes. -/
theorem items_wellFormed : items.WellFormed where
  acyclic n h := by
    obtain ⟨m, hm, -⟩ := Relation.TransGen.head'_iff.1 h
    obtain ⟨k, -, hk⟩ := Relation.TransGen.tail'_iff.1 h
    have htrue : n = true := (items_leftCalls hm).1
    have hfalse : n = false := (items_leftCalls hk).2
    rw [htrue] at hfalse
    cases hfalse
  loops n := by
    cases n with
    | true => exact .many1 (.name false) item_consumes
    | false =>
      refine .firstOf fun a ha => ?_
      rcases List.mem_cons.1 ha with rfl | ha
      · exact .char 'a'
      · cases List.mem_singleton.1 ha
        exact .keepRight (.char '(') (.keepLeft (.name true) (.char ')'))

/-- Repeated lists of items end, also where a parenthesis is missing. -/
theorem parser_ends_items : items.WellFormed ∧ LoopsConsume items (.many (.name true)) ∧
    ∃ o, ((items.parser Unit Unit (.many (.name true))).run ['a', '(', 'a', '(', 'a', ')']).Ends
      [] (.ok o) := by
  have hlists : ¬Nullable items (.name true) := by
    intro h
    cases h with
    | name h =>
      cases h with
      | many1 h => exact item_consumes h
  have hloops : LoopsConsume items (.many (.name true)) := .many (.name true) hlists
  exact ⟨items_wellFormed, hloops, parser_ends Unit Unit items_wellFormed hloops _⟩

end Descent.Peg
