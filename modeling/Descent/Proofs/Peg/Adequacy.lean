import Descent.Proofs.Peg.Endless
import Descent.Proofs.Peg.Soundness

/-!
# Parsers of grammars do what is derived, and nothing else

* `gives_of_derives`: **whatever is derived, the parser comes to,** by induction on the derivation
  with one lemma for each operation.
* `returns_parser_iff`: a parse ends exactly when something is derived.
* `parser_iff_derives`: **a parse succeeds, fails or never ends as the derivations say,** and the
  last of these only by left recursion or by repeating what consumes nothing.
-/

namespace Descent.Peg

variable {ω ε N : Type} {G : Grammar N}

/-- The parser of the expression comes to a success with this remainder, or to failure. -/
def Shows (ω ε : Type) (G : Grammar N) (a : Peg N) (s : Text) (x : Option Text) : Prop :=
  ∃ o, (G.parser ω ε a).Gives s o ∧ o.rest? = x

theorem shows_none {a : Peg N} {s : Text} :
    Shows ω ε G a s none ↔ (G.parser ω ε a).Gives s .failure := by
  constructor
  · rintro ⟨o, h, ho⟩
    cases o <;> cases ho
    exact h
  · exact fun h => ⟨.failure, h, rfl⟩

theorem shows_some {a : Peg N} {s r : Text} :
    Shows ω ε G a s (some r) ↔ ∃ v, (G.parser ω ε a).Gives s (.success v r) := by
  constructor
  · rintro ⟨o, h, ho⟩
    cases o <;> cases ho
    exact ⟨_, h⟩
  · rintro ⟨v, h⟩
    exact ⟨_, h, rfl⟩

/-- A function on the value does not change what is shown. -/
theorem shows_of_map {α : Type} {a : Peg N} {p : Parser ω ε α} {f : α → Piece}
    (e : G.parser ω ε a = p.map fun v => pure (f v)) {s : Text} {o : Outcome α} {x : Option Text}
    (h : p.Gives s o) (ho : o.rest? = x) : Shows ω ε G a s x := by
  refine ⟨o.map f, ?_, by rw [Outcome.rest?_map, ho]⟩
  rw [e]
  exact Parser.gives_map.2 ⟨o, h, rfl⟩

theorem shows_keepRight {a b : Peg N} {s : Text} {x : Option Text} :
    Shows ω ε G (.keepRight a b) s x ↔
      (Shows ω ε G a s none ∧ x = none) ∨
      ∃ s', Shows ω ε G a s (some s') ∧ Shows ω ε G b s' x := by
  constructor
  · rintro ⟨o, h, rfl⟩
    rcases Parser.gives_bind.1 h with ⟨hf, rfl⟩ | ⟨v, s', hv, ho⟩
    · exact .inl ⟨shows_none.2 hf, rfl⟩
    · exact .inr ⟨s', shows_some.2 ⟨v, hv⟩, o, ho, rfl⟩
  · rintro (⟨hf, rfl⟩ | ⟨s', ha, o, ho, rfl⟩)
    · exact shows_none.2 (Parser.gives_bind.2 (.inl ⟨shows_none.1 hf, rfl⟩))
    · obtain ⟨v, hv⟩ := shows_some.1 ha
      exact ⟨o, Parser.gives_bind.2 (.inr ⟨v, s', hv, ho⟩), rfl⟩

theorem shows_keepLeft {a b : Peg N} {s s' : Text} {x : Option Text}
    (ha : Shows ω ε G a s (some s')) (hb : Shows ω ε G b s' x) :
    Shows ω ε G (.keepLeft a b) s x := by
  obtain ⟨v, hv⟩ := shows_some.1 ha
  obtain ⟨o, ho, rfl⟩ := hb
  have hkeep : ((G.parser ω ε b).map fun _ => pure v).Gives s' (o.map fun _ => v) :=
    Parser.gives_map.2 ⟨o, ho, rfl⟩
  have h : (G.parser ω ε (.keepLeft a b)).Gives s (o.map fun _ => v) :=
    Parser.gives_bind.2 (.inr ⟨v, s', hv, hkeep⟩)
  exact ⟨_, h, Outcome.rest?_map _ o⟩

theorem shows_keepLeft_fail {a b : Peg N} {s : Text} (h : Shows ω ε G a s none) :
    Shows ω ε G (.keepLeft a b) s none :=
  shows_none.2 (Parser.gives_bind.2 (.inl ⟨shows_none.1 h, rfl⟩))

/-- An alternative shows what the expression shows that it stands for. -/
theorem shows_ref {b : PegRef N} {s : Text} {o : Outcome Piece} :
    (Parser.lazily (toRef (G.rules ω ε) b)).Gives s o ↔ (G.parser ω ε b.expr).Gives s o := by
  rw [lazily_toRef]
  rfl

theorem shows_orElse_first {a : Peg N} {b : PegRef N} {s r : Text}
    (h : Shows ω ε G a s (some r)) : Shows ω ε G (.orElse a b) s (some r) := by
  obtain ⟨v, hv⟩ := shows_some.1 h
  have hne : Outcome.success v r ≠ .failure := by rintro ⟨⟩
  exact shows_some.2 ⟨v, Parser.gives_orElse.2 (.inl ⟨hv, hne⟩)⟩

theorem shows_orElse_second {a : Peg N} {b : PegRef N} {s : Text} {x : Option Text}
    (h : Shows ω ε G a s none) (k : Shows ω ε G b.expr s x) :
    Shows ω ε G (.orElse a b) s x := by
  obtain ⟨o, ho, rfl⟩ := k
  exact ⟨o, Parser.gives_orElse.2 (.inr ⟨shows_none.1 h, shows_ref.2 ho⟩), rfl⟩

theorem shows_firstOf {as bs : List (PegRef N)} {a : PegRef N} {s r : Text}
    (h : ∀ b ∈ as, Shows ω ε G b.expr s none) (k : Shows ω ε G a.expr s (some r)) :
    Shows ω ε G (.firstOf (as ++ a :: bs)) s (some r) := by
  obtain ⟨v, hv⟩ := shows_some.1 k
  have hf : ∀ q ∈ as.map (toRef (G.rules ω ε)), (Parser.lazily q).Gives s .failure := by
    intro q hq
    obtain ⟨b, hb, rfl⟩ := List.mem_map.1 hq
    exact shows_ref.2 (shows_none.1 (h b hb))
  have e : toRefs (G.rules ω ε) (as ++ a :: bs) =
      as.map (toRef (G.rules ω ε)) ++ toRef (G.rules ω ε) a :: bs.map (toRef (G.rules ω ε)) := by
    rw [toRefs_eq_map, List.map_append, List.map_cons]
  have hne : Outcome.success v r ≠ .failure := by rintro ⟨⟩
  exact shows_some.2 ⟨v, Parser.gives_firstOf.2 (.inl ⟨_, _, _, e, hf, shows_ref.2 hv, hne⟩)⟩

theorem shows_firstOf_fail {as : List (PegRef N)} {s : Text}
    (h : ∀ b ∈ as, Shows ω ε G b.expr s none) : Shows ω ε G (.firstOf as) s none := by
  refine shows_none.2 (Parser.gives_firstOf.2 (.inr ⟨fun q hq => ?_, rfl⟩))
  rw [toRefs_eq_map] at hq
  obtain ⟨b, hb, rfl⟩ := List.mem_map.1 hq
  exact shows_ref.2 (shows_none.1 (h b hb))

/-- A repetition shows the end of what it collects. -/
theorem shows_many {a : Peg N} {s : Text} {x : Option Text} :
    Shows ω ε G (.many a) s x ↔
      ∃ vs r, x = some r ∧ (Parser.many (G.parser ω ε a)).Gives s (.success vs r) := by
  constructor
  · rintro ⟨o, h, rfl⟩
    obtain ⟨o', ho', rfl⟩ := Parser.gives_map.1 h
    obtain ⟨vs, r, rfl, -⟩ := Parser.gives_many.1 ho'
    exact ⟨vs, r, rfl, ho'⟩
  · rintro ⟨vs, r, rfl, h⟩
    exact shows_of_map rfl h rfl

theorem shows_many_stop {a : Peg N} {s : Text} (h : Shows ω ε G a s none) :
    Shows ω ε G (.many a) s (some s) :=
  shows_many.2 ⟨[], s, rfl, Parser.gives_many_nil (shows_none.1 h)⟩

theorem shows_many_more {a : Peg N} {s s' : Text} {x : Option Text}
    (h : Shows ω ε G a s (some s')) (k : Shows ω ε G (.many a) s' x) :
    Shows ω ε G (.many a) s x := by
  obtain ⟨v, hv⟩ := shows_some.1 h
  obtain ⟨vs, r, rfl, hs⟩ := shows_many.1 k
  exact shows_many.2 ⟨v :: vs, r, rfl, Parser.gives_many_cons hv hs⟩

/-- One or more is one and then zero or more. -/
theorem shows_many1 {a : Peg N} {s : Text} {x : Option Text}
    (h : Shows ω ε G (.keepRight a (.many a)) s x) : Shows ω ε G (.many1 a) s x := by
  rcases shows_keepRight.1 h with ⟨hf, rfl⟩ | ⟨s', ha, hm⟩
  · have h0 := Parser.gives_many_nil (shows_none.1 hf)
    exact shows_of_map rfl (Parser.gives_many1.2 ⟨_, h0, rfl⟩) rfl
  · obtain ⟨v, hv⟩ := shows_some.1 ha
    obtain ⟨vs, r, rfl, hs⟩ := shows_many.1 hm
    have h1 := Parser.gives_many_cons hv hs
    exact shows_of_map rfl (Parser.gives_many1.2 ⟨_, h1, rfl⟩) rfl

/-- All blanks that follow are taken off, and this cannot fail. -/
theorem shows_blanks {s : Text} {x : Option Text} (h : Shows ω ε G blanks s x) :
    x = some (trim s) := by
  obtain ⟨o, ho, rfl⟩ := h
  exact (parser_sound G blanks s o ho).unique (derives_blanks s)

/-- A lexeme shows what its body does between blanks. -/
theorem shows_lexeme {a : Peg N} {s : Text} {x : Option Text}
    (h : Shows ω ε G (.keepRight blanks (.keepRight a blanks)) s x) :
    Shows ω ε G (.lexeme a) s x := by
  have lexeme_of : ∀ o, (G.parser ω ε a).Gives (trim s) o →
      Shows ω ε G (.lexeme a) s (o.rest?.map trim) := by
    intro o ho
    exact ⟨o.trim, Parser.gives_lexeme.2 ⟨o, ho, rfl⟩, Outcome.rest?_trim o⟩
  rcases shows_keepRight.1 h with ⟨hf, -⟩ | ⟨s', hs, hk⟩
  · cases shows_blanks hf
  · cases shows_blanks hs
    rcases shows_keepRight.1 hk with ⟨hf, rfl⟩ | ⟨r, ha, hr⟩
    · exact lexeme_of _ (shows_none.1 hf)
    · obtain ⟨v, hv⟩ := shows_some.1 ha
      cases shows_blanks hr
      exact lexeme_of _ hv

/-- A name shows what its rule shows. -/
theorem shows_name {n : N} {s : Text} {x : Option Text} (h : Shows ω ε G (G n) s x) :
    Shows ω ε G (.name n) s x := by
  obtain ⟨o, ho, hx⟩ := h
  exact ⟨o, (Parser.gives_congr (G.parser_name ω ε n s)).2 ho, hx⟩

/-- **Whatever is derived, the parser comes to.** -/
theorem gives_of_derives {a : Peg N} {s : Text} {x : Option Text} (h : Derives G a s x) :
    ∃ o, (G.parser ω ε a).Gives s o ∧ o.rest? = x := by
  change Shows ω ε G a s x
  induction h with
  | anyChar c s =>
    exact shows_of_map rfl ((Parser.gives_of_run (Parser.anyChar_cons c s)).2 rfl) rfl
  | anyChar_end => exact shows_of_map rfl ((Parser.gives_of_run Parser.anyChar_nil).2 rfl) rfl
  | @satisfy test c s h =>
    refine shows_of_map rfl (gives_oneOf_iff.2 (if_pos h).symm) rfl
  | satisfy_other s h =>
    exact shows_of_map rfl (gives_oneOf_iff.2 (if_neg (Bool.eq_false_iff.1 h)).symm) rfl
  | satisfy_end test => exact shows_of_map rfl (gives_oneOf_iff.2 rfl) rfl
  | char c s =>
    exact shows_of_map rfl (gives_oneOf_iff.2 (if_pos (beq_self_eq_true c)).symm) rfl
  | char_other s h =>
    exact shows_of_map rfl (gives_oneOf_iff.2 (if_neg (mt beq_iff_eq.1 h)).symm) rfl
  | char_end c => exact shows_of_map rfl (gives_oneOf_iff.2 rfl) rfl
  | literal l s =>
    exact shows_of_map rfl ((Parser.gives_of_run (Parser.literal_append l s)).2 rfl) rfl
  | literal_other h =>
    exact shows_of_map rfl ((Parser.gives_of_run (Parser.literal_of_not h)).2 rfl) rfl
  | succeed x s => exact ⟨_, (Parser.gives_of_run (Parser.succeed_run x s)).2 rfl, rfl⟩
  | fail s => exact ⟨_, (Parser.gives_of_run (Parser.fail_run s)).2 rfl, rfl⟩
  | keepRight _ _ iha ihb => exact shows_keepRight.2 (.inr ⟨_, iha, ihb⟩)
  | keepRight_fail _ ih => exact shows_keepRight.2 (.inl ⟨ih, rfl⟩)
  | keepLeft _ _ iha ihb => exact shows_keepLeft iha ihb
  | keepLeft_fail _ ih => exact shows_keepLeft_fail ih
  | orElse_first _ ih => exact shows_orElse_first ih
  | orElse_second _ _ iha ihb => exact shows_orElse_second iha ihb
  | firstOf _ _ ihas iha => exact shows_firstOf ihas iha
  | firstOf_fail _ ih => exact shows_firstOf_fail ih
  | many_stop _ ih => exact shows_many_stop ih
  | many_more _ _ iha ihb => exact shows_many_more iha ihb
  | many1 _ ih => exact shows_many1 ih
  | lexeme _ ih => exact shows_lexeme ih
  | name _ ih => exact shows_name ih

/-! ## The equivalence -/

/-- **A parse ends exactly when something is derived.** -/
theorem returns_parser_iff {a : Peg N} {s : Text} :
    ((G.parser ω ε a).run s).Returns ↔ Derivable G (a, s) := by
  constructor
  · rintro ⟨t, x, h⟩
    obtain ⟨o, -, -, ho⟩ := (parser_silent G a).gives h
    exact ⟨o.rest?, parser_sound G a s o ho⟩
  · rintro ⟨x, h⟩
    obtain ⟨o, ho, -⟩ := gives_of_derives h
    exact ⟨_, _, ho⟩

/-- **Parsers of grammars do what parsing expressions mean.** Over finitely many names, a parse
never ends exactly when it comes to a left recursion or to a repetition of nothing. -/
theorem parser_iff_derives [Finite N] (ω ε : Type) (G : Grammar N) (a : Peg N) (s : Text) :
    (∀ r, (∃ v, ((G.parser ω ε a).run s).Ends [] (.ok (.success v r))) ↔
      Derives G a s (some r)) ∧
    (((G.parser ω ε a).run s).Ends [] (.ok .failure) ↔ Derives G a s none) ∧
    (∀ t x, ((G.parser ω ε a).run s).Ends t x → t = [] ∧ ∃ o, x = .ok o) ∧
    (¬((G.parser ω ε a).run s).Returns ↔ ∀ x, ¬Derives G a s x) ∧
    ((∀ x, ¬Derives G a s x) ↔
      ∃ d, Relation.ReflTransGen (Needs G) (a, s) d ∧ Endless G d) := by
  refine ⟨fun r => ⟨?_, ?_⟩, ⟨?_, ?_⟩, ?_, ?_, ?_⟩
  · rintro ⟨v, h⟩
    exact parser_sound G a s _ h
  · intro h
    exact shows_some.1 (gives_of_derives h)
  · exact parser_sound G a s _
  · intro h
    exact shows_none.1 (gives_of_derives h)
  · exact parser_silent G a s
  · rw [returns_parser_iff, Derivable, not_exists]
  · have h := not_derivable_iff (G := G) (c := (a, s))
    rwa [Derivable, not_exists] at h

/-- One or more `a`, with the recursion on the left. -/
def leftAs : Grammar Unit := fun _ =>
  .orElse (.keepLeft (.name ()) (.char 'a')) (.ready (.char 'a'))

/-- The rule of one or more `a` derives nothing and its parser never ends, although its second
alternative takes the first `a`. -/
theorem parser_iff_derives_leftAs :
    ¬((leftAs.parser Unit Unit (.name ())).run ['a', 'a']).Returns ∧
      ∃ v, ((leftAs.parser Unit Unit (.char 'a')).run ['a', 'a']).Ends []
        (.ok (.success v ['a'])) := by
  constructor
  · obtain ⟨-, -, -, hreturns, hendless⟩ :=
      parser_iff_derives Unit Unit leftAs (.name ()) ['a', 'a']
    refine hreturns.2 (hendless.2 ⟨_, .refl, .leftRecursion ?_⟩)
    let s : Text := ['a', 'a']
    have hrule : Needs leftAs (.name (), s) (leftAs (), s) := .name () s
    have hfirst : Needs leftAs (leftAs (), s) (.keepLeft (.name ()) (.char 'a'), s) :=
      .orElse_first _ _ s
    exact .trans (.head hrule (.single hfirst)) (.single (.keepLeft_left _ _ _))
  · exact ((parser_iff_derives Unit Unit leftAs (.char 'a') ['a', 'a']).1 ['a']).2 (.char 'a' ['a'])

end Descent.Peg
