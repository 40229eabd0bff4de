import Descent.Proofs.Gives
import Descent.Proofs.Peg.Demand

/-!
# What parsers of grammars do is derived

* `toParser_silent`: the parsers of a grammar leave no marks and raise nothing.
* `toParser_sound`: **one step,** what an expression hands on from the names it refers to, with one
  lemma for each operation.
* `rules_sound`, `parser_sound`: **whatever outcome a parse has is derived.** The induction is over
  the unfoldings an ending needs, since names may refer to themselves.
-/

namespace Descent

/-- What an outcome leaves of the text, if it is a success. -/
def Outcome.rest? {α : Type} : Outcome α → Option Text
  | success _ r => some r
  | failure => none

@[simp] theorem Outcome.rest?_map {α β : Type} (f : α → β) (o : Outcome α) :
    (o.map f).rest? = o.rest? := by cases o <;> rfl

theorem Outcome.rest?_trim {α : Type} (o : Outcome α) :
    o.trim.rest? = o.rest?.map Descent.trim := by
  cases o <;> rfl

namespace Peg

variable {ω ε N : Type} {G : Grammar N} {rules : N → Parser ω ε Piece}

/-- An alternative parses as the expression that it stands for. -/
theorem lazily_toRef (b : PegRef N) :
    Parser.lazily (toRef rules b) = toParser rules b.expr := by
  cases b with
  | ready a => exact Parser.lazily_ready _
  | deferred n => rfl

/-! ## Soundness -/

theorem toParser_name (n : N) : toParser rules (.name n) = rules n := Parser.after_pure _

theorem gives_oneOf_iff {test : Char → Bool} {s : Text} {o : Outcome Char} :
    (Parser.oneOf test : Parser ω ε Char).Gives s o ↔
      o = match s with
        | [] => .failure
        | c :: s => if test c then .success c s else .failure := by
  cases s with
  | nil => exact Parser.gives_of_run (Parser.oneOf_nil test)
  | cons c s => exact Parser.gives_of_run (Parser.oneOf_cons test c s)

theorem silent_oneOf (test : Char → Bool) : (Parser.oneOf test : Parser ω ε Char).Silent :=
  Parser.silent_of_gives fun _ => ⟨_, gives_oneOf_iff.2 rfl⟩

theorem silent_literal (l : Text) : (Parser.literal l : Parser ω ε Text).Silent := by
  refine Parser.silent_of_run fun s => ?_
  by_cases h : l <+: s
  · obtain ⟨r, rfl⟩ := h
    exact ⟨_, Parser.literal_append l r⟩
  · exact ⟨_, Parser.literal_of_not h⟩

theorem silent_anyChar : (Parser.anyChar : Parser ω ε Char).Silent :=
  Parser.silent_of_run fun
    | [] => ⟨_, Parser.anyChar_nil⟩
    | c :: s => ⟨_, Parser.anyChar_cons c s⟩

mutual

/-- Grammars have no effects: no expression leaves marks or raises if no name does. -/
theorem toParser_silent (h : ∀ n, (rules n).Silent) : ∀ a : Peg N, (toParser rules a).Silent
  | .anyChar => Parser.silent_map silent_anyChar
  | .satisfy test => Parser.silent_map (silent_oneOf test)
  | .char c => Parser.silent_map (silent_oneOf (c == ·))
  | .literal l => Parser.silent_map (silent_literal l)
  | .succeed x => Parser.silent_of_run fun s => ⟨_, Parser.succeed_run x s⟩
  | .fail => Parser.silent_of_run fun s => ⟨_, Parser.fail_run s⟩
  | .keepRight a b => Parser.silent_bind (toParser_silent h a) fun _ => toParser_silent h b
  | .keepLeft a b => Parser.silent_bind (toParser_silent h a) fun _ =>
    Parser.silent_map (toParser_silent h b)
  | .orElse a b => Parser.silent_orElse (toParser_silent h a) (toRef_silent h b)
  | .firstOf as => Parser.silent_firstOf (toRefs_silent h as)
  | .many a => Parser.silent_map (Parser.silent_many (toParser_silent h a))
  | .many1 a => Parser.silent_map (Parser.silent_many1 (toParser_silent h a))
  | .lexeme a => Parser.silent_lexeme (toParser_silent h a)
  | .name n => by
    rw [toParser_name]
    exact h n

theorem toRef_silent (h : ∀ n, (rules n).Silent) :
    ∀ b : PegRef N, (Parser.lazily (toRef rules b)).Silent
  | .ready a => by
    have ha := toParser_silent h a
    rwa [lazily_toRef]
  | .deferred n => by
    rw [lazily_toRef, PegRef.expr, toParser_name]
    exact h n

theorem toRefs_silent (h : ∀ n, (rules n).Silent) :
    ∀ as : List (PegRef N), ∀ q ∈ toRefs rules as, (Parser.lazily q).Silent
  | [] => fun q hq => by cases hq
  | b :: bs => List.forall_mem_cons.2 ⟨toRef_silent h b, toRefs_silent h bs⟩

end

/-- What the outcomes of the parser show is derived. -/
def Sound {α : Type} (G : Grammar N) (a : Peg N) (p : Parser ω ε α) : Prop :=
  ∀ s o, p.Gives s o → Derives G a s o.rest?

section

variable {α β : Type} {a b : Peg N} {p : Parser ω ε α} {q : Parser ω ε β}

/-- A function on the value does not change what is derived. -/
theorem sound_map {f : α → β} (h : Sound G a p) : Sound G a (p.map fun x => pure (f x)) := by
  intro s o ho
  obtain ⟨o', ho', rfl⟩ := Parser.gives_map.1 ho
  rw [Outcome.rest?_map]
  exact h s o' ho'

theorem sound_anyChar : Sound G .anyChar (Parser.anyChar : Parser ω ε Char) := by
  intro s o h
  cases s with
  | nil =>
    obtain rfl := (Parser.gives_of_run Parser.anyChar_nil).1 h
    exact .anyChar_end
  | cons c s =>
    obtain rfl := (Parser.gives_of_run (Parser.anyChar_cons c s)).1 h
    exact .anyChar c s

theorem sound_satisfy (test : Char → Bool) :
    Sound G (.satisfy test) (Parser.oneOf test : Parser ω ε Char) := by
  intro s o h
  obtain rfl := gives_oneOf_iff.1 h
  cases s with
  | nil => exact .satisfy_end test
  | cons c s =>
    dsimp only
    split
    · exact .satisfy s ‹_›
    · exact .satisfy_other s (Bool.eq_false_iff.2 ‹_›)

theorem sound_char (c : Char) : Sound G (.char c) (Parser.char c : Parser ω ε Char) := by
  intro s o h
  obtain rfl := gives_oneOf_iff.1 h
  cases s with
  | nil => exact .char_end c
  | cons d s =>
    dsimp only
    by_cases hd : c = d
    · subst hd
      rw [if_pos (beq_self_eq_true c)]
      exact .char c s
    · rw [if_neg (mt beq_iff_eq.1 hd)]
      exact .char_other s hd

theorem sound_literal (l : Text) : Sound G (.literal l) (Parser.literal l : Parser ω ε Text) := by
  intro s o h
  by_cases hl : l <+: s
  · obtain ⟨r, rfl⟩ := hl
    obtain rfl := (Parser.gives_of_run (Parser.literal_append l r)).1 h
    exact .literal l r
  · obtain rfl := (Parser.gives_of_run (Parser.literal_of_not hl)).1 h
    exact .literal_other hl

theorem sound_keepRight (ha : Sound G a p) (hb : Sound G b q) :
    Sound G (.keepRight a b) (p.keepRight q) := by
  intro s o h
  rcases Parser.gives_bind.1 h with ⟨hf, rfl⟩ | ⟨v, s', hv, ho⟩
  · exact .keepRight_fail (ha s _ hf)
  · exact .keepRight (ha s _ hv) (hb s' o ho)

theorem sound_keepLeft (ha : Sound G a p) (hb : Sound G b q) :
    Sound G (.keepLeft a b) (p.keepLeft q) := by
  intro s o h
  rcases Parser.gives_bind.1 h with ⟨hf, rfl⟩ | ⟨v, s', hv, ho⟩
  · exact .keepLeft_fail (ha s _ hf)
  · exact .keepLeft (ha s _ hv) (sound_map hb s' o ho)

theorem sound_orElse {b : PegRef N} {r : Ref ω ε α} (ha : Sound G a p)
    (hb : Sound G b.expr (Parser.lazily r)) : Sound G (.orElse a b) (p.orElse r) := by
  intro s o h
  rcases Parser.gives_orElse.1 h with ⟨hs, ho⟩ | ⟨hf, ho⟩
  · cases o with
    | failure => exact absurd rfl ho
    | success v r' => exact .orElse_first (ha s _ hs)
  · exact .orElse_second (ha s _ hf) (hb s o ho)

/-- A chain of successes that cannot be continued is a repetition. -/
theorem derives_many_of_chain (ha : Sound G a p) {s r : Text} {vs : List α}
    (h : Parser.Chain (fun s v r => p.Gives s (.success v r)) s vs r) (hf : p.Gives r .failure) :
    Derives G (.many a) s (some r) := by
  induction h with
  | nil s => exact .many_stop (ha s _ hf)
  | cons hv _ ih => exact .many_more (ha _ _ hv) (ih hf)

theorem sound_many (ha : Sound G a p) : Sound G (.many a) (Parser.many p) := by
  intro s o h
  obtain ⟨vs, r, rfl, hc, hf⟩ := Parser.gives_many.1 h
  exact derives_many_of_chain ha hc hf

theorem sound_many1 (ha : Sound G a p) : Sound G (.many1 a) (Parser.many1 p) := by
  intro s o h
  obtain ⟨o', ho', rfl⟩ := Parser.gives_many1.1 h
  obtain ⟨vs, r, rfl, hc, hf⟩ := Parser.gives_many.1 ho'
  cases hc with
  | nil => exact .many1 (.keepRight_fail (ha s _ hf))
  | cons hv hc => exact .many1 (.keepRight (ha s _ hv) (derives_many_of_chain ha hc hf))

theorem sound_lexeme (ha : Sound G a p) : Sound G (.lexeme a) (Parser.lexeme p) := by
  intro s o h
  obtain ⟨o', ho', rfl⟩ := Parser.gives_lexeme.1 h
  rw [Outcome.rest?_trim]
  exact (ha (trim s) o' ho').lexeme_trim

end

/-- A choice of sound alternatives is sound. By induction on those that are left to try. -/
theorem sound_firstOf {as : List (PegRef N)}
    (has : ∀ b ∈ as, Sound G b.expr (Parser.lazily (toRef rules b))) :
    Sound G (.firstOf as) (Parser.firstOf (toRefs rules as)) := by
  intro s o h
  rw [toRefs_eq_map] at h
  rcases Parser.gives_firstOf.1 h with ⟨rs₁, q, rs₂, e, hf, hq, ho⟩ | ⟨hf, rfl⟩
  · obtain ⟨as₁, l, rfl, rfl, hl⟩ := List.map_eq_append_iff.1 e
    obtain ⟨a, as₂, rfl, rfl, rfl⟩ := List.map_eq_cons_iff.1 hl
    -- the alternatives before the one that succeeds have failed
    have hfail : ∀ b ∈ as₁, Derives G b.expr s none := by
      intro b hb
      exact has b (List.mem_append_left _ hb) s _ (hf _ (List.mem_map_of_mem hb))
    have ha := has a (List.mem_append_right _ List.mem_cons_self) s o hq
    cases o with
    | failure => exact absurd rfl ho
    | success v r => exact .firstOf hfail ha
  · exact .firstOf_fail fun b hb => has b hb s _ (hf _ (List.mem_map_of_mem hb))

mutual

/-- **One step of soundness:** an expression is sound if the names are. -/
theorem toParser_sound (h : ∀ n, Sound G (.name n) (rules n)) :
    ∀ a : Peg N, Sound G a (toParser rules a)
  | .anyChar => sound_map sound_anyChar
  | .satisfy test => sound_map (sound_satisfy test)
  | .char c => sound_map (sound_char c)
  | .literal l => sound_map (sound_literal l)
  | .succeed x => by
    intro s o ho
    obtain rfl := (Parser.gives_of_run (Parser.succeed_run x s)).1 ho
    exact .succeed x s
  | .fail => by
    intro s o ho
    obtain rfl := (Parser.gives_of_run (Parser.fail_run s)).1 ho
    exact .fail s
  | .keepRight a b => sound_keepRight (toParser_sound h a) (toParser_sound h b)
  | .keepLeft a b => sound_keepLeft (toParser_sound h a) (toParser_sound h b)
  | .orElse a b => sound_orElse (toParser_sound h a) (toRef_sound h b)
  | .firstOf as => sound_firstOf (toRefs_sound h as)
  | .many a => sound_map (sound_many (toParser_sound h a))
  | .many1 a => sound_map (sound_many1 (toParser_sound h a))
  | .lexeme a => sound_lexeme (toParser_sound h a)
  | .name n => by
    rw [toParser_name]
    exact h n

theorem toRef_sound (h : ∀ n, Sound G (.name n) (rules n)) :
    ∀ b : PegRef N, Sound G b.expr (Parser.lazily (toRef rules b))
  | .ready a => by
    have ha := toParser_sound h a
    rwa [lazily_toRef]
  | .deferred n => by
    rw [lazily_toRef, PegRef.expr, toParser_name]
    exact h n

theorem toRefs_sound (h : ∀ n, Sound G (.name n) (rules n)) :
    ∀ as : List (PegRef N), ∀ b ∈ as, Sound G b.expr (Parser.lazily (toRef rules b))
  | [] => fun b hb => by cases hb
  | a :: as => List.forall_mem_cons.2 ⟨toRef_sound h a, toRefs_sound h as⟩

end

/-- **Every ending of a name is derived,** whatever the names it refers to go through. -/
theorem rules_sound (G : Grammar N) (n : N) :
    (G.rules ω ε n).Silent ∧ Sound G (.name n) (G.rules ω ε n) := by
  have hn : (G.rules ω ε n).Ensures fun s t x =>
      t = [] ∧ ∃ o, x = .ok o ∧ Derives G (.name n) s o.rest? := by
    refine Parser.fix_ensures (Q := fun n s t x =>
      t = [] ∧ ∃ o, x = .ok o ∧ Derives G (.name n) s o.rest?) ?_ n
    intro self hself n s t x h
    have hsilent : ∀ m, (self m).Silent := by
      intro m s t x h
      obtain ⟨ht, o, hx, -⟩ := hself m s t x h
      exact ⟨ht, o, hx⟩
    have hsound : ∀ m, Sound G (.name m) (self m) := by
      intro m s o h
      obtain ⟨-, o', ho, hd⟩ := hself m s _ _ h
      cases ho
      exact hd
    obtain ⟨o, rfl, rfl, ho⟩ := (toParser_silent hsilent (G n)).gives h
    exact ⟨rfl, o, rfl, .name (toParser_sound hsound (G n) s o ho)⟩
  constructor
  · intro s t x h
    obtain ⟨ht, o, hx, -⟩ := hn s t x h
    exact ⟨ht, o, hx⟩
  · intro s o h
    obtain ⟨-, o', ho, hd⟩ := hn s _ _ h
    cases ho
    exact hd

theorem parser_silent (G : Grammar N) (a : Peg N) : (G.parser ω ε a).Silent :=
  toParser_silent (fun n => (rules_sound G n).1) a

theorem parser_sound (G : Grammar N) (a : Peg N) : Sound G a (G.parser ω ε a) :=
  toParser_sound (fun n => (rules_sound G n).2) a

end Peg

end Descent
