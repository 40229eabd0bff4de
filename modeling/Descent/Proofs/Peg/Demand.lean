import Mathlib.Logic.Relation
import Descent.Peg.Derives
import Descent.Proofs.Spans

/-!
# What the result of an expression depends on

Whether an expression does anything on a text depends on what other expressions do there or further
on.

* `Needs G c d`: the task `c`, an expression and a text, comes to the task `d`.
* `derivable_of_needs`: a task has a result if all tasks it comes to have one.
* `derivable_iff_founded`: **a task has a result exactly when its demands come to an end.**
-/

namespace Descent.Peg

variable {N : Type} {G : Grammar N}

/-! ## Remainders and blanks -/

/-- What is left of a text is its end. By induction on the derivation. -/
theorem derives_suffix {a : Peg N} {s : Text} {x : Option Text} (h : Derives G a s x) :
    ∀ r, x = some r → r <:+ s := by
  induction h with
  | anyChar c s | char c s =>
    rintro r ⟨⟩
    exact List.suffix_cons c _
  | @satisfy _ c s _ =>
    rintro r ⟨⟩
    exact List.suffix_cons c _
  | literal l s =>
    rintro r ⟨⟩
    exact List.suffix_append l _
  | succeed x s =>
    rintro r ⟨⟩
    exact List.suffix_refl _
  | anyChar_end | satisfy_other | satisfy_end | char_other | char_end | literal_other | fail
  | keepRight_fail | keepLeft_fail | firstOf_fail => rintro r ⟨⟩
  | keepRight _ _ iha ihb | keepLeft _ _ iha ihb | many_more _ _ iha ihb =>
    intro r hr
    exact (ihb r hr).trans (iha _ rfl)
  | orElse_first _ ih | many1 _ ih | lexeme _ ih | name _ ih => exact ih
  | orElse_second _ _ _ ih => exact ih
  | firstOf _ _ _ ih => exact ih
  | many_stop _ _ =>
    rintro r ⟨⟩
    exact List.suffix_refl _

/-- All blanks that follow are consumed. -/
theorem derives_blanks (s : Text) : Derives G blanks s (some (trim s)) := by
  induction s with
  | nil => exact .many_stop (.satisfy_end isBlank)
  | cons c s ih =>
    by_cases hc : isBlank c = true
    · rw [trim, List.dropWhile_cons_of_pos hc]
      exact .many_more (.satisfy s hc) ih
    · rw [trim, List.dropWhile_cons_of_neg hc]
      exact .many_stop (.satisfy_other s (Bool.eq_false_iff.2 hc))

/-- A lexeme does on a text what its body does on the text without leading blanks. -/
theorem Derives.lexeme_trim {a : Peg N} {s : Text} {x : Option Text}
    (h : Derives G a (trim s) x) : Derives G (.lexeme a) s (x.map trim) := by
  cases x with
  | none => exact .lexeme (.keepRight (derives_blanks s) (.keepRight_fail h))
  | some r => exact .lexeme (.keepRight (derives_blanks s) (.keepRight h (derives_blanks r)))

/-! ## Demands -/

/-- An expression to be matched on a text. -/
abbrev Task (N : Type) := Peg N × Text

/-- **The first task comes to the second:** what it does depends on that. -/
inductive Needs (G : Grammar N) : Task N → Task N → Prop
  | keepRight_left (a b : Peg N) (s : Text) : Needs G (.keepRight a b, s) (a, s)
  | keepRight_right {a : Peg N} (b : Peg N) {s s' : Text} (h : Derives G a s (some s')) :
      Needs G (.keepRight a b, s) (b, s')
  | keepLeft_left (a b : Peg N) (s : Text) : Needs G (.keepLeft a b, s) (a, s)
  | keepLeft_right {a : Peg N} (b : Peg N) {s s' : Text} (h : Derives G a s (some s')) :
      Needs G (.keepLeft a b, s) (b, s')
  | orElse_first (a : Peg N) (b : PegRef N) (s : Text) : Needs G (.orElse a b, s) (a, s)
  | orElse_second {a : Peg N} (b : PegRef N) {s : Text} (h : Derives G a s none) :
      Needs G (.orElse a b, s) (b.expr, s)
  | firstOf {as : List (PegRef N)} (a : PegRef N) (bs : List (PegRef N)) {s : Text}
      (h : ∀ b ∈ as, Derives G b.expr s none) : Needs G (.firstOf (as ++ a :: bs), s) (a.expr, s)
  | many_once (a : Peg N) (s : Text) : Needs G (.many a, s) (a, s)
  | many_again {a : Peg N} {s s' : Text} (h : Derives G a s (some s')) :
      Needs G (.many a, s) (.many a, s')
  | many1_once (a : Peg N) (s : Text) : Needs G (.many1 a, s) (a, s)
  | many1_again {a : Peg N} {s s' : Text} (h : Derives G a s (some s')) :
      Needs G (.many1 a, s) (.many a, s')
  | lexeme (a : Peg N) (s : Text) : Needs G (.lexeme a, s) (a, trim s)
  | name (n : N) (s : Text) : Needs G (.name n, s) (G n, s)

/-- A task only comes to tasks on what is left of its text. -/
theorem Needs.suffix {c d : Task N} (h : Needs G c d) : d.2 <:+ c.2 := by
  cases h with
  | keepRight_right _ h | keepLeft_right _ h | many_again h | many1_again h =>
    exact derives_suffix h _ rfl
  | lexeme a s => exact List.dropWhile_suffix isBlank
  | _ => exact List.suffix_refl _

theorem suffix_of_path {c d : Task N} (h : Relation.ReflTransGen (Needs G) c d) :
    d.2 <:+ c.2 := by
  induction h with
  | refl => exact List.suffix_refl _
  | tail _ h ih => exact h.suffix.trans ih

/-- The expression has a result on the text. -/
def Derivable (G : Grammar N) (c : Task N) : Prop := ∃ x, Derives G c.1 c.2 x

/-- A choice has a result when each alternative has one whose turn comes. -/
theorem firstOf_derivable {s : Text} {as : List (PegRef N)}
    (h : ∀ as₁ a as₂, as = as₁ ++ a :: as₂ → (∀ b ∈ as₁, Derives G b.expr s none) →
      Derivable G (a.expr, s)) : Derivable G (.firstOf as, s) := by
  -- the alternatives tried so far have all failed
  have tried : ∀ as₂ as₁, as = as₁ ++ as₂ → (∀ b ∈ as₁, Derives G b.expr s none) →
      Derivable G (.firstOf as, s) := by
    intro as₂
    induction as₂ with
    | nil =>
      rintro as₁ rfl hf
      refine ⟨none, .firstOf_fail fun b hb => hf b ?_⟩
      rwa [List.append_nil] at hb
    | cons a as₂ ih =>
      intro as₁ e hf
      obtain ⟨x, hx⟩ := h as₁ a as₂ e hf
      cases x with
      | some r => exact ⟨some r, e ▸ .firstOf hf hx⟩
      | none =>
        refine ih (as₁ ++ [a]) (by rw [e, List.append_assoc]; rfl) fun b hb => ?_
        rcases List.mem_append.1 hb with hb | hb
        · exact hf b hb
        · cases List.mem_singleton.1 hb
          exact hx
  exact tried as [] rfl fun b hb => by cases hb

/-- **A task has a result if all tasks it comes to have one.** -/
theorem derivable_of_needs {c : Task N} (h : ∀ d, Needs G c d → Derivable G d) :
    Derivable G c := by
  obtain ⟨a, s⟩ := c
  cases a with
  | anyChar =>
    cases s with
    | nil => exact ⟨_, .anyChar_end⟩
    | cons c s => exact ⟨_, .anyChar c s⟩
  | satisfy test =>
    cases s with
    | nil => exact ⟨_, .satisfy_end test⟩
    | cons c s =>
      cases hc : test c with
      | true => exact ⟨_, .satisfy s hc⟩
      | false => exact ⟨_, .satisfy_other s hc⟩
  | char c =>
    cases s with
    | nil => exact ⟨_, .char_end c⟩
    | cons d s =>
      by_cases hc : c = d
      · subst hc
        exact ⟨_, .char c s⟩
      · exact ⟨_, .char_other s hc⟩
  | literal l =>
    by_cases hl : l <+: s
    · obtain ⟨r, rfl⟩ := hl
      exact ⟨_, .literal l r⟩
    · exact ⟨_, .literal_other hl⟩
  | succeed x => exact ⟨_, .succeed x s⟩
  | fail => exact ⟨_, .fail s⟩
  | keepRight a b =>
    obtain ⟨x, hx⟩ := h _ (.keepRight_left a b s)
    cases x with
    | none => exact ⟨_, .keepRight_fail hx⟩
    | some s' =>
      obtain ⟨y, hy⟩ := h _ (.keepRight_right b hx)
      exact ⟨y, .keepRight hx hy⟩
  | keepLeft a b =>
    obtain ⟨x, hx⟩ := h _ (.keepLeft_left a b s)
    cases x with
    | none => exact ⟨_, .keepLeft_fail hx⟩
    | some s' =>
      obtain ⟨y, hy⟩ := h _ (.keepLeft_right b hx)
      exact ⟨y, .keepLeft hx hy⟩
  | orElse a b =>
    obtain ⟨x, hx⟩ := h _ (.orElse_first a b s)
    cases x with
    | some r => exact ⟨_, .orElse_first hx⟩
    | none =>
      obtain ⟨y, hy⟩ := h _ (.orElse_second b hx)
      exact ⟨y, .orElse_second hx hy⟩
  | firstOf as =>
    refine firstOf_derivable fun as₁ a as₂ e hf => ?_
    subst e
    exact h _ (.firstOf a as₂ hf)
  | many a =>
    obtain ⟨x, hx⟩ := h _ (.many_once a s)
    cases x with
    | none => exact ⟨_, .many_stop hx⟩
    | some s' =>
      obtain ⟨y, hy⟩ := h _ (.many_again hx)
      exact ⟨y, .many_more hx hy⟩
  | many1 a =>
    obtain ⟨x, hx⟩ := h _ (.many1_once a s)
    cases x with
    | none => exact ⟨_, .many1 (.keepRight_fail hx)⟩
    | some s' =>
      obtain ⟨y, hy⟩ := h _ (.many1_again hx)
      exact ⟨y, .many1 (.keepRight hx hy)⟩
  | lexeme a =>
    obtain ⟨x, hx⟩ := h _ (.lexeme a s)
    exact ⟨_, hx.lexeme_trim⟩
  | name n =>
    obtain ⟨x, hx⟩ := h _ (.name n s)
    exact ⟨x, .name hx⟩

/-- The demands of a task come to an end. -/
def Founded (G : Grammar N) (c : Task N) : Prop := Acc (fun d c => Needs G c d) c

theorem founded_intro {c : Task N} (h : ∀ d, Needs G c d → Founded G d) : Founded G c :=
  Acc.intro c h

theorem Founded.needs {c d : Task N} (h : Founded G c) (hd : Needs G c d) : Founded G d :=
  Acc.inv h hd

theorem Founded.path {c d : Task N} (h : Founded G c)
    (hd : Relation.ReflTransGen (Needs G) c d) : Founded G d := by
  induction hd with
  | refl => exact h
  | tail _ hd ih => exact ih.needs hd

theorem Founded.not_cycle {c : Task N} (h : Founded G c) :
    ¬Relation.TransGen (Needs G) c c := by
  replace h : Acc (Relation.TransGen fun d c => Needs G c d) c := h.transGen
  induction h with
  | intro c _ ih =>
    intro hc
    exact ih c (Relation.transGen_swap.1 hc) hc

/-- In a list with two marked members, either marked member is the other or stands before it. -/
theorem split_cases {α : Type} {as bs as' bs' : List α} {a a' : α}
    (e : as ++ a :: bs = as' ++ a' :: bs') : a' ∈ as ∨ a' = a ∨ a ∈ as' := by
  rcases List.append_eq_append_iff.1 e with ⟨l, rfl, h⟩ | ⟨l, rfl, h⟩
  · cases l with
    | nil => exact .inr (.inl (List.cons.inj h).1.symm)
    | cons d l =>
      obtain ⟨rfl, -⟩ := List.cons.inj h
      exact .inr (.inr (List.mem_append_right _ List.mem_cons_self))
  · cases l with
    | nil => exact .inr (.inl (List.cons.inj h).1)
    | cons d l =>
      obtain ⟨rfl, -⟩ := List.cons.inj h
      exact .inl (List.mem_append_right _ List.mem_cons_self)

/-- A derivation looks at every task that its own task comes to. -/
theorem founded_of_derives {a : Peg N} {s : Text} {x : Option Text} (h : Derives G a s x) :
    Founded G (a, s) := by
  induction h with
  | anyChar | anyChar_end | satisfy | satisfy_other | satisfy_end | char | char_other | char_end
  | literal | literal_other | succeed | fail => exact founded_intro fun d hd => by cases hd
  | keepRight h _ iha ihb =>
    refine founded_intro fun d hd => ?_
    cases hd with
    | keepRight_left => exact iha
    | keepRight_right _ k =>
      cases h.unique k
      exact ihb
  | keepRight_fail h ih =>
    refine founded_intro fun d hd => ?_
    cases hd with
    | keepRight_left => exact ih
    | keepRight_right _ k => cases h.unique k
  | keepLeft h _ iha ihb =>
    refine founded_intro fun d hd => ?_
    cases hd with
    | keepLeft_left => exact iha
    | keepLeft_right _ k =>
      cases h.unique k
      exact ihb
  | keepLeft_fail h ih =>
    refine founded_intro fun d hd => ?_
    cases hd with
    | keepLeft_left => exact ih
    | keepLeft_right _ k => cases h.unique k
  | orElse_first h ih =>
    refine founded_intro fun d hd => ?_
    cases hd with
    | orElse_first => exact ih
    | orElse_second _ k => cases h.unique k
  | orElse_second _ _ iha ihb =>
    refine founded_intro fun d hd => ?_
    cases hd with
    | orElse_first => exact iha
    | orElse_second => exact ihb
  | @firstOf as bs a s r _ h ihas iha =>
    refine founded_intro fun d hd => ?_
    generalize hl : as ++ a :: bs = l at hd
    cases hd with
    | firstOf a' bs' hf =>
      -- an alternative after the one that succeeds is never tried
      rcases split_cases hl with ha | rfl | ha
      · exact ihas a' ha
      · exact iha
      · cases h.unique (hf a ha)
  | @firstOf_fail as s _ ih =>
    refine founded_intro fun d hd => ?_
    cases hd with
    | firstOf a' bs' hf => exact ih a' (List.mem_append_right _ List.mem_cons_self)
  | many_stop h ih =>
    refine founded_intro fun d hd => ?_
    cases hd with
    | many_once => exact ih
    | many_again k => cases h.unique k
  | many_more h _ iha ihb =>
    refine founded_intro fun d hd => ?_
    cases hd with
    | many_once => exact iha
    | many_again k =>
      cases h.unique k
      exact ihb
  | many1 _ ih =>
    refine founded_intro fun d hd => ?_
    cases hd with
    | many1_once => exact ih.needs (.keepRight_left _ _ _)
    | many1_again k => exact ih.needs (.keepRight_right _ k)
  | @lexeme a s _ _ ih =>
    refine founded_intro fun d hd => ?_
    cases hd with
    | lexeme =>
      exact (ih.needs (.keepRight_right _ (derives_blanks s))).needs (.keepRight_left a _ _)
  | @name n s _ _ ih =>
    refine founded_intro fun d hd => ?_
    cases hd with
    | name => exact ih

/-- **A task has a result exactly when its demands come to an end.** -/
theorem derivable_iff_founded {c : Task N} : Derivable G c ↔ Founded G c := by
  constructor
  · rintro ⟨x, h⟩
    exact founded_of_derives h
  · intro h
    induction h with
    | intro c _ ih => exact derivable_of_needs ih

end Descent.Peg
