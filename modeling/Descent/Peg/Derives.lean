import Descent.Peg.Basic

/-!
# The meaning of parsing expressions

`Derives G a s x` says what the expression `a` of the grammar `G` does on the text `s`: with
`x = some r` it consumes up to the remainder `r`, and with `x = none` it fails. Choice is ordered
and tries each alternative on the same text; repetition takes all it can and gives nothing back.

* `Derives.unique`: there is at most one derivation result.
-/

namespace Descent.Peg

variable {N : Type}

/-- All blanks that follow. -/
def blanks : Peg N := .many (.satisfy isBlank)

/-- **The derivations** of a grammar. -/
inductive Derives (G : Grammar N) : Peg N → Text → Option Text → Prop
  | anyChar (c : Char) (s : Text) : Derives G .anyChar (c :: s) (some s)
  | anyChar_end : Derives G .anyChar [] none
  | satisfy {test : Char → Bool} {c : Char} (s : Text) (h : test c = true) :
      Derives G (.satisfy test) (c :: s) (some s)
  | satisfy_other {test : Char → Bool} {c : Char} (s : Text) (h : test c = false) :
      Derives G (.satisfy test) (c :: s) none
  | satisfy_end (test : Char → Bool) : Derives G (.satisfy test) [] none
  | char (c : Char) (s : Text) : Derives G (.char c) (c :: s) (some s)
  | char_other {c d : Char} (s : Text) (h : c ≠ d) : Derives G (.char c) (d :: s) none
  | char_end (c : Char) : Derives G (.char c) [] none
  | literal (l s : Text) : Derives G (.literal l) (l ++ s) (some s)
  | literal_other {l s : Text} (h : ¬l <+: s) : Derives G (.literal l) s none
  | succeed (x : Piece) (s : Text) : Derives G (.succeed x) s (some s)
  | fail (s : Text) : Derives G .fail s none
  | keepRight {a b : Peg N} {s s' : Text} {x : Option Text} (h : Derives G a s (some s'))
      (k : Derives G b s' x) : Derives G (.keepRight a b) s x
  | keepRight_fail {a b : Peg N} {s : Text} (h : Derives G a s none) :
      Derives G (.keepRight a b) s none
  | keepLeft {a b : Peg N} {s s' : Text} {x : Option Text} (h : Derives G a s (some s'))
      (k : Derives G b s' x) : Derives G (.keepLeft a b) s x
  | keepLeft_fail {a b : Peg N} {s : Text} (h : Derives G a s none) :
      Derives G (.keepLeft a b) s none
  | orElse_first {a : Peg N} {b : PegRef N} {s r : Text} (h : Derives G a s (some r)) :
      Derives G (.orElse a b) s (some r)
  | orElse_second {a : Peg N} {b : PegRef N} {s : Text} {x : Option Text}
      (h : Derives G a s none) (k : Derives G b.expr s x) : Derives G (.orElse a b) s x
  | firstOf {as bs : List (PegRef N)} {a : PegRef N} {s r : Text}
      (h : ∀ b ∈ as, Derives G b.expr s none) (k : Derives G a.expr s (some r)) :
      Derives G (.firstOf (as ++ a :: bs)) s (some r)
  | firstOf_fail {as : List (PegRef N)} {s : Text} (h : ∀ b ∈ as, Derives G b.expr s none) :
      Derives G (.firstOf as) s none
  | many_stop {a : Peg N} {s : Text} (h : Derives G a s none) : Derives G (.many a) s (some s)
  | many_more {a : Peg N} {s s' : Text} {x : Option Text} (h : Derives G a s (some s'))
      (k : Derives G (.many a) s' x) : Derives G (.many a) s x
  | many1 {a : Peg N} {s : Text} {x : Option Text}
      (h : Derives G (.keepRight a (.many a)) s x) : Derives G (.many1 a) s x
  | lexeme {a : Peg N} {s : Text} {x : Option Text}
      (h : Derives G (.keepRight blanks (.keepRight a blanks)) s x) : Derives G (.lexeme a) s x
  | name {n : N} {s : Text} {x : Option Text} (h : Derives G (G n) s x) : Derives G (.name n) s x

/-- A list has one first member of a kind. -/
theorem first_unique {α : Type} {P Q : α → Prop} {as as' bs bs' : List α} {a a' : α}
    (e : as ++ a :: bs = as' ++ a' :: bs') (h : ∀ b ∈ as, P b) (h' : ∀ b ∈ as', Q b) (ha : ¬Q a)
    (ha' : ¬P a') : a = a' := by
  induction as generalizing as' with
  | nil =>
    cases as' with
    | nil => exact (List.cons.inj e).1
    | cons c cs => exact absurd (h' a ((List.cons.inj e).1 ▸ List.mem_cons_self)) ha
  | cons c cs ih =>
    cases as' with
    | nil => exact absurd (h a' ((List.cons.inj e).1 ▸ List.mem_cons_self)) ha'
    | cons d ds =>
      exact ih (List.cons.inj e).2 (fun b hb => h b (List.mem_cons_of_mem c hb))
        fun b hb => h' b (List.mem_cons_of_mem d hb)

/-- **A derivation has one result.** -/
theorem Derives.unique {G : Grammar N} {a : Peg N} {s : Text} {x y : Option Text}
    (h : Derives G a s x) (k : Derives G a s y) : x = y := by
  induction h generalizing y with
  | anyChar | anyChar_end | satisfy_end | char_end | succeed | fail => cases k; rfl
  | satisfy s h | satisfy_other s h => cases k <;> simp_all
  | char c s => cases k with
    | char => rfl
    | char_other _ h => exact absurd rfl h
  | char_other s h => cases k with
    | char => exact absurd rfl h
    | char_other => rfl
  | literal l s =>
    generalize hu : l ++ s = u at k
    cases k with
    | literal => rw [List.append_cancel_left hu]
    | literal_other h => exact absurd ⟨s, hu⟩ h
  | literal_other h => cases k with
    | literal => exact absurd ⟨_, rfl⟩ h
    | literal_other => rfl
  | keepRight _ _ iha ihb => cases k with
    | keepRight k l =>
      cases iha k
      exact ihb l
    | keepRight_fail k => cases iha k
  | keepRight_fail _ ih => cases k with
    | keepRight k l => cases ih k
    | keepRight_fail => rfl
  | keepLeft _ _ iha ihb => cases k with
    | keepLeft k l =>
      cases iha k
      exact ihb l
    | keepLeft_fail k => cases iha k
  | keepLeft_fail _ ih => cases k with
    | keepLeft k l => cases ih k
    | keepLeft_fail => rfl
  | orElse_first _ ih => cases k with
    | orElse_first k => exact ih k
    | orElse_second k _ => cases ih k
  | orElse_second _ _ iha ihb => cases k with
    | orElse_first k => cases iha k
    | orElse_second _ k => exact ihb k
  | @firstOf as bs a s r h k' iha ihb =>
    generalize hu : as ++ a :: bs = u at k
    cases k with
    | @firstOf as' bs' a' _ r' l m =>
      obtain rfl : a = a' := first_unique hu (P := fun b => ∀ r, ¬Derives G b.expr s (some r))
        (fun b hb r hr => by cases iha b hb hr) l (fun ha => by cases ihb ha) fun ha' => ha' r' m
      exact ihb m
    | firstOf_fail l => cases ihb (l a (hu ▸ List.mem_append_right as List.mem_cons_self))
  | @firstOf_fail as s h ih => cases k with
    | firstOf l m => cases ih _ (List.mem_append_right _ List.mem_cons_self) m
    | firstOf_fail => rfl
  | many_stop _ ih => cases k with
    | many_stop => rfl
    | many_more k _ => cases ih k
  | many_more _ _ iha ihb => cases k with
    | many_stop k => cases iha k
    | many_more k l =>
      cases iha k
      exact ihb l
  | many1 _ ih => cases k with | many1 k => exact ih k
  | lexeme _ ih => cases k with | lexeme k => exact ih k
  | name _ ih => cases k with | name k => exact ih k

end Descent.Peg
