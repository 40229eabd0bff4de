import Descent.Parser.Lexeme

/-!
# Spans and lexemes

A repeated test takes the longest part of the text that passes it, and a lexeme is its parser on a
text without leading blanks.

* `Span test s cs r`: the text `s` begins with the characters `cs` that pass the test, and with no
  more; `r` is the rest.
* `trim s`: the text without its leading blanks.
* `many_oneOf_agrees`: **the repetition of a test is a span.**
* `lexeme_agrees`: **a lexeme drops blanks, runs its parser once, and drops blanks again.**
-/

namespace Descent

/-- The characters `cs` are the longest part of the text `s` that passes the test, and `r`
follows. -/
def Span (test : Char → Bool) (s cs r : Text) : Prop :=
  s = cs ++ r ∧ (∀ c ∈ cs, test c = true) ∧ ∀ c r', r = c :: r' → test c = false

/-- A span and the rest are what is taken and what is dropped while the test is passed. -/
theorem span_iff {test : Char → Bool} {s cs r : Text} :
    Span test s cs r ↔ cs = s.takeWhile test ∧ r = s.dropWhile test := by
  constructor
  · rintro ⟨rfl, hcs, hr⟩
    have hstop : r.takeWhile test = [] ∧ r.dropWhile test = r := by
      cases r with
      | nil => exact ⟨rfl, rfl⟩
      | cons c r =>
        have hc : ¬test c = true := by simp [hr c r rfl]
        exact ⟨List.takeWhile_cons_of_neg hc, List.dropWhile_cons_of_neg hc⟩
    rw [List.takeWhile_append_of_pos hcs, List.dropWhile_append_of_pos hcs, hstop.1, hstop.2]
    exact ⟨(List.append_nil cs).symm, rfl⟩
  · rintro ⟨rfl, rfl⟩
    refine ⟨List.takeWhile_append_dropWhile.symm, List.all_eq_true.1 List.all_takeWhile, ?_⟩
    intro c r' hr
    have h := List.head?_dropWhile_not test s
    rw [hr] at h
    exact h

/-- Nothing follows a span just when the whole text passes the test. -/
theorem Span.rest_eq_nil_iff {test : Char → Bool} {s cs r : Text} (h : Span test s cs r) :
    r = [] ↔ ∀ c ∈ s, test c = true := by
  obtain ⟨rfl, hcs, hr⟩ := h
  constructor
  · rintro rfl
    rwa [List.append_nil]
  · intro hs
    cases r with
    | nil => rfl
    | cons c r =>
      have hc := hs c (List.mem_append_right cs List.mem_cons_self)
      rw [hr c r rfl] at hc
      cases hc

/-- A text without its leading blanks. -/
def trim (s : Text) : Text := s.dropWhile isBlank

/-- A text that has no leading blanks. -/
def Trimmed (s : Text) : Prop := ∀ c s', s = c :: s' → isBlank c = false

/-- Trimming takes off blanks, and all of them. -/
theorem trim_eq_iff {s r : Text} :
    trim s = r ↔ ∃ w, s = w ++ r ∧ (∀ c ∈ w, isBlank c = true) ∧ Trimmed r := by
  constructor
  · rintro rfl
    exact ⟨s.takeWhile isBlank, span_iff.2 ⟨rfl, rfl⟩⟩
  · rintro ⟨w, h⟩
    exact (span_iff.1 h).2.symm

theorem Trimmed.trim {s : Text} (h : Trimmed s) : trim s = s :=
  trim_eq_iff.2 ⟨[], rfl, fun _ hc => (by cases hc), h⟩

theorem length_trim_le (s : Text) : (trim s).length ≤ s.length :=
  (List.dropWhile_sublist isBlank).length_le

/-- Drops the leading blanks of the remainder. -/
def Outcome.trim {α : Type} : Outcome α → Outcome α
  | success a r => success a (Descent.trim r)
  | failure => failure

namespace Parser

variable {ω ε α : Type}

/-- **A repeated test takes the characters that pass it, up to the first that does not.** -/
theorem many_oneOf_agrees (test : Char → Bool) (s : Text) :
    ((many (oneOf test : Parser ω ε Char)).run s).Agrees
      (pure (.success (s.takeWhile test) (s.dropWhile test))) := by
  induction s with
  | nil =>
    refine (many_agrees _ []).trans (.of_eq ?_)
    rw [oneOf_nil, pure_bind]
    rfl
  | cons c s ih =>
    refine (many_agrees _ (c :: s)).trans ?_
    rw [oneOf_cons, pure_bind]
    by_cases hc : test c
    · rw [List.takeWhile_cons_of_pos hc, List.dropWhile_cons_of_pos hc, if_pos hc]
      refine (ih.bind fun o => .refl _).trans (.of_eq ?_)
      exact pure_bind ..
    · rw [List.takeWhile_cons_of_neg hc, List.dropWhile_cons_of_neg hc, if_neg hc]
      exact .refl _

theorem skipBlanks_agrees (s : Text) : ((skipBlanks : Parser ω ε Text).run s).Agrees
    (pure (.success (s.takeWhile isBlank) (trim s))) := many_oneOf_agrees isBlank s

/-- The steps of a lexeme one after the other. -/
theorem lexeme_run (p : Parser ω ε α) (s : Text) :
    (lexeme p).run s = skipBlanks.run s >>= fun
      | .success _ s' => p.run s' >>= fun
        | .success a r => skipBlanks.run r >>= fun
          | .success _ r' => pure (.success a r')
          | .failure => pure .failure
        | .failure => pure .failure
      | .failure => pure .failure := by
  simp only [lexeme, ap, bind_run, map_run, pure_bind, bind_assoc]
  refine congrArg (skipBlanks.run s >>= ·) (funext fun o => ?_)
  cases o with
  | failure => simp only [pure_bind]
  | success b s' =>
    simp only [pure_bind, bind_assoc]
    refine congrArg (p.run s' >>= ·) (funext fun o => ?_)
    cases o with
    | failure => exact pure_bind ..
    | success a r =>
      simp only [pure_bind]
      refine congrArg (skipBlanks.run r >>= ·) (funext fun o => ?_)
      cases o <;> rfl

/-- **A lexeme is its parser between blanks.** -/
theorem lexeme_agrees (p : Parser ω ε α) (s : Text) :
    ((lexeme p).run s).Agrees (p.run (trim s) >>= fun o => pure o.trim) := by
  rw [lexeme_run]
  refine ((skipBlanks_agrees s).bind fun o => .refl _).trans ?_
  rw [pure_bind]
  refine (Run.Agrees.refl (p.run (trim s))).bind fun o => ?_
  cases o with
  | failure => exact .refl _
  | success a r =>
    refine ((skipBlanks_agrees r).bind fun o => .refl _).trans (.of_eq ?_)
    exact pure_bind ..

end Parser

end Descent
