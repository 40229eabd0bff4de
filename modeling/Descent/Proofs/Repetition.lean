import Descent.Proofs.Gives
import Descent.Parser.Watch

/-!
# Repetition, try by try

A repetition runs its body on one text after the other. Each success hands its remainder on to the
next try; the first try that is no success ends the repetition, and what it may have consumed is
dropped.

* `Tries p s ts vs r x`: the tries `ts`, from `s` on. All but the last succeed, with the values
  `vs`; the last is on `r` and ends with `x`. Every try comes with its text and its marks.
* `stops_iff_tries`: how a repetition ends, in terms of its tries.
* `tries_logInput_iff`: an observer in front of the body is shown the texts of the tries.
* `ends_many_iff_tries`: **a repetition ends just as its tries say,** and with the same tries one or
  more times differs from zero or more only where there is no value.
-/

namespace Descent.Parser

variable {ω ε α : Type} {p : Parser ω ε α} {s r : Text}

/-- **The tries of a repetition**: the texts the body is run on, each with the marks of its run. The
last try may end in any way, all others are successes. -/
inductive Tries (p : Parser ω ε α) :
    Text → List (Text × List ω) → List α → Text → Except ε (Outcome α) → Prop
  | last {s : Text} {t : List ω} {x : Except ε (Outcome α)} (h : (p.run s).Ends t x) :
      Tries p s [(s, t)] [] s x
  | next {s s' r : Text} {t : List ω} {ts : List (Text × List ω)} {v : α} {vs : List α}
      {x : Except ε (Outcome α)} (h : (p.run s).Ends t (.ok (.success v s')))
      (hs : Tries p s' ts vs r x) : Tries p s ((s, t) :: ts) (v :: vs) r x

/-- There is one try more than there are values. -/
theorem Tries.length {ts : List (Text × List ω)} {vs : List α} {x : Except ε (Outcome α)}
    (h : Tries p s ts vs r x) : ts.length = vs.length + 1 := by
  induction h with
  | last _ => rfl
  | next _ _ ih => rw [List.length_cons, List.length_cons, ih]

/-- A chain of successes and one ending more are tries. -/
theorem tries_of_rounds {t u : List ω} {vs : List α} {x : Except ε (Outcome α)}
    (h : Rounds p s t vs r) (hx : (p.run r).Ends u x) :
    ∃ ts, Tries p s ts vs r x ∧ t ++ u = ts.flatMap Prod.snd := by
  induction h with
  | nil s => exact ⟨[(s, u)], .last hx, by simp⟩
  | @cons s _ _ t' _ _ _ h _ ih =>
    obtain ⟨ts, hts, ht⟩ := ih hx
    exact ⟨(s, t') :: ts, .next h hts, by simp [ht]⟩

theorem Tries.rounds {ts : List (Text × List ω)} {vs : List α} {x : Except ε (Outcome α)}
    (h : Tries p s ts vs r x) :
    ∃ t u, Rounds p s t vs r ∧ (p.run r).Ends u x ∧ ts.flatMap Prod.snd = t ++ u := by
  induction h with
  | @last s t x h => exact ⟨[], t, .nil s, h, by simp⟩
  | @next s _ _ t' _ _ _ _ h _ ih =>
    obtain ⟨t, u, hr, hx, ht⟩ := ih
    exact ⟨t' ++ t, u, .cons h hr, hx, by simp [ht]⟩

/-- **How a repetition ends, in terms of its tries.** -/
theorem stops_iff_tries {t : List ω} {x : Except ε (Outcome (List α))} :
    Stops p s t x ↔ ∃ ts vs r, t = ts.flatMap Prod.snd ∧
      ((Tries p s ts vs r (.ok .failure) ∧ x = .ok (.success vs r)) ∨
        ∃ e, Tries p s ts vs r (.error e) ∧ x = .error e) := by
  constructor
  · intro h
    cases h with
    | @failure r t u vs hr hf =>
      obtain ⟨ts, hts, ht⟩ := tries_of_rounds hr hf
      exact ⟨ts, vs, r, ht, .inl ⟨hts, rfl⟩⟩
    | @error r t u vs e hr he =>
      obtain ⟨ts, hts, ht⟩ := tries_of_rounds hr he
      exact ⟨ts, vs, r, ht, .inr ⟨e, hts, rfl⟩⟩
  · rintro ⟨ts, vs, r, rfl, ⟨h, rfl⟩ | ⟨e, h, rfl⟩⟩
    · obtain ⟨t, u, hr, hf, ht⟩ := h.rounds
      rw [ht]
      exact .failure hr hf
    · obtain ⟨t, u, hr, he, ht⟩ := h.rounds
      rw [ht]
      exact .error hr he

theorem ends_many_success_iff {t : List ω} {vs : List α} :
    ((many p).run s).Ends t (.ok (.success vs r)) ↔
      ∃ ts, Tries p s ts vs r (.ok .failure) ∧ t = ts.flatMap Prod.snd := by
  rw [ends_many_iff, stops_iff_tries]
  constructor
  · rintro ⟨ts, vs', r', ht, ⟨h, hx⟩ | ⟨e, -, hx⟩⟩
    · cases hx
      exact ⟨ts, h, ht⟩
    · cases hx
  · rintro ⟨ts, h, ht⟩
    exact ⟨ts, vs, r, ht, .inl ⟨h, rfl⟩⟩

theorem ends_many_error_iff {t : List ω} {e : ε} :
    ((many p).run s).Ends t (.error e) ↔
      ∃ ts vs r, Tries p s ts vs r (.error e) ∧ t = ts.flatMap Prod.snd := by
  rw [ends_many_iff, stops_iff_tries]
  constructor
  · rintro ⟨ts, vs, r, ht, ⟨-, hx⟩ | ⟨e', h, hx⟩⟩
    · cases hx
    · cases hx
      exact ⟨ts, vs, r, h, ht⟩
  · rintro ⟨ts, vs, r, h, ht⟩
    exact ⟨ts, vs, r, ht, .inr ⟨e, h, rfl⟩⟩

/-- **A repetition never fails.** -/
theorem not_ends_many_failure {t : List ω} : ¬((many p).run s).Ends t (.ok .failure) := by
  rw [ends_many_iff]
  intro h
  cases h

/-- **Where a repetition has ended its body fails,** so there it ends at once if it is run again. -/
theorem ends_many_again {t : List ω} {vs : List α}
    (h : ((many p).run s).Ends t (.ok (.success vs r))) :
    ∃ u, (p.run r).Ends u (.ok .failure) ∧ ((many p).run r).Ends u (.ok (.success [] r)) := by
  cases ends_many_iff.1 h with
  | @failure r t u vs _ hf => exact ⟨u, hf, ends_many_iff.2 (.failure (.nil r) hf)⟩

/-! ## Watching the body -/

/-- **The observer is shown the texts of the tries,** each before the marks of its run. -/
theorem tries_logInput_iff {shown : Text → ω} {ts : List (Text × List ω)} {vs : List α}
    {x : Except ε (Outcome α)} :
    Tries (logInput (fun u => Run.emit (shown u)) p) s ts vs r x ↔
      ∃ us, Tries p s us vs r x ∧ ts = us.map fun a => (a.1, shown a.1 :: a.2) := by
  constructor
  · intro h
    induction h with
    | @last s t x h =>
      obtain ⟨u, hu, rfl⟩ := ends_logInput_emit.1 h
      exact ⟨[(s, u)], .last hu, rfl⟩
    | @next s _ _ t _ _ _ _ h _ ih =>
      obtain ⟨u, hu, rfl⟩ := ends_logInput_emit.1 h
      obtain ⟨us, hus, rfl⟩ := ih
      exact ⟨(s, u) :: us, .next hu hus, rfl⟩
  · rintro ⟨us, h, rfl⟩
    induction h with
    | last h => exact .last (ends_logInput_emit.2 ⟨_, h, rfl⟩)
    | next h _ ih => exact .next (ends_logInput_emit.2 ⟨_, h, rfl⟩) ih

/-- **Repetition is characterised by its tries.** On a success `many p` has run `p` on a chain of
texts, once on each and in order; it gives the values of all the tries but the last, which failed,
and the text of that last try. An error of a try is the error of the repetition. There is no other
way for it to end. An observer in front of `p` is shown just the texts of the tries. Where `many p`
succeeds `many1 p` does the same, except that it fails if there is no value; which values there are
plays no part. -/
theorem ends_many_iff_tries (p : Parser ω ε α) (s : Text) :
    (∀ t vs r, ((many p).run s).Ends t (.ok (.success vs r)) ↔
      ∃ ts, Tries p s ts vs r (.ok .failure) ∧ ts.length = vs.length + 1 ∧
        t = ts.flatMap Prod.snd) ∧
    (∀ t e, ((many p).run s).Ends t (.error e) ↔
      ∃ ts vs r, Tries p s ts vs r (.error e) ∧ t = ts.flatMap Prod.snd) ∧
    (∀ t, ¬((many p).run s).Ends t (.ok .failure)) ∧
    (((many p).run s).Returns ↔
      ∃ ts vs r, Tries p s ts vs r (.ok .failure) ∨ ∃ e, Tries p s ts vs r (.error e)) ∧
    (∀ (shown : Text → ω) t vs r,
      ((many (logInput (fun u => Run.emit (shown u)) p)).run s).Ends t (.ok (.success vs r)) ↔
        ∃ ts, Tries p s ts vs r (.ok .failure) ∧ t = ts.flatMap fun a => shown a.1 :: a.2) ∧
    (∀ t o, ((many1 p).run s).Ends t (.ok o) ↔
      ∃ vs r, ((many p).run s).Ends t (.ok (.success vs r)) ∧
        o = if vs.isEmpty then .failure else .success vs r) ∧
    ∀ t e, ((many1 p).run s).Ends t (.error e) ↔ ((many p).run s).Ends t (.error e) := by
  refine ⟨fun t vs r => ?_, fun t e => ends_many_error_iff, fun t => not_ends_many_failure, ?_,
    fun shown t vs r => ?_, fun t o => ?_, fun t e => ?_⟩
  · rw [ends_many_success_iff]
    constructor
    · rintro ⟨ts, h, ht⟩
      exact ⟨ts, h, h.length, ht⟩
    · rintro ⟨ts, h, -, ht⟩
      exact ⟨ts, h, ht⟩
  · constructor
    · rintro ⟨t, x, h⟩
      rcases stops_iff_tries.1 (ends_many_iff.1 h) with ⟨ts, vs, r, -, ⟨h, -⟩ | ⟨e, h, -⟩⟩
      · exact ⟨ts, vs, r, .inl h⟩
      · exact ⟨ts, vs, r, .inr ⟨e, h⟩⟩
    · rintro ⟨ts, vs, r, h | ⟨e, h⟩⟩
      · exact ⟨_, _, ends_many_success_iff.2 ⟨ts, h, rfl⟩⟩
      · exact ⟨_, _, ends_many_error_iff.2 ⟨ts, vs, r, h, rfl⟩⟩
  · rw [ends_many_success_iff]
    constructor
    · rintro ⟨_, h, rfl⟩
      obtain ⟨us, hus, rfl⟩ := tries_logInput_iff.1 h
      exact ⟨us, hus, by rw [List.flatMap_map]⟩
    · rintro ⟨us, h, rfl⟩
      exact ⟨_, tries_logInput_iff.2 ⟨us, h, rfl⟩, by rw [List.flatMap_map]⟩
  · rw [many1_run, Run.ends_bind_pure]
    constructor
    · rintro ⟨y, h, hy⟩
      match y, h, hy with
      | .ok .failure, h, _ => exact absurd h not_ends_many_failure
      | .ok (.success [] r), h, hy => exact ⟨[], r, h, Except.ok.inj hy⟩
      | .ok (.success (v :: vs) r), h, hy => exact ⟨v :: vs, r, h, Except.ok.inj hy⟩
    · rintro ⟨vs, r, h, rfl⟩
      refine ⟨_, h, ?_⟩
      cases vs <;> rfl
  · rw [many1_run, Run.ends_bind_pure]
    constructor
    · rintro ⟨y, h, hy⟩
      cases y <;> cases hy
      exact h
    · exact fun h => ⟨.error e, h, rfl⟩

end Descent.Parser
