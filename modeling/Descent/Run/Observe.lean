import Descent.Run.Ends

/-!
# Observing a run

A run may go on for ever, so a watcher stops it before it leaves too many marks of a kind. The
watcher takes the marks one at a time and never asks for what follows the one it stops at.

* `Progress.watch counts k seen p`: what the watcher has to say of a view, if anything: that the
  limit was met, or how the run ended.
* `watch_of_le`: once the watcher has spoken, later views change nothing, so an observation belongs
  to the run and not to the budget.
* `observed_ended_iff`, `observed_overLimit_iff`: what is observed of a run, in terms of what it
  does.
* `Run.observe`: the observation, looked for in larger and larger budgets.
-/

namespace Descent

variable {ω ε α : Type}

/-- How a watched run came out. -/
inductive Verdict (ε α : Type) where
  /-- It ended by itself. -/
  | ended (x : Except ε α)
  /-- It was stopped before a mark that was one too many. -/
  | overLimit

/-- What a watcher saw: the marks and how the run came out. -/
structure Observation (ω ε α : Type) where
  trace : List ω
  verdict : Verdict ε α

namespace Progress

/-- **Watches a view:** `k` counted marks are still allowed, and `seen` are the marks before, latest
first. Nothing can be said where the view stops within the limit. -/
def watch (counts : ω → Bool) : Nat → List ω → Progress ω ε α → Option (Observation ω ε α)
  | _, _, going => none
  | _, seen, value a => some ⟨seen.reverse, .ended (.ok a)⟩
  | _, seen, error e => some ⟨seen.reverse, .ended (.error e)⟩
  | k, seen, mark m rest =>
    match counts m, k with
    | false, k => (rest ()).watch counts k (m :: seen)
    | true, 0 => some ⟨seen.reverse, .overLimit⟩
    | true, k + 1 => (rest ()).watch counts k (m :: seen)

variable {counts : ω → Bool} {k : Nat} {seen u : List ω}

theorem watch_mark_other {m : ω} {rest : Unit → Progress ω ε α} (hm : counts m = false) :
    (mark m rest).watch counts k seen = (rest ()).watch counts k (m :: seen) := by
  simp [watch, hm]

theorem watch_mark_last {m : ω} {rest : Unit → Progress ω ε α} (hm : counts m = true) :
    (mark m rest).watch counts 0 seen = some ⟨seen.reverse, .overLimit⟩ := by
  simp [watch, hm]

theorem watch_mark_counted {m : ω} {rest : Unit → Progress ω ε α} (hm : counts m = true) :
    (mark m rest).watch counts (k + 1) seen = (rest ()).watch counts k (m :: seen) := by
  simp [watch, hm]

/-- The watcher sees an ending that has not too many counted marks before it. -/
theorem watch_eq_ended_iff {p : Progress ω ε α} {x : Except ε α} :
    p.watch counts k seen = some ⟨u, .ended x⟩ ↔
      ∃ t, p = ended t x ∧ t.countP counts ≤ k ∧ u = seen.reverse ++ t := by
  have at_end {k : Nat} {seen : List ω} {y : Except ε α} :
      some (⟨seen.reverse, .ended y⟩ : Observation ω ε α) = some ⟨u, .ended x⟩ ↔
        ∃ t, ended [] y = ended t x ∧ t.countP counts ≤ k ∧ u = seen.reverse ++ t := by
    constructor
    · intro h
      cases h
      exact ⟨[], rfl, Nat.zero_le k, (List.append_nil _).symm⟩
    · rintro ⟨t, h, -, rfl⟩
      obtain ⟨rfl, rfl⟩ := ended_inj h
      rw [List.append_nil]
  induction p generalizing k seen with
  | going => exact ⟨fun h => (by cases h), fun ⟨_, h, _⟩ => absurd h (stalled_ne_ended (t := []))⟩
  | value a => exact at_end
  | error e => exact at_end
  | mark m rest ih =>
    have after {k' : Nat} (hk : ∀ t, List.countP counts t ≤ k' ↔ (m :: t).countP counts ≤ k) :
        (rest ()).watch counts k' (m :: seen) = some ⟨u, .ended x⟩ ↔
          ∃ t, mark m rest = ended t x ∧ t.countP counts ≤ k ∧ u = seen.reverse ++ t := by
      refine (ih ()).trans ⟨?_, ?_⟩
      · rintro ⟨t, h, ht, rfl⟩
        exact ⟨m :: t, mark_eq_ended.2 ⟨t, h, rfl⟩, (hk t).1 ht, by simp⟩
      · rintro ⟨_, h, ht, rfl⟩
        obtain ⟨t, hr, rfl⟩ := mark_eq_ended.1 h
        exact ⟨t, hr, (hk t).2 ht, by simp⟩
    by_cases hm : counts m = true
    · cases k with
      | zero =>
        rw [watch_mark_last hm]
        refine ⟨fun h => (by cases h), ?_⟩
        rintro ⟨_, h, ht, -⟩
        obtain ⟨t, -, rfl⟩ := mark_eq_ended.1 h
        rw [List.countP_cons_of_pos hm] at ht
        omega
      | succ k =>
        rw [watch_mark_counted hm]
        exact after fun t => by rw [List.countP_cons_of_pos hm, Nat.add_le_add_iff_right]
    · rw [watch_mark_other (Bool.eq_false_iff.2 hm)]
      exact after fun t => by rw [List.countP_cons_of_neg hm]

/-- The watcher stops before a counted mark when there are as many before it as are allowed. -/
theorem watch_eq_overLimit_iff {p : Progress ω ε α} :
    p.watch counts k seen = some ⟨u, .overLimit⟩ ↔
      ∃ t m, t ++ [m] <+: p.trace ∧ counts m ∧ t.countP counts = k ∧ u = seen.reverse ++ t := by
  have at_end {k : Nat} {seen : List ω} {y : Except ε α} :
      some (⟨seen.reverse, .ended y⟩ : Observation ω ε α) = some ⟨u, .overLimit⟩ ↔
        ∃ t m, t ++ [m] <+: ([] : List ω) ∧ counts m ∧ t.countP counts = k ∧
          u = seen.reverse ++ t := by
    refine ⟨fun h => (by cases h), ?_⟩
    rintro ⟨t, m, h, -⟩
    simp at h
  induction p generalizing k seen with
  | going =>
    refine ⟨fun h => (by cases h), ?_⟩
    rintro ⟨t, m, h, -⟩
    simp [trace] at h
  | value a => exact at_end
  | error e => exact at_end
  | mark m rest ih =>
    have after {k' : Nat} (hk : ∀ t, List.countP counts t = k' ↔ (m :: t).countP counts = k)
        (hm : counts m → k ≠ 0) :
        (rest ()).watch counts k' (m :: seen) = some ⟨u, .overLimit⟩ ↔
          ∃ t m', t ++ [m'] <+: (mark m rest).trace ∧ counts m' ∧ t.countP counts = k ∧
            u = seen.reverse ++ t := by
      refine (ih ()).trans ⟨?_, ?_⟩
      · rintro ⟨t, m', h, hm', ht, rfl⟩
        exact ⟨m :: t, m', List.cons_prefix_cons.2 ⟨rfl, h⟩, hm', (hk t).1 ht, by simp⟩
      · rintro ⟨t, m', h, hm', ht, rfl⟩
        cases t with
        | nil =>
          obtain ⟨rfl, -⟩ := List.cons_prefix_cons.1 h
          exact absurd ht.symm (hm hm')
        | cons m₀ t =>
          obtain ⟨rfl, hr⟩ := List.cons_prefix_cons.1 h
          exact ⟨t, m', hr, hm', (hk t).2 ht, by simp⟩
    by_cases hm : counts m = true
    · cases k with
      | zero =>
        rw [watch_mark_last hm]
        constructor
        · intro h
          cases h
          exact ⟨[], m, List.cons_prefix_cons.2 ⟨rfl, List.nil_prefix⟩, hm, rfl,
            (List.append_nil _).symm⟩
        · rintro ⟨t, m', h, -, ht, rfl⟩
          cases t with
          | nil => rw [List.append_nil]
          | cons m₀ t =>
            obtain ⟨rfl, -⟩ := List.cons_prefix_cons.1 h
            rw [List.countP_cons_of_pos hm] at ht
            omega
      | succ k =>
        rw [watch_mark_counted hm]
        refine after (fun t => ?_) fun _ => Nat.succ_ne_zero k
        rw [List.countP_cons_of_pos hm, Nat.add_right_cancel_iff]
    · rw [watch_mark_other (Bool.eq_false_iff.2 hm)]
      refine after (fun t => ?_) fun h => absurd h hm
      rw [List.countP_cons_of_neg hm]

/-- **An observation is final.** -/
theorem watch_of_le {p q : Progress ω ε α} (h : p ≤ q) {o : Observation ω ε α}
    (ho : p.watch counts k seen = some o) : q.watch counts k seen = some o := by
  match o with
  | ⟨u, .ended x⟩ =>
    obtain ⟨t, rfl, ht⟩ := watch_eq_ended_iff.1 ho
    exact watch_eq_ended_iff.2 ⟨t, ended_le h, ht⟩
  | ⟨u, .overLimit⟩ =>
    obtain ⟨t, m, hp, ht⟩ := watch_eq_overLimit_iff.1 ho
    exact watch_eq_overLimit_iff.2 ⟨t, m, hp.trans h.trace, ht⟩

end Progress

namespace Run

/-- The watcher comes to say this of the run. -/
def Observed (counts : ω → Bool) (limit : Nat) (r : Run ω ε α) (o : Observation ω ε α) : Prop :=
  ∃ n, (r.upTo n).watch counts limit [] = some o

/-- The budgets in which an observation is looked for, each eight times the one before. -/
def budgets : List Nat := [1024, 8192, 65536, 524288, 4194304]

/-- **Watches a run** until it ends or meets the limit; `none` if it does neither within the
largest budget. -/
def observe (counts : ω → Bool) (limit : Nat) (r : Run ω ε α) : Option (Observation ω ε α) :=
  budgets.findSome? fun n => (r.upTo n).watch counts limit []

variable {counts : ω → Bool} {limit : Nat} {r : Run ω ε α} {o o' : Observation ω ε α}

theorem Observed.unique (h : r.Observed counts limit o) (k : r.Observed counts limit o') :
    o = o' := by
  obtain ⟨m, h⟩ := h
  obtain ⟨n, k⟩ := k
  have h' := Progress.watch_of_le (r.mono_le (Nat.le_max_left m n)) h
  have k' := Progress.watch_of_le (r.mono_le (Nat.le_max_right m n)) k
  exact Option.some.inj (h'.symm.trans k')

theorem observed_of_observe (h : r.observe counts limit = some o) :
    r.Observed counts limit o := by
  obtain ⟨n, -, h⟩ := List.exists_of_findSome?_eq_some h
  exact ⟨n, h⟩

/-- **An ending is observed** when it is the run's and comes within the limit. -/
theorem observed_ended_iff {t : List ω} {x : Except ε α} :
    r.Observed counts limit ⟨t, .ended x⟩ ↔ r.Ends t x ∧ t.countP counts ≤ limit := by
  constructor
  · rintro ⟨n, h⟩
    obtain ⟨_, hn, ht, rfl⟩ := Progress.watch_eq_ended_iff.1 h
    exact ⟨⟨n, hn⟩, ht⟩
  · rintro ⟨⟨n, hn⟩, ht⟩
    exact ⟨n, Progress.watch_eq_ended_iff.2 ⟨t, hn, ht, rfl⟩⟩

/-- **The limit is met** when there are as many counted marks as allowed and one more follows. -/
theorem observed_overLimit_iff {t : List ω} :
    r.Observed counts limit ⟨t, .overLimit⟩ ↔
      t.countP counts = limit ∧ ∃ m, counts m ∧ r.Leaves (t ++ [m]) := by
  constructor
  · rintro ⟨n, h⟩
    obtain ⟨_, m, hn, hm, ht, rfl⟩ := Progress.watch_eq_overLimit_iff.1 h
    exact ⟨ht, m, hm, n, hn⟩
  · rintro ⟨ht, m, hm, n, hn⟩
    exact ⟨n, Progress.watch_eq_overLimit_iff.2 ⟨t, m, hn, hm, ht, rfl⟩⟩

end Run

end Descent
