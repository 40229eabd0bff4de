import Mathlib.Data.Stream.Init
import Descent.Proofs.Commitment
import Descent.Proofs.Repetition
import Descent.Script.Session

/-!
# Repetition at a standstill

Where the body of a repetition succeeds and leaves the text as it was, the next try is the same try
again, and so on for ever. All that can be seen of such a repetition is what the tries leave, and a
watcher stops it at the limit.

* `r.Reaches t q`: the run leaves the marks `t` and then does what `q` does.
* `observed_cycle`: **what is seen of a run that leaves the same marks over and over.**
* `p.StandsStill s us w`: from `s` on, the successes of `p` leave the marks `us` and lead to a text
  on which `p` succeeds without consuming, with the marks `w`.
* `StandsStill.not_returns`, `StandsStill.leaves_many`: at a standstill a repetition does not
  return, and the marks `w` come again and again.
* `many_hasNoOutcome`, `ends_many_many_iff`: repetitions of what never fails.
* `standstill_repeats`: **the results together.**
-/

namespace Descent

variable {ω ε α β χ : Type}

/-! ## Marks over and over -/

/-- As many copies of a list as one likes stand at the head of its endless repetition. -/
theorem cycle_eq_replicate {w : List χ} (hw : w ≠ []) (n : Nat) :
    Stream'.cycle w hw = (List.replicate n w).flatten ++ₛ Stream'.cycle w hw := by
  induction n with
  | zero => rfl
  | succ n ih =>
    rw [List.replicate_succ, List.flatten_cons, Stream'.append_append_stream, ← ih]
    exact Stream'.cycle_eq w hw

theorem le_length_append_copies (t : List χ) {w : List χ} (hw : w ≠ []) (n : Nat) :
    n ≤ (t ++ (List.replicate n w).flatten).length := by
  have hpos : 0 < w.length := List.length_pos_iff.2 hw
  have hcopies : n * 1 ≤ n * w.length := Nat.mul_le_mul_left n hpos
  rw [List.length_append, List.length_flatten, List.map_replicate, List.sum_replicate_nat]
  omega

theorem take_append_cycle (t : List χ) {w : List χ} (hw : w ≠ []) {k n : Nat} (hk : k ≤ n) :
    (t ++ₛ Stream'.cycle w hw).take k = (t ++ (List.replicate n w).flatten).take k := by
  have hlen := Nat.le_trans hk (le_length_append_copies t hw n)
  rw [cycle_eq_replicate hw n, ← Stream'.append_append_stream,
    Stream'.take_append_of_le_length _ _ _ hlen]

/-- A list with more than `k` counted members begins with `k` of them and one more. -/
theorem exists_prefix_of_lt_countP {counts : ω → Bool} {k : Nat} {t : List ω}
    (h : k < t.countP counts) :
    ∃ u m, u ++ [m] <+: t ∧ counts m = true ∧ u.countP counts = k := by
  induction t generalizing k with
  | nil => cases h
  | cons m t ih =>
    by_cases hm : counts m = true
    · rw [List.countP_cons_of_pos hm] at h
      cases k with
      | zero => exact ⟨[], m, List.cons_prefix_cons.2 ⟨rfl, List.nil_prefix⟩, hm, rfl⟩
      | succ k =>
        obtain ⟨u, m', hu, hm', hk⟩ := ih (Nat.lt_of_succ_lt_succ h)
        refine ⟨m :: u, m', List.cons_prefix_cons.2 ⟨rfl, hu⟩, hm', ?_⟩
        rw [List.countP_cons_of_pos hm, hk]
    · rw [List.countP_cons_of_neg hm] at h
      obtain ⟨u, m', hu, hm', hk⟩ := ih h
      refine ⟨m :: u, m', List.cons_prefix_cons.2 ⟨rfl, hu⟩, hm', ?_⟩
      rw [List.countP_cons_of_neg hm, hk]

namespace Run

theorem Leaves.mono {r : Run ω ε α} {t u : List ω} (h : r.Leaves t) (hu : u <+: t) :
    r.Leaves u := by
  obtain ⟨n, hn⟩ := h
  exact ⟨n, hu.trans hn⟩

theorem Leaves.bind {r : Run ω ε α} {t : List ω} (h : r.Leaves t) (f : α → Run ω ε β) :
    (r >>= f).Leaves t := by
  obtain ⟨n, hn⟩ := h
  exact ⟨n, hn.trans (Progress.trace_le_andThen _ _)⟩

/-- When the first part of a sequence has ended, the marks of the second come behind. -/
theorem Ends.leaves_bind {r : Run ω ε α} {f : α → Run ω ε β} {t u : List ω} {a : α}
    (h : r.Ends t (.ok a)) (k : (f a).Leaves u) : (r >>= f).Leaves (t ++ u) := by
  obtain ⟨m, hm⟩ := h
  obtain ⟨n, hn⟩ := k
  refine ⟨max m n, ?_⟩
  have hlater : u <+: ((f a).upTo (max m n)).trace :=
    hn.trans ((f a).mono_le (Nat.le_max_right m n)).trace
  have hview : (r >>= f).upTo (max m n) = Progress.prepend t ((f a).upTo (max m n)) := by
    rw [bind_upTo, upTo_of_ends hm (Nat.le_max_left m n)]
    exact Progress.done_andThen t a _
  rw [hview, Progress.trace_prepend]
  exact (List.prefix_append_right_inj t).2 hlater

/-- **The run comes to a point where it does what `q` does,** and the marks before are `t`. -/
def Reaches (r : Run ω ε α) (t : List ω) (q : Run ω ε β) : Prop :=
  ∃ k : β → Run ω ε α, r.Agrees (forM t emit >>= fun _ => q >>= k)

theorem Reaches.leaves {r : Run ω ε α} {q : Run ω ε β} {t u : List ω} (h : r.Reaches t q)
    (hq : q.Leaves u) : r.Leaves (t ++ u) := by
  obtain ⟨k, hr⟩ := h
  exact hr.leaves_iff.2 ((ends_forM_emit.2 ⟨rfl, rfl⟩).leaves_bind (hq.bind k))

/-- **What is seen of a run that leaves the same marks over and over.** The watcher stops it at the
limit, and what it has counted is the beginning of an endless repetition. -/
theorem observed_cycle {g : ω → Option χ} {r : Run ω ε α} {t w : List ω} (limit : Nat)
    (h : ∀ n, r.Leaves (t ++ (List.replicate n w).flatten)) (hw : w.filterMap g ≠ []) :
    ∃ u, r.Observed (fun m => (g m).isSome) limit ⟨u, .overLimit⟩ ∧
      u.filterMap g = (t.filterMap g ++ₛ Stream'.cycle (w.filterMap g) hw).take limit := by
  have hcount (v : List ω) : v.countP (fun m => (g m).isSome) = (v.filterMap g).length :=
    List.length_filterMap_eq_countP.symm
  -- one copy more than the limit is enough for the watcher to meet it
  have hseen : (t ++ (List.replicate (limit + 1) w).flatten).filterMap g =
      t.filterMap g ++ (List.replicate (limit + 1) (w.filterMap g)).flatten := by
    rw [List.filterMap_append, List.filterMap_flatten, List.map_replicate]
  have hmany : limit < (t ++ (List.replicate (limit + 1) w).flatten).countP
      fun m => (g m).isSome := by
    rw [hcount, hseen]
    exact le_length_append_copies (t.filterMap g) hw (limit + 1)
  obtain ⟨u, m, hu, hm, hlimit⟩ := exists_prefix_of_lt_countP hmany
  refine ⟨u, observed_overLimit_iff.2 ⟨hlimit, m, hm, (h (limit + 1)).mono hu⟩, ?_⟩
  have hlen : (u.filterMap g).length = limit := (hcount u).symm.trans hlimit
  have hhead := ((List.prefix_append u [m]).trans hu).filterMap g
  rw [hseen, List.prefix_iff_eq_take, hlen] at hhead
  rw [take_append_cycle _ hw (Nat.le_succ limit)]
  exact hhead

end Run

namespace Parser

variable {p : Parser ω ε α} {s t r : Text} {us u w : List ω} {v : α} {vs ws : List α}

/-! ## Rounds that lead nowhere -/

theorem Rounds.append (h : Rounds p s us vs t) (k : Rounds p t u ws r) :
    Rounds p s (us ++ u) (vs ++ ws) r := by
  induction h with
  | nil s => exact k
  | cons h _ ih =>
    rw [List.append_assoc]
    exact .cons h (ih k)

/-- A success that leaves the text as it was may come any number of times. -/
theorem rounds_replicate (h : (p.run t).Ends w (.ok (.success v t))) (n : Nat) :
    Rounds p t (List.replicate n w).flatten (List.replicate n v) t := by
  induction n with
  | zero => exact .nil t
  | succ n ih =>
    rw [List.replicate_succ, List.flatten_cons, List.replicate_succ]
    exact .cons h ih

/-- And nothing else comes after it. -/
theorem Rounds.eq_of_standstill (hr : Rounds p t u vs r)
    (h : (p.run t).Ends w (.ok (.success v t))) : r = t := by
  induction hr with
  | nil s => rfl
  | cons h' _ ih =>
    cases (h'.unique h).2
    exact ih h

/-- **A success that consumes nothing is repeated for ever,** wherever the repetition gets to it. -/
theorem not_returns_many (hr : Rounds p s us vs t) (h : (p.run t).Ends w (.ok (.success v t))) :
    ¬((many p).run s).Returns := by
  induction hr with
  | nil s =>
    rintro ⟨u, x, hx⟩
    cases ends_many_iff.1 hx with
    | failure hs hf =>
      cases hs.eq_of_standstill h
      cases (hf.unique h).2
    | error hs he =>
      cases hs.eq_of_standstill h
      cases (he.unique h).2
  | cons h' _ ih =>
    rintro ⟨u, x, hx⟩
    rcases Run.ends_bind.1 ((many_agrees p _).ends_iff.1 hx) with
      ⟨e, he, -⟩ | ⟨o, u₁, u₂, ho, hrest, -⟩
    · cases (he.unique h').2
    · cases (ho.unique h').2
      obtain ⟨y, hy, -⟩ := Run.ends_bind_pure.1 hrest
      exact ih h ⟨u₂, y, hy⟩

/-- The marks of the rounds are there, whether the repetition comes to an end or not. -/
theorem Rounds.leaves_many (h : Rounds p s us vs t) : ((many p).run s).Leaves us := by
  induction h with
  | nil s => exact ⟨0, List.nil_prefix⟩
  | @cons s s' r u₁ u₂ v vs h _ ih =>
    refine (many_agrees p s).leaves_iff.2 (h.leaves_bind ?_)
    exact Run.leaves_bind_pure.2 ih

theorem returns_many_of_many1 (h : ((many1 p).run s).Returns) : ((many p).run s).Returns := by
  obtain ⟨t, x, hx⟩ := h
  rw [many1_run] at hx
  obtain ⟨y, hy, -⟩ := Run.ends_bind_pure.1 hx
  exact ⟨t, y, hy⟩

/-- **From `s` the parser comes to a standstill:** its successes leave the marks `us` and lead to a
text on which it succeeds without consuming, with the marks `w`. -/
def StandsStill (p : Parser ω ε α) (s : Text) (us w : List ω) : Prop :=
  ∃ vs t v, Rounds p s us vs t ∧ (p.run t).Ends w (.ok (.success v t))

/-- **At a standstill a repetition leaves the same marks over and over.** -/
theorem StandsStill.leaves_many (h : p.StandsStill s us w) (n : Nat) :
    ((many p).run s).Leaves (us ++ (List.replicate n w).flatten) := by
  obtain ⟨vs, t, v, hr, hstill⟩ := h
  exact (hr.append (rounds_replicate hstill n)).leaves_many

/-- One or more times leaves what zero or more times does. -/
theorem StandsStill.leaves_many1 (h : p.StandsStill s us w) (n : Nat) :
    ((many1 p).run s).Leaves (us ++ (List.replicate n w).flatten) := by
  rw [many1_run]
  exact Run.leaves_bind_pure.2 (h.leaves_many n)

theorem StandsStill.not_returns (h : p.StandsStill s us w) :
    ¬((many p).run s).Returns ∧ ¬((many1 p).run s).Returns := by
  obtain ⟨vs, t, v, hr, hstill⟩ := h
  have hmany := not_returns_many hr hstill
  exact ⟨hmany, fun h => hmany (returns_many_of_many1 h)⟩

/-! ## Parsers that never fail -/

section

variable {t : List ω}

/-- There is no text on which the parser comes to an outcome. It raises an error or does not end. -/
def HasNoOutcome (p : Parser ω ε α) : Prop := ∀ s t o, ¬(p.run s).Ends t (.ok o)

/-- **A repetition of what never fails has no outcome.** -/
theorem many_hasNoOutcome (hp : p.NeverFails) : (many p).HasNoOutcome := by
  intro s t o h
  cases ends_many_iff.1 h with
  | failure _ hf => exact hp _ _ hf

theorem many1_hasNoOutcome (hp : p.NeverFails) : (many1 p).HasNoOutcome := by
  intro s t o h
  rw [many1_run] at h
  obtain ⟨o', ho', -⟩ := Run.ends_bind_pure_ok.1 h
  exact many_hasNoOutcome hp s t o' ho'

/-- **A repetition of a repetition** ends only where the inner one raises an error at once. If the
inner one comes to an end it has nothing more to consume, and this is a standstill. -/
theorem ends_many_many_iff {x : Except ε (Outcome (List (List α)))} :
    ((many (many p)).run s).Ends t x ↔ ∃ e, ((many p).run s).Ends t (.error e) ∧ x = .error e := by
  rw [ends_many_iff]
  constructor
  · intro h
    cases h with
    | failure _ hf => exact absurd hf not_ends_many_failure
    | @error r t u vss e hr he =>
      cases hr with
      | nil => exact ⟨e, he, rfl⟩
      | cons h hr =>
        obtain ⟨w, -, hstill⟩ := ends_many_again h
        cases hr.eq_of_standstill hstill
        cases (he.unique hstill).2
  · rintro ⟨e, he, rfl⟩
    exact .error (.nil s) he

/-- Where a repetition has ended it stands still. -/
theorem standsStill_many (h : ((many p).run s).Ends t (.ok (.success vs r))) :
    ∃ w, (many p).StandsStill s t w := by
  obtain ⟨w, -, hstill⟩ := ends_many_again h
  have hone : Rounds (many p) s (t ++ []) [vs] r := .cons h (.nil r)
  rw [List.append_nil] at hone
  exact ⟨w, [vs], r, [], hone, hstill⟩

theorem standsStill_of_success (h : (p.run s).Ends t (.ok (.success v s))) :
    p.StandsStill s [] t := ⟨[], s, v, .nil s, h⟩

end

end Parser

/-! ## Standstills in scripts -/

namespace Script

/-- What is recorded by a mark. -/
def Mark.event? : Mark → Option (Text × Value)
  | .event label x => some (label, x)
  | .printed _ => none

theorem events_eq (t : List Mark) : events t = t.filterMap Mark.event? := rfl

theorem isEvent_eq : Mark.isEvent = fun m => m.event?.isSome := by
  funext m
  cases m <;> rfl

variable {globals : Env} {r : Recipe Value} {s : Text} {us w : List Mark}

theorem leaves_parse_many (h : ((calls globals).parse r).StandsStill s us w) (n : Nat) :
    (((calls globals).parse (.many r)).run s).Leaves (us ++ (List.replicate n w).flatten) := by
  rw [((calls globals).parse_many_agrees r s).leaves_iff, Recipe.ofList, Parser.map_pure_run]
  exact Run.leaves_bind_pure.2 (h.leaves_many n)

theorem leaves_parse_many1 (h : ((calls globals).parse r).StandsStill s us w) (n : Nat) :
    (((calls globals).parse (.many1 r)).run s).Leaves (us ++ (List.replicate n w).flatten) := by
  rw [((calls globals).parse_many1_agrees r s).leaves_iff, Recipe.ofList, Parser.map_pure_run]
  exact Run.leaves_bind_pure.2 (h.leaves_many1 n)

/-- **What is seen of a step that comes to a standstill.** It is stopped at the limit, and it has
recorded what there was before, what led to the standstill, and then the same events again and
again. No other answer can come of it. -/
theorem observed_standstill {globals : Env} {term : Term} {before us w : List Mark}
    (h : ∀ n, (run globals term).Leaves (before ++ (us ++ (List.replicate n w).flatten)))
    (hw : events w ≠ []) :
    ∃ u, (run globals term).Observed Mark.isEvent eventLimit ⟨u, .overLimit⟩ ∧
      events u = ((events before ++ events us) ++ₛ Stream'.cycle (events w) hw).take eventLimit ∧
      ∀ a, answer globals term = some a → a = ⟨u, .overLimit⟩ := by
  have hleaves (n : Nat) : (run globals term).Leaves
      (before ++ us ++ (List.replicate n w).flatten) := by
    rw [List.append_assoc]
    exact h n
  obtain ⟨u, hu, hevents⟩ := Run.observed_cycle (g := Mark.event?) eventLimit hleaves hw
  rw [← isEvent_eq] at hu
  simp only [List.filterMap_append, ← events_eq] at hevents
  exact ⟨u, hu, hevents, fun a ha => (Run.observed_of_observe ha).unique hu⟩

end Script

namespace Parser

open Script (Term Env Mark events eventLimit calls answer)

/-- **A repetition at a standstill never returns, and shows as the limit.** If the successes of a
parser lead to a text on which it succeeds without consuming, then its repetitions neither come to
an outcome nor raise an error, and the marks of this last success come any number of times. A step
of a script that reaches such a repetition is stopped at the limit as soon as these marks have an
event among them. Its events are the first ones of an endless sequence: those recorded before, those
on the way to the standstill, and then those of the last success for ever. A repetition of a
repetition ends only where the inner one raises an error at once; where the inner one comes to an
end it stands still. A repetition of a parser that never fails has no outcome on any text. So it is
with repetitions, with `succeed` and `peek`, and with an observer alone; and the latter three stand
still. -/
theorem standstill_repeats :
    (∀ (p : Parser ω ε α) (s : Text) (us w : List ω), p.StandsStill s us w →
      ¬((many p).run s).Returns ∧ ¬((many1 p).run s).Returns ∧
      ∀ n, ((many p).run s).Leaves (us ++ (List.replicate n w).flatten) ∧
        ((many1 p).run s).Leaves (us ++ (List.replicate n w).flatten)) ∧
    (∀ (globals : Env) (r : Recipe Script.Value) (s : Text) (us w : List Mark) (term : Term)
      (before : List Mark), ((calls globals).parse r).StandsStill s us w →
      (Script.run globals term).Reaches before (((calls globals).parse (.many r)).run s) ∨
        (Script.run globals term).Reaches before (((calls globals).parse (.many1 r)).run s) →
      ∀ hw : events w ≠ [],
        ∃ u, (Script.run globals term).Observed Mark.isEvent eventLimit ⟨u, .overLimit⟩ ∧
          events u = ((events before ++ events us) ++ₛ Stream'.cycle (events w) hw).take
            eventLimit ∧
          ∀ a, answer globals term = some a → a = ⟨u, .overLimit⟩) ∧
    (∀ (q : Parser ω ε α) (s : Text) (t : List ω),
      (∀ x, ((many (many q)).run s).Ends t x ↔
        ∃ e, ((many q).run s).Ends t (.error e) ∧ x = .error e) ∧
      ∀ vs r, ((many q).run s).Ends t (.ok (.success vs r)) →
        ∃ w, (many q).StandsStill s t w) ∧
    (∀ p : Parser ω ε α, p.NeverFails → (many p).HasNoOutcome ∧ (many1 p).HasNoOutcome) ∧
    ((∀ q : Parser ω ε α, (many q).NeverFails) ∧ (∀ a : α, (succeed a : Parser ω ε α).NeverFails) ∧
      (peek : Parser ω ε Text).NeverFails ∧ ∀ o, (tap o : Parser ω ε Unit).NeverFails) ∧
    (∀ (a : α) (s : Text), (succeed a : Parser ω ε α).StandsStill s [] []) ∧
    (∀ s : Text, (peek : Parser ω ε Text).StandsStill s [] []) ∧
    ∀ (o : Text → Run ω ε Unit) (s : Text) (w : List ω), (o s).Ends w (.ok ()) →
      (tap o).StandsStill s [] w := by
  refine ⟨fun p s us w h => ?_, fun globals r s us w term before h hreach hw => ?_,
    fun q s t => ⟨fun x => ends_many_many_iff, fun vs r => standsStill_many⟩,
    fun p hp => ⟨many_hasNoOutcome hp, many1_hasNoOutcome hp⟩,
    ⟨neverFails_many, neverFails_succeed, neverFails_peek, neverFails_tap⟩, fun a s => ?_,
    fun s => ?_, fun o s w ho => ?_⟩
  · exact ⟨h.not_returns.1, h.not_returns.2, fun n => ⟨h.leaves_many n, h.leaves_many1 n⟩⟩
  · refine Script.observed_standstill (fun n => ?_) hw
    rcases hreach with hreach | hreach
    · exact hreach.leaves (Script.leaves_parse_many h n)
    · exact hreach.leaves (Script.leaves_parse_many1 h n)
  · exact standsStill_of_success (Run.ends_pure.2 ⟨rfl, rfl⟩)
  · exact standsStill_of_success (Run.ends_pure.2 ⟨rfl, rfl⟩)
  · exact standsStill_of_success (Run.ends_bind_pure_ok.2 ⟨(), ho, rfl⟩)

end Parser

namespace Script

/-- A letter, and where there is none, two observers. -/
def letterOrWatched : Recipe Value :=
  .orElse (.char 'a') (.ready (.keepRight (.tap (.recorder ['t'])) (.tap (.recorder ['u']))))

def watchedGlobals : Env := [("p", .parser (.many letterOrWatched))]

/-- An event, and then the parser again and again on a text with one letter. -/
def standing : Term :=
  .call (.data .last) [.call (.act .trace) [.text ['s'], .null],
    .call (.act .run) [.var "p", .text ['a', 'b']]]

theorem run_standing : run watchedGlobals standing = (Run.emit (.event ['s'] .null) >>= fun _ =>
    ((calls watchedGlobals).parse (.many letterOrWatched)).run ['a', 'b'] >>= fun o =>
      pure (.outcome o)) := by
  have hlift (x : Value) : (liftM (Except.ok x : Except Fault Value) : Run Mark Fault Value) =
      pure x := rfl
  have hlast (x y : Value) : DataOp.compute .last [x, y] = .ok y := rfl
  simp [run, standing, watchedGlobals, eval, evalAll, Op.perform, Action.perform, hlast, hlift]

/-- The letter is taken once, and from then on the two observers are shown the same text. -/
theorem letterOrWatched_standsStill :
    ((calls watchedGlobals).parse letterOrWatched).StandsStill ['a', 'b'] []
      [.event ['t'] (.text ['b']), .event ['u'] (.text ['b'])] := by
  have hletter : Parser.Rounds ((calls watchedGlobals).parse letterOrWatched) ['a', 'b'] []
      [.text ['a']] ['b'] := .cons (t := []) ⟨3, rfl⟩ (.nil ['b'])
  exact ⟨_, ['b'], .null, hletter, 3, rfl⟩

/-- Sixty events: the first one, and then those of the two observers in turn. On no text is there an
outcome of the repetition of the repetition. -/
theorem standstill_repeats_observers :
    let watched : List (Text × Value) := [(['t'], .text ['b']), (['u'], .text ['b'])]
    ¬((Parser.many ((calls watchedGlobals).parse letterOrWatched)).run ['a', 'b']).Returns ∧
    (Parser.many (Parser.many ((calls watchedGlobals).parse letterOrWatched))).HasNoOutcome ∧
    ∃ u, (run watchedGlobals standing).Observed Mark.isEvent eventLimit ⟨u, .overLimit⟩ ∧
      events u = ([(['s'], .null)] ++ₛ Stream'.cycle watched (List.cons_ne_nil _ _)).take 60 := by
  intro watched
  have hstill := letterOrWatched_standsStill
  have hreach : (run watchedGlobals standing).Reaches [.event ['s'] .null]
      (((calls watchedGlobals).parse (.many letterOrWatched)).run ['a', 'b']) := by
    refine ⟨fun o => pure (.outcome o), .of_eq ?_⟩
    rw [run_standing, List.forM_cons, List.forM_nil, bind_assoc]
    rfl
  obtain ⟨hreturns, hobserved, -, -, ⟨hnever, -⟩, -⟩ :=
    Parser.standstill_repeats (ω := Mark) (ε := Fault) (α := Value)
  obtain ⟨-, -, -, hrepetition, -⟩ :=
    Parser.standstill_repeats (ω := Mark) (ε := Fault) (α := List Value)
  obtain ⟨u, hu, hevents, -⟩ := hobserved _ _ _ _ _ _ _ hstill (.inl hreach) (List.cons_ne_nil _ _)
  exact ⟨(hreturns _ _ _ _ hstill).1, (hrepetition _ (hnever _)).1, u, hu, hevents⟩

end Script

end Descent
