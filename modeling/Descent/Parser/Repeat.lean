import Descent.Parser.Choice

/-!
# Repetition

`many p` runs `p` for as long as it succeeds, and gives the values in order and the text that the
last success left. It never fails, it takes all it can, and it does not end if `p` keeps succeeding
without consuming. `many1 p` is the same, except that no value at all is a failure.

* `many_agrees`: one try of `p`, and after a success the same again.
* `Rounds p s t vs r`: a chain of successes of `p` from `s` to `r`.
* `ends_many_iff`: a repetition ends after such a chain, when `p` fails or raises an error.
-/

namespace Descent.Parser

variable {ω ε α : Type}

/-- One try of `p`: the value joins those gathered so far, latest first, or the loop is over. -/
def round (p : Parser ω ε α) (st : List α × Text) :
    Run ω ε ((List α × Text) ⊕ Outcome (List α)) :=
  p.run st.2 >>= fun
    | .success a rest => pure (.inl (a :: st.1, rest))
    | .failure => pure (.inr (.success st.1.reverse st.2))

/-- Zero or more times `p`, as often as it succeeds. -/
def many (p : Parser ω ε α) : Parser ω ε (List α) := ⟨fun s => Run.loop (round p) ([], s)⟩

/-- One or more times `p`, as often as it succeeds. -/
def many1 (p : Parser ω ε α) : Parser ω ε (List α) :=
  ⟨fun s => (many p).run s >>= fun
    | .success [] _ => pure .failure
    | o => pure o⟩

theorem round_run (p : Parser ω ε α) (vs : List α) (s : Text) :
    round p (vs, s) = p.run s >>= fun
      | .success a rest => pure (.inl (a :: vs, rest))
      | .failure => pure (.inr (.success vs.reverse s)) := rfl

theorem loopUpTo_round (p : Parser ω ε α) (n k : Nat) (vs : List α) (s : Text) :
    Run.loopUpTo (round p) n (k + 1) (vs, s) = ((p.run s).upTo n).andThen fun
      | .success a rest => Run.loopUpTo (round p) n k (a :: vs, rest)
      | .failure => .done [] (.success vs.reverse s) := by
  rw [Run.loopUpTo_succ, round_run, Run.bind_upTo, Progress.andThen_andThen]
  congr 1
  funext o
  cases o <;> exact Progress.done_andThen ..

/-- The values gathered before a round stand in front of those gathered from it on. -/
theorem loopUpTo_gathered (p : Parser ω ε α) (n k : Nat) (vs ws : List α) (s : Text) :
    Run.loopUpTo (round p) n k (ws ++ vs, s) = (Run.loopUpTo (round p) n k (ws, s)).andThen
      fun o => .done [] (o.map (vs.reverse ++ ·)) := by
  induction k generalizing ws s with
  | zero => rfl
  | succ k ih =>
    rw [loopUpTo_round, loopUpTo_round, Progress.andThen_andThen]
    congr 1
    funext o
    cases o with
    | success a rest => exact ih (a :: ws) rest
    | failure => simp

/-- **Repetition by recursion:** one try of `p`, and after a success the same again. -/
theorem many_agrees (p : Parser ω ε α) (s : Text) :
    ((many p).run s).Agrees (p.run s >>= fun
      | .success a rest => (many p).run rest >>= fun o => pure (o.map (a :: ·))
      | .failure => pure (.success [] s)) := by
  refine (Run.loop_agrees (round p) ([], s)).trans (.of_eq ?_)
  rw [round_run, bind_assoc]
  refine congrArg (p.run s >>= ·) (funext fun o => ?_)
  cases o with
  | failure => exact pure_bind ..
  | success a rest =>
    rw [pure_bind]
    refine Run.ext_upTo fun n => ?_
    rw [Run.loop_upTo, Run.bind_upTo]
    exact loopUpTo_gathered p n n [a] [] rest

/-- From `s`, the parser succeeds again and again with the values `vs`, leaves the marks `t` and
comes to the text `r`. -/
inductive Rounds (p : Parser ω ε α) : Text → List ω → List α → Text → Prop
  | nil (s : Text) : Rounds p s [] [] s
  | cons {s s' r : Text} {t u : List ω} {v : α} {vs : List α}
      (h : (p.run s).Ends t (.ok (.success v s'))) (hs : Rounds p s' u vs r) :
      Rounds p s (t ++ u) (v :: vs) r

/-- A chain of successes and then one ending that is none: how a repetition ends. -/
inductive Stops (p : Parser ω ε α) : Text → List ω → Except ε (Outcome (List α)) → Prop
  | failure {s r : Text} {t u : List ω} {vs : List α} (h : Rounds p s t vs r)
      (k : (p.run r).Ends u (.ok .failure)) : Stops p s (t ++ u) (.ok (.success vs r))
  | error {s r : Text} {t u : List ω} {vs : List α} {e : ε} (h : Rounds p s t vs r)
      (k : (p.run r).Ends u (.error e)) : Stops p s (t ++ u) (.error e)

theorem Stops.cons {p : Parser ω ε α} {s s' : Text} {t u : List ω} {v : α}
    {x : Except ε (Outcome (List α))} (h : (p.run s).Ends t (.ok (.success v s')))
    (k : Stops p s' u x) : Stops p s (t ++ u) (x.map (·.map (v :: ·))) := by
  cases k with
  | failure hs k => exact List.append_assoc .. ▸ .failure (.cons h hs) k
  | error hs k => exact List.append_assoc .. ▸ .error (.cons h hs) k

theorem ends_many_cons {p : Parser ω ε α} {s s' : Text} {t u : List ω} {v : α}
    {x : Except ε (Outcome (List α))} (h : (p.run s).Ends t (.ok (.success v s')))
    (k : ((many p).run s').Ends u x) :
    ((many p).run s).Ends (t ++ u) (x.map (·.map (v :: ·))) := by
  refine (many_agrees p s).ends_iff.2 (Run.ends_bind.2 (.inr ⟨_, t, u, h, ?_, rfl⟩))
  cases x with
  | error e => exact Run.ends_bind.2 (.inl ⟨e, k, rfl⟩)
  | ok o => exact Run.ends_bind_ok.2 ⟨o, u, [], k, Run.ends_pure.2 ⟨rfl, rfl⟩, by simp⟩

/-- After a chain of successes the repetition goes on from where they end, and what it gives then
follows on their values. -/
theorem ends_many_of_rounds {p : Parser ω ε α} {s r : Text} {t u : List ω} {vs : List α}
    {x : Except ε (Outcome (List α))} (h : Rounds p s t vs r) (k : ((many p).run r).Ends u x) :
    ((many p).run s).Ends (t ++ u) (x.map (·.map (vs ++ ·))) := by
  induction h with
  | nil s =>
    cases x with
    | error e => exact k
    | ok o => cases o <;> exact k
  | cons h _ ih =>
    have := ends_many_cons h (ih k)
    rw [← List.append_assoc] at this
    cases x with
    | error e => exact this
    | ok o => cases o <;> exact this

/-- The rounds of a loop that ends are a chain of successes and then what stops the repetition. -/
theorem stops_of_loopUpTo {p : Parser ω ε α} {n k : Nat} {s : Text} {t : List ω}
    {x : Except ε (Outcome (List α))}
    (h : Run.loopUpTo (round p) n k ([], s) = .ended t x) : Stops p s t x := by
  induction k generalizing s t x with
  | zero => exact absurd h (Progress.stalled_ne_ended (t := []))
  | succ k ih =>
    rw [loopUpTo_round] at h
    generalize hp : (p.run s).upTo n = q at h
    cases q using Progress.cases_ending with
    | hn u =>
      rw [Progress.stalled_andThen] at h
      exact absurd h Progress.stalled_ne_ended
    | hr u e =>
      rw [Progress.raised_andThen] at h
      obtain ⟨rfl, rfl⟩ := Progress.ended_inj h
      exact .error (.nil s) ⟨n, hp⟩
    | hd u o =>
      rw [Progress.done_andThen] at h
      cases o with
      | failure =>
        simp only [Progress.prepend_done] at h
        obtain ⟨rfl, rfl⟩ := Progress.ended_inj h
        rw [List.append_nil]
        exact .failure (.nil s) ⟨n, hp⟩
      | success a rest =>
        have hg := loopUpTo_gathered p n k [a] [] rest
        generalize hq : Run.loopUpTo (round p) n k ([], rest) = q at hg
        rw [List.nil_append] at hg
        simp only [hg] at h
        have hs : (p.run s).Ends u (.ok (.success a rest)) := ⟨n, hp⟩
        cases q using Progress.cases_ending with
        | hn v =>
          rw [Progress.stalled_andThen, Progress.prepend_stalled] at h
          exact absurd h Progress.stalled_ne_ended
        | hr v e =>
          rw [Progress.raised_andThen, Progress.prepend_raised] at h
          obtain ⟨rfl, rfl⟩ := Progress.ended_inj h
          exact Stops.cons hs (ih hq)
        | hd v o =>
          rw [Progress.done_andThen, Progress.prepend_done, Progress.prepend_done,
            List.append_nil] at h
          obtain ⟨rfl, rfl⟩ := Progress.ended_inj h
          exact Stops.cons hs (ih hq)

/-- **How a repetition ends:** after a chain of successes, with a failure of `p`, which ends the
repetition, or with an error, which ends everything. -/
theorem ends_many_iff {p : Parser ω ε α} {s : Text} {t : List ω}
    {x : Except ε (Outcome (List α))} : ((many p).run s).Ends t x ↔ Stops p s t x := by
  constructor
  · rintro ⟨n, h⟩
    exact stops_of_loopUpTo h
  · intro h
    cases h with
    | @failure r t u vs hs k =>
      have hr : ((many p).run r).Ends u (.ok (.success [] r)) := by
        refine (many_agrees p r).ends_iff.2 (Run.ends_bind_ok.2 ⟨_, u, [], k, ?_, by simp⟩)
        exact Run.ends_pure.2 ⟨rfl, rfl⟩
      simpa [Except.map] using ends_many_of_rounds hs hr
    | error hs k =>
      refine ends_many_of_rounds hs (x := .error _) ?_
      exact (many_agrees p _).ends_iff.2 (Run.ends_bind.2 (.inl ⟨_, k, rfl⟩))

end Descent.Parser
