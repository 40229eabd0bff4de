import Descent.Proofs.Commitment
import Descent.Proofs.Gives
import Descent.Proofs.Repetition
import Descent.Parser.Fix

/-!
# Repetition, unrolled

A repetition is a loop that gathers values. It may as well be said by recursion: a value and a
repetition after it, or no value.

* `oneAndThen p q`: a value of `p` in front of those of `q`.
* `many_eq_repeating`: **the loop is the recursion,** view by view.
* `many_unrolls`, `many1_unrolls`: a repetition and what it is one try later.
* `ends_many_watched_iff`: the texts shown to an observer, for every ending of a repetition.
* `repetition_unrolls`: **the results together.**
-/

namespace Descent.Parser

variable {ω ε α β : Type} {p : Parser ω ε α} {s : Text} {t : List ω}

/-- A value of `p`, and in front of the values of `q`. -/
def oneAndThen (p : Parser ω ε α) (q : Parser ω ε (List α)) : Parser ω ε (List α) :=
  p.bind fun x => pure (q.map fun xs => pure ([x] ++ xs))

/-- A value and then as many as `q` says, or no value. -/
def oneMoreOrNone (p : Parser ω ε α) (q : Parser ω ε (List α)) : Parser ω ε (List α) :=
  (oneAndThen p q).orElse (.ready (succeed []))

/-- What is done after the first try of `p`. -/
theorem oneAndThen_run (p : Parser ω ε α) (q : Parser ω ε (List α)) (s : Text) :
    (oneAndThen p q).run s = p.run s >>= fun
      | .success x rest => q.run rest >>= fun o => pure (o.map ([x] ++ ·))
      | .failure => pure .failure := by
  rw [oneAndThen, bind_run]
  refine congrArg (p.run s >>= ·) (funext fun o => ?_)
  cases o with
  | failure => rfl
  | success x rest => exact (pure_bind ..).trans (map_pure_run _ rest)

/-- The same of the choice, which falls back when the first try of `p` fails. It would fall back as
well if `q` failed on what a success of `p` has left. -/
theorem oneMoreOrNone_run (p : Parser ω ε α) (q : Parser ω ε (List α)) (s : Text) :
    (oneMoreOrNone p q).run s = p.run s >>= fun
      | .success x rest =>
        (q.run rest >>= fun o => pure (o.map ([x] ++ ·))) >>= otherwise (pure (.success [] s))
      | .failure => pure (.success [] s) := by
  rw [oneMoreOrNone, orElse_run_eq, oneAndThen_run, bind_assoc, lazily_ready, succeed_run]
  refine congrArg (p.run s >>= ·) (funext fun o => ?_)
  cases o with
  | failure => exact pure_bind ..
  | success x rest => rfl

/-! ## The loop and the recursion -/

theorem oneMoreOrNone_belowAt {n : Nat} {q q' : Parser ω ε (List α)} (h : BelowAt n q q') :
    BelowAt n (oneMoreOrNone p q) (oneMoreOrNone p q') :=
  orElse_belowAt (bind_belowAt belowAt_self fun _ => .pure (map_belowAt h fun _ =>
    Run.belowAt_self) n) (.pure belowAt_self n)

/-- The recursion has a single rule. -/
theorem oneMoreOrNone_monotonic (p : Parser ω ε α) :
    Monotonic fun (self : Unit → Parser ω ε (List α)) _ => oneMoreOrNone p (self ()) :=
  fun _ _ _ h _ => oneMoreOrNone_belowAt (h ())

/-- **Repetition by recursion.** -/
def repeating (p : Parser ω ε α) : Parser ω ε (List α) :=
  fix (fun self _ => oneMoreOrNone p (self ())) (oneMoreOrNone_monotonic p) ()

/-- What follows the rounds of a loop matters for successes only, since there is nothing else. -/
theorem loopUpTo_andThen_congr {k l : Outcome (List α) → Progress ω ε β}
    (h : ∀ vs r, k (.success vs r) = l (.success vs r)) (n m : Nat) (vs : List α) (s : Text) :
    (Run.loopUpTo (round p) n m (vs, s)).andThen k =
      (Run.loopUpTo (round p) n m (vs, s)).andThen l := by
  induction m generalizing vs s with
  | zero => rfl
  | succ m ih =>
    rw [loopUpTo_round, Progress.andThen_andThen, Progress.andThen_andThen]
    congr 1
    funext o
    cases o with
    | success a rest => exact ih (a :: vs) rest
    | failure => rw [Progress.done_andThen, Progress.done_andThen, h]

/-- **Unfolding by round.** The recursion unfolded `m` times shows what `m` rounds of the loop
show. -/
theorem fixAt_eq_loopUpTo (p : Parser ω ε α) (n m : Nat) (s : Text) :
    (Run.fixAt (onTexts fun self (_ : Unit) => oneMoreOrNone p (self ())) m ((), s)).upTo n =
      Run.loopUpTo (round p) n m ([], s) := by
  induction m generalizing s with
  | zero => rfl
  | succ m ih =>
    rw [Run.fixAt, onTexts, oneMoreOrNone_run, loopUpTo_round, Run.bind_upTo]
    congr 1
    funext o
    cases o with
    | failure => rfl
    | success x rest =>
      -- the recursion puts the value in front at once, the loop when it is done
      have hgathered := loopUpTo_gathered p n m [x] [] rest
      rw [List.nil_append] at hgathered
      dsimp only
      rw [Run.bind_upTo, Run.bind_upTo, ih, Progress.andThen_andThen, hgathered]
      refine loopUpTo_andThen_congr (fun vs r => ?_) n m [] rest
      exact Progress.done_andThen ..

/-- **The loop is the recursion:** within every budget the one shows just what the other shows. -/
theorem many_eq_repeating (p : Parser ω ε α) : many p = repeating p :=
  Parser.ext (funext fun s => Run.ext_upTo fun n => (fixAt_eq_loopUpTo p n n s).symm)

/-! ## One try -/

/-- **Zero or more times** is once and then zero or more times, or not at all. -/
theorem many_unrolls (p : Parser ω ε α) : (many p).Agrees (oneMoreOrNone p (many p)) := by
  rw [many_eq_repeating]
  exact fix_agrees (oneMoreOrNone_monotonic p) ()

/-- **One or more times** is once and then zero or more times. -/
theorem many1_unrolls (p : Parser ω ε α) : (many1 p).Agrees (oneAndThen p (many p)) := by
  intro s
  rw [many1_run, oneAndThen_run]
  refine ((many_agrees p s).bind fun _ => .refl _).trans ?_
  rw [bind_assoc]
  refine (Run.Agrees.refl (p.run s)).bind fun o => ?_
  cases o with
  | failure => exact .of_eq (pure_bind ..)
  | success x rest =>
    dsimp only
    rw [bind_assoc]
    refine (Run.Agrees.refl ((many p).run rest)).bind fun o => ?_
    cases o <;> exact .of_eq (pure_bind ..)

/-! ## Watching -/

/-- **Every ending of a watched repetition:** the observer has been shown the texts of the tries. -/
theorem ends_many_watched_iff {shown : Text → ω} {x : Except ε (Outcome (List α))} :
    ((many (logInput (fun u => Run.emit (shown u)) p)).run s).Ends t x ↔
      ∃ ts vs r, t = ts.flatMap (fun a => shown a.1 :: a.2) ∧
        ((Tries p s ts vs r (.ok .failure) ∧ x = .ok (.success vs r)) ∨
          ∃ e, Tries p s ts vs r (.error e) ∧ x = .error e) := by
  rw [ends_many_iff, stops_iff_tries]
  constructor
  · rintro ⟨_, vs, r, rfl, ⟨h, hx⟩ | ⟨e, h, hx⟩⟩
    · obtain ⟨ts, hts, rfl⟩ := tries_logInput_iff.1 h
      exact ⟨ts, vs, r, List.flatMap_map .., .inl ⟨hts, hx⟩⟩
    · obtain ⟨ts, hts, rfl⟩ := tries_logInput_iff.1 h
      exact ⟨ts, vs, r, List.flatMap_map .., .inr ⟨e, hts, hx⟩⟩
  · rintro ⟨ts, vs, r, rfl, ⟨h, hx⟩ | ⟨e, h, hx⟩⟩
    · exact ⟨_, vs, r, by rw [List.flatMap_map],
        .inl ⟨tries_logInput_iff.2 ⟨ts, h, rfl⟩, hx⟩⟩
    · exact ⟨_, vs, r, by rw [List.flatMap_map],
        .inr ⟨e, tries_logInput_iff.2 ⟨ts, h, rfl⟩, hx⟩⟩

/-- The same of one or more times, where no value is a failure. -/
theorem ends_many1_watched_iff {shown : Text → ω} {x : Except ε (Outcome (List α))} :
    ((many1 (logInput (fun u => Run.emit (shown u)) p)).run s).Ends t x ↔
      ∃ ts vs r, t = ts.flatMap (fun a => shown a.1 :: a.2) ∧
        ((Tries p s ts vs r (.ok .failure) ∧ x = .ok (atLeastOnce (.success vs r))) ∨
          ∃ e, Tries p s ts vs r (.error e) ∧ x = .error e) := by
  rw [many1_run, Run.ends_bind_pure]
  constructor
  · rintro ⟨y, h, rfl⟩
    obtain ⟨ts, vs, r, ht, ⟨hts, rfl⟩ | ⟨e, hts, rfl⟩⟩ := ends_many_watched_iff.1 h
    · exact ⟨ts, vs, r, ht, .inl ⟨hts, rfl⟩⟩
    · exact ⟨ts, vs, r, ht, .inr ⟨e, hts, rfl⟩⟩
  · rintro ⟨ts, vs, r, ht, ⟨h, rfl⟩ | ⟨e, h, rfl⟩⟩
    · exact ⟨_, ends_many_watched_iff.2 ⟨ts, vs, r, ht, .inl ⟨h, rfl⟩⟩, rfl⟩
    · exact ⟨_, ends_many_watched_iff.2 ⟨ts, vs, r, ht, .inr ⟨e, h, rfl⟩⟩, rfl⟩

/-- **The loop and the recursion are one.** Zero or more times `p` is the parser that the recursive
rule describes. It does the same as once `p` and then the repetition, or no value if `p` fails; one
or more times does the same as once `p` and then the repetition. Nobody who watches `p` can tell
the unrolled forms from the loops: however they end, each try of the loop has been shown once, in
order, and nothing else. -/
theorem repetition_unrolls (p : Parser ω ε α) :
    many p = repeating p ∧
    (many p).Agrees ((p.bind fun x => pure ((many p).map fun xs => pure ([x] ++ xs))).orElse
      (.ready (succeed []))) ∧
    (many1 p).Agrees (p.bind fun x => pure ((many p).map fun xs => pure ([x] ++ xs))) ∧
    ∀ (shown : Text → ω) s t x, let q := logInput (fun u => Run.emit (shown u)) p
      (((oneMoreOrNone q (many q)).run s).Ends t x ↔
        ∃ ts vs r, t = ts.flatMap (fun a => shown a.1 :: a.2) ∧
          ((Tries p s ts vs r (.ok .failure) ∧ x = .ok (.success vs r)) ∨
            ∃ e, Tries p s ts vs r (.error e) ∧ x = .error e)) ∧
      (((oneAndThen q (many q)).run s).Ends t x ↔
        ∃ ts vs r, t = ts.flatMap (fun a => shown a.1 :: a.2) ∧
          ((Tries p s ts vs r (.ok .failure) ∧ x = .ok (atLeastOnce (.success vs r))) ∨
            ∃ e, Tries p s ts vs r (.error e) ∧ x = .error e)) := by
  refine ⟨many_eq_repeating p, many_unrolls p, many1_unrolls p, fun shown s t x => ⟨?_, ?_⟩⟩
  · exact ((many_unrolls _ s).ends_iff).symm.trans ends_many_watched_iff
  · exact ((many1_unrolls _ s).ends_iff).symm.trans ends_many1_watched_iff

end Descent.Parser
