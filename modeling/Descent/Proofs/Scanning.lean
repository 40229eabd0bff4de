import Descent.Proofs.Gives
import Descent.Proofs.Sequences
import Descent.Recipe.Denote

/-!
# A test again and again

A repeated test takes the characters of a text one after the other for as long as they pass. What
the test does besides is part of the parse: it may leave marks, raise an error or not end, and it is
called on nothing but the characters taken and the one behind them.

* `scan test s`: the test called on the characters of a text in turn, up to the first that does not
  pass.
* `many_satisfy_agrees`: **a repeated test is a scan.**
* `Judges test holds w cs`: on each of the characters the test ends with a verdict.
* `ends_scan_append`: a scan goes on behind characters that pass.
* `ends_scan_span`, `ends_scan_error`: it stops behind the longest run of characters that pass, or
  with the error of a test.
* `repeated_test_spans`: **the results together.**
-/

namespace Descent

namespace Parser

variable {ω ε α : Type}

/-- **Calls the test on one character after the other,** up to the first that does not pass, and
parts the text there. -/
def scan (test : Char → Run ω ε Bool) : Text → Run ω ε (Text × Text)
  | [] => pure ([], [])
  | c :: s => test c >>= fun b =>
    if b then scan test s >>= fun x => pure (c :: x.1, x.2) else pure ([], c :: s)

/-- On each of the characters the test comes to the verdict `holds` and leaves the marks `w`. -/
def Judges (test : Char → Run ω ε Bool) (holds : Char → Bool) (w : Char → List ω) (cs : Text) :
    Prop := ∀ c ∈ cs, (test c).Ends (w c) (.ok (holds c))

variable {test : Char → Run ω ε Bool} {holds : Char → Bool} {w : Char → List ω} {u r s : Text}
  {c : Char} {t : List ω} {e : ε}

/-! ## Repetition -/

/-- A repeated test whose characters are made into values. -/
theorem many_satisfy_map_agrees (test : Char → Run ω ε Bool) (value : Char → α) (s : Text) :
    ((many ((satisfy test).map fun c => pure (value c))).run s).Agrees
      (scan test s >>= fun x => pure (.success (x.1.map value) x.2)) := by
  induction s with
  | nil =>
    refine (many_agrees _ []).trans (.of_eq ?_)
    rw [map_pure_run, satisfy_nil, pure_bind, Outcome.map_failure, pure_bind, scan, pure_bind]
    rfl
  | cons c s ih =>
    refine (many_agrees _ (c :: s)).trans ?_
    rw [map_pure_run, satisfy_cons, scan]
    simp only [bind_assoc, pure_bind]
    refine (Run.Agrees.refl (test c)).bind fun b => ?_
    cases b with
    | false => exact .of_eq (pure_bind ..).symm
    | true =>
      refine (ih.bind fun _ => .refl _).trans (.of_eq ?_)
      simp only [if_true, bind_assoc, pure_bind]
      rfl

/-- **A repeated test is a scan.** -/
theorem many_satisfy_agrees (test : Char → Run ω ε Bool) (s : Text) :
    ((many (satisfy test)).run s).Agrees
      (scan test s >>= fun x => pure (.success x.1 x.2)) := by
  have h := many_satisfy_map_agrees test id s
  rw [map_eq_bind] at h
  simp only [id, pure_bind, bind_succeed, List.map_id] at h
  exact h

/-! ## Where a scan stops -/

/-- **A scan goes on behind characters that pass.** -/
theorem ends_scan_append {x : Except ε (Text × Text)}
    (hu : ∀ c ∈ u, (test c).Ends (w c) (.ok true)) (h : (scan test s).Ends t x) :
    (scan test (u ++ s)).Ends (u.flatMap w ++ t) (x.map fun y => (u ++ y.1, y.2)) := by
  induction u with
  | nil => cases x <;> exact h
  | cons c u ih =>
    obtain ⟨hc, hrest⟩ := List.forall_mem_cons.1 hu
    have hnext : (scan test (u ++ s) >>= fun x => pure (c :: x.1, x.2)).Ends (u.flatMap w ++ t)
        (x.map fun y => (c :: u ++ y.1, y.2)) := by
      refine Run.ends_bind_pure.2 ⟨_, ih hrest, ?_⟩
      cases x <;> rfl
    refine Run.ends_bind.2 (.inr ⟨true, w c, u.flatMap w ++ t, hc, hnext, ?_⟩)
    rw [List.flatMap_cons, List.append_assoc]

/-- **A scan stops behind the longest run of characters that pass.** It has called the test on these
and on the character behind them, if there is one. -/
theorem ends_scan_span (h : Span holds s u r) (htest : Judges test holds w (u ++ r.take 1)) :
    (scan test s).Ends ((u ++ r.take 1).flatMap w) (.ok (u, r)) := by
  obtain ⟨rfl, hu, hr⟩ := h
  obtain ⟨hpass, hstop⟩ := List.forall_mem_append.1 htest
  have hend : (scan test r).Ends ((r.take 1).flatMap w) (.ok ([], r)) := by
    cases r with
    | nil => exact Run.ends_pure.2 ⟨rfl, rfl⟩
    | cons c r =>
      have hc := hstop c List.mem_cons_self
      rw [hr c r rfl] at hc
      exact Run.ends_bind_ok.2 ⟨false, w c, [], hc, Run.ends_pure.2 ⟨rfl, rfl⟩, by simp⟩
  rw [List.flatMap_append]
  simpa [Except.map] using ends_scan_append (fun c hc => hu c hc ▸ hpass c hc) hend

/-- **An error of the test is the error of the scan,** if the characters in front pass. -/
theorem ends_scan_error (hu : ∀ c ∈ u, (test c).Ends (w c) (.ok true))
    (hc : (test c).Ends t (.error e)) :
    (scan test (u ++ c :: r)).Ends (u.flatMap w ++ t) (.error e) :=
  ends_scan_append (x := .error e) hu (Run.ends_bind.2 (.inl ⟨e, hc, rfl⟩))

/-- **A scan parts the text** between the characters that have passed and one that has not. -/
theorem parts_of_scan (h : (scan test s).Ends t (.ok (u, r))) :
    u ++ r = s ∧ (∀ c ∈ u, ∃ v, (test c).Ends v (.ok true)) ∧
      ∀ c r', r = c :: r' → ∃ v, (test c).Ends v (.ok false) := by
  induction s generalizing t u with
  | nil =>
    cases (Run.ends_pure.1 h).2
    exact ⟨rfl, fun c hc => (by cases hc), fun c r' hr => (by cases hr)⟩
  | cons c s ih =>
    obtain ⟨b, v, v', hc, hv, -⟩ := Run.ends_bind_ok.1 h
    cases b with
    | false =>
      cases (Run.ends_pure.1 hv).2
      refine ⟨rfl, fun c hc => (by cases hc), fun d r' hr => ?_⟩
      cases hr
      exact ⟨v, hc⟩
    | true =>
      obtain ⟨⟨u', r'⟩, hscan, he⟩ := Run.ends_bind_pure_ok.1 hv
      cases he
      obtain ⟨hs, hpass, hstop⟩ := ih hscan
      exact ⟨congrArg (c :: ·) hs, List.forall_mem_cons.2 ⟨⟨v, hc⟩, hpass⟩, hstop⟩

/-! ## What is made of a scan -/

/-- **What a repeated test comes to,** given how its scan ends: the two parts of the text, unless
one or more characters were asked for and there are none, or the whole text, if nothing is left of
it. An error stays an error. The marks are the same each time. -/
structure Repeats (test : Char → Run ω ε Bool) (s : Text) (t : List ω)
    (x : Except ε (Text × Text)) : Prop where
  many : ((many (satisfy test)).run s).Ends t (x.map fun y => .success y.1 y.2)
  many1 : ((many1 (satisfy test)).run s).Ends t
    (x.map fun y => if y.1.isEmpty then .failure else .success y.1 y.2)
  whole : (unpack (Parser.many (satisfy test)) s).Ends t
    (x.map fun y => if y.2.isEmpty then some s else none)

/-- A repetition of a test does what the scan does, in each of its forms. -/
theorem repeats_of_scan {x : Except ε (Text × Text)} (h : (scan test s).Ends t x) :
    Repeats test s t x := by
  have hmany : ((many (satisfy test)).run s).Ends t (x.map fun y => .success y.1 y.2) :=
    (many_satisfy_agrees test s).ends_iff.2 (Run.ends_bind_pure.2 ⟨x, h, rfl⟩)
  refine ⟨hmany, ?_, ?_⟩
  · rw [many1_run]
    refine Run.ends_bind_pure.2 ⟨_, hmany, ?_⟩
    cases x with
    | error e => rfl
    | ok y => exact congrArg Except.ok (atLeastOnce_success y.1 y.2).symm
  · refine Run.ends_bind_pure.2 ⟨_, hmany, ?_⟩
    rcases x with e | ⟨u, _ | ⟨c, r⟩⟩
    · rfl
    · obtain ⟨hu, -⟩ := parts_of_scan h
      rw [List.append_nil] at hu
      exact congrArg (fun u => Except.ok (some u)) hu.symm
    · rfl

/-- A test that announces its calls comes to the same verdicts. -/
theorem Judges.announcing (h : Judges test holds w u) :
    Judges (announcing test) holds (fun c => .inr c :: (w c).map .inl) u :=
  fun c hc => Run.ends_emit_bind.2 ⟨_, Run.ends_lifted.2 ⟨w c, h c hc, rfl⟩, rfl⟩

/-- What a repeated test succeeds with are the parts of the text. -/
theorem parts_of_many (h : ((many (satisfy test)).run s).Ends t (.ok (.success u r))) :
    u ++ r = s ∧ (∀ c ∈ u, ∃ v, (test c).Ends v (.ok true)) ∧
      ∀ c r', r = c :: r' → ∃ v, (test c).Ends v (.ok false) := by
  obtain ⟨x, hx, he⟩ := Run.ends_bind_pure_ok.1 ((many_satisfy_agrees test s).ends_iff.1 h)
  cases he
  exact parts_of_scan hx

end Parser

/-! ## Tests in programs -/

namespace Host

variable {ω ε κ : Type}

/-- The characters of a scan as a value: a list of texts of one character each. -/
def characters (h : Host ω ε κ) (u : Text) : κ := h.list (u.map fun c => h.text [c])

theorem parse_many_satisfy_agrees (h : Host ω ε κ) (f : κ) (s : Text) :
    ((h.parse (.many (.satisfy f))).run s).Agrees (Parser.scan (Recipe.test h f) s >>= fun x =>
      pure (.success (h.characters x.1) x.2)) := by
  refine (h.parse_agrees _ s).trans ?_
  rw [Recipe.denote_many, Recipe.ofList, Parser.map_pure_run]
  have hmany := Parser.many_satisfy_map_agrees (Recipe.test h f) (fun c => h.text [c]) s
  refine (hmany.bind fun _ => .refl _).trans (.of_eq ?_)
  simp only [bind_assoc, pure_bind]
  rfl

theorem parse_many1_satisfy_agrees (h : Host ω ε κ) (f : κ) (s : Text) :
    ((h.parse (.many1 (.satisfy f))).run s).Agrees (Parser.scan (Recipe.test h f) s >>= fun x =>
      pure (if x.1.isEmpty then .failure else .success (h.characters x.1) x.2)) := by
  refine (h.parse_agrees _ s).trans ?_
  rw [Recipe.denote_many1, Recipe.ofList, Parser.map_pure_run, Parser.many1_run]
  have hmany := Parser.many_satisfy_map_agrees (Recipe.test h f) (fun c => h.text [c]) s
  refine ((hmany.bind fun _ => .refl _).bind fun _ => .refl _).trans (.of_eq ?_)
  simp only [bind_assoc, pure_bind]
  refine congrArg (_ >>= ·) (funext fun x => congrArg pure ?_)
  rw [Parser.atLeastOnce_success, List.isEmpty_map]
  cases x.1 <;> rfl

end Host

namespace Parser

variable {ω ε κ : Type}

/-- **Repeated tests take spans.** A repeated test does what a scan does: it calls the test on one
character after the other, up to the first that does not pass. If the test comes to a verdict on the
longest run of characters that pass and on the one behind it, if there is one, then the value is
this run and the rest of the text is left; the marks are those of the test on just these characters,
each once and in order, and a test that announces its calls announces these. One or more times is
the same unless the run is empty, which is a failure. The whole text has a value just when all of
its characters pass. If the test raises an error on a character that is reached, the error is that
of the parse, whichever it is. However the test may come to its verdicts, the value and the rest
together are the text. In programs the value is a list of texts of one character. -/
theorem repeated_test_spans (test : Char → Run ω ε Bool) (s : Text) :
    ((many (satisfy test)).run s).Agrees
      (scan test s >>= fun x => pure (.success x.1 x.2)) ∧
    (∀ t u r, ((many (satisfy test)).run s).Ends t (.ok (.success u r)) →
      u ++ r = s ∧ (∀ c ∈ u, ∃ v, (test c).Ends v (.ok true)) ∧
        ∀ c r', r = c :: r' → ∃ v, (test c).Ends v (.ok false)) ∧
    (∀ holds w u r, Span holds s u r → Judges test holds w (u ++ r.take 1) →
      Repeats test s ((u ++ r.take 1).flatMap w) (.ok (u, r)) ∧
      Repeats (announcing test) s ((u ++ r.take 1).flatMap fun c => .inr c :: (w c).map .inl)
        (.ok (u, r)) ∧
      (r = [] ↔ ∀ c ∈ s, holds c = true)) ∧
    (∀ w u c r t e, s = u ++ c :: r → (∀ d ∈ u, (test d).Ends (w d) (.ok true)) →
      (test c).Ends t (.error e) →
      Repeats test s (u.flatMap w ++ t) (.error e) ∧
      Repeats (announcing test) s
        ((u.flatMap fun d => .inr d :: (w d).map .inl) ++ .inr c :: t.map .inl) (.error e)) ∧
    ∀ (h : Host ω ε κ) (f : κ),
      ((h.parse (.many (.satisfy f))).run s).Agrees (scan (Recipe.test h f) s >>= fun x =>
        pure (.success (h.characters x.1) x.2)) ∧
      ((h.parse (.many1 (.satisfy f))).run s).Agrees (scan (Recipe.test h f) s >>= fun x =>
        pure (if x.1.isEmpty then .failure else .success (h.characters x.1) x.2)) := by
  refine ⟨many_satisfy_agrees test s, fun t u r => parts_of_many,
    fun holds w u r hspan htest => ⟨?_, ?_, hspan.rest_eq_nil_iff⟩,
    fun w u c r t e hs hu hc => ⟨?_, ?_⟩,
    fun h f => ⟨h.parse_many_satisfy_agrees f s, h.parse_many1_satisfy_agrees f s⟩⟩
  · exact repeats_of_scan (ends_scan_span hspan htest)
  · exact repeats_of_scan (ends_scan_span hspan htest.announcing)
  · exact hs ▸ repeats_of_scan (ends_scan_error hu hc)
  · have hpass : Judges test (fun _ => true) w u := hu
    have herror : (announcing test c).Ends (.inr c :: t.map .inl) (.error e) :=
      Run.ends_emit_bind.2 ⟨_, Run.ends_lifted.2 ⟨t, hc, rfl⟩, rfl⟩
    exact hs ▸ repeats_of_scan (ends_scan_error hpass.announcing herror)

/-- A test that leaves each letter it is called on, refuses a `b` and raises an error on a `!`. The
text of the first parse has a `!` that is not reached. -/
theorem repeated_test_spans_letters :
    let test : Char → Run Char Unit Bool := fun c =>
      if c = '!' then Run.raise () else Run.emit c >>= fun _ => pure (c == 'a')
    Repeats test ['a', 'a', 'b', '!'] ['a', 'a', 'b'] (.ok (['a', 'a'], ['b', '!'])) ∧
    Repeats (announcing test) ['a', '!', 'b'] [.inr 'a', .inl 'a', .inr '!'] (.error ()) := by
  intro test
  have hletter (c : Char) (hc : c ≠ '!') : (test c).Ends [c] (.ok (c == 'a')) := by
    refine ⟨0, ?_⟩
    dsimp only [test]
    rw [if_neg hc]
    rfl
  have hspan : Span (· == 'a') ['a', 'a', 'b', '!'] ['a', 'a'] ['b', '!'] :=
    span_iff.2 ⟨rfl, rfl⟩
  have hjudges : Judges test (· == 'a') (fun c => [c]) (['a', 'a'] ++ ['b', '!'].take 1) := by
    intro c hc
    refine hletter c ?_
    rintro rfl
    exact absurd hc (by decide)
  obtain ⟨-, -, hspans, -⟩ := repeated_test_spans (κ := Unit) test ['a', 'a', 'b', '!']
  obtain ⟨-, -, -, hraises, -⟩ := repeated_test_spans (κ := Unit) test ['a', '!', 'b']
  refine ⟨(hspans _ _ _ _ hspan hjudges).1,
    (hraises (fun c => [c]) ['a'] '!' ['b'] [] () rfl ?_ ⟨0, rfl⟩).2⟩
  exact List.forall_mem_singleton.2 (hletter 'a' (by decide))

end Parser

end Descent
