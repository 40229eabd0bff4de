import Descent.Parser.Watch
import Descent.Proofs.Deferral

/-!
# Exits for whole texts

There are two ways out of a parser: the value of a parse of the whole text, or nothing, and the same
with the reason where there is no value. Both run the parser once, and what they say is read off the
outcome, whatever the value is.

* `Reports q answer r`: **a complete account.** The run `q` tells apart the outcomes of `r`: a
  success that leaves nothing over, with its value, a failure, and a success that leaves something.
* `toOption_whole`: without the reasons the second exit is the first.
* `atEnd x`: succeeds at the end of the text, where there is nothing left to see, and only there.
* `keepLeft_atEnd_run`: a parser and the end of the text behind it.
* `ReportsAtEnd q' q answer`: **a rest is a failure.** What `q` reports as a rest `q'` reports as a
  failure, and all else is the same.
* `Script.report`, `Script.endOfText`: the exits and the end of the text in scripts.
* `exits_agree`: the results together.
-/

namespace Descent

namespace Outcome

variable {α : Type} {o : Outcome α}

theorem whole_eq_ok_iff {v : α} : o.whole = .ok v ↔ o = .success v [] := by
  match o with
  | .failure => exact ⟨fun h => (by cases h), fun h => (by cases h)⟩
  | .success a (_ :: _) => exact ⟨fun h => (by cases h), fun h => (by cases h)⟩
  | .success a [] =>
    constructor
    · intro h
      exact congrArg (Outcome.success · []) (Except.ok.inj h)
    · rintro ⟨⟩
      rfl

theorem whole_eq_noParse_iff : o.whole = .error .noParse ↔ o = .failure := by
  match o with
  | .failure => exact ⟨fun _ => rfl, fun _ => rfl⟩
  | .success a [] => exact ⟨fun h => (by cases h), fun h => (by cases h)⟩
  | .success a (_ :: _) => exact ⟨fun h => (by cases h), fun h => (by cases h)⟩

theorem whole_eq_incomplete_iff :
    o.whole = .error .incomplete ↔ ∃ v r, r ≠ [] ∧ o = .success v r := by
  match o with
  | .failure => exact ⟨fun h => (by cases h), fun ⟨_, _, _, h⟩ => (by cases h)⟩
  | .success a [] =>
    refine ⟨fun h => (by cases h), ?_⟩
    rintro ⟨v, r, hr, h⟩
    cases h
    exact absurd rfl hr
  | .success a (c :: r) => exact ⟨fun _ => ⟨a, c :: r, List.cons_ne_nil c r, rfl⟩, fun _ => rfl⟩

theorem whole_map {β : Type} (g : α → β) (o : Outcome α) : (o.map g).whole = o.whole.map g := by
  match o with
  | .failure | .success _ [] | .success _ (_ :: _) => rfl

/-- **The one exit is the other without the reasons.** -/
theorem toOption_whole (o : Outcome α) : o.whole.toOption = o.whole? := by
  match o with
  | .failure | .success _ [] | .success _ (_ :: _) => rfl

/-- The outcome, with a success that leaves something over taken for a failure. -/
def ifWhole : Outcome α → Outcome α
  | success a [] => success a []
  | success _ (_ :: _) => failure
  | failure => failure

theorem whole?_ifWhole (o : Outcome α) : o.ifWhole.whole? = o.whole? := by
  match o with
  | .failure | .success _ [] | .success _ (_ :: _) => rfl

/-- The only reason left is that there is no parse. -/
theorem whole_ifWhole (o : Outcome α) : o.ifWhole.whole = o.whole.mapError fun _ => .noParse := by
  match o with
  | .failure | .success _ [] | .success _ (_ :: _) => rfl

end Outcome

namespace Parser

variable {ω ε α β κ : Type}

/-! ## What the exits report -/

/-- **A complete account of a parse.** The run `q` ends with an answer whenever `r` ends with an
outcome, and the answer tells what kind of outcome this is. It raises the errors of `r`, and leaves
the same marks, also when neither ends. -/
structure Reports (q : Run ω ε κ) (answer : Except ParseError α → κ) (r : Run ω ε (Outcome α)) :
    Prop where
  whole : ∀ t v, q.Ends t (.ok (answer (.ok v))) ↔ r.Ends t (.ok (.success v []))
  noParse : ∀ t, q.Ends t (.ok (answer (.error .noParse))) ↔ r.Ends t (.ok .failure)
  incomplete : ∀ t, q.Ends t (.ok (answer (.error .incomplete))) ↔
    ∃ v rest, rest ≠ [] ∧ r.Ends t (.ok (.success v rest))
  answers : ∀ t y, q.Ends t (.ok y) → ∃ x, y = answer x
  error : ∀ t e, q.Ends t (.error e) ↔ r.Ends t (.error e)
  leaves : ∀ t, q.Leaves t ↔ r.Leaves t

/-- **A rest is a failure.** The first run answers as the second does, but where the second reports
that something is left over, it reports that there is no parse. -/
structure ReportsAtEnd (q' q : Run ω ε κ) (answer : Except ParseError α → κ) : Prop where
  whole : ∀ t v, q'.Ends t (.ok (answer (.ok v))) ↔ q.Ends t (.ok (answer (.ok v)))
  noParse : ∀ t, q'.Ends t (.ok (answer (.error .noParse))) ↔
    q.Ends t (.ok (answer (.error .noParse))) ∨ q.Ends t (.ok (answer (.error .incomplete)))
  incomplete : ∀ t, ¬q'.Ends t (.ok (answer (.error .incomplete)))
  error : ∀ t e, q'.Ends t (.error e) ↔ q.Ends t (.error e)
  leaves : ∀ t, q'.Leaves t ↔ q.Leaves t

section

variable {answer : Except ParseError α → κ} {p : Parser ω ε α} {s : Text}

/-- Answers tell what they are answers to apart. -/
theorem ends_answer (hanswer : ∀ x y, answer x = answer y → x = y)
    {q : Run ω ε (Except ParseError α)} {t : List ω} {x : Except ParseError α} :
    (q >>= fun x => pure (answer x)).Ends t (.ok (answer x)) ↔ q.Ends t (.ok x) := by
  rw [Run.ends_bind_pure_ok]
  constructor
  · rintro ⟨y, hy, hx⟩
    rwa [hanswer x y hx]
  · exact fun h => ⟨x, h, rfl⟩

theorem ends_parseAll_ok {t : List ω} {x : Except ParseError α} :
    (p.parseAll s).Ends t (.ok x) ↔ ∃ o, (p.run s).Ends t (.ok o) ∧ o.whole = x := by
  rw [parseAll, Run.ends_bind_pure_ok]
  simp only [eq_comm]

/-- **The exit with reasons is a complete account,** whatever way its answers are written, if
different answers are written in different ways. -/
theorem reports_parseAll (hanswer : ∀ x y, answer x = answer y → x = y) :
    Reports (p.parseAll s >>= fun x => pure (answer x)) answer (p.run s) where
  whole t v := by
    rw [ends_answer hanswer, ends_parseAll_ok]
    simp only [Outcome.whole_eq_ok_iff, exists_eq_right]
  noParse t := by
    rw [ends_answer hanswer, ends_parseAll_ok]
    simp only [Outcome.whole_eq_noParse_iff, exists_eq_right]
  incomplete t := by
    rw [ends_answer hanswer, ends_parseAll_ok]
    constructor
    · rintro ⟨o, ho, hrest⟩
      obtain ⟨v, rest, hne, rfl⟩ := Outcome.whole_eq_incomplete_iff.1 hrest
      exact ⟨v, rest, hne, ho⟩
    · rintro ⟨v, rest, hne, ho⟩
      exact ⟨_, ho, Outcome.whole_eq_incomplete_iff.2 ⟨v, rest, hne, rfl⟩⟩
  answers t y hy := by
    obtain ⟨x, -, hx⟩ := Run.ends_bind_pure_ok.1 hy
    exact ⟨x, hx⟩
  error t e := by rw [Run.ends_bind_pure_error, parseAll, Run.ends_bind_pure_error]
  leaves t := by rw [Run.leaves_bind_pure, parseAll, Run.leaves_bind_pure]

theorem Reports.of_agrees {q q' : Run ω ε κ} {r : Run ω ε (Outcome α)} (h : Reports q answer r)
    (hq : q'.Agrees q) : Reports q' answer r where
  whole t v := hq.ends_iff.trans (h.whole t v)
  noParse t := hq.ends_iff.trans (h.noParse t)
  incomplete t := hq.ends_iff.trans (h.incomplete t)
  answers t y hy := h.answers t y (hq.ends_iff.1 hy)
  error t e := hq.ends_iff.trans (h.error t e)
  leaves t := hq.leaves_iff.trans (h.leaves t)

theorem unpack_eq_toOption (p : Parser ω ε α) (s : Text) :
    p.unpack s = p.parseAll s >>= fun x => pure x.toOption := by
  rw [unpack, parseAll, bind_assoc]
  refine congrArg (p.run s >>= ·) (funext fun o => ?_)
  rw [pure_bind, Outcome.toOption_whole]

/-- **The parser is run once:** what is done before it is run is done once. -/
theorem exits_logInput (o : Text → Run ω ε Unit) (p : Parser ω ε α) (s : Text) :
    (logInput o p).unpack s = (o s >>= fun _ => p.unpack s) ∧
    (logInput o p).parseAll s = (o s >>= fun _ => p.parseAll s) := by
  unfold unpack parseAll
  rw [logInput_run]
  exact ⟨bind_assoc .., bind_assoc ..⟩

end

/-! ## The end of the text -/

/-- Succeeds where there is no next character to be seen. -/
def atEnd (x : α) : Parser ω ε α := peek.bind fun u => pure (if u.isEmpty then succeed x else fail)

theorem atEnd_nil (x : α) : (atEnd x : Parser ω ε α).run [] = pure (.success x []) := by
  simp [atEnd, bind_run, peek]

theorem atEnd_cons (x : α) (c : Char) (s : Text) :
    (atEnd x : Parser ω ε α).run (c :: s) = pure .failure := by
  simp [atEnd, bind_run, peek]

/-- **A parser and the end of the text behind it** have the outcome of the parser, if this leaves
nothing over, and otherwise they fail. -/
theorem keepLeft_atEnd_run (p : Parser ω ε α) (x : β) (s : Text) :
    (p.keepLeft (atEnd x)).run s = p.run s >>= fun o => pure o.ifWhole := by
  rw [keepLeft, bind_run]
  refine congrArg (p.run s >>= ·) (funext fun o => ?_)
  match o with
  | .failure => rfl
  | .success a [] =>
    simp only [pure_bind]
    rw [map_run, atEnd_nil]
    simp only [pure_bind, Outcome.ifWhole]
  | .success a (c :: rest) =>
    -- there is a character to be seen, and its test fails
    simp only [pure_bind]
    rw [map_run, atEnd_cons]
    simp only [pure_bind, Outcome.ifWhole]

theorem unpack_keepLeft_atEnd (p : Parser ω ε α) (x : β) (s : Text) :
    (p.keepLeft (atEnd x)).unpack s = p.unpack s := by
  unfold unpack
  rw [keepLeft_atEnd_run, bind_assoc]
  refine congrArg (p.run s >>= ·) (funext fun o => ?_)
  rw [pure_bind, Outcome.whole?_ifWhole]

theorem parseAll_keepLeft_atEnd (p : Parser ω ε α) (x : β) (s : Text) :
    (p.keepLeft (atEnd x)).parseAll s =
      p.parseAll s >>= fun y => pure (y.mapError fun _ => .noParse) := by
  unfold parseAll
  rw [keepLeft_atEnd_run, bind_assoc, bind_assoc]
  refine congrArg (p.run s >>= ·) (funext fun o => ?_)
  rw [pure_bind, pure_bind, Outcome.whole_ifWhole]

/-- **Behind the test for the end nothing is left over,** and what the parser left is a failure. -/
theorem reportsAtEnd_parseAll {answer : Except ParseError α → κ}
    (hanswer : ∀ x y, answer x = answer y → x = y) {p : Parser ω ε α} {s : Text} (x : β) :
    ReportsAtEnd ((p.keepLeft (atEnd x)).parseAll s >>= fun y => pure (answer y))
      (p.parseAll s >>= fun y => pure (answer y)) answer := by
  rw [parseAll_keepLeft_atEnd]
  generalize p.parseAll s = q
  have hends (t : List ω) (y' : Except ParseError α) :
      (q >>= fun y => pure (y.mapError fun _ => ParseError.noParse)).Ends t (.ok y') ↔
        ∃ y, q.Ends t (.ok y) ∧ y' = y.mapError fun _ => .noParse := Run.ends_bind_pure_ok
  refine ⟨fun t v => ?_, fun t => ?_, fun t h => ?_, fun t e => ?_, fun t => ?_⟩
  · rw [ends_answer hanswer, ends_answer hanswer, hends]
    constructor
    · rintro ⟨y, hy, hv⟩
      cases y with
      | error e => cases hv
      | ok a =>
        cases hv
        exact hy
    · exact fun h => ⟨_, h, rfl⟩
  · rw [ends_answer hanswer, ends_answer hanswer, ends_answer hanswer, hends]
    constructor
    · rintro ⟨y, hy, hreason⟩
      match y with
      | .ok a => cases hreason
      | .error .noParse => exact .inl hy
      | .error .incomplete => exact .inr hy
    · rintro (h | h)
      · exact ⟨_, h, rfl⟩
      · exact ⟨_, h, rfl⟩
  · -- of whatever kind the answer of the parser was, this is none of those that come up
    obtain ⟨y, -, hy⟩ := (hends t _).1 ((ends_answer hanswer).1 h)
    cases y with
    | ok a => cases hy
    | error e => cases hy
  · rw [Run.ends_bind_pure_error, Run.ends_bind_pure_error, Run.ends_bind_pure_error]
  · rw [Run.leaves_bind_pure, Run.leaves_bind_pure, Run.leaves_bind_pure]

theorem ReportsAtEnd.of_agrees {q q' r r' : Run ω ε κ} {answer : Except ParseError α → κ}
    (h : ReportsAtEnd r' r answer) (hq' : q'.Agrees r') (hq : q.Agrees r) :
    ReportsAtEnd q' q answer where
  whole t v := by rw [hq'.ends_iff, hq.ends_iff, h.whole]
  noParse t := by rw [hq'.ends_iff, hq.ends_iff, hq.ends_iff, h.noParse]
  incomplete t hends := h.incomplete t (hq'.ends_iff.1 hends)
  error t e := by rw [hq'.ends_iff, hq.ends_iff, h.error]
  leaves t := by rw [hq'.leaves_iff, hq.leaves_iff, h.leaves]

end Parser

/-! ## Exits in scripts -/

namespace Script

open Descent.Parser (Reports ReportsAtEnd atEnd)

/-- An answer as a pair: the value and null, or null and the reason why there is no value. -/
def report : Except ParseError Value → Value
  | .ok x => .tuple [x, .null]
  | .error e => .tuple [.null, .parseError e]

theorem report_injective (x y : Except ParseError Value) (h : report x = report y) : x = y := by
  match x, y with
  | .ok a, .ok b =>
    cases h
    rfl
  | .error e, .error e' =>
    cases h
    rfl
  | .ok a, .error e => cases h
  | .error e, .ok a => cases h

theorem perform_parseAll (h : Calls) (r : Recipe Value) (s : Text) :
    Action.perform h .parseAll [.parser r, .text s] =
      (h.parse r).parseAll s >>= fun x => pure (report x) := by
  refine congrArg ((h.parse r).parseAll s >>= ·) (funext fun x => ?_)
  cases x <;> rfl

/-- The first of the two is the value, or null. -/
theorem get_report (x : Except ParseError Value) :
    DataOp.compute .get [report x, .int 0] = .ok (x.toOption.getD .null) := by
  cases x <;> rfl

/-- **The function from a text to its value is the first component** of the pair. -/
theorem apply_unpacked_agrees_get (globals : Env) (r : Recipe Value) (s : Text) :
    ((calls globals).apply (.unpacked r) (.text s)).Agrees
      (Action.perform (calls globals) .parseAll [.parser r, .text s] >>= fun y =>
        Run.ofExcept (DataOp.compute .get [y, .int 0])) := by
  refine (apply_unpacked_agrees globals r s).trans (.of_eq ?_)
  rw [perform_parseAll, Parser.unpack_eq_toOption, bind_assoc, bind_assoc]
  refine congrArg (((calls globals).parse r).parseAll s >>= ·) (funext fun x => ?_)
  rw [pure_bind, pure_bind, get_report]
  rfl

/-- The function that comes up with success on the empty text and with failure on others. -/
def emptyOrFail : Value :=
  .closure [] "c" (.ite (.call (.data .same) [.var "c", .text []])
    (.call (.make .succeed) [.null]) (.call (.make .fail) []))

/-- The test for the end of the text: what is next is the empty text. -/
def endOfText : Recipe Value := .bind .peek emptyOrFail

theorem apply_emptyOrFail_agrees (globals : Env) (u : Text) :
    ((calls globals).apply emptyOrFail (.text u)).Agrees
      (pure (.parser (if u.isEmpty then .succeed .null else .fail))) := by
  refine (calls_apply_agrees ..).trans (.of_eq ?_)
  cases u <;> rfl

/-- The script's parser for the end of the text succeeds there, with null, and fails elsewhere. -/
theorem parse_endOfText_agrees (globals : Env) :
    ((calls globals).parse endOfText).Agrees (atEnd .null) := by
  intro s
  refine ((calls globals).parse_agrees endOfText s).trans ?_
  change (((calls globals).apply _ (.text (s.take 1)) >>= Recipe.called (calls globals) _) >>=
    fun q => q.run s).Agrees _
  rw [bind_assoc]
  refine ((apply_emptyOrFail_agrees globals (s.take 1)).bind fun _ => .refl _).trans ?_
  rw [pure_bind]
  cases s with
  | nil =>
    rw [Parser.atEnd_nil]
    exact (calls globals).parse_agrees (.succeed .null) []
  | cons c s =>
    rw [Parser.atEnd_cons]
    exact (calls globals).parse_agrees .fail (c :: s)

/-- A recipe with the end of the text behind it. -/
theorem parse_keepLeft_endOfText_agrees (globals : Env) (r : Recipe Value) :
    ((calls globals).parse (.keepLeft r endOfText)).Agrees
      (((calls globals).parse r).keepLeft (atEnd Value.null)) := by
  refine ((calls globals).parse_agrees _).trans ?_
  have hr := ((calls globals).parse_agrees r).symm
  have hend := ((calls globals).parse_agrees endOfText).symm.trans (parse_endOfText_agrees globals)
  exact (Parser.keepLeft_related hr.related hend.related).agrees

theorem apply_unpacked_endOfText_agrees (globals : Env) (r : Recipe Value) (s : Text) :
    ((calls globals).apply (.unpacked (.keepLeft r endOfText)) (.text s)).Agrees
      ((calls globals).apply (.unpacked r) (.text s)) := by
  have hunpack : (((calls globals).parse (.keepLeft r endOfText)).unpack s).Agrees
      (((calls globals).parse r).unpack s) := by
    rw [← Parser.unpack_keepLeft_atEnd ((calls globals).parse r) Value.null]
    exact (parse_keepLeft_endOfText_agrees globals r s).bind fun _ => .refl _
  refine (apply_unpacked_agrees ..).trans ?_
  exact (hunpack.bind fun _ => .refl _).trans (apply_unpacked_agrees ..).symm

theorem perform_endOfText_reports (globals : Env) (r : Recipe Value) (s : Text) :
    ReportsAtEnd
      (Action.perform (calls globals) .parseAll [.parser (.keepLeft r endOfText), .text s])
      (Action.perform (calls globals) .parseAll [.parser r, .text s]) report := by
  rw [perform_parseAll, perform_parseAll]
  refine (Parser.reportsAtEnd_parseAll report_injective Value.null).of_agrees ?_ (.refl _)
  have hrun := parse_keepLeft_endOfText_agrees globals r s
  exact (hrun.bind fun _ => .refl _).bind fun _ => .refl _

end Script

namespace Parser

open Descent.Script (Action DataOp calls endOfText report)

variable {ω ε α β : Type}

/-- **The two exits agree and leave nothing out.** The exit with reasons tells the outcomes of the
parser apart, whatever the value of a success is, and the other one is the same without the reasons.
Each of them runs the parser once. A test for the end of the text behind the parser makes no
difference to the value; then nothing is reported to be left over, and there is said to be no parse
where there was none before or something was left. In scripts the exit with reasons comes to a pair,
of which the function from texts to values gives the first component, and the test for the end looks
at the next character. -/
theorem exits_agree (p : Parser ω ε α) (x : β) (s : Text) :
    Reports (p.parseAll s) id (p.run s) ∧
    p.unpack s = (p.parseAll s >>= fun y => pure y.toOption) ∧
    (∀ o, (logInput o p).unpack s = (o s >>= fun _ => p.unpack s) ∧
      (logInput o p).parseAll s = (o s >>= fun _ => p.parseAll s)) ∧
    (p.keepLeft (atEnd x)).unpack s = p.unpack s ∧
    ReportsAtEnd ((p.keepLeft (atEnd x)).parseAll s) (p.parseAll s) id ∧
    ∀ globals r,
      Reports (Action.perform (calls globals) .parseAll [.parser r, .text s]) report
        (((calls globals).parse r).run s) ∧
      ((calls globals).apply (.unpacked r) (.text s)).Agrees
        (Action.perform (calls globals) .parseAll [.parser r, .text s] >>= fun y =>
          Run.ofExcept (DataOp.compute .get [y, .int 0])) ∧
      ((calls globals).apply (.unpacked (.keepLeft r endOfText)) (.text s)).Agrees
        ((calls globals).apply (.unpacked r) (.text s)) ∧
      ReportsAtEnd
        (Action.perform (calls globals) .parseAll [.parser (.keepLeft r endOfText), .text s])
        (Action.perform (calls globals) .parseAll [.parser r, .text s]) report := by
  have hplain (q : Parser ω ε α) : (q.parseAll s >>= fun y => pure (id y)) = q.parseAll s :=
    bind_pure _
  have hreports : Reports (p.parseAll s) id (p.run s) := by
    rw [← hplain]
    exact reports_parseAll fun _ _ h => h
  have hend : ReportsAtEnd ((p.keepLeft (atEnd x)).parseAll s) (p.parseAll s) id := by
    rw [← hplain p, ← hplain (p.keepLeft (atEnd x))]
    exact reportsAtEnd_parseAll (fun _ _ h => h) x
  refine ⟨hreports, unpack_eq_toOption p s, fun o => exits_logInput o p s,
    unpack_keepLeft_atEnd p x s, hend, fun globals r => ⟨?_, ?_, ?_, ?_⟩⟩
  · rw [Script.perform_parseAll]
    exact reports_parseAll Script.report_injective
  · exact Script.apply_unpacked_agrees_get globals r s
  · exact Script.apply_unpacked_endOfText_agrees globals r s
  · exact Script.perform_endOfText_reports globals r s

end Parser

end Descent
