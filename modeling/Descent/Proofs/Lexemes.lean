import Descent.Parser.Watch
import Descent.Proofs.Gives
import Descent.Proofs.Sequences
import Descent.Proofs.Spans

/-!
# What a lexeme strips

A lexeme is its parser on the text without its leading blanks, and where the parser has succeeded,
the remainder loses its leading blanks too. It takes off all blanks there are, so there is nothing
left for another lexeme to take off, whatever the parser itself does about blanks.

* `trim_trim`, `trim_append`: trimming takes off all blanks in front.
* `lexeme_eq_keep`: a lexeme as a sequence of three.
* `ends_lexeme_ok`, `ends_lexeme_error`, `leaves_lexeme`: its endings and its marks are those of the
  parser alone.
* `lexeme_logInput_agrees`: whoever watches the parser is shown one text, without leading blanks.
* `lexeme_lexeme`, `lexeme_append`: stripping twice, and stripping more.
* `lexeme_strips`: **the results together.**
-/

namespace Descent

/-! ## Trimming -/

theorem trimmed_trim (s : Text) : Trimmed (trim s) := by
  obtain ⟨w, -, -, h⟩ := trim_eq_iff.1 (rfl : trim s = trim s)
  exact h

theorem trim_trim (s : Text) : trim (trim s) = trim s := (trimmed_trim s).trim

/-- Blanks in front make no difference to what is left when all blanks are gone. -/
theorem trim_append {w : Text} (hw : ∀ c ∈ w, isBlank c = true) (s : Text) :
    trim (w ++ s) = trim s := List.dropWhile_append_of_pos hw

theorem Outcome.trim_trim {α : Type} (o : Outcome α) : o.trim.trim = o.trim := by
  cases o with
  | failure => rfl
  | success a r => exact congrArg (success a) (Descent.trim_trim r)

namespace Parser

variable {ω ε α : Type} {p : Parser ω ε α} {s : Text} {t : List ω}

/-! ## The lexeme and its parser -/

/-- **Blanks, the parser and blanks,** with the value of the parser. -/
theorem lexeme_eq_keep (p : Parser ω ε α) :
    lexeme p = ((many blank).keepRight p).keepLeft (many blank) := by
  refine Parser.ext (funext fun s => ?_)
  rw [lexeme_run, keepLeft, keepRight, bind_bind, bind_run]
  refine congrArg ((many blank).run s >>= ·) (funext fun o => ?_)
  cases o with
  | failure => rfl
  | success w s' =>
    dsimp only
    rw [pure_bind, pure_bind, bind_run]
    refine congrArg (p.run s' >>= ·) (funext fun o => ?_)
    cases o with
    | failure => rfl
    | success a r =>
      dsimp only
      rw [pure_bind, map_run]
      refine congrArg (skipBlanks.run r >>= ·) (funext fun o => ?_)
      cases o with
      | failure => rfl
      | success w' r' => exact (pure_bind ..).symm

theorem ends_lexeme_error {e : ε} :
    ((lexeme p).run s).Ends t (.error e) ↔ (p.run (trim s)).Ends t (.error e) :=
  (lexeme_agrees p s).ends_iff.trans Run.ends_bind_pure_error

theorem ends_lexeme_ok {o : Outcome α} : ((lexeme p).run s).Ends t (.ok o) ↔
    ∃ o', (p.run (trim s)).Ends t (.ok o') ∧ o = o'.trim :=
  (lexeme_agrees p s).ends_iff.trans Run.ends_bind_pure_ok

theorem ends_lexeme_failure :
    ((lexeme p).run s).Ends t (.ok .failure) ↔ (p.run (trim s)).Ends t (.ok .failure) := by
  rw [ends_lexeme_ok]
  constructor
  · rintro ⟨o, h, ho⟩
    cases o <;> cases ho
    exact h
  · exact fun h => ⟨_, h, rfl⟩

theorem ends_lexeme_success {v : α} {r : Text} :
    ((lexeme p).run s).Ends t (.ok (.success v r)) ↔
      ∃ r', (p.run (trim s)).Ends t (.ok (.success v r')) ∧ r = trim r' := by
  rw [ends_lexeme_ok]
  constructor
  · rintro ⟨o, h, ho⟩
    cases o <;> cases ho
    exact ⟨_, h, rfl⟩
  · rintro ⟨r', h, rfl⟩
    exact ⟨_, h, rfl⟩

/-- **No marks but those of the parser,** whether it ends or not. -/
theorem leaves_lexeme : ((lexeme p).run s).Leaves t ↔ (p.run (trim s)).Leaves t :=
  (lexeme_agrees p s).leaves_iff.trans Run.leaves_bind_pure

/-- **The parser is run once,** on the text without its leading blanks: an observer in front of it
does, inside the lexeme, what it does on this text in front of the lexeme. -/
theorem lexeme_logInput_agrees (observer : Text → Run ω ε Unit) (p : Parser ω ε α) (s : Text) :
    ((lexeme (logInput observer p)).run s).Agrees
      (observer (trim s) >>= fun _ => (lexeme p).run s) := by
  refine (lexeme_agrees _ s).trans ?_
  rw [logInput_run, bind_assoc]
  exact (Run.Agrees.refl _).bind fun _ => (lexeme_agrees p s).symm

/-! ## Stripping twice, and stripping more -/

/-- **Stripping twice** is stripping once. -/
theorem lexeme_lexeme (p : Parser ω ε α) : (lexeme (lexeme p)).Agrees (lexeme p) := by
  intro s
  have hinner := lexeme_agrees p (trim s)
  rw [trim_trim] at hinner
  refine (lexeme_agrees (lexeme p) s).trans ((hinner.bind fun _ => .refl _).trans ?_)
  rw [bind_assoc]
  refine .trans ?_ (lexeme_agrees p s).symm
  refine (Run.Agrees.refl _).bind fun o => .of_eq ?_
  rw [pure_bind, Outcome.trim_trim]

/-- **More blanks in front** do not matter. -/
theorem lexeme_append {w : Text} (hw : ∀ c ∈ w, isBlank c = true) (p : Parser ω ε α) (s : Text) :
    ((lexeme p).run (w ++ s)).Agrees ((lexeme p).run s) := by
  have h := lexeme_agrees p (w ++ s)
  rw [trim_append hw] at h
  exact h.trans (lexeme_agrees p s).symm

/-- What a lexeme leaves does not begin with a blank. -/
theorem trimmed_of_lexeme {v : α} {r : Text}
    (h : ((lexeme p).run s).Ends t (.ok (.success v r))) : Trimmed r := by
  obtain ⟨r', -, rfl⟩ := ends_lexeme_success.1 h
  exact trimmed_trim r'

/-- **A lexeme strips blanks, and all of them.** On every text it does what its parser does on the
text without the longest run of blanks in front, but that a success has its remainder stripped in
the same way. It fails and raises where the parser does, it leaves the marks of the parser and no
others, and the parser is run once and on this text only. So a lexeme of a lexeme is the lexeme, a
lexeme is its parser with blanks dropped on either side, more blanks in front do not matter, and
what is left after a success does not begin with a blank. -/
theorem lexeme_strips (p : Parser ω ε α) :
    (∀ s, (∃ w, Span isBlank s w (trim s)) ∧
      ((lexeme p).run s).Agrees (p.run (trim s) >>= fun o => pure o.trim)) ∧
    (∀ s t, (((lexeme p).run s).Ends t (.ok .failure) ↔ (p.run (trim s)).Ends t (.ok .failure)) ∧
      (∀ e, ((lexeme p).run s).Ends t (.error e) ↔ (p.run (trim s)).Ends t (.error e)) ∧
      (∀ v r, ((lexeme p).run s).Ends t (.ok (.success v r)) ↔
        ∃ r', (p.run (trim s)).Ends t (.ok (.success v r')) ∧ r = trim r') ∧
      (((lexeme p).run s).Leaves t ↔ (p.run (trim s)).Leaves t)) ∧
    (∀ (observer : Text → Run ω ε Unit) s, ((lexeme (logInput observer p)).run s).Agrees
      (observer (trim s) >>= fun _ => (lexeme p).run s)) ∧
    (lexeme (lexeme p)).Agrees (lexeme p) ∧
    lexeme p = ((many blank).keepRight p).keepLeft (many blank) ∧
    (∀ w s, (∀ c ∈ w, isBlank c = true) →
      ((lexeme p).run (w ++ s)).Agrees ((lexeme p).run s)) ∧
    ∀ s t v r, ((lexeme p).run s).Ends t (.ok (.success v r)) → Trimmed r :=
  ⟨fun s => ⟨⟨s.takeWhile isBlank, span_iff.2 ⟨rfl, rfl⟩⟩, lexeme_agrees p s⟩,
    fun _ _ => ⟨ends_lexeme_failure, fun _ => ends_lexeme_error, fun _ _ => ends_lexeme_success,
      leaves_lexeme⟩,
    fun observer s => lexeme_logInput_agrees observer p s, lexeme_lexeme p, lexeme_eq_keep p,
    fun _ s hw => lexeme_append hw p s, fun _ _ _ _ h => trimmed_of_lexeme h⟩

/-- A digit between blanks, of a parser that is watched and takes a blank for itself. -/
theorem lexeme_strips_digit :
    let p : Parser Text Unit Char := (logInput Run.emit digit).keepLeft blank
    ((lexeme p).run ['\n', '\t', '7', ' ', '\n', 'x']).Agrees
      ((lexeme p).run ['7', ' ', '\n', 'x']) ∧
    ((lexeme p).run ['7', ' ', '\n', 'x']).Ends [['7', ' ', '\n', 'x']]
      (.ok (.success '7' ['x'])) ∧ Trimmed ['x'] := by
  intro p
  obtain ⟨-, -, -, -, -, hmore, htrimmed⟩ := lexeme_strips p
  have hends : ((lexeme p).run ['7', ' ', '\n', 'x']).Ends [['7', ' ', '\n', 'x']]
      (.ok (.success '7' ['x'])) := ends_lexeme_success.2 ⟨['\n', 'x'], ⟨0, rfl⟩, rfl⟩
  exact ⟨hmore ['\n', '\t'] _ (by simp [isBlank, blanks]), hends, htrimmed _ _ _ _ hends⟩

end Parser

end Descent
