import Descent.Parser.Basic

/-!
# Watching a parse

An observer is shown the text that is still to be parsed at some point. It may leave marks or
raise an error, and has no other influence.

* `tap` shows the text and succeeds, `logInput` shows it and then runs a parser.
* `logInput_eq_keepRight`: the one is the other in a sequence.
* `ends_logInput_emit`: an observer that leaves a mark leaves it before those of the parser.
-/

namespace Descent.Parser

variable {ω ε α : Type}

/-- Shows the text to the observer, consumes nothing and succeeds. -/
def tap (observer : Text → Run ω ε Unit) : Parser ω ε Unit :=
  ⟨fun s => observer s >>= fun _ => pure (.success () s)⟩

/-- Shows the text to the observer and then runs `p` on it. -/
def logInput (observer : Text → Run ω ε Unit) (p : Parser ω ε α) : Parser ω ε α :=
  ⟨fun s => observer s >>= fun _ => p.run s⟩

@[simp] theorem tap_run (o : Text → Run ω ε Unit) (s : Text) :
    (tap o).run s = o s >>= fun _ => pure (.success () s) := rfl

@[simp] theorem logInput_run (o : Text → Run ω ε Unit) (p : Parser ω ε α) (s : Text) :
    (logInput o p).run s = o s >>= fun _ => p.run s := rfl

/-- **Watching a parser is watching and then the parser.** -/
theorem logInput_eq_keepRight (o : Text → Run ω ε Unit) (p : Parser ω ε α) :
    logInput o p = (tap o).keepRight p := by
  refine Parser.ext (funext fun s => ?_)
  rw [keepRight, bind_run, logInput_run, tap_run, bind_assoc]
  refine congrArg (o s >>= ·) (funext fun _ => ?_)
  simp only [pure_bind]

/-- A watched parser leaves what the observer leaves on the text, then its own marks. -/
theorem ends_logInput_emit {shown : Text → ω} {p : Parser ω ε α} {s : Text} {t : List ω}
    {x : Except ε (Outcome α)} :
    ((logInput (fun u => Run.emit (shown u)) p).run s).Ends t x ↔
      ∃ u, (p.run s).Ends u x ∧ t = shown s :: u := Run.ends_emit_bind

end Descent.Parser
