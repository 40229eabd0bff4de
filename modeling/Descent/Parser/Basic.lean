import Descent.Run.Ends
import Descent.Outcome

/-!
# Parsers

A parser runs on a text and comes to an outcome. What it is built from may have effects: functions
given to it are runs, so calling one may leave marks, raise an error or not end.

* `succeed` and `fail` consume nothing.
* `bind`, `map`, `ap` and `liftAs` sequence parsers. Each stops at the first failure, and then no
  later function is called.
* `keepRight` and `keepLeft` run two parsers and keep the value of one.
* `after` runs the parser that a run yields; nothing of it happens before the text is there.
* `p.Agrees q`: on every text the two do the same.
-/

namespace Descent

/-- **A parser**: what is done with a text, and the outcome it comes to. -/
@[ext] structure Parser (ω ε α : Type) where
  run : Text → Run ω ε (Outcome α)

namespace Parser

variable {ω ε α β γ φ : Type}

/-- Succeeds with a value and consumes nothing. -/
def succeed (a : α) : Parser ω ε α := ⟨fun s => pure (.success a s)⟩

/-- Fails on every text. -/
def fail : Parser ω ε α := ⟨fun _ => pure .failure⟩

instance : Inhabited (Parser ω ε α) := ⟨fail⟩

/-- Carries out the run each time there is a text, and hands the text to the parser it yields. -/
def after (r : Run ω ε (Parser ω ε α)) : Parser ω ε α := ⟨fun s => r >>= fun p => p.run s⟩

/-- Runs `p`, then what `f` makes of its value on what is left. The function is not called when
`p` fails. -/
protected def bind (p : Parser ω ε α) (f : α → Run ω ε (Parser ω ε β)) : Parser ω ε β :=
  ⟨fun s => p.run s >>= fun
    | .success a rest => (after (f a)).run rest
    | .failure => pure .failure⟩

/-- Runs `p` and puts its value through `f`. -/
protected def map (f : α → Run ω ε β) (p : Parser ω ε α) : Parser ω ε β :=
  ⟨fun s => p.run s >>= fun
    | .success a rest => f a >>= fun b => pure (.success b rest)
    | .failure => pure .failure⟩

/-- Runs `u`, then `p`, and only then applies the value of the one to that of the other. -/
def ap (app : φ → α → Run ω ε β) (u : Parser ω ε φ) (p : Parser ω ε α) : Parser ω ε β :=
  u.bind fun f => pure (p.map (app f))

/-- Runs the parsers from left to right and feeds each value to the curried function `f` as soon
as it is there. -/
def liftAs (app : α → α → Run ω ε α) (f : α) (p : Parser ω ε α) (ps : List (Parser ω ε α)) :
    Parser ω ε α :=
  ps.foldl (ap app) (p.map (app f))

/-- Both in turn, with the value of the second. -/
def keepRight (p : Parser ω ε α) (q : Parser ω ε β) : Parser ω ε β := p.bind fun _ => pure q

/-- Both in turn, with the value of the first. -/
def keepLeft (p : Parser ω ε α) (q : Parser ω ε β) : Parser ω ε α :=
  p.bind fun a => pure (q.map fun _ => pure a)

/-- The two do the same on every text. -/
def Agrees (p q : Parser ω ε α) : Prop := ∀ s, (p.run s).Agrees (q.run s)

/-! ## Runs of each -/

@[simp] theorem succeed_run (a : α) (s : Text) :
    (succeed a : Parser ω ε α).run s = pure (.success a s) := rfl

@[simp] theorem fail_run (s : Text) : (fail : Parser ω ε α).run s = pure .failure := rfl

@[simp] theorem after_run (r : Run ω ε (Parser ω ε α)) (s : Text) :
    (after r).run s = r >>= fun p => p.run s := rfl

@[simp] theorem after_pure (p : Parser ω ε α) : after (pure p) = p :=
  Parser.ext (funext fun s => by simp)

theorem bind_run (p : Parser ω ε α) (f : α → Run ω ε (Parser ω ε β)) (s : Text) :
    (p.bind f).run s = p.run s >>= fun
      | .success a rest => f a >>= fun q => q.run rest
      | .failure => pure .failure := rfl

theorem map_run (f : α → Run ω ε β) (p : Parser ω ε α) (s : Text) :
    (p.map f).run s = p.run s >>= fun
      | .success a rest => f a >>= fun b => pure (.success b rest)
      | .failure => pure .failure := rfl

theorem map_eq_bind (f : α → Run ω ε β) (p : Parser ω ε α) :
    p.map f = p.bind fun a => f a >>= fun b => pure (succeed b) := by
  refine Parser.ext (funext fun s => ?_)
  rw [map_run, bind_run]
  refine congrArg (p.run s >>= ·) (funext fun o => ?_)
  cases o <;> simp

@[simp] theorem liftAs_nil (app : α → α → Run ω ε α) (f : α) (p : Parser ω ε α) :
    liftAs app f p [] = p.map (app f) := rfl

/-- A sequence succeeds when both parts do, the second on what the first left. -/
theorem ends_bind_success {p : Parser ω ε α} {f : α → Run ω ε (Parser ω ε β)} {s r : Text}
    {t : List ω} {b : β} : ((p.bind f).run s).Ends t (.ok (.success b r)) ↔
      ∃ a s' q t₁ t₂ t₃, (p.run s).Ends t₁ (.ok (.success a s')) ∧ (f a).Ends t₂ (.ok q) ∧
        (q.run s').Ends t₃ (.ok (.success b r)) ∧ t = t₁ ++ t₂ ++ t₃ := by
  rw [bind_run, Run.ends_bind_ok]
  constructor
  · rintro ⟨o, u, v, hp, hq, rfl⟩
    cases o with
    | failure => simp at hq
    | success a s' =>
      obtain ⟨q, v₁, v₂, hf, hr, rfl⟩ := Run.ends_bind_ok.1 hq
      exact ⟨a, s', q, u, v₁, v₂, hp, hf, hr, (List.append_assoc ..).symm⟩
  · rintro ⟨a, s', q, t₁, t₂, t₃, hp, hf, hq, rfl⟩
    exact ⟨_, t₁, t₂ ++ t₃, hp, Run.ends_bind_ok.2 ⟨q, t₂, t₃, hf, hq, rfl⟩,
      List.append_assoc ..⟩

namespace Agrees

theorem refl (p : Parser ω ε α) : p.Agrees p := fun _ => .refl _

theorem of_eq {p q : Parser ω ε α} (h : p = q) : p.Agrees q := h ▸ refl p

theorem symm {p q : Parser ω ε α} (h : p.Agrees q) : q.Agrees p := fun s => (h s).symm

theorem trans {p q r : Parser ω ε α} (h : p.Agrees q) (k : q.Agrees r) : p.Agrees r :=
  fun s => (h s).trans (k s)

end Agrees

end Parser

end Descent
