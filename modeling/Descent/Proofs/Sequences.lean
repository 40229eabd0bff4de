import Descent.Run.Translate
import Descent.Parser.Basic

/-!
# Laws of sequencing

With `succeed` and `bind` parsers are a monad, and `map` is its map, whatever the parsers and the
functions do: leave marks, raise errors or go on for ever. The two sides of a law are one and the
same parser, so they also leave the same marks and raise the same errors, or both do not end.

* `succeed_bind`, `bind_succeed`, `bind_bind`: the laws of `bind`.
* `map_map`: two functions in turn are one. `map_eq_bind` stands beside `map`.
* `announcing f`: the function, which tells of each call before anything else of it.
* `CallsOnce p K q q'`: in the sequence `q` one call is made after a success of `p`, on its value,
  and none after a failure or an error.
* `sequencing_laws`: **the results together.**
-/

namespace Descent.Parser

variable {ω χ ε α β γ : Type}

/-! ## The laws -/

theorem succeed_bind (a : α) (f : α → Run ω ε (Parser ω ε β)) :
    (succeed a).bind f = after (f a) := by
  refine Parser.ext (funext fun s => ?_)
  rw [bind_run, succeed_run, pure_bind, after_run]

theorem bind_succeed (p : Parser ω ε α) : (p.bind fun a => pure (succeed a)) = p := by
  refine Parser.ext (funext fun s => ?_)
  rw [bind_run]
  refine Eq.trans (congrArg (p.run s >>= ·) (funext fun o => ?_)) (bind_pure _)
  cases o with
  | success a rest => exact pure_bind ..
  | failure => rfl

theorem bind_bind (p : Parser ω ε α) (f : α → Run ω ε (Parser ω ε β))
    (g : β → Run ω ε (Parser ω ε γ)) :
    (p.bind f).bind g = p.bind fun a => f a >>= fun q => pure (q.bind g) := by
  refine Parser.ext (funext fun s => ?_)
  rw [bind_run, bind_run, bind_run, bind_assoc]
  refine congrArg (p.run s >>= ·) (funext fun o => ?_)
  cases o with
  | failure => exact pure_bind ..
  | success a rest =>
    -- both sides call `f`, run the parser it gives and go on with `g` from there
    simp only [bind_assoc, pure_bind]
    rfl

theorem map_map (p : Parser ω ε α) (h : α → Run ω ε β) (k : β → Run ω ε γ) :
    (p.map h).map k = p.map fun a => h a >>= k := by
  refine Parser.ext (funext fun s => ?_)
  rw [map_run, map_run, map_run, bind_assoc]
  refine congrArg (p.run s >>= ·) (funext fun o => ?_)
  cases o with
  | failure => exact pure_bind ..
  | success a rest => simp only [bind_assoc, pure_bind]

theorem map_pure_map (p : Parser ω ε α) (f : α → β) (k : β → Run ω ε γ) :
    (p.map fun a => pure (f a)).map k = p.map fun a => k (f a) := by
  rw [map_map]
  simp only [pure_bind]

/-- A function on the value of a sequence is one on the value of its last part. -/
theorem bind_map (p : Parser ω ε α) (f : α → Run ω ε (Parser ω ε β)) (k : β → Run ω ε γ) :
    (p.bind f).map k = p.bind fun a => f a >>= fun q => pure (q.map k) := by
  rw [map_eq_bind, bind_bind]
  simp only [← map_eq_bind]

/-! ## Calls -/

/-- The parser among marks of a second kind, of which it leaves none. -/
def lifted (p : Parser ω ε α) : Parser (ω ⊕ χ) ε α := ⟨fun s => (p.run s).lifted⟩

/-- **Announces each call** with its argument, before anything else of the call. -/
def announcing (f : α → Run ω ε β) (a : α) : Run (ω ⊕ α) ε β :=
  Run.emit (.inr a) >>= fun _ => (f a).lifted

/-- Announces each call of a function that comes up with parsers. -/
def announcingNext (f : α → Run ω ε (Parser ω ε β)) (a : α) :
    Run (ω ⊕ α) ε (Parser (ω ⊕ α) ε β) :=
  announcing f a >>= fun q => pure q.lifted

/-- Marks stay, and announcements are left out. -/
def unannounced : ω ⊕ χ → Run ω ε Unit := Sum.elim Run.emit fun _ => pure ()

/-- What is left to do when the first part of a sequence has ended. After a success there is a call,
and all that `K` makes of it; otherwise there is nothing. -/
def remaining (K : α → Text → Run ω ε (Outcome β)) :
    Except ε (Outcome α) → Run (ω ⊕ α) ε (Outcome β)
  | .ok (.success a rest) => Run.emit (.inr a) >>= fun _ => (K a rest).lifted
  | .ok .failure => pure .failure
  | .error e => Run.raise e

/-- **One call after a success, and no other.** The parser `q'` is `q` with its calls announced.
When `p` has ended it announces one call, on the value of `p`, right after the marks of `p`, and
then does what `K` says, or it announces none and is at its end. -/
structure CallsOnce (p : Parser ω ε α) (K : α → Text → Run ω ε (Outcome β)) (q : Parser ω ε β)
    (q' : Parser (ω ⊕ α) ε β) : Prop where
  unannounced : ∀ s, (q'.run s).translate unannounced = q.run s
  calls : ∀ s t x, (p.run s).Ends t x →
    (q'.run s).Agrees ((forM t fun m => Run.emit (.inl m)) >>= fun _ => remaining K x)

theorem lifted_unannounced (r : Run ω ε α) :
    (r.lifted : Run (ω ⊕ χ) ε α).translate unannounced = r := by
  rw [Run.lifted_translate]
  exact Run.translate_emit r

theorem announcing_unannounced (f : α → Run ω ε β) (a : α) :
    (announcing f a).translate unannounced = f a := by
  rw [announcing, Run.bind_translate, Run.emit_translate, lifted_unannounced]
  exact pure_bind ..

/-- Going on from a parser that has ended is going on from its marks and its ending. -/
theorem lifted_bind_agrees {p : Parser ω ε α} {s : Text} {t : List ω} {x : Except ε (Outcome α)}
    (h : (p.run s).Ends t x) (K : Outcome α → Run (ω ⊕ χ) ε β) :
    (p.lifted.run s >>= K).Agrees
      ((forM t fun m => Run.emit (.inl m)) >>= fun _ => Run.ofExcept x >>= K) := by
  have hp := (h.translate_agrees fun m => Run.emit (.inl m : ω ⊕ χ)).bind fun o => .refl (K o)
  rwa [bind_assoc] at hp

/-- **The function of a sequence is called once,** with the value of the first part, when this has
succeeded. -/
theorem bind_callsOnce (p : Parser ω ε α) (f : α → Run ω ε (Parser ω ε β)) :
    CallsOnce p (fun a rest => (after (f a)).run rest) (p.bind f)
      (p.lifted.bind (announcingNext f)) where
  unannounced s := by
    rw [bind_run, Run.bind_translate, lifted, lifted_unannounced, bind_run]
    refine congrArg (p.run s >>= ·) (funext fun o => ?_)
    cases o with
    | failure => rfl
    | success a rest =>
      have hrun (q : Parser ω ε β) :
          ((q.lifted : Parser (ω ⊕ α) ε β).run rest).translate unannounced = q.run rest :=
        lifted_unannounced _
      simp only [announcingNext, bind_assoc, pure_bind, Run.bind_translate, announcing_unannounced,
        hrun]
  calls s t x h := by
    rw [bind_run]
    refine (lifted_bind_agrees h _).trans (.of_eq (congrArg (_ >>= ·) (funext fun _ => ?_)))
    match x with
    | .error e => exact Run.raise_bind e _
    | .ok .failure => exact pure_bind ..
    | .ok (.success a rest) =>
      simp only [Run.ofExcept_ok, pure_bind, remaining, announcingNext, announcing, bind_assoc]
      refine congrArg (Run.emit (Sum.inr a) >>= ·) (funext fun _ => ?_)
      rw [after_run, Run.bind_lifted]
      rfl

/-- **The function on the value of a parser is called once,** when the parser has succeeded. -/
theorem map_callsOnce (p : Parser ω ε α) (h : α → Run ω ε β) :
    CallsOnce p (fun a rest => h a >>= fun b => pure (.success b rest)) (p.map h)
      (p.lifted.map (announcing h)) where
  unannounced s := by
    rw [map_run, Run.bind_translate, lifted, lifted_unannounced, map_run]
    refine congrArg (p.run s >>= ·) (funext fun o => ?_)
    cases o with
    | failure => rfl
    | success a rest => simp only [Run.bind_translate, announcing_unannounced, Run.pure_translate]
  calls s t x hx := by
    rw [map_run]
    refine (lifted_bind_agrees hx _).trans (.of_eq (congrArg (_ >>= ·) (funext fun _ => ?_)))
    match x with
    | .error e => exact Run.raise_bind e _
    | .ok .failure => exact pure_bind ..
    | .ok (.success a rest) =>
      simp only [Run.ofExcept_ok, pure_bind, remaining, announcing, bind_assoc, Run.bind_lifted,
        Run.pure_lifted]

/-- **The laws of sequencing.** Parsers and functions may leave marks, raise errors or not end, and
the two sides of each law are the same parser. After a success of the parser before it a function is
called once, on the value, whatever value this is, and after a failure or an error it is not
called. -/
theorem sequencing_laws (p : Parser ω ε α) (v : α) (f : α → Run ω ε (Parser ω ε β))
    (g : β → Run ω ε (Parser ω ε γ)) (h : α → Run ω ε β) (k : β → Run ω ε γ) :
    (succeed v).bind f = after (f v) ∧
    (p.bind fun a => pure (succeed a)) = p ∧
    (p.bind f).bind g = (p.bind fun a => f a >>= fun q => pure (q.bind g)) ∧
    p.map h = (p.bind fun a => h a >>= fun b => pure (succeed b)) ∧
    (p.map h).map k = (p.map fun a => h a >>= k) ∧
    CallsOnce p (fun a rest => (after (f a)).run rest) (p.bind f)
      (p.lifted.bind (announcingNext f)) ∧
    CallsOnce p (fun a rest => h a >>= fun b => pure (.success b rest)) (p.map h)
      (p.lifted.map (announcing h)) :=
  ⟨succeed_bind v f, bind_succeed p, bind_bind p f g, map_eq_bind h p, map_map p h k,
    bind_callsOnce p f, map_callsOnce p h⟩

end Descent.Parser
