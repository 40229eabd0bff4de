import Descent.Recipe.Denote
import Descent.Run.Translate

/-!
# Two programs side by side

Two programs that differ by a change to their recipes do the same, up to what their marks stand for,
as soon as their calls do. This holds of every recipe and of grammars that refer to themselves, and
also where the two never end.

* `Call κ`: what a program calls of its host. `Related.of_calls`: programs that differ in their
  calls only.
* `parse_within`, `parse_within_flip`: all that the one program does the other does.
* `parse_agree`: **the two do the same.**
-/

namespace Descent.Host

open Recipe (denote)

variable {ω ω' ω₀ ε κ : Type} {c : Change κ} {h : Host ω ε κ} {h' : Host ω' ε κ}
  {k : ω → Run ω₀ ε Unit} {k' : ω' → Run ω₀ ε Unit}

/-- **A call of the host**, as a recipe makes it while it runs. -/
inductive Call (κ : Type) where
  /-- A function is applied. -/
  | apply (f x : κ)
  /-- A deferred reference is forced. -/
  | force (x : κ)

/-- What the call does. -/
def call (h : Host ω ε κ) : Call κ → Run ω ε κ
  | .apply f x => h.apply f x
  | .force x => h.force x

theorem Related.of_calls {ρ : Run.Relator ω ω' ε} (hv : h'.toCarrier = h.toCarrier)
    (hc : ∀ a, ρ.Rel Eq (h.call a) (h'.call a)) : Related ρ .none h h' where
  carrier := by rw [hv]
  recipe y := by
    rw [hv]
    exact .refl _
  apply f x := hc (.apply f x)
  force x := hc (.force x)
  bare _ _ ho := ho.elim
  defer _ _ _ _ ho := ho.elim

theorem Related.mono {ρ σ : Run.Relator ω ω' ε} (hh : Related ρ c h h')
    (hρ : ∀ {α β : Type} {R : α → β → Prop} {r : Run ω ε α} {s : Run ω' ε β},
      ρ.Rel R r s → σ.Rel R r s) : Related σ c h h' where
  carrier := hh.carrier
  recipe := hh.recipe
  apply f x := hρ (hh.apply f x)
  force x := hρ (hh.force x)
  bare o s ho := hρ (hh.bare o s ho)
  defer o x q s ho := hρ (hh.defer o x q s ho)

/-- The recipe with its references unfolded `n` times. -/
def parseAt (h : Host ω ε κ) (n : Nat) (r : Recipe κ) : Parser ω ε κ :=
  ⟨fun s => Run.fixAt (Parser.onTexts (denote h)) n (r, s)⟩

theorem parseAt_succ (h : Host ω ε κ) (n : Nat) (r : Recipe κ) :
    h.parseAt (n + 1) r = denote h (h.parseAt n) r := rfl

/-- All that the first program does the second does. The induction is on how often the references of
the first are unfolded; the second is there in full. -/
theorem parse_within (hh : Related (.within k k') c h h') {r r' : Recipe κ} (hr : Variant c r r')
    (s : Text) :
    (((h.parse r).run s).translate k).Within Eq (((h'.parse r').run s).translate k') := by
  suffices ∀ n r r', Variant c r r' →
      Parser.Related (.within k k') (h.parseAt n r) (h'.parse r') from
    fun n => this n r r' hr s n
  intro n
  induction n with
  | zero => exact fun _ _ _ _ => Run.never_within Eq _
  | succ n ih =>
    intro r r' hr s
    have hparse (q : Recipe κ) (s : Text) := (parse_agrees h' q s).translate k'
    have hg : Carries (.within k k') c h h' (h.parseAt n) h'.parse :=
      ⟨ih, fun _ _ _ q' _ _ hq s => (Run.Agrees.refl _).within (hparse q' s) (hq s)⟩
    rw [parseAt_succ]
    exact (Run.Agrees.refl _).within (hparse r' s) (denote_related hh hg hr s)

/-- All that the second program does the first does. Here the references of the second are
unfolded. -/
theorem parse_within_flip (hh : Related (Run.Relator.within k' k).flip c h h') {r r' : Recipe κ}
    (hr : Variant c r r') (s : Text) :
    (((h'.parse r').run s).translate k').Within Eq (((h.parse r).run s).translate k) := by
  suffices ∀ n r r', Variant c r r' →
      Parser.Related (Run.Relator.within k' k).flip (h.parse r) (h'.parseAt n r') from
    fun n => (this n r r' hr s).mono (fun _ _ => Eq.symm) n
  intro n
  induction n with
  | zero => exact fun _ _ _ _ => Run.never_within _ _
  | succ n ih =>
    intro r r' hr s
    have hparse (q : Recipe κ) (s : Text) := (parse_agrees h q s).translate k
    have hg : Carries (Run.Relator.within k' k).flip c h h' h.parse (h'.parseAt n) :=
      ⟨ih, fun _ _ q q' _ hq _ s =>
        (Run.Agrees.refl _).within (hparse q s).symm (ih q q' hq s)⟩
    rw [parseAt_succ]
    exact (Run.Agrees.refl _).within (hparse r s) (denote_related hh hg hr s)

/-- **Programs that differ by a change do the same,** up to what their marks stand for, if their
calls do. -/
theorem parse_agree (hh : Related (.agree k k') c h h') {r r' : Recipe κ} (hr : Variant c r r')
    (s : Text) : (((h.parse r).run s).translate k).Agrees (((h'.parse r').run s).translate k') :=
  ⟨parse_within (hh.mono And.left) hr s, parse_within_flip (hh.mono And.right) hr s⟩

end Descent.Host
