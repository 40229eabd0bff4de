import Mathlib.Data.Fintype.Card
import Mathlib.Data.Fintype.EquivFin
import Descent.Proofs.Peg.Demand

/-!
# What keeps an expression from having a result

Over finitely many names, only two things keep the demands of a task from coming to an end.

* `Endless G c`: the task is a name that needs itself again on the same text, which is left
  recursion, or a repetition whose body succeeds without consuming.
* `Safe.founded`: demands that meet no endless task come to an end.
* `not_derivable_iff`: **only tasks that come to an endless task have no result.**
-/

namespace Descent.Peg

variable {N : Type} {G : Grammar N}

/-- **What keeps a task from ending:** a name that needs itself on the same text, or a repetition
whose body succeeds on the text without consuming. -/
inductive Endless (G : Grammar N) : Task N → Prop
  | leftRecursion {n : N} {s : Text} (h : Relation.TransGen (Needs G) (.name n, s) (.name n, s)) :
      Endless G (.name n, s)
  | idleRepetition {a : Peg N} {s : Text} (h : Derives G a s (some s)) : Endless G (.many a, s)

/-- No task that this one comes to is endless. -/
def Safe (G : Grammar N) (c : Task N) : Prop :=
  ∀ d, Relation.ReflTransGen (Needs G) c d → ¬Endless G d

theorem Safe.path {c d : Task N} (h : Safe G c) (hd : Relation.ReflTransGen (Needs G) c d) :
    Safe G d := fun e he => h e (hd.trans he)

theorem Safe.needs {c d : Task N} (h : Safe G c) (hd : Needs G c d) : Safe G d :=
  h.path (.single hd)

theorem Endless.cycle {c : Task N} (h : Endless G c) : Relation.TransGen (Needs G) c c := by
  cases h with
  | leftRecursion h => exact h
  | idleRepetition h => exact .single (.many_again h)

theorem Founded.safe {c : Task N} (h : Founded G c) : Safe G c :=
  fun _ hd he => (h.path hd).not_cycle he.cycle

section

variable {s : Text}

/-- The demands of the expression come to an end if those of the names that it comes to on this
same text do. -/
def Settles (G : Grammar N) (s : Text) (a : Peg N) : Prop :=
  Safe G (a, s) → (∀ n, Relation.ReflTransGen (Needs G) (a, s) (.name n, s) →
    Founded G (.name n, s)) → Founded G (a, s)

/-- Whatever is safe on a shorter text has demands that come to an end. -/
def ShorterFounded (G : Grammar N) (s : Text) : Prop :=
  ∀ (b : Peg N) (s' : Text), s'.length < s.length → Safe G (b, s') → Founded G (b, s')

/-- Only what an expression comes to on the same text has to be looked at. -/
theorem settles_intro (shorter : ShorterFounded G s) {a : Peg N}
    (h : ∀ b s', Needs G (a, s) (b, s') → s' = s → Safe G (a, s) → Settles G s b) :
    Settles G s a := by
  intro hs hn
  refine founded_intro fun d hd => ?_
  obtain ⟨b, s'⟩ := d
  have hsuf : s' <:+ s := hd.suffix
  rcases Nat.lt_or_eq_of_le hsuf.length_le with hlt | heq
  · exact shorter b s' hlt (hs.needs hd)
  · have e : s' = s := hsuf.eq_of_length heq
    subst e
    exact h b s' hd rfl hs (hs.needs hd) fun n hp => hn n (.head hd hp)

mutual

/-- **Every expression settles,** by recursion on the expression. -/
theorem settles (shorter : ShorterFounded G s) : ∀ a : Peg N, Settles G s a
  | .anyChar | .satisfy _ | .char _ | .literal _ | .succeed _ | .fail =>
    settles_intro shorter fun b s' hd => by cases hd
  | .keepRight a b => by
    have ha := settles shorter a
    have hb := settles shorter b
    refine settles_intro shorter fun c s' hd _ _ => ?_
    cases hd with
    | keepRight_left => exact ha
    | keepRight_right => exact hb
  | .keepLeft a b => by
    have ha := settles shorter a
    have hb := settles shorter b
    refine settles_intro shorter fun c s' hd _ _ => ?_
    cases hd with
    | keepLeft_left => exact ha
    | keepLeft_right => exact hb
  | .orElse a b => by
    have ha := settles shorter a
    have hb := settlesRef shorter b
    refine settles_intro shorter fun c s' hd _ _ => ?_
    cases hd with
    | orElse_first => exact ha
    | orElse_second => exact hb
  | .firstOf as => by
    have has := settlesRefs shorter as
    refine settles_intro shorter fun c s' hd _ _ => ?_
    cases hd with
    | firstOf a bs => exact has a (List.mem_append_right _ List.mem_cons_self)
  | .many a => by
    have ha := settles shorter a
    refine settles_intro shorter fun c s' hd e hs => ?_
    cases hd with
    | many_once => exact ha
    | many_again h =>
      subst e
      exact absurd (.idleRepetition h) (hs _ .refl)
  | .many1 a => by
    have ha := settles shorter a
    refine settles_intro shorter fun c s' hd e hs => ?_
    cases hd with
    | many1_once => exact ha
    | many1_again h =>
      subst e
      exact absurd (.idleRepetition h) (hs _ (.single (.many1_again h)))
  | .lexeme a => by
    have ha := settles shorter a
    refine settles_intro shorter fun c s' hd _ _ => ?_
    cases hd with
    | lexeme => exact ha
  | .name n => fun _ hn => hn n .refl

theorem settlesRef (shorter : ShorterFounded G s) : ∀ b : PegRef N, Settles G s b.expr
  | .ready a => settles shorter a
  | .deferred n => fun _ hn => hn n .refl

theorem settlesRefs (shorter : ShorterFounded G s) :
    ∀ as : List (PegRef N), ∀ a ∈ as, Settles G s a.expr
  | [] => fun a h => by cases h
  | b :: bs => List.forall_mem_cons.2 ⟨settlesRef shorter b, settlesRefs shorter bs⟩

end

/-- Over finitely many names, a name that comes to nothing endless has demands that end: without
left recursion, the names it comes to on the same text can be put in order. -/
theorem founded_name [Finite N] (shorter : ShorterFounded G s) {n : N}
    (hn : Safe G (.name n, s)) : Founded G (.name n, s) := by
  let below (m n : {n // Safe G (.name n, s)}) : Prop :=
    Relation.TransGen (Needs G) (.name n.1, s) (.name m.1, s)
  have htrans : IsTrans _ below := ⟨fun _ _ _ h k => k.trans h⟩
  have hirrefl : Std.Irrefl below := ⟨fun n h => n.2 _ .refl (.leftRecursion h)⟩
  have hwf : WellFounded below := Finite.wellFounded_of_trans_of_irrefl below
  refine hwf.induction (C := fun n => Founded G (.name n.1, s)) ⟨n, hn⟩ ?_
  intro n ih
  refine founded_intro fun d hd => ?_
  cases hd with
  | name =>
    refine settles shorter (G n.1) (n.2.needs (.name n.1 s)) fun m hm => ?_
    exact ih ⟨m, n.2.path (.head (.name n.1 s) hm)⟩ (.head' (.name n.1 s) hm)

end

/-- **Over finitely many names, demands come to an end unless they come to an endless task:** by
induction on the length of the text, then on the names in order, then on the expression. -/
theorem Safe.founded [Finite N] {a : Peg N} {s : Text} (h : Safe G (a, s)) : Founded G (a, s) := by
  induction hn : s.length using Nat.strongRecOn generalizing a s with
  | _ n ih =>
    subst hn
    have shorter : ShorterFounded G s := fun b s' hlt hb => ih s'.length hlt hb rfl
    exact settles shorter a h fun n hp => founded_name shorter (h.path hp)

/-- **Only tasks that come to an endless task have no result.** -/
theorem not_derivable_iff [Finite N] {c : Task N} :
    ¬Derivable G c ↔ ∃ d, Relation.ReflTransGen (Needs G) c d ∧ Endless G d := by
  rw [derivable_iff_founded]
  constructor
  · intro h
    by_contra hno
    exact h (Safe.founded fun d hd he => hno ⟨d, hd, he⟩)
  · rintro ⟨d, hd, he⟩ h
    exact h.safe d hd he

end Descent.Peg
