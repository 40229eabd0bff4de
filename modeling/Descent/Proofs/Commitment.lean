import Descent.Proofs.Alternatives
import Descent.Proofs.Repetition
import Descent.Proofs.Spans
import Descent.Run.Translate

/-!
# The algebra of committed choice

A choice between `p` and a reference runs `p`, and it is done unless `p` fails. What may be said of
choices and sequences then depends on where failure comes up and on what has been looked up by then.

* `orElse_orElse`, `fail_orElse`, `orElse_fail`: choice is associative, and `fail` is neutral.
* `orElse_agrees_of_neverFails`: what stands behind a parser that never fails is never looked up.
* `orElse_bind_bind`: a common first part without marks may be taken out of a choice.
* `bind_orElse_cases`: **a choice is committed.** Going on from a choice is the choice between going
  on from its parts, but where the first part succeeds and what comes after it fails.
* `choice_laws`: the results together.
-/

namespace Descent.Parser

variable {ω ε α β : Type}

/-- The parser fails on no text. -/
def NeverFails (p : Parser ω ε α) : Prop := ∀ s t, ¬(p.run s).Ends t (.ok .failure)

/-- The parser leaves no marks, whether it ends or not. -/
def Quiet (p : Parser ω ε α) : Prop := ∀ s t, (p.run s).Leaves t → t = []

/-- What a sequence does after the outcome of its first part. -/
def followedBy (f : α → Run ω ε (Parser ω ε β)) : Outcome α → Run ω ε (Outcome β)
  | .success a rest => (after (f a)).run rest
  | .failure => pure .failure

/-- What a choice does after the outcome of its first part. -/
def otherwise (k : Run ω ε (Outcome α)) : Outcome α → Run ω ε (Outcome α)
  | .success a rest => pure (.success a rest)
  | .failure => k

theorem bind_run_eq (p : Parser ω ε α) (f : α → Run ω ε (Parser ω ε β)) (s : Text) :
    (p.bind f).run s = p.run s >>= followedBy f := rfl

theorem orElse_run_eq (p : Parser ω ε α) (r : Ref ω ε α) (s : Text) :
    (p.orElse r).run s = p.run s >>= otherwise ((lazily r).run s) := rfl

/-! ## Associativity -/

theorem after_orElse (t : Run ω ε (Parser ω ε α)) (r : Ref ω ε α) :
    (after t).orElse r = after (t >>= fun q => pure (q.orElse r)) := by
  refine Parser.ext (funext fun s => ?_)
  simp only [orElse_run_eq, after_run, bind_assoc, pure_bind]

theorem after_bind (t : Run ω ε (Parser ω ε α)) (f : α → Run ω ε (Parser ω ε β)) :
    (after t).bind f = after (t >>= fun q => pure (q.bind f)) := by
  refine Parser.ext (funext fun s => ?_)
  simp only [bind_run_eq, after_run, bind_assoc, pure_bind]

/-- **Choice is associative.** In either reading the second reference is looked up when the first
parser has failed, and the third when the second has failed too. -/
theorem orElse_orElse (p : Parser ω ε α) (q r : Ref ω ε α) :
    (p.orElse q).orElse r = p.orElse (.deferred (q.force >>= fun q' => pure (q'.orElse r))) := by
  rw [orElse_assoc]
  refine orElse_congr ?_
  rw [lazily_ready, lazily_deferred, lazily, after_orElse]

/-! ## Parsers that never fail -/

/-- What is kept for a failure is not carried out where there is none. -/
theorem otherwise_agrees {r : Run ω ε (Outcome α)} (h : ∀ t, ¬r.Ends t (.ok .failure))
    (k : Run ω ε (Outcome α)) : (r >>= otherwise k).Agrees r := by
  have hpure : (r >>= otherwise k).Agrees (r >>= pure) := by
    refine .bind_of_ends fun t o ho => ?_
    cases o with
    | success a rest => exact .refl _
    | failure => exact absurd ho (h t)
  rwa [bind_pure] at hpure

/-- **Behind a parser that never fails** nothing is looked up. -/
theorem orElse_agrees_of_neverFails {p : Parser ω ε α} (hp : p.NeverFails) (r : Ref ω ε α) :
    (p.orElse r).Agrees p := fun s => otherwise_agrees (hp s) _

theorem neverFails_succeed (a : α) : (succeed a : Parser ω ε α).NeverFails := by
  intro s t h
  cases (Run.ends_pure.1 h).2

theorem neverFails_peek : (peek : Parser ω ε Text).NeverFails := by
  intro s t h
  cases (Run.ends_pure.1 h).2

theorem neverFails_tap (o : Text → Run ω ε Unit) : (tap o).NeverFails := by
  intro s t h
  obtain ⟨-, u, v, -, hv, -⟩ := Run.ends_bind_ok.1 h
  cases (Run.ends_pure.1 hv).2

theorem neverFails_many (p : Parser ω ε α) : (many p).NeverFails :=
  fun _ _ => not_ends_many_failure

/-! ## A common first part -/

/-- A quiet parser that has ended may be run again, and the sequence goes on from the same
outcome. -/
theorem bind_agrees_of_quiet {p : Parser ω ε α} (hp : p.Quiet) {s : Text} {t : List ω}
    {o : Outcome α} (ho : (p.run s).Ends t (.ok o)) (g : α → Run ω ε (Parser ω ε β)) :
    ((p.bind g).run s).Agrees (followedBy g o) := by
  obtain rfl : t = [] := hp s t (ho.leaves (List.prefix_refl t))
  have hpure : (p.run s).Agrees (pure o) := ho.agrees_pure
  refine (hpure.bind fun _ => .refl _).trans (.of_eq ?_)
  exact pure_bind ..

/-- **A common first part may be taken out of a choice.** It leaves no marks, so nobody can tell
that it is run once instead of twice. -/
theorem orElse_bind_bind {p : Parser ω ε α} (hp : p.Quiet) (f g : α → Run ω ε (Parser ω ε β)) :
    ((p.bind f).orElse (.ready (p.bind g))).Agrees
      (p.bind fun a => f a >>= fun q => pure (q.orElse (.deferred (g a)))) := by
  intro s
  rw [orElse_run_eq, lazily_ready, bind_run_eq p f, bind_run_eq, bind_assoc]
  refine .bind_of_ends fun t o ho => ?_
  have hagain := bind_agrees_of_quiet hp ho g
  cases o with
  | failure =>
    simp only [followedBy, pure_bind]
    exact hagain
  | success a rest =>
    -- both sides call `f` and run what it gives; where that fails, `g` is called
    simp only [followedBy, after_run, bind_assoc, pure_bind, orElse_run_eq, lazily_deferred]
    refine (Run.Agrees.refl (f a)).bind fun q => (Run.Agrees.refl (q.run rest)).bind fun o => ?_
    cases o with
    | success b rest' => exact .refl _
    | failure => exact hagain

/-! ## Commitment -/

/-- **A choice is committed.** Going on from a choice does the same as the choice between going on
from the one and from the other, unless the first parser succeeds and what follows it fails. Then
going on from the choice fails, whatever its second part is, so this has not been looked up. -/
theorem bind_orElse_cases (p : Parser ω ε α) (q : Ref ω ε α) (f : α → Run ω ε (Parser ω ε β))
    (s : Text) :
    (((p.orElse q).bind f).run s).Agrees (((p.bind f).orElse
      (.deferred (q.force >>= fun q' => pure (q'.bind f)))).run s) ∨
    ∃ a rest u v, (p.run s).Ends u (.ok (.success a rest)) ∧
      ((after (f a)).run rest).Ends v (.ok .failure) ∧
      ∀ q', (((p.orElse q').bind f).run s).Ends (u ++ v) (.ok .failure) := by
  by_cases hf : ∃ a rest u v, (p.run s).Ends u (.ok (.success a rest)) ∧
      ((after (f a)).run rest).Ends v (.ok .failure)
  · obtain ⟨a, rest, u, v, hp, hv⟩ := hf
    refine .inr ⟨a, rest, u, v, hp, hv, fun q' => ?_⟩
    have ho : ((p.orElse q').run s).Ends u (.ok (.success a rest)) :=
      ends_orElse_success.2 (.inl hp)
    exact Run.ends_bind_ok.2 ⟨_, u, v, ho, hv, rfl⟩
  · refine .inl ?_
    have hsecond : lazily (.deferred (q.force >>= fun q' => pure (q'.bind f))) =
        (lazily q).bind f := by rw [lazily_deferred, lazily, after_bind]
    rw [orElse_run_eq (p.bind f), hsecond, bind_run_eq, orElse_run_eq, bind_run_eq, bind_assoc,
      bind_assoc]
    refine .bind_of_ends fun t o ho => ?_
    cases o with
    | failure =>
      simp only [otherwise, followedBy, pure_bind]
      exact .refl _
    | success a rest =>
      simp only [otherwise, followedBy, pure_bind]
      exact (otherwise_agrees (fun v hv => hf ⟨a, rest, t, v, ho, hv⟩) _).symm

/-- **The algebra of committed choice.** Choice is associative, and a parser that fails is neutral.
A parser that never fails is the whole of a choice that begins with it, whatever stands behind. A
common first part without marks may be taken out. What succeeds after a choice succeeds in the same
way when the choice is made afterwards, and where the two differ, the first parser has succeeded,
what follows it has failed, and the second has not been looked up. -/
theorem choice_laws (p : Parser ω ε α) (q r : Ref ω ε α) (f g : α → Run ω ε (Parser ω ε β)) :
    (p.orElse q).orElse r = p.orElse (.deferred (q.force >>= fun q' => pure (q'.orElse r))) ∧
    (fail.orElse (.ready p) = p ∧ p.orElse (.ready fail) = p) ∧
    ((p.NeverFails → ∀ q', (p.orElse q').Agrees p) ∧
      (∀ a, (succeed a : Parser ω ε α).NeverFails) ∧ (peek : Parser ω ε Text).NeverFails ∧
      (∀ o : Text → Run ω ε Unit, (tap o).NeverFails) ∧ (many p).NeverFails) ∧
    (p.Quiet → ((p.bind f).orElse (.ready (p.bind g))).Agrees
      (p.bind fun a => f a >>= fun q' => pure (q'.orElse (.deferred (g a))))) ∧
    (∀ s t b rest, (((p.orElse q).bind f).run s).Ends t (.ok (.success b rest)) →
      (((p.bind f).orElse (.deferred (q.force >>= fun q' => pure (q'.bind f)))).run s).Ends t
        (.ok (.success b rest))) ∧
    ∀ s, (((p.orElse q).bind f).run s).Agrees (((p.bind f).orElse
        (.deferred (q.force >>= fun q' => pure (q'.bind f)))).run s) ∨
      ∃ a rest u v, (p.run s).Ends u (.ok (.success a rest)) ∧
        ((after (f a)).run rest).Ends v (.ok .failure) ∧
        ∀ q', (((p.orElse q').bind f).run s).Ends (u ++ v) (.ok .failure) := by
  refine ⟨orElse_orElse p q r, ⟨?_, orElse_fail p⟩,
    ⟨fun hp q' => orElse_agrees_of_neverFails hp q', neverFails_succeed, neverFails_peek,
      neverFails_tap, neverFails_many p⟩,
    fun hp => orElse_bind_bind hp f g, fun s t b rest h => ?_, bind_orElse_cases p q f⟩
  · rw [fail_orElse, lazily_ready]
  · rcases bind_orElse_cases p q f s with hagrees | ⟨a, rest', u, v, -, -, hfails⟩
    · exact hagrees.ends_iff.1 h
    · cases (h.unique (hfails q)).2

/-- The letters at the head of a text, before a choice is made and at the head of one. -/
theorem choice_laws_letters :
    let p : Parser Nat Unit (List Char) := many letter
    let dot : List Char → Run Nat Unit (Parser Nat Unit Char) := fun _ => pure (char '.')
    let other : List Char → Run Nat Unit (Parser Nat Unit Char) := fun cs =>
      Run.emit cs.length >>= fun _ => pure anyChar
    (∀ q', (p.orElse q').Agrees p) ∧
    ((p.bind dot).orElse (.ready (p.bind other))).Agrees
      (p.bind fun cs => dot cs >>= fun q' => pure (q'.orElse (.deferred (other cs)))) := by
  intro p dot other
  have hquiet : p.Quiet := fun s t ht => by
    obtain ⟨n, ht⟩ := (many_oneOf_agrees isLetter s).leaves_iff.1 ht
    exact List.prefix_nil.1 ht
  obtain ⟨-, -, hnever, hfactor, -⟩ := choice_laws p (.deferred .never) (.deferred .never) dot other
  exact ⟨hnever.1 (neverFails_many letter), hfactor hquiet⟩

/-- Where the choice is committed: on `ac` the first parser succeeds, and the `b` that is due then
does not come. The other alternative would do with any letter, but it is not looked up. -/
example :
    let q : Ref Nat Unit Char := .deferred (Run.emit 0 >>= fun _ => pure anyChar)
    let f : Char → Run Nat Unit (Parser Nat Unit Text) := fun c =>
      Run.emit c.toNat >>= fun _ => pure (literal (if c == 'a' then ['b'] else []))
    ((((char 'a').orElse q).bind f).run ['a', 'c']).upTo 0 = .done [97] .failure := rfl

end Descent.Parser
