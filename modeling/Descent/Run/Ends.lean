import Descent.Run.Loop
import Descent.Run.Fix

/-!
# What a run does

A run seen from outside, with no budget in sight.

* `r.Ends t x`: the run leaves exactly the marks `t` and ends with the value or error `x`. A run
  has at most one ending (`Ends.unique`), and for each way of making runs one lemma says when it
  ends (`ends_pure`, `ends_emit`, `ends_bind`, `ends_bind_pure`, …).
* `r.Leaves t`: the run leaves at least the marks `t`, first of all, whether or not it ends.
* `r.Returns`: the run ends.
* `r.Within R s`: all that `r` does, `s` does too, with values related by `R`. `r.Agrees s` is this
  in both directions: the same marks, the same ending or none (`agrees_iff`).
-/

namespace Descent.Run

variable {ω ε ι σ α β γ δ : Type}

/-- The run leaves exactly these marks and ends so. -/
def Ends (r : Run ω ε α) (t : List ω) (x : Except ε α) : Prop :=
  ∃ n, r.upTo n = .ended t x

/-- The run ends, with a value or an error. -/
def Returns (r : Run ω ε α) : Prop := ∃ t x, r.Ends t x

/-- The run leaves these marks before any others. -/
def Leaves (r : Run ω ε α) (t : List ω) : Prop := ∃ n, t <+: (r.upTo n).trace

/-- All that the first run does the second does too. -/
def Within (R : α → β → Prop) (r : Run ω ε α) (s : Run ω ε β) : Prop :=
  ∀ n, ∃ m, Progress.Below R (r.upTo n) (s.upTo m)

/-- **Two runs do the same:** they leave the same marks and end in the same way or not at all. -/
def Agrees (r s : Run ω ε α) : Prop := r.Within Eq s ∧ s.Within Eq r

/-! ## Endings -/

theorem upTo_of_ends {r : Run ω ε α} {t : List ω} {x : Except ε α} {m n : Nat}
    (h : r.upTo m = .ended t x) (hmn : m ≤ n) : r.upTo n = .ended t x :=
  Progress.ended_le (h ▸ r.mono_le hmn)

theorem Ends.unique {r : Run ω ε α} {t u : List ω} {x y : Except ε α} (h : r.Ends t x)
    (k : r.Ends u y) : t = u ∧ x = y := by
  obtain ⟨m, h⟩ := h
  obtain ⟨n, k⟩ := k
  have h' := upTo_of_ends h (Nat.le_max_left m n)
  have k' := upTo_of_ends k (Nat.le_max_right m n)
  exact Progress.ended_inj (h'.symm.trans k')

theorem Ends.leaves {r : Run ω ε α} {t u : List ω} {x : Except ε α} (h : r.Ends t x)
    (hu : u <+: t) : r.Leaves u := by
  obtain ⟨n, h⟩ := h
  exact ⟨n, by rw [h, Progress.trace_ended]; exact hu⟩

theorem ends_constant {t u : List ω} {x y : Except ε α} :
    (constant (.ended t x) : Run ω ε α).Ends u y ↔ u = t ∧ y = x := by
  constructor
  · rintro ⟨n, h⟩
    exact Progress.ended_inj h.symm
  · rintro ⟨rfl, rfl⟩
    exact ⟨0, rfl⟩

@[simp] theorem ends_pure {a : α} {t : List ω} {x : Except ε α} :
    (pure a : Run ω ε α).Ends t x ↔ t = [] ∧ x = .ok a := ends_constant

@[simp] theorem ends_raise {e : ε} {t : List ω} {x : Except ε α} :
    (raise e : Run ω ε α).Ends t x ↔ t = [] ∧ x = .error e := ends_constant

theorem ends_ofExcept {y : Except ε α} {t : List ω} {x : Except ε α} :
    (ofExcept y : Run ω ε α).Ends t x ↔ t = [] ∧ x = y := by
  cases y with
  | ok a => exact ends_pure
  | error e => exact ends_raise

@[simp] theorem ends_emit {m : ω} {t : List ω} {x : Except ε Unit} :
    (emit m : Run ω ε Unit).Ends t x ↔ t = [m] ∧ x = .ok () := ends_constant

@[simp] theorem not_ends_never {t : List ω} {x : Except ε α} : ¬(never : Run ω ε α).Ends t x := by
  rintro ⟨n, h⟩
  exact Progress.stalled_ne_ended (t := []) h

/-- A sequence ends when its first part raises, or when both parts end. -/
theorem ends_bind {r : Run ω ε α} {f : α → Run ω ε β} {t : List ω} {x : Except ε β} :
    (r >>= f).Ends t x ↔ (∃ e, r.Ends t (.error e) ∧ x = .error e) ∨
      ∃ a u v, r.Ends u (.ok a) ∧ (f a).Ends v x ∧ t = u ++ v := by
  constructor
  · rintro ⟨n, h⟩
    rw [bind_upTo] at h
    revert h
    generalize hp : r.upTo n = p
    cases p using Progress.cases_ending with
    | hd u a =>
      rw [Progress.done_andThen]
      intro h
      obtain ⟨v, hv, ht⟩ := Progress.prepend_eq_ended.1 h
      exact .inr ⟨a, u, v, ⟨n, hp⟩, ⟨n, hv⟩, ht⟩
    | hr u e =>
      rw [Progress.raised_andThen]
      intro h
      obtain ⟨rfl, rfl⟩ := Progress.ended_inj h
      exact .inl ⟨e, ⟨n, hp⟩, rfl⟩
    | hn u =>
      rw [Progress.stalled_andThen]
      exact fun h => absurd h Progress.stalled_ne_ended
  · rintro (⟨e, ⟨n, h⟩, rfl⟩ | ⟨a, u, v, ⟨m, h⟩, ⟨n, k⟩, rfl⟩)
    · refine ⟨n, ?_⟩
      rw [bind_upTo, h]
      exact Progress.raised_andThen t e _
    · refine ⟨max m n, ?_⟩
      rw [bind_upTo, upTo_of_ends h (Nat.le_max_left m n)]
      refine (Progress.done_andThen u a _).trans ?_
      rw [upTo_of_ends k (Nat.le_max_right m n), Progress.prepend_ended]

theorem ends_bind_ok {r : Run ω ε α} {f : α → Run ω ε β} {t : List ω} {b : β} :
    (r >>= f).Ends t (.ok b) ↔ ∃ a u v, r.Ends u (.ok a) ∧ (f a).Ends v (.ok b) ∧ t = u ++ v := by
  simp [ends_bind]

/-- A mark in front changes where an ending stands and nothing else about it. -/
theorem ends_emit_bind {m : ω} {r : Run ω ε α} {t : List ω} {x : Except ε α} :
    (emit m >>= fun _ => r).Ends t x ↔ ∃ u, r.Ends u x ∧ t = m :: u := by
  rw [ends_bind]
  constructor
  · rintro (⟨e, h, -⟩ | ⟨⟨⟩, u, v, h, hv, rfl⟩)
    · cases (ends_emit.1 h).2
    · obtain ⟨rfl, -⟩ := ends_emit.1 h
      exact ⟨v, hv, rfl⟩
  · rintro ⟨u, h, rfl⟩
    exact .inr ⟨(), [m], u, ends_emit.2 ⟨rfl, rfl⟩, h, rfl⟩

/-- A function without effects on the value of a run leaves the ending where it is. -/
theorem ends_bind_pure {r : Run ω ε α} {f : α → β} {t : List ω} {x : Except ε β} :
    (r >>= fun a => pure (f a)).Ends t x ↔ ∃ y, r.Ends t y ∧ x = y.map f := by
  rw [ends_bind]
  constructor
  · rintro (⟨e, h, rfl⟩ | ⟨a, u, v, h, hv, rfl⟩)
    · exact ⟨.error e, h, rfl⟩
    · obtain ⟨rfl, rfl⟩ := ends_pure.1 hv
      exact ⟨.ok a, by rwa [List.append_nil], rfl⟩
  · rintro ⟨y, h, rfl⟩
    cases y with
    | error e => exact .inl ⟨e, h, rfl⟩
    | ok a => exact .inr ⟨a, t, [], h, ends_pure.2 ⟨rfl, rfl⟩, (List.append_nil t).symm⟩

theorem ends_bind_pure_ok {r : Run ω ε α} {f : α → β} {t : List ω} {b : β} :
    (r >>= fun a => pure (f a)).Ends t (.ok b) ↔ ∃ a, r.Ends t (.ok a) ∧ b = f a := by
  rw [ends_bind_pure]
  constructor
  · rintro ⟨y, h, hy⟩
    cases y <;> cases hy
    exact ⟨_, h, rfl⟩
  · rintro ⟨a, h, rfl⟩
    exact ⟨.ok a, h, rfl⟩

theorem ends_bind_pure_error {r : Run ω ε α} {f : α → β} {t : List ω} {e : ε} :
    (r >>= fun a => pure (f a)).Ends t (.error e) ↔ r.Ends t (.error e) := by
  rw [ends_bind_pure]
  constructor
  · rintro ⟨y, h, hy⟩
    cases y <;> cases hy
    exact h
  · exact fun h => ⟨.error e, h, rfl⟩

/-- Such a function leaves the marks as they are, also when the run does not end. -/
theorem leaves_bind_pure {r : Run ω ε α} {f : α → β} {t : List ω} :
    (r >>= fun a => pure (f a)).Leaves t ↔ r.Leaves t := by
  refine exists_congr fun n => ?_
  rw [← Progress.trace_andThen_done f]
  rfl

/-! ## Doing the same -/

theorem Within.refl (r : Run ω ε α) : r.Within Eq r := fun n => ⟨n, Progress.le_refl _⟩

theorem Within.comp {R : α → β → Prop} {S : β → γ → Prop} {T : α → γ → Prop}
    (hT : ∀ a b c, R a b → S b c → T a c) {r : Run ω ε α} {s : Run ω ε β} {q : Run ω ε γ}
    (h : r.Within R s) (k : s.Within S q) : r.Within T q := fun n => by
  obtain ⟨m, hm⟩ := h n
  obtain ⟨l, hl⟩ := k m
  exact ⟨l, hm.comp hT hl⟩

theorem Within.trans {r s q : Run ω ε α} (h : r.Within Eq s) (k : s.Within Eq q) : r.Within Eq q :=
  h.comp (S := Eq) (T := Eq) (fun _ _ _ => Eq.trans) k

theorem Within.mono {R S : α → β → Prop} (hRS : ∀ a b, R a b → S a b) {r : Run ω ε α}
    {s : Run ω ε β} (h : r.Within R s) : r.Within S s := fun n =>
  let ⟨m, hm⟩ := h n
  ⟨m, hm.mono hRS⟩

/-- Within a larger budget the second run still does what it did. -/
theorem below_of_le {R : α → β → Prop} {p : Progress ω ε α} {s : Run ω ε β} {m n : Nat}
    (h : Progress.Below R p (s.upTo m)) (hmn : m ≤ n) : Progress.Below R p (s.upTo n) :=
  h.comp (fun _ _ _ hR (e : _ = _) => e ▸ hR) (s.mono_le hmn)

/-- **Sequencing respects what is done:** if all that the first part does is done by the other, and the
same holds of what follows on related values, then it holds of the whole. -/
theorem Within.bind {R : α → β → Prop} {S : γ → δ → Prop} {r : Run ω ε α} {s : Run ω ε β}
    {f : α → Run ω ε γ} {g : β → Run ω ε δ} (h : r.Within R s)
    (hf : ∀ a b, R a b → (f a).Within S (g b)) : (r >>= f).Within S (s >>= g) := fun n => by
  obtain ⟨m, hm⟩ := h n
  rw [bind_upTo]
  revert hm
  generalize r.upTo n = p
  cases p using Progress.cases_ending with
  | hn t =>
    intro hm
    refine ⟨m, ?_⟩
    rw [Progress.stalled_andThen]
    refine Progress.stalled_below (List.IsPrefix.trans ?_ (Progress.trace_le_andThen _ _))
    exact Progress.trace_stalled (ε := ε) (α := α) t ▸ hm.trace
  | hr t e =>
    intro hm
    refine ⟨m, ?_⟩
    rw [Progress.raised_andThen, bind_upTo, Progress.raised_below hm, Progress.raised_andThen]
    exact Progress.prepend_below t (.error e)
  | hd t a =>
    intro hm
    rw [Progress.done_andThen]
    obtain ⟨b, hq, hab⟩ := Progress.done_below hm
    obtain ⟨l, hl⟩ := hf a b hab n
    refine ⟨max m l, ?_⟩
    rw [bind_upTo, upTo_of_ends hq (Nat.le_max_left m l)]
    refine Progress.Below.comp (S := Eq) (fun _ _ _ hS e => e ▸ hS) ?_
      (Progress.le_of_eq (Progress.done_andThen t b _).symm)
    exact Progress.prepend_below t (below_of_le hl (Nat.le_max_right m l))

/-- A run does all that it does, with values that it can end with. -/
theorem Within.refl_ends (r : Run ω ε α) :
    r.Within (fun a b => a = b ∧ ∃ t, r.Ends t (.ok a)) r := by
  intro n
  refine ⟨n, ?_⟩
  generalize hp : r.upTo n = p
  cases p using Progress.cases_ending with
  | hd t a => exact Progress.prepend_below t (.value ⟨rfl, t, n, hp⟩)
  | hr t e => exact Progress.prepend_below t (.error e)
  | hn t => exact Progress.prepend_below t (.going _)

theorem Within.ends {r s : Run ω ε α} (h : r.Within Eq s) {t : List ω} {x : Except ε α}
    (k : r.Ends t x) : s.Ends t x := by
  obtain ⟨n, k⟩ := k
  obtain ⟨m, hm⟩ := h n
  exact ⟨m, Progress.ended_le (k ▸ hm)⟩

theorem Within.leaves {R : α → β → Prop} {r : Run ω ε α} {s : Run ω ε β} (h : r.Within R s)
    {t : List ω} (k : r.Leaves t) : s.Leaves t := by
  obtain ⟨n, k⟩ := k
  obtain ⟨m, hm⟩ := h n
  exact ⟨m, k.trans hm.trace⟩

namespace Agrees

theorem refl (r : Run ω ε α) : r.Agrees r := ⟨.refl r, .refl r⟩

theorem of_eq {r s : Run ω ε α} (h : r = s) : r.Agrees s := h ▸ refl r

theorem symm {r s : Run ω ε α} (h : r.Agrees s) : s.Agrees r := ⟨h.2, h.1⟩

theorem trans {r s q : Run ω ε α} (h : r.Agrees s) (k : s.Agrees q) : r.Agrees q :=
  ⟨h.1.trans k.1, k.2.trans h.2⟩

theorem bind {r s : Run ω ε α} {f g : α → Run ω ε β} (h : r.Agrees s)
    (hf : ∀ a, (f a).Agrees (g a)) : (r >>= f).Agrees (s >>= g) :=
  ⟨h.1.bind fun a _ e => e ▸ (hf a).1, h.2.bind fun a _ e => e ▸ (hf a).2⟩

/-- What follows a run matters only for the values that the run ends with. -/
theorem bind_of_ends {r : Run ω ε α} {f g : α → Run ω ε β}
    (h : ∀ t a, r.Ends t (.ok a) → (f a).Agrees (g a)) : (r >>= f).Agrees (r >>= g) := by
  constructor
  · refine (Within.refl_ends r).bind ?_
    rintro a _ ⟨rfl, t, ha⟩
    exact (h t a ha).1
  · refine (Within.refl_ends r).bind ?_
    rintro a _ ⟨rfl, t, ha⟩
    exact (h t a ha).2

/-- Runs that do the same have the same endings. -/
theorem ends_iff {r s : Run ω ε α} (h : r.Agrees s) {t : List ω} {x : Except ε α} :
    r.Ends t x ↔ s.Ends t x := ⟨h.1.ends, h.2.ends⟩

/-- Runs that do the same leave the same marks, also when they never end. -/
theorem leaves_iff {r s : Run ω ε α} (h : r.Agrees s) {t : List ω} : r.Leaves t ↔ s.Leaves t :=
  ⟨h.1.leaves, h.2.leaves⟩

end Agrees

/-- **Doing the same is having the same endings and leaving the same marks.** -/
theorem agrees_iff {r s : Run ω ε α} :
    r.Agrees s ↔ (∀ t x, r.Ends t x ↔ s.Ends t x) ∧ ∀ t, r.Leaves t ↔ s.Leaves t := by
  have within {r s : Run ω ε α} (he : ∀ t x, r.Ends t x → s.Ends t x)
      (hl : ∀ t, r.Leaves t → s.Leaves t) : r.Within Eq s := fun n => by
    generalize hp : r.upTo n = p
    cases p using Progress.cases_ending with
    | hd t a =>
      obtain ⟨m, hm⟩ := he t (.ok a) ⟨n, hp⟩
      exact ⟨m, Progress.le_of_eq hm.symm⟩
    | hr t e =>
      obtain ⟨m, hm⟩ := he t (.error e) ⟨n, hp⟩
      exact ⟨m, Progress.le_of_eq hm.symm⟩
    | hn t =>
      have ht : (r.upTo n).trace = t := by rw [hp, Progress.trace_stalled]
      obtain ⟨m, hm⟩ := hl t ⟨n, ht.symm ▸ List.prefix_refl t⟩
      exact ⟨m, Progress.stalled_below hm⟩
  constructor
  · exact fun h => ⟨fun _ _ => h.ends_iff, fun _ => h.leaves_iff⟩
  · rintro ⟨he, hl⟩
    exact ⟨within (fun t x => (he t x).1) fun t => (hl t).1,
      within (fun t x => (he t x).2) fun t => (hl t).2⟩

/-! ## Loops and self-reference -/

/-- **A loop is its body, then the loop again** unless there was a result. -/
theorem loop_agrees (body : σ → Run ω ε (σ ⊕ β)) (s : σ) :
    (loop body s).Agrees (body s >>= fun
      | .inl s => loop body s
      | .inr b => pure b) := by
  have step (n k : Nat) (hk : n ≤ k) : Progress.Below Eq (loopUpTo body n n s)
      (((body s).upTo n).andThen fun x => Run.upTo (match x with
        | .inl s => loop body s
        | .inr b => pure b) k) := by
    cases n with
    | zero => exact Progress.going_le _
    | succ n =>
      rw [loopUpTo_succ]
      refine Progress.andThen_le (Progress.le_refl _) fun x => ?_
      cases x with
      | inl s =>
        have hmore := loopUpTo_mono body (Nat.le_refl (n + 1)) (Nat.le_succ n) s
        exact Progress.le_trans hmore ((loop body s).mono_le hk)
      | inr b => exact Progress.le_refl _
  refine ⟨fun n => ⟨n, step n n (Nat.le_refl n)⟩, fun n => ⟨n + 1, ?_⟩⟩
  rw [bind_upTo, loop_upTo, loopUpTo_succ]
  refine Progress.andThen_le ((body s).mono n) fun x => ?_
  cases x with
  | inl s => exact loopUpTo_mono body (Nat.le_succ n) (Nat.le_refl n) s
  | inr b => exact Progress.le_refl _

/-- All that an unfolding does the family does. -/
theorem fixAt_within_fix {F : (ι → Run ω ε α) → ι → Run ω ε α} (hF : Monotonic F) (k : Nat)
    (i : ι) : (fixAt F k i).Within Eq (fix F hF i) := by
  intro n
  have hmore (m j : Nat) : (fixAt F k i).upTo m ≤ (fixAt F (k + j) i).upTo m := by
    induction j with
    | zero => exact Progress.le_refl _
    | succ j ih => exact Progress.le_trans ih (fixAt_below hF m (k + j) i)
  refine ⟨k + n, ?_⟩
  exact Progress.le_trans ((fixAt F k i).mono_le (Nat.le_add_left n k)) (hmore (k + n) n)

/-- **A family does what its description says** of the family itself. -/
theorem fix_agrees {F : (ι → Run ω ε α) → ι → Run ω ε α} (hF : Monotonic F) (i : ι) :
    (fix F hF i).Agrees (F (fix F hF) i) :=
  ⟨fun n => ⟨n, fix_unfold_below i n⟩, fun n => ⟨n + 1, fix_fold_below i n⟩⟩

end Descent.Run
