import Descent.Run.Ends
import Descent.Run.Relator

/-!
# Carrying out marks

Marks are what a run has to say. `r.translate k` is the run that does `k m` wherever `r` leaves the
mark `m`: it may leave other marks there or none, raise an error, or go on for ever.

* `bind_translate`, `loop_translate`, …: carrying out marks commutes with how runs are made.
* `ends_translate_iff`: where every mark stands for some marks, so do all of them in turn.
* `Ends.translate_agrees`: what becomes of a run that ends, mark by mark.
* `Relator.within k k'`: with its marks carried out, all that the first run does the second does.
* `Relator.agree k k'`: with their marks carried out, the two do the same.
-/

namespace Descent

variable {ω ω' ω₀ ε ι σ τ α β γ : Type}

namespace Progress

/-- Does `k m` in the place of every mark `m`. -/
def translate (k : ω → Progress ω' ε Unit) : Progress ω ε α → Progress ω' ε α
  | going => going
  | value a => value a
  | error e => error e
  | mark m rest => (k m).andThen fun _ => (rest ()).translate k

theorem translate_below {R : α → β → Prop} {k l : ω → Progress ω' ε Unit} (hk : ∀ m, k m ≤ l m)
    {p : Progress ω ε α} {q : Progress ω ε β} (h : Below R p q) :
    Below R (p.translate k) (q.translate l) := by
  induction h with
  | going => exact .going _
  | value h => exact .value h
  | error e => exact .error e
  | mark m _ ih => exact andThen_below (hk m) fun _ _ _ => ih

theorem andThen_translate (k : ω → Progress ω' ε Unit) (p : Progress ω ε α)
    (f : α → Progress ω ε β) :
    (p.andThen f).translate k = (p.translate k).andThen fun a => (f a).translate k := by
  induction p with
  | mark m rest ih =>
    rw [mark_andThen, translate, translate, andThen_andThen]
    exact congrArg (k m).andThen (funext fun _ => ih ())
  | _ => rfl

theorem translate_translate (k : ω → Progress ω' ε Unit) (l : ω' → Progress ω₀ ε Unit)
    (p : Progress ω ε α) :
    (p.translate k).translate l = p.translate fun m => (k m).translate l := by
  induction p with
  | mark m rest ih =>
    rw [translate, andThen_translate, translate]
    exact congrArg ((k m).translate l).andThen (funext fun _ => ih ())
  | _ => rfl

/-- A mark that stands for marks leaves them and nothing else. -/
theorem prepend_translate (w : ω → List ω') (t : List ω) (p : Progress ω ε α) :
    (prepend t p).translate (fun m => done (w m) ()) =
      prepend (t.flatMap w) (p.translate fun m => done (w m) ()) := by
  induction t with
  | nil => rfl
  | cons m t ih =>
    rw [prepend_cons, translate, done_andThen, ih, prepend_prepend, List.flatMap_cons]

end Progress

namespace Run

/-- **Does `k m` in the place of every mark `m`.** -/
def translate (k : ω → Run ω' ε Unit) (r : Run ω ε α) : Run ω' ε α :=
  ⟨fun n => (r.upTo n).translate fun m => (k m).upTo n,
    fun n => Progress.translate_below (fun m => (k m).mono n) (r.mono n)⟩

variable {k : ω → Run ω' ε Unit}

@[simp] theorem pure_translate (a : α) : (pure a : Run ω ε α).translate k = pure a := rfl

@[simp] theorem raise_translate (e : ε) : (raise e : Run ω ε α).translate k = raise e := rfl

@[simp] theorem never_translate : (never : Run ω ε α).translate k = never := rfl

@[simp] theorem emit_translate (m : ω) : (emit m : Run ω ε Unit).translate k = k m :=
  ext_upTo fun n => Progress.andThen_done ((k m).upTo n)

@[simp] theorem bind_translate (r : Run ω ε α) (f : α → Run ω ε β) :
    (r >>= f).translate k = r.translate k >>= fun a => (f a).translate k :=
  ext_upTo fun _ => Progress.andThen_translate ..

theorem translate_translate (l : ω' → Run ω₀ ε Unit) (r : Run ω ε α) :
    (r.translate k).translate l = r.translate fun m => (k m).translate l :=
  ext_upTo fun _ => Progress.translate_translate ..

@[simp] theorem translate_emit (r : Run ω ε α) : r.translate emit = r := by
  refine ext_upTo fun n => ?_
  change (r.upTo n).translate (fun m => .done [m] ()) = r.upTo n
  induction r.upTo n with
  | mark m rest ih => exact congrArg (Progress.mark m) (funext fun _ => ih ())
  | _ => rfl

/-- Carrying out the marks of a loop is carrying out those of each round. -/
theorem loop_translate (body : σ → Run ω ε (σ ⊕ β)) (s : σ) :
    (loop body s).translate k = loop (fun s => (body s).translate k) s := by
  refine ext_upTo fun n => ?_
  change (loopUpTo body n n s).translate (fun m => (k m).upTo n) = loopUpTo _ n n s
  suffices ∀ j s, (loopUpTo body n j s).translate (fun m => (k m).upTo n) =
      loopUpTo (fun s => (body s).translate k) n j s from this n s
  intro j
  induction j with
  | zero => exact fun _ => rfl
  | succ j ih =>
    intro s
    rw [loopUpTo_succ, loopUpTo_succ, Progress.andThen_translate]
    refine congrArg (Progress.andThen _) (funext fun x => ?_)
    cases x with
    | inl s => exact ih s
    | inr b => rfl

@[simp] theorem forM_translate (t : List ω) :
    (forM t emit : Run ω ε Unit).translate k = forM t k := by
  induction t with
  | nil => rfl
  | cons m t ih => simp only [List.forM_cons, bind_translate, emit_translate, ih]

/-- The run among marks of a second kind, of which it leaves none. -/
def lifted (r : Run ω ε α) : Run (ω ⊕ ω') ε α := r.translate fun m => emit (.inl m)

@[simp] theorem pure_lifted (a : α) :
    ((pure a : Run ω ε α).lifted : Run (ω ⊕ ω') ε α) = pure a := rfl

@[simp] theorem bind_lifted (r : Run ω ε α) (f : α → Run ω ε β) :
    ((r >>= f).lifted : Run (ω ⊕ ω') ε β) = r.lifted >>= fun a => (f a).lifted :=
  bind_translate r f

theorem lifted_translate (r : Run ω ε α) (l : ω ⊕ ω' → Run ω₀ ε Unit) :
    (r.lifted).translate l = r.translate fun m => l (.inl m) := by
  rw [lifted, translate_translate]
  exact congrArg r.translate (funext fun m => emit_translate (Sum.inl m))

/-! ## Doing the same -/

theorem Within.translate {R : α → β → Prop} {r : Run ω ε α} {s : Run ω ε β} (h : r.Within R s)
    (k : ω → Run ω' ε Unit) : (r.translate k).Within R (s.translate k) := by
  intro n
  obtain ⟨m, hm⟩ := h n
  refine ⟨max m n, ?_⟩
  have hs := below_of_le hm (Nat.le_max_left m n)
  exact Progress.translate_below (fun m' => (k m').mono_le (Nat.le_max_right m n)) hs

theorem Agrees.translate {r s : Run ω ε α} (h : r.Agrees s) (k : ω → Run ω' ε Unit) :
    (r.translate k).Agrees (s.translate k) := ⟨h.1.translate k, h.2.translate k⟩

/-- Runs that do the same may take each other's place. -/
theorem Agrees.within {R : α → β → Prop} {r r' : Run ω ε α} {s s' : Run ω ε β} (hr : r.Agrees r')
    (hs : s.Agrees s') (h : r'.Within R s') : r.Within R s := by
  have hleft : r.Within R s' := hr.1.comp (fun _ _ _ e hR => e ▸ hR) h
  exact hleft.comp (fun _ _ _ hR e => e ▸ hR) hs.2

theorem Within.pure {R : α → β → Prop} {a : α} {b : β} (h : R a b) :
    (Pure.pure a : Run ω ε α).Within R (Pure.pure b) := fun n => ⟨n, .value h⟩

theorem Within.raise (R : α → β → Prop) (e : ε) :
    (Run.raise e : Run ω ε α).Within R (Run.raise e) := fun n => ⟨n, .error e⟩

theorem never_within (R : α → β → Prop) (s : Run ω ε β) : (never : Run ω ε α).Within R s :=
  fun n => ⟨n, .going _⟩

/-- All that a loop does the other loop does, if this holds of the bodies. -/
theorem Within.loop {R : σ → τ → Prop} {S : β → γ → Prop} {body : σ → Run ω ε (σ ⊕ β)}
    {body' : τ → Run ω ε (τ ⊕ γ)} {s : σ} {t : τ}
    (h : ∀ s t, R s t → (body s).Within (Sum.LiftRel R S) (body' t)) (hs : R s t) :
    (loop body s).Within S (loop body' t) := by
  -- the rounds of the first loop are counted; the second loop is there in full
  suffices ∀ n j s t, R s t → (constant (loopUpTo body n j s)).Within S (Run.loop body' t) from
    fun n => this n n s t hs n
  intro n j
  induction j with
  | zero => exact fun _ _ _ => never_within S _
  | succ j ih =>
    intro s t hs
    have hloop : (Run.loop body' t).Agrees (body' t >>= Sum.elim (Run.loop body') Pure.pure) := by
      refine (loop_agrees body' t).trans (.of_eq (congrArg (body' t >>= ·) (funext fun y => ?_)))
      cases y <;> rfl
    have hround : (body s >>= Sum.elim (fun s => constant (loopUpTo body n j s)) Pure.pure).Within S
        (body' t >>= Sum.elim (Run.loop body') Pure.pure) := by
      refine (h s t hs).bind fun x y hxy => ?_
      cases hxy with
      | inl hst => exact ih _ _ hst
      | inr hb => exact .pure hb
    have hup : (body s >>= Sum.elim (fun s => constant (loopUpTo body n j s)) Pure.pure).upTo n =
        loopUpTo body n (j + 1) s := by
      rw [loopUpTo_succ, bind_upTo]
      refine congrArg (Progress.andThen _) (funext fun x => ?_)
      cases x <;> rfl
    intro _
    obtain ⟨m, hm⟩ := hround n
    obtain ⟨l, hl⟩ := hloop.2 m
    rw [hup] at hm
    exact ⟨l, hm.comp (S := Eq) (fun _ _ _ hS e => e ▸ hS) hl⟩

/-- **Two families do the same** if all of their unfoldings do, with the marks carried out. -/
theorem fix_translate_agrees {ι ι' : Type} {F : (ι → Run ω ε α) → ι → Run ω ε α}
    {F' : (ι' → Run ω' ε α) → ι' → Run ω' ε α} (hF : Monotonic F) (hF' : Monotonic F')
    {k : ω → Run ω₀ ε Unit} {k' : ω' → Run ω₀ ε Unit} {i : ι} {i' : ι'}
    (h : ∀ n, ((fixAt F n i).translate k).Agrees ((fixAt F' n i').translate k')) :
    ((fix F hF i).translate k).Agrees ((fix F' hF' i').translate k') :=
  -- what is seen of a family within a budget is what is seen of an unfolding
  ⟨fun n => ((h n).1.trans ((fixAt_within_fix hF' n i').translate k')) n,
    fun n => ((h n).2.trans ((fixAt_within_fix hF n i).translate k)) n⟩

/-! ## What becomes of an ending -/

theorem upTo_forM_emit (t : List ω) (n : Nat) :
    (forM t emit : Run ω ε Unit).upTo n = .done t () := by
  induction t with
  | nil => rfl
  | cons m t ih =>
    rw [List.forM_cons, bind_upTo, emit_upTo, Progress.done_andThen, ih, Progress.prepend_done]
    rfl

/-- Marks and then an ending, as a run. -/
theorem upTo_forM_ofExcept (t : List ω) (x : Except ε α) (n : Nat) :
    (forM t emit >>= fun _ => ofExcept x : Run ω ε α).upTo n = .ended t x := by
  rw [bind_upTo, upTo_forM_emit, Progress.done_andThen]
  cases x with
  | ok a => exact (Progress.prepend_done t [] a).trans (by rw [List.append_nil]; rfl)
  | error e => exact (Progress.prepend_raised t [] e).trans (by rw [List.append_nil]; rfl)

theorem ends_forM_ofExcept (t : List ω) (x : Except ε α) :
    (forM t emit >>= fun _ => ofExcept x : Run ω ε α).Ends t x := ⟨0, upTo_forM_ofExcept t x 0⟩

theorem ends_forM_emit {t u : List ω} {x : Except ε Unit} :
    (forM t emit : Run ω ε Unit).Ends u x ↔ u = t ∧ x = .ok () := by
  constructor
  · intro h
    exact h.unique ⟨0, upTo_forM_emit t 0⟩
  · rintro ⟨rfl, rfl⟩
    exact ⟨0, upTo_forM_emit u 0⟩

/-- Marks in front change where an ending stands and nothing else about it. -/
theorem ends_forM_bind {t u : List ω} {r : Run ω ε α} {x : Except ε α} :
    (forM t emit >>= fun _ => r).Ends u x ↔ ∃ v, r.Ends v x ∧ u = t ++ v := by
  rw [ends_bind]
  constructor
  · rintro (⟨e, h, -⟩ | ⟨⟨⟩, u, v, h, hv, rfl⟩)
    · cases (ends_forM_emit.1 h).2
    · obtain ⟨rfl, -⟩ := ends_forM_emit.1 h
      exact ⟨v, hv, rfl⟩
  · rintro ⟨v, hv, rfl⟩
    exact .inr ⟨(), t, v, ends_forM_emit.2 ⟨rfl, rfl⟩, hv, rfl⟩

/-- A run that ends is its marks and then its ending. -/
theorem Ends.agrees {r : Run ω ε α} {t : List ω} {x : Except ε α} (h : r.Ends t x) :
    r.Agrees (forM t emit >>= fun _ => ofExcept x) := by
  obtain ⟨m, hm⟩ := h
  constructor
  · intro n
    refine ⟨0, ?_⟩
    rw [upTo_forM_ofExcept, ← upTo_of_ends hm (Nat.le_max_left m n)]
    exact r.mono_le (Nat.le_max_right m n)
  · intro n
    refine ⟨m, ?_⟩
    rw [upTo_forM_ofExcept, hm]
    exact Progress.le_refl _

/-- A run that ends with a value and without marks is that value. -/
theorem Ends.agrees_pure {r : Run ω ε α} {a : α} (h : r.Ends [] (.ok a)) : r.Agrees (pure a) :=
  h.agrees.trans (.of_eq (pure_bind ..))

/-- The marks a run leaves first of all, and then silence. -/
theorem upTo_forM_never (t : List ω) (n : Nat) :
    (forM t emit >>= fun _ => never : Run ω ε α).upTo n = .stalled t := by
  rw [bind_upTo, upTo_forM_emit, Progress.done_andThen]
  rfl

theorem Leaves.within {R : β → α → Prop} {r : Run ω ε α} {t : List ω} (h : r.Leaves t) :
    (forM t emit >>= fun _ => never : Run ω ε β).Within R r := by
  obtain ⟨m, hm⟩ := h
  intro n
  refine ⟨m, ?_⟩
  rw [upTo_forM_never]
  exact Progress.stalled_below hm

theorem leaves_forM_never (t : List ω) :
    (forM t emit >>= fun _ => never : Run ω ε α).Leaves t := by
  have ht : ((forM t emit >>= fun _ => never : Run ω ε α).upTo 0).trace = t := by
    rw [upTo_forM_never, Progress.trace_stalled]
  exact ⟨0, ht.symm ▸ List.prefix_refl t⟩

/-- What a run leaves first of all stands at the head of what it leaves in all. -/
theorem Leaves.isPrefix {r : Run ω ε α} {t u : List ω} {x : Except ε α} (h : r.Leaves u)
    (k : r.Ends t x) : u <+: t := by
  obtain ⟨m, h⟩ := h
  obtain ⟨n, k⟩ := k
  have ht : (r.upTo (max m n)).trace = t := by
    rw [upTo_of_ends k (Nat.le_max_right m n), Progress.trace_ended]
  exact ht ▸ h.trans (r.mono_le (Nat.le_max_left m n)).trace

/-- **What becomes of a run that ends:** its marks are carried out one after the other, and then it
ends as before. -/
theorem Ends.translate_agrees {r : Run ω ε α} {t : List ω} {x : Except ε α} (h : r.Ends t x)
    (k : ω → Run ω' ε Unit) : (r.translate k).Agrees (forM t k >>= fun _ => ofExcept x) := by
  have htail : (ofExcept x : Run ω ε α).translate k = ofExcept x := by cases x <;> rfl
  have h := h.agrees.translate k
  rwa [bind_translate, forM_translate, htail] at h

/-- **Marks that stand for marks:** where every mark is carried out by leaving others, the run ends
as before, with what all its marks stand for. -/
theorem ends_translate_iff {w : ω → List ω'} {r : Run ω ε α} {u : List ω'} {x : Except ε α} :
    (r.translate fun m => forM (w m) emit).Ends u x ↔ ∃ t, r.Ends t x ∧ u = t.flatMap w := by
  have hends {n : Nat} {t : List ω} {y : Except ε α} (h : r.upTo n = .ended t y) :
      (r.translate fun m => forM (w m) emit).upTo n = .ended (t.flatMap w) y := by
    change (r.upTo n).translate (fun m => (forM (w m) emit : Run ω' ε Unit).upTo n) = _
    simp only [upTo_forM_emit, h]
    cases y with
    | ok a => exact Progress.prepend_translate w t (.value a)
    | error e => exact Progress.prepend_translate w t (.error e)
  constructor
  · rintro ⟨n, h⟩
    generalize hp : r.upTo n = p
    have hended {t : List ω} {y : Except ε α} (hp : r.upTo n = .ended t y) :
        ∃ t, r.Ends t x ∧ u = t.flatMap w := by
      obtain ⟨rfl, rfl⟩ := Progress.ended_inj (h.symm.trans (hends hp))
      exact ⟨t, ⟨n, hp⟩, rfl⟩
    cases p using Progress.cases_ending with
    | hd t a => exact hended hp
    | hr t e => exact hended hp
    | hn t =>
      change (r.upTo n).translate (fun m => (forM (w m) emit : Run ω' ε Unit).upTo n) = _ at h
      simp only [upTo_forM_emit, hp] at h
      exact absurd ((Progress.prepend_translate w t .going).symm.trans h) Progress.stalled_ne_ended
  · rintro ⟨t, ⟨n, h⟩, rfl⟩
    exact ⟨n, hends h⟩

/-- Among marks of a second kind a run ends as before. -/
theorem ends_lifted {r : Run ω ε α} {t : List (ω ⊕ ω')} {x : Except ε α} :
    (r.lifted : Run (ω ⊕ ω') ε α).Ends t x ↔ ∃ u, r.Ends u x ∧ t = u.map .inl := by
  have hmarks : (fun m : ω => (emit (.inl m) : Run (ω ⊕ ω') ε Unit)) =
      fun m => forM [Sum.inl m] emit := by
    funext m
    rw [List.forM_cons, List.forM_nil]
    exact (bind_pure _).symm
  rw [lifted, hmarks, ends_translate_iff]
  simp only [List.map_eq_flatMap]

/-! ## Relations between runs -/

namespace Relator

/-- **With its marks carried out, all that the first run does the second does too.** -/
def within (k : ω → Run ω₀ ε Unit) (k' : ω' → Run ω₀ ε Unit) : Relator ω ω' ε where
  Rel R r s := (r.translate k).Within R (s.translate k')
  pure h := .pure h
  raise R e := .raise R e
  bind h hf := by
    rw [bind_translate, bind_translate]
    exact h.bind hf
  loop h hs := by
    rw [loop_translate, loop_translate]
    exact .loop h hs

/-- **With their marks carried out, the two runs do the same.** -/
def agree (k : ω → Run ω₀ ε Unit) (k' : ω' → Run ω₀ ε Unit) : Relator ω ω' ε :=
  (within k k').both (within k' k).flip

theorem agree_eq {k : ω → Run ω₀ ε Unit} {k' : ω' → Run ω₀ ε Unit} {r : Run ω ε α}
    {s : Run ω' ε α} : (agree k k').Rel Eq r s ↔ (r.translate k).Agrees (s.translate k') := by
  have hswap : (fun b a : α => a = b) = Eq := funext fun b => funext fun a => propext eq_comm
  change _ ∧ (s.translate k').Within (fun b a => a = b) (r.translate k) ↔ _
  rw [hswap]
  exact Iff.rfl

end Relator

end Run

end Descent
