/-!
# Progress

What can be seen of a computation that has been given a limited budget: the marks it leaves, one
after the other, and how it ends if it ends. What follows a mark is worked out only when it is asked
for, so whoever stops looking at a mark stops the computation there.

* `done t a`, `raised t e` and `stalled t`: the three kinds of progress, after the marks `t`
  (`cases_ending`).
* `Progress.Below R`: the second progress is a later view of the first, with values related by `R`.
  A view that stops may go on with marks and an ending; an ending is final.
* `p ≤ q` is `Below` for equal values; `le_refl`, `le_trans`, `le_antisymm`.
* `andThen_below`: sequencing respects `Below`.
-/

namespace Descent

/-- The marks of a computation and its ending, as far as a budget shows them. -/
inductive Progress (ω ε α : Type) where
  /-- Nothing more is seen within the budget. -/
  | going
  /-- It ends with a value. -/
  | value (a : α)
  /-- It ends with an error. -/
  | error (e : ε)
  /-- It leaves a mark and goes on. -/
  | mark (m : ω) (rest : Unit → Progress ω ε α)

namespace Progress

variable {ω ε α β γ δ : Type}

/-- The marks seen, oldest first. -/
def trace : Progress ω ε α → List ω
  | mark m rest => m :: (rest ()).trace
  | _ => []

/-- The ending, if it is seen. -/
def ending : Progress ω ε α → Option (Except ε α)
  | going => none
  | value a => some (.ok a)
  | error e => some (.error e)
  | mark _ rest => (rest ()).ending

/-- Marks left earlier go in front. -/
def prepend (t : List ω) (p : Progress ω ε α) : Progress ω ε α :=
  t.foldr (fun m p => mark m fun _ => p) p

/-- The marks `t` and then an ending. -/
def ended (t : List ω) : Except ε α → Progress ω ε α
  | .ok a => prepend t (value a)
  | .error e => prepend t (error e)

/-- The marks `t` and then a value. -/
def done (t : List ω) (a : α) : Progress ω ε α := ended t (.ok a)

/-- The marks `t` and then an error. -/
def raised (t : List ω) (e : ε) : Progress ω ε α := ended t (.error e)

/-- The marks `t`, and then nothing more is seen. -/
def stalled (t : List ω) : Progress ω ε α := prepend t going

/-- Goes on with `k` in place of the value. -/
def graft : Progress ω ε α → (α → Progress ω ε β) → Progress ω ε β
  | going, _ => going
  | value a, k => k a
  | error e, _ => error e
  | mark m rest, k => mark m fun _ => (rest ()).graft k

/-- Goes on with `k` in place of the value. This is `graft` with its first step taken at once, which
keeps long silent loops flat. -/
@[inline] def andThen (p : Progress ω ε α) (k : α → Progress ω ε β) : Progress ω ε β :=
  match p with
  | going => going
  | value a => k a
  | error e => error e
  | mark m rest => mark m fun _ => (rest ()).graft k

theorem andThen_eq_graft (p : Progress ω ε α) (k : α → Progress ω ε β) :
    p.andThen k = p.graft k := by cases p <;> rfl

/-! ## Marks in front -/

@[simp] theorem prepend_nil (p : Progress ω ε α) : prepend [] p = p := rfl

theorem prepend_cons (m : ω) (t : List ω) (p : Progress ω ε α) :
    prepend (m :: t) p = mark m fun _ => prepend t p := rfl

@[simp] theorem prepend_prepend (t u : List ω) (p : Progress ω ε α) :
    prepend t (prepend u p) = prepend (t ++ u) p := (List.foldr_append ..).symm

@[simp] theorem prepend_ended (t u : List ω) (x : Except ε α) :
    prepend t (ended u x) = ended (t ++ u) x := by cases x <;> exact prepend_prepend ..

@[simp] theorem prepend_done (t u : List ω) (a : α) :
    prepend t (done u a : Progress ω ε α) = done (t ++ u) a := prepend_ended ..

@[simp] theorem prepend_raised (t u : List ω) (e : ε) :
    prepend t (raised u e : Progress ω ε α) = raised (t ++ u) e := prepend_ended ..

@[simp] theorem prepend_stalled (t u : List ω) :
    prepend t (stalled u : Progress ω ε α) = stalled (t ++ u) := prepend_prepend ..

@[simp] theorem trace_prepend (t : List ω) (p : Progress ω ε α) :
    (prepend t p).trace = t ++ p.trace := by
  induction t with
  | nil => rfl
  | cons m t ih => exact congrArg (m :: ·) ih

@[simp] theorem ending_prepend (t : List ω) (p : Progress ω ε α) :
    (prepend t p).ending = p.ending := by
  induction t with
  | nil => rfl
  | cons m t ih => exact ih

@[simp] theorem trace_ended (t : List ω) (x : Except ε α) : (ended t x).trace = t := by
  cases x <;> simp [ended, trace]

@[simp] theorem ending_ended (t : List ω) (x : Except ε α) : (ended t x).ending = some x := by
  cases x <;> simp [ended, ending]

@[simp] theorem trace_stalled (t : List ω) : (stalled t : Progress ω ε α).trace = t := by
  simp [stalled, trace]

@[simp] theorem ending_stalled (t : List ω) : (stalled t : Progress ω ε α).ending = none := by
  simp [stalled, ending]

theorem ended_inj {t u : List ω} {x y : Except ε α} (h : ended t x = ended u y) :
    t = u ∧ x = y := by
  have ht := congrArg trace h
  have hx := congrArg ending h
  simp only [trace_ended, ending_ended, Option.some.injEq] at ht hx
  exact ⟨ht, hx⟩

theorem stalled_ne_ended {t u : List ω} {x : Except ε α} : stalled t ≠ ended u x := by
  intro h
  have := congrArg ending h
  simp at this

/-- Every progress has a value, has raised, or stops. -/
theorem cases_ending {P : Progress ω ε α → Prop} (hd : ∀ t a, P (done t a))
    (hr : ∀ t e, P (raised t e)) (hn : ∀ t, P (stalled t)) (p : Progress ω ε α) : P p := by
  suffices p = prepend p.trace (match p.ending with
      | none => going
      | some (.ok a) => value a
      | some (.error e) => error e) by
    generalize p.trace = t at this
    generalize p.ending = x at this
    subst this
    match x with
    | none => exact hn t
    | some (.ok a) => exact hd t a
    | some (.error e) => exact hr t e
  induction p with
  | mark m rest ih => exact congrArg (mark m) (funext fun _ => ih ())
  | _ => rfl

/-- Marks in front change where an ending stands and nothing else about it. -/
theorem prepend_eq_ended {u t : List ω} {p : Progress ω ε α} {x : Except ε α} :
    prepend u p = ended t x ↔ ∃ v, p = ended v x ∧ t = u ++ v := by
  constructor
  · intro h
    have ended_of {w : List ω} {y : Except ε α} (h : prepend u (ended w y) = ended t x) :
        ∃ v, ended w y = ended v x ∧ t = u ++ v := by
      obtain ⟨rfl, rfl⟩ := ended_inj ((prepend_ended u w y).symm.trans h)
      exact ⟨w, rfl, rfl⟩
    cases p using cases_ending with
    | hd w a => exact ended_of h
    | hr w e => exact ended_of h
    | hn w => exact absurd ((prepend_stalled u w).symm.trans h) stalled_ne_ended
  · rintro ⟨v, rfl, rfl⟩
    exact prepend_ended u v x

theorem mark_eq_ended {m : ω} {rest : Unit → Progress ω ε α} {t : List ω} {x : Except ε α} :
    mark m rest = ended t x ↔ ∃ v, rest () = ended v x ∧ t = m :: v :=
  prepend_eq_ended (u := [m]) (p := rest ())

/-! ## Sequencing -/

theorem mark_andThen (m : ω) (rest : Unit → Progress ω ε α) (k : α → Progress ω ε β) :
    (mark m rest).andThen k = mark m fun _ => (rest ()).andThen k :=
  congrArg (mark m) (funext fun _ => (andThen_eq_graft ..).symm)

theorem prepend_andThen (t : List ω) (p : Progress ω ε α) (k : α → Progress ω ε β) :
    (prepend t p).andThen k = prepend t (p.andThen k) := by
  induction t with
  | nil => rfl
  | cons m t ih => rw [prepend_cons, prepend_cons, mark_andThen, ih]

@[simp] theorem done_andThen (t : List ω) (a : α) (k : α → Progress ω ε β) :
    (done t a).andThen k = prepend t (k a) := prepend_andThen t (value a) k

@[simp] theorem raised_andThen (t : List ω) (e : ε) (k : α → Progress ω ε β) :
    (raised t e).andThen k = raised t e := prepend_andThen t (error e) k

@[simp] theorem stalled_andThen (t : List ω) (k : α → Progress ω ε β) :
    (stalled t).andThen k = stalled t := prepend_andThen t going k

@[simp] theorem andThen_done (p : Progress ω ε α) : p.andThen (done []) = p := by
  induction p using cases_ending <;> simp

theorem andThen_andThen (p : Progress ω ε α) (k : α → Progress ω ε β) (l : β → Progress ω ε γ) :
    (p.andThen k).andThen l = p.andThen fun a => (k a).andThen l := by
  induction p using cases_ending with
  | hd t a => simp [prepend_andThen]
  | hr t e => simp
  | hn t => simp

/-! ## Later views -/

/-- **Later views.** Where a view stops there may be more to see; what is seen stays, up to `R` on
the value. -/
inductive Below (R : α → β → Prop) : Progress ω ε α → Progress ω ε β → Prop
  | going (q : Progress ω ε β) : Below R going q
  | value {a : α} {b : β} (h : R a b) : Below R (value a) (value b)
  | error (e : ε) : Below R (error e) (error e)
  | mark (m : ω) {p : Unit → Progress ω ε α} {q : Unit → Progress ω ε β}
      (h : Below R (p ()) (q ())) : Below R (mark m p) (mark m q)

instance : LE (Progress ω ε α) := ⟨Below Eq⟩

theorem Below.refl {R : α → α → Prop} (hR : ∀ a, R a a) (p : Progress ω ε α) : Below R p p := by
  induction p with
  | going => exact .going _
  | value a => exact .value (hR a)
  | error e => exact .error e
  | mark m _ ih => exact .mark m (ih ())

theorem Below.comp {R : α → β → Prop} {S : β → γ → Prop} {T : α → γ → Prop}
    (hT : ∀ a b c, R a b → S b c → T a c) {p : Progress ω ε α} {q : Progress ω ε β}
    {r : Progress ω ε γ} (h : Below R p q) (k : Below S q r) : Below T p r := by
  induction h generalizing r with
  | going => exact .going r
  | value h => cases k with | value k => exact .value (hT _ _ _ h k)
  | error e => cases k; exact .error e
  | mark m _ ih => cases k with | mark _ k => exact .mark m (ih k)

theorem Below.mono {R S : α → β → Prop} (hRS : ∀ a b, R a b → S a b) {p : Progress ω ε α}
    {q : Progress ω ε β} (h : Below R p q) : Below S p q := by
  induction h with
  | going q => exact .going q
  | value h => exact .value (hRS _ _ h)
  | error e => exact .error e
  | mark m _ ih => exact .mark m ih

/-- The marks seen stay. -/
theorem Below.trace {R : α → β → Prop} {p : Progress ω ε α} {q : Progress ω ε β}
    (h : Below R p q) : p.trace <+: q.trace := by
  induction h with
  | going | value | error => exact List.nil_prefix
  | mark m _ ih => exact List.cons_prefix_cons.2 ⟨rfl, ih⟩

theorem le_refl (p : Progress ω ε α) : p ≤ p := Below.refl (fun _ => rfl) p

theorem le_of_eq {p q : Progress ω ε α} (h : p = q) : p ≤ q := h ▸ le_refl p

theorem le_trans {p q r : Progress ω ε α} (h : p ≤ q) (k : q ≤ r) : p ≤ r :=
  Below.comp (S := Eq) (T := Eq) (fun _ _ _ => Eq.trans) h k

theorem le_antisymm {p q : Progress ω ε α} (h : p ≤ q) (k : q ≤ p) : p = q := by
  induction h with
  | going => cases k; rfl
  | value h => rw [h]
  | error => rfl
  | mark m _ ih =>
    cases k with
    | mark _ k => exact congrArg (Progress.mark m) (funext fun _ => ih k)

theorem going_le (p : Progress ω ε α) : going ≤ p := .going p

theorem prepend_below {R : α → β → Prop} (t : List ω) {p : Progress ω ε α} {q : Progress ω ε β}
    (h : Below R p q) : Below R (prepend t p) (prepend t q) := by
  induction t with
  | nil => exact h
  | cons m t ih => exact .mark m ih

/-- A view that stops after some marks is earlier than any that has these marks. -/
theorem stalled_below {R : α → β → Prop} {t : List ω} {q : Progress ω ε β} (h : t <+: q.trace) :
    Below R (stalled t) q := by
  induction t generalizing q with
  | nil => exact .going q
  | cons m t ih =>
    cases q with
    | mark m' rest =>
      obtain ⟨rfl, ht⟩ := List.cons_prefix_cons.1 h
      exact .mark m (ih ht)
    | _ => exact absurd (List.prefix_nil.1 h) (List.cons_ne_nil m t)

/-- An ending is final. -/
theorem done_below {R : α → β → Prop} {t : List ω} {a : α} {q : Progress ω ε β}
    (h : Below R (done t a) q) : ∃ b, q = done t b ∧ R a b := by
  induction t generalizing q with
  | nil => cases h with | @value _ b h => exact ⟨b, rfl, h⟩
  | cons m t ih =>
    cases h with
    | @mark _ _ q h =>
      obtain ⟨b, hb, hR⟩ := ih h
      exact ⟨b, congrArg (Progress.mark m) (funext fun _ => hb), hR⟩

theorem raised_below {R : α → β → Prop} {t : List ω} {e : ε} {q : Progress ω ε β}
    (h : Below R (raised t e) q) : q = raised t e := by
  induction t generalizing q with
  | nil => cases h; rfl
  | cons m t ih =>
    cases h with
    | mark _ h => exact congrArg (Progress.mark m) (funext fun _ => ih h)

theorem ended_le {t : List ω} {x : Except ε α} {q : Progress ω ε α} (h : ended t x ≤ q) :
    q = ended t x := by
  cases x with
  | ok a =>
    obtain ⟨b, hq, rfl⟩ := done_below h
    exact hq
  | error e => exact raised_below h

/-- **Sequencing respects later views.** -/
theorem andThen_below {R : α → β → Prop} {S : γ → δ → Prop} {p : Progress ω ε α}
    {q : Progress ω ε β} {k : α → Progress ω ε γ} {l : β → Progress ω ε δ} (h : Below R p q)
    (hk : ∀ a b, R a b → Below S (k a) (l b)) : Below S (p.andThen k) (q.andThen l) := by
  induction h with
  | going => exact .going _
  | value h => exact hk _ _ h
  | error e => exact .error e
  | mark m _ ih => rw [mark_andThen, mark_andThen]; exact .mark m ih

theorem andThen_le {p q : Progress ω ε α} {k l : α → Progress ω ε β} (h : p ≤ q)
    (hk : ∀ a, k a ≤ l a) : p.andThen k ≤ q.andThen l :=
  andThen_below h fun a _ e => e ▸ hk a

theorem trace_le_andThen (p : Progress ω ε α) (k : α → Progress ω ε β) :
    p.trace <+: (p.andThen k).trace := by
  induction p with
  | mark m rest ih =>
    rw [mark_andThen]
    exact List.cons_prefix_cons.2 ⟨rfl, ih ()⟩
  | _ => exact List.nil_prefix

/-- What is made of a value leaves the marks as they are. -/
theorem trace_andThen_done (f : α → β) (p : Progress ω ε α) :
    (p.andThen fun a => done [] (f a)).trace = p.trace := by
  induction p with
  | mark m rest ih =>
    rw [mark_andThen]
    exact congrArg (m :: ·) (ih ())
  | _ => rfl

end Progress

end Descent
