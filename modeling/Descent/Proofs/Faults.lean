import Descent.Proofs.Programs
import Descent.Parser.Whole

/-!
# Errors are never caught

Two programs are compared whose calls do the same, but for some that raise an error in the second
program, after a part of the marks they leave in the first. The first of these calls that is made is
the end of the second program, however deep in choices, loops and references this happens. A hole in
a recipe is a `custom` function, which may do anything with the text, and to run the hole on a text
is to make the call that applies the function to it.

* `Host.traced`: the program that announces every call before it is made. `Host.own` are the marks
  of the program itself among those of its traced run.
* `Host.FailsOn T left e h h'`: in `h'` the calls `T` leave the marks `left` and raise `e`.
* `traced_agree`: announcing calls changes nothing else.
* `cut_agree`: the second program is the first, cut at the first call that fails.
* `parse_of_failsOn`: **an error only truncates a run.**
-/

namespace Descent.Host

variable {ω ε κ : Type}

/-! ## Calls announced -/

/-- A mark of the program itself, among the announcements of calls. -/
def lift (r : Run ω ε κ) : Run (ω ⊕ Call κ) ε κ := r.translate fun m => Run.emit (.inl m)

/-- The call, announced. -/
def announce (h : Host ω ε κ) (a : Call κ) : Run (ω ⊕ Call κ) ε κ :=
  Run.emit (.inr a) >>= fun _ => lift (h.call a)

/-- **The same program, which announces every call before it is made.** -/
def traced (h : Host ω ε κ) : Host (ω ⊕ Call κ) ε κ where
  toCarrier := h.toCarrier
  apply f x := h.announce (.apply f x)
  force x := h.announce (.force x)

theorem traced_call (h : Host ω ε κ) (a : Call κ) : h.traced.call a = h.announce a := by
  cases a <;> rfl

/-- What stands for a mark when the announcements are left out. -/
def unannounced : ω ⊕ Call κ → List ω
  | .inl m => [m]
  | .inr _ => []

/-- The marks of the program itself. -/
def own (t : List (ω ⊕ Call κ)) : List ω := t.flatMap unannounced

theorem own_append (t u : List (ω ⊕ Call κ)) : own (t ++ u) = own t ++ own u :=
  List.flatMap_append ..

theorem own_inl (t : List ω) : own (t.map Sum.inl : List (ω ⊕ Call κ)) = t := by
  induction t with
  | nil => rfl
  | cons m t ih => exact congrArg (m :: ·) ih

theorem lift_translate (r : Run ω ε κ) (k : ω ⊕ Call κ → Run ω ε Unit)
    (hk : ∀ m, k (.inl m) = Run.emit m) : (lift r).translate k = r := by
  have hk : (fun m => (Run.emit (Sum.inl m)).translate k) = Run.emit := by
    funext m
    rw [Run.emit_translate, hk]
  rw [lift, Run.translate_translate, hk, Run.translate_emit]

/-- **Announcing the calls changes nothing else.** -/
theorem traced_agree (h : Host ω ε κ) (r : Recipe κ) (s : Text) :
    (((h.traced.parse r).run s).translate fun m => forM (unannounced m) Run.emit).Agrees
      ((h.parse r).run s) := by
  have hh : Related (.agree (fun m => forM (unannounced m) Run.emit) Run.emit) .none
      h.traced h := by
    refine .of_calls rfl fun a => Run.Relator.agree_eq.2 (.of_eq ?_)
    rw [traced_call, announce, Run.bind_translate, Run.emit_translate, Run.translate_emit]
    refine (pure_bind () _).trans (lift_translate _ _ fun m => ?_)
    exact bind_pure (Run.emit m)
  have hagree := parse_agree hh (.refl r) s
  rwa [Run.translate_emit] at hagree

/-- A program does what its traced run says. -/
theorem ends_traced_iff {h : Host ω ε κ} {r : Recipe κ} {s : Text} {t : List ω}
    {x : Except ε (Outcome κ)} : ((h.parse r).run s).Ends t x ↔
      ∃ u, ((h.traced.parse r).run s).Ends u x ∧ t = own u := by
  rw [← (traced_agree h r s).ends_iff, Run.ends_translate_iff]
  rfl

/-! ## The first of some calls -/

/-- None of the calls `T` is among those announced. -/
def Calm (T : Call κ → Prop) (t : List (ω ⊕ Call κ)) : Prop := ∀ a, .inr a ∈ t → ¬T a

theorem Calm.tail {T : Call κ → Prop} {m : ω ⊕ Call κ} {t : List (ω ⊕ Call κ)}
    (ht : Calm T (m :: t)) : Calm T t :=
  fun a ha => ht a (List.mem_cons_of_mem m ha)

/-- If any of the calls is announced, one of them is the first. -/
theorem calm_or_first (T : Call κ → Prop) (t : List (ω ⊕ Call κ)) :
    Calm T t ∨ ∃ before a after, t = before ++ .inr a :: after ∧ T a ∧ Calm T before := by
  have nothing : Calm T ([] : List (ω ⊕ Call κ)) := fun a ha => (by cases ha)
  induction t with
  | nil => exact .inl nothing
  | cons m t ih =>
    have cons_calm {u : List (ω ⊕ Call κ)} (hm : ∀ a, m = .inr a → ¬T a) (hu : Calm T u) :
        Calm T (m :: u) := by
      intro a ha
      rcases List.mem_cons.1 ha with hma | hau
      · exact hm a hma.symm
      · exact hu a hau
    by_cases hm : ∀ a, m = .inr a → ¬T a
    · rcases ih with ht | ⟨before, a, after, rfl, ha, hb⟩
      · exact .inl (cons_calm hm ht)
      · exact .inr ⟨m :: before, a, after, rfl, ha, cons_calm hm hb⟩
    · -- the call is announced right here
      obtain ⟨a, hma⟩ := Classical.not_forall.1 hm
      obtain ⟨rfl, ha⟩ := Classical.not_imp.1 hma
      exact .inr ⟨[], a, t, rfl, Classical.not_not.1 ha, nothing⟩

/-! ## Calls that fail -/

/-- **The second program fails on the calls `T`:** there it leaves the marks `left`, which are the
first of those that the first program leaves, and raises the error. All other calls do the same. -/
structure FailsOn (T : Call κ → Prop) (left : Call κ → List ω) (e : ε) (h h' : Host ω ε κ) :
    Prop where
  carrier : h'.toCarrier = h.toCarrier
  agrees : ∀ a, ¬T a → (h.call a).Agrees (h'.call a)
  leaves : ∀ a, T a → (h.call a).Leaves (left a)
  raises : ∀ a, T a → (h'.call a).Ends (left a) (.error e)

section

variable {T : Call κ → Prop} [DecidablePred T] {left : Call κ → List ω} {e : ε} {h h' : Host ω ε κ}

/-- Marks stay, and where a call is announced that fails, the error is raised. -/
def cut (T : Call κ → Prop) [DecidablePred T] (left : Call κ → List ω) (e : ε) :
    ω ⊕ Call κ → Run (ω ⊕ Call κ) ε Unit
  | .inl m => Run.emit (.inl m)
  | .inr a => Run.emit (.inr a) >>= fun _ =>
    if T a then (forM (left a) fun m => Run.emit (.inl m)) >>= fun _ => Run.raise e else pure ()

/-- **The second program is the first, cut at the calls that fail.** -/
theorem cut_agree (hf : FailsOn T left e h h') (r : Recipe κ) (s : Text) :
    (((h.traced.parse r).run s).translate (cut T left e)).Agrees ((h'.traced.parse r).run s) := by
  have hlift (r : Run ω ε κ) : (lift r).translate (cut T left e) = lift r := by
    rw [lift, Run.translate_translate]
    rfl
  have hh : Related (.agree (cut T left e) Run.emit) .none h.traced h'.traced := by
    refine .of_calls hf.carrier fun a => Run.Relator.agree_eq.2 ?_
    rw [traced_call, traced_call, announce, Run.bind_translate, Run.emit_translate, hlift,
      Run.translate_emit, announce, cut, bind_assoc]
    refine (Run.Agrees.refl _).bind fun _ => ?_
    by_cases ha : T a
    · -- what follows the error, on both sides, is nothing
      have hraise := (hf.raises a ha).translate_agrees fun m => Run.emit (Sum.inl m : ω ⊕ Call κ)
      rw [if_pos ha, bind_assoc]
      simp only [Run.raise_bind]
      exact hraise.symm
    · rw [if_neg ha, pure_bind]
      exact (hf.agrees a ha).translate _
  have hagree := parse_agree hh (.refl r) s
  rwa [Run.translate_emit] at hagree

/-- The program stops for good where a call is announced that fails, after the marks `left`. -/
def stop (T : Call κ → Prop) [DecidablePred T] (left : Call κ → List ω) :
    ω ⊕ Call κ → Run ω ε Unit
  | .inl m => Run.emit m
  | .inr a => if T a then forM (left a) Run.emit >>= fun _ => Run.never else pure ()

/-- The first program does all that it does up to a call that fails, and there it leaves the marks
that this call leaves. -/
theorem stop_within (hf : FailsOn T left e h h') (r : Recipe κ) (s : Text) :
    (((h.traced.parse r).run s).translate (stop T left)).Within Eq ((h.parse r).run s) := by
  have hh : Related (.within (stop T left) Run.emit) .none h.traced h := by
    refine .of_calls rfl fun a => ?_
    change (Run.translate _ _).Within Eq (Run.translate _ _)
    rw [traced_call, announce, Run.bind_translate, Run.emit_translate, Run.translate_emit,
      lift_translate _ _ fun m => rfl, stop]
    by_cases ha : T a
    · rw [if_pos ha, bind_assoc]
      simp only [Run.never_bind]
      exact (hf.leaves a ha).within
    · rw [if_neg ha, pure_bind]
      exact .refl _
  have hwithin := parse_within hh (.refl r) s
  rwa [Run.translate_emit] at hwithin

/-! ## The first call that fails -/

/-- Where no call fails nothing is cut. -/
theorem forM_cut {t : List (ω ⊕ Call κ)} (ht : Calm T t) :
    (forM t (cut T left e) : Run (ω ⊕ Call κ) ε Unit) = forM t Run.emit := by
  induction t with
  | nil => rfl
  | cons m t ih =>
    have hm : (cut T left e m : Run (ω ⊕ Call κ) ε Unit) = Run.emit m := by
      cases m with
      | inl m => rfl
      | inr a => rw [cut, if_neg (ht a List.mem_cons_self), bind_pure]
    rw [List.forM_cons, List.forM_cons, hm, ih ht.tail]

/-- Where no call fails nothing stops, and the announcements are left out. -/
theorem forM_stop {t : List (ω ⊕ Call κ)} (ht : Calm T t) :
    (forM t (stop T left) : Run ω ε Unit) = forM (own t) Run.emit := by
  induction t with
  | nil => rfl
  | cons m t ih =>
    rw [List.forM_cons, ih ht.tail]
    cases m with
    | inl m => rfl
    | inr a =>
      rw [stop, if_neg (ht a List.mem_cons_self), pure_bind]
      rfl

variable {before after : List (ω ⊕ Call κ)} {a : Call κ}

/-- At the first call that fails the error is raised. -/
theorem forM_cut_first (hb : Calm T before) (ha : T a) {β : Type} (x : Except ε β) :
    (forM (before ++ .inr a :: after) (cut T left e) >>= fun _ => Run.ofExcept x) =
      (forM (before ++ .inr a :: (left a).map .inl) Run.emit >>= fun _ =>
        Run.ofExcept (.error e)) := by
  rw [List.forM_append, forM_cut hb, List.forM_cons, cut, if_pos ha, List.forM_append,
    List.forM_cons, List.forM_map]
  simp only [bind_assoc, Run.raise_bind, Run.ofExcept_error]

/-- At the first call that fails the program stops, after the marks `left`. -/
theorem forM_stop_first (hb : Calm T before) (ha : T a) {β : Type} (x : Except ε β) :
    (forM (before ++ .inr a :: after) (stop T left) >>= fun _ => Run.ofExcept x) =
      (forM (own before ++ left a) Run.emit >>= fun _ => Run.never) := by
  rw [List.forM_append, forM_stop hb, List.forM_cons, stop, if_pos ha, List.forM_append]
  simp only [bind_assoc, Run.never_bind]

/-- The marks of the second program up to the error are the first of those of the first program. -/
theorem isPrefix_of_first (hf : FailsOn T left e h h') {r : Recipe κ} {s : Text}
    {x : Except ε (Outcome κ)}
    (hr : ((h.traced.parse r).run s).Ends (before ++ .inr a :: after) x) (hb : Calm T before)
    (ha : T a) : own before ++ left a <+: own (before ++ .inr a :: after) := by
  have hstop := hr.translate_agrees (stop T left)
  rw [forM_stop_first hb ha] at hstop
  have hleaves := (stop_within hf r s).leaves (hstop.leaves_iff.2 (Run.leaves_forM_never _))
  exact hleaves.isPrefix (ends_traced_iff.2 ⟨_, hr, rfl⟩)

end

/-! ## Whole texts -/

/-- **The ending of a parser on a text, in whichever way it is run:** as it is, or on the text as a
whole. -/
def EndsIn (p : Parser ω ε κ) (s : Text) (t : List ω) (x : Except ε (Outcome κ)) : Prop :=
  (p.run s).Ends t x ∧ (p.unpack s).Ends t (x.map Outcome.whole?) ∧
    (p.parseAll s).Ends t (x.map Outcome.whole)

theorem endsIn_of_ends {p : Parser ω ε κ} {s : Text} {t : List ω} {x : Except ε (Outcome κ)}
    (h : (p.run s).Ends t x) : EndsIn p s t x := by
  have read {β : Type} (f : Outcome κ → β) :
      (p.run s >>= fun o => pure (f o)).Ends t (x.map f) := by
    rw [Run.ends_bind]
    cases x with
    | error e => exact .inl ⟨e, h, rfl⟩
    | ok o => exact .inr ⟨o, t, [], h, Run.ends_pure.2 ⟨rfl, rfl⟩, (List.append_nil t).symm⟩
  exact ⟨h, read _, read _⟩

/-- **An error only truncates a run.** Let the first program end on a text. If it makes none of the
calls that fail in the second, the second program does the same, with the same calls. Otherwise the
second ends with the error, whether the parser is run as it is or on the text as a whole. Up to the
first such call it makes the same calls and leaves the same marks, then those that the call leaves,
and nothing is called or forced after that; in all these are the first of the marks of the first
program. -/
theorem parse_of_failsOn {T : Call κ → Prop} {left : Call κ → List ω} {e : ε} {h h' : Host ω ε κ}
    (hf : FailsOn T left e h h') (r : Recipe κ) {s : Text} {t : List ω} {x : Except ε (Outcome κ)}
    (hr : ((h.parse r).run s).Ends t x) :
    ∃ u, ((h.traced.parse r).run s).Ends u x ∧ own u = t ∧
      ((Calm T u ∧ ((h'.traced.parse r).run s).Ends u x ∧ EndsIn (h'.parse r) s t x) ∨
      ∃ before a after, u = before ++ .inr a :: after ∧ T a ∧ Calm T before ∧
        ((h'.traced.parse r).run s).Ends (before ++ .inr a :: (left a).map .inl) (.error e) ∧
        EndsIn (h'.parse r) s (own before ++ left a) (.error e) ∧ own before ++ left a <+: t) := by
  classical
  obtain ⟨u, hu, rfl⟩ := ends_traced_iff.1 hr
  have hcut := (cut_agree hf r s).symm.trans (hu.translate_agrees (cut T left e))
  refine ⟨u, hu, rfl, ?_⟩
  rcases calm_or_first T u with hcalm | ⟨before, a, after, rfl, ha, hb⟩
  · rw [forM_cut hcalm] at hcut
    have hsame := hcut.ends_iff.2 (Run.ends_forM_ofExcept u x)
    exact .inl ⟨hcalm, hsame, endsIn_of_ends (ends_traced_iff.2 ⟨u, hsame, rfl⟩)⟩
  · rw [forM_cut_first hb ha] at hcut
    have hraise := hcut.ends_iff.2 (Run.ends_forM_ofExcept _ (.error e))
    have hmarks : own (before ++ .inr a :: (left a).map .inl) = own before ++ left a := by
      rw [own_append]
      exact congrArg (own before ++ ·) (own_inl (left a))
    refine .inr ⟨before, a, after, rfl, ha, hb, hraise, endsIn_of_ends ?_,
      isPrefix_of_first hf hu hb ha⟩
    exact ends_traced_iff.2 ⟨_, hraise, hmarks.symm⟩

/-- Values for a small program: texts, and a function from a text to its first character. -/
inductive Reel where
  | head
  | text (s : Text)

/-- The function tells how long the text is, and raises an error on some texts. -/
def reel (bad : Text → Bool) : Host Nat Unit Reel where
  text := .text
  nat _ := .head
  list _ := .head
  nothing := .head
  holds _ := true
  recipe _ := .error ()
  outcome
    | .text (c :: s) => .ok (.success (.text [c]) s)
    | _ => .ok .failure
  apply
    | .head, .text s =>
      Run.emit s.length >>= fun _ => if bad s then Run.raise () else pure (.text s)
    | f, _ => pure f
  force x := pure x

/-- The second reel is the first, with an error for one of its calls. -/
theorem reel_failsOn : FailsOn (fun a => a = .apply .head (.text ['b'])) (fun _ => [1]) ()
    (reel fun _ => false) (reel (· == ['b'])) where
  carrier := rfl
  agrees a ha := by
    refine .of_eq ?_
    match a, ha with
    | .force x, _ => rfl
    | .apply (.text _) _, _ => rfl
    | .apply .head .head, _ => rfl
    | .apply .head (.text s), ha =>
      have hs : (s == ['b']) = false := beq_eq_false_iff_ne.2 fun h => ha (h ▸ rfl)
      simp only [call, reel, hs]
  leaves a ha := by
    subst ha
    exact ⟨0, List.prefix_refl [1]⟩
  raises a ha := by
    subst ha
    exact ⟨0, rfl⟩

/-- A loop over the function, and another alternative. -/
def heads : Recipe Reel := .firstOf [.ready (.many (.custom .head)), .deferred .head]

/-- On `ab` the function does not take the second text: the loop gives no list and the other
alternative is not tried. -/
theorem parse_of_failsOn_reel :
    FailsOn (fun a => a = .apply .head (.text ['b'])) (fun _ => [1]) ()
      (reel fun _ => false) (reel (· == ['b'])) ∧
    (((reel fun _ => false).parse heads).run ['a', 'b']).Ends [2, 1, 0] (.ok (.success .head [])) ∧
    ∃ u, (((reel fun _ => false).traced.parse heads).run ['a', 'b']).Ends u
        (.ok (.success .head [])) ∧ own u = [2, 1, 0] ∧
      ((Calm (fun a => a = .apply .head (.text ['b'])) u ∧
        (((reel (· == ['b'])).traced.parse heads).run ['a', 'b']).Ends u
          (.ok (.success .head [])) ∧
        EndsIn ((reel (· == ['b'])).parse heads) ['a', 'b'] [2, 1, 0]
          (.ok (.success .head []))) ∨
      ∃ before a after, u = before ++ .inr a :: after ∧ a = .apply .head (.text ['b']) ∧
        Calm (fun a => a = .apply .head (.text ['b'])) before ∧
        (((reel (· == ['b'])).traced.parse heads).run ['a', 'b']).Ends
          (before ++ .inr a :: [.inl 1]) (.error ()) ∧
        EndsIn ((reel (· == ['b'])).parse heads) ['a', 'b'] (own before ++ [1]) (.error ()) ∧
        own before ++ [1] <+: [2, 1, 0]) := by
  have hr : (((reel fun _ => false).parse heads).run ['a', 'b']).Ends [2, 1, 0]
      (.ok (.success .head [])) := ⟨4, rfl⟩
  exact ⟨reel_failsOn, hr, parse_of_failsOn reel_failsOn heads hr⟩

/-- The second program does raise its error there, after the mark of the text it does not take. -/
example : (((reel (· == ['b'])).parse heads).run ['a', 'b']).Ends [2, 1] (.error ()) := ⟨4, rfl⟩

end Descent.Host
