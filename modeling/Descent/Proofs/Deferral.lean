import Descent.Proofs.Programs
import Descent.Script.Eval

/-!
# Deferral carries no meaning

A parser may be put behind a deferred reference wherever it stands, also within recipes that
functions and references come up with, and so within a grammar that refers to itself. To tell where
the references are forced they leave labels, which are marks of a kind `L`.

Three programs are compared. They share their values, and a value may stand for another recipe in
each of them: `plain` is the original, `watched` has an observer at the positions chosen, which
leaves the label of the position when the parser there is run, and `deferred` has a reference there,
which leaves the label when it is forced.

* `Run.without L`: the run with its labels left out.
* `Host.Deferral L plain watched deferred`: the three programs. `Deferral.of_rewrites` makes them of
  any program, by rewriting its recipes.
* `deferred_agrees`: **the deferred program does what the watched one does,** so it leaves each
  label when the parser there is run, right before that run.
* `deferred_without_agrees`: without labels it does what the original does.
* `eval_of_constructs`: putting parsers together calls nothing and leaves no marks.
* `holding_thunk`: a deferred term that returns a parser is such a reference.
* `thunk_agrees`: every run of a deferred term evaluates it anew, under the globals of that run.
* `deferral_transparent`: **the results together.**
-/

namespace Descent

namespace Run

variable {ω ε α β : Type} {L : ω → Bool}

/-- What is left of a mark when labels are left out. -/
def unlabelled (L : ω → Bool) (m : ω) : List ω := if L m then [] else [m]

/-- **The run without its labels.** -/
def without (L : ω → Bool) (r : Run ω ε α) : Run ω ε α :=
  r.translate fun m => forM (unlabelled L m) emit

theorem flatMap_unlabelled (t : List ω) : t.flatMap (unlabelled L) = t.filter fun m => !L m := by
  induction t with
  | nil => rfl
  | cons m t ih =>
    rw [List.flatMap_cons, ih, unlabelled]
    by_cases hm : L m <;> simp [hm]

theorem ends_without_iff {r : Run ω ε α} {u : List ω} {x : Except ε α} :
    (r.without L).Ends u x ↔ ∃ t, r.Ends t x ∧ u = t.filter fun m => !L m := by
  rw [without, ends_translate_iff]
  simp only [flatMap_unlabelled]

/-- Labels alone leave nothing. -/
theorem without_labels {w : List ω} (hw : ∀ m ∈ w, L m = true) :
    (forM w emit : Run ω ε Unit).without L = pure () := by
  rw [without, forM_translate]
  induction w with
  | nil => rfl
  | cons m w ih =>
    have hm : unlabelled L m = [] := if_pos (hw m List.mem_cons_self)
    rw [List.forM_cons, hm, ih fun m' hm' => hw m' (List.mem_cons_of_mem m hm')]
    rfl

theorem Agrees.mapM {f g : β → Run ω ε α} (h : ∀ b, (f b).Agrees (g b)) (bs : List β) :
    (bs.mapM f).Agrees (bs.mapM g) := by
  induction bs with
  | nil => exact .refl _
  | cons b bs ih =>
    rw [List.mapM_cons, List.mapM_cons]
    exact (h b).bind fun a => ih.bind fun as => .refl _

end Run

namespace Host

variable {ω ε κ : Type} {L : ω → Bool} {plain watched deferred : Host ω ε κ}

/-! ## The three programs -/

/-- The observer leaves these labels on every text and does nothing else. -/
def Announces (h : Host ω ε κ) (L : ω → Bool) (o : κ) (w : List ω) : Prop :=
  (∀ m ∈ w, L m = true) ∧ ∀ s, (Recipe.observer h o s).Agrees (forM w Run.emit)

/-- Observers that leave labels are dropped. -/
def baring (L : ω → Bool) (h : Host ω ε κ) : Change κ where
  bare o := ∃ w, h.Announces L o w
  defer _ _ _ := False

/-- Observers that leave labels give way to references that leave the same labels when they are
forced, and yield the parser observed. -/
def holding (L : ω → Bool) (h h' : Host ω ε κ) : Change κ where
  bare _ := False
  defer o x q := ∃ w y, h.Announces L o w ∧
    (h'.force x).Agrees (forM w Run.emit >>= fun _ => pure y) ∧ h'.recipe y = .ok q

/-- **A program, watched at some positions and deferred there.** A value stands for the same recipe
in all three, but for these positions, and calls do the same. -/
structure Deferral (L : ω → Bool) (plain watched deferred : Host ω ε κ) : Prop where
  plain_carrier : plain.toCarrier = { watched.toCarrier with recipe := plain.recipe }
  plain_recipe : ∀ y, Reads (watched.baring L) (watched.recipe y) (plain.recipe y)
  plain_call : ∀ a, ((watched.call a).without L).Agrees ((plain.call a).without L)
  deferred_carrier : deferred.toCarrier = { watched.toCarrier with recipe := deferred.recipe }
  deferred_recipe : ∀ y, Reads (watched.holding L deferred) (watched.recipe y) (deferred.recipe y)
  deferred_call : ∀ a, (watched.call a).Agrees (deferred.call a)

/-- The program in which every recipe is rewritten when it comes up. -/
def reread (h : Host ω ε κ) (f : Recipe κ → Recipe κ) : Host ω ε κ :=
  { h with recipe := fun y => (h.recipe y).map f }

/-- **Any program may be rewritten so:** `watch` puts observers at the positions chosen, wherever
they come up, and `hold` puts references there. -/
theorem Deferral.of_rewrites (h : Host ω ε κ) (watch hold : Recipe κ → Recipe κ)
    (hwatch : ∀ r, Variant ((h.reread watch).baring L) (watch r) r)
    (hhold : ∀ r, Variant ((h.reread watch).holding L (h.reread hold)) (watch r) (hold r)) :
    Deferral L h (h.reread watch) (h.reread hold) where
  plain_carrier := rfl
  plain_recipe y := by
    change Reads _ ((h.recipe y).map watch) (h.recipe y)
    cases h.recipe y with
    | ok r => exact .ok (hwatch r)
    | error e => exact .error e
  plain_call a := by cases a <;> exact .refl _
  deferred_carrier := rfl
  deferred_recipe y := by
    change Reads _ ((h.recipe y).map watch) ((h.recipe y).map hold)
    cases h.recipe y with
    | ok r => exact .ok (hhold r)
    | error e => exact .error e
  deferred_call a := by cases a <;> exact .refl _

/-- Without its labels a watched program is the original. -/
theorem Deferral.related_plain (hd : Deferral L plain watched deferred) :
    Related (.agree (fun m => forM (Run.unlabelled L m) Run.emit)
      fun m => forM (Run.unlabelled L m) Run.emit) (watched.baring L) watched plain where
  carrier := hd.plain_carrier
  recipe := hd.plain_recipe
  apply f x := Run.Relator.agree_eq.2 (hd.plain_call (.apply f x))
  force x := Run.Relator.agree_eq.2 (hd.plain_call (.force x))
  bare o s ho := by
    obtain ⟨w, hw, ho⟩ := ho
    exact Run.Relator.agree_eq.2 (((ho s).translate _).trans (.of_eq (Run.without_labels hw)))
  defer _ _ _ _ ho := ho.elim

/-- A watched program does what the deferred one does. -/
theorem Deferral.related_deferred (hd : Deferral L plain watched deferred) :
    Related (.agree Run.emit Run.emit) (watched.holding L deferred) watched deferred where
  carrier := hd.deferred_carrier
  recipe := hd.deferred_recipe
  apply f x := Run.Relator.agree_eq.2 ((hd.deferred_call (.apply f x)).translate _)
  force x := Run.Relator.agree_eq.2 ((hd.deferred_call (.force x)).translate _)
  bare _ _ ho := ho.elim
  defer o x q s ho := by
    obtain ⟨w, y, ⟨-, ho⟩, hx, hy⟩ := ho
    have ho := ho s
    rw [← bind_pure (forM w Run.emit)] at ho
    have hto : (forM w Run.emit >>= pure : Run ω ε Unit).Within
        (fun _ y => deferred.recipe y = .ok q) (forM w Run.emit >>= fun _ => pure y) :=
      (Run.Within.refl _).bind fun _ _ _ => .pure hy
    have hfrom : (forM w Run.emit >>= fun _ => pure y : Run ω ε κ).Within
        (fun y _ => deferred.recipe y = .ok q) (forM w Run.emit >>= pure) :=
      (Run.Within.refl _).bind fun _ _ _ => .pure hy
    exact ⟨(ho.within hx hto).translate _, (hx.within ho hfrom).translate _⟩

variable {p w d : Recipe κ}

/-- **The deferred program does what the watched one does.** -/
theorem deferred_agrees (hd : Deferral L plain watched deferred)
    (hw : Variant (watched.holding L deferred) w d) (s : Text) :
    ((deferred.parse d).run s).Agrees ((watched.parse w).run s) := by
  have h := parse_agree hd.related_deferred hw s
  rw [Run.translate_emit, Run.translate_emit] at h
  exact h.symm

/-- **Without labels, the deferred program does what the original does.** -/
theorem deferred_without_agrees (hd : Deferral L plain watched deferred)
    (hp : Variant (watched.baring L) w p) (hw : Variant (watched.holding L deferred) w d)
    (s : Text) :
    (((deferred.parse d).run s).without L).Agrees (((plain.parse p).run s).without L) :=
  ((deferred_agrees hd hw s).translate _).trans (parse_agree hd.related_plain hp s)

end Host

namespace Script

/-! ## Putting parsers together -/

mutual

/-- A term that makes values and parsers, and calls nothing. -/
def Term.constructs : Term → Bool
  | .null | .bool _ | .int _ | .text _ | .var _ | .fn _ _ | .thunk _ _ => true
  | .ite c a b => constructs c && constructs a && constructs b
  | .call (.act _) _ => false
  | .call _ args => constructsAll args
termination_by structural t => t

def Term.constructsAll : List Term → Bool
  | [] => true
  | t :: ts => constructs t && constructsAll ts
termination_by structural ts => ts

end

theorem ofExcept_bind {α β : Type} (x : Except Fault α) (f : α → Except Fault β) :
    (Run.ofExcept x >>= fun a => Run.ofExcept (f a) : Run Mark Fault β) =
      Run.ofExcept (x >>= f) := by
  cases x with
  | ok a => exact pure_bind ..
  | error e => exact Run.raise_bind e _

mutual

/-- **Putting parsers together calls nothing and leaves no marks:** its value or error does not
depend on what calls do. -/
theorem eval_of_constructs (globals env : Env) : ∀ t : Term, t.constructs = true →
    ∃ x : Except Fault Value, ∀ h : Calls, eval h globals env t = Run.ofExcept x
  | .null, _ => ⟨.ok .null, fun _ => rfl⟩
  | .bool b, _ => ⟨.ok (.bool b), fun _ => rfl⟩
  | .int i, _ => ⟨.ok (.int i), fun _ => rfl⟩
  | .text s, _ => ⟨.ok (.text s), fun _ => rfl⟩
  | .fn param body, _ => ⟨.ok (.closure env param body), fun _ => rfl⟩
  | .thunk body label, _ => ⟨.ok (.thunk env body label), fun _ => rfl⟩
  | .var name, _ => by
    unfold eval
    cases (env.lookup name).or (globals.lookup name) with
    | some x => exact ⟨.ok x, fun _ => rfl⟩
    | none => exact ⟨.error (.unbound name), fun _ => rfl⟩
  | .ite c a b, ht => by
    simp only [Term.constructs, Bool.and_eq_true] at ht
    obtain ⟨x, hx⟩ := eval_of_constructs globals env c ht.1.1
    obtain ⟨y, hy⟩ := eval_of_constructs globals env a ht.1.2
    obtain ⟨z, hz⟩ := eval_of_constructs globals env b ht.2
    refine ⟨x >>= fun v => if v.holds then y else z, fun h => ?_⟩
    rw [← ofExcept_bind, eval, hx, hy, hz]
    refine congrArg (Run.ofExcept x >>= ·) (funext fun v => ?_)
    by_cases hv : v.holds <;> simp [hv]
  | .call (.make m) args, ht => by
    obtain ⟨xs, hxs⟩ := evalAll_of_constructs globals env args ht
    refine ⟨xs >>= m.make, fun h => ?_⟩
    rw [← ofExcept_bind, eval, hxs]
    rfl
  | .call (.data o) args, ht => by
    obtain ⟨xs, hxs⟩ := evalAll_of_constructs globals env args ht
    refine ⟨xs >>= o.compute, fun h => ?_⟩
    rw [← ofExcept_bind, eval, hxs]
    rfl

theorem evalAll_of_constructs (globals env : Env) : ∀ ts : List Term,
    Term.constructsAll ts = true →
      ∃ xs : Except Fault (List Value), ∀ h : Calls, evalAll h globals env ts = Run.ofExcept xs
  | [], _ => ⟨.ok [], fun _ => rfl⟩
  | t :: ts, ht => by
    simp only [Term.constructsAll, Bool.and_eq_true] at ht
    obtain ⟨x, hx⟩ := eval_of_constructs globals env t ht.1
    obtain ⟨xs, hxs⟩ := evalAll_of_constructs globals env ts ht.2
    refine ⟨x >>= fun v => xs >>= fun vs => .ok (v :: vs), fun h => ?_⟩
    simp only [← ofExcept_bind, evalAll, hx, hxs]
    rfl

end

/-! ## Running deferred terms -/

theorem calls_apply_agrees (globals env : Env) (param : String) (body : Term) (x : Value) :
    ((calls globals).apply (.closure env param body) x).Agrees
      (eval (calls globals) globals ((param, x) :: env) body) :=
  Run.fix_agrees (callStep_monotonic globals) (.apply (.closure env param body) x)

theorem apply_unpacked_agrees (globals : Env) (r : Recipe Value) (s : Text) :
    ((calls globals).apply (.unpacked r) (.text s)).Agrees
      (((calls globals).parse r).unpack s >>= fun x => pure (x.getD .null)) :=
  Run.fix_agrees (callStep_monotonic globals) (.apply (.unpacked r) (.text s))

/-- The marks that a deferred term leaves when it is forced, before those of its body. -/
def labels (label : Option Text) : List Mark := label.toList.map (Mark.event · .null)

theorem calls_force_agrees (globals env : Env) (body : Term) (label : Option Text) :
    ((calls globals).force (.thunk env body label)).Agrees
      (forM (labels label) Run.emit >>= fun _ => eval (calls globals) globals env body) := by
  have hstep := Run.fix_agrees (callStep_monotonic globals) (.force (.thunk env body label))
  cases label with
  | none => exact hstep
  | some l => exact hstep.trans (.of_eq (by simp [labels]; rfl))

/-- The marks with this label. -/
def isLabel (label : Text) : Mark → Bool
  | .event l _ => l == label
  | .printed _ => false

/-- A function of a text that leaves the same marks as a deferred term does. -/
def watcher : Option Text → Value
  | none => .closure [] "s" .null
  | some l => .closure [] "s" (.call (.act .trace) [.text l, .null])

theorem watcher_announces (globals : Env) (l : Text) {label : Option Text}
    (hl : ∀ l' ∈ label, l' = l) :
    (calls globals).Announces (isLabel l) (watcher label) (labels label) := by
  refine ⟨fun m hm => ?_, fun s => ?_⟩
  · obtain ⟨l', hl', rfl⟩ := List.mem_map.1 hm
    exact beq_iff_eq.2 (hl l' (Option.mem_toList.1 hl'))
  · cases label with
    | none =>
      refine ((calls_apply_agrees globals [] "s" .null (.text s)).bind fun _ => .refl _).trans ?_
      exact .refl _
    | some l' =>
      refine ((calls_apply_agrees globals [] "s" _ (.text s)).bind fun _ => .refl _).trans ?_
      exact .refl _

/-- **A deferred term that returns a parser is a reference to it,** and it leaves its label where an
observer would. -/
theorem holding_thunk (globals : Env) (l : Text) {label : Option Text} (hl : ∀ l' ∈ label, l' = l)
    (name : String) (q : Recipe Value) :
    ((calls globals).holding (isLabel l) (calls globals)).defer (watcher label)
      (.thunk [(name, .parser q)] (.var name) label) q := by
  refine ⟨labels label, .parser q, watcher_announces globals l hl, ?_, rfl⟩
  refine (calls_force_agrees ..).trans (.of_eq ?_)
  simp [eval]

/-- What a deferred term does when it is run: the label, the evaluation of the term, and the run of
the parser that it evaluates to. -/
def runThunk (globals env : Env) (body : Term) (label : Option Text) (s : Text) :
    Run Mark Fault (Outcome Value) := do
  forM (labels label) Run.emit
  let y ← eval (calls globals) globals env body
  let r ← y.parser?
  ((calls globals).parse r).run s

/-- **A deferred term is evaluated anew each time it is run.** -/
theorem thunk_agrees (globals env : Env) (body : Term) (label : Option Text) (s : Text) :
    (((calls globals).parse (.lazily (.deferred (.thunk env body label)))).run s).Agrees
      (runThunk globals env body label s) := by
  refine ((calls globals).parse_agrees _ s).trans ?_
  change (((calls globals).force _ >>= Recipe.called _ _) >>= fun q => q.run s).Agrees _
  rw [bind_assoc]
  refine ((calls_force_agrees globals env body label).bind fun _ => .refl _).trans (.of_eq ?_)
  simp only [runThunk, Recipe.called, bind_assoc, pure_bind]
  rfl

section

variable {ω ε κ : Type} {L : ω → Bool} {plain watched deferred : Host ω ε κ} {p w d : Recipe κ}

/-- **Deferral carries no meaning.** Parsers at any positions, also of recipes that come up while a
parser runs, are put behind references that leave labels when they are forced. Then labels are left
just where an observer at these positions would leave them, that is when the parser there is run and
right before that. Without labels the program does the same as before: it leaves the same marks, and
ends in the same way or not at all. No label is left while parsers are put together, and nothing is
remembered: in any sequence of runs of a deferred term, under whatever globals each of them has, the
term is evaluated each time it is run. -/
theorem deferral_transparent (hd : Host.Deferral L plain watched deferred)
    (hp : Variant (watched.baring L) w p) (hw : Variant (watched.holding L deferred) w d)
    (s : Text) :
    ((deferred.parse d).run s).Agrees ((watched.parse w).run s) ∧
    (((deferred.parse d).run s).without L).Agrees (((plain.parse p).run s).without L) ∧
    (∀ x v, (∃ t, ((deferred.parse d).run s).Ends t x ∧ v = t.filter fun m => !L m) ↔
      ∃ t, ((plain.parse p).run s).Ends t x ∧ v = t.filter fun m => !L m) ∧
    (∀ (globals env : Env) (t : Term), t.constructs = true →
      ∃ x : Except Fault Value, ∀ h : Calls, eval h globals env t = Run.ofExcept x) ∧
    (∀ (globals : Env) (l : Text) (label : Option Text) (name : String) (q : Recipe Value),
      (∀ l' ∈ label, l' = l) →
      ((calls globals).holding (isLabel l) (calls globals)).defer (watcher label)
        (.thunk [(name, .parser q)] (.var name) label) q) ∧
    ∀ env body label (runs : List (Env × Text)),
      (runs.mapM fun a =>
        ((calls a.1).parse (.lazily (.deferred (.thunk env body label)))).run a.2).Agrees
      (runs.mapM fun a => runThunk a.1 env body label a.2) := by
  have hwithout := Host.deferred_without_agrees hd hp hw s
  refine ⟨Host.deferred_agrees hd hw s, hwithout, fun x v => ?_, eval_of_constructs,
    fun globals l label name q hl => holding_thunk globals l hl name q,
    fun env body label runs => ?_⟩
  · rw [← Run.ends_without_iff, ← Run.ends_without_iff]
    exact hwithout.ends_iff
  · have hrun (a : Env × Text) :
        (((calls a.1).parse (.lazily (.deferred (.thunk env body label)))).run a.2).Agrees
          (runThunk a.1 env body label a.2) := thunk_agrees a.1 env body label a.2
    exact Run.Agrees.mapM hrun runs

end

end Script

/-! ## A grammar that refers to itself -/

/-- Values for a small grammar: its rule, a reference to a part of it, an observer and the texts. -/
inductive Knot where
  | rule
  | part
  | watch
  | text (s : Text)

/-- The observer and the reference leave a label; the rule stands for the recipe given. -/
def knot (r : Recipe Knot) : Host Unit Unit Knot where
  text := .text
  nat _ := .rule
  list _ := .rule
  nothing := .rule
  holds _ := true
  recipe
    | .rule => .ok r
    | .part => .ok (.char 'b')
    | _ => .error ()
  outcome _ := .error ()
  apply
    | .watch, x => Run.emit () >>= fun _ => pure x
    | f, _ => pure f
  force
    | .part => Run.emit () >>= fun _ => pure .part
    | x => pure x

/-- As many `a`s as there are, by self-reference, and then the part given. -/
def knotRule (part : RecipeRef Knot) : Recipe Knot :=
  .firstOf [part, .ready (.keepRight (.char 'a') (.lazily (.deferred .rule)))]

/-- The end of the rule as it is, watched and deferred. -/
def plainRule : Recipe Knot := knotRule (.ready (.char 'b'))
def watchedRule : Recipe Knot := knotRule (.ready (.logInput .watch (.char 'b')))
def deferredRule : Recipe Knot := knotRule (.deferred .part)

theorem knot_announces (r : Recipe Knot) :
    (knot r).Announces (fun _ => true) .watch [()] :=
  ⟨fun _ _ => rfl, fun _ => .of_eq rfl⟩

/-- A change of the part is a change of the rule. -/
theorem knotRule_variant {c : Change Knot} {part part' : RecipeRef Knot}
    (h : RefVariant c part part') : Variant c (knotRule part) (knotRule part') := by
  let more : RecipeRef Knot := .ready (.keepRight (.char 'a') (.lazily (.deferred .rule)))
  have hparts : ∀ q ∈ [(part, part'), (more, more)], RefVariant c q.1 q.2 :=
    List.forall_mem_cons.2 ⟨h, List.forall_mem_singleton.2 (.refl _)⟩
  have hrule := Variant.firstOf hparts
  exact hrule

theorem plainRule_variant (r : Recipe Knot) :
    Variant ((knot r).baring fun _ => true) watchedRule plainRule :=
  knotRule_variant (.ready (.bare ⟨[()], knot_announces r⟩ (.refl _)))

theorem deferredRule_variant (r r' : Recipe Knot) :
    Variant ((knot r).holding (fun _ => true) (knot r')) watchedRule deferredRule :=
  knotRule_variant (.defer ⟨[()], .part, knot_announces r, .of_eq rfl, rfl⟩ (.refl _))

/-- The three programs differ in the end of the rule only. -/
theorem knot_deferral : Host.Deferral (fun _ => true) (knot plainRule) (knot watchedRule)
    (knot deferredRule) where
  plain_carrier := rfl
  plain_recipe y := by
    cases y with
    | rule => exact .ok (plainRule_variant _)
    | part => exact .ok (.refl _)
    | watch => exact .error ()
    | text s => exact .error ()
  plain_call a := by cases a <;> exact .refl _
  deferred_carrier := rfl
  deferred_recipe y := by
    cases y with
    | rule => exact .ok (deferredRule_variant _ _)
    | part => exact .ok (.refl _)
    | watch => exact .error ()
    | text s => exact .error ()
  deferred_call a := by cases a <;> exact .refl _

/-- Two `a`s and the part behind them: the rule with a deferred part does what the watched one does, and
without labels what the plain one does. -/
theorem deferral_transparent_knot :
    Host.Deferral (fun _ => true) (knot plainRule) (knot watchedRule) (knot deferredRule) ∧
    Variant ((knot watchedRule).baring fun _ => true) watchedRule plainRule ∧
    Variant ((knot watchedRule).holding (fun _ => true) (knot deferredRule)) watchedRule
      deferredRule ∧
    ((((knot deferredRule).parse deferredRule).run ['a', 'a', 'b']).Agrees
      (((knot watchedRule).parse watchedRule).run ['a', 'a', 'b'])) ∧
    ((((knot deferredRule).parse deferredRule).run ['a', 'a', 'b']).without fun _ => true).Agrees
      ((((knot plainRule).parse plainRule).run ['a', 'a', 'b']).without fun _ => true) := by
  have h := Script.deferral_transparent knot_deferral (plainRule_variant _)
    (deferredRule_variant _ _) ['a', 'a', 'b']
  exact ⟨knot_deferral, plainRule_variant _, deferredRule_variant _ _, h.1, h.2.1⟩

/-- The reference is forced once for each time its turn comes, and nothing else changes. -/
example : (((knot deferredRule).parse deferredRule).run ['a', 'a', 'b']).Ends [(), (), ()]
    (.ok (.success (.text ['b']) [])) := ⟨5, rfl⟩

example : (((knot plainRule).parse plainRule).run ['a', 'a', 'b']).Ends []
    (.ok (.success (.text ['b']) [])) := ⟨5, rfl⟩

end Descent
