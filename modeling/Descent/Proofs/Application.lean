import Descent.Proofs.Currying
import Descent.Proofs.Deferral

/-!
# Applying parsers of functions

A parser of functions is applied to a parser of arguments. Functions are values that an operation
`app` applies, which may leave marks, raise an error or not end, and may refuse what is no function.
The laws of application hold all the same: no side of a law leaves a mark or raises an error earlier
than the other.

* `IsIdentity app i`, `Composes app c`: `i` is applied as the identity, and `c` composes functions.
* `succeed_ap`, `ap_succeed`, `succeed_ap_succeed`: functions and arguments at hand. The two sides
  are one and the same parser.
* `applyBoth app u v w`: the three parsers in turn, and then the two applications.
* `ap_ap_eq`, `composed_agrees`: **either way of bracketing is this.**
* `AppliesLast app u v w q`: where `q` stops, and what it has done by then. A function is applied
  when all three parsers have succeeded, so what is no function is found out there and then.
* `Script.identity`, `Script.composer`: the identity and composition in scripts.
* `application_laws`: the results together.
-/

namespace Descent

namespace Parser

variable {ω ε α β φ κ : Type}

/-! ## Functions and arguments at hand -/

/-- **The function does nothing to its argument,** and leaves no marks. -/
def IsIdentity (app : φ → α → Run ω ε α) (i : φ) : Prop := ∀ x, (app i x).Agrees (pure x)

theorem succeed_ap (app : φ → α → Run ω ε β) (f : φ) (p : Parser ω ε α) :
    ap app (succeed f) p = p.map (app f) := by
  rw [ap, succeed_bind, after_pure]

theorem ap_succeed (app : φ → α → Run ω ε β) (u : Parser ω ε φ) (x : α) :
    ap app u (succeed x) = u.map fun g => app g x := by
  refine Parser.ext (funext fun s => ?_)
  rw [ap, bind_run, map_run]
  refine congrArg (u.run s >>= ·) (funext fun o => ?_)
  cases o with
  | failure => rfl
  | success g rest =>
    simp only [pure_bind]
    rw [map_run, succeed_run, pure_bind]

theorem succeed_ap_succeed (app : φ → α → Run ω ε β) (f : φ) (x : α) :
    ap app (succeed f) (succeed x) =
      (succeed x).bind fun y => app f y >>= fun z => pure (succeed z) := by
  rw [succeed_ap, map_eq_bind]

theorem identity_ap {app : φ → α → Run ω ε α} {i : φ} (hi : IsIdentity app i) (p : Parser ω ε α) :
    (ap app (succeed i) p).Agrees p := by
  have hmap : (p.map fun x => pure x) = p := (map_eq_bind _ p).trans (by
    simp only [pure_bind]
    exact bind_succeed p)
  rw [succeed_ap]
  exact (map_agrees (.refl p) hi).trans (.of_eq hmap)

/-! ## Composition -/

/-- **The curried function that composes two functions.** It takes them without leaving a mark and
whatever they are; a composition applies the second function first. -/
def Composes (app : κ → κ → Run ω ε κ) (c : κ) : Prop :=
  ∀ a, ∃ ca, (app c a).Agrees (pure ca) ∧ ∀ b, ∃ cab, (app ca b).Agrees (pure cab) ∧
    ∀ x, (app cab x).Agrees (app b x >>= app a)

/-- Runs the three parsers in turn. Then the value of the second is applied to that of the third,
and the value of the first to what comes out. -/
def applyBoth (app : κ → κ → Run ω ε κ) (u v w : Parser ω ε κ) : Parser ω ε κ :=
  u.bind fun a => pure (v.bind fun b => pure (w.map fun x => app b x >>= app a))

variable {app : κ → κ → Run ω ε κ} {u v w : Parser ω ε κ}

theorem ap_ap_eq : ap app u (ap app v w) = applyBoth app u v w := by
  unfold ap applyBoth
  refine congrArg u.bind (funext fun a => congrArg pure ?_)
  rw [bind_map]
  refine congrArg v.bind (funext fun b => ?_)
  rw [pure_bind, map_map]

/-- Bracketed to the left, the parsers run in the same order, and the composition of the functions
is put together in between. -/
theorem composed_eq (c : κ) : ap app (ap app (ap app (succeed c) u) v) w =
    u.bind fun a => app c a >>= fun ca =>
      pure (v.bind fun b => app ca b >>= fun cab => pure (w.map (app cab))) := by
  rw [succeed_ap, ap, ap, map_bind, bind_bind]
  refine congrArg u.bind (funext fun a => ?_)
  rw [bind_assoc]
  refine congrArg (app c a >>= ·) (funext fun ca => ?_)
  rw [pure_bind, map_bind]

theorem composed_agrees {c : κ} (hc : Composes app c) :
    (ap app (ap app (ap app (succeed c) u) v) w).Agrees (applyBoth app u v w) := by
  rw [composed_eq]
  -- between the runs of the parsers the composition takes its functions, and nothing is to be seen
  refine bind_agrees (.refl u) fun a => ?_
  obtain ⟨ca, hca, hcomposes⟩ := hc a
  rw [after_pure]
  refine (after_agrees hca _).trans (bind_agrees (.refl v) fun b => ?_)
  obtain ⟨cab, hcab, happly⟩ := hcomposes b
  rw [after_pure]
  exact (after_agrees hcab _).trans (map_agrees (.refl w) happly)

theorem applyBoth_agrees {u' v' w' : Parser ω ε κ} (hu : u.Agrees u') (hv : v.Agrees v')
    (hw : w.Agrees w') : (applyBoth app u v w).Agrees (applyBoth app u' v' w') := by
  refine bind_agrees hu fun a => ?_
  rw [after_pure, after_pure]
  refine bind_agrees hv fun b => ?_
  rw [after_pure, after_pure]
  exact map_agrees hw fun _ => .refl _

/-! ## Where a composition stops -/

/-- **The functions are applied last.** Where `u` or `v` fails or raises an error, `q` does so too,
with the marks up to there, and nothing is applied. When both have succeeded with `a` and `b`, the
parser `w` is run, and `b` and then `a` are applied to its value if it has one. If one of them
cannot be applied, the error is raised there, and it is not raised if `w` fails. -/
structure AppliesLast (app : κ → κ → Run ω ε κ) (u v w q : Parser ω ε κ) : Prop where
  outer : ∀ s t x, (u.run s).Ends t x → (∀ a r, x ≠ .ok (.success a r)) → (q.run s).Ends t x
  inner : ∀ s t₁ a s₁ t₂ x, (u.run s).Ends t₁ (.ok (.success a s₁)) → (v.run s₁).Ends t₂ x →
    (∀ b r, x ≠ .ok (.success b r)) → (q.run s).Ends (t₁ ++ t₂) x
  applied : ∀ s t₁ a s₁ t₂ b s₂, (u.run s).Ends t₁ (.ok (.success a s₁)) →
    (v.run s₁).Ends t₂ (.ok (.success b s₂)) →
    (q.run s).Agrees (forM (t₁ ++ t₂) Run.emit >>= fun _ =>
      (w.map fun x => app b x >>= app a).run s₂)
  unfitInner : ∀ s t₁ a s₁ t₂ b s₂ e, (u.run s).Ends t₁ (.ok (.success a s₁)) →
    (v.run s₁).Ends t₂ (.ok (.success b s₂)) → (∀ x, (app b x).Agrees (Run.raise e)) →
    (q.run s).Agrees (forM (t₁ ++ t₂) Run.emit >>= fun _ => w.run s₂ >>= fun
      | .success _ _ => Run.raise e
      | .failure => pure .failure)
  unfitOuter : ∀ s t₁ a s₁ t₂ b s₂ e, (u.run s).Ends t₁ (.ok (.success a s₁)) →
    (v.run s₁).Ends t₂ (.ok (.success b s₂)) → (∀ x, (app a x).Agrees (Run.raise e)) →
    (q.run s).Agrees (forM (t₁ ++ t₂) Run.emit >>= fun _ => w.run s₂ >>= fun
      | .success x _ => app b x >>= fun _ => Run.raise e
      | .failure => pure .failure)

/-- A sequence goes on from a success of its first part. -/
theorem bind_agrees_of_ends {p : Parser ω ε α} {f : α → Run ω ε (Parser ω ε β)} {s s' : Text}
    {t : List ω} {a : α} (h : (p.run s).Ends t (.ok (.success a s'))) :
    ((p.bind f).run s).Agrees (forM t Run.emit >>= fun _ => (after (f a)).run s') := by
  rw [bind_run]
  refine (h.agrees.bind fun _ => .refl _).trans (.of_eq ?_)
  simp only [Run.ofExcept_ok, bind_assoc, pure_bind, after_run]

/-- A sequence stops where its first part does. -/
theorem ends_bind_of_stop {p : Parser ω ε κ} {f : κ → Run ω ε (Parser ω ε κ)} {s : Text}
    {t : List ω} {x : Except ε (Outcome κ)} (h : (p.run s).Ends t x)
    (hx : ∀ a r, x ≠ .ok (.success a r)) : ((p.bind f).run s).Ends t x := by
  refine ends_bind.2 ?_
  match x with
  | .error e => exact .inl ⟨e, h, rfl⟩
  | .ok .failure => exact .inr (.inl ⟨h, rfl⟩)
  | .ok (.success a r) => exact absurd rfl (hx a r)

/-- An error that the application to any value raises is raised after a success. -/
theorem map_agrees_of_unfit {p : Parser ω ε α} {f : α → Run ω ε β} {g : α → Run ω ε κ} {e : ε}
    (hf : ∀ x, (f x).Agrees (g x >>= fun _ => Run.raise e)) (s : Text) :
    ((p.map f).run s).Agrees (p.run s >>= fun
      | .success x _ => g x >>= fun _ => Run.raise e
      | .failure => pure .failure) := by
  rw [map_run]
  refine (Run.Agrees.refl (p.run s)).bind fun o => ?_
  cases o with
  | failure => exact .refl _
  | success x rest =>
    refine ((hf x).bind fun _ => .refl _).trans (.of_eq ?_)
    rw [bind_assoc]
    simp only [Run.raise_bind]

/-- **Three parsers in a row apply last.** The functions are called when all three have succeeded, the
inner one first, and what stops one of the parsers stops the whole before any call. -/
theorem applyBoth_appliesLast : AppliesLast app u v w (applyBoth app u v w) := by
  have happlied {s s₁ s₂ : Text} {t₁ t₂ : List ω} {a b : κ}
      (hu : (u.run s).Ends t₁ (.ok (.success a s₁)))
      (hv : (v.run s₁).Ends t₂ (.ok (.success b s₂))) :
      ((applyBoth app u v w).run s).Agrees (forM (t₁ ++ t₂) Run.emit >>= fun _ =>
        (w.map fun x => app b x >>= app a).run s₂) := by
    refine (bind_agrees_of_ends hu).trans ?_
    rw [after_pure]
    refine ((Run.Agrees.refl _).bind fun _ => bind_agrees_of_ends hv).trans (.of_eq ?_)
    rw [after_pure, List.forM_append, bind_assoc]
  refine ⟨fun s t x hu hx => ?_, fun s t₁ a s₁ t₂ x hu hv hx => ?_,
    fun s t₁ a s₁ t₂ b s₂ hu hv => ?_, fun s t₁ a s₁ t₂ b s₂ e hu hv hb => ?_,
    fun s t₁ a s₁ t₂ b s₂ e hu hv ha => ?_⟩
  · exact ends_bind_of_stop hu hx
  · refine (bind_agrees_of_ends hu).ends_iff.2 (Run.ends_forM_bind.2 ⟨t₂, ?_, rfl⟩)
    rw [after_pure]
    exact ends_bind_of_stop hv hx
  · exact happlied hu hv
  · -- the inner function is applied first, so the outer one is not called
    have hraise (x : κ) : (app b x >>= app a).Agrees
        ((pure x : Run ω ε κ) >>= fun _ => Run.raise e) := by
      rw [pure_bind]
      exact ((hb x).bind fun _ => .refl _).trans (.of_eq (Run.raise_bind e _))
    refine (happlied hu hv).trans ((Run.Agrees.refl _).bind fun _ => ?_)
    refine (map_agrees_of_unfit hraise s₂).trans (.of_eq ?_)
    simp only [pure_bind]
  · have hraise (x : κ) : (app b x >>= app a).Agrees (app b x >>= fun _ => Run.raise e) :=
      (Run.Agrees.refl _).bind ha
    exact (happlied hu hv).trans ((Run.Agrees.refl _).bind fun _ => map_agrees_of_unfit hraise s₂)

theorem AppliesLast.of_agrees {q q' : Parser ω ε κ} (h : AppliesLast app u v w q)
    (hq : q'.Agrees q) : AppliesLast app u v w q' where
  outer s t x hu hx := (hq s).ends_iff.2 (h.outer s t x hu hx)
  inner s t₁ a s₁ t₂ x hu hv hx := (hq s).ends_iff.2 (h.inner s t₁ a s₁ t₂ x hu hv hx)
  applied s t₁ a s₁ t₂ b s₂ hu hv := (hq s).trans (h.applied s t₁ a s₁ t₂ b s₂ hu hv)
  unfitInner s t₁ a s₁ t₂ b s₂ e hu hv hb :=
    (hq s).trans (h.unfitInner s t₁ a s₁ t₂ b s₂ e hu hv hb)
  unfitOuter s t₁ a s₁ t₂ b s₂ e hu hv ha :=
    (hq s).trans (h.unfitOuter s t₁ a s₁ t₂ b s₂ e hu hv ha)

end Parser

/-! ## Identity and composition in scripts -/

namespace Script

open Descent.Parser (AppliesLast Composes IsIdentity ap)

/-- The function that gives its argument back. -/
def identity : Value := .closure [] "x" (.var "x")

/-- The curried function that composes two functions: the second is applied first. -/
def composer : Value := .closure [] "a" (.fn "b" (.fn "x"
  (.call (.act .call) [.var "a", .call (.act .call) [.var "b", .var "x"]])))

/-- The function that applies its argument to `x`. -/
def applyingTo (x : Value) : Value :=
  .closure [("x", x)] "g" (.call (.act .call) [.var "g", .var "x"])

/-- The function that comes up with a parser, which succeeds with what `f` makes of the argument. -/
def succeedingWith (f : Value) : Value :=
  .closure [("f", f)] "y" (.call (.make .succeed) [.call (.act .call) [.var "f", .var "y"]])

theorem identity_isIdentity (globals : Env) : IsIdentity (calls globals).apply identity :=
  fun x => calls_apply_agrees globals [] "x" (.var "x") x

theorem composer_composes (globals : Env) : Composes (calls globals).apply composer := by
  intro a
  refine ⟨_, calls_apply_agrees .., fun b => ⟨_, calls_apply_agrees .., fun x => ?_⟩⟩
  refine (calls_apply_agrees ..).trans (.of_eq ?_)
  rw [eval_apply, eval_apply, eval_var (x := a) rfl, eval_var (x := b) rfl, eval_var (x := x) rfl]
  simp only [pure_bind]

theorem apply_applyingTo_agrees (globals : Env) (x g : Value) :
    ((calls globals).apply (applyingTo x) g).Agrees ((calls globals).apply g x) := by
  refine (calls_apply_agrees ..).trans (.of_eq ?_)
  rw [eval_apply, eval_var (x := g) rfl, eval_var (x := x) rfl, pure_bind, pure_bind]

theorem apply_succeedingWith_agrees (globals : Env) (f y : Value) :
    ((calls globals).apply (succeedingWith f) y).Agrees
      ((calls globals).apply f y >>= fun z => pure (.parser (.succeed z))) := by
  refine (calls_apply_agrees ..).trans (.of_eq ?_)
  rw [eval_call_one, eval_apply, eval_var (x := f) rfl, eval_var (x := y) rfl, pure_bind, pure_bind]
  rfl

/-! ## The laws, of recipes -/

variable (globals : Env)

theorem parse_identity_ap (r : Recipe Value) :
    ((calls globals).parse (.ap (.succeed identity) r)).Agrees ((calls globals).parse r) := by
  have hr := (calls globals).parse_agrees r
  refine ((calls globals).parse_agrees _).trans ?_
  exact (Parser.identity_ap (identity_isIdentity globals) _).trans hr.symm

/-- In scripts a function at hand on a value at hand succeeds with what the function gives. -/
theorem parse_succeed_ap_succeed (f x : Value) :
    ((calls globals).parse (.ap (.succeed f) (.succeed x))).Agrees
      ((calls globals).parse (.bind (.succeed x) (succeedingWith f))) := by
  refine ((calls globals).parse_agrees _).trans (.trans ?_ ((calls globals).parse_agrees _).symm)
  have hsame : ap (calls globals).apply (Parser.succeed f) (Parser.succeed x) =
      (Parser.succeed x).bind fun y =>
        (calls globals).apply f y >>= fun z => pure (Parser.succeed z) :=
    Parser.succeed_ap_succeed _ f x
  refine (Parser.Agrees.of_eq hsame).trans ?_
  refine Parser.bind_agrees (.refl _) fun y s => ?_
  -- the parser that comes up is run where the value is at hand
  have hcall := (apply_succeedingWith_agrees globals f y).symm
  rw [Parser.after_run, Parser.after_run, bind_assoc, bind_assoc]
  refine .trans ?_ (hcall.bind fun _ => .refl _)
  rw [bind_assoc]
  refine (Run.Agrees.refl _).bind fun z => ?_
  rw [pure_bind, pure_bind]
  exact ((calls globals).parse_agrees (.succeed z) s).symm

theorem parse_ap_succeed (u : Recipe Value) (x : Value) :
    ((calls globals).parse (.ap u (.succeed x))).Agrees
      ((calls globals).parse (.map (applyingTo x) u)) := by
  refine ((calls globals).parse_agrees _).trans (.trans ?_ ((calls globals).parse_agrees _).symm)
  have hsame : ap (calls globals).apply (Recipe.denote (calls globals) (calls globals).parse u)
      (Parser.succeed x) = (Recipe.denote (calls globals) (calls globals).parse u).map fun g =>
        (calls globals).apply g x := Parser.ap_succeed ..
  refine (Parser.Agrees.of_eq hsame).trans ?_
  exact Parser.map_agrees (.refl _) fun g => (apply_applyingTo_agrees globals x g).symm

/-- Applied one to the other, bracketed to the left. -/
def composed (u v w : Recipe Value) : Recipe Value := .ap (.ap (.ap (.succeed composer) u) v) w

theorem parse_composed (u v w : Recipe Value) :
    ((calls globals).parse (composed u v w)).Agrees (Parser.applyBoth (calls globals).apply
      ((calls globals).parse u) ((calls globals).parse v) ((calls globals).parse w)) := by
  have hparts (r : Recipe Value) := ((calls globals).parse_agrees r).symm
  refine ((calls globals).parse_agrees _).trans ?_
  refine (Parser.composed_agrees (composer_composes globals)).trans ?_
  exact Parser.applyBoth_agrees (hparts u) (hparts v) (hparts w)

theorem parse_ap_ap (u v w : Recipe Value) :
    ((calls globals).parse (.ap u (.ap v w))).Agrees (Parser.applyBoth (calls globals).apply
      ((calls globals).parse u) ((calls globals).parse v) ((calls globals).parse w)) := by
  have hparts (r : Recipe Value) := ((calls globals).parse_agrees r).symm
  have hsame : Recipe.denote (calls globals) (calls globals).parse (.ap u (.ap v w)) = _ :=
    Parser.ap_ap_eq
  refine ((calls globals).parse_agrees _).trans ((Parser.Agrees.of_eq hsame).trans ?_)
  exact Parser.applyBoth_agrees (hparts u) (hparts v) (hparts w)

end Script

namespace Parser

open Descent.Script (calls composed composer identity)

variable {ω ε κ : Type}

/-- **The laws of application hold, with all effects.** To apply the identity at hand changes
nothing; a function and an argument at hand come to what the function makes of the argument; an
argument at hand may as well be applied to; and three parsers may be bracketed in either way, if the
functions are composed. The two sides of each law leave the same marks, and come to the same outcome
or error or to none. Of three parsers with two functions among them, both sides stop where one of
the first two does, and apply the functions when all three have succeeded. So a value that cannot be
applied is an error then, and none if one of the parsers fails. In scripts there are such functions,
and all values but functions cannot be applied. -/
theorem application_laws (app : κ → κ → Run ω ε κ) :
    (∀ i p, IsIdentity app i → (ap app (succeed i) p).Agrees p) ∧
    (∀ f x, ap app (succeed f) (succeed x) =
      (succeed x).bind fun y => app f y >>= fun z => pure (succeed z)) ∧
    (∀ u x, ap app u (succeed x) = u.map fun g => app g x) ∧
    (∀ c u v w, Composes app c →
      (ap app (ap app (ap app (succeed c) u) v) w).Agrees (ap app u (ap app v w)) ∧
      AppliesLast app u v w (ap app (ap app (ap app (succeed c) u) v) w) ∧
      AppliesLast app u v w (ap app u (ap app v w))) ∧
    ∀ globals, IsIdentity (calls globals).apply identity ∧
      Composes (calls globals).apply composer ∧
      (∀ g x : Script.Value, g.isFunction = false →
        ((calls globals).apply g x).Agrees (Run.raise .illTyped)) ∧
      (∀ r, ((calls globals).parse (.ap (.succeed identity) r)).Agrees
        ((calls globals).parse r)) ∧
      (∀ f x, ((calls globals).parse (.ap (.succeed f) (.succeed x))).Agrees
        ((calls globals).parse (.bind (.succeed x) (Script.succeedingWith f)))) ∧
      (∀ u x, ((calls globals).parse (.ap u (.succeed x))).Agrees
        ((calls globals).parse (.map (Script.applyingTo x) u))) ∧
      ∀ u v w, ((calls globals).parse (composed u v w)).Agrees
          ((calls globals).parse (.ap u (.ap v w))) ∧
        AppliesLast (calls globals).apply ((calls globals).parse u) ((calls globals).parse v)
          ((calls globals).parse w) ((calls globals).parse (composed u v w)) ∧
        AppliesLast (calls globals).apply ((calls globals).parse u) ((calls globals).parse v)
          ((calls globals).parse w) ((calls globals).parse (.ap u (.ap v w))) := by
  refine ⟨fun i p hi => identity_ap hi p, succeed_ap_succeed app, ap_succeed app,
    fun c u v w hc => ?_, fun globals => ⟨?_, ?_, ?_, ?_, ?_, ?_, fun u v w => ?_⟩⟩
  · rw [ap_ap_eq]
    have hleft := composed_agrees (u := u) (v := v) (w := w) hc
    exact ⟨hleft, applyBoth_appliesLast.of_agrees hleft, applyBoth_appliesLast⟩
  · exact Script.identity_isIdentity globals
  · exact Script.composer_composes globals
  · exact fun g x hg => Script.calls_apply_of_not_isFunction globals hg x
  · exact Script.parse_identity_ap globals
  · exact Script.parse_succeed_ap_succeed globals
  · exact Script.parse_ap_succeed globals
  · have hleft := Script.parse_composed globals u v w
    have hright := Script.parse_ap_ap globals u v w
    exact ⟨hleft.trans hright.symm, applyBoth_appliesLast.of_agrees hleft,
      applyBoth_appliesLast.of_agrees hright⟩

/-- A number where a function should be, before the identity and a letter. Both sides raise the
error when the letter is there, and both fail when it is not. -/
theorem application_laws_number :
    let app := (calls []).apply
    let one : Char → Parser Script.Mark Script.Fault Script.Value := fun c =>
      (char c).map fun c => pure (.text [c])
    let five : Parser Script.Mark Script.Fault Script.Value := succeed (.int 5)
    let left := ap app (ap app (ap app (succeed composer) five) (succeed identity)) (one 'a')
    let right := ap app five (ap app (succeed identity) (one 'a'))
    IsIdentity app identity ∧ Composes app composer ∧ (Script.Value.int 5).isFunction = false ∧
    (ap app (succeed identity) (one 'a')).Agrees (one 'a') ∧ left.Agrees right ∧
    (left.run ['a']).Agrees (Run.raise .illTyped) ∧
    (right.run ['a']).Agrees (Run.raise .illTyped) ∧
    (left.run ['b']).Agrees (pure .failure) ∧ (right.run ['b']).Agrees (pure .failure) := by
  intro app one five left right
  obtain ⟨hidentity, -, -, hcomposition, hscripts⟩ := application_laws app
  obtain ⟨hid, hcomposer, hrefuses, -⟩ := hscripts []
  obtain ⟨hsame, hleft, hright⟩ :=
    hcomposition composer five (succeed identity) (one 'a') hcomposer
  have hfive (x : Script.Value) : (app (.int 5) x).Agrees (Run.raise .illTyped) :=
    hrefuses (.int 5) x rfl
  have hletter : (one 'a').run ['a'] = pure (.success (.text ['a']) []) := by
    rw [map_run, char_cons]
    simp only [pure_bind]
  have hother : (one 'a').run ['b'] = pure .failure := by
    rw [map_run, char_of_not (fun r h => (by cases h)), pure_bind]
  have hraise (q : Parser Script.Mark Script.Fault Script.Value)
      (hq : AppliesLast app five (succeed identity) (one 'a') q) :
      (q.run ['a']).Agrees (Run.raise .illTyped) := by
    have h := hq.unfitOuter ['a'] [] (.int 5) ['a'] [] identity ['a'] _ ⟨0, rfl⟩ ⟨0, rfl⟩ hfive
    rw [hletter] at h
    refine h.trans ?_
    rw [List.append_nil, List.forM_nil, pure_bind, pure_bind]
    exact ((hid (.text ['a'])).bind fun _ => .refl _).trans (.of_eq (pure_bind ..))
  have hfail (q : Parser Script.Mark Script.Fault Script.Value)
      (hq : AppliesLast app five (succeed identity) (one 'a') q) :
      (q.run ['b']).Agrees (pure .failure) := by
    have h := hq.unfitOuter ['b'] [] (.int 5) ['b'] [] identity ['b'] _ ⟨0, rfl⟩ ⟨0, rfl⟩ hfive
    rw [hother] at h
    refine h.trans (.of_eq ?_)
    rw [List.append_nil, List.forM_nil, pure_bind, pure_bind]
  exact ⟨hid, hcomposer, rfl, hidentity identity (one 'a') hid, hsame, hraise left hleft,
    hraise right hright, hfail left hleft, hfail right hright⟩

end Parser

end Descent
