import Descent.Proofs.Ensures
import Descent.Proofs.Sequences
import Descent.Parser.Watch
import Descent.Script.Eval

/-!
# Curried functions, value by value

`liftAs` puts a curried function and several parsers together by applying, again and again, a parser
of functions to a parser of values. What it does runs the other way: a parser, an application to its
value, the next parser.

* `feed app f ps`: the parsers in turn, where `f` is applied to each value at once.
* `foldl_ap`: **applying again and again is feeding.**
* `Passes app s f ps ss r g rest`: the parsers succeed in turn, in the stages `ss`, up to those that
  are left over.
* `Breaks app g q r`: how a sequence comes to its end at the parser `q`.
* `ends_feed_iff`: a sequence ends after all of its stages, or after some of them where it breaks.
* `passes_announced_iff`: runs and applications that announce themselves.
* `liftAs_feeds`: **the results together.**
-/

namespace Descent

namespace Parser

variable {ω ε α β φ : Type}

/-- **Runs the parsers in turn,** each on what the one before it has left, and applies the function
to each value as soon as it is there, before the next parser runs. -/
def feed (app : φ → α → Run ω ε φ) : φ → List (Parser ω ε α) → Parser ω ε φ
  | f, [] => succeed f
  | f, p :: ps => p.bind fun a => app f a >>= fun g => pure (feed app g ps)

/-- A parser that has succeeded, and the application to its value that has followed. -/
structure Stage (ω φ α : Type) where
  /-- The text that the parser was run on. -/
  text : Text
  /-- The marks of the run. -/
  ran : List ω
  fn : φ
  value : α
  /-- The marks of the application. -/
  applied : List ω

/-- The marks of a stage: the run comes first. -/
def Stage.marks (st : Stage ω φ α) : List ω := st.ran ++ st.applied

variable {app : φ → α → Run ω ε φ}

theorem feed_nil (f : φ) : feed app f [] = succeed f := rfl

theorem feed_cons (f : φ) (p : Parser ω ε α) (ps : List (Parser ω ε α)) :
    feed app f (p :: ps) = p.bind fun a => app f a >>= fun g => pure (feed app g ps) := rfl

/-! ## The order of effects -/

/-- A function on the value and then a sequence is one sequence. -/
theorem map_bind (p : Parser ω ε α) (h : α → Run ω ε φ) (f : φ → Run ω ε (Parser ω ε β)) :
    (p.map h).bind f = p.bind fun a => h a >>= f := by
  refine Parser.ext (funext fun s => ?_)
  rw [bind_run, map_run, bind_run, bind_assoc]
  refine congrArg (p.run s >>= ·) (funext fun o => ?_)
  cases o with
  | failure => exact pure_bind ..
  | success a rest => simp only [bind_assoc, pure_bind]

theorem bind_feed_cons (u : Parser ω ε φ) (p : Parser ω ε α) (ps : List (Parser ω ε α)) :
    (u.bind fun g => pure (feed app g (p :: ps))) =
      (ap app u p).bind fun g => pure (feed app g ps) := by
  rw [ap, bind_bind]
  refine congrArg u.bind (funext fun g => ?_)
  rw [pure_bind, map_bind, feed_cons]

/-- **Applying a parser of functions to one parser after the other is feeding its function** with
their values. The nest of applications is the reverse of the order in which they are carried out. -/
theorem foldl_ap {app : α → α → Run ω ε α} (u : Parser ω ε α) (ps : List (Parser ω ε α)) :
    ps.foldl (ap app) u = u.bind fun g => pure (feed app g ps) := by
  induction ps generalizing u with
  | nil => exact (bind_succeed u).symm
  | cons p ps ih => rw [List.foldl_cons, ih, bind_feed_cons]

theorem liftAs_eq_feed {app : α → α → Run ω ε α} (f : α) (p : Parser ω ε α)
    (ps : List (Parser ω ε α)) : liftAs app f p ps = feed app f (p :: ps) := by
  rw [liftAs, foldl_ap, map_bind, feed_cons]

/-- Feeding from the first parsers and then from others is feeding from all. -/
theorem feed_append (f : φ) (ps qs : List (Parser ω ε α)) :
    feed app f (ps ++ qs) = (feed app f ps).bind fun g => pure (feed app g qs) := by
  induction ps generalizing f with
  | nil => rw [List.nil_append, feed_nil, succeed_bind, after_pure]
  | cons p ps ih =>
    rw [List.cons_append, feed_cons, feed_cons, bind_bind]
    refine congrArg p.bind (funext fun a => ?_)
    simp only [bind_assoc, pure_bind, ih]

/-! ## Stages -/

/-- **The parsers succeed in turn, stage by stage:** from the text `s`, the function `f` and the
parsers `ps`, to the text `r`, the function `g` and the parsers that have not been run. -/
inductive Passes (app : φ → α → Run ω ε φ) : Text → φ → List (Parser ω ε α) →
    List (Stage ω φ α) → Text → φ → List (Parser ω ε α) → Prop
  | nil (s : Text) (f : φ) (ps : List (Parser ω ε α)) : Passes app s f ps [] s f ps
  | cons {s s' r : Text} {f g g' : φ} {p : Parser ω ε α} {ps rest : List (Parser ω ε α)}
      {t u : List ω} {a : α} {ss : List (Stage ω φ α)}
      (h : (p.run s).Ends t (.ok (.success a s'))) (k : (app f a).Ends u (.ok g))
      (hs : Passes app s' g ps ss r g' rest) :
      Passes app s f (p :: ps) (⟨s, t, f, a, u⟩ :: ss) r g' rest

/-- **How a sequence breaks at the parser `q`,** on the text `r`: with the parser, or when the
function is applied to its value. -/
inductive Breaks (app : φ → α → Run ω ε φ) (g : φ) (q : Parser ω ε α) (r : Text) :
    List ω → Except ε (Outcome φ) → Prop
  | failure {t : List ω} (h : (q.run r).Ends t (.ok .failure)) : Breaks app g q r t (.ok .failure)
  | error {t : List ω} {e : ε} (h : (q.run r).Ends t (.error e)) :
      Breaks app g q r t (.error e)
  | refused {t u : List ω} {a : α} {r' : Text} {e : ε}
      (h : (q.run r).Ends t (.ok (.success a r'))) (k : (app g a).Ends u (.error e)) :
      Breaks app g q r (t ++ u) (.error e)

variable {s r : Text} {f g : φ} {p q : Parser ω ε α} {ps rest : List (Parser ω ε α)}
  {ss : List (Stage ω φ α)} {t : List ω} {x : Except ε (Outcome φ)}

/-- There is a stage for each parser that is not left over. -/
theorem Passes.length (h : Passes app s f ps ss r g rest) :
    ss.length + rest.length = ps.length := by
  induction h with
  | nil s f ps => simp
  | cons _ _ _ ih => simp only [List.length_cons]; omega

/-- A sequence breaks at its first parser, or goes on from the value and the remainder. -/
theorem ends_feed_cons : ((feed app f (p :: ps)).run s).Ends t x ↔ Breaks app f p s t x ∨
    ∃ a s' g t₁ t₂ t₃, (p.run s).Ends t₁ (.ok (.success a s')) ∧ (app f a).Ends t₂ (.ok g) ∧
      ((feed app g ps).run s').Ends t₃ x ∧ t = t₁ ++ t₂ ++ t₃ := by
  have hnext {a : α} {s' : Text} : (after (app f a >>= fun g => pure (feed app g ps))).run s' =
      app f a >>= fun g => (feed app g ps).run s' := by simp only [after_run, bind_assoc, pure_bind]
  rw [feed_cons, ends_bind]
  simp only [hnext, Run.ends_bind]
  constructor
  · rintro (⟨e, h, rfl⟩ | ⟨h, rfl⟩ | ⟨a, s', u, v, h, ⟨e, k, rfl⟩ | ⟨g, t₂, t₃, k, hs, rfl⟩, rfl⟩)
    · exact .inl (.error h)
    · exact .inl (.failure h)
    · exact .inl (.refused h k)
    · exact .inr ⟨a, s', g, u, t₂, t₃, h, k, hs, (List.append_assoc ..).symm⟩
  · rintro (h | ⟨a, s', g, t₁, t₂, t₃, h, k, hs, rfl⟩)
    · cases h with
      | failure h => exact .inr (.inl ⟨h, rfl⟩)
      | error h => exact .inl ⟨_, h, rfl⟩
      | refused h k => exact .inr (.inr ⟨_, _, _, _, h, .inl ⟨_, k, rfl⟩, rfl⟩)
    · exact .inr (.inr ⟨a, s', t₁, t₂ ++ t₃, h, .inr ⟨g, t₂, t₃, k, hs, rfl⟩,
        List.append_assoc ..⟩)

/-- **From the stages passed on,** the sequence does what is left of it. -/
theorem Passes.agrees (h : Passes app s f ps ss r g rest) : ((feed app f ps).run s).Agrees
    (forM (ss.flatMap Stage.marks) Run.emit >>= fun _ => (feed app g rest).run r) := by
  induction h with
  | nil s f ps => exact .of_eq (pure_bind ..).symm
  | @cons s s' r f g g' p ps rest t u a ss h k hs ih =>
    have hrun : ((feed app f (p :: ps)).run s).Agrees (forM t Run.emit >>= fun _ =>
        app f a >>= fun g => (feed app g ps).run s') := by
      rw [feed_cons, bind_run]
      refine (h.agrees.bind fun o => .refl _).trans (.of_eq ?_)
      simp only [Run.ofExcept_ok, bind_assoc, pure_bind]
    have happ : (app f a >>= fun g => (feed app g ps).run s').Agrees (forM u Run.emit >>= fun _ =>
        (feed app g ps).run s') := by
      refine (k.agrees.bind fun g => .refl _).trans (.of_eq ?_)
      simp only [Run.ofExcept_ok, bind_assoc, pure_bind]
    refine hrun.trans ?_
    refine ((Run.Agrees.refl _).bind fun _ =>
    happ.trans ((Run.Agrees.refl _).bind fun _ => ih)).trans (.of_eq ?_)
    simp only [List.flatMap_cons, Stage.marks, List.forM_append, bind_assoc]

/-- **How a sequence ends:** after all of its stages, with the last value of the function, or after
some of them, where it breaks. -/
theorem ends_feed_iff : ((feed app f ps).run s).Ends t x ↔
    (∃ ss r v, Passes app s f ps ss r v [] ∧ t = ss.flatMap Stage.marks ∧
      x = .ok (.success v r)) ∨
    ∃ ss r g q post u, Passes app s f ps ss r g (q :: post) ∧ Breaks app g q r u x ∧
      t = ss.flatMap Stage.marks ++ u := by
  constructor
  · intro h
    induction ps generalizing s f t with
    | nil =>
      obtain ⟨rfl, rfl⟩ := Run.ends_pure.1 h
      exact .inl ⟨[], s, f, .nil s f [], rfl, rfl⟩
    | cons p ps ih =>
      rcases ends_feed_cons.1 h with hb | ⟨a, s', g, t₁, t₂, t₃, hp, happ, hs, rfl⟩
      · exact .inr ⟨[], s, f, p, ps, t, .nil s f _, hb, rfl⟩
      · rcases ih hs with ⟨ss, r, v, hss, rfl, rfl⟩ | ⟨ss, r, g', q, post, u, hss, hb, rfl⟩
        · exact .inl ⟨_, r, v, .cons hp happ hss, by simp [Stage.marks], rfl⟩
        · exact .inr ⟨_, r, g', q, post, u, .cons hp happ hss, hb, by simp [Stage.marks]⟩
  · rintro (⟨ss, r, v, h, rfl, rfl⟩ | ⟨ss, r, g, q, post, u, h, hb, rfl⟩)
    · refine h.agrees.ends_iff.2 (Run.ends_forM_bind.2 ⟨[], ?_, (List.append_nil _).symm⟩)
      exact Run.ends_pure.2 ⟨rfl, rfl⟩
    · exact h.agrees.ends_iff.2 (Run.ends_forM_bind.2 ⟨u, ends_feed_cons.2 (.inl hb), rfl⟩)

/-! ## Runs and applications that announce themselves -/

/-- Leaves a mark before anything else of an application. -/
def announcedApp (applied : φ → α → ω) (app : φ → α → Run ω ε φ) (f : φ) (a : α) : Run ω ε φ :=
  Run.emit (applied f a) >>= fun _ => app f a

/-- Parsers that leave a mark before anything else of a run, with their places and the text. -/
def announcedRuns (ran : Nat → Text → ω) (ps : List (Parser ω ε α)) : List (Parser ω ε α) :=
  ps.mapIdx fun i p => logInput (fun s => Run.emit (ran i s)) p

/-- The stage of parsers and applications that announce themselves. -/
def Stage.announce (ran : Text → ω) (applied : φ → α → ω) (st : Stage ω φ α) : Stage ω φ α where
  text := st.text
  ran := ran st.text :: st.ran
  fn := st.fn
  value := st.value
  applied := applied st.fn st.value :: st.applied

theorem announcedRuns_cons (ran : Nat → Text → ω) (p : Parser ω ε α) (ps : List (Parser ω ε α)) :
    announcedRuns ran (p :: ps) =
      logInput (fun s => Run.emit (ran 0 s)) p :: announcedRuns (fun i => ran (i + 1)) ps :=
  List.mapIdx_cons

/-- **Announcing changes nothing but the announcements:** the same stages are passed, each announced
when its parser is run and when the function is applied, and the same parsers are left over. -/
theorem passes_announced_iff {ran : Nat → Text → ω} {applied : φ → α → ω}
    {ts : List (Stage ω φ α)} {rest' : List (Parser ω ε α)} :
    Passes (announcedApp applied app) s f (announcedRuns ran ps) ts r g rest' ↔
      ∃ ss rest, Passes app s f ps ss r g rest ∧
        ts = (ss.mapIdx fun i st => st.announce (ran i) applied) ∧
        rest' = announcedRuns (fun i => ran (i + ss.length)) rest := by
  constructor
  · intro h
    induction ps generalizing ran s f ts with
    | nil =>
      cases h with
      | nil => exact ⟨[], [], .nil _ _ [], rfl, rfl⟩
    | cons p ps ih =>
      rw [announcedRuns_cons] at h
      cases h with
      | nil => exact ⟨[], p :: ps, .nil _ _ _, rfl, (announcedRuns_cons ..).symm⟩
      | cons hp happ hs =>
        obtain ⟨t, ht, rfl⟩ := ends_logInput_emit.1 hp
        obtain ⟨u, hu, rfl⟩ := Run.ends_emit_bind.1 happ
        obtain ⟨ss, rest, hss, rfl, rfl⟩ := ih hs
        exact ⟨_, rest, .cons ht hu hss, by rw [List.mapIdx_cons]; rfl, rfl⟩
  · rintro ⟨ss, rest, h, rfl, rfl⟩
    induction h generalizing ran with
    | nil s f ps => exact .nil s f _
    | cons hp happ _ ih =>
      rw [List.mapIdx_cons, announcedRuns_cons]
      exact .cons (ends_logInput_emit.2 ⟨_, hp, rfl⟩) (Run.ends_emit_bind.2 ⟨_, happ, rfl⟩) ih

/-- The marks of stages that announce themselves. -/
def announcedMarks (ran : Nat → Text → ω) (applied : φ → α → ω) (ss : List (Stage ω φ α)) :
    List ω :=
  (ss.mapIdx fun i st =>
    ran i st.text :: st.ran ++ applied st.fn st.value :: st.applied).flatten

theorem flatMap_marks_announce (ran : Nat → Text → ω) (applied : φ → α → ω)
    (ss : List (Stage ω φ α)) :
    (ss.mapIdx fun i st => st.announce (ran i) applied).flatMap Stage.marks =
      announcedMarks ran applied ss := by
  simp only [announcedMarks, List.flatMap_def, List.mapIdx_eq_zipIdx_map, List.map_map]
  rfl

/-- **What is announced of a sequence:** all of its stages, or the stages up to the parser that
fails, and the run of that one. -/
theorem ends_announced_iff {ran : Nat → Text → ω} {applied : φ → α → ω} {o : Outcome φ} :
    ((feed (announcedApp applied app) f (announcedRuns ran ps)).run s).Ends t (.ok o) ↔
      (∃ ss r v, Passes app s f ps ss r v [] ∧ o = .success v r ∧
        t = announcedMarks ran applied ss) ∨
      ∃ ss r g q post u, Passes app s f ps ss r g (q :: post) ∧
        (q.run r).Ends u (.ok .failure) ∧ o = .failure ∧
        t = announcedMarks ran applied ss ++ ran ss.length r :: u := by
  rw [ends_feed_iff]
  constructor
  · rintro (⟨ts, r, v, h, rfl, ho⟩ | ⟨ts, r, g, q', post', u, h, hb, rfl⟩)
    · obtain ⟨ss, rest, hss, rfl, hrest⟩ := passes_announced_iff.1 h
      obtain rfl : rest = [] := List.mapIdx_eq_nil_iff.1 hrest.symm
      exact .inl ⟨ss, r, v, hss, Except.ok.inj ho, flatMap_marks_announce ran applied ss⟩
    · obtain ⟨ss, rest, hss, rfl, hrest⟩ := passes_announced_iff.1 h
      cases rest with
      | nil => cases hrest
      | cons q post =>
        rw [announcedRuns_cons] at hrest
        obtain ⟨rfl, rfl⟩ := List.cons.inj hrest
        cases hb with
        | failure hq =>
          obtain ⟨v, hv, rfl⟩ := ends_logInput_emit.1 hq
          refine .inr ⟨ss, r, g, q, post, v, hss, hv, rfl, ?_⟩
          rw [flatMap_marks_announce, Nat.zero_add]
  · rintro (⟨ss, r, v, h, rfl, rfl⟩ | ⟨ss, r, g, q, post, u, h, hq, rfl, rfl⟩)
    · exact .inl ⟨_, r, v, passes_announced_iff.2 ⟨ss, [], h, rfl, rfl⟩,
        (flatMap_marks_announce ran applied ss).symm, rfl⟩
    · refine .inr ⟨_, r, g, _, _, _,
        passes_announced_iff.2 ⟨ss, q :: post, h, rfl, (announcedRuns_cons ..).symm⟩,
        .failure (ends_logInput_emit.2 ⟨u, hq, rfl⟩), ?_⟩
      rw [flatMap_marks_announce, Nat.zero_add]

end Parser

namespace Script

/-- The values that can be applied to an argument. -/
def Value.isFunction : Value → Bool
  | .closure .. | .equals _ | .unpacked _ | .parser _ | .recorder _ | .printer => true
  | _ => false

/-- **Applying what is no function** is an error and nothing else. -/
theorem calls_apply_of_not_isFunction (globals : Env) {g : Value} (hg : g.isFunction = false)
    (x : Value) : ((calls globals).apply g x).Agrees (Run.raise .illTyped) := by
  refine (Run.fix_agrees (callStep_monotonic globals) (.apply g x)).trans (.of_eq ?_)
  cases g with
  | closure | equals | unpacked | parser | recorder | printer => cases hg
  | null | bool | int | text | list | tuple | outcome | parseError | thunk => rfl

end Script

namespace Parser

variable {ω ε α : Type} {app : α → α → Run ω ε α}

/-- A function that cannot be applied is found out when there is a value for it, and only then. -/
theorem feed_agrees_of_unfit {φ : Type} {app : φ → α → Run ω ε φ} {g : φ} {e : ε}
    (hg : ∀ a, (app g a).Agrees (Run.raise e)) (q : Parser ω ε α) (ps : List (Parser ω ε α))
    (r : Text) : ((feed app g (q :: ps)).run r).Agrees (q.run r >>= fun
      | .success _ _ => Run.raise e
      | .failure => pure .failure) := by
  rw [feed_cons, bind_run]
  refine (Run.Agrees.refl (q.run r)).bind fun o => ?_
  cases o with
  | failure => exact .refl _
  | success a r' =>
    dsimp only
    rw [bind_assoc]
    exact ((hg a).bind fun _ => .refl _).trans (.of_eq (Run.raise_bind e _))

/-- **A curried function is fed value by value.** The parsers run in turn, each on what the one
before it has left, and the function is applied to each value as soon as it is there and before the
next parser runs. A run that ends has passed all stages, and comes to the last value of the function
and the remainder of the last parser, or it has passed some stages and breaks at the next one, and
what stands behind that is left alone. Where runs and applications announce themselves, just the
parsers up to a failure do so, and the applications to the values of all but the failed one, in
turn. A function that cannot be applied is an error once its parser has succeeded, and nothing if
it fails. In scripts this is so for all values that are no functions. -/
theorem liftAs_feeds (app : α → α → Run ω ε α) (f : α) (p : Parser ω ε α)
    (ps : List (Parser ω ε α)) :
    liftAs app f p ps = feed app f (p :: ps) ∧
    (∀ s t x, ((liftAs app f p ps).run s).Ends t x ↔
      (∃ ss r v, Passes app s f (p :: ps) ss r v [] ∧ t = ss.flatMap Stage.marks ∧
        x = .ok (.success v r)) ∨
      ∃ ss r g q post u, Passes app s f (p :: ps) ss r g (q :: post) ∧ Breaks app g q r u x ∧
        t = ss.flatMap Stage.marks ++ u) ∧
    (∀ (ran : Nat → Text → ω) (applied : α → α → ω) s t o,
      ((liftAs (announcedApp applied app) f (logInput (fun s => Run.emit (ran 0 s)) p)
          (announcedRuns (fun i => ran (i + 1)) ps)).run s).Ends t (.ok o) ↔
        (∃ ss r v, Passes app s f (p :: ps) ss r v [] ∧ ss.length = ps.length + 1 ∧
          o = .success v r ∧ t = announcedMarks ran applied ss) ∨
        ∃ ss r g q post u, Passes app s f (p :: ps) ss r g (q :: post) ∧
          ss.length + post.length = ps.length ∧ (q.run r).Ends u (.ok .failure) ∧
          o = .failure ∧ t = announcedMarks ran applied ss ++ ran ss.length r :: u) ∧
    (∀ s ss r g q post e, Passes app s f (p :: ps) ss r g (q :: post) →
      (∀ a, (app g a).Agrees (Run.raise e)) →
      ((liftAs app f p ps).run s).Agrees (forM (ss.flatMap Stage.marks) Run.emit >>= fun _ =>
        q.run r >>= fun
          | .success _ _ => Run.raise e
          | .failure => pure .failure)) ∧
    ∀ globals (g x : Script.Value), g.isFunction = false →
      ((Script.calls globals).apply g x).Agrees (Run.raise .illTyped) := by
  refine ⟨liftAs_eq_feed f p ps, fun s t x => ?_, fun ran applied s t o => ?_,
    fun s ss r g q post e h hg => ?_, fun globals g x hg => ?_⟩
  · rw [liftAs_eq_feed]
    exact ends_feed_iff
  · rw [liftAs_eq_feed, ← announcedRuns_cons, ends_announced_iff]
    constructor
    · rintro (⟨ss, r, v, h, ho, ht⟩ | ⟨ss, r, g, q, post, u, h, hq, ho, ht⟩)
      · exact .inl ⟨ss, r, v, h, h.length, ho, ht⟩
      · exact .inr ⟨ss, r, g, q, post, u, h, Nat.succ.inj h.length, hq, ho, ht⟩
    · rintro (⟨ss, r, v, h, -, ho, ht⟩ | ⟨ss, r, g, q, post, u, h, -, hq, ho, ht⟩)
      · exact .inl ⟨ss, r, v, h, ho, ht⟩
      · exact .inr ⟨ss, r, g, q, post, u, h, hq, ho, ht⟩
  · rw [liftAs_eq_feed]
    exact h.agrees.trans ((Run.Agrees.refl _).bind fun _ => feed_agrees_of_unfit hg q post r)
  · exact Script.calls_apply_of_not_isFunction globals hg x

/-- A function of one argument before three parsers. Its value is a number, which is applied when
the second parser has succeeded, and is not when it fails. -/
theorem liftAs_feeds_number :
    let one : Char → Parser Script.Mark Script.Fault Script.Value := fun c =>
      (char c).map fun c => pure (.text [c])
    let app := (Script.calls []).apply
    let five : Script.Value := .closure [] "x" (.int 5)
    (∀ rest : Text, ∃ ss, ss.flatMap Stage.marks = [] ∧
      Passes app ('a' :: rest) five [one 'a', one 'b', one 'c'] ss rest (.int 5)
        [one 'b', one 'c']) ∧
    ((liftAs app five (one 'a') [one 'b', one 'c']).run ['a', 'b']).Agrees
      (Run.raise .illTyped) ∧
    ((liftAs app five (one 'a') [one 'b', one 'c']).run ['a', 'c']).Agrees (pure .failure) := by
  intro one app five
  have hpass (rest : Text) : Passes app ('a' :: rest) five [one 'a', one 'b', one 'c']
      [⟨'a' :: rest, [], five, .text ['a'], []⟩] rest (.int 5) [one 'b', one 'c'] :=
    .cons ⟨0, rfl⟩ ⟨1, rfl⟩ (.nil _ _ _)
  obtain ⟨-, -, -, hunfit, hscript⟩ := liftAs_feeds app five (one 'a') [one 'b', one 'c']
  have hnumber (a : Script.Value) : (app (.int 5) a).Agrees (Run.raise .illTyped) :=
    hscript [] (.int 5) a rfl
  exact ⟨fun rest => ⟨_, rfl, hpass rest⟩, hunfit _ _ _ _ _ _ _ (hpass ['b']) hnumber,
    hunfit _ _ _ _ _ _ _ (hpass ['c']) hnumber⟩

end Parser

end Descent
