import Descent.Parser.Choice
import Descent.Parser.Watch

/-!
# A choice among many, alternative by alternative

A choice among many references is a nest of choices between two, to the left or to the right. It
looks an alternative up when its turn has come and runs it at once on the text it was given itself.

* `foldl_orElse`: choosing from left to right is one choice, with all the others as its second part.
* `nested`: the choice to the right, where every second part is deferred.
* `firstOf_append`: a choice within a choice may be written out in place.
* `Tried s rs ts o`: the alternatives that are tried on `s`, all but the last of which fail.
* `announced`: a reference that tells when it is looked up and when its parser runs.
* `firstOf_reduces`: **a choice among many is both nests,** and it tries its alternatives in order,
  each looked up once and right before it runs, up to the first that succeeds.
-/

namespace Descent.Parser

variable {ω ε α : Type}

/-! ## Laws of choice -/

/-- A choice depends on its reference only through what the reference does when it is run. -/
theorem orElse_congr {p : Parser ω ε α} {r r' : Ref ω ε α} (h : lazily r = lazily r') :
    p.orElse r = p.orElse r' := by
  unfold Parser.orElse
  rw [h]

theorem orElse_fail (p : Parser ω ε α) : p.orElse (.ready fail) = p := by
  refine Parser.ext (funext fun s => ?_)
  rw [orElse_run]
  refine Eq.trans (congrArg (p.run s >>= ·) (funext fun o => ?_)) (bind_pure _)
  cases o with
  | success a rest => rfl
  | failure => rw [Ref.force, pure_bind, fail_run]

theorem fail_orElse (r : Ref ω ε α) : (fail : Parser ω ε α).orElse r = lazily r := by
  refine Parser.ext (funext fun s => ?_)
  rw [orElse_run, fail_run, pure_bind, lazily, after_run]

theorem orElse_assoc (p : Parser ω ε α) (r r' : Ref ω ε α) :
    (p.orElse r).orElse r' = p.orElse (.ready ((lazily r).orElse r')) := by
  refine Parser.ext (funext fun s => ?_)
  simp only [Parser.orElse, bind_assoc, lazily_ready]
  refine congrArg (p.run s >>= ·) (funext fun o => ?_)
  cases o with
  | success a rest => rw [pure_bind]
  | failure => rfl

/-- **Choosing from left to right** is choosing once, with the other alternatives as a choice of
their own. -/
theorem foldl_orElse (rs : List (Ref ω ε α)) (p : Parser ω ε α) :
    rs.foldl Parser.orElse p = p.orElse (.ready (firstOf rs)) := by
  induction rs generalizing p with
  | nil => exact (orElse_fail p).symm
  | cons r rs ih =>
    calc (r :: rs).foldl Parser.orElse p = (p.orElse r).orElse (.ready (firstOf rs)) := ih _
      _ = p.orElse (.ready ((lazily r).orElse (.ready (firstOf rs)))) := orElse_assoc ..
      _ = p.orElse (.ready (firstOf (r :: rs))) := by rw [firstOf_cons]

theorem firstOf_eq_foldl (r : Ref ω ε α) (rs : List (Ref ω ε α)) :
    firstOf (r :: rs) = rs.foldl Parser.orElse (lazily r) := by
  rw [firstOf_cons, foldl_orElse]

theorem firstOf_singleton (r : Ref ω ε α) : firstOf [r] = lazily r := firstOf_eq_foldl r []

/-- The choice between a reference and others, to the right: every second part is computed when the
first one has failed. -/
def nested : Ref ω ε α → List (Ref ω ε α) → Ref ω ε α
  | r, [] => r
  | r, r' :: rs => .deferred (pure ((lazily r).orElse (nested r' rs)))

/-- **Choosing to the right** is the choice among all. -/
theorem lazily_nested (r : Ref ω ε α) (rs : List (Ref ω ε α)) :
    lazily (nested r rs) = firstOf (r :: rs) := by
  induction rs generalizing r with
  | nil => exact (firstOf_singleton r).symm
  | cons r' rs ih =>
    have htail : (lazily r).orElse (nested r' rs) =
        (lazily r).orElse (.ready (firstOf (r' :: rs))) :=
      orElse_congr (by rw [ih, lazily_ready])
    rw [nested, lazily_deferred, after_pure, htail, ← firstOf_cons]

theorem firstOf_append (qs rs : List (Ref ω ε α)) :
    firstOf (qs ++ rs) = (firstOf qs).orElse (.ready (firstOf rs)) := by
  induction qs with
  | nil => rw [List.nil_append, firstOf_nil, fail_orElse, lazily_ready]
  | cons q qs ih =>
    rw [List.cons_append, firstOf_cons, ih, firstOf_cons, orElse_assoc, lazily_ready]

/-- **A choice within a choice** may be written out in place. -/
theorem firstOf_splice (pre qs post : List (Ref ω ε α)) :
    firstOf (pre ++ .ready (firstOf qs) :: post) = firstOf (pre ++ (qs ++ post)) := by
  rw [firstOf_append, firstOf_append pre, firstOf_cons, lazily_ready, firstOf_append qs]

/-! ## Alternatives tried -/

/-- **The alternatives that are tried** on a text: each is looked up and its parser is run, with the
marks of the one and of the other. All but the last fail; the last one succeeds, or there is no
other. -/
inductive Tried (s : Text) :
    List (Ref ω ε α) → List (List ω × List ω) → Outcome α → Prop
  | success {r : Ref ω ε α} {rs : List (Ref ω ε α)} {p : Parser ω ε α} {u v : List ω} {a : α}
      {rest : Text} (hr : r.force.Ends u (.ok p)) (hp : (p.run s).Ends v (.ok (.success a rest))) :
      Tried s (r :: rs) [(u, v)] (.success a rest)
  | last {r : Ref ω ε α} {p : Parser ω ε α} {u v : List ω} (hr : r.force.Ends u (.ok p))
      (hp : (p.run s).Ends v (.ok .failure)) : Tried s [r] [(u, v)] .failure
  | next {r : Ref ω ε α} {rs : List (Ref ω ε α)} {p : Parser ω ε α} {u v : List ω}
      {ts : List (List ω × List ω)} {o : Outcome α} (hr : r.force.Ends u (.ok p))
      (hp : (p.run s).Ends v (.ok .failure)) (hs : Tried s rs ts o) :
      Tried s (r :: rs) ((u, v) :: ts) o

variable {s : Text} {t : List ω} {o : Outcome α}

theorem ends_lazily_ok {r : Ref ω ε α} : ((lazily r).run s).Ends t (.ok o) ↔
    ∃ p u v, r.force.Ends u (.ok p) ∧ (p.run s).Ends v (.ok o) ∧ t = u ++ v :=
  Run.ends_bind_ok

theorem ends_orElse_ok {p : Parser ω ε α} {r : Ref ω ε α} :
    ((p.orElse r).run s).Ends t (.ok o) ↔ (o.succeeded ∧ (p.run s).Ends t (.ok o)) ∨
      ∃ u v, (p.run s).Ends u (.ok .failure) ∧ ((lazily r).run s).Ends v (.ok o) ∧ t = u ++ v := by
  cases o with
  | success a rest => simp [ends_orElse_success, Outcome.succeeded]
  | failure => simp [ends_orElse_failure, Outcome.succeeded]

/-- An alternative that succeeds is the last one tried. -/
theorem Tried.of_succeeded {r : Ref ω ε α} {rs : List (Ref ω ε α)} {p : Parser ω ε α}
    {u v : List ω} (hr : r.force.Ends u (.ok p)) (hp : (p.run s).Ends v (.ok o))
    (ho : o.succeeded) : Tried s (r :: rs) [(u, v)] o := by
  cases o with
  | success a rest => exact .success hr hp
  | failure => cases ho

/-- A choice of one or more comes to the outcome of the last alternative that is tried. -/
theorem ends_firstOf_iff (r : Ref ω ε α) (rs : List (Ref ω ε α)) :
    ((firstOf (r :: rs)).run s).Ends t (.ok o) ↔
      ∃ ts, Tried s (r :: rs) ts o ∧ t = ts.flatMap fun a => a.1 ++ a.2 := by
  constructor
  · intro h
    induction rs generalizing r t with
    | nil =>
      rw [firstOf_singleton, ends_lazily_ok] at h
      obtain ⟨p, u, v, hr, hp, rfl⟩ := h
      refine ⟨[(u, v)], ?_, by simp⟩
      cases o with
      | success a rest => exact .success hr hp
      | failure => exact .last hr hp
    | cons r' rs ih =>
      rw [firstOf_cons, ends_orElse_ok] at h
      rcases h with ⟨ho, h⟩ | ⟨t₁, t₂, h, h', rfl⟩
      · obtain ⟨p, u, v, hr, hp, rfl⟩ := ends_lazily_ok.1 h
        exact ⟨[(u, v)], .of_succeeded hr hp ho, by simp⟩
      · obtain ⟨p, u, v, hr, hp, rfl⟩ := ends_lazily_ok.1 h
        rw [lazily_ready] at h'
        obtain ⟨ts, hts, rfl⟩ := ih r' h'
        exact ⟨(u, v) :: ts, .next hr hp hts, by simp⟩
  · rintro ⟨ts, h, rfl⟩
    generalize r :: rs = rs at h
    induction h with
    | @success r rs p u v a rest hr hp =>
      rw [firstOf_cons, ends_orElse_ok]
      exact .inl ⟨rfl, ends_lazily_ok.2 ⟨p, u, v, hr, hp, by simp⟩⟩
    | @last r p u v hr hp =>
      rw [firstOf_singleton, ends_lazily_ok]
      exact ⟨p, u, v, hr, hp, by simp⟩
    | @next r rs p u v ts o hr hp _ ih =>
      rw [firstOf_cons, ends_orElse_ok]
      refine .inr ⟨u ++ v, ts.flatMap fun a => a.1 ++ a.2, ends_lazily_ok.2 ⟨p, u, v, hr, hp, rfl⟩,
        ?_, by simp⟩
      rw [lazily_ready]
      exact ih

/-! ## Alternatives that announce themselves -/

/-- Leaves one mark when the parser is looked up, before anything else of the look-up, and one when
the parser found is run, with the text, before anything else of the run. -/
def announced (forced : ω) (ran : Text → ω) (r : Ref ω ε α) : Ref ω ε α :=
  .deferred (Run.emit forced >>= fun _ => r.force >>= fun p =>
    pure (logInput (fun s => Run.emit (ran s)) p))

theorem announced_force_ends {forced : ω} {ran : Text → ω} {r : Ref ω ε α} {q : Parser ω ε α} :
    (announced forced ran r).force.Ends t (.ok q) ↔ ∃ p u, r.force.Ends u (.ok p) ∧
      q = logInput (fun s => Run.emit (ran s)) p ∧ t = forced :: u := by
  rw [announced, Ref.force, Run.ends_emit_bind]
  simp only [Run.ends_bind_pure_ok]
  constructor
  · rintro ⟨u, ⟨p, hr, hq⟩, ht⟩
    exact ⟨p, u, hr, hq, ht⟩
  · rintro ⟨p, u, hr, hq, ht⟩
    exact ⟨u, ⟨p, hr, hq⟩, ht⟩

/-- **Announcing changes nothing but the announcements:** the same alternatives are tried, each
announced when it is looked up and when it runs. -/
theorem tried_announced_iff {forced : Nat → ω} {ran : Nat → Text → ω} {rs : List (Ref ω ε α)}
    {ts : List (List ω × List ω)} :
    Tried s (rs.mapIdx fun i r => announced (forced i) (ran i) r) ts o ↔
      ∃ us, Tried s rs us o ∧ ts = us.mapIdx fun i a => (forced i :: a.1, ran i s :: a.2) := by
  constructor
  · intro h
    induction rs generalizing forced ran ts with
    | nil => cases h
    | cons r rs ih =>
      rw [List.mapIdx_cons] at h
      generalize hrs : (rs.mapIdx fun i r => announced (forced (i + 1)) (ran (i + 1)) r) = rs' at h
      cases h with
      | success hr hp =>
        obtain ⟨p, u, hu, rfl, rfl⟩ := announced_force_ends.1 hr
        obtain ⟨v, hv, rfl⟩ := ends_logInput_emit.1 hp
        exact ⟨[(u, v)], .success hu hv, rfl⟩
      | last hr hp =>
        obtain ⟨p, u, hu, rfl, rfl⟩ := announced_force_ends.1 hr
        obtain ⟨v, hv, rfl⟩ := ends_logInput_emit.1 hp
        have hnil : rs = [] := by simpa using hrs
        subst hnil
        exact ⟨[(u, v)], .last hu hv, rfl⟩
      | next hr hp hs =>
        obtain ⟨p, u, hu, rfl, rfl⟩ := announced_force_ends.1 hr
        obtain ⟨v, hv, rfl⟩ := ends_logInput_emit.1 hp
        subst hrs
        obtain ⟨us, hus, rfl⟩ := ih hs
        exact ⟨(u, v) :: us, .next hu hv hus, by rw [List.mapIdx_cons]⟩
  · rintro ⟨us, h, rfl⟩
    induction h generalizing forced ran with
    | success hr hp =>
      rw [List.mapIdx_cons]
      exact .success (announced_force_ends.2 ⟨_, _, hr, rfl, rfl⟩)
        (ends_logInput_emit.2 ⟨_, hp, rfl⟩)
    | last hr hp =>
      exact .last (announced_force_ends.2 ⟨_, _, hr, rfl, rfl⟩) (ends_logInput_emit.2 ⟨_, hp, rfl⟩)
    | next hr hp _ ih =>
      rw [List.mapIdx_cons, List.mapIdx_cons]
      exact .next (announced_force_ends.2 ⟨_, _, hr, rfl, rfl⟩)
        (ends_logInput_emit.2 ⟨_, hp, rfl⟩) ih

/-- **A choice among many is a choice between two, again and again,** to the left or to the right,
and a choice within it may be written out in place. It tries its alternatives in order, up to the
first that succeeds, and comes to the outcome of the last one tried. Where every reference announces
that it is looked up, and its parser that it is run and on which text, just the alternatives tried
do so: once each and in order, the look-up right before the run, and the run on the text that the
choice itself was given. -/
theorem firstOf_reduces (r r' : Ref ω ε α) (rs : List (Ref ω ε α)) :
    firstOf (r :: r' :: rs) = (r' :: rs).foldl Parser.orElse (lazily r) ∧
    firstOf (r :: r' :: rs) = (lazily r).orElse (nested r' rs) ∧
    (∀ s t o, ((firstOf (r :: r' :: rs)).run s).Ends t (.ok o) ↔
      ∃ ts, Tried s (r :: r' :: rs) ts o ∧ t = ts.flatMap fun a => a.1 ++ a.2) ∧
    (∀ (forced : Nat → ω) (ran : Nat → Text → ω) s t o,
      ((firstOf ((r :: r' :: rs).mapIdx fun i r => announced (forced i) (ran i) r)).run s).Ends t
          (.ok o) ↔
        ∃ ts, Tried s (r :: r' :: rs) ts o ∧
          t = (ts.mapIdx fun i a => forced i :: a.1 ++ ran i s :: a.2).flatten) ∧
    ∀ pre qs post : List (Ref ω ε α),
      firstOf (pre ++ .ready (firstOf qs) :: post) = firstOf (pre ++ (qs ++ post)) := by
  refine ⟨firstOf_eq_foldl r _, ?_, fun s t o => ends_firstOf_iff r _,
    fun forced ran s t o => ?_, firstOf_splice⟩
  · rw [firstOf_cons]
    exact orElse_congr (by rw [lazily_ready, lazily_nested])
  · have hmarks (us : List (List ω × List ω)) :
        ((us.mapIdx fun i a => (forced i :: a.1, ran i s :: a.2)).flatMap fun a => a.1 ++ a.2) =
          (us.mapIdx fun i a => forced i :: a.1 ++ ran i s :: a.2).flatten := by
      simp only [List.flatMap_def, List.mapIdx_eq_zipIdx_map, List.map_map]
      rfl
    rw [List.mapIdx_cons, ends_firstOf_iff, ← List.mapIdx_cons (f := fun i r =>
      announced (forced i) (ran i) r)]
    constructor
    · rintro ⟨_, h, rfl⟩
      obtain ⟨us, hus, rfl⟩ := tried_announced_iff.1 h
      exact ⟨us, hus, hmarks us⟩
    · rintro ⟨us, h, rfl⟩
      exact ⟨_, tried_announced_iff.2 ⟨us, h, rfl⟩, (hmarks us).symm⟩

end Descent.Parser
