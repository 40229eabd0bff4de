import Descent.Proofs.Deferral
import Descent.Recipe.Places
import Descent.Run.Observe

/-!
# Observation does not disturb parsing

Observers are put at some places of a program, before the parsers there, and each shows the texts on
which its parser is run. Three programs are compared: `plain` is the original, `watching` is the one
that is watched, and `heard` announces every run of every place, whether it is watched or not. Calls
may run parsers too, so the calls of the three are not the same, but they are in step.

* `leftBy S shown`: what the observers at the places `S` make of announcements.
* `Listening S shown heard h`: announcements read in this way, the calls of `heard` do what those of
  `h` do, and the observers leave the marks `shown`.
* `Listening.hearAt_related`, `Listening.hear_agrees`: the simulation, step by step and as a whole.
  The original is the case that nothing is watched.
* `watched_without_agrees`: without the marks of observers, nothing has changed.
* `filter_leftBy_tells`: the marks of some observers are the runs of their places.
* `observation_transparent`: **the results together.**
-/

namespace Descent

namespace Host

open Recipe (denote observer)

variable {ω ε κ : Type}

/-! ## Announced runs and what observers leave -/

section

variable (S : Place κ → Option (Post κ)) (shown : Place κ → Text → ω)

/-- What observers at the places `S` make of a mark. They show the text of an announced run if it is
at their place, and other marks stay. -/
def leftBy : ω ⊕ Place κ × Text → List ω
  | .inl m => [m]
  | .inr (i, s) => if (S i).isSome then [shown i s] else []

variable {S shown} {i : Place κ} {s : Text}

theorem leftBy_of_none (hi : S i = none) : leftBy S shown (.inr (i, s)) = [] := by
  rw [leftBy, hi]
  rfl

theorem leftBy_of_some {post : Post κ} (hi : S i = some post) :
    leftBy S shown (.inr (i, s)) = [shown i s] := by
  rw [leftBy, hi]
  rfl

variable (S shown)

/-- **The first program is the second with its runs announced,** and the observers at the places `S`
of the second each leave one mark, which shows the text. Announcements may also come from calls,
where these run parsers. -/
structure Listening (heard : Host (ω ⊕ Place κ × Text) ε κ) (h : Host ω ε κ) : Prop where
  carrier : h.toCarrier = heard.toCarrier
  call : ∀ a, ((heard.call a).translate fun m => forM (leftBy S shown m) Run.emit).Agrees (h.call a)
  observer : ∀ i post, S i = some post →
    ∀ s, (observer h post.observer s).Agrees (Run.emit (shown i s))

end

section

variable {S : Place κ → Option (Post κ)} {shown : Place κ → Text → ω}
  {heard : Host (ω ⊕ Place κ × Text) ε κ} {h : Host ω ε κ}

/-- With its announcements read in this way, the first program does what the second does. -/
abbrev listening (S : Place κ → Option (Post κ)) (shown : Place κ → Text → ω) :
    Run.Relator (ω ⊕ Place κ × Text) ω ε :=
  .agree (fun m => forM (leftBy S shown m) Run.emit) Run.emit

theorem Listening.related (hl : Listening S shown heard h) :
    Related (listening S shown) .none heard h :=
  .of_calls hl.carrier fun a => Run.Relator.agree_eq.2 (by
    rw [Run.translate_emit]
    exact hl.call a)

/-- An observer leaves its mark where the run is announced. -/
theorem Listening.posted_related (hl : Listening S shown heard h) (i : Place κ)
    (p : Parser (ω ⊕ Place κ × Text) ε κ) (p' : Parser ω ε κ)
    (hp : Parser.Related (listening S shown) p p') :
    Parser.Related (listening S shown) (announcingRuns i p) (posted h S i p') := by
  unfold posted
  cases hi : S i with
  | none =>
    intro s
    have hsilent : (listening S shown : Run.Relator _ _ ε).Rel Eq (Run.emit (.inr (i, s)))
        (pure ()) := by
      refine Run.Relator.agree_eq.2 (.of_eq ?_)
      rw [Run.emit_translate, leftBy_of_none hi]
      rfl
    have hrun := (listening S shown).bind_eq hsilent fun _ => hp s
    rwa [pure_bind] at hrun
  | some post =>
    refine Parser.logInput_related (fun s => Run.Relator.agree_eq.2 ?_) hp
    have hmark : (forM [shown i s] Run.emit : Run ω ε Unit) = Run.emit (shown i s) := bind_pure _
    rw [Run.emit_translate, Run.translate_emit, leftBy_of_some hi, hmark]
    exact (hl.observer i post hi s).symm

/-- The two programs in lockstep, as deep as what comes up is unfolded. -/
theorem Listening.hearAt_related (hl : Listening S shown heard h) :
    ∀ (n : Nat) (i : Place κ) (r : Recipe κ), Parser.Related (listening S shown)
      (hearAt heard n (i, r)) ((h.watchedBy S).parseAt n (r.watched S i)) := by
  intro n
  induction n with
  | zero => exact fun _ _ _ => Run.Relator.agree_eq.2 (.refl .never)
  | succ n ih =>
    intro i r
    rw [parseAt_succ, hearAt_succ, hearStep, denote_watched]
    exact spied_related ⟨hl.related, fun y q => ih (.of y) q, hl.posted_related⟩ r i

/-- **A watched program does what its announced runs say.** -/
theorem Listening.hear_agrees (hl : Listening S shown heard h) (i : Place κ) (r : Recipe κ)
    (s : Text) :
    (((heard.hear (i, r)).run s).translate fun m => forM (leftBy S shown m) Run.emit).Agrees
      (((h.watchedBy S).parse (r.watched S i)).run s) := by
  rw [← Run.translate_emit (((h.watchedBy S).parse (r.watched S i)).run s)]
  exact Run.fix_translate_agrees (Parser.onTexts_monotonic (hearStep_monotonic heard))
    (Parser.onTexts_monotonic fun _ _ _ hself => denote_belowAt .refl hself)
    fun n => Run.Relator.agree_eq.1 (hl.hearAt_related n i r s)

theorem Listening.ends_iff (hl : Listening S shown heard h) {i : Place κ} {r : Recipe κ} {s : Text}
    {t : List ω} {x : Except ε (Outcome κ)} :
    (((h.watchedBy S).parse (r.watched S i)).run s).Ends t x ↔
      ∃ u, ((heard.hear (i, r)).run s).Ends u x ∧ t = u.flatMap (leftBy S shown) := by
  rw [← (hl.hear_agrees i r s).ends_iff, Run.ends_translate_iff]

end

/-- The program among announcements, of which its calls make none. -/
def lifted {χ : Type} (h : Host ω ε κ) : Host (ω ⊕ χ) ε κ where
  toCarrier := h.toCarrier
  apply f x := (h.apply f x).lifted
  force x := (h.force x).lifted

/-- Of any program the runs of the parsers may be announced, but for those within calls. -/
theorem listening_lifted {S : Place κ → Option (Post κ)} {shown : Place κ → Text → ω}
    {h : Host ω ε κ} (ho : ∀ i post, S i = some post →
      ∀ s, (observer h post.observer s).Agrees (Run.emit (shown i s))) :
    Listening S shown h.lifted h where
  carrier := rfl
  call a := by
    have hcall : (h.lifted : Host (ω ⊕ Place κ × Text) ε κ).call a = (h.call a).lifted := by
      cases a <;> rfl
    have hmark : (fun m => forM (leftBy S shown (.inl m)) Run.emit : ω → Run ω ε Unit) = Run.emit :=
      funext fun m => bind_pure (Run.emit m)
    rw [hcall, Run.lifted_translate, hmark, Run.translate_emit]
    exact .refl _
  observer := ho

/-! ## Observers left out -/

section

variable {S : Place κ → Option (Post κ)} {shown : Place κ → Text → ω} {L : ω → Bool}
  {heard : Host (ω ⊕ Place κ × Text) ε κ} {plain watching : Host ω ε κ}

theorem leftBy_without (hL : ∀ i s, (S i).isSome → L (shown i s) = true)
    (m : ω ⊕ Place κ × Text) : (forM (leftBy S shown m) Run.emit : Run ω ε Unit).without L =
      (forM (leftBy (fun _ => none) shown m) Run.emit : Run ω ε Unit).without L := by
  match m with
  | .inl m => rfl
  | .inr (i, s) =>
    cases hi : S i with
    | none => rw [leftBy_of_none hi, leftBy_of_none rfl]
    | some post =>
      rw [leftBy_of_some hi, leftBy_of_none rfl]
      have hlabel : L (shown i s) = true := hL i s (Option.isSome_of_eq_some hi)
      exact Run.without_labels fun m hm => List.mem_singleton.1 hm ▸ hlabel

/-- Without what the observers leave, a watched program does what the program itself does. -/
theorem watched_without_agrees (hp : Listening (fun _ => none) shown heard plain)
    (hw : Listening S shown heard watching) (hL : ∀ i s, (S i).isSome → L (shown i s) = true)
    (i : Place κ) (r : Recipe κ) (s : Text) :
    ((((watching.watchedBy S).parse (r.watched S i)).run s).without L).Agrees
      (((plain.parse r).run s).without L) := by
  have hplain := (hp.hear_agrees i r s).translate fun m => forM (Run.unlabelled L m) Run.emit
  have hwatch := (hw.hear_agrees i r s).translate fun m => forM (Run.unlabelled L m) Run.emit
  have hsame : (fun m => (forM (leftBy S shown m) Run.emit : Run ω ε Unit).without L) =
      fun m => (forM (leftBy (fun _ => none) shown m) Run.emit : Run ω ε Unit).without L :=
    funext (leftBy_without hL)
  unfold Run.without at hsame ⊢
  rw [Run.translate_translate, Recipe.watched_none, watchedBy_none] at hplain
  rw [Run.translate_translate, hsame] at hwatch
  exact hwatch.symm.trans hplain

/-! ## The marks one by one -/

/-- The marks of the program itself among those of its announced run. -/
def ownOf (u : List (ω ⊕ Place κ × Text)) : List ω := u.filterMap Sum.getLeft?

/-- The runs of the places `P`, in order: where each was, and the text it was on. -/
def runsOf (P : Place κ → Bool) (u : List (ω ⊕ Place κ × Text)) : List (Place κ × Text) :=
  (u.filterMap Sum.getRight?).filter fun a => P a.1

@[simp] theorem ownOf_inl (m : ω) (u : List (ω ⊕ Place κ × Text)) :
    ownOf (.inl m :: u) = m :: ownOf u := rfl

@[simp] theorem ownOf_inr (a : Place κ × Text) (u : List (ω ⊕ Place κ × Text)) :
    ownOf (.inr a :: u) = ownOf u := rfl

@[simp] theorem runsOf_inl (P : Place κ → Bool) (m : ω) (u : List (ω ⊕ Place κ × Text)) :
    runsOf P (.inl m :: u) = runsOf P u := rfl

theorem runsOf_inr (P : Place κ → Bool) (a : Place κ × Text) (u : List (ω ⊕ Place κ × Text)) :
    runsOf P (.inr a :: u) = if P a.1 then a :: runsOf P u else runsOf P u := List.filter_cons

theorem flatMap_leftBy_none (u : List (ω ⊕ Place κ × Text)) :
    u.flatMap (leftBy (fun _ => none) shown) = ownOf u := by
  induction u with
  | nil => rfl
  | cons m u ih =>
    rw [List.flatMap_cons, ih]
    cases m <;> rfl

/-- Without what the observers leave, the marks are those of the program itself. -/
theorem filter_leftBy (hL : ∀ i s, (S i).isSome → L (shown i s) = true)
    {u : List (ω ⊕ Place κ × Text)} (hu : ∀ m ∈ ownOf u, L m = false) :
    (u.flatMap (leftBy S shown)).filter (fun m => !L m) = ownOf u := by
  induction u with
  | nil => rfl
  | cons m u ih =>
    rw [List.flatMap_cons, List.filter_append]
    match m with
    | .inl m =>
      obtain ⟨hm, hu⟩ := List.forall_mem_cons.1 hu
      rw [ih hu]
      simp [leftBy, hm]
    | .inr (i, s) =>
      rw [ih hu]
      cases hi : S i with
      | none => simp [leftBy_of_none hi]
      | some post =>
        have hlabel : L (shown i s) = true := hL i s (Option.isSome_of_eq_some hi)
        simp [leftBy_of_some hi, hlabel]

/-- **The marks `M` are those of the observers at the places `P`,** and of no others. -/
structure Tells (S : Place κ → Option (Post κ)) (shown : Place κ → Text → ω) (L M : ω → Bool)
    (P : Place κ → Bool) : Prop where
  label : ∀ m, M m = true → L m = true
  watched : ∀ i, P i = true → (S i).isSome
  shown_eq : ∀ i s, (S i).isSome → M (shown i s) = P i

/-- **The observers at some places leave one mark for each run of them,** in order, which shows the
text of the run. -/
theorem filter_leftBy_tells {M : ω → Bool} {P : Place κ → Bool} (hM : Tells S shown L M P)
    {u : List (ω ⊕ Place κ × Text)} (hu : ∀ m ∈ ownOf u, L m = false) :
    (u.flatMap (leftBy S shown)).filter M = (runsOf P u).map fun a => shown a.1 a.2 := by
  induction u with
  | nil => rfl
  | cons m u ih =>
    rw [List.flatMap_cons, List.filter_append]
    match m with
    | .inl m =>
      obtain ⟨hm, hu⟩ := List.forall_mem_cons.1 hu
      have hother : M m = false := Bool.eq_false_iff.2 fun h => by simp [hM.label m h] at hm
      rw [ih hu]
      simp [leftBy, hother]
    | .inr (i, s) =>
      rw [ih hu, runsOf_inr]
      cases hi : S i with
      | none =>
        have hout : P i = false := Bool.eq_false_iff.2 fun h => by
          have hsome := hM.watched i h
          simp [hi] at hsome
        simp [leftBy_of_none hi, hout]
      | some post =>
        have hshown : M (shown i s) = P i := hM.shown_eq i s (Option.isSome_of_eq_some hi)
        by_cases hP : P i = true
        · simp [leftBy_of_some hi, hshown, hP]
        · simp [leftBy_of_some hi, hshown, hP]

/-- **Observation does not disturb parsing.** To watch a parser with `logInput` and to put a `tap`
before it is the same thing. And observers may be put at any places of a program, in either way,
also in what comes up while it runs, and so in a grammar that refers to itself. If each of them
leaves one mark of a new kind, the program ends in the same way, or goes on for ever, as it did, and
leaves the same marks in the same order besides. Those of the observers at one place, or at some
places, tell the runs of the parser there: one for each run, in order, with the text of the run. -/
theorem observation_transparent (hp : Listening (fun _ => none) shown heard plain)
    (hw : Listening S shown heard watching) (hL : ∀ i s, (S i).isSome → L (shown i s) = true)
    (r : Recipe κ) (s : Text)
    (hfresh : ∀ v x, ((plain.parse r).run s).Ends v x → ∀ m ∈ v, L m = false) :
    (∀ (α : Type) (o : Text → Run ω ε Unit) (p : Parser ω ε α),
      Parser.logInput o p = (Parser.tap o).keepRight p) ∧
    ((((watching.watchedBy S).parse (r.watched S .top)).run s).without L).Agrees
      (((plain.parse r).run s).without L) ∧
    (∀ v x, ((plain.parse r).run s).Ends v x →
      ∃ t, (((watching.watchedBy S).parse (r.watched S .top)).run s).Ends t x) ∧
    (∀ t x, (((watching.watchedBy S).parse (r.watched S .top)).run s).Ends t x →
      ((plain.parse r).run s).Ends (t.filter fun m => !L m) x ∧
      ∃ u, ((heard.hear (.top, r)).run s).Ends u x ∧ t = u.flatMap (leftBy S shown) ∧
        (t.filter fun m => !L m) = ownOf u ∧
        ∀ M P, Tells S shown L M P → t.filter M = (runsOf P u).map fun a => shown a.1 a.2) ∧
    ∀ counts limit t x,
      (((watching.watchedBy S).parse (r.watched S .top)).run s).Observed counts limit
        ⟨t, .ended x⟩ →
      ((plain.parse r).run s).Observed counts limit ⟨t.filter fun m => !L m, .ended x⟩ := by
  have hplain {v : List ω} {x : Except ε (Outcome κ)} : ((plain.parse r).run s).Ends v x ↔
      ∃ u, ((heard.hear (.top, r)).run s).Ends u x ∧ v = ownOf u := by
    have h := hp.ends_iff (i := .top) (r := r) (s := s) (t := v) (x := x)
    simpa only [Recipe.watched_none, watchedBy_none, flatMap_leftBy_none] using h
  have hends (t : List ω) (x : Except ε (Outcome κ))
      (ht : (((watching.watchedBy S).parse (r.watched S .top)).run s).Ends t x) :
      ((plain.parse r).run s).Ends (t.filter fun m => !L m) x ∧
      ∃ u, ((heard.hear (.top, r)).run s).Ends u x ∧ t = u.flatMap (leftBy S shown) ∧
        (t.filter fun m => !L m) = ownOf u ∧
        ∀ M P, Tells S shown L M P → t.filter M = (runsOf P u).map fun a => shown a.1 a.2 := by
    obtain ⟨u, hu, rfl⟩ := hw.ends_iff.1 ht
    have hown := hplain.2 ⟨u, hu, rfl⟩
    have hquiet := hfresh _ _ hown
    have hfilter := filter_leftBy hL hquiet
    exact ⟨hfilter ▸ hown, u, hu, rfl, hfilter, fun M P hM => filter_leftBy_tells hM hquiet⟩
  refine ⟨fun _ => Parser.logInput_eq_keepRight, watched_without_agrees hp hw hL .top r s,
    fun v x hv => ?_, hends, fun counts limit t x ht => ?_⟩
  · obtain ⟨u, hu, -⟩ := hplain.1 hv
    exact ⟨_, hw.ends_iff.2 ⟨u, hu, rfl⟩⟩
  · obtain ⟨ht, hlimit⟩ := Run.observed_ended_iff.1 ht
    refine Run.observed_ended_iff.2 ⟨(hends t x ht).1, Nat.le_trans ?_ hlimit⟩
    exact List.filter_sublist.countP_le

end

end Host

namespace Script

/-- A recorder leaves one event, which shows the text. -/
theorem observer_recorder (globals : Env) (label s : Text) :
    (Recipe.observer (calls globals) (.recorder label) s).Agrees
      (Run.emit (.event label (.text s))) :=
  (Run.fix_agrees (callStep_monotonic globals) (.apply (.recorder label) (.text s))).bind
    fun _ => .refl _

/-- A digit behind any number of brackets, by self-reference. -/
def behindBrackets : Recipe Value :=
  .firstOf [.ready (.keepRight (.char '(') (.lazily (.deferred (.thunk [] (.var "nest") none)))),
    .ready .digit]

def nestGlobals : Env := [("nest", .parser behindBrackets)]

/-- The digit is watched, in the grammar at hand and wherever it comes up. -/
def digitWatched (i : Place Value) : Option (Post Value) :=
  if i.path = [1] then some (.tap (.recorder ['d'])) else none

theorem digitWatched_recorder {i : Place Value} {post : Post Value}
    (h : digitWatched i = some post) : post = .tap (.recorder ['d']) := by
  unfold digitWatched at h
  split at h
  · exact (Option.some.inj h).symm
  · cases h

theorem behindBrackets_ends : (((calls nestGlobals).parse behindBrackets).run ['(', '1']).Ends []
    (.ok (.success (.text ['1']) [])) := ⟨6, rfl⟩

/-- The mark of the digit's observer. -/
def digitShown (_ : Place Value) (s : Text) : Mark := .event ['d'] (.text s)

/-- A digit behind a bracket, which comes up by a deferred reference to the rule, with an observer at
the digit. Watched or not, the run ends in the same way, and the label tells of the digit's one run. -/
theorem observation_transparent_behindBrackets :
    let plain := ((calls nestGlobals).parse behindBrackets).run ['(', '1']
    let watched := (((calls nestGlobals).watchedBy digitWatched).parse
      (behindBrackets.watched digitWatched .top)).run ['(', '1']
    (watched.without (isLabel ['d'])).Agrees (plain.without (isLabel ['d'])) ∧
    ∃ t x, watched.Ends t x ∧ plain.Ends (t.filter fun m => !isLabel ['d'] m) x ∧
      ∃ u, (((calls nestGlobals).lifted.hear (.top, behindBrackets)).run ['(', '1']).Ends u x ∧
        t.filter (isLabel ['d']) = (Host.runsOf (fun i => (digitWatched i).isSome) u).map
          fun a => digitShown a.1 a.2 := by
  intro plain watched
  have hp : Host.Listening (fun _ => none) digitShown (calls nestGlobals).lifted
      (calls nestGlobals) := Host.listening_lifted fun _ _ hi => (by cases hi)
  have hw : Host.Listening digitWatched digitShown (calls nestGlobals).lifted
      (calls nestGlobals) := Host.listening_lifted fun _ _ hi s => by
    rw [digitWatched_recorder hi]
    exact observer_recorder nestGlobals ['d'] s
  have hfresh : ∀ v x, plain.Ends v x → ∀ m ∈ v, isLabel ['d'] m = false := by
    intro v x hv m hm
    obtain ⟨rfl, -⟩ := hv.unique behindBrackets_ends
    cases hm
  obtain ⟨-, hagrees, hends, hmarks, -⟩ := Host.observation_transparent hp hw
    (fun _ _ _ => rfl) behindBrackets ['(', '1'] hfresh
  obtain ⟨t, ht⟩ := hends _ _ behindBrackets_ends
  obtain ⟨hplain, u, hu, -, -, htells⟩ := hmarks t _ ht
  refine ⟨hagrees, t, _, ht, hplain, u, hu, htells _ _ ?_⟩
  exact ⟨fun _ h => h, fun _ h => h, fun _ _ h => h.symm⟩

/-- The digit at hand is not run, for there is a bracket. The one that comes up is, on the text
behind it. -/
example : (((((calls nestGlobals).watchedBy digitWatched).parse
    (behindBrackets.watched digitWatched .top)).run ['(', '1'])).Ends [.event ['d'] (.text ['1'])]
      (.ok (.success (.text ['1']) [])) := ⟨6, rfl⟩

end Script

end Descent
