import Descent.Proofs.Brackets
import Descent.Proofs.Commitment

/-!
# Repetition is possessive

A repetition takes all it can and never gives anything back. Where it has ended its body fails, so
the body is not found behind it, however much of it the repetition has taken. There is no shorter
repetition to fall back on.

* `m.Exhausts p`: where `m` has succeeded, `p` fails. Repetitions of `p` do this.
* `p.Barren`: there is no success on any text. What is left of a sequence does not matter if a part
  is barren.
* `BeginsWith p q`: where `p` fails, `q` does so too.
* `Exhausts.not_passes`: **the step from `m` to `p` is never made,** so sequences with this step are
  barren, in whichever way they are put together.
* `ends_many_twice`, `ends_many_many1`: repetitions of repetitions.
* `orElse_agrees_of_barren`: a barren alternative is dead.
* `repetition_possessive`: **the results together.**
-/

namespace Descent

namespace Parser

variable {ω ε α β γ φ : Type} {p : Parser ω ε α} {s r : Text} {t u : List ω} {vs : List α}

/-- Where the first parser has succeeded, the second fails. -/
def Exhausts (m : Parser ω ε β) (p : Parser ω ε α) : Prop :=
  ∀ s t v r, (m.run s).Ends t (.ok (.success v r)) → ∃ u, (p.run r).Ends u (.ok .failure)

/-- There is no text on which the parser succeeds. -/
def Barren (p : Parser ω ε α) : Prop := ∀ s t v r, ¬(p.run s).Ends t (.ok (.success v r))

/-- Where the first parser fails, the second does so too, after the same marks. -/
def BeginsWith (p : Parser ω ε α) (q : Parser ω ε β) : Prop :=
  ∀ s t, (p.run s).Ends t (.ok .failure) → (q.run s).Ends t (.ok .failure)

/-! ## Repetitions exhaust -/

theorem exhausts_many (p : Parser ω ε α) : (many p).Exhausts p := by
  intro s t vs r h
  obtain ⟨u, hu, -⟩ := ends_many_again h
  exact ⟨u, hu⟩

/-- One or more succeeds where a repetition succeeds with at least one value. -/
theorem ends_many1_success_iff : ((many1 p).run s).Ends t (.ok (.success vs r)) ↔
    vs ≠ [] ∧ ((many p).run s).Ends t (.ok (.success vs r)) := by
  rw [many1_run, Run.ends_bind_pure_ok]
  constructor
  · rintro ⟨o, ho, hvs⟩
    cases o with
    | failure => cases hvs
    | success ws r' =>
      cases ws with
      | nil => cases hvs
      | cons w ws =>
        cases hvs
        exact ⟨List.cons_ne_nil w ws, ho⟩
  · rintro ⟨hvs, h⟩
    refine ⟨_, h, ?_⟩
    cases vs with
    | nil => exact absurd rfl hvs
    | cons v vs => rfl

theorem exhausts_many1 (p : Parser ω ε α) : (many1 p).Exhausts p := by
  intro s t vs r h
  exact exhausts_many p s t vs r (ends_many1_success_iff.1 h).2

/-- A function on the value does not give anything back either. -/
theorem Exhausts.map {m : Parser ω ε β} (h : m.Exhausts p) (f : β → Run ω ε γ) :
    (m.map f).Exhausts p := by
  intro s t c r hm
  rw [map_eq_bind] at hm
  obtain ⟨b, s', q, t₁, t₂, t₃, h₁, h₂, h₃, -⟩ := ends_bind_success.1 hm
  obtain ⟨c', -, rfl⟩ := Run.ends_bind_pure_ok.1 h₂
  cases (Run.ends_pure.1 h₃).2
  exact h s t₁ b r h₁

/-! ## Barren sequences -/

theorem beginsWith_self (p : Parser ω ε α) : BeginsWith p p := fun _ _ h => h

theorem beginsWith_bind (p : Parser ω ε α) (g : α → Run ω ε (Parser ω ε β)) :
    BeginsWith p (p.bind g) := fun _ _ h => ends_bind.2 (.inr (.inl ⟨h, rfl⟩))

/-- **What begins with an exhausted parser fails,** so going on with it is barren. -/
theorem Exhausts.barren_bind {m : Parser ω ε β} (h : m.Exhausts p)
    {f : β → Run ω ε (Parser ω ε γ)} (hf : ∀ b, (f b).Always (BeginsWith p)) :
    (m.bind f).Barren := by
  intro s t c r hm
  obtain ⟨b, s', q, t₁, t₂, t₃, h₁, h₂, h₃, -⟩ := ends_bind_success.1 hm
  obtain ⟨u, hfail⟩ := h s t₁ b s' h₁
  have hq : (q.run s').Ends u (.ok .failure) := hf b t₂ q h₂ s' u hfail
  cases (hq.unique h₃).2

theorem Exhausts.barren_keepRight {m : Parser ω ε β} (h : m.Exhausts p) :
    (m.keepRight p).Barren := by
  refine h.barren_bind fun b t q hq => ?_
  cases (Run.ends_pure.1 hq).2
  exact beginsWith_self p

theorem Exhausts.barren_keepLeft {m : Parser ω ε β} (h : m.Exhausts p) : (m.keepLeft p).Barren := by
  refine h.barren_bind fun b t q hq => ?_
  cases (Run.ends_pure.1 hq).2
  rw [map_eq_bind]
  exact beginsWith_bind p _

/-- Whatever comes after a barren parser is not reached. -/
theorem Barren.bind (h : p.Barren) (f : α → Run ω ε (Parser ω ε β)) : (p.bind f).Barren := by
  intro s t b r hp
  obtain ⟨a, s', q, t₁, t₂, t₃, h₁, -⟩ := ends_bind_success.1 hp
  exact h s t₁ a s' h₁

/-- **The step from `m` to `p` is never made.** The induction is on the parsers before it. -/
theorem Exhausts.not_passes {m : Parser ω ε α} (h : m.Exhausts p) {app : φ → α → Run ω ε φ}
    {f g : φ} {pre post : List (Parser ω ε α)} {ss : List (Stage ω φ α)} :
    ¬Passes app s f (pre ++ m :: p :: post) ss r g [] := by
  induction pre generalizing s f ss with
  | nil =>
    intro hpass
    cases hpass with
    | cons hm _ hpass =>
      cases hpass with
      | cons hp _ _ =>
        obtain ⟨u, hfail⟩ := h _ _ _ _ hm
        cases (hfail.unique hp).2
  | cons q pre ih =>
    intro hpass
    cases hpass with
    | cons _ _ hpass => exact ih hpass

theorem Exhausts.barren_liftAs {m : Parser ω ε α} (h : m.Exhausts p) {app : α → α → Run ω ε α}
    {f : α} {q : Parser ω ε α} {qs pre post : List (Parser ω ε α)}
    (hqs : q :: qs = pre ++ m :: p :: post) : (liftAs app f q qs).Barren := by
  intro s t v r hlift
  rw [liftAs_eq_feed, hqs] at hlift
  rcases ends_feed_iff.1 hlift with ⟨ss, r', g, hpass, -, -⟩ | ⟨_, _, _, _, _, _, -, hbreaks, -⟩
  · exact h.not_passes hpass
  · cases hbreaks

/-- However the sequence is bracketed. -/
theorem Exhausts.barren_bracketed {m : Parser ω ε α} (h : m.Exhausts p)
    {b : Bracketed (Parser ω ε α)} {pre post : List (Parser ω ε α)}
    (hb : b.members = pre ++ m :: p :: post) : b.parser.Barren := by
  intro s t v r hseq
  rcases b.ends_parser_iff.1 hseq with ⟨ss, r', vs, v', hpass, -⟩ | ⟨_, _, _, _, _, _, -, -, hx, -⟩
  · rw [hb] at hpass
    exact h.not_passes hpass
  · exact hx v r rfl

/-! ## Repetitions of repetitions -/

/-- **The second time there is nothing left to take.** -/
theorem ends_many_twice (h : ((many p).run s).Ends t (.ok (.success vs r)))
    (hfail : (p.run r).Ends u (.ok .failure)) :
    (((many p).bind fun vs => pure ((many p).map fun ws => pure (vs, ws))).run s).Ends (t ++ u)
      (.ok (.success (vs, []) r)) := by
  have hagain : ((many p).run r).Ends u (.ok (.success [] r)) :=
    ends_many_iff.2 (.failure (.nil r) hfail)
  refine ends_bind.2 (.inr (.inr ⟨vs, r, t, u, h, ?_, rfl⟩))
  rw [after_pure, map_pure_run, Run.ends_bind_pure_ok]
  exact ⟨_, hagain, rfl⟩

/-- **A repetition of repetitions is one of them,** or none if there is no value. -/
theorem ends_many_many1 (h : ((many p).run s).Ends t (.ok (.success vs r)))
    (hfail : (p.run r).Ends u (.ok .failure)) :
    ((many (many1 p)).run s).Ends (if vs.isEmpty then t else t ++ u)
      (.ok (.success (if vs.isEmpty then [] else [vs]) r)) := by
  have hagain : ((many p).run r).Ends u (.ok (.success [] r)) :=
    ends_many_iff.2 (.failure (.nil r) hfail)
  have hnone {s r : Text} {t : List ω} (h : ((many p).run s).Ends t (.ok (.success [] r))) :
      ((many1 p).run s).Ends t (.ok .failure) := by
    rw [many1_run, Run.ends_bind_pure_ok]
    exact ⟨_, h, rfl⟩
  cases vs with
  | nil =>
    have hrest : r = s := by
      cases ends_many_iff.1 h with
      | failure hr _ =>
        cases hr
        rfl
    subst hrest
    exact ends_many_iff.2 (.failure (.nil r) (hnone h))
  | cons v vs =>
    have hone : ((many1 p).run s).Ends t (.ok (.success (v :: vs) r)) :=
      ends_many1_success_iff.2 ⟨List.cons_ne_nil v vs, h⟩
    have hrounds : Rounds (many1 p) s (t ++ []) [v :: vs] r := .cons hone (.nil r)
    rw [List.append_nil] at hrounds
    exact ends_many_iff.2 (.failure hrounds (hnone hagain))

/-! ## Dead alternatives -/

/-- The repetition and its body are run in turn, and the body fails. -/
theorem ends_many_keepRight (h : ((many p).run s).Ends t (.ok (.success vs r)))
    (hfail : (p.run r).Ends u (.ok .failure)) :
    (((many p).keepRight p).run s).Ends (t ++ u) (.ok .failure) := by
  refine ends_bind.2 (.inr (.inr ⟨vs, r, t, u, h, ?_, rfl⟩))
  rw [after_pure]
  exact hfail

theorem Quiet.eq_nil (hp : p.Quiet) {x : Except ε (Outcome α)} (h : (p.run s).Ends t x) : t = [] :=
  hp s t (h.leaves (List.prefix_refl t))

theorem Quiet.eq_nil_of_many (hp : p.Quiet) (h : ((many p).run s).Ends t (.ok (.success vs r))) :
    t = [] := by
  cases ends_many_iff.1 h with
  | failure hr hf =>
    rw [hp.eq_nil hf, List.append_nil]
    clear hf h
    induction hr with
    | nil s => rfl
    | cons h _ ih => rw [hp.eq_nil h, ih, List.append_nil]

/-- **A barren alternative is dead.** Where it comes to an outcome, all that it does is to leave its
marks before the other one. -/
theorem orElse_agrees_of_barren (hp : p.Barren) {o : Outcome α} (ho : (p.run s).Ends t (.ok o))
    (q : Ref ω ε α) :
    ((p.orElse q).run s).Agrees (forM t Run.emit >>= fun _ => (lazily q).run s) := by
  cases o with
  | success v r => exact absurd ho (hp s t v r)
  | failure =>
    rw [orElse_run_eq]
    refine (ho.agrees.bind fun _ => .refl _).trans (.of_eq ?_)
    rw [bind_assoc]
    refine congrArg (_ >>= ·) (funext fun _ => ?_)
    exact pure_bind ..

/-- **Repetition is possessive.** Where a repetition has come to an outcome its body fails. So a
sequence in which a repetition, as it is or with a function on its values, stands right before its
body has no success on any text: not with a function that goes on with anything that begins with the
body, not under a curried function, and not in brackets, whatever comes before and after. A second
repetition right after the first has no value and leaves what there is, and a repetition of
repetitions has the values of one of them. As an alternative a barren parser is dead: where it comes
to an outcome the choice does what its other part does, behind the marks of the dead one. Parsers
that leave no marks leave none here, so the choice is its other part. -/
theorem repetition_possessive (p : Parser ω ε α) :
    (∀ s t vs r, ((many p).run s).Ends t (.ok (.success vs r)) →
      ∃ u, (p.run r).Ends u (.ok .failure) ∧
        (((many p).bind fun vs => pure ((many p).map fun ws => pure (vs, ws))).run s).Ends (t ++ u)
          (.ok (.success (vs, []) r)) ∧
        ((many (many1 p)).run s).Ends (if vs.isEmpty then t else t ++ u)
          (.ok (.success (if vs.isEmpty then [] else [vs]) r)) ∧
        (∀ q : Ref ω ε α, ((((many p).keepRight p).orElse q).run s).Agrees
          (forM (t ++ u) Run.emit >>= fun _ => (lazily q).run s)) ∧
        (p.Quiet → t = [] ∧ u = [] ∧
          ∀ q : Ref ω ε α, ((((many p).keepRight p).orElse q).run s).Agrees ((lazily q).run s))) ∧
    ((many p).Exhausts p ∧ (many1 p).Exhausts p ∧ (∀ f : List α → Run ω ε α,
      ((many p).map f).Exhausts p ∧ ((many1 p).map f).Exhausts p)) ∧
    (∀ m : Parser ω ε β, m.Exhausts p → (m.keepRight p).Barren ∧ (m.keepLeft p).Barren ∧
      ∀ f : β → Run ω ε (Parser ω ε γ), (∀ b, (f b).Always (BeginsWith p)) → (m.bind f).Barren) ∧
    (∀ (m : Parser ω ε α) (pre post : List (Parser ω ε α)), m.Exhausts p →
      (∀ app f q qs, q :: qs = pre ++ m :: p :: post → (liftAs app f q qs).Barren) ∧
      ∀ b : Bracketed (Parser ω ε α), b.members = pre ++ m :: p :: post → b.parser.Barren) ∧
    (BeginsWith p p ∧ ∀ g : α → Run ω ε (Parser ω ε γ), BeginsWith p (p.bind g)) ∧
    ∀ d : Parser ω ε α, d.Barren → (∀ f : α → Run ω ε (Parser ω ε γ), (d.bind f).Barren) ∧
      ∀ s t o (q : Ref ω ε α), (d.run s).Ends t (.ok o) →
        ((d.orElse q).run s).Agrees (forM t Run.emit >>= fun _ => (lazily q).run s) := by
  refine ⟨fun s t vs r h => ?_, ⟨exhausts_many p, exhausts_many1 p, fun f => ?_⟩,
    fun m hm => ⟨hm.barren_keepRight, hm.barren_keepLeft, fun f => hm.barren_bind⟩,
    fun m pre post hm => ⟨fun app f q qs => hm.barren_liftAs, fun b => hm.barren_bracketed⟩,
    ⟨beginsWith_self p, beginsWith_bind p⟩,
    fun d hd => ⟨hd.bind, fun s t o q ho => orElse_agrees_of_barren hd ho q⟩⟩
  · obtain ⟨u, hfail, -⟩ := ends_many_again h
    have hdead (q : Ref ω ε α) : ((((many p).keepRight p).orElse q).run s).Agrees
        (forM (t ++ u) Run.emit >>= fun _ => (lazily q).run s) :=
      orElse_agrees_of_barren (exhausts_many p).barren_keepRight (ends_many_keepRight h hfail) q
    refine ⟨u, hfail, ends_many_twice h hfail, ends_many_many1 h hfail, hdead, fun hp => ?_⟩
    have ht : t = [] := hp.eq_nil_of_many h
    have hu : u = [] := hp.eq_nil hfail
    refine ⟨ht, hu, fun q => ?_⟩
    have hq := hdead q
    rw [ht, hu] at hq
    exact hq.trans (.of_eq (pure_bind ..))
  · exact ⟨(exhausts_many p).map f, (exhausts_many1 p).map f⟩

/-- Digits and then a digit. A shorter repetition would leave one for the second part. -/
theorem repetition_possessive_digits :
    let digits : Parser Unit Unit Char := (many digit).keepRight digit
    digits.Barren ∧ ((digits.orElse (.ready anyChar)).run ['1', '2']).Agrees
      (pure (.success '1' ['2'])) := by
  intro digits
  obtain ⟨hends, ⟨hmany, -, -⟩, hsequences, -⟩ :=
    repetition_possessive (ω := Unit) (ε := Unit) (β := List Char) (γ := Char) digit
  have hall : ((many digit : Parser Unit Unit (List Char)).run ['1', '2']).Ends []
      (.ok (.success ['1', '2'] [])) := ⟨3, rfl⟩
  obtain ⟨u, hfail, -, -, hdead, -⟩ := hends _ _ _ _ hall
  have hnone : u = [] := (Run.ends_pure.1 hfail).1
  have hchoice := hdead (.ready anyChar)
  rw [hnone, lazily_ready] at hchoice
  exact ⟨(hsequences _ hmany).1, hchoice.trans (.of_eq rfl)⟩

end Parser

end Descent
