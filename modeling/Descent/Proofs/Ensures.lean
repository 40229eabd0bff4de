import Descent.Parser.Fix

/-!
# What every ending keeps

Facts about the endings of a run, proved through the operations and through self-reference.

* `Run.fix_ends_induction`: what a description hands on from the endings of its references holds of
  every ending of the family.
* `r.Always Q`: every value that the run ends with satisfies `Q`.
* `p.Ensures Q`: every ending of `p` satisfies `Q`, which sees the text, the marks and the ending.
* `fix_ensures`: **the rule for parsers that refer to themselves.**
* `p.Yields Q`: what every success of `p` makes of its text satisfies `Q`, which sees the text, the
  value and the remainder. One lemma says so for each operation (`yields_bind`, `yields_many`, …).
* `p.Moves R`: the same for a relation between texts and remainders that does not see the value.
-/

namespace Descent

namespace Run

variable {ω ε ι α : Type} {F : (ι → Run ω ε α) → ι → Run ω ε α} {hF : Monotonic F}

/-- Every value that the run ends with satisfies `Q`. It may as well raise an error or not end. -/
def Always (r : Run ω ε α) (Q : α → Prop) : Prop := ∀ t a, r.Ends t (.ok a) → Q a

/-- **Induction over the unfoldings an ending needs.** -/
theorem fix_ends_induction {P : ι → List ω → Except ε α → Prop}
    (rule : ∀ self, (∀ j t x, (self j).Ends t x → P j t x) →
      ∀ i t x, (F self i).Ends t x → P i t x)
    {i : ι} {t : List ω} {x : Except ε α} (h : (fix F hF i).Ends t x) : P i t x := by
  obtain ⟨n, hn⟩ := h
  -- the view of the family at `n` is that of its `n`th unfolding, which has the same ending
  have hk : ∀ k i t x, (fixAt F k i).Ends t x → P i t x := by
    intro k
    induction k with
    | zero => exact fun i t x h => absurd h not_ends_never
    | succ k ih => exact rule _ ih
  exact hk n i t x ⟨n, hn⟩

end Run

namespace Parser

variable {ω ε ι α β φ : Type}

/-- Every ending of the parser, with the text it was run on and the marks it left, satisfies `Q`. -/
def Ensures (p : Parser ω ε α) (Q : Text → List ω → Except ε (Outcome α) → Prop) : Prop :=
  ∀ s t x, (p.run s).Ends t x → Q s t x

/-- **What the rules hand on from their references holds of every parser of the family.** -/
theorem fix_ensures {F : (ι → Parser ω ε α) → ι → Parser ω ε α} {hF : Monotonic F}
    {Q : ι → Text → List ω → Except ε (Outcome α) → Prop}
    (rule : ∀ self : ι → Parser ω ε α, (∀ j, (self j).Ensures (Q j)) →
      ∀ i, (F self i).Ensures (Q i)) (i : ι) : (fix F hF i).Ensures (Q i) := by
  intro s t x h
  have hi : (Run.fix (onTexts F) (onTexts_monotonic hF) (i, s)).Ends t x := h
  refine Run.fix_ends_induction (P := fun j t x => Q j.1 j.2 t x) ?_ hi
  intro self hself j t x hj
  exact rule (fun j => ⟨fun s => self (j, s)⟩) (fun j s => hself (j, s)) j.1 j.2 t x hj

/-! ## How sequences and choices end -/

/-- A sequence raises with its first part, fails with it, or goes on after its success. -/
theorem ends_bind {p : Parser ω ε α} {f : α → Run ω ε (Parser ω ε β)} {s : Text} {t : List ω}
    {x : Except ε (Outcome β)} : ((p.bind f).run s).Ends t x ↔
      (∃ e, (p.run s).Ends t (.error e) ∧ x = .error e) ∨
      ((p.run s).Ends t (.ok .failure) ∧ x = .ok .failure) ∨
      ∃ a s' u v, (p.run s).Ends u (.ok (.success a s')) ∧ ((after (f a)).run s').Ends v x ∧
        t = u ++ v := by
  rw [bind_run, Run.ends_bind]
  constructor
  · rintro (h | ⟨o, u, v, hp, hq, rfl⟩)
    · exact .inl h
    · cases o with
      | failure =>
        obtain ⟨rfl, rfl⟩ := Run.ends_pure.1 hq
        exact .inr (.inl ⟨by rwa [List.append_nil], rfl⟩)
      | success a s' => exact .inr (.inr ⟨a, s', u, v, hp, hq, rfl⟩)
  · rintro (h | ⟨hp, rfl⟩ | ⟨a, s', u, v, hp, hq, rfl⟩)
    · exact .inl h
    · exact .inr ⟨.failure, t, [], hp, Run.ends_pure.2 ⟨rfl, rfl⟩, (List.append_nil t).symm⟩
    · exact .inr ⟨.success a s', u, v, hp, hq, rfl⟩

/-- A choice ends as its first part does, unless that fails. -/
theorem ends_orElse {p : Parser ω ε α} {r : Ref ω ε α} {s : Text} {t : List ω}
    {x : Except ε (Outcome α)} : ((p.orElse r).run s).Ends t x ↔
      ((p.run s).Ends t x ∧ x ≠ .ok .failure) ∨
      ∃ u v, (p.run s).Ends u (.ok .failure) ∧ ((lazily r).run s).Ends v x ∧ t = u ++ v := by
  rw [Parser.orElse, Run.ends_bind]
  constructor
  · rintro (⟨e, h, rfl⟩ | ⟨o, u, v, hp, hq, rfl⟩)
    · exact .inl ⟨h, fun h => (by cases h)⟩
    · cases o with
      | failure => exact .inr ⟨u, v, hp, hq, rfl⟩
      | success a rest =>
        obtain ⟨rfl, rfl⟩ := Run.ends_pure.1 hq
        exact .inl ⟨by rwa [List.append_nil], fun h => (by cases h)⟩
  · rintro (⟨h, hx⟩ | ⟨u, v, hp, hq, rfl⟩)
    · cases x with
      | error e => exact .inl ⟨e, h, rfl⟩
      | ok o =>
        cases o with
        | failure => exact absurd rfl hx
        | success a rest =>
          exact .inr ⟨.success a rest, t, [], h, Run.ends_pure.2 ⟨rfl, rfl⟩,
            (List.append_nil t).symm⟩
    · exact .inr ⟨.failure, u, v, hp, hq, rfl⟩

/-! ## Successes -/

/-- Every success takes a text `s` to a value `a` and a remainder `r` such that `Q s a r`. -/
def Yields (Q : Text → α → Text → Prop) (p : Parser ω ε α) : Prop :=
  ∀ s t a r, (p.run s).Ends t (.ok (.success a r)) → Q s a r

section

variable {P : Text → α → Text → Prop} {Q : Text → β → Text → Prop} {p : Parser ω ε α}

/-- Parsers that do the same yield the same. -/
theorem yields_of_agrees {p' : Parser ω ε α} (h : p.Agrees p') (hp' : p'.Yields P) :
    p.Yields P := by
  intro s t a r he
  exact hp' s t a r ((h s).ends_iff.1 he)

theorem yields_succeed {a : α} (h : ∀ s, P s a s) : (succeed a : Parser ω ε α).Yields P := by
  intro s t b r he
  cases (Run.ends_pure.1 he).2
  exact h s

theorem yields_fail : (fail : Parser ω ε α).Yields P := by
  intro s t a r h
  cases (Run.ends_pure.1 h).2

theorem yields_after {r : Run ω ε (Parser ω ε α)} (h : ∀ t q, r.Ends t (.ok q) → q.Yields P) :
    (after r).Yields P := by
  intro s t a rest he
  obtain ⟨q, u, v, hr, hq, -⟩ := Run.ends_bind_ok.1 he
  exact h u q hr s v a rest hq

/-- **What a sequence yields** comes from a success of its first part, and of the parser that the
function comes up with on the value. -/
theorem yields_bind {f : α → Run ω ε (Parser ω ε β)} {T : Text → β → Text → Prop}
    (hp : p.Yields P)
    (hf : ∀ s a s' t q, P s a s' → (f a).Ends t (.ok q) →
      q.Yields fun s₁ b r => s₁ = s' → T s b r) : (p.bind f).Yields T := by
  intro s t b r h
  obtain ⟨a, s', q, t₁, t₂, t₃, h₁, h₂, h₃, -⟩ := ends_bind_success.1 h
  exact hf s a s' t₂ q (hp s t₁ a s' h₁) h₂ s' t₃ b r h₃ rfl

/-- A function on the value does not touch the remainder. -/
theorem yields_map {f : α → Run ω ε β} (hp : p.Yields P)
    (hf : ∀ s a r t b, P s a r → (f a).Ends t (.ok b) → Q s b r) : (p.map f).Yields Q := by
  intro s t b r h
  rw [map_run] at h
  obtain ⟨o, u, v, ho, hv, -⟩ := Run.ends_bind_ok.1 h
  cases o with
  | failure => cases (Run.ends_pure.1 hv).2
  | success a rest =>
    obtain ⟨b', u', v', hb', hb, -⟩ := Run.ends_bind_ok.1 hv
    cases (Run.ends_pure.1 hb).2
    exact hf s a r u' b (hp s u a r ho) hb'

theorem yields_lazily {r : Ref ω ε α} (h : ∀ t q, r.force.Ends t (.ok q) → q.Yields P) :
    (lazily r).Yields P := yields_after h

/-- **No alternative sees what another consumed.** -/
theorem yields_orElse {r : Ref ω ε α} (hp : p.Yields P) (hr : (lazily r).Yields P) :
    (p.orElse r).Yields P := by
  intro s t a rest h
  rcases ends_orElse_success.1 h with h | ⟨u, v, -, h, -⟩
  · exact hp s t a rest h
  · exact hr s v a rest h

theorem yields_firstOf {rs : List (Ref ω ε α)} (h : ∀ r ∈ rs, (lazily r).Yields P) :
    (firstOf rs).Yields P := by
  induction rs with
  | nil => exact yields_fail
  | cons r rs ih =>
    rw [firstOf_cons]
    refine yields_orElse (h r List.mem_cons_self) ?_
    rw [lazily_ready]
    exact ih fun r' hr' => h r' (List.mem_cons_of_mem r hr')

/-- What a chain of successes yields, from the last of them to the first. -/
theorem yields_rounds {Q : Text → List α → Text → Prop} (nil : ∀ s, Q s [] s)
    (cons : ∀ s a s' as r, P s a s' → Q s' as r → Q s (a :: as) r) (hp : p.Yields P)
    {s r : Text} {t : List ω} {as : List α} (h : Rounds p s t as r) : Q s as r := by
  induction h with
  | nil s => exact nil s
  | cons h _ ih => exact cons _ _ _ _ _ (hp _ _ _ _ h) ih

/-- **A repetition yields what its body yields, again and again.** The failed try at the end leaves
nothing. -/
theorem yields_many {Q : Text → List α → Text → Prop} (nil : ∀ s, Q s [] s)
    (cons : ∀ s a s' as r, P s a s' → Q s' as r → Q s (a :: as) r) (hp : p.Yields P) :
    (many p).Yields Q := by
  intro s t vs r h
  cases ends_many_iff.1 h with
  | failure hr _ => exact yields_rounds nil cons hp hr

theorem yields_many1 {Q : Text → List α → Text → Prop} (nil : ∀ s, Q s [] s)
    (cons : ∀ s a s' as r, P s a s' → Q s' as r → Q s (a :: as) r) (hp : p.Yields P) :
    (many1 p).Yields Q := by
  intro s t vs r h
  obtain ⟨o, u, v, ho, hv, -⟩ := Run.ends_bind_ok.1 h
  match o, ho, hv with
  | .failure, _, hv => cases (Run.ends_pure.1 hv).2
  | .success [] _, _, hv => cases (Run.ends_pure.1 hv).2
  | .success (w :: ws) rest, ho, hv =>
    cases (Run.ends_pure.1 hv).2
    exact yields_many nil cons hp s u (w :: ws) r ho

theorem yields_logInput (o : Text → Run ω ε Unit) (hp : p.Yields P) : (logInput o p).Yields P := by
  intro s t a r h
  obtain ⟨-, u, v, -, hv, -⟩ := Run.ends_bind_ok.1 h
  exact hp s v a r hv

theorem yields_tap {P : Text → Unit → Text → Prop} (h : ∀ s, P s () s) (o : Text → Run ω ε Unit) :
    (tap o).Yields P := by
  intro s t a r he
  obtain ⟨-, u, v, -, hv, -⟩ := Run.ends_bind_ok.1 he
  cases (Run.ends_pure.1 hv).2
  exact h s

theorem yields_anyChar {P : Text → Char → Text → Prop} (h : ∀ c s, P (c :: s) c s) :
    (anyChar : Parser ω ε Char).Yields P := by
  intro s t c r he
  cases s with
  | nil => cases (Run.ends_pure.1 he).2
  | cons d s =>
    cases (Run.ends_pure.1 he).2
    exact h c r

theorem yields_peek {P : Text → Text → Text → Prop} (h : ∀ s, P s (s.take 1) s) :
    (peek : Parser ω ε Text).Yields P := by
  intro s t u r he
  cases (Run.ends_pure.1 he).2
  exact h s

/-- **A test that is not passed consumes nothing,** though a character was taken for it. -/
theorem yields_satisfy {P : Text → Char → Text → Prop} (h : ∀ c s, P (c :: s) c s)
    (test : Char → Run ω ε Bool) : (satisfy test).Yields P := by
  intro s t c r he
  cases s with
  | nil =>
    rw [satisfy_nil] at he
    cases (Run.ends_pure.1 he).2
  | cons d s =>
    rw [satisfy_cons] at he
    obtain ⟨b, u, v, -, hv, -⟩ := Run.ends_bind_ok.1 he
    cases b with
    | false => cases (Run.ends_pure.1 hv).2
    | true =>
      cases (Run.ends_pure.1 hv).2
      exact h c r

theorem yields_literal {P : Text → Text → Text → Prop} (l : Text) (h : ∀ s, P (l ++ s) l s) :
    (literal l : Parser ω ε Text).Yields P := by
  intro s t u r he
  by_cases hl : l <+: s
  · obtain ⟨s', rfl⟩ := hl
    rw [literal_append] at he
    cases (Run.ends_pure.1 he).2
    exact h r
  · rw [literal_of_not hl] at he
    cases (Run.ends_pure.1 he).2

end

/-! ## Remainders -/

/-- Every success takes a text to a remainder that `R` relates to it. -/
def Moves (R : Text → Text → Prop) (p : Parser ω ε α) : Prop := p.Yields fun s _ r => R s r

variable {R S T : Text → Text → Prop} {p : Parser ω ε α} {q : Parser ω ε β}

theorem moves_of_agrees {p' : Parser ω ε α} (h : p.Agrees p') (hp' : p'.Moves R) : p.Moves R :=
  yields_of_agrees h hp'

theorem moves_succeed (refl : ∀ s, R s s) (a : α) : (succeed a : Parser ω ε α).Moves R :=
  yields_succeed refl

theorem moves_fail : (fail : Parser ω ε α).Moves R := yields_fail

/-- **A sequence moves through its parts.** -/
theorem moves_bind {f : α → Run ω ε (Parser ω ε β)}
    (trans : ∀ s s' r, R s s' → S s' r → T s r) (hp : p.Moves R)
    (hf : ∀ a t q, (f a).Ends t (.ok q) → q.Moves S) : (p.bind f).Moves T := by
  refine yields_bind hp fun s a s' t q hs hq s₁ u b r hr e => ?_
  subst e
  exact trans s s₁ r hs (hf a t q hq s₁ u b r hr)

theorem moves_map (f : α → Run ω ε β) (hp : p.Moves R) : (p.map f).Moves R :=
  yields_map hp fun _ _ _ _ _ h _ => h

theorem moves_keepRight (trans : ∀ s s' r, R s s' → S s' r → T s r) (hp : p.Moves R)
    (hq : q.Moves S) : (p.keepRight q).Moves T := by
  refine moves_bind trans hp fun a t q' h => ?_
  cases (Run.ends_pure.1 h).2
  exact hq

theorem moves_keepLeft (trans : ∀ s s' r, R s s' → S s' r → T s r) (hp : p.Moves R)
    (hq : q.Moves S) : (p.keepLeft q).Moves T := by
  refine moves_bind trans hp fun a t q' h => ?_
  cases (Run.ends_pure.1 h).2
  exact moves_map _ hq

theorem moves_ap {app : φ → α → Run ω ε β} {u : Parser ω ε φ}
    (trans : ∀ s s' r, R s s' → S s' r → T s r) (hu : u.Moves R) (hp : p.Moves S) :
    (ap app u p).Moves T := by
  refine moves_bind trans hu fun f t q' h => ?_
  cases (Run.ends_pure.1 h).2
  exact moves_map _ hp

theorem moves_liftAs (trans : ∀ s s' r, R s s' → R s' r → R s r) {app : α → α → Run ω ε α} {f : α}
    {ps : List (Parser ω ε α)} (hp : p.Moves R) (hs : ∀ q ∈ ps, q.Moves R) :
    (liftAs app f p ps).Moves R := by
  unfold liftAs
  have hu : (p.map (app f)).Moves R := moves_map _ hp
  generalize p.map (app f) = u at hu
  induction ps generalizing u with
  | nil => exact hu
  | cons q ps ih =>
    refine ih (fun q' hq' => hs q' (List.mem_cons_of_mem q hq')) _ ?_
    exact moves_ap trans hu (hs q List.mem_cons_self)

theorem moves_lazily {r : Ref ω ε α} (h : ∀ t q, r.force.Ends t (.ok q) → q.Moves R) :
    (lazily r).Moves R := yields_lazily h

theorem moves_orElse {r : Ref ω ε α} (hp : p.Moves R) (hr : (lazily r).Moves R) :
    (p.orElse r).Moves R := yields_orElse hp hr

theorem moves_firstOf {rs : List (Ref ω ε α)} (h : ∀ r ∈ rs, (lazily r).Moves R) :
    (firstOf rs).Moves R := yields_firstOf h

theorem moves_many (refl : ∀ s, R s s) (trans : ∀ s s' r, R s s' → R s' r → R s r)
    (hp : p.Moves R) : (many p).Moves R :=
  yields_many refl (fun s _ s' _ r => trans s s' r) hp

theorem moves_many1 (refl : ∀ s, R s s) (trans : ∀ s s' r, R s s' → R s' r → R s r)
    (hp : p.Moves R) : (many1 p).Moves R :=
  yields_many1 refl (fun s _ s' _ r => trans s s' r) hp

theorem moves_logInput (o : Text → Run ω ε Unit) (hp : p.Moves R) : (logInput o p).Moves R :=
  yields_logInput o hp

theorem moves_tap (refl : ∀ s, R s s) (o : Text → Run ω ε Unit) : (tap o).Moves R :=
  yields_tap refl o

theorem moves_anyChar (step : ∀ c s, R (c :: s) s) : (anyChar : Parser ω ε Char).Moves R :=
  yields_anyChar step

theorem moves_peek (refl : ∀ s, R s s) : (peek : Parser ω ε Text).Moves R := yields_peek refl

theorem moves_satisfy (step : ∀ c s, R (c :: s) s) (test : Char → Run ω ε Bool) :
    (satisfy test).Moves R := yields_satisfy step test

theorem moves_literal (l : Text) (h : ∀ s, R (l ++ s) s) :
    (literal l : Parser ω ε Text).Moves R := yields_literal l h

theorem moves_lexeme (refl : ∀ s, R s s) (trans : ∀ s s' r, R s s' → R s' r → R s r)
    (step : ∀ c s, R (c :: s) s) (hp : p.Moves R) : (lexeme p).Moves R := by
  have hb : (skipBlanks : Parser ω ε Text).Moves R := moves_many refl trans (moves_satisfy step _)
  exact moves_ap trans (moves_ap trans (moves_map _ hb) hp) hb

end Parser

end Descent
