import Descent.Proofs.Gives

/-!
# Deciding a relation

A parser decides a relation on a text when it comes to an outcome there, and the relation says with
which value and which remainder it may succeed. This is soundness, completeness and termination in
one, and it composes: one lemma for each operation says what it decides.

* `p.Decides s S`: on the text `s` the parser comes to an outcome, and it succeeds just as `S` says.
* `decides_bind`, `decides_orElse`, `decides_many`, …: what the operations decide.
* `decides_span`: a repeated test decides the span of the text.
* `decides_unpack`: what a parse of the whole text comes to.
-/

namespace Descent

namespace Parser

variable {ω ε α β : Type} {p : Parser ω ε α} {s : Text}

/-- **On the text, the parser comes to an outcome, and succeeds with the values and remainders that
`S` holds of.** -/
def Decides (p : Parser ω ε α) (s : Text) (S : α → Text → Prop) : Prop :=
  ∃ o, p.Gives s o ∧ ∀ a r, o = .success a r ↔ S a r

section

variable {P S : α → Text → Prop}

theorem Decides.gives_success_iff (h : p.Decides s S) {a : α} {r : Text} :
    p.Gives s (.success a r) ↔ S a r := by
  obtain ⟨o, ho, hS⟩ := h
  constructor
  · intro k
    exact (hS a r).1 (ho.unique k)
  · intro k
    exact (hS a r).2 k ▸ ho

/-- A parser that decides leaves no marks. -/
theorem Decides.ends_success_iff (h : p.Decides s S) {t : List ω} {a : α} {r : Text} :
    (p.run s).Ends t (.ok (.success a r)) ↔ t = [] ∧ S a r := by
  constructor
  · intro k
    obtain ⟨o, ho, hS⟩ := h
    obtain ⟨rfl, e⟩ := k.unique ho
    exact ⟨rfl, (hS a r).1 (Except.ok.inj e).symm⟩
  · rintro ⟨rfl, hr⟩
    exact h.gives_success_iff.2 hr

theorem Decides.gives_failure_iff (h : p.Decides s S) :
    p.Gives s .failure ↔ ∀ a r, ¬S a r := by
  obtain ⟨o, ho, hS⟩ := h
  constructor
  · intro k a r hr
    cases ((hS a r).2 hr).symm.trans (ho.unique k)
  · intro k
    cases o with
    | failure => exact ho
    | success a r => exact absurd ((hS a r).1 rfl) (k a r)

theorem Decides.congr (h : p.Decides s P) (hS : ∀ a r, P a r ↔ S a r) : p.Decides s S := by
  obtain ⟨o, ho, hP⟩ := h
  exact ⟨o, ho, fun a r => (hP a r).trans (hS a r)⟩

/-- What a parser does, another that agrees with it decides as well. -/
theorem decides_of_agrees {q : Parser ω ε α} (h : (p.run s).Agrees (q.run s))
    (hq : q.Decides s S) : p.Decides s S := by
  obtain ⟨o, ho, hS⟩ := hq
  exact ⟨o, (gives_congr h).2 ho, hS⟩

theorem decides_of_success {a : α} {r : Text} (h : (p.run s).Agrees (pure (.success a r))) :
    p.Decides s fun b r' => b = a ∧ r' = r := by
  refine ⟨.success a r, h.ends_iff.2 (Run.ends_pure.2 ⟨rfl, rfl⟩), fun b r' => ?_⟩
  rw [Outcome.success.injEq, eq_comm, eq_comm (a := r)]

theorem decides_of_failure (h : (p.run s).Agrees (pure .failure)) (hS : ∀ a r, ¬S a r) :
    p.Decides s S := by
  refine ⟨.failure, h.ends_iff.2 (Run.ends_pure.2 ⟨rfl, rfl⟩), fun a r => ?_⟩
  constructor
  · intro e
    cases e
  · intro k
    exact absurd k (hS a r)

end

/-! ## Operations -/

theorem decides_succeed (a : α) (s : Text) :
    (succeed a : Parser ω ε α).Decides s fun b r => b = a ∧ r = s :=
  decides_of_success (.refl _)

/-- **Sequences decide one part after the other.** -/
theorem decides_bind {q : α → Parser ω ε β} {P : α → Text → Prop}
    {Q : α → Text → β → Text → Prop} (hp : p.Decides s P)
    (hq : ∀ a s', P a s' → (q a).Decides s' (Q a s')) :
    (p.bind fun a => pure (q a)).Decides s fun b r => ∃ a s', P a s' ∧ Q a s' b r := by
  obtain ⟨o, ho, hP⟩ := hp
  cases o with
  | failure =>
    refine ⟨.failure, gives_bind.2 (.inl ⟨ho, rfl⟩), fun b r => ?_⟩
    constructor
    · intro e
      cases e
    · rintro ⟨a, s', h, -⟩
      cases (hP a s').2 h
  | success a s' =>
    have ha := (hP a s').1 rfl
    obtain ⟨o', ho', hQ⟩ := hq a s' ha
    refine ⟨o', gives_bind.2 (.inr ⟨a, s', ho, ho'⟩), fun b r => ?_⟩
    rw [hQ]
    constructor
    · exact fun h => ⟨a, s', ha, h⟩
    · rintro ⟨a', s'', h, hb⟩
      cases (hP a' s'').2 h
      exact hb

theorem decides_map {f : α → β} {P : α → Text → Prop} (hp : p.Decides s P) :
    (p.map fun a => pure (f a)).Decides s fun b r => ∃ a, P a r ∧ b = f a := by
  obtain ⟨o, ho, hP⟩ := hp
  refine ⟨o.map f, gives_map.2 ⟨o, ho, rfl⟩, fun b r => ?_⟩
  constructor
  · intro e
    cases o <;> cases e
    exact ⟨_, (hP _ _).1 rfl, rfl⟩
  · rintro ⟨a, h, rfl⟩
    rw [(hP a r).2 h, Outcome.map_success]

/-- **A choice decides its second part where the first has no success.** -/
theorem decides_orElse {q : Ref ω ε α} {P Q : α → Text → Prop} (hp : p.Decides s P)
    (hq : (lazily q).Decides s Q) :
    (p.orElse q).Decides s fun a r => P a r ∨ (∀ a r, ¬P a r) ∧ Q a r := by
  obtain ⟨o, ho, hP⟩ := hp
  cases o with
  | failure =>
    have hno : ∀ a r, ¬P a r := fun a r h => by cases (hP a r).2 h
    obtain ⟨o', ho', hQ⟩ := hq
    refine ⟨o', gives_orElse.2 (.inr ⟨ho, ho'⟩), fun a r => ?_⟩
    rw [hQ]
    constructor
    · exact fun h => .inr ⟨hno, h⟩
    · exact fun h => h.elim (fun h => absurd h (hno a r)) And.right
  | success b r' =>
    refine ⟨.success b r', gives_orElse.2 (.inl ⟨ho, fun e => by cases e⟩), fun a r => ?_⟩
    rw [hP]
    constructor
    · exact .inl
    · exact fun h => h.elim id fun h => absurd ((hP b r').1 rfl) (h.1 b r')

theorem decides_lexeme {P : α → Text → Prop} (hp : p.Decides (trim s) P) :
    (lexeme p).Decides s fun a r => ∃ r', P a r' ∧ r = trim r' := by
  obtain ⟨o, ho, hP⟩ := hp
  refine ⟨o.trim, gives_lexeme.2 ⟨o, ho, rfl⟩, fun a r => ?_⟩
  constructor
  · intro e
    cases o <;> cases e
    exact ⟨_, (hP _ _).1 rfl, rfl⟩
  · rintro ⟨r', h, rfl⟩
    rw [(hP a r').2 h, Outcome.trim]

/-! ## Repetitions -/

section

variable {D : Text → α → Text → Prop} {I : Text → Prop}

/-- A relation that consumes has, from each text, a chain that cannot be continued. -/
theorem exists_maximal_chain (hI : ∀ s a r, I s → D s a r → I r ∧ r.length < s.length)
    (hs : I s) : ∃ vs r, Chain D s vs r ∧ I r ∧ ∀ a r', ¬D r a r' := by
  induction hn : s.length using Nat.strongRecOn generalizing s with
  | _ n ih =>
    by_cases h : ∃ a r, D s a r
    · obtain ⟨a, r, h⟩ := h
      obtain ⟨hr, hlt⟩ := hI s a r hs h
      obtain ⟨vs, r', hc, hr', hno⟩ := ih r.length (hn ▸ hlt) hr rfl
      exact ⟨a :: vs, r', .cons h hc, hr', hno⟩
    · exact ⟨[], s, .nil s, hs, fun a r h' => h ⟨a, r, h'⟩⟩

theorem Chain.gives (hp : ∀ s, I s → p.Decides s (D s))
    (hI : ∀ s a r, I s → D s a r → I r ∧ r.length < s.length) {vs : List α} {r : Text}
    (h : Chain D s vs r) (hs : I s) :
    Chain (fun s v r => p.Gives s (.success v r)) s vs r ∧ I r := by
  induction h with
  | nil s => exact ⟨.nil s, hs⟩
  | cons h _ ih =>
    obtain ⟨hc, hr⟩ := ih (hI _ _ _ hs h).1
    exact ⟨.cons ((hp _ hs).gives_success_iff.2 h) hc, hr⟩

/-- **A repetition decides the chains that cannot be continued,** where its body consumes. -/
theorem decides_many (hp : ∀ s, I s → p.Decides s (D s))
    (hI : ∀ s a r, I s → D s a r → I r ∧ r.length < s.length) (hs : I s) :
    (many p).Decides s fun vs r => Chain D s vs r ∧ ∀ a r', ¬D r a r' := by
  have gives_of_chain : ∀ {vs r}, Chain D s vs r → (∀ a r', ¬D r a r') →
      (many p).Gives s (.success vs r) := by
    intro vs r hc hno
    obtain ⟨hg, hr⟩ := hc.gives hp hI hs
    exact gives_many.2 ⟨vs, r, rfl, hg, (hp r hr).gives_failure_iff.2 hno⟩
  obtain ⟨vs, r, hc, -, hno⟩ := exists_maximal_chain hI hs
  refine ⟨.success vs r, gives_of_chain hc hno, fun vs' r' => ?_⟩
  constructor
  · intro e
    cases e
    exact ⟨hc, hno⟩
  · rintro ⟨hc', hno'⟩
    exact (gives_of_chain hc hno).unique (gives_of_chain hc' hno')

end

theorem decides_many1 {P : List α → Text → Prop} (hp : (many p).Decides s P) :
    (many1 p).Decides s fun vs r => vs ≠ [] ∧ P vs r := by
  obtain ⟨o, ho, hP⟩ := hp
  refine ⟨atLeastOnce o, gives_many1.2 ⟨o, ho, rfl⟩, fun vs r => ?_⟩
  constructor
  · intro e
    match o, hP, e with
    | .success (v :: vs') r', hP, e =>
      cases e
      exact ⟨List.cons_ne_nil v vs', (hP _ _).1 rfl⟩
  · rintro ⟨hvs, h⟩
    rw [(hP vs r).2 h]
    match vs, hvs with
    | _ :: _, _ => rfl

/-! ## Characters and texts -/

/-- A class takes the first character, if this is in the class. -/
theorem decides_oneOf (test : Char → Bool) (s : Text) :
    (oneOf test : Parser ω ε Char).Decides s fun c r => s = c :: r ∧ test c = true := by
  cases s with
  | nil => exact decides_of_failure (.of_eq (oneOf_nil test)) fun c r h => by cases h.1
  | cons d s =>
    by_cases hd : test d
    · have hrun : (oneOf test : Parser ω ε Char).run (d :: s) = pure (.success d s) := by
        rw [oneOf_cons, if_pos hd]
      refine (decides_of_success (.of_eq hrun)).congr fun c r => ?_
      constructor
      · rintro ⟨rfl, rfl⟩
        exact ⟨rfl, hd⟩
      · rintro ⟨e, -⟩
        cases e
        exact ⟨rfl, rfl⟩
    · have hrun : (oneOf test : Parser ω ε Char).run (d :: s) = pure .failure := by
        rw [oneOf_cons, if_neg hd]
      refine decides_of_failure (.of_eq hrun) ?_
      rintro c r ⟨e, hc⟩
      cases e
      exact hd hc

theorem decides_char (c : Char) (s : Text) :
    (char c : Parser ω ε Char).Decides s fun d r => d = c ∧ s = c :: r := by
  refine (decides_oneOf (c == ·) s).congr fun d r => ?_
  constructor
  · rintro ⟨h, hd⟩
    cases beq_iff_eq.1 hd
    exact ⟨rfl, h⟩
  · rintro ⟨rfl, h⟩
    exact ⟨h, beq_iff_eq.2 rfl⟩

theorem decides_literal (l s : Text) :
    (literal l : Parser ω ε Text).Decides s fun u r => u = l ∧ s = l ++ r := by
  by_cases h : l <+: s
  · obtain ⟨s', rfl⟩ := h
    refine (decides_of_success (.of_eq (literal_append l s'))).congr fun u r => ?_
    rw [List.append_cancel_left_eq, eq_comm (a := r)]
  · refine decides_of_failure (.of_eq (literal_of_not h)) ?_
    rintro u r ⟨-, rfl⟩
    exact h (List.prefix_append l r)

/-- **A repeated test decides the span.** -/
theorem decides_span (test : Char → Bool) (s : Text) :
    (many (oneOf test : Parser ω ε Char)).Decides s (Span test s) :=
  (decides_of_success (many_oneOf_agrees test s)).congr fun _ _ => span_iff.symm

/-! ## Whole texts -/

/-- A parse of the whole text has a value when the parser succeeds and leaves nothing. -/
theorem decides_unpack {S : α → Text → Prop} (h : p.Decides s S) :
    ∃ x, (unpack p s).Ends [] (.ok x) ∧ ∀ a, x = some a ↔ S a [] := by
  obtain ⟨o, ho, hS⟩ := h
  refine ⟨o.whole?, Run.ends_bind_pure.2 ⟨.ok o, ho, rfl⟩, fun a => ?_⟩
  rw [← hS]
  match o with
  | .failure => simp [Outcome.whole?]
  | .success b [] => simp [Outcome.whole?]
  | .success b (c :: r) => simp [Outcome.whole?]

theorem ends_unpack_some_iff {S : α → Text → Prop} (h : p.Decides s S) {a : α} :
    (unpack p s).Ends [] (.ok (some a)) ↔ S a [] := by
  obtain ⟨x, hx, hS⟩ := decides_unpack h
  rw [← hS]
  constructor
  · intro ha
    exact Except.ok.inj (hx.unique ha).2
  · rintro rfl
    exact hx

theorem ends_unpack_none {S : α → Text → Prop} (h : p.Decides s S) (hS : ∀ a, ¬S a []) :
    (unpack p s).Ends [] (.ok none) := by
  obtain ⟨x, hx, hvalue⟩ := decides_unpack h
  have hnone : x = none :=
    Option.eq_none_iff_forall_ne_some.2 fun a ha => hS a ((hvalue a).1 ha)
  exact hnone ▸ hx

end Parser

end Descent
