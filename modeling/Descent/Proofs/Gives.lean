import Descent.Proofs.Ensures
import Descent.Proofs.Spans
import Descent.Parser.Whole

/-!
# Parsers without effects

What a parser gives on a text when it leaves no marks, one equivalence for each operation. Grammars
are made of such parsers.

* `p.Gives s o`: on the text `s` the parser comes to the outcome `o` and leaves no marks.
* `gives_bind`, `gives_orElse`, `gives_many`, …: when each operation gives an outcome.
* `p.Silent`: the parser never leaves a mark and never raises.
-/

namespace Descent

namespace Parser

variable {ω ε ι α β φ : Type}

/-- **On the text, the parser comes to this outcome** and leaves no marks. -/
def Gives (p : Parser ω ε α) (s : Text) (o : Outcome α) : Prop := (p.run s).Ends [] (.ok o)

/-- The parser leaves no marks and raises nothing. -/
def Silent (p : Parser ω ε α) : Prop := p.Ensures fun _ t x => t = [] ∧ ∃ o, x = .ok o

/-- **A chain of successes** under a relation between texts, values and remainders. -/
inductive Chain (D : Text → α → Text → Prop) : Text → List α → Text → Prop
  | nil (s : Text) : Chain D s [] s
  | cons {s s' r : Text} {v : α} {vs : List α} (h : D s v s') (hs : Chain D s' vs r) :
      Chain D s (v :: vs) r

theorem chain_nil_iff {D : Text → α → Text → Prop} {s r : Text} : Chain D s [] r ↔ s = r := by
  constructor
  · intro h
    cases h
    rfl
  · rintro rfl
    exact .nil s

theorem chain_cons_iff {D : Text → α → Text → Prop} {s r : Text} {v : α} {vs : List α} :
    Chain D s (v :: vs) r ↔ ∃ s', D s v s' ∧ Chain D s' vs r := by
  constructor
  · intro h
    cases h with
    | cons h hs => exact ⟨_, h, hs⟩
  · rintro ⟨s', h, hs⟩
    exact .cons h hs

variable {p : Parser ω ε α} {s r : Text} {a : α}

theorem Gives.unique {o o' : Outcome α} (h : p.Gives s o) (k : p.Gives s o') : o = o' := by
  obtain ⟨-, e⟩ := Run.Ends.unique h k
  exact Except.ok.inj e

theorem gives_congr {q : Parser ω ε α} (h : (p.run s).Agrees (q.run s)) {o : Outcome α} :
    p.Gives s o ↔ q.Gives s o := h.ends_iff

theorem gives_of_run {o o' : Outcome α} (h : p.run s = pure o') : p.Gives s o ↔ o = o' := by
  unfold Gives
  rw [h, Run.ends_pure]
  constructor
  · rintro ⟨-, h⟩
    exact Except.ok.inj h
  · rintro rfl
    exact ⟨rfl, rfl⟩

theorem silent_of_run (h : ∀ s, ∃ o, p.run s = pure o) : p.Silent := by
  intro s t x he
  obtain ⟨o, ho⟩ := h s
  rw [ho] at he
  obtain ⟨rfl, rfl⟩ := Run.ends_pure.1 he
  exact ⟨rfl, o, rfl⟩

/-- A parser that gives an outcome on every text is silent. -/
theorem silent_of_gives (h : ∀ s, ∃ o, p.Gives s o) : p.Silent := by
  intro s t x he
  obtain ⟨o, ho⟩ := h s
  obtain ⟨rfl, rfl⟩ := he.unique ho
  exact ⟨rfl, o, rfl⟩

theorem Silent.gives (hp : p.Silent) {t : List ω} {x : Except ε (Outcome α)}
    (h : (p.run s).Ends t x) : ∃ o, t = [] ∧ x = .ok o ∧ p.Gives s o := by
  obtain ⟨rfl, o, rfl⟩ := hp s t x h
  exact ⟨o, rfl, rfl, h⟩

/-! ## Sequences -/

/-- A sequence gives failure with its first part, or what the second gives on the rest. -/
theorem gives_bind {q : α → Parser ω ε β} {o : Outcome β} :
    (p.bind fun a => pure (q a)).Gives s o ↔
      (p.Gives s .failure ∧ o = .failure) ∨
      ∃ a s', p.Gives s (.success a s') ∧ (q a).Gives s' o := by
  unfold Gives
  rw [ends_bind]
  simp only [after_pure]
  constructor
  · rintro (⟨e, -, h⟩ | ⟨h, ho⟩ | ⟨a, s', u, v, hp, hq, ht⟩)
    · cases h
    · cases ho
      exact .inl ⟨h, rfl⟩
    · obtain ⟨rfl, rfl⟩ := List.append_eq_nil_iff.1 ht.symm
      exact .inr ⟨a, s', hp, hq⟩
  · rintro (⟨h, rfl⟩ | ⟨a, s', hp, hq⟩)
    · exact .inr (.inl ⟨h, rfl⟩)
    · exact .inr (.inr ⟨a, s', [], [], hp, hq, rfl⟩)

theorem silent_bind {q : α → Parser ω ε β} (hp : p.Silent) (hq : ∀ a, (q a).Silent) :
    (p.bind fun a => pure (q a)).Silent := by
  intro s t x h
  rcases ends_bind.1 h with ⟨e, he, -⟩ | ⟨hf, rfl⟩ | ⟨a, s', u, v, hu, hv, rfl⟩
  · obtain ⟨o, -, hx, -⟩ := hp.gives he
    cases hx
  · exact ⟨(hp s t _ hf).1, .failure, rfl⟩
  · rw [after_pure] at hv
    obtain ⟨rfl, o, rfl⟩ := hq a s' v x hv
    obtain ⟨rfl, -⟩ := hp s u _ hu
    exact ⟨rfl, o, rfl⟩

theorem map_pure_run (f : α → β) (s : Text) :
    (p.map fun a => pure (f a)).run s = p.run s >>= fun o => pure (o.map f) := by
  rw [map_run]
  refine congrArg (p.run s >>= ·) (funext fun o => ?_)
  cases o with
  | failure => rfl
  | success a r => exact pure_bind ..

theorem gives_map {f : α → β} {o : Outcome β} :
    (p.map fun a => pure (f a)).Gives s o ↔ ∃ o', p.Gives s o' ∧ o = o'.map f := by
  unfold Gives
  rw [map_pure_run, Run.ends_bind_pure_ok]

theorem silent_map {f : α → β} (hp : p.Silent) : (p.map fun a => pure (f a)).Silent := by
  intro s t x h
  rw [map_pure_run] at h
  obtain ⟨y, hy, rfl⟩ := Run.ends_bind_pure.1 h
  obtain ⟨rfl, o, rfl⟩ := hp s t y hy
  exact ⟨rfl, o.map f, rfl⟩

/-! ## Choices -/

/-- A choice gives the success of its first part, or what the other gives after a failure. -/
theorem gives_orElse {q : Ref ω ε α} {o : Outcome α} :
    (p.orElse q).Gives s o ↔
      (p.Gives s o ∧ o ≠ .failure) ∨ (p.Gives s .failure ∧ (lazily q).Gives s o) := by
  unfold Gives
  rw [ends_orElse]
  constructor
  · rintro (⟨h, ho⟩ | ⟨u, v, hp, hq, ht⟩)
    · exact .inl ⟨h, fun e => ho (e ▸ rfl)⟩
    · obtain ⟨rfl, rfl⟩ := List.append_eq_nil_iff.1 ht.symm
      exact .inr ⟨hp, hq⟩
  · rintro (⟨h, ho⟩ | ⟨hp, hq⟩)
    · exact .inl ⟨h, fun e => ho (Except.ok.inj e)⟩
    · exact .inr ⟨[], [], hp, hq, rfl⟩

theorem silent_orElse {q : Ref ω ε α} (hp : p.Silent) (hq : (lazily q).Silent) :
    (p.orElse q).Silent := by
  intro s t x h
  rcases ends_orElse.1 h with ⟨ht, -⟩ | ⟨u, v, hu, hv, rfl⟩
  · exact hp s t x ht
  · obtain ⟨rfl, o, rfl⟩ := hq s v x hv
    obtain ⟨rfl, -⟩ := hp s u _ hu
    exact ⟨rfl, o, rfl⟩

/-- A choice gives what the first alternative that succeeds gives, and fails when none does. -/
theorem gives_firstOf {rs : List (Ref ω ε α)} {o : Outcome α} :
    (firstOf rs).Gives s o ↔
      (∃ rs₁ q rs₂, rs = rs₁ ++ q :: rs₂ ∧ (∀ q' ∈ rs₁, (lazily q').Gives s .failure) ∧
        (lazily q).Gives s o ∧ o ≠ .failure) ∨
      ((∀ q ∈ rs, (lazily q).Gives s .failure) ∧ o = .failure) := by
  induction rs with
  | nil =>
    rw [firstOf_nil, gives_of_run (fail_run s)]
    constructor
    · rintro rfl
      exact .inr ⟨fun q hq => (by cases hq), rfl⟩
    · rintro (⟨rs₁, q, rs₂, h, -⟩ | ⟨-, h⟩)
      · cases rs₁ <;> cases h
      · exact h
  | cons q rs ih =>
    rw [firstOf_cons, gives_orElse, lazily_ready, ih]
    constructor
    · rintro (⟨h, ho⟩ | ⟨hq, ⟨rs₁, q', rs₂, rfl, hf, h, ho⟩ | ⟨hf, ho⟩⟩)
      · exact .inl ⟨[], q, rs, rfl, fun _ h => (by cases h), h, ho⟩
      · exact .inl ⟨q :: rs₁, q', rs₂, rfl, List.forall_mem_cons.2 ⟨hq, hf⟩, h, ho⟩
      · exact .inr ⟨List.forall_mem_cons.2 ⟨hq, hf⟩, ho⟩
    · rintro (⟨rs₁, q', rs₂, e, hf, h, ho⟩ | ⟨hf, ho⟩)
      · cases rs₁ with
        | nil =>
          obtain ⟨rfl, rfl⟩ := List.cons.inj e
          exact .inl ⟨h, ho⟩
        | cons q₁ rs₁ =>
          obtain ⟨rfl, rfl⟩ := List.cons.inj e
          obtain ⟨hq, hf⟩ := List.forall_mem_cons.1 hf
          exact .inr ⟨hq, .inl ⟨rs₁, q', rs₂, rfl, hf, h, ho⟩⟩
      · obtain ⟨hq, hf⟩ := List.forall_mem_cons.1 hf
        exact .inr ⟨hq, .inr ⟨hf, ho⟩⟩

theorem silent_firstOf {rs : List (Ref ω ε α)} (h : ∀ q ∈ rs, (lazily q).Silent) :
    (firstOf rs).Silent := by
  induction rs with
  | nil => exact silent_of_run fun s => ⟨_, fail_run s⟩
  | cons q rs ih =>
    obtain ⟨hq, hs⟩ := List.forall_mem_cons.1 h
    rw [firstOf_cons]
    refine silent_orElse hq ?_
    rw [lazily_ready]
    exact ih hs

/-! ## Repetitions -/

theorem chain_of_rounds {t : List ω} {vs : List α} (h : Rounds p s t vs r) (ht : t = []) :
    Chain (fun s v r => p.Gives s (.success v r)) s vs r := by
  induction h with
  | nil s => exact .nil s
  | cons h _ ih =>
    obtain ⟨rfl, rfl⟩ := List.append_eq_nil_iff.1 ht
    exact .cons h (ih rfl)

theorem rounds_of_chain {vs : List α}
    (h : Chain (fun s v r => p.Gives s (.success v r)) s vs r) : Rounds p s [] vs r := by
  induction h with
  | nil s => exact .nil s
  | cons h _ ih => exact .cons h ih

/-- A repetition gives a chain of successes that cannot be continued. -/
theorem gives_many {o : Outcome (List α)} : (many p).Gives s o ↔
    ∃ vs r, o = .success vs r ∧ Chain (fun s v r => p.Gives s (.success v r)) s vs r ∧
      p.Gives r .failure := by
  unfold Gives
  rw [ends_many_iff]
  constructor
  · intro h
    generalize ht : ([] : List ω) = t at h
    generalize hx : (.ok o : Except ε (Outcome (List α))) = x at h
    cases h with
    | error => cases hx
    | failure hr hf =>
      cases hx
      obtain ⟨rfl, rfl⟩ := List.append_eq_nil_iff.1 ht.symm
      exact ⟨_, _, rfl, chain_of_rounds hr rfl, hf⟩
  · rintro ⟨vs, r, rfl, hc, hf⟩
    exact .failure (rounds_of_chain hc) hf

theorem gives_many_nil (h : p.Gives s .failure) : (many p).Gives s (.success [] s) :=
  gives_many.2 ⟨[], s, rfl, .nil s, h⟩

theorem gives_many_cons {s' : Text} {vs : List α} (h : p.Gives s (.success a s'))
    (hs : (many p).Gives s' (.success vs r)) : (many p).Gives s (.success (a :: vs) r) := by
  obtain ⟨vs', r', e, hc, hf⟩ := gives_many.1 hs
  cases e
  exact gives_many.2 ⟨a :: vs, r, rfl, .cons h hc, hf⟩

/-- A repetition of a parser that leaves no marks and raises no errors does neither. -/
theorem silent_many (hp : p.Silent) : (many p).Silent := by
  intro s t x h
  have silent_rounds : ∀ {s r t vs}, Rounds p s t vs r → t = [] := by
    intro s r t vs h
    induction h with
    | nil s => rfl
    | cons h _ ih =>
      obtain ⟨rfl, -⟩ := hp _ _ _ h
      exact ih
  cases ends_many_iff.1 h with
  | failure hr hf =>
    obtain ⟨rfl, -⟩ := hp _ _ _ hf
    cases silent_rounds hr
    exact ⟨rfl, _, rfl⟩
  | error hr he =>
    obtain ⟨-, o, ho⟩ := hp _ _ _ he
    cases ho

/-- What a repetition of one or more makes of the outcome of zero or more. -/
def atLeastOnce : Outcome (List α) → Outcome (List α)
  | .success [] _ => .failure
  | o => o

theorem atLeastOnce_success (vs : List α) (r : Text) :
    atLeastOnce (.success vs r) = if vs.isEmpty then .failure else .success vs r := by
  cases vs <;> rfl

theorem many1_run (s : Text) :
    (many1 p).run s = (many p).run s >>= fun o => pure (atLeastOnce o) := by
  refine congrArg ((many p).run s >>= ·) (funext fun o => ?_)
  match o with
  | .failure => rfl
  | .success [] _ => rfl
  | .success (_ :: _) _ => rfl

theorem gives_many1 {o : Outcome (List α)} :
    (many1 p).Gives s o ↔ ∃ o', (many p).Gives s o' ∧ o = atLeastOnce o' := by
  unfold Gives
  rw [many1_run, Run.ends_bind_pure_ok]

theorem silent_many1 (hp : p.Silent) : (many1 p).Silent := by
  intro s t x h
  rw [many1_run] at h
  obtain ⟨y, hy, rfl⟩ := Run.ends_bind_pure.1 h
  obtain ⟨rfl, o, rfl⟩ := silent_many hp s t y hy
  exact ⟨rfl, atLeastOnce o, rfl⟩

/-! ## Lexemes -/

theorem gives_lexeme {o : Outcome α} :
    (lexeme p).Gives s o ↔ ∃ o', p.Gives (trim s) o' ∧ o = o'.trim := by
  unfold Gives
  rw [(lexeme_agrees p s).ends_iff, Run.ends_bind_pure_ok]

theorem silent_lexeme (hp : p.Silent) : (lexeme p).Silent := by
  intro s t x h
  rw [(lexeme_agrees p s).ends_iff] at h
  obtain ⟨y, hy, rfl⟩ := Run.ends_bind_pure.1 h
  obtain ⟨rfl, o, rfl⟩ := hp _ t y hy
  exact ⟨rfl, o.trim, rfl⟩

end Parser

end Descent
