import Descent.Proofs.Currying
import Descent.Proofs.Decides
import Descent.Proofs.Lexemes
import Descent.Proofs.Unrolling

/-!
# Consumption

A repetition is sure to end only if its body consumes: every success has to leave a shorter text.
Whether a parser consumes can be read off from how it is put together, and the body of a repetition
then has no more successes than the text has characters.

* `p.Consuming`, `p.NonLengthening`: every success leaves a shorter text, or one that is no longer.
* `consuming_bind`, `consuming_liftAs`, `consuming_firstOf`, …: one lemma for each operation. In a
  sequence one part has to consume.
* `Tries.length_le`: **every success of a repetition uses up a character.**
* `exists_tries`: so the tries come to an end, if each of them does.
* `consumption_composes`: **the results together.**
-/

namespace Descent.Parser

variable {ω ε α β φ : Type}

/-- The remainder `r` is shorter than the text `s`. -/
def Shorter (s r : Text) : Prop := r.length < s.length

/-- The remainder `r` is no longer than the text `s`. -/
def NoLonger (s r : Text) : Prop := r.length ≤ s.length

theorem NoLonger.refl (s : Text) : NoLonger s s := Nat.le_refl s.length

theorem NoLonger.trans (s s' r : Text) (h : NoLonger s s') (k : NoLonger s' r) : NoLonger s r :=
  Nat.le_trans k h

theorem Shorter.trans_noLonger (s s' r : Text) (h : Shorter s s') (k : NoLonger s' r) :
    Shorter s r := Nat.lt_of_le_of_lt k h

theorem NoLonger.trans_shorter (s s' r : Text) (h : NoLonger s s') (k : Shorter s' r) :
    Shorter s r := Nat.lt_of_lt_of_le k h

theorem shorter_cons (c : Char) (s : Text) : Shorter (c :: s) s := Nat.lt_succ_self s.length

/-- **Every success leaves a shorter text.** -/
def Consuming (p : Parser ω ε α) : Prop := p.Moves Shorter

/-- Every success leaves a text that is no longer. -/
def NonLengthening (p : Parser ω ε α) : Prop := p.Moves NoLonger

theorem Consuming.nonLengthening {p : Parser ω ε α} (hp : p.Consuming) : p.NonLengthening := by
  intro s t a r h
  exact Nat.le_of_lt (hp s t a r h)

/-! ## Primitive parsers -/

theorem consuming_anyChar : (anyChar : Parser ω ε Char).Consuming :=
  moves_anyChar shorter_cons

theorem consuming_satisfy (test : Char → Run ω ε Bool) : (satisfy test).Consuming :=
  moves_satisfy shorter_cons test

/-- The empty literal succeeds everywhere and consumes nothing. -/
theorem consuming_literal {l : Text} (hl : l ≠ []) : (literal l : Parser ω ε Text).Consuming := by
  refine moves_literal l fun s => ?_
  have hpos : 0 < l.length := List.length_pos_iff.2 hl
  unfold Shorter
  rw [List.length_append]
  omega

/-! ## Sequences -/

section

variable {p : Parser ω ε α} {q : Parser ω ε β}

theorem consuming_bind {f : α → Run ω ε (Parser ω ε β)}
    (h : p.Consuming ∧ (∀ a, (f a).Always NonLengthening) ∨
      p.NonLengthening ∧ ∀ a, (f a).Always Consuming) : (p.bind f).Consuming := by
  rcases h with ⟨hp, hf⟩ | ⟨hp, hf⟩
  · exact moves_bind Shorter.trans_noLonger hp hf
  · exact moves_bind NoLonger.trans_shorter hp hf

theorem nonLengthening_bind {f : α → Run ω ε (Parser ω ε β)} (hp : p.NonLengthening)
    (hf : ∀ a, (f a).Always NonLengthening) : (p.bind f).NonLengthening :=
  moves_bind NoLonger.trans hp hf

/-- Of two parsers one consumes, and the other one does not lengthen the text. -/
def OneConsumes (p : Parser ω ε α) (q : Parser ω ε β) : Prop :=
  p.Consuming ∧ q.NonLengthening ∨ p.NonLengthening ∧ q.Consuming

theorem consuming_keepRight (h : OneConsumes p q) : (p.keepRight q).Consuming := by
  rcases h with ⟨hp, hq⟩ | ⟨hp, hq⟩
  · exact moves_keepRight Shorter.trans_noLonger hp hq
  · exact moves_keepRight NoLonger.trans_shorter hp hq

theorem consuming_keepLeft (h : OneConsumes p q) : (p.keepLeft q).Consuming := by
  rcases h with ⟨hp, hq⟩ | ⟨hp, hq⟩
  · exact moves_keepLeft Shorter.trans_noLonger hp hq
  · exact moves_keepLeft NoLonger.trans_shorter hp hq

theorem consuming_ap {app : φ → α → Run ω ε β} {u : Parser ω ε φ} (h : OneConsumes u p) :
    (ap app u p).Consuming := by
  rcases h with ⟨hu, hp⟩ | ⟨hu, hp⟩
  · exact moves_ap Shorter.trans_noLonger hu hp
  · exact moves_ap NoLonger.trans_shorter hu hp

variable {app : φ → α → Run ω ε φ} {f : φ} {ps : List (Parser ω ε α)}

theorem nonLengthening_feed (hps : ∀ p ∈ ps, p.NonLengthening) :
    (feed app f ps).NonLengthening := by
  induction ps generalizing f with
  | nil => exact moves_succeed NoLonger.refl f
  | cons p ps ih =>
    obtain ⟨hp, hrest⟩ := List.forall_mem_cons.1 hps
    rw [feed_cons]
    refine nonLengthening_bind hp fun a t q hq => ?_
    obtain ⟨g, -, rfl⟩ := Run.ends_bind_pure_ok.1 hq
    exact ih hrest

/-- **One parser that consumes is enough,** wherever it stands in the sequence. -/
theorem consuming_feed (hps : ∀ p ∈ ps, p.NonLengthening) (h : ∃ p ∈ ps, p.Consuming) :
    (feed app f ps).Consuming := by
  induction ps generalizing f with
  | nil =>
    obtain ⟨p, hp, -⟩ := h
    cases hp
  | cons p ps ih =>
    obtain ⟨hp, hrest⟩ := List.forall_mem_cons.1 hps
    obtain ⟨q, hq, hconsumes⟩ := h
    rw [feed_cons]
    refine consuming_bind ?_
    rcases List.mem_cons.1 hq with rfl | hq
    · refine .inl ⟨hconsumes, fun a t q' hq' => ?_⟩
      obtain ⟨g, -, rfl⟩ := Run.ends_bind_pure_ok.1 hq'
      exact nonLengthening_feed hrest
    · refine .inr ⟨hp, fun a t q' hq' => ?_⟩
      obtain ⟨g, -, rfl⟩ := Run.ends_bind_pure_ok.1 hq'
      exact ih hrest ⟨q, hq, hconsumes⟩

end

theorem consuming_liftAs {app : α → α → Run ω ε α} {f : α} {p : Parser ω ε α}
    {ps : List (Parser ω ε α)} (hps : ∀ q ∈ p :: ps, q.NonLengthening)
    (h : ∃ q ∈ p :: ps, q.Consuming) : (liftAs app f p ps).Consuming := by
  rw [liftAs_eq_feed]
  exact consuming_feed hps h

/-! ## Choices and the rest -/

section

variable {p : Parser ω ε α}

theorem consuming_lazily {r : Ref ω ε α} (hr : r.force.Always Consuming) :
    (lazily r).Consuming := moves_lazily hr

theorem consuming_orElse {r : Ref ω ε α} (hp : p.Consuming) (hr : r.force.Always Consuming) :
    (p.orElse r).Consuming := moves_orElse hp (consuming_lazily hr)

theorem consuming_firstOf {rs : List (Ref ω ε α)} (h : ∀ r ∈ rs, r.force.Always Consuming) :
    (firstOf rs).Consuming := moves_firstOf fun r hr => consuming_lazily (h r hr)

theorem consuming_letterOrDigit : (letterOrDigit : Parser ω ε Char).Consuming := by
  refine consuming_orElse (consuming_satisfy _) fun t q hq => ?_
  cases (Run.ends_pure.1 hq).2
  exact consuming_satisfy _

theorem consuming_map (f : α → Run ω ε β) (hp : p.Consuming) : (p.map f).Consuming :=
  moves_map f hp

theorem consuming_logInput (o : Text → Run ω ε Unit) (hp : p.Consuming) :
    (logInput o p).Consuming := moves_logInput o hp

/-- The blanks that a lexeme strips make a text only shorter. -/
theorem consuming_lexeme (hp : p.Consuming) : (lexeme p).Consuming := by
  intro s t a r h
  obtain ⟨r', hr', rfl⟩ := ends_lexeme_success.1 h
  have hbody : r'.length < (trim s).length := hp (trim s) t a r' hr'
  have hbefore : (trim s).length ≤ s.length := length_trim_le s
  have hbehind : (trim r').length ≤ r'.length := length_trim_le r'
  unfold Shorter
  omega

theorem nonLengthening_many (hp : p.NonLengthening) : (many p).NonLengthening :=
  moves_many NoLonger.refl NoLonger.trans hp

/-- One success is there, and the others do no harm. -/
theorem consuming_many1 (hp : p.Consuming) : (many1 p).Consuming := by
  refine moves_of_agrees (many1_unrolls p) ?_
  refine consuming_bind (.inl ⟨hp, fun a t q hq => ?_⟩)
  cases (Run.ends_pure.1 hq).2
  exact moves_map _ (nonLengthening_many hp.nonLengthening)

/-! ## Repetition -/

/-- **Every success uses up a character.** -/
theorem Tries.length_le (hp : p.Consuming) {s r : Text} {ts : List (Text × List ω)} {vs : List α}
    {x : Except ε (Outcome α)} (h : Tries p s ts vs r x) : vs.length + r.length ≤ s.length := by
  induction h with
  | last _ => exact Nat.le_of_eq (Nat.zero_add _)
  | @next s s' r t ts v vs x h _ ih =>
    have hlt : s'.length < s.length := hp s t v s' h
    rw [List.length_cons]
    omega

/-- **The tries come to an end,** where every try does. The induction is on the length of the text,
which the successes make shorter. -/
theorem exists_tries (hp : p.Consuming) {s : Text}
    (hends : ∀ s' : Text, s'.length ≤ s.length → ∃ t o, (p.run s').Ends t (.ok o)) :
    ∃ ts vs r, Tries p s ts vs r (.ok .failure) := by
  induction hn : s.length using Nat.strongRecOn generalizing s with
  | _ n ih =>
    subst hn
    obtain ⟨t, o, ho⟩ := hends s (Nat.le_refl _)
    cases o with
    | failure => exact ⟨_, _, _, .last ho⟩
    | success v s' =>
      have hlt : s'.length < s.length := hp s t v s' ho
      obtain ⟨ts, vs, r, htries⟩ := ih s'.length hlt
        (fun u hu => hends u (Nat.le_trans hu (Nat.le_of_lt hlt))) rfl
      exact ⟨_, _, _, .next ho htries⟩

/-- **A repetition of a parser that consumes ends.** The tries of the two repetitions are the same,
and an observer in front of the parser is shown these and no others. -/
theorem many_ends (hp : p.Consuming) {s : Text}
    (hends : ∀ s' : Text, s'.length ≤ s.length → ∃ t o, (p.run s').Ends t (.ok o)) :
    ∃ ts vs r, Tries p s ts vs r (.ok .failure) ∧ ts.length ≤ s.length + 1 ∧
      vs.length ≤ s.length ∧
      ((many p).run s).Ends (ts.flatMap Prod.snd) (.ok (.success vs r)) ∧
      ((many1 p).run s).Ends (ts.flatMap Prod.snd)
        (.ok (if vs.isEmpty then .failure else .success vs r)) ∧
      ∀ shown : Text → ω, let q := logInput (fun u => Run.emit (shown u)) p
        let t := ts.flatMap fun a => shown a.1 :: a.2
        ((many q).run s).Ends t (.ok (.success vs r)) ∧
        ((many1 q).run s).Ends t (.ok (if vs.isEmpty then .failure else .success vs r)) := by
  obtain ⟨ts, vs, r, htries⟩ := exists_tries hp hends
  have hle : vs.length + r.length ≤ s.length := htries.length_le hp
  have hlen : ts.length = vs.length + 1 := htries.length
  have hmany : ((many p).run s).Ends (ts.flatMap Prod.snd) (.ok (.success vs r)) :=
    ends_many_success_iff.2 ⟨ts, htries, rfl⟩
  have houtcome : (if vs.isEmpty then Outcome.failure else .success vs r) =
      atLeastOnce (.success vs r) := by cases vs <;> rfl
  refine ⟨ts, vs, r, htries, by omega, by omega, hmany, ?_, fun shown => ⟨?_, ?_⟩⟩
  · rw [many1_run, Run.ends_bind_pure_ok]
    exact ⟨_, hmany, houtcome⟩
  · exact ends_many_watched_iff.2 ⟨ts, vs, r, rfl, .inl ⟨htries, rfl⟩⟩
  · rw [houtcome]
    exact ends_many1_watched_iff.2 ⟨ts, vs, r, rfl, .inl ⟨htries, rfl⟩⟩

end

/-- **Consumption composes, and a repetition of what consumes ends.** Characters, classes and
literals that are not empty consume. A sequence consumes if one of its parts does and the others do
not lengthen the text, and a choice if all alternatives do; a function on the value, a reference, an
observer, blanks on either side and one repetition inside another do not matter. If a parser
consumes, and comes to an outcome on all texts that are no longer than `s`, then its repetitions end
on `s`, after at most one try more than `s` has characters, with at most as many values as `s` has
characters. An observer in front of the parser is shown the texts of these tries, once each. -/
theorem consumption_composes :
    ((anyChar : Parser ω ε Char).Consuming ∧
      (∀ test : Char → Run ω ε Bool, (satisfy test).Consuming) ∧
      (∀ c, (char c : Parser ω ε Char).Consuming) ∧ (digitValue : Parser ω ε Nat).Consuming ∧
      (∀ q ∈ [letter, digit, letterOrDigit, space, blank], (q : Parser ω ε Char).Consuming) ∧
      ∀ l, l ≠ [] → (literal l : Parser ω ε Text).Consuming) ∧
    ((∀ p : Parser ω ε α, p.Consuming → p.NonLengthening) ∧
      (∀ (p : Parser ω ε α) (f : α → Run ω ε (Parser ω ε β)),
        p.Consuming ∧ (∀ a, (f a).Always NonLengthening) ∨
          p.NonLengthening ∧ (∀ a, (f a).Always Consuming) → (p.bind f).Consuming) ∧
      (∀ (p : Parser ω ε α) (q : Parser ω ε β), OneConsumes p q →
        (p.keepRight q).Consuming ∧ (p.keepLeft q).Consuming) ∧
      (∀ (app : φ → α → Run ω ε β) (u : Parser ω ε φ) (p : Parser ω ε α), OneConsumes u p →
        (ap app u p).Consuming) ∧
      ∀ (app : α → α → Run ω ε α) (f : α) (p : Parser ω ε α) (ps : List (Parser ω ε α)),
        (∀ q ∈ p :: ps, q.NonLengthening) → (∃ q ∈ p :: ps, q.Consuming) →
          (liftAs app f p ps).Consuming) ∧
    ((∀ (p : Parser ω ε α) (r : Ref ω ε α), p.Consuming → r.force.Always Consuming →
        (p.orElse r).Consuming) ∧
      (∀ rs : List (Ref ω ε α), (∀ r ∈ rs, r.force.Always Consuming) → (firstOf rs).Consuming) ∧
      (∀ r : Ref ω ε α, r.force.Always Consuming → (lazily r).Consuming) ∧
      ∀ p : Parser ω ε α, p.Consuming → (∀ f : α → Run ω ε β, (p.map f).Consuming) ∧
        (∀ o, (logInput o p).Consuming) ∧ (lexeme p).Consuming ∧ (many1 p).Consuming) ∧
    ∀ (p : Parser ω ε α) (s : Text), p.Consuming →
      (∀ s' : Text, s'.length ≤ s.length → ∃ t o, (p.run s').Ends t (.ok o)) →
      ∃ ts vs r, Tries p s ts vs r (.ok .failure) ∧ ts.length ≤ s.length + 1 ∧
        vs.length ≤ s.length ∧
        ((many p).run s).Ends (ts.flatMap Prod.snd) (.ok (.success vs r)) ∧
        ((many1 p).run s).Ends (ts.flatMap Prod.snd)
          (.ok (if vs.isEmpty then .failure else .success vs r)) ∧
        ∀ shown : Text → ω, let q := logInput (fun u => Run.emit (shown u)) p
          let t := ts.flatMap fun a => shown a.1 :: a.2
          ((many q).run s).Ends t (.ok (.success vs r)) ∧
          ((many1 q).run s).Ends t (.ok (if vs.isEmpty then .failure else .success vs r)) := by
  have hclasses : ∀ q ∈ [letter, digit, letterOrDigit, space, blank],
      (q : Parser ω ε Char).Consuming := by
    simp only [List.forall_mem_cons]
    exact ⟨consuming_satisfy _, consuming_satisfy _, consuming_letterOrDigit, consuming_satisfy _,
      consuming_satisfy _, fun q hq => (by cases hq)⟩
  refine ⟨⟨consuming_anyChar, consuming_satisfy, fun c => consuming_satisfy _,
    consuming_map _ (consuming_satisfy _), hclasses, fun l => consuming_literal⟩,
    ⟨fun p hp => hp.nonLengthening, fun p f => consuming_bind, fun p q h => ?_,
      fun app u p => consuming_ap, fun app f p ps => consuming_liftAs⟩,
    ⟨fun p r => consuming_orElse, fun rs => consuming_firstOf, fun r => consuming_lazily,
      fun p hp => ?_⟩, fun p s hp => many_ends hp⟩
  · exact ⟨consuming_keepRight h, consuming_keepLeft h⟩
  · exact ⟨fun f => consuming_map f hp, fun o => consuming_logInput o hp, consuming_lexeme hp,
      consuming_many1 hp⟩

/-- A repetition inside another: runs of a letter, each with a semicolon and blanks behind it. The
inner repetition ends wherever it is run, so the outer one does too. -/
theorem consumption_composes_runs :
    let item : Parser Text Unit (List Char) := (many1 (char 'a')).keepLeft (lexeme (char ';'))
    let s : Text := ['a', 'a', ' ', ';', '\n', 'a', ';', 'x']
    item.Consuming ∧ (∀ s' : Text, s'.length ≤ s.length → ∃ t o, (item.run s').Ends t (.ok o)) ∧
    ∃ ts vs r, Tries item s ts vs r (.ok .failure) ∧ ts.length ≤ 9 ∧ vs.length ≤ 8 ∧
      ((many item).run s).Ends (ts.flatMap Prod.snd) (.ok (.success vs r)) := by
  intro item s
  obtain ⟨⟨-, -, hchar, -⟩, -, ⟨-, -, -, hparts⟩, hletters⟩ :=
    consumption_composes (ω := Text) (ε := Unit) (α := Char) (β := Unit) (φ := Unit)
  obtain ⟨-, ⟨-, -, hkeep, -⟩, -, hitems⟩ :=
    consumption_composes (ω := Text) (ε := Unit) (α := List Char) (β := Char) (φ := Unit)
  have hrun : (many1 (char 'a') : Parser Text Unit (List Char)).Consuming :=
    (hparts _ (hchar 'a')).2.2.2
  have hsemicolon : (lexeme (char ';') : Parser Text Unit Char).Consuming :=
    (hparts _ (hchar ';')).2.2.1
  have hitem : item.Consuming := (hkeep _ _ (.inl ⟨hrun, hsemicolon.nonLengthening⟩)).2
  have hends (s' : Text) : ∃ t o, (item.run s').Ends t (.ok o) := by
    have hletter (u : Text) (_ : u.length ≤ s'.length) :
        ∃ t o, ((char 'a' : Parser Text Unit Char).run u).Ends t (.ok o) := by
      obtain ⟨o, ho, -⟩ := decides_char (ω := Text) (ε := Unit) 'a' u
      exact ⟨[], o, ho⟩
    obtain ⟨ts, vs, r, -, -, -, -, hrun, -⟩ := hletters (char 'a') s' (hchar 'a') hletter
    cases vs with
    | nil => exact ⟨_, _, ends_bind.2 (.inr (.inl ⟨hrun, rfl⟩))⟩
    | cons v vs =>
      obtain ⟨o, ho, -⟩ := decides_map (f := fun _ => v :: vs)
        (decides_lexeme (decides_char (ω := Text) (ε := Unit) ';' (trim r)))
      exact ⟨_, o, ends_bind.2 (.inr (.inr ⟨_, _, _, [], hrun, ho, rfl⟩))⟩
  obtain ⟨ts, vs, r, htries, hts, hvs, hmany, -⟩ := hitems item s hitem fun s' _ => hends s'
  exact ⟨hitem, fun s' _ => hends s', ts, vs, r, htries, hts, hvs, hmany⟩

end Descent.Parser
