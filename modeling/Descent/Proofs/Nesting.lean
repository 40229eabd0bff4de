import Descent.Grammars.Nesting
import Descent.Proofs.Alternatives
import Descent.Proofs.Decides

/-!
# What self-reference counts

A parser that refers to itself between two brackets counts how deep they are nested, and it is all
or nothing: if a single bracket is left open, every level gives up what it has, and the outermost
succeeds with nothing. A parser that refers to itself behind a character counts how often this comes
up, and looks itself up once for each time.

* `nest n`: parentheses nested `n` deep.
* `gives_parens_open`: **the parser on opening parentheses and what follows,** by induction on their
  number.
* `again n r`: a run carried out `n` times.
* `counter_replicate`: **the parser on a number of letters and what follows.**
* `self_reference_counts`: the results together.
-/

namespace Descent.Nesting

open Descent.Parser

variable {ω ε : Type} {s r : Text} {n : Nat}

/-- Parentheses nested this deep, and nothing else. -/
def nest (n : Nat) : Text := List.replicate n '(' ++ List.replicate n ')'

theorem nest_length (n : Nat) : (nest n).length = 2 * n := by
  rw [nest, List.length_append, List.length_replicate, List.length_replicate, Nat.two_mul]

theorem drop_nest (n : Nat) (r : Text) : (nest n ++ r).drop (2 * n) = r :=
  List.drop_left' (nest_length n)

/-- How many times the character stands at the head of the text. -/
def leading (c : Char) (s : Text) : Nat := (s.takeWhile (· == c)).length

/-- What stands at the head of a text, and then something else. -/
theorem leading_spec (c : Char) (s : Text) :
    ∃ r, s = List.replicate (leading c s) c ++ r ∧ ∀ r', r ≠ c :: r' := by
  have hspan : Span (· == c) s (s.takeWhile (· == c)) (s.dropWhile (· == c)) :=
    span_iff.2 ⟨rfl, rfl⟩
  obtain ⟨hs, hhead, hrest⟩ := hspan
  have hcopies : s.takeWhile (· == c) = List.replicate (leading c s) c :=
    List.eq_replicate_of_mem fun d hd => beq_iff_eq.1 (hhead d hd)
  refine ⟨s.dropWhile (· == c), by rw [← hcopies]; exact hs, fun r' hr => ?_⟩
  have hc : (c == c) = false := hrest c r' hr
  rw [beq_self_eq_true] at hc
  cases hc

theorem leading_replicate (c : Char) (n : Nat) (h : ∀ r', r ≠ c :: r') :
    leading c (List.replicate n c ++ r) = n := by
  have hspan : Span (· == c) (List.replicate n c ++ r) (List.replicate n c) r := by
    refine ⟨rfl, fun d hd => beq_iff_eq.2 (List.eq_of_mem_replicate hd), fun d r' hr => ?_⟩
    refine beq_false_of_ne ?_
    rintro rfl
    exact h r' hr
  rw [leading, ← (span_iff.1 hspan).1, List.length_replicate]

/-! ## Parentheses -/

/-- A pair of parentheses around what is counted. -/
def pair (self : Parser ω ε Nat) : Parser ω ε Nat :=
  (Parser.char '(').bind fun _ => pure <|
    (Parser.lazily (.deferred (pure self))).bind fun n => pure <|
      (Parser.char ')').bind fun _ => pure (.succeed (n + 1))

theorem gives_char (c : Char) (r : Text) :
    (char c : Parser ω ε Char).Gives (c :: r) (.success c r) :=
  (gives_of_run (char_cons c r)).2 rfl

theorem gives_char_failure {c : Char} (h : ∀ r, s ≠ c :: r) :
    (char c : Parser ω ε Char).Gives s .failure := (gives_of_run (char_of_not h)).2 rfl

/-- The parser gives what a pair gives, and nothing at all is the way out. -/
theorem gives_parens_iff {o : Outcome Nat} : (parens : Parser ω ε Nat).Gives s o ↔
    ((pair parens : Parser ω ε Nat).Gives s o ∧ o ≠ .failure) ∨
      (pair parens : Parser ω ε Nat).Gives s .failure ∧ o = .success 0 s := by
  have hrule : (parens : Parser ω ε Nat).Gives s o ↔
      (nested (fun _ => parens) () : Parser ω ε Nat).Gives s o :=
    gives_congr (Parser.fix_agrees nested_monotonic () s)
  have hnested : (nested (fun _ => parens) () : Parser ω ε Nat) =
      (pair parens).orElse (.ready (succeed 0)) := by
    rw [nested, firstOf_cons, firstOf_singleton, lazily_deferred, lazily_deferred, after_pure,
      after_pure]
    rfl
  rw [hrule, hnested, gives_orElse, lazily_ready, gives_of_run (succeed_run 0 s)]

/-- A pair fails where no parenthesis is opened. -/
theorem gives_pair_failure (h : ∀ r, s ≠ '(' :: r) (p : Parser ω ε Nat) :
    (pair p).Gives s .failure := gives_bind.2 (.inl ⟨gives_char_failure h, rfl⟩)

/-- Behind an opening parenthesis a pair is what is counted and the closing parenthesis. -/
theorem gives_pair_cons {p : Parser ω ε Nat} {o : Outcome Nat} :
    (pair p).Gives ('(' :: s) o ↔ (p.bind fun n => pure <|
      (Parser.char ')').bind fun _ => pure (.succeed (n + 1))).Gives s o := by
  rw [pair, lazily_deferred, after_pure]
  refine gives_bind.trans ?_
  constructor
  · rintro (⟨h, -⟩ | ⟨c, s', h, ho⟩)
    · cases h.unique (gives_char '(' s)
    · cases h.unique (gives_char '(' s)
      exact ho
  · intro h
    exact .inr ⟨'(', s, gives_char '(' s, h⟩

/-- What is counted is closed. -/
theorem gives_pair_closed {p : Parser ω ε Nat} (h : p.Gives s (.success n (')' :: r))) :
    (pair p).Gives ('(' :: s) (.success (n + 1) r) := by
  refine gives_pair_cons.2 (gives_bind.2 (.inr ⟨n, _, h, gives_bind.2 (.inr ⟨')', r, ?_, ?_⟩)⟩))
  · exact gives_char ')' r
  · exact (gives_of_run (succeed_run (n + 1) r)).2 rfl

/-- What is counted is left open. -/
theorem gives_pair_open {p : Parser ω ε Nat} (h : p.Gives s (.success n r))
    (hr : ∀ r', r ≠ ')' :: r') : (pair p).Gives ('(' :: s) .failure := by
  refine gives_pair_cons.2 (gives_bind.2 (.inr ⟨n, r, h, gives_bind.2 (.inl ⟨?_, rfl⟩)⟩))
  exact gives_char_failure hr

/-- **Opening parentheses and what follows,** which does not open another. If as many are closed
right away, this is what is taken. Otherwise nothing is taken, and so it is on each level: the
closing parenthesis that is due there is not at the head of the text. -/
theorem gives_parens_open (n : Nat) (hr : ∀ r', r ≠ '(' :: r') :
    (∀ r', r = List.replicate n ')' ++ r' →
      (parens : Parser ω ε Nat).Gives (List.replicate n '(' ++ r) (.success n r')) ∧
    (¬List.replicate n ')' <+: r →
      (parens : Parser ω ε Nat).Gives (List.replicate n '(' ++ r)
        (.success 0 (List.replicate n '(' ++ r))) := by
  induction n with
  | zero =>
    have hnone : (parens : Parser ω ε Nat).Gives r (.success 0 r) :=
      gives_parens_iff.2 (.inr ⟨gives_pair_failure hr _, rfl⟩)
    refine ⟨fun r' h => ?_, fun h => absurd (List.nil_prefix) h⟩
    obtain rfl : r = r' := h
    exact hnone
  | succ n ih =>
    obtain ⟨hclosed, hopen⟩ := ih
    rw [List.replicate_succ (a := '('), List.cons_append]
    constructor
    · intro r' h
      rw [List.replicate_succ', List.append_assoc] at h
      have hpair := gives_pair_closed (hclosed (')' :: r') h)
      exact gives_parens_iff.2 (.inl ⟨hpair, fun e => by cases e⟩)
    · intro h
      refine gives_parens_iff.2 (.inr ⟨?_, rfl⟩)
      by_cases hinner : List.replicate n ')' <+: r
      · -- the inner levels are closed, and this one is not
        obtain ⟨r', rfl⟩ := hinner
        refine gives_pair_open (hclosed r' rfl) fun r'' hr'' => h ⟨r'', ?_⟩
        rw [List.replicate_succ', List.append_assoc, hr'']
        rfl
      · -- the next level has given up, so its own parenthesis comes next, or what follows them
        refine gives_pair_open (hopen hinner) fun r'' hr'' => ?_
        cases n with
        | zero => exact hinner List.nil_prefix
        | succ n => cases hr''

/-- **The outcome on a text:** the leading parentheses are all closed right away, or nothing is
taken. -/
def closing (s : Text) : Outcome Nat :=
  if nest (leading '(' s) <+: s then .success (leading '(' s) (s.drop (2 * leading '(' s))
  else .success 0 s

theorem gives_parens (s : Text) : (parens : Parser ω ε Nat).Gives s (closing s) := by
  obtain ⟨r, hs, hr⟩ := leading_spec '(' s
  rw [closing]
  generalize leading '(' s = m at hs
  subst hs
  obtain ⟨hclosed, hopen⟩ := gives_parens_open (ω := ω) (ε := ε) m hr
  by_cases h : List.replicate m ')' <+: r
  · have hnest : nest m <+: List.replicate m '(' ++ r := (List.prefix_append_right_inj _).2 h
    obtain ⟨r', rfl⟩ := h
    have hdrop : (List.replicate m '(' ++ (List.replicate m ')' ++ r')).drop (2 * m) = r' := by
      rw [← List.append_assoc]
      exact drop_nest m r'
    rw [if_pos hnest, hdrop]
    exact hclosed r' rfl
  · have hnest : ¬nest m <+: List.replicate m '(' ++ r :=
      fun k => h ((List.prefix_append_right_inj _).1 k)
    rw [if_neg hnest]
    exact hopen h

/-- **The whole text is nested parentheses** just when there is something to count in it, or nothing
at all. -/
theorem closing_eq_iff : closing s = .success n [] ↔ s = nest n := by
  constructor
  · intro h
    rw [closing] at h
    generalize leading '(' s = m at h
    by_cases hnest : nest m <+: s
    · rw [if_pos hnest] at h
      obtain ⟨r, rfl⟩ := hnest
      rw [drop_nest] at h
      cases h
      exact List.append_nil _
    · -- nothing was taken and nothing is left, so nothing was there
      rw [if_neg hnest] at h
      cases h
      rfl
  · rintro rfl
    have hclose : ∀ r', List.replicate n ')' ≠ '(' :: r' := by
      intro r' h
      have hmem : '(' ∈ List.replicate n ')' := h ▸ List.mem_cons_self
      cases List.eq_of_mem_replicate hmem
    have hlead : leading '(' (nest n) = n := leading_replicate '(' n hclose
    rw [closing, hlead, if_pos (List.prefix_refl _)]
    exact congrArg (Outcome.success n) (List.drop_eq_nil_of_le (Nat.le_of_eq (nest_length n)))

/-! ## Letters -/

/-- The run carried out a number of times. -/
def again : Nat → Run ω ε Unit → Run ω ε Unit
  | 0, _ => pure ()
  | n + 1, r => r >>= fun _ => again n r

theorem again_add (m n : Nat) (r : Run ω ε Unit) :
    again (m + n) r = again m r >>= fun _ => again n r := by
  induction m with
  | zero => rw [Nat.zero_add, again, pure_bind]
  | succ m ih => rw [Nat.succ_add, again, again, ih, bind_assoc]

theorem ends_again_emit {α : Type} (n : Nat) (m : ω) (a : α) :
    (again n (Run.emit m) >>= fun _ => pure a : Run ω ε α).Ends (List.replicate n m) (.ok a) := by
  induction n with
  | zero => exact Run.ends_pure.2 ⟨rfl, rfl⟩
  | succ n ih =>
    rw [again, bind_assoc, List.replicate_succ]
    exact Run.ends_emit_bind.2 ⟨_, ih, rfl⟩

/-- The parser as it is written down, once looked up. -/
theorem counter_agrees_counted (note : Run ω ε Unit) (s : Text) :
    ((counter note).run s).Agrees ((counted note (fun _ => counter note) ()).run s) :=
  Parser.fix_agrees (counted_monotonic note) () s

/-- At a `b` the count is over, and nothing is looked up. -/
theorem counter_b (note : Run ω ε Unit) (r : Text) :
    ((counter note).run ('b' :: r)).Agrees (pure (.success 0 r)) := by
  refine (counter_agrees_counted note _).trans (.of_eq ?_)
  rw [counted, orElse_run, map_pure_run, char_cons, pure_bind, pure_bind]
  rfl

/-- Elsewhere the parser looks itself up, and what it then runs begins with an `a`. -/
theorem counter_of_not (note : Run ω ε Unit) (h : ∀ r, s ≠ 'b' :: r) :
    ((counter note).run s).Agrees (note >>= fun _ => ((Parser.char 'a').bind fun _ =>
      pure (counter note)).run s >>= fun o => pure (o.map (· + 1))) := by
  refine (counter_agrees_counted note _).trans (.of_eq ?_)
  rw [counted, orElse_run, map_pure_run, char_of_not h, pure_bind, pure_bind]
  change (note >>= fun _ => pure _) >>= _ = _
  rw [bind_assoc]
  refine congrArg (note >>= ·) (funext fun _ => ?_)
  rw [pure_bind, map_pure_run]

theorem counter_a (note : Run ω ε Unit) (s : Text) : ((counter note).run ('a' :: s)).Agrees
    (note >>= fun _ => (counter note).run s >>= fun o => pure (o.map (· + 1))) := by
  have hb : ∀ r, 'a' :: s ≠ 'b' :: r := fun r h => by cases h
  refine (counter_of_not note hb).trans (.of_eq ?_)
  rw [bind_run, char_cons, pure_bind]
  simp only [pure_bind]

theorem counter_other (note : Run ω ε Unit) (hb : ∀ r, s ≠ 'b' :: r) (ha : ∀ r, s ≠ 'a' :: r) :
    ((counter note).run s).Agrees (note >>= fun _ => pure .failure) := by
  refine (counter_of_not note hb).trans (.of_eq ?_)
  rw [bind_run, char_of_not ha, pure_bind]
  simp only [pure_bind, Outcome.map_failure]

/-- **A number of letters and what follows.** The parser looks itself up once for each, and each
adds one to the count of what follows. -/
theorem counter_replicate (note : Run ω ε Unit) (n : Nat) (s : Text) :
    ((counter note).run (List.replicate n 'a' ++ s)).Agrees
      (again n note >>= fun _ => (counter note).run s >>= fun o => pure (o.map (· + n))) := by
  induction n with
  | zero =>
    have hid : ∀ o : Outcome Nat, o.map (· + 0) = o := fun o => by cases o <;> rfl
    refine .of_eq ?_
    simp only [again, pure_bind, hid, bind_pure]
    rfl
  | succ n ih =>
    have hmap : ∀ o : Outcome Nat, (o.map (· + n)).map (· + 1) = o.map (· + (n + 1)) :=
      fun o => o.map_map _ _
    refine (counter_a note _).trans ?_
    have hrest := (Run.Agrees.refl note).bind fun _ => ih.bind fun o =>
      Run.Agrees.refl (pure (o.map (· + 1)))
    refine hrest.trans (.of_eq ?_)
    simp only [again, bind_assoc, pure_bind, hmap]

/-- **The letters before a `b` are counted,** with a look-up for each. -/
theorem counter_success (note : Run ω ε Unit) (n : Nat) (r : Text) :
    ((counter note).run (List.replicate n 'a' ++ 'b' :: r)).Agrees
      (again n note >>= fun _ => pure (.success n r)) := by
  refine (counter_replicate note n _).trans ((Run.Agrees.refl _).bind fun _ => ?_)
  refine ((counter_b note r).bind fun o => .refl (pure (o.map (· + n)))).trans (.of_eq ?_)
  rw [pure_bind, Outcome.map_success, Nat.zero_add]

/-- **Without a `b` behind the letters nothing is counted,** and there is one more look-up: the one
that finds no letter. -/
theorem counter_failure (note : Run ω ε Unit) (h : ∀ n r, s ≠ List.replicate n 'a' ++ 'b' :: r) :
    ((counter note).run s).Agrees (again (leading 'a' s + 1) note >>= fun _ => pure .failure) := by
  obtain ⟨r, hs, ha⟩ := leading_spec 'a' s
  generalize leading 'a' s = m at hs
  subst hs
  have hb : ∀ r', r ≠ 'b' :: r' := fun r' hr => h m r' (hr ▸ rfl)
  rw [again_add, bind_assoc]
  refine (counter_replicate note m r).trans ((Run.Agrees.refl _).bind fun _ => ?_)
  refine ((counter_other note hb ha).bind fun o => .refl (pure (o.map (· + m)))).trans (.of_eq ?_)
  simp only [again, bind_assoc, pure_bind, Outcome.map_failure]

/-! ## Both -/

/-- **Self-reference counts.** Parentheses that are all closed right away are counted and taken;
otherwise nothing is, with all of the text left. So the parser takes a text as a whole just when it
is nested parentheses, and then its value is the depth.

The letters before a `b` are counted and taken with it, and the parser looks itself up once for
each. On any other text it fails, with one look-up more than there are letters at the head. -/
theorem self_reference_counts :
    (∀ s, ((parens : Parser ω ε Nat).run s).Ends [] (.ok (closing s))) ∧
    (∀ s n, (unpack (parens : Parser ω ε Nat) s).Ends [] (.ok (some n)) ↔ s = nest n) ∧
    (∀ s, (∀ n, s ≠ nest n) → (unpack (parens : Parser ω ε Nat) s).Ends [] (.ok none)) ∧
    (∀ (m : ω) n r, ((counter (.emit m) : Parser ω ε Nat).run
      (List.replicate n 'a' ++ 'b' :: r)).Ends (List.replicate n m) (.ok (.success n r))) ∧
    ∀ (m : ω) s, (∀ n r, s ≠ List.replicate n 'a' ++ 'b' :: r) →
      ((counter (.emit m) : Parser ω ε Nat).run s).Ends (List.replicate (leading 'a' s + 1) m)
        (.ok .failure) := by
  have hdecides (s : Text) :
      (parens : Parser ω ε Nat).Decides s fun n r => closing s = .success n r :=
    ⟨closing s, gives_parens s, fun _ _ => Iff.rfl⟩
  refine ⟨fun s => ?_, fun s n => ?_, fun s hs => ?_, fun m n r => ?_, fun m s hs => ?_⟩
  · exact gives_parens s
  · exact (ends_unpack_some_iff (hdecides s)).trans closing_eq_iff
  · exact ends_unpack_none (hdecides s) fun n hn => hs n (closing_eq_iff.1 hn)
  · exact (counter_success (.emit m) n r).ends_iff.2 (ends_again_emit n m _)
  · exact (counter_failure (.emit m) hs).ends_iff.2 (ends_again_emit _ m _)

/-- Two parentheses of which one is closed, and two letters before a `c`. -/
theorem self_reference_counts_unfinished :
    let s : Text := ['(', '(', ')']
    ((parens : Parser Char Unit Nat).run s).Ends [] (.ok (.success 0 s)) ∧
    (unpack (parens : Parser Char Unit Nat) s).Ends [] (.ok none) ∧
    ((counter (.emit '!') : Parser Char Unit Nat).run ['a', 'a', 'c']).Ends ['!', '!', '!']
      (.ok .failure) := by
  intro s
  obtain ⟨htaken, -, hnone, -, hfails⟩ := self_reference_counts (ω := Char) (ε := Unit)
  refine ⟨htaken _, hnone _ fun n hn => ?_, hfails '!' ['a', 'a', 'c'] fun n r hr => ?_⟩
  · -- nested parentheses are even in number
    have hlength : 3 = 2 * n := (congrArg List.length hn).trans (nest_length n)
    omega
  · have hb : 'b' ∈ ['a', 'a', 'c'] := hr ▸ List.mem_append_right _ List.mem_cons_self
    exact absurd hb (by decide)

end Descent.Nesting
