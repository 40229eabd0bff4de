import Descent.Proofs.Currying
import Descent.Proofs.Deferral

/-!
# Sequences with brackets

A sequence of several parsers may be bracketed in many ways, and each pair in it keeps the value of
the one side or of the other. All that matters is the parsers from left to right and which of them
it is whose value comes out in the end.

* `Bracketed P`: the sequences with all their brackets.
* `Selects app n k f`: the curried function of `n` arguments that gives the one at `k`.
* `bind_agrees_feed`: **a bracketed sequence is its parsers in turn,** whatever stands behind it.
* `gather`: feeding that gathers the values.
* `Script.selector`: a selecting function among the values of scripts.
* `brackets_agree`: **the results together.**
-/

namespace Descent

/-- **A sequence with its brackets.** A pair keeps the value on its right or the one on its left. -/
inductive Bracketed (P : Type) where
  | one (p : P)
  | keepRight (l r : Bracketed P)
  | keepLeft (l r : Bracketed P)

namespace Bracketed

variable {P : Type}

/-- The first of its members. -/
def first : Bracketed P → P
  | one p => p
  | keepRight l _ => l.first
  | keepLeft l _ => l.first

/-- The others, from left to right. -/
def others : Bracketed P → List P
  | one _ => []
  | keepRight l r => l.others ++ r.first :: r.others
  | keepLeft l r => l.others ++ r.first :: r.others

/-- All members, from left to right. -/
def members (b : Bracketed P) : List P := b.first :: b.others

/-- The place of the member whose value is kept: to the right or to the left at every pair, as the
pair says. -/
def kept : Bracketed P → Nat
  | one _ => 0
  | keepRight l r => l.members.length + r.kept
  | keepLeft l _ => l.kept

@[simp] theorem members_one (p : P) : (one p).members = [p] := rfl

@[simp] theorem members_keepRight (l r : Bracketed P) :
    (keepRight l r).members = l.members ++ r.members := rfl

@[simp] theorem members_keepLeft (l r : Bracketed P) :
    (keepLeft l r).members = l.members ++ r.members := rfl

theorem kept_lt (b : Bracketed P) : b.kept < b.members.length := by
  induction b with
  | one p => exact Nat.one_pos
  | keepRight l r _ ihr =>
    rw [kept, members_keepRight, List.length_append]
    omega
  | keepLeft l r ihl _ =>
    rw [kept, members_keepLeft, List.length_append]
    omega

variable {ω ε α : Type}

/-- The parser, with the operation at each pair that the pair says. -/
def parser : Bracketed (Parser ω ε α) → Parser ω ε α
  | one p => p
  | keepRight l r => l.parser.keepRight r.parser
  | keepLeft l r => l.parser.keepLeft r.parser

end Bracketed

namespace Parser

variable {ω ε α β φ : Type} {app : φ → α → Run ω ε φ}

/-- **The curried function of `n` arguments that gives the one at `k`,** and does nothing else. -/
def Selects (app : α → α → Run ω ε α) (n k : Nat) (f : α) : Prop :=
  ∀ (as : List α) a, as.length = n → as[k]? = some a → (as.foldlM app f).Ends [] (.ok a)

/-- Applying to some arguments and then to others, with no marks. -/
theorem ends_foldlM_append {f g : φ} {as bs : List α} :
    ((as ++ bs).foldlM app f).Ends [] (.ok g) ↔
      ∃ g', (as.foldlM app f).Ends [] (.ok g') ∧ (bs.foldlM app g').Ends [] (.ok g) := by
  rw [List.foldlM_append, Run.ends_bind_ok]
  constructor
  · rintro ⟨g', u, v, h, k, ht⟩
    obtain ⟨rfl, rfl⟩ := List.append_eq_nil_iff.1 ht.symm
    exact ⟨g', h, k⟩
  · rintro ⟨g', h, k⟩
    exact ⟨g', [], [], h, k, rfl⟩

/-- Applying to the first argument and then to the others, with no marks. -/
theorem ends_foldlM_cons {f g : φ} {a : α} {as : List α} :
    ((a :: as).foldlM app f).Ends [] (.ok g) ↔
      ∃ g', (app f a).Ends [] (.ok g') ∧ (as.foldlM app g').Ends [] (.ok g) := by
  rw [← List.singleton_append, ends_foldlM_append]
  simp only [List.foldlM_cons, List.foldlM_nil, bind_pure]

/-- Applied to a value for each of `n` parsers, the function leaves no marks and comes to a value
for which `G` does what `F` does for the value at the place `k`. -/
def Follows (app : φ → α → Run ω ε φ) (n k : Nat) (f : φ) (F : α → Parser ω ε β)
    (G : φ → Parser ω ε β) : Prop :=
  ∀ (as : List α) a, as.length = n → as[k]? = some a →
    ∃ g, (as.foldlM app f).Ends [] (.ok g) ∧ (F a).Agrees (G g)

variable {f : φ} {F : α → Parser ω ε β} {G : φ → Parser ω ε β}

/-- A function that takes arguments for two sequences takes those for the first one, and then those
for the second. -/
theorem Follows.split {n k : Nat} {as bs : List α} {a : α} (h : Follows app (as.length + n) k f F G)
    (hbs : bs.length = n) (ha : (as ++ bs)[k]? = some a) :
    ∃ g, (as.foldlM app f).Ends [] (.ok g) ∧ ∀ (bs : List α) a, bs.length = n →
      (as ++ bs)[k]? = some a → ∃ g', (bs.foldlM app g).Ends [] (.ok g') ∧ (F a).Agrees (G g') := by
  obtain ⟨_, hends, -⟩ := h (as ++ bs) a (by rw [List.length_append, hbs]) ha
  obtain ⟨g, hg, -⟩ := ends_foldlM_append.1 hends
  refine ⟨g, hg, fun cs c hcs hc => ?_⟩
  obtain ⟨g', hends, hFG⟩ := h (as ++ cs) c (by rw [List.length_append, hcs]) hc
  obtain ⟨g₁, hg₁, hg'⟩ := ends_foldlM_append.1 hends
  obtain rfl : g₁ = g := Except.ok.inj (hg₁.unique hg).2
  exact ⟨g', hg', hFG⟩

theorem bind_feed_append (f : φ) (ps qs : List (Parser ω ε α)) (G : φ → Parser ω ε β) :
    ((feed app f (ps ++ qs)).bind fun g => pure (G g)) = (feed app f ps).bind fun g =>
      pure ((feed app g qs).bind fun g => pure (G g)) := by
  rw [feed_append, bind_bind]
  simp only [pure_bind]

end Parser

namespace Bracketed

open Descent.Parser (feed Follows feed_nil feed_cons bind_feed_append bind_bind map_bind
  succeed_bind)

variable {ω ε α β φ : Type} {app : φ → α → Run ω ε φ} {F : α → Parser ω ε β}
  {G : φ → Parser ω ε β}

/-- **A bracketed sequence is its parsers in turn.** What stands behind it goes on from the value
that is kept just as it goes on from a function that has been fed with all values and picks this
one. The induction is on the brackets, and the statement is about whatever stands behind, which for
the left side of a pair is the right side as well. -/
theorem bind_agrees_feed (b : Bracketed (Parser ω ε α)) {f : φ}
    (h : Follows app b.members.length b.kept f F G) :
    (b.parser.bind fun a => pure (F a)).Agrees
      ((feed app f b.members).bind fun g => pure (G g)) := by
  induction b generalizing f F G with
  | one p =>
    intro s
    rw [members_one, feed_cons, bind_bind, Parser.bind_run, Parser.bind_run, parser]
    refine (Run.Agrees.refl (p.run s)).bind fun o => ?_
    cases o with
    | failure => exact .refl _
    | success a rest =>
      obtain ⟨g, hends, hFG⟩ := h [a] a rfl rfl
      have happ : (app f a).Ends [] (.ok g) := by simpa using hends
      simp only [pure_bind, bind_assoc, feed_nil, succeed_bind, Parser.after_pure]
      refine (hFG rest).trans ((happ.agrees.bind fun _ => .refl _).trans (.of_eq ?_)).symm
      exact pure_bind ..
  | keepRight l r ihl ihr =>
    have hleft : ((keepRight l r).parser.bind fun a => pure (F a)) =
        l.parser.bind fun _ => pure (r.parser.bind fun a => pure (F a)) := by
      rw [parser, Parser.keepRight, bind_bind]
      simp only [pure_bind]
    rw [hleft, members_keepRight, bind_feed_append]
    refine ihl fun as a has _ => ?_
    have h : Follows app (as.length + r.members.length) (as.length + r.kept) f F G := by
      rw [has, ← List.length_append]
      exact h
    have hright (bs : List α) : (as ++ bs)[as.length + r.kept]? = bs[r.kept]? := by
      rw [List.getElem?_append_right (Nat.le_add_right ..), Nat.add_sub_cancel_left]
    have hget : (List.replicate r.members.length a)[r.kept]? = some a := by
      rw [List.getElem?_replicate, if_pos r.kept_lt]
    obtain ⟨g, hg, hnext⟩ := h.split List.length_replicate ((hright _).trans hget)
    exact ⟨g, hg, ihr fun bs b hbs hb => hnext bs b hbs ((hright bs).trans hb)⟩
  | keepLeft l r ihl ihr =>
    have hleft : ((keepLeft l r).parser.bind fun a => pure (F a)) =
        l.parser.bind fun a => pure (r.parser.bind fun _ => pure (F a)) := by
      rw [parser, Parser.keepLeft, bind_bind]
      simp only [pure_bind, map_bind]
    rw [hleft, members_keepLeft, bind_feed_append]
    refine ihl fun as a has ha => ?_
    have h : Follows app (as.length + r.members.length) l.kept f F G := by
      rw [has, ← List.length_append]
      exact h
    have hget (bs : List α) : (as ++ bs)[l.kept]? = some a := by
      rw [List.getElem?_append_left (has ▸ l.kept_lt), ha]
    obtain ⟨g, hg, hnext⟩ := h.split (List.length_replicate (a := a)) (hget _)
    exact ⟨g, hg, ihr fun bs _ hbs _ => hnext bs a hbs (hget bs)⟩

/-- **Brackets do not matter:** under a function that selects the value kept, the parsers may as
well be lifted over as they stand. -/
theorem parser_agrees_liftAs {app : α → α → Run ω ε α} {f : α} (b : Bracketed (Parser ω ε α))
    (hf : Parser.Selects app b.members.length b.kept f) :
    b.parser.Agrees (Parser.liftAs app f b.first b.others) := by
  have hfollows : Follows app b.members.length b.kept f (Parser.succeed : α → Parser ω ε α)
      Parser.succeed := fun as a has ha => ⟨a, hf as a has ha, .refl _⟩
  have h := b.bind_agrees_feed hfollows
  rw [Parser.bind_succeed, Parser.bind_succeed] at h
  rw [Parser.liftAs_eq_feed]
  exact h

end Bracketed

/-! ## Values in order -/

namespace Parser

variable {ω ε α : Type} {s r : Text} {ps : List (Parser ω ε α)}

/-- The values so far and one more. -/
def gather (vs : List α) (a : α) : Run ω ε (List α) := pure (vs ++ [a])

theorem foldlM_gather (vs as : List α) :
    (as.foldlM gather vs : Run ω ε (List α)) = pure (vs ++ as) := by
  induction as generalizing vs with
  | nil => rw [List.foldlM_nil, List.append_nil]
  | cons a as ih => rw [List.foldlM_cons, gather, pure_bind, ih, List.append_assoc]; rfl

theorem Passes.gathered {vs ws : List α} {ss : List (Stage ω (List α) α)}
    {rest : List (Parser ω ε α)} (h : Passes gather s vs ps ss r ws rest) :
    ws.length = vs.length + ss.length := by
  generalize happ : (gather : List α → α → Run ω ε (List α)) = app at h
  induction h with
  | nil s vs ps => rfl
  | cons _ k _ ih =>
    subst happ
    obtain ⟨-, hg⟩ := Run.ends_pure.1 k
    cases hg
    rw [ih, List.length_append, List.length_cons, List.length_cons, List.length_nil]
    omega

end Parser

namespace Bracketed

open Descent.Parser

variable {ω ε α : Type} {s : Text} {t : List ω} {x : Except ε (Outcome α)}

/-- **How a bracketed sequence ends:** with the value kept, when all of its parsers have succeeded
in turn, or as the first of them does that does not succeed. -/
theorem ends_parser_iff (b : Bracketed (Parser ω ε α)) : (b.parser.run s).Ends t x ↔
    (∃ ss r vs v, Passes gather s [] b.members ss r vs [] ∧ vs[b.kept]? = some v ∧
      t = ss.flatMap Stage.marks ∧ x = .ok (.success v r)) ∨
    ∃ ss r vs q post u, Passes gather s [] b.members ss r vs (q :: post) ∧ (q.run r).Ends u x ∧
      (∀ v r', x ≠ .ok (.success v r')) ∧ t = ss.flatMap Stage.marks ++ u := by
  have hfollows : Follows gather b.members.length b.kept [] (succeed : α → Parser ω ε α)
      fun vs => (vs[b.kept]?).elim fail succeed := by
    intro as a _ ha
    refine ⟨as, ?_, ?_⟩
    · rw [foldlM_gather]
      exact Run.ends_pure.2 ⟨rfl, rfl⟩
    · dsimp only
      rw [ha]
      exact .refl _
  have hagrees := b.bind_agrees_feed hfollows
  rw [bind_succeed] at hagrees
  rw [(hagrees s).ends_iff, ends_bind]
  constructor
  · rintro (⟨e, h, rfl⟩ | ⟨h, rfl⟩ | ⟨vs, r, u, v, h, hv, rfl⟩)
    · rcases ends_feed_iff.1 h with ⟨_, _, _, -, -, hx⟩ | ⟨ss, r, vs, q, post, u, hss, hb, rfl⟩
      · cases hx
      · cases hb with
        | error hq => exact .inr ⟨ss, r, vs, q, post, u, hss, hq, fun _ _ h => (by cases h), rfl⟩
        | refused _ k => cases (Run.ends_pure.1 k).2
    · rcases ends_feed_iff.1 h with ⟨_, _, _, -, -, hx⟩ | ⟨ss, r, vs, q, post, u, hss, hb, rfl⟩
      · cases hx
      · cases hb with
        | failure hq =>
          exact .inr ⟨ss, r, vs, q, post, u, hss, hq, fun _ _ h => (by cases h), rfl⟩
    · rcases ends_feed_iff.1 h with ⟨ss, _, _, hss, rfl, hx⟩ | ⟨_, _, _, _, _, _, -, hb, -⟩
      · cases hx
        have hlen : b.kept < vs.length := by
          have hall : ss.length = b.members.length := hss.length
          rw [hss.gathered, List.length_nil, Nat.zero_add, hall]
          exact b.kept_lt
        rw [List.getElem?_eq_getElem hlen, Option.elim_some, after_pure] at hv
        obtain ⟨rfl, rfl⟩ := Run.ends_pure.1 hv
        exact .inl ⟨ss, r, vs, _, hss, List.getElem?_eq_getElem hlen, List.append_nil _, rfl⟩
      · cases hb
  · rintro (⟨ss, r, vs, v, h, hv, rfl, rfl⟩ | ⟨ss, r, vs, q, post, u, h, hq, hx, rfl⟩)
    · refine .inr (.inr ⟨vs, r, _, [], ends_feed_iff.2 (.inl ⟨ss, r, vs, h, rfl, rfl⟩), ?_,
        (List.append_nil _).symm⟩)
      rw [hv, Option.elim_some, after_pure]
      exact Run.ends_pure.2 ⟨rfl, rfl⟩
    · match x, hx, hq with
      | .error e, _, hq =>
        exact .inl ⟨e, ends_feed_iff.2 (.inr ⟨ss, r, vs, q, post, u, h, .error hq, rfl⟩), rfl⟩
      | .ok .failure, _, hq =>
        exact .inr (.inl ⟨ends_feed_iff.2 (.inr ⟨ss, r, vs, q, post, u, h, .failure hq, rfl⟩), rfl⟩)
      | .ok (.success v r'), hx, _ => exact absurd rfl (hx v r')

end Bracketed

/-! ## A selecting function in scripts -/

namespace Script

open Descent.Parser (Selects)

/-- A function that drops this many arguments, and then gives the one kept. -/
def discarding : Nat → Term
  | 0 => .var "kept"
  | n + 1 => .fn "dropped" (discarding n)

/-- A curried function that drops `before` arguments, keeps the next one and drops `after` more. -/
def selecting : Nat → Nat → Term
  | 0, after => .fn "kept" (discarding after)
  | before + 1, after => .fn "dropped" (selecting before after)

/-- The value of that term. -/
def selector : Nat → Nat → Value
  | 0, after => .closure [] "kept" (discarding after)
  | before + 1, after => .closure [] "dropped" (selecting before after)

theorem eval_selecting (h : Calls) (globals : Env) (before after : Nat) :
    eval h globals [] (selecting before after) = pure (selector before after) := by
  cases before <;> rfl

/-- A function is applied to the first argument, and what its body gives to the others. -/
theorem foldlM_fn_agrees (globals env : Env) (param : String) (body : Term) (x : Value)
    (xs : List Value) :
    (eval (calls globals) globals env (.fn param body) >>= fun f =>
      (x :: xs).foldlM (calls globals).apply f).Agrees
    (eval (calls globals) globals ((param, x) :: env) body >>= fun f =>
      xs.foldlM (calls globals).apply f) :=
  (calls_apply_agrees globals env param body x).bind fun _ => .refl _

/-- A function of the arguments with these names, one by one. -/
def curried : List String → Term → Term
  | [], body => body
  | x :: xs, body => .fn x (curried xs body)

/-- **Applied to all of its arguments,** a function does what its body does with them, the last one
innermost. -/
theorem curried_agrees (globals env : Env) (names : List String) (body : Term) {as : List Value}
    (has : as.length = names.length) :
    (eval (calls globals) globals env (curried names body) >>= fun f =>
      as.foldlM (calls globals).apply f).Agrees
    (eval (calls globals) globals ((names.zip as).reverse ++ env) body) := by
  induction names generalizing env as with
  | nil =>
    obtain rfl : as = [] := List.length_eq_zero_iff.1 has
    exact .of_eq (bind_pure _)
  | cons x names ih =>
    cases as with
    | nil => cases has
    | cons a as =>
      refine (foldlM_fn_agrees ..).trans ?_
      rw [List.zip_cons_cons, List.reverse_cons, List.append_assoc]
      exact ih ((x, a) :: env) (Nat.succ.inj has)

/-- Different names stand for their arguments. -/
theorem lookup_zip_reverse (env : Env) {names : List String} {as : List Value}
    (hnames : names.Nodup) (has : as.length = names.length) :
    (names.map fun x => ((names.zip as).reverse ++ env).lookup x) = as.map some := by
  induction names generalizing env as with
  | nil =>
    obtain rfl : as = [] := List.length_eq_zero_iff.1 has
    rfl
  | cons x names ih =>
    cases as with
    | nil => cases has
    | cons a as =>
      obtain ⟨hx, hnames⟩ := List.nodup_cons.1 hnames
      have hnone : (names.zip as).reverse.lookup x = none := by
        refine List.lookup_eq_none_iff.2 fun p hp => ?_
        have hmem : p.1 ∈ names := (List.of_mem_zip (List.mem_reverse.1 hp)).1
        have hne : x ≠ p.1 := fun e => hx (e ▸ hmem)
        exact bne_iff_ne.2 hne
      rw [List.zip_cons_cons, List.reverse_cons, List.append_assoc, List.map_cons, List.map_cons,
        List.singleton_append, List.lookup_append, hnone, List.lookup_cons_self]
      exact congrArg (some a :: ·) (ih ((x, a) :: env) hnames (Nat.succ.inj has))

theorem discarding_agrees (globals env : Env) {a : Value} (ha : env.lookup "kept" = some a)
    (xs : List Value) :
    (eval (calls globals) globals env (discarding xs.length) >>= fun f =>
      xs.foldlM (calls globals).apply f).Agrees (pure a) := by
  induction xs generalizing env with
  | nil =>
    refine .of_eq ?_
    simp [discarding, eval, ha]
  | cons x xs ih => exact (foldlM_fn_agrees ..).trans (ih (("dropped", x) :: env) ha)

theorem selecting_agrees (globals env : Env) (xs : List Value) (a : Value) (ys : List Value) :
    (eval (calls globals) globals env (selecting xs.length ys.length) >>= fun f =>
      (xs ++ a :: ys).foldlM (calls globals).apply f).Agrees (pure a) := by
  induction xs generalizing env with
  | nil => exact (foldlM_fn_agrees ..).trans (discarding_agrees globals _ rfl ys)
  | cons x xs ih => exact (foldlM_fn_agrees ..).trans (ih _)

/-- **The selecting function selects.** -/
theorem selector_selects (globals : Env) (before after : Nat) :
    Selects (calls globals).apply (before + 1 + after) before (selector before after) := by
  intro as a has ha
  obtain ⟨hlt, rfl⟩ := List.getElem?_eq_some_iff.1 ha
  have hsplit : as = as.take before ++ as[before] :: as.drop (before + 1) := by
    rw [List.getElem_cons_drop, List.take_append_drop]
  have h := selecting_agrees globals [] (as.take before) as[before] (as.drop (before + 1))
  rw [← hsplit, List.length_take, List.length_drop, Nat.min_eq_left (Nat.le_of_lt hlt), has,
    Nat.add_sub_cancel_left, eval_selecting, pure_bind] at h
  exact h.ends_iff.2 (Run.ends_pure.2 ⟨rfl, rfl⟩)

end Script

namespace Bracketed

open Descent.Parser Descent.Script

variable {ω ε α : Type}

/-- **Brackets do not matter.** However a sequence is bracketed, and whichever side each pair keeps,
it does the same as its parsers from left to right, lifted over the curried function that selects
the one at the place kept. So they run in turn, each on what the one before it has left; the first
that does not succeed ends the whole as it ends itself, and what stands behind it is left alone; and
when all succeed, the value is that of the parser kept. In scripts there is such a function for
every number of parsers and every place. -/
theorem brackets_agree (b : Bracketed (Parser ω ε α)) :
    (∀ app f, Selects app b.members.length b.kept f →
      b.parser.Agrees (liftAs app f b.first b.others)) ∧
    (∀ s t x, (b.parser.run s).Ends t x ↔
      (∃ ss r vs v, Passes gather s [] b.members ss r vs [] ∧ vs[b.kept]? = some v ∧
        t = ss.flatMap Stage.marks ∧ x = .ok (.success v r)) ∨
      ∃ ss r vs q post u, Passes gather s [] b.members ss r vs (q :: post) ∧ (q.run r).Ends u x ∧
        (∀ v r', x ≠ .ok (.success v r')) ∧ t = ss.flatMap Stage.marks ++ u) ∧
    ∀ globals (b : Bracketed (Parser Mark Fault Value)),
      b.parser.Agrees (liftAs (calls globals).apply (selector b.kept (b.others.length - b.kept))
        b.first b.others) := by
  refine ⟨fun app f hf => b.parser_agrees_liftAs hf, fun s t x => b.ends_parser_iff,
    fun globals b => b.parser_agrees_liftAs ?_⟩
  have hlength : b.members.length = b.kept + 1 + (b.others.length - b.kept) := by
    have hlt : b.kept < b.others.length + 1 := b.kept_lt
    have hlen : b.members.length = b.others.length + 1 := rfl
    omega
  rw [hlength]
  exact selector_selects globals b.kept _

/-- `(a < b) > c`: two characters are dropped, the second of them by the first, and the third is
kept. -/
theorem brackets_agree_last :
    let one : Char → Parser Mark Fault Value := fun c => (char c).map fun c => pure (.text [c])
    Selects (calls []).apply 3 2 (selector 2 0) ∧
    (((one 'a').keepLeft (one 'b')).keepRight (one 'c')).Agrees
      (liftAs (calls []).apply (selector 2 0) (one 'a') [one 'b', one 'c']) := by
  intro one
  have hselects := selector_selects [] 2 0
  exact ⟨hselects, (brackets_agree
    (.keepRight (.keepLeft (.one (one 'a')) (.one (one 'b'))) (.one (one 'c')))).1 _ _ hselects⟩

end Bracketed

end Descent
