import Mathlib.Data.List.Pairwise
import Descent.Proofs.Alternatives
import Descent.Proofs.Decides
import Descent.Run.Translate

/-!
# Where precedence matters

A choice goes by the order of its alternatives, and this only matters on a text on which two of them
succeed in different ways. Among literals it is the first that the text begins with that counts,
long or short, and a literal behind one that it begins with itself is never found.

* `p.ComesTo s o`: on the text the parser ends with the outcome, whatever marks it leaves.
* `OneMind s rs`: those that succeed on the text all come to the same outcome.
* `comesTo_firstOf_iff`: **without a conflict a choice is all of its alternatives at once,** by
  induction on them, so that their order does not come into it.
* `firstOf_oneOf_agrees`: classes of characters are never in conflict.
* `literals_run`: **the first literal that the text begins with.**
* `precedence`: the results together.
-/

namespace Descent.Parser

variable {ω ε α : Type} {s : Text} {p : Parser ω ε α} {r : Ref ω ε α}
  {rs rs' : List (Ref ω ε α)} {o o' : Outcome α}

/-! ## Outcomes -/

/-- **The parser ends with this outcome,** whatever marks it leaves on the way. -/
def ComesTo (p : Parser ω ε α) (s : Text) (o : Outcome α) : Prop := ∃ t, (p.run s).Ends t (.ok o)

theorem Gives.comesTo (h : p.Gives s o) : p.ComesTo s o := ⟨[], h⟩

theorem ComesTo.unique (h : p.ComesTo s o) (k : p.ComesTo s o') : o = o' := by
  obtain ⟨t, h⟩ := h
  obtain ⟨u, k⟩ := k
  exact Except.ok.inj (h.unique k).2

/-- A choice comes to the success of its first alternative, or else to what the others come to. -/
theorem comesTo_firstOf_cons : (firstOf (r :: rs)).ComesTo s o ↔
    o.succeeded ∧ (lazily r).ComesTo s o ∨
      (lazily r).ComesTo s .failure ∧ (firstOf rs).ComesTo s o := by
  unfold ComesTo
  simp only [firstOf_cons, ends_orElse_ok, lazily_ready]
  constructor
  · rintro ⟨t, ⟨ho, h⟩ | ⟨u, v, h, k, -⟩⟩
    · exact .inl ⟨ho, t, h⟩
    · exact .inr ⟨⟨u, h⟩, v, k⟩
  · rintro (⟨ho, t, h⟩ | ⟨⟨u, h⟩, v, k⟩)
    · exact ⟨t, .inl ⟨ho, h⟩⟩
    · exact ⟨u ++ v, .inr ⟨u, v, h, k, rfl⟩⟩

/-- Each of the references comes to an outcome. -/
def Settled (s : Text) (rs : List (Ref ω ε α)) : Prop := ∀ r ∈ rs, ∃ o, (lazily r).ComesTo s o

/-- So the choice does too. -/
theorem Settled.firstOf (h : Settled s rs) : ∃ o, (firstOf rs).ComesTo s o := by
  induction rs with
  | nil => exact ⟨.failure, [], Run.ends_pure.2 ⟨rfl, rfl⟩⟩
  | cons r rs ih =>
    obtain ⟨⟨o, ho⟩, hrest⟩ := List.forall_mem_cons.1 h
    cases o with
    | success a rest => exact ⟨_, comesTo_firstOf_cons.2 (.inl ⟨rfl, ho⟩)⟩
    | failure =>
      obtain ⟨o, h⟩ := ih hrest
      exact ⟨o, comesTo_firstOf_cons.2 (.inr ⟨ho, h⟩)⟩

/-! ## Alternatives without a conflict -/

/-- The two are not in conflict: if both succeed, it is with the same outcome. -/
def Alike (s : Text) (r r' : Ref ω ε α) : Prop :=
  ∀ o o', (lazily r).ComesTo s o → (lazily r').ComesTo s o' → o.succeeded → o'.succeeded → o = o'

/-- **No two are in conflict.** -/
def OneMind (s : Text) (rs : List (Ref ω ε α)) : Prop := ∀ r ∈ rs, ∀ r' ∈ rs, Alike s r r'

/-- The parser succeeds on the text. -/
def Succeeds (p : Parser ω ε α) (s : Text) : Prop := ∃ a r, p.ComesTo s (.success a r)

/-- **No two succeed on the text.** -/
def Exclusive (s : Text) (rs : List (Ref ω ε α)) : Prop :=
  rs.Pairwise fun r r' => ¬((lazily r).Succeeds s ∧ (lazily r').Succeeds s)

theorem ComesTo.succeeds (h : p.ComesTo s o) (ho : o.succeeded) : p.Succeeds s := by
  cases o with
  | success a r => exact ⟨a, r, h⟩
  | failure => cases ho

theorem Exclusive.oneMind (h : Exclusive s rs) : OneMind s rs := by
  have hsymm : Std.Symm (Alike (ω := ω) (ε := ε) (α := α) s) :=
    ⟨fun r r' k o o' ho ho' hs hs' => (k o' o ho' ho hs' hs).symm⟩
  have hself : ∀ r ∈ rs, Alike s r r := fun r _ o o' ho ho' _ _ => ho.unique ho'
  have hpairs : rs.Pairwise (Alike s) := h.imp fun hnot o o' ho ho' hs hs' =>
    absurd ⟨ho.succeeds hs, ho'.succeeds hs'⟩ hnot
  exact hpairs.forall_of_forall hself

/-- **Without a conflict a choice is all of its alternatives at once:** it succeeds as any of them
does, and fails when all of them fail. Nothing is said of their order. -/
theorem comesTo_firstOf_iff (hsettled : Settled s rs) (hmind : OneMind s rs) :
    (firstOf rs).ComesTo s o ↔ o.succeeded ∧ (∃ r ∈ rs, (lazily r).ComesTo s o) ∨
      o = .failure ∧ ∀ r ∈ rs, (lazily r).ComesTo s .failure := by
  induction rs with
  | nil =>
    have hnil : (firstOf [] : Parser ω ε α).ComesTo s .failure := ⟨[], Run.ends_pure.2 ⟨rfl, rfl⟩⟩
    constructor
    · intro h
      exact .inr ⟨h.unique hnil, fun r hr => (by cases hr)⟩
    · rintro (⟨-, r, hr, -⟩ | ⟨rfl, -⟩)
      · cases hr
      · exact hnil
  | cons r rs ih =>
    obtain ⟨⟨o₀, hhead⟩, hrest⟩ := List.forall_mem_cons.1 hsettled
    have hmindrest : OneMind s rs := fun q hq q' hq' =>
      hmind q (List.mem_cons_of_mem r hq) q' (List.mem_cons_of_mem r hq')
    rw [comesTo_firstOf_cons, ih hrest hmindrest]
    constructor
    · rintro (⟨ho, h⟩ | ⟨hfail, ⟨ho, q, hq, h⟩ | ⟨rfl, hall⟩⟩)
      · exact .inl ⟨ho, r, List.mem_cons_self, h⟩
      · exact .inl ⟨ho, q, List.mem_cons_of_mem r hq, h⟩
      · exact .inr ⟨rfl, List.forall_mem_cons.2 ⟨hfail, hall⟩⟩
    · rintro (⟨ho, q, hq, h⟩ | ⟨rfl, hall⟩)
      · cases o₀ with
        | success a rest =>
          -- the head succeeds as well, and so with the same outcome
          obtain rfl := hmind r List.mem_cons_self q hq _ o hhead h rfl ho
          exact .inl ⟨rfl, hhead⟩
        | failure =>
          rcases List.mem_cons.1 hq with rfl | hq
          · rw [h.unique hhead] at ho
            cases ho
          · exact .inr ⟨hhead, .inl ⟨ho, q, hq, h⟩⟩
      · obtain ⟨hfail, hall⟩ := List.forall_mem_cons.1 hall
        exact .inr ⟨hfail, .inr ⟨rfl, hall⟩⟩

/-- **So the order does not matter.** -/
theorem comesTo_firstOf_perm (hperm : rs.Perm rs') (hsettled : Settled s rs)
    (hmind : OneMind s rs) : (firstOf rs).ComesTo s o ↔ (firstOf rs').ComesTo s o := by
  have hmem (r : Ref ω ε α) : r ∈ rs ↔ r ∈ rs' := hperm.mem_iff
  have hsettled' : Settled s rs' := fun r hr => hsettled r ((hmem r).2 hr)
  have hmind' : OneMind s rs' := fun r hr q hq => hmind r ((hmem r).2 hr) q ((hmem q).2 hq)
  rw [comesTo_firstOf_iff hsettled hmind, comesTo_firstOf_iff hsettled' hmind']
  simp only [hmem]

/-- A choice among references that give an outcome, without marks, gives one. -/
theorem exists_gives_firstOf (h : ∀ r ∈ rs, ∃ o, (lazily r).Gives s o) :
    ∃ o, (firstOf rs).Gives s o := by
  induction rs with
  | nil => exact ⟨.failure, Run.ends_pure.2 ⟨rfl, rfl⟩⟩
  | cons r rs ih =>
    obtain ⟨⟨o, ho⟩, hrest⟩ := List.forall_mem_cons.1 h
    rw [firstOf_cons]
    cases o with
    | success a rest => exact ⟨_, gives_orElse.2 (.inl ⟨ho, fun e => by cases e⟩)⟩
    | failure =>
      obtain ⟨o, h⟩ := ih hrest
      exact ⟨o, gives_orElse.2 (.inr ⟨ho, (lazily_ready (firstOf rs)).symm ▸ h⟩)⟩

/-- Without marks it is the same run. -/
theorem firstOf_agrees_perm (hperm : rs.Perm rs') (hgives : ∀ r ∈ rs, ∃ o, (lazily r).Gives s o)
    (hmind : OneMind s rs) : ((firstOf rs).run s).Agrees ((firstOf rs').run s) := by
  have hsettled : Settled s rs := fun r hr => (hgives r hr).imp fun _ => Gives.comesTo
  obtain ⟨o, ho⟩ := exists_gives_firstOf hgives
  obtain ⟨o', ho'⟩ := exists_gives_firstOf fun r hr => hgives r (hperm.mem_iff.2 hr)
  obtain rfl : o = o' :=
    ((comesTo_firstOf_perm hperm hsettled hmind).1 ho.comesTo).unique ho'.comesTo
  exact (Run.Ends.agrees_pure ho).trans (Run.Ends.agrees_pure ho').symm

/-! ## Characters and literals -/

/-- Two parsers that decide a text are in no conflict when what they decide has but one value and
one remainder. -/
theorem alike_of_decides {p q : Parser ω ε α} {P Q : α → Text → Prop} (hp : p.Decides s P)
    (hq : q.Decides s Q) (h : ∀ a b t u, P a t → Q b u → a = b ∧ t = u) :
    Alike s (.ready p) (.ready q) := by
  intro o o' ho ho' hs hs'
  rw [lazily_ready] at ho ho'
  obtain ⟨t, ho⟩ := ho
  obtain ⟨u, ho'⟩ := ho'
  cases o with
  | failure => cases hs
  | success a r =>
    cases o' with
    | failure => cases hs'
    | success b r' =>
      obtain ⟨-, ha⟩ := hp.ends_success_iff.1 ho
      obtain ⟨-, hb⟩ := hq.ends_success_iff.1 ho'
      obtain ⟨rfl, rfl⟩ := h a b r r' ha hb
      rfl

/-- The same for a family of parsers, and so for the choice among them. -/
theorem firstOf_map_agrees {κ : Type} {f : κ → Parser ω ε α} {S : κ → α → Text → Prop}
    {ks : List κ} (hdecides : ∀ k, (f k).Decides s (S k))
    (hS : ∀ k ∈ ks, ∀ l ∈ ks, ∀ a b t u, S k a t → S l b u → a = b ∧ t = u)
    (hperm : (ks.map fun k => Ref.ready (f k)).Perm rs) :
    ((firstOf (ks.map fun k => .ready (f k))).run s).Agrees ((firstOf rs).run s) := by
  refine firstOf_agrees_perm hperm ?_ ?_
  · intro r hr
    obtain ⟨k, -, rfl⟩ := List.mem_map.1 hr
    obtain ⟨o, ho, -⟩ := hdecides k
    exact ⟨o, by rwa [lazily_ready]⟩
  · intro r hr r' hr'
    obtain ⟨k, hk, rfl⟩ := List.mem_map.1 hr
    obtain ⟨l, hl, rfl⟩ := List.mem_map.1 hr'
    exact alike_of_decides (hdecides k) (hdecides l) (hS k hk l hl)

/-- **Classes of characters are never in conflict:** whichever succeeds, it takes the same
character. -/
theorem firstOf_oneOf_agrees (tests : List (Char → Bool)) {rs : List (Ref ω ε Char)}
    (hperm : (tests.map fun test => Ref.ready (oneOf test)).Perm rs) :
    (firstOf (tests.map fun test => .ready (oneOf test))).Agrees (firstOf rs) := by
  intro s
  refine firstOf_map_agrees (fun test => decides_oneOf test s) ?_ hperm
  rintro test - test' - c d r r' ⟨hc, -⟩ ⟨hd, -⟩
  exact List.cons.inj (hc.symm.trans hd)

/-- A letter or a digit is a choice among the two. -/
theorem letterOrDigit_eq :
    (letterOrDigit : Parser ω ε Char) = firstOf [.ready letter, .ready digit] := by
  rw [firstOf_cons, firstOf_singleton, lazily_ready, lazily_ready]
  exact orElse_congr (by rw [lazily_deferred, after_pure, lazily_ready])

/-- The choice among literals, in order. -/
def literals (ls : List Text) : Parser ω ε Text := firstOf (ls.map fun l => .ready (literal l))

theorem literals_cons (l : Text) (ls : List Text) :
    (literals (l :: ls) : Parser ω ε Text) = (literal l).orElse (.ready (literals ls)) := by
  rw [literals, List.map_cons, firstOf_cons, lazily_ready, literals]

/-- **Literals none of which begins with another** are in no conflict, since of two that stand at
the head of a text the one begins with the other. -/
theorem literals_perm {ls ls' : List Text} (hperm : ls.Perm ls')
    (hls : ∀ l ∈ ls, ∀ m ∈ ls, l <+: m → l = m) :
    (literals ls : Parser ω ε Text).Agrees (literals ls') := by
  intro s
  refine firstOf_map_agrees (fun l => decides_literal l s) ?_ (hperm.map _)
  intro l hl m hm u v r r' ⟨hu, hlr⟩ ⟨hv, hmr⟩
  have hsame : l = m := by
    rcases List.prefix_or_prefix_of_prefix ⟨r, hlr.symm⟩ ⟨r', hmr.symm⟩ with h | h
    · exact hls l hl m hm h
    · exact (hls m hm l hl h).symm
  subst hsame
  exact ⟨hu.trans hv.symm, List.append_cancel_left (hlr.symm.trans hmr)⟩

/-- **The first of the texts that stands at the head of `s`,** and what it leaves. -/
def found (ls : List Text) (s : Text) : Outcome Text :=
  match ls.find? fun l => decide (l <+: s) with
  | some l => .success l (s.drop l.length)
  | none => .failure

theorem found_cons {l : Text} (ls : List Text) (h : l <+: s) :
    found (l :: ls) s = .success l (s.drop l.length) := by
  simp only [found, List.find?_cons, h, decide_true]

theorem found_cons_of_not {l : Text} (ls : List Text) (h : ¬l <+: s) :
    found (l :: ls) s = found ls s := by
  simp only [found, List.find?_cons, h, decide_false]

/-- **The first literal that the text begins with** is found, whether it is the longest or not. -/
theorem literals_run (ls : List Text) (s : Text) :
    (literals ls : Parser ω ε Text).run s = pure (found ls s) := by
  induction ls with
  | nil => rfl
  | cons l ls ih =>
    rw [literals_cons, orElse_run]
    by_cases h : l <+: s
    · rw [found_cons ls h]
      obtain ⟨r, rfl⟩ := h
      rw [literal_append, pure_bind, List.drop_left]
    · rw [found_cons_of_not ls h, literal_of_not h, pure_bind, ← ih]
      exact pure_bind ..

/-- Behind a text that it begins with, a text is not found. -/
theorem found_shadowed {pre : List Text} {l m : Text} (post : List Text) (s : Text) (hm : m ∈ pre)
    (hml : m <+: l) : found (pre ++ l :: post) s = found (pre ++ post) s := by
  unfold found
  rw [List.find?_append, List.find?_append]
  by_cases hl : l <+: s
  · -- what it begins with is found at the head of the text, or something before that
    have hsome : (pre.find? fun k => decide (k <+: s)).isSome :=
      List.find?_isSome.2 ⟨m, hm, decide_eq_true (hml.trans hl)⟩
    obtain ⟨k, hk⟩ := Option.isSome_iff_exists.1 hsome
    rw [hk, Option.some_or, Option.some_or]
  · simp only [List.find?_cons, hl, decide_false]

/-- **A literal behind one that it begins with** may be dropped. -/
theorem literals_shadowed {pre : List Text} {l m : Text} (post : List Text) (hm : m ∈ pre)
    (hml : m <+: l) :
    (literals (pre ++ l :: post) : Parser ω ε Text) = literals (pre ++ post) := by
  refine Parser.ext (funext fun s => ?_)
  rw [literals_run, literals_run, found_shadowed post s hm hml]

/-! ## Both sides of precedence -/

/-- **Precedence matters only in a conflict.** Where each alternative comes to an outcome and no two
succeed, a choice comes to the same outcome in any order: that of the one that succeeds, or failure
if all of them fail. If no marks are left it is the same run. So the order of literals is free if
none begins with another, and so is that of the classes of characters; a letter or a digit is a
digit or a letter.

Among any literals, the first that the text begins with is found, and none if there is no such. A
literal behind one that it begins with may be dropped, and this is to be seen on no text. -/
theorem precedence :
    (∀ (rs rs' : List (Ref ω ε α)) s, rs.Perm rs' → Settled s rs → Exclusive s rs →
      ∃ o, (firstOf rs).ComesTo s o ∧ (firstOf rs').ComesTo s o ∧
        (o.succeeded ∧ (∃ r ∈ rs, (lazily r).ComesTo s o) ∨
          o = .failure ∧ ∀ r ∈ rs, (lazily r).ComesTo s .failure)) ∧
    (∀ (rs rs' : List (Ref ω ε α)) s, rs.Perm rs' → (∀ r ∈ rs, ∃ o, (lazily r).Gives s o) →
      Exclusive s rs → ((firstOf rs).run s).Agrees ((firstOf rs').run s)) ∧
    (∀ ls ls' : List Text, ls.Perm ls' → (∀ l ∈ ls, ∀ m ∈ ls, l <+: m → l = m) →
      (literals ls : Parser ω ε Text).Agrees (literals ls')) ∧
    (∀ rs : List (Ref ω ε Char), [.ready letter, .ready digit, .ready blank].Perm rs →
      (firstOf [.ready letter, .ready digit, .ready blank]).Agrees (firstOf rs)) ∧
    (∀ rs : List (Ref ω ε Char), [.ready letter, .ready digit].Perm rs →
      letterOrDigit.Agrees (firstOf rs)) ∧
    (∀ ls s, (literals ls : Parser ω ε Text).run s = pure (found ls s)) ∧
    ∀ (pre post : List Text) l m, m ∈ pre → m <+: l →
      (literals (pre ++ l :: post) : Parser ω ε Text) = literals (pre ++ post) := by
  refine ⟨fun rs rs' s hperm hsettled hexclusive => ?_,
    fun rs rs' s hperm hgives hexclusive => firstOf_agrees_perm hperm hgives hexclusive.oneMind,
    fun ls ls' hperm hls => literals_perm hperm hls, fun rs hperm => ?_, fun rs hperm => ?_,
    literals_run, fun pre post l m hm hml => literals_shadowed post hm hml⟩
  · obtain ⟨o, ho⟩ := hsettled.firstOf
    exact ⟨o, ho, (comesTo_firstOf_perm hperm hsettled hexclusive.oneMind).1 ho,
      (comesTo_firstOf_iff hsettled hexclusive.oneMind).1 ho⟩
  · exact firstOf_oneOf_agrees [isLetter, isDigit, isBlank] hperm
  · rw [letterOrDigit_eq]
    exact firstOf_oneOf_agrees [isLetter, isDigit] hperm

/-- Two literals on a text that begins with the second of them. In the first choice it is looked up
with a mark, and in the other it is at hand. A literal that goes on after an `a` is never found
behind an `a`. -/
theorem precedence_two :
    let one : Char → Parser Unit Unit Text := fun c => literal [c]
    let marked : List (Ref Unit Unit Text) :=
      [.ready (one 'a'), .deferred (Run.emit () >>= fun _ => pure (one 'b'))]
    let silent : List (Ref Unit Unit Text) := [.ready (one 'a'), .ready (one 'b')]
    (∃ o, (firstOf marked).ComesTo ['b'] o ∧ (firstOf marked.reverse).ComesTo ['b'] o) ∧
    ((firstOf silent).run ['b']).Agrees ((firstOf silent.reverse).run ['b']) ∧
    (literals [['a'], ['b']] : Parser Unit Unit Text).Agrees (literals [['b'], ['a']]) ∧
    (letterOrDigit : Parser Unit Unit Char).Agrees (firstOf [.ready digit, .ready letter]) ∧
    (literals [['a'], ['a', 'b']] : Parser Unit Unit Text).run ['a', 'b'] =
      pure (.success ['a'] ['b']) ∧
    (literals [['a'], ['a', 'b'], ['c']] : Parser Unit Unit Text) = literals [['a'], ['c']] := by
  intro one marked silent
  obtain ⟨houtcome, hrun, hliterals, -, hletters, hfound, hshadowed⟩ :=
    precedence (ω := Unit) (ε := Unit) (α := Text)
  have hfail : (lazily (.ready (one 'a'))).Gives ['b'] .failure := ⟨0, rfl⟩
  have hnot : ¬(lazily (.ready (one 'a'))).Succeeds ['b'] := by
    rintro ⟨a, r, h⟩
    cases h.unique hfail.comesTo
  have hexclusive (r : Ref Unit Unit Text) : Exclusive ['b'] [.ready (one 'a'), r] :=
    List.Pairwise.cons (fun r' _ h => hnot h.1) (List.pairwise_singleton _ r)
  have hsettled : Settled ['b'] marked :=
    List.forall_mem_cons.2 ⟨⟨_, hfail.comesTo⟩, List.forall_mem_singleton.2 ⟨_, [()], 0, rfl⟩⟩
  have hgives : ∀ r ∈ silent, ∃ o, (lazily r).Gives ['b'] o :=
    List.forall_mem_cons.2 ⟨⟨_, hfail⟩, List.forall_mem_singleton.2 ⟨_, 0, rfl⟩⟩
  obtain ⟨o, hmarked, hreverse, -⟩ :=
    houtcome marked _ ['b'] (List.reverse_perm _).symm hsettled (hexclusive _)
  refine ⟨⟨o, hmarked, hreverse⟩,
    hrun silent _ ['b'] (List.reverse_perm _).symm hgives (hexclusive _),
    hliterals _ _ (.swap ..) (by decide), hletters _ (.swap ..), hfound _ _, ?_⟩
  exact hshadowed [['a']] [['c']] ['a', 'b'] ['a'] List.mem_cons_self (List.prefix_append _ _)

end Descent.Parser
