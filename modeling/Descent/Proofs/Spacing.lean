import Descent.Proofs.Brackets
import Descent.Proofs.Decides
import Descent.Proofs.Lexemes

/-!
# Words with blanks about them

Lexemes of fixed words, one after the other, accept the words in order with any blanks before the
first, between any two and behind the last, and nothing else. A lexeme takes all the blanks it can
get, so the blanks between two words go to the first of them, and a word that begins with a blank is
never found.

* `Spaced ls s`: the text `s` is the words `ls` with blanks about them.
* `Token s l r`: the text `s` begins with the word `l`, as a lexeme would take it, and leaves `r`.
* `spaced_cons_iff`, `chain_token_iff`: **what lexemes take one after the other is what is spaced
  out,** though blanks change sides.
* `feed_agrees_gather`: a function that collects its arguments may as well get them all at once.
* `decides_gather_words`, `decides_many_word`: what sequences and repetitions of words decide.
* `Script.collector`: a collecting function among the values of scripts.
* `words_accept_spaced`: **the results together.**
-/

namespace Descent

/-- **Words in order, with blanks about them:** before the first, between any two and behind the
last. At each place there may be none. -/
inductive Spaced : List Text → Text → Prop
  | nil {w : Text} (hw : ∀ c ∈ w, isBlank c = true) : Spaced [] w
  | cons {w l s : Text} {ls : List Text} (hw : ∀ c ∈ w, isBlank c = true) (hs : Spaced ls s) :
      Spaced (l :: ls) (w ++ l ++ s)

/-- The text begins with the word, behind blanks, and `r` is what follows the blanks behind it. -/
def Token (s l r : Text) : Prop := ∃ s', trim s = l ++ s' ∧ r = trim s'

variable {l s r : Text} {ls : List Text}

/-! ## Blanks change sides -/

/-- Blanks in front are blanks before the first word. -/
theorem Spaced.blanks {w : Text} (hw : ∀ c ∈ w, isBlank c = true) (h : Spaced ls s) :
    Spaced ls (w ++ s) := by
  cases h with
  | nil hw' => exact .nil (List.forall_mem_append.2 ⟨hw, hw'⟩)
  | @cons w' l s ls hw' hs =>
    rw [← List.append_assoc, ← List.append_assoc]
    exact .cons (List.forall_mem_append.2 ⟨hw, hw'⟩) hs

/-- Without its leading blanks the text is spaced out all the same. Where the first words are empty,
the blanks behind them go too. -/
theorem Spaced.trim (hls : ∀ l ∈ ls, Trimmed l) (h : Spaced ls s) : Spaced ls (trim s) := by
  induction h with
  | @nil w hw =>
    refine .nil fun c hc => hw c ?_
    exact (List.dropWhile_sublist isBlank).mem hc
  | @cons w l s ls hw hs ih =>
    obtain ⟨hl, hrest⟩ := List.forall_mem_cons.1 hls
    have htail := ih hrest
    rw [List.append_assoc, trim_append hw]
    cases l with
    | nil => exact .cons (w := []) (fun c hc => (by cases hc)) htail
    | cons c l =>
      have htrimmed : Trimmed (c :: l ++ s) := by
        intro d s' e
        cases e
        exact hl c l rfl
      rw [htrimmed.trim]
      exact .cons (w := []) (fun c hc => (by cases hc)) hs

/-- **Words are spaced out when the first can be taken off** and the others are spaced out in what
is left, which begins with no blank. -/
theorem spaced_cons_iff (hls : ∀ m ∈ l :: ls, Trimmed m) :
    Spaced (l :: ls) s ↔ ∃ r, Token s l r ∧ Spaced ls r := by
  constructor
  · intro h
    have htrim := h.trim hls
    generalize hs : trim s = s' at htrim
    cases htrim with
    | @cons w _ u _ hw hu =>
      -- there are no blanks left before the first word
      have hnone : w = [] := by
        cases w with
        | nil => rfl
        | cons c w =>
          have hc : isBlank c = false := trimmed_trim s c _ hs
          rw [hw c List.mem_cons_self] at hc
          cases hc
      subst hnone
      exact ⟨trim u, ⟨u, hs, rfl⟩, hu.trim (List.forall_mem_cons.1 hls).2⟩
  · rintro ⟨_, ⟨u, hs, rfl⟩, hu⟩
    obtain ⟨w, hw, hblank, -⟩ := trim_eq_iff.1 hs
    obtain ⟨w', hw', hblank', -⟩ := trim_eq_iff.1 (rfl : Descent.trim u = Descent.trim u)
    have hrest : Spaced ls u := hw' ▸ hu.blanks hblank'
    rw [hw, ← List.append_assoc]
    exact .cons hblank hrest

theorem Token.trimmed (h : Token s l r) : Trimmed l ∧ Trimmed r := by
  obtain ⟨s', hs, rfl⟩ := h
  refine ⟨fun c l' hl => ?_, trimmed_trim s'⟩
  subst hl
  exact trimmed_trim s c _ hs

theorem Token.length_lt (h : Token s l r) (hl : l ≠ []) : r.length < s.length := by
  obtain ⟨s', hs, rfl⟩ := h
  have hlen : (trim s).length ≤ s.length := length_trim_le s
  have hrest : (trim s').length ≤ s'.length := length_trim_le s'
  have hpos : 0 < l.length := List.length_pos_iff.2 hl
  rw [hs, List.length_append] at hlen
  omega

/-- A word that is found begins with no blank. -/
theorem trimmed_of_chain (h : Parser.Chain Token s ls r) : ∀ l ∈ ls, Trimmed l := by
  induction h with
  | nil s => exact fun l hl => (by cases hl)
  | cons h _ ih => exact List.forall_mem_cons.2 ⟨h.trimmed.1, ih⟩

/-- Blanks and nothing else, without blanks in front. -/
theorem spaced_nil_iff (hs : Trimmed s) : Spaced [] s ↔ s = [] := by
  constructor
  · intro h
    cases h with
    | nil hw =>
      cases s with
      | nil => rfl
      | cons c s =>
        have hc := hs c s rfl
        rw [hw c List.mem_cons_self] at hc
        cases hc
  · rintro rfl
    exact .nil fun c hc => (by cases hc)

/-- **What is taken one after the other is what is spaced out.** The first word takes the blanks in
front; without any word there may be none. -/
theorem chain_token_iff (hls : ∀ l ∈ ls, Trimmed l) (hs : ls = [] → Trimmed s) :
    Parser.Chain Token s ls [] ↔ Spaced ls s := by
  induction ls generalizing s with
  | nil => rw [Parser.chain_nil_iff, spaced_nil_iff (hs rfl)]
  | cons l ls ih =>
    rw [Parser.chain_cons_iff, spaced_cons_iff hls]
    refine exists_congr fun r => and_congr_right fun h => ?_
    exact ih (List.forall_mem_cons.1 hls).2 fun _ => h.trimmed.2

namespace Parser

variable {ω ε α φ : Type}

/-! ## Functions that collect -/

/-- **The curried function of `n` arguments that puts them into a list,** and does nothing else. -/
def Collects (app : α → α → Run ω ε α) (n : Nat) (f : α) (list : List α → α) : Prop :=
  ∀ as : List α, as.length = n → (as.foldlM app f).Ends [] (.ok (list as))

/-- **A function that makes nothing of its arguments before it has them all** may as well be applied
when they are all there. The induction is on the parsers, with the values that have come so far. -/
theorem feed_agrees_gather {app : φ → α → Run ω ε φ} {f : φ} {F : List α → φ} {vs : List α}
    {ps : List (Parser ω ε α)} (hf : ∀ as : List α, as.length = ps.length →
      (as.foldlM app f).Ends [] (.ok (F (vs ++ as)))) :
    (feed app f ps).Agrees ((feed gather vs ps).map fun ws => pure (F ws)) := by
  induction ps generalizing f vs with
  | nil =>
    intro s
    have hnone : f = F vs := by
      have h := (Run.ends_pure.1 (hf [] rfl)).2
      rw [List.append_nil] at h
      exact (Except.ok.inj h).symm
    rw [feed_nil, feed_nil, map_pure_run, succeed_run, succeed_run, pure_bind, hnone]
    exact .refl _
  | cons p ps ih =>
    intro s
    rw [feed_cons, feed_cons, bind_run, map_run, bind_run, bind_assoc]
    refine (Run.Agrees.refl (p.run s)).bind fun o => ?_
    cases o with
    | failure => exact .of_eq (pure_bind ..).symm
    | success a rest =>
      -- one application, which can be told from those of all arguments
      have hsplit (as : List α) (has : as.length = ps.length) :
          ∃ g, (app f a).Ends [] (.ok g) ∧
            (as.foldlM app g).Ends [] (.ok (F (vs ++ [a] ++ as))) := by
        rw [List.append_assoc, List.singleton_append]
        exact ends_foldlM_cons.1 (hf (a :: as) (congrArg (· + 1) has))
      obtain ⟨g, hg, -⟩ := hsplit (List.replicate ps.length a) List.length_replicate
      have hnext : (feed app g ps).Agrees
          ((feed gather (vs ++ [a]) ps).map fun ws => pure (F ws)) := by
        refine ih fun as has => ?_
        obtain ⟨g', hg', h⟩ := hsplit as has
        have hsame : g' = g := Except.ok.inj (hg'.unique hg).2
        exact hsame ▸ h
      have happly : (app f a).Agrees (pure g) := hg.agrees_pure
      simp only [gather, bind_assoc, pure_bind]
      refine (happly.bind fun _ => .refl _).trans ?_
      rw [pure_bind]
      exact hnext rest

/-- So a sequence of parsers under a collecting function gathers their values. -/
theorem liftAs_agrees_gather {app : α → α → Run ω ε α} {f : α} {list : List α → α}
    {p : Parser ω ε α} {ps : List (Parser ω ε α)} (hf : Collects app (ps.length + 1) f list) :
    (liftAs app f p ps).Agrees ((feed gather [] (p :: ps)).map fun ws => pure (list ws)) := by
  rw [liftAs_eq_feed]
  exact feed_agrees_gather fun as has => hf as has

/-! ## Sequences and repetitions of words -/

/-- A fixed word with blanks about it. The value is what `text` makes of the word. -/
def word (text : Text → α) (l : Text) : Parser ω ε α :=
  lexeme ((literal l).map fun u => pure (text u))

variable (text : Text → α)

theorem decides_word (l s : Text) :
    (word text l : Parser ω ε α).Decides s fun a r => a = text l ∧ Token s l r := by
  refine (decides_lexeme (decides_map (decides_literal l (trim s)))).congr fun a r => ?_
  constructor
  · rintro ⟨s', ⟨u, ⟨rfl, hs⟩, rfl⟩, rfl⟩
    exact ⟨rfl, s', hs, rfl⟩
  · rintro ⟨rfl, s', hs, rfl⟩
    exact ⟨s', ⟨l, ⟨rfl, hs⟩, rfl⟩, rfl⟩

/-- **Words in turn** are taken one after the other. -/
theorem decides_gather_words (vs : List α) (ls : List Text) (s : Text) :
    (feed gather vs (ls.map (word text)) : Parser ω ε (List α)).Decides s fun ws r =>
      ws = vs ++ ls.map text ∧ Chain Token s ls r := by
  induction ls generalizing vs s with
  | nil =>
    refine (decides_succeed vs s).congr fun ws r => ?_
    rw [List.map_nil, List.append_nil, chain_nil_iff, eq_comm (a := r)]
  | cons l ls ih =>
    rw [List.map_cons, feed_cons]
    simp only [gather, pure_bind]
    refine (decides_bind (decides_word text l s) fun a s' _ => ih (vs ++ [a]) s').congr
      fun ws r => ?_
    rw [List.map_cons, chain_cons_iff]
    constructor
    · rintro ⟨_, s', ⟨rfl, h⟩, rfl, hs⟩
      exact ⟨by rw [List.append_assoc]; rfl, s', h, hs⟩
    · rintro ⟨rfl, s', h, hs⟩
      exact ⟨text l, s', ⟨rfl, h⟩, by rw [List.append_assoc]; rfl, hs⟩

/-- A chain of one word is a number of copies of it. -/
theorem chain_word_iff {l s r : Text} {us : List α} :
    Chain (fun s a r => a = text l ∧ Token s l r) s us r ↔
      ∃ n, us = List.replicate n (text l) ∧ Chain Token s (List.replicate n l) r := by
  induction us generalizing s with
  | nil =>
    rw [chain_nil_iff]
    constructor
    · rintro rfl
      exact ⟨0, rfl, .nil s⟩
    · rintro ⟨n, hn, h⟩
      obtain rfl : n = 0 := (List.replicate_eq_nil_iff _).1 hn.symm
      exact chain_nil_iff.1 h
  | cons u us ih =>
    rw [chain_cons_iff]
    simp only [ih]
    constructor
    · rintro ⟨s', ⟨rfl, h⟩, n, rfl, hs⟩
      exact ⟨n + 1, rfl, .cons h hs⟩
    · rintro ⟨n, hn, h⟩
      cases n with
      | zero => cases hn
      | succ n =>
        rw [List.replicate_succ] at hn h
        obtain ⟨rfl, rfl⟩ := List.cons.inj hn
        obtain ⟨s', h, hs⟩ := chain_cons_iff.1 h
        exact ⟨s', ⟨rfl, h⟩, n, rfl, hs⟩

/-- **One word again and again** is found as often as it can be. -/
theorem decides_many_word {l : Text} (hl : l ≠ []) (s : Text) :
    (many (word text l) : Parser ω ε (List α)).Decides s fun us r =>
      ∃ n, us = List.replicate n (text l) ∧ Chain Token s (List.replicate n l) r ∧
        ∀ r', ¬Token r l r' := by
  refine (decides_many (I := fun _ => True) (fun s _ => decides_word text l s) (fun s a r _ h =>
    ⟨trivial, h.2.length_lt hl⟩) trivial).congr fun us r => ?_
  rw [chain_word_iff]
  constructor
  · rintro ⟨⟨n, hn, hs⟩, hstop⟩
    exact ⟨n, hn, hs, fun r' h => hstop _ r' ⟨rfl, h⟩⟩
  · rintro ⟨n, hn, hs, hstop⟩
    exact ⟨⟨n, hn, hs⟩, fun a r' h => hstop r' h.2⟩

end Parser

/-! ## Telling spaced words from other texts -/

/-- **Copies of one word with blanks about them.** Of no copies there is no text but the empty one,
for the blanks go with the words. -/
def SpacedCopies (l : Text) (n : Nat) (s : Text) : Prop :=
  1 ≤ n ∧ Spaced (List.replicate n l) s ∨ n = 0 ∧ s = []

section

variable {ω ε β γ : Type} {l : Text} {ls : List Text}

/-- **The run comes to `yes` on the texts in which the words are spaced out, and to `no` on all
others.** Where a word begins with a blank it comes to `no` on all texts. There are no marks. -/
def TellsSpaced (ls : List Text) (r : Text → Run ω ε β) (yes no : β) : Prop :=
  ((∀ m ∈ ls, Trimmed m) → ∀ s, (Spaced ls s → (r s).Ends [] (.ok yes)) ∧
    (¬Spaced ls s → (r s).Ends [] (.ok no))) ∧
  ((∃ m ∈ ls, ¬Trimmed m) → ∀ s, (r s).Ends [] (.ok no))

/-- **The run tells how many copies of the word a text consists of,** and comes to `no` if it does
not consist of copies. -/
def TellsCopies (l : Text) (r : Text → Run ω ε β) (yes : Nat → β) (no : β) : Prop :=
  ∀ s, (∀ n, (r s).Ends [] (.ok (yes n)) ↔ SpacedCopies l n s) ∧
    ((∀ n, ¬SpacedCopies l n s) → (r s).Ends [] (.ok no))

theorem TellsSpaced.map {r : Text → Run ω ε β} {r' : Text → Run ω ε γ} {yes no : β} {g : β → γ}
    (h : TellsSpaced ls r yes no) (hr : ∀ s, (r' s).Agrees (r s >>= fun b => pure (g b))) :
    TellsSpaced ls r' (g yes) (g no) := by
  have hends (s : Text) (b : β) (hb : (r s).Ends [] (.ok b)) : (r' s).Ends [] (.ok (g b)) :=
    (hr s).ends_iff.2 (Run.ends_bind_pure_ok.2 ⟨b, hb, rfl⟩)
  obtain ⟨htrimmed, hblank⟩ := h
  refine ⟨fun hls s => ⟨fun hs => ?_, fun hs => ?_⟩, fun hls s => ?_⟩
  · exact hends s yes ((htrimmed hls s).1 hs)
  · exact hends s no ((htrimmed hls s).2 hs)
  · exact hends s no (hblank hls s)

theorem TellsCopies.map {r : Text → Run ω ε β} {r' : Text → Run ω ε γ} {yes : Nat → β} {no : β}
    {g : β → γ} (h : TellsCopies l r yes no) (hg : ∀ b n, g b = g (yes n) → b = yes n)
    (hr : ∀ s, (r' s).Agrees (r s >>= fun b => pure (g b))) :
    TellsCopies l r' (fun n => g (yes n)) (g no) := by
  intro s
  obtain ⟨hyes, hno⟩ := h s
  refine ⟨fun n => ?_, fun hnone => ?_⟩
  · rw [← hyes n, (hr s).ends_iff, Run.ends_bind_pure_ok]
    constructor
    · rintro ⟨b, hb, hn⟩
      exact hg b n hn.symm ▸ hb
    · intro hb
      exact ⟨yes n, hb, rfl⟩
  · exact (hr s).ends_iff.2 (Run.ends_bind_pure_ok.2 ⟨no, hno hnone, rfl⟩)

end

namespace Parser

variable {ω ε α : Type} {app : α → α → Run ω ε α} {f : α} {list : List α → α} {l : Text}
  {ls : List Text} (text : Text → α)

/-- A function on the value is one on the value of the whole text. -/
theorem unpack_map_pure {β : Type} (p : Parser ω ε α) (g : α → β) (s : Text) :
    unpack (p.map fun a => pure (g a)) s = unpack p s >>= fun x => pure (x.map g) := by
  rw [unpack, map_pure_run, unpack, bind_assoc, bind_assoc]
  refine congrArg (p.run s >>= ·) (funext fun o => ?_)
  rw [pure_bind, pure_bind]
  match o with
  | .failure => rfl
  | .success a [] => rfl
  | .success a (_ :: _) => rfl

theorem decides_words (hf : Collects app (ls.length + 1) f list) (s : Text) :
    (liftAs app f (word text l) (ls.map (word text))).Decides s fun a r =>
      a = list ((l :: ls).map text) ∧ Chain Token s (l :: ls) r := by
  have hlen : Collects app ((ls.map (word text : Text → Parser ω ε α)).length + 1) f list := by
    rw [List.length_map]
    exact hf
  refine decides_of_agrees (liftAs_agrees_gather hlen s) ?_
  refine (decides_map (decides_gather_words text [] (l :: ls) s)).congr fun a r => ?_
  constructor
  · rintro ⟨ws, ⟨rfl, hs⟩, rfl⟩
    exact ⟨rfl, hs⟩
  · rintro ⟨rfl, hs⟩
    exact ⟨_, ⟨rfl, hs⟩, rfl⟩

/-- **Words in turn accept the texts in which they are spaced out.** -/
theorem unpack_tellsSpaced (hf : Collects app (ls.length + 1) f list) :
    TellsSpaced (l :: ls) (unpack (liftAs app f (word text l) (ls.map (word text))))
      (some (list ((l :: ls).map text))) none := by
  have hwords (s : Text) := decides_words (l := l) text hf s
  refine ⟨fun hls s => ?_, ?_⟩
  · have hspaced : Chain Token s (l :: ls) [] ↔ Spaced (l :: ls) s :=
      chain_token_iff hls fun h => (by cases h)
    refine ⟨fun hs => ?_, fun hs => ?_⟩
    · exact (ends_unpack_some_iff (hwords s)).2 ⟨rfl, hspaced.2 hs⟩
    · exact ends_unpack_none (hwords s) fun a ha => hs (hspaced.1 ha.2)
  · rintro ⟨m, hm, hblank⟩ s
    exact ends_unpack_none (hwords s) fun a ha => hblank (trimmed_of_chain ha.2 m hm)

/-- **A word again and again accepts the texts in which its copies are spaced out.** -/
theorem unpack_tellsCopies (hl : l ≠ []) (htrimmed : Trimmed l) :
    TellsCopies l (unpack (many (word text l) : Parser ω ε (List α)))
      (fun n => some (List.replicate n (text l))) none := by
  intro s
  have hmany := decides_many_word (ω := ω) (ε := ε) text hl s
  -- there is no further copy at the end of the text
  have hstop (r : Text) : ¬Token [] l r := fun h => absurd (h.length_lt hl) (Nat.not_lt_zero _)
  have hcopies (n : Nat) : Chain Token s (List.replicate n l) [] ↔ SpacedCopies l n s := by
    cases n with
    | zero =>
      rw [List.replicate_zero, chain_nil_iff]
      constructor
      · exact fun h => .inr ⟨rfl, h⟩
      · rintro (⟨h, -⟩ | ⟨-, h⟩)
        · omega
        · exact h
    | succ n =>
      have hall : ∀ m ∈ List.replicate (n + 1) l, Trimmed m :=
        fun m hm => List.eq_of_mem_replicate hm ▸ htrimmed
      rw [chain_token_iff hall fun h => (by cases h)]
      constructor
      · exact fun h => .inl ⟨Nat.succ_pos n, h⟩
      · rintro (⟨-, h⟩ | ⟨h, -⟩)
        · exact h
        · omega
  refine ⟨fun n => ?_, fun hnone => ?_⟩
  · rw [ends_unpack_some_iff hmany, ← hcopies]
    constructor
    · rintro ⟨m, hm, hs, -⟩
      obtain rfl : n = m := by simpa using congrArg List.length hm
      exact hs
    · intro hs
      exact ⟨n, rfl, hs, hstop⟩
  · refine ends_unpack_none hmany ?_
    rintro us ⟨n, -, hs, -⟩
    exact hnone n ((hcopies n).1 hs)

end Parser

/-! ## A collecting function in scripts -/

namespace Script

open Descent.Parser (Collects liftAs many unpack word)

/-- A curried function of arguments with the names in the second list, which makes a list of the
values of all names. -/
def collecting (names : List String) : List String → Term
  | [] => .call (.data .list) (names.map .var)
  | x :: xs => .fn x (collecting names xs)

/-- The value of that term, for names of which the first is `x`. -/
def collector (x : String) (xs : List String) : Value := .closure [] x (collecting (x :: xs) xs)

theorem evalAll_vars (h : Calls) (globals env : Env) {names : List String} {as : List Value}
    (hnames : (names.map fun x => env.lookup x) = as.map some) :
    evalAll h globals env (names.map .var) = pure as := by
  induction names generalizing as with
  | nil =>
    obtain rfl : as = [] := List.map_eq_nil_iff.1 hnames.symm
    rfl
  | cons x names ih =>
    cases as with
    | nil => cases hnames
    | cons a as =>
      obtain ⟨hx, hrest⟩ := List.cons.inj hnames
      rw [List.map_cons, evalAll, eval, ih hrest]
      simp [hx]

theorem collecting_eq_curried (names xs : List String) :
    collecting names xs = curried xs (.call (.data .list) (names.map .var)) := by
  induction xs with
  | nil => rfl
  | cons x xs ih => rw [collecting, ih, curried]

/-- **The collecting function collects,** under any different names. -/
theorem collector_collects (globals : Env) (x : String) (xs : List String)
    (hnames : (x :: xs).Nodup) :
    Collects (calls globals).apply (xs.length + 1) (collector x xs) .list := by
  intro as has
  have h := curried_agrees globals [] (x :: xs) (.call (.data .list) ((x :: xs).map .var)) has
  rw [curried, ← collecting_eq_curried, eval, pure_bind, eval,
    evalAll_vars _ _ _ (lookup_zip_reverse [] hnames has), pure_bind] at h
  exact h.ends_iff.2 (Run.ends_pure.2 ⟨rfl, rfl⟩)

/-- The recipe for a word with blanks about it. -/
def wordRecipe (l : Text) : Recipe Value := .lexeme (.literal l)

/-- The words of a recipe in turn, under a function at hand. -/
theorem parse_words_agrees (globals : Env) (f : Value) (l : Text) (ls : List Text) :
    ((calls globals).parse (.liftAs f (wordRecipe l) (ls.map wordRecipe))).Agrees
      (liftAs (calls globals).apply f (word .text l) (ls.map (word .text))) := by
  have h := (calls globals).parse_agrees (.liftAs f (wordRecipe l) (ls.map wordRecipe))
  rw [Recipe.denote_liftAs, List.map_map] at h
  exact h

/-- **Scripts tell spaced words from other texts.** -/
theorem unpacked_tellsSpaced (globals : Env) {x : String} {xs : List String}
    (hnames : (x :: xs).Nodup) {l : Text} {ls : List Text} (hlen : xs.length = ls.length) :
    TellsSpaced (l :: ls) (fun s => (calls globals).apply (.unpacked
        (.liftAs (collector x xs) (wordRecipe l) (ls.map wordRecipe))) (.text s))
      (.list ((l :: ls).map .text)) .null := by
  have hcollects := hlen ▸ collector_collects globals x xs hnames
  refine (Parser.unpack_tellsSpaced (l := l) Value.text hcollects).map
    (g := fun x? => x?.getD .null) fun s => ?_
  refine (apply_unpacked_agrees globals _ s).trans (.bind ?_ fun _ => .refl _)
  exact (parse_words_agrees globals (collector x xs) l ls s).bind fun _ => .refl _

/-- **Scripts tell how many copies of a word there are.** -/
theorem unpacked_tellsCopies (globals : Env) {l : Text} (hl : l ≠ []) (htrimmed : Trimmed l) :
    TellsCopies l (fun s => (calls globals).apply (.unpacked (.many (wordRecipe l))) (.text s))
      (fun n => .list (List.replicate n (.text l))) .null := by
  have hcopies := Parser.unpack_tellsCopies (ω := Mark) (ε := Fault) Value.text hl htrimmed
  have hlist (x? : Option (List Value)) (n : Nat) (h : (x?.map Value.list).getD .null =
      ((some (List.replicate n (Value.text l))).map Value.list).getD .null) :
      x? = some (List.replicate n (.text l)) := by
    cases x? with
    | none => cases h
    | some us => exact congrArg some (Value.list.inj h)
  have hrun (s : Text) : ((calls globals).apply (.unpacked (.many (wordRecipe l))) (.text s)).Agrees
      (unpack (many (word .text l)) s >>= fun x? => pure ((x?.map Value.list).getD .null)) := by
    have hmany := (calls globals).parse_agrees (.many (wordRecipe l)) s
    rw [Recipe.denote_many] at hmany
    have hunpack : (unpack ((calls globals).parse (.many (wordRecipe l))) s).Agrees
        (unpack (many (word .text l)) s >>= fun x? => pure (x?.map .list)) :=
      (hmany.bind fun _ => .refl _).trans (.of_eq (Parser.unpack_map_pure ..))
    refine (apply_unpacked_agrees globals _ s).trans ?_
    refine (hunpack.bind fun _ => .refl _).trans (.of_eq ?_)
    simp only [bind_assoc, pure_bind]
  exact hcopies.map hlist hrun

end Script

namespace Parser

open Descent.Script (calls collector wordRecipe Env)

variable {ω ε α : Type} {app : α → α → Run ω ε α} {f : α} {list : List α → α}

/-- **Words in turn accept just the texts in which they are spaced out.** Lexemes of fixed words
under a function that collects their values accept a text if it consists of the words, in order,
with any blanks about them, and no other; the value is then the list of all words. Words may be
empty, and may have blanks inside and at their end. A word that begins with a blank is never found,
whatever the text. Of one word again and again, which is not empty, the value is the number of
copies that are spaced out in the text; where there are none the text has to be empty. In scripts
there is a collecting function for any different names of its arguments, and what is told is a list
of the words, or null. -/
theorem words_accept_spaced (text : Text → α) (l : Text) (ls : List Text)
    (hf : Collects app (ls.length + 1) f list) :
    TellsSpaced (l :: ls) (unpack (liftAs app f (word text l) (ls.map (word text))))
      (some (list ((l :: ls).map text))) none ∧
    (l ≠ [] → Trimmed l → TellsCopies l (unpack (many (word text l) : Parser ω ε (List α)))
      (fun n => some (List.replicate n (text l))) none) ∧
    ∀ (globals : Env) (x : String) (xs : List String), (x :: xs).Nodup → xs.length = ls.length →
      TellsSpaced (l :: ls) (fun s => (calls globals).apply (.unpacked
          (.liftAs (collector x xs) (wordRecipe l) (ls.map wordRecipe))) (.text s))
        (.list ((l :: ls).map .text)) .null ∧
      (l ≠ [] → Trimmed l →
        TellsCopies l (fun s => (calls globals).apply (.unpacked (.many (wordRecipe l))) (.text s))
          (fun n => .list (List.replicate n (.text l))) .null) :=
  ⟨unpack_tellsSpaced text hf, unpack_tellsCopies text, fun globals _ _ hnames hlen =>
    ⟨Script.unpacked_tellsSpaced globals hnames hlen, Script.unpacked_tellsCopies globals⟩⟩

/-- A word that ends in a blank, and an empty one. The first of the two takes its own blank, and the
gap before the empty word gets the rest of them. The first one alone is found twice in a text that
has no blanks but its own and a line break. -/
theorem words_accept_spaced_empty :
    let l : Text := ['a', ' ']
    let s : Text := ['\t', 'a', ' ', ' ', '\n']
    let twice : Text := ['a', ' ', 'a', ' ', '\n']
    Collects (calls []).apply 2 (collector "x" ["y"]) .list ∧ Spaced [l, []] s ∧
    (unpack (liftAs (calls []).apply (collector "x" ["y"]) (word .text l) [word .text []])
      s).Ends [] (.ok (some (.list [.text l, .text []]))) ∧
    ((calls []).apply (.unpacked (.liftAs (collector "x" ["y"]) (wordRecipe l) [wordRecipe []]))
      (.text s)).Ends [] (.ok (.list [.text l, .text []])) ∧
    SpacedCopies l 2 twice ∧
    ((calls []).apply (.unpacked (.many (wordRecipe l))) (.text twice)).Ends []
      (.ok (.list [.text l, .text l])) := by
  intro l s twice
  have hcollects : Collects (calls []).apply 2 (collector "x" ["y"]) .list :=
    Script.collector_collects [] "x" ["y"] (by decide)
  have hspaced : Spaced [l, []] s := by
    have hend : Spaced [[]] [' ', '\n'] :=
      .cons (w := [' ', '\n']) (l := []) (by simp [isBlank, blanks]) (.nil (w := []) (by simp))
    exact .cons (w := ['\t']) (l := l) (by simp [isBlank, blanks]) hend
  have hcopies : SpacedCopies l 2 twice := by
    have hlast : Spaced [l] ['a', ' ', '\n'] :=
      .cons (w := []) (l := l) (by simp) (.nil (w := ['\n']) (by simp [isBlank, blanks]))
    exact .inl ⟨by decide, .cons (w := []) (l := l) (by simp) hlast⟩
  have hl : Trimmed l := by
    intro c s' (h : ['a', ' '] = c :: s')
    cases h
    simp [isBlank, blanks]
  have htrimmed : ∀ m ∈ [l, []], Trimmed m :=
    List.forall_mem_cons.2 ⟨hl, List.forall_mem_singleton.2 fun c s' h => (by cases h)⟩
  obtain ⟨⟨haccepts, -⟩, -, hscripts⟩ := words_accept_spaced Script.Value.text l [[]] hcollects
  obtain ⟨⟨hrun, -⟩, hcounts⟩ := hscripts [] "x" ["y"] (by decide) rfl
  have htwice := (hcounts (List.cons_ne_nil _ _) hl twice).1 2
  exact ⟨hcollects, hspaced, (haccepts htrimmed s).1 hspaced, (hrun htrimmed s).1 hspaced, hcopies,
    htwice.2 hcopies⟩

end Parser

end Descent
