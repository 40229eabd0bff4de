import Descent.Proofs.Positional
import Descent.Script.Eval

/-!
# Quoted texts tell what is quoted

When a single character is asked for and another text is given, the refusal shows this text in
quotes. The way it is shown depends on which quotes stand in it, and some characters take up several;
still the text can be read back from it, so that no two texts are shown alike.

* `Shows escaped q c u`: how the character `c` is shown in the quotes `q`. `Quotes escaped s t` says
  so of a whole text, whichever characters outside ASCII are escaped.
* `quotes_iff`: a text is shown in this one way.
* `writes_hex`: the digits of an escape write the code point.
* `Shows.unescape?`: **a character is read back,** whatever stands behind it.
* `pending u`: what follows on `u` is escaped. `Guarded q w`: in `w` the quote is always escaped.
* `Legible escaped s t`: the text `s` is read back from `t`, which has no hidden characters and ends
  where its quote is closed.
* `refusals_tell_texts`: the results together.
-/

namespace Descent.Text

open Descent.Numeral (countOn countOn_cons Writes writes_digit writes_iff)

variable {escaped : Char → Bool} {q c : Char} {s t u v w ds : Text} {n : Nat}

/-! ## How texts are shown -/

/-- The character is not shown as it is: a control character of ASCII, or another character that is
to be escaped. -/
def Hidden (escaped : Char → Bool) (c : Char) : Prop :=
  c.toNat < 0x20 ∨ c.toNat = 0x7f ∨ 0x80 ≤ c.toNat ∧ escaped c = true

/-- A code point in two, four or eight hexadecimal digits, and no more of them than needed. -/
inductive Coded (n : Nat) : Text → Prop
  | two {ds : Text} (hn : n < 0x100) (hds : Writes 16 n ds) (hlen : ds.length = 2) :
      Coded n ('\\' :: 'x' :: ds)
  | four {ds : Text} (hx : 0x100 ≤ n) (hn : n < 0x10000) (hds : Writes 16 n ds)
      (hlen : ds.length = 4) : Coded n ('\\' :: 'u' :: ds)
  | eight {ds : Text} (hu : 0x10000 ≤ n) (hds : Writes 16 n ds) (hlen : ds.length = 8) :
      Coded n ('\\' :: 'U' :: ds)

/-- **How a character is shown in the quotes `q`.** -/
inductive Shows (escaped : Char → Bool) (q : Char) : Char → Text → Prop
  | backslash : Shows escaped q '\\' ['\\', '\\']
  | quote : Shows escaped q q ['\\', q]
  | newline : Shows escaped q '\n' ['\\', 'n']
  | carriageReturn : Shows escaped q '\r' ['\\', 'r']
  | tab : Shows escaped q '\t' ['\\', 't']
  | code {c : Char} {u : Text} (h : Hidden escaped c) (hc : c ∉ ['\n', '\r', '\t'])
      (hu : Coded c.toNat u) : Shows escaped q c u
  | plain {c : Char} (h : ¬Hidden escaped c) (hb : c ≠ '\\') (hq : c ≠ q) : Shows escaped q c [c]

/-- The characters of a text are shown one after the other. -/
inductive ShowsAll (escaped : Char → Bool) (q : Char) : Text → Text → Prop
  | nil : ShowsAll escaped q [] []
  | cons {c : Char} {s u t : Text} (h : Shows escaped q c u) (hs : ShowsAll escaped q s t) :
      ShowsAll escaped q (c :: s) (u ++ t)

/-- **How a text is quoted:** in single quotes, unless it has single quotes and no double ones. -/
inductive Quotes (escaped : Char → Bool) (s : Text) : Text → Prop
  | single {t : Text} (hs : '\'' ∈ s → '"' ∈ s) (h : ShowsAll escaped '\'' s t) :
      Quotes escaped s ('\'' :: (t ++ ['\'']))
  | double {t : Text} (hs : '\'' ∈ s) (hd : '"' ∉ s) (h : ShowsAll escaped '"' s t) :
      Quotes escaped s ('"' :: (t ++ ['"']))

/-- One of the two quotes. -/
def IsQuote (q : Char) : Prop := q = '\'' ∨ q = '"'

theorem Quotes.exists_showsAll (h : Quotes escaped s t) :
    ∃ q u, IsQuote q ∧ ShowsAll escaped q s u ∧ t = q :: (u ++ [q]) := by
  cases h with
  | single _ h => exact ⟨_, _, .inl rfl, h, rfl⟩
  | double _ _ h => exact ⟨_, _, .inr rfl, h, rfl⟩

/-! ## Escapes -/

theorem length_hex (w n : Nat) : (hex w n).length = w := by
  induction w generalizing n with
  | zero => rfl
  | succ w ih => rw [hex, List.length_append, ih, List.length_singleton]

/-- **Enough digits write the number.** -/
theorem writes_hex {w n : Nat} (h : n < Nat.pow 16 (w + 1)) : Writes 16 n (hex (w + 1) n) := by
  induction w generalizing n with
  | zero =>
    have hn : n % 16 = n := Nat.mod_eq_of_lt h
    change Writes 16 n [(n % 16).digitChar]
    rw [hn]
    exact writes_digit h
  | succ w ih =>
    have hrest : n / 16 < Nat.pow 16 (w + 1) := Nat.div_lt_of_lt_mul (Nat.mul_comm .. ▸ h)
    have hconcat := (ih hrest).concat (by decide) (Nat.mod_lt n (by decide))
    rwa [Nat.div_add_mod] at hconcat

theorem toNat_lt (c : Char) : c.toNat < 0x110000 := by
  rcases c.valid with h | ⟨-, h⟩
  · exact Nat.lt_trans h (by decide)
  · exact h

/-- **The digits of an escape write the code point,** and there is no other such escape. -/
theorem coded_iff : Coded c.toNat u ↔ u = escapeCode c.toNat := by
  have hcode : c.toNat < Nat.pow 16 8 := Nat.lt_trans (toNat_lt c) (by decide)
  unfold escapeCode
  constructor
  · intro h
    cases h with
    | two hn hds hlen =>
      rw [if_pos hn, hds.eq_of_length (writes_hex (w := 1) hn) (by rw [hlen, length_hex])]
    | four hx hn hds hlen =>
      rw [if_neg (Nat.not_lt.2 hx), if_pos hn,
        hds.eq_of_length (writes_hex (w := 3) hn) (by rw [hlen, length_hex])]
    | eight hu hds hlen =>
      have hx : ¬c.toNat < 0x100 := by omega
      rw [if_neg hx, if_neg (Nat.not_lt.2 hu),
        hds.eq_of_length (writes_hex hcode) (by rw [hlen, length_hex])]
  · rintro rfl
    by_cases hx : c.toNat < 0x100
    · rw [if_pos hx]
      exact .two hx (writes_hex hx) (length_hex ..)
    · by_cases hu : c.toNat < 0x10000
      · rw [if_neg hx, if_pos hu]
        exact .four (Nat.not_lt.1 hx) hu (writes_hex hu) (length_hex ..)
      · rw [if_neg hx, if_neg hu]
        exact .eight (Nat.not_lt.1 hu) (writes_hex hcode) (length_hex ..)

theorem IsQuote.not_hidden (h : IsQuote q) : ¬Hidden escaped q := by
  rcases h with rfl | rfl <;> simp [Hidden]

theorem IsQuote.ne_backslash (h : IsQuote q) : q ≠ '\\' := by
  rcases h with rfl | rfl <;> decide

theorem escape_quote (h : c = '\\' ∨ c = q) : escape escaped q c = ['\\', c] := by
  rw [escape, if_pos (by simpa using h)]

theorem escape_hidden (hc : Hidden escaped c) (hno : c ∉ ['\n', '\r', '\t']) (hb : c ≠ '\\')
    (hq : c ≠ q) : escape escaped q c = escapeCode c.toNat := by
  simp only [List.mem_cons, List.not_mem_nil, or_false, not_or] at hno
  rw [escape, if_neg (by simp [hb, hq]), if_neg hno.1, if_neg hno.2.1, if_neg hno.2.2,
    if_pos (by simpa [Hidden, or_assoc] using hc)]

theorem escape_plain (hc : ¬Hidden escaped c) (hb : c ≠ '\\') (hq : c ≠ q) :
    escape escaped q c = [c] := by
  have hno (x : Char) (hx : x.toNat < 0x20) : c ≠ x := fun h => hc (.inl (h ▸ hx))
  rw [escape, if_neg (by simp [hb, hq]), if_neg (hno '\n' (by decide)),
    if_neg (hno '\r' (by decide)), if_neg (hno '\t' (by decide)),
    if_neg (by simpa [Hidden, or_assoc] using hc)]

/-- What is written for a character is one of the ways to show it, and so there is always one. -/
theorem shows_escape (hq : IsQuote q) (c : Char) : Shows escaped q c (escape escaped q c) := by
  by_cases hb : c = '\\'
  · rw [escape_quote (.inl hb), hb]
    exact .backslash
  by_cases hquote : c = q
  · rw [escape_quote (.inr hquote), hquote]
    exact .quote
  by_cases hc : Hidden escaped c
  · by_cases hno : c ∈ ['\n', '\r', '\t']
    · simp only [List.mem_cons, List.not_mem_nil, or_false] at hno
      rcases hno with rfl | rfl | rfl
      · rcases hq with rfl | rfl <;> exact .newline
      · rcases hq with rfl | rfl <;> exact .carriageReturn
      · rcases hq with rfl | rfl <;> exact .tab
    · rw [escape_hidden hc hno hb hquote]
      exact .code hc hno (coded_iff.2 rfl)
  · rw [escape_plain hc hb hquote]
    exact .plain hc hb hquote

/-- **A character is shown in one way.** -/
theorem shows_iff (hq : IsQuote q) : Shows escaped q c u ↔ u = escape escaped q c := by
  constructor
  · intro h
    cases h with
    | backslash => exact (escape_quote (.inl rfl)).symm
    | quote => exact (escape_quote (.inr rfl)).symm
    | newline | carriageReturn | tab => rcases hq with rfl | rfl <;> rfl
    | code h hno hu =>
      have hb : c ≠ '\\' := by
        rintro rfl
        simp [Hidden] at h
      have hquote : c ≠ q := fun heq => hq.not_hidden (heq ▸ h)
      rw [escape_hidden h hno hb hquote, coded_iff.1 hu]
    | plain h hb hquote => rw [escape_plain h hb hquote]
  · rintro rfl
    exact shows_escape hq c

/-! ## Reading back -/

theorem hexVal?_digitChar : ∀ d < 16, hexVal? (Nat.digitChar d) = some d := by decide

/-- **The digits are read back** as the code point that they write. -/
theorem ofHex?_of_writes (h : Writes 16 c.toNat ds) : ofHex? ds = some c := by
  obtain ⟨es, -, hes, rfl, hcount⟩ := (writes_iff (by decide)).1 h
  have hfold (n : Nat) : (es.map Nat.digitChar).foldlM
      (fun n d => do return 16 * n + (← hexVal? d)) n = some (countOn 16 n es) := by
    clear h hcount
    induction es generalizing n with
    | nil => rfl
    | cons e es ih =>
      obtain ⟨he, hrest⟩ := List.forall_mem_cons.1 hes
      rw [List.map_cons, List.foldlM_cons, hexVal?_digitChar e he, countOn_cons]
      exact ih hrest (16 * n + e)
  rw [ofHex?, hfold, hcount]
  have hvalid : c.toNat.isValidChar := c.valid
  simp [hvalid]

/-- A character that is no backslash stands for itself, or is the closing quote. -/
theorem unescape?_cons (hc : c ≠ '\\') : unescape? q (c :: t) =
    if c = q then (if t = [] then some [] else none)
    else do return c :: (← unescape? q t) := by
  rw [unescape?]
  all_goals
    intros
    exact absurd ‹_› hc

/-- The letter of an escape says how many digits there are. -/
theorem unescape?_escapeCode (h : unescape? q t = some s) :
    unescape? q (escapeCode c.toNat ++ t) = some (c :: s) := by
  have hread {w : Nat} (hc : c.toNat < Nat.pow 16 (w + 1)) :
      (do return (← ofHex? (hex (w + 1) c.toNat)) :: (← unescape? q t)) = some (c :: s) := by
    rw [ofHex?_of_writes (writes_hex hc), h]
    rfl
  have hcode : c.toNat < Nat.pow 16 8 := Nat.lt_trans (toNat_lt c) (by decide)
  unfold escapeCode
  split
  case isTrue hx =>
    change unescape? q ('\\' :: 'x' :: _ :: _ :: t) = _
    rw [unescape?]
    exact hread (w := 1) hx
  case isFalse =>
    split
    case isTrue hu =>
      change unescape? q ('\\' :: 'u' :: _ :: _ :: _ :: _ :: t) = _
      rw [unescape?]
      exact hread (w := 3) hu
    case isFalse =>
      change unescape? q ('\\' :: 'U' :: _ :: _ :: _ :: _ :: _ :: _ :: _ :: _ :: t) = _
      rw [unescape?]
      exact hread hcode

/-- **A character is read back,** whatever follows. -/
theorem Shows.unescape? (hq : IsQuote q) (hc : Shows escaped q c u)
    (h : unescape? q t = some s) : unescape? q (u ++ t) = some (c :: s) := by
  cases hc with
  | backslash | newline | carriageReturn | tab =>
    rw [List.cons_append, List.cons_append, List.nil_append, Text.unescape?, h]
    rfl
  | quote =>
    rcases hq with rfl | rfl
    all_goals
      rw [List.cons_append, List.cons_append, List.nil_append, Text.unescape?, h]
      rfl
  | code _ _ hu =>
    rw [coded_iff.1 hu]
    exact unescape?_escapeCode h
  | plain _ hb hquote =>
    rw [List.singleton_append, unescape?_cons hb, if_neg hquote, h]
    rfl

theorem ShowsAll.unescape? (hq : IsQuote q) (h : ShowsAll escaped q s u) :
    unescape? q (u ++ [q]) = some s := by
  induction h with
  | nil => rw [List.nil_append, unescape?_cons hq.ne_backslash, if_pos rfl, if_pos rfl]
  | cons hc _ ih =>
    rw [List.append_assoc]
    exact hc.unescape? hq ih

/-- **The text is read back.** -/
theorem Quotes.unquote? (h : Quotes escaped s t) : unquote? t = some s := by
  obtain ⟨q, u, hq, hs, rfl⟩ := h.exists_showsAll
  have htest : (q = '\'' || q = '"') = true := by simpa [IsQuote] using hq
  rw [Text.unquote?, if_pos htest]
  exact hs.unescape? hq

/-! ## The closing quote -/

/-- What follows on `u` is escaped: there is a backslash before it that is not escaped itself. -/
def pending (u : Text) : Bool := u.foldl (fun b c => !b && c == '\\') false

theorem pending_plain (hc : c ≠ '\\') : pending (c :: u) = pending u := by
  have hstart : (!false && c == '\\') = false := by simpa using hc
  rw [pending, List.foldl_cons, hstart, pending]

theorem pending_escape : pending ('\\' :: c :: u) = pending u := rfl

/-- **Each quote is escaped,** and so are backslashes unless they escape what follows. -/
inductive Guarded (q : Char) : Text → Prop
  | nil : Guarded q []
  | plain {c : Char} {w : Text} (hb : c ≠ '\\') (hq : c ≠ q) (h : Guarded q w) : Guarded q (c :: w)
  | escape (c : Char) {w : Text} (h : Guarded q w) : Guarded q ('\\' :: c :: w)

theorem Guarded.append (hu : Guarded q u) (hv : Guarded q v) : Guarded q (u ++ v) := by
  induction hu with
  | nil => exact hv
  | plain hb hq _ ih => exact .plain hb hq ih
  | escape c _ ih => exact .escape c ih

theorem guarded_of_forall (h : ∀ c ∈ w, c ≠ '\\' ∧ c ≠ q) : Guarded q w := by
  induction w with
  | nil => exact .nil
  | cons c w ih =>
    obtain ⟨⟨hb, hq⟩, hw⟩ := List.forall_mem_cons.1 h
    exact .plain hb hq (ih hw)

/-- **The first quote that is not escaped is the last character.** -/
theorem Guarded.closes (h : Guarded q w) (hq : q ≠ '\\') (hw : w ++ [q] = u ++ q :: v) :
    pending u = false ↔ v = [] := by
  induction h generalizing u with
  | nil =>
    cases u with
    | nil => exact iff_of_true rfl (List.cons.inj hw).2.symm
    | cons c u => exact absurd (List.cons.inj hw).2.symm (by simp)
  | plain hb hplain _ ih =>
    cases u with
    | nil => exact absurd (List.cons.inj hw).1 hplain
    | cons c u =>
      obtain ⟨rfl, hrest⟩ := List.cons.inj hw
      rw [pending_plain hb]
      exact ih hrest
  | escape c _ ih =>
    match u with
    | [] => exact absurd (List.cons.inj hw).1.symm hq
    | [b] =>
      -- the quote is the escaped character, so the text goes on
      simp only [List.cons_append, List.nil_append, List.cons.injEq] at hw
      obtain ⟨rfl, -, hv⟩ := hw
      exact iff_of_false (by decide) (by simp [← hv])
    | b :: c' :: u =>
      simp only [List.cons_append, List.cons.injEq] at hw
      obtain ⟨rfl, rfl, hrest⟩ := hw
      rw [pending_escape]
      exact ih hrest

theorem Coded.exists_digits (h : Coded n u) :
    ∃ x ds, x ∈ ['x', 'u', 'U'] ∧ Writes 16 n ds ∧ u = '\\' :: x :: ds := by
  cases h with
  | two _ hds _ => exact ⟨_, _, by decide, hds, rfl⟩
  | four _ _ hds _ => exact ⟨_, _, by decide, hds, rfl⟩
  | eight _ hds _ => exact ⟨_, _, by decide, hds, rfl⟩

theorem Shows.guarded (hq : IsQuote q) (h : Shows escaped q c u) : Guarded q u := by
  cases h with
  | backslash | quote | newline | carriageReturn | tab => exact .escape _ .nil
  | code _ _ hu =>
    obtain ⟨x, ds, -, hds, rfl⟩ := hu.exists_digits
    refine .escape x (guarded_of_forall (hds.forall_mem (by decide) ?_))
    rcases hq with rfl | rfl <;> decide
  | plain _ hb hquote => exact .plain hb hquote .nil

theorem ShowsAll.guarded (hq : IsQuote q) (h : ShowsAll escaped q s u) : Guarded q u := by
  induction h with
  | nil => exact .nil
  | cons hc _ ih => exact (hc.guarded hq).append ih

/-! ## Hidden characters -/

theorem not_hidden (h : 0x20 ≤ c.toNat ∧ c.toNat < 0x7f) : ¬Hidden escaped c := by
  rintro (hc | hc | ⟨hc, -⟩) <;> omega

/-- Nothing hidden is written for a character, be it hidden or not. -/
theorem Shows.visible (hq : IsQuote q) (h : Shows escaped q c u) : ∀ x ∈ u, ¬Hidden escaped x := by
  have hbackslash : ¬Hidden escaped '\\' := not_hidden (by decide)
  cases h with
  | backslash => simpa using hbackslash
  | quote => simpa using ⟨hbackslash, hq.not_hidden⟩
  | newline => simpa using ⟨hbackslash, not_hidden (c := 'n') (by decide)⟩
  | carriageReturn => simpa using ⟨hbackslash, not_hidden (c := 'r') (by decide)⟩
  | tab => simpa using ⟨hbackslash, not_hidden (c := 't') (by decide)⟩
  | code _ _ hu =>
    obtain ⟨x, ds, hx, hds, rfl⟩ := hu.exists_digits
    have hletter : 0x20 ≤ x.toNat ∧ x.toNat < 0x7f := by
      simp only [List.mem_cons, List.not_mem_nil, or_false] at hx
      rcases hx with rfl | rfl | rfl <;> decide
    have hdigits : ∀ d < 16, 0x20 ≤ (Nat.digitChar d).toNat ∧ (Nat.digitChar d).toNat < 0x7f := by
      decide
    refine List.forall_mem_cons.2 ⟨hbackslash, List.forall_mem_cons.2 ⟨not_hidden hletter, ?_⟩⟩
    exact hds.forall_mem (by decide) fun d hd => not_hidden (hdigits d hd)
  | plain h _ _ => simpa using h

theorem ShowsAll.visible (hq : IsQuote q) (h : ShowsAll escaped q s u) :
    ∀ x ∈ u, ¬Hidden escaped x := by
  induction h with
  | nil => exact List.forall_mem_nil _
  | cons hc _ ih => exact List.forall_mem_append.2 ⟨hc.visible hq, ih⟩

/-! ## Quoted texts -/

theorem showsAll_iff (hq : IsQuote q) :
    ShowsAll escaped q s u ↔ u = s.flatMap (escape escaped q) := by
  constructor
  · intro h
    induction h with
    | nil => rfl
    | cons hc _ ih => rw [(shows_iff hq).1 hc, ih, List.flatMap_cons]
  · rintro rfl
    induction s with
    | nil => exact .nil
    | cons c s ih => exact .cons (shows_escape hq c) ih

theorem quoteFor_single (h : '\'' ∈ s → '"' ∈ s) : quoteFor s = '\'' :=
  if_neg (by simpa using h)

theorem quoteFor_double (hs : '\'' ∈ s) (hd : '"' ∉ s) : quoteFor s = '"' :=
  if_pos (by simp [hs, hd])

/-- **A text is quoted in one way.** -/
theorem quotes_iff : Quotes escaped s t ↔ t = quotedWith escaped s := by
  unfold quotedWith
  constructor
  · intro h
    cases h with
    | single hs h => rw [quoteFor_single hs, (showsAll_iff (.inl rfl)).1 h]
    | double hs hd h => rw [quoteFor_double hs hd, (showsAll_iff (.inr rfl)).1 h]
  · rintro rfl
    by_cases h : '\'' ∈ s ∧ '"' ∉ s
    · rw [quoteFor_double h.1 h.2]
      exact .double h.1 h.2 ((showsAll_iff (.inr rfl)).2 rfl)
    · have hs : '\'' ∈ s → '"' ∈ s := by simpa using h
      rw [quoteFor_single hs]
      exact .single hs ((showsAll_iff (.inl rfl)).2 rfl)

/-- **The text can be read back from the way it is shown.** Nothing in this is hidden, and it ends
with the first quote, behind the opening one, that is not escaped. -/
structure Legible (escaped : Char → Bool) (s t : Text) : Prop where
  reads : unquote? t = some s
  visible : ∀ c ∈ t, ¬Hidden escaped c
  closes : ∃ q w, IsQuote q ∧ t = q :: (w ++ [q]) ∧
    ∀ u v, w ++ [q] = u ++ q :: v → (pending u = false ↔ v = [])

theorem Quotes.legible (h : Quotes escaped s t) : Legible escaped s t := by
  have hreads := h.unquote?
  obtain ⟨q, w, hq, hw, rfl⟩ := h.exists_showsAll
  have hquote : ∀ c ∈ [q], ¬Hidden escaped c := List.forall_mem_singleton.2 hq.not_hidden
  have hvisible : ∀ c ∈ q :: (w ++ [q]), ¬Hidden escaped c :=
    List.forall_mem_cons.2 ⟨hq.not_hidden, List.forall_mem_append.2 ⟨hw.visible hq, hquote⟩⟩
  exact ⟨hreads, hvisible, q, w, hq, rfl, fun u v => (hw.guarded hq).closes hq.ne_backslash⟩

/-- Different texts are not quoted alike. -/
theorem quotedWith_inj {s' : Text} : quotedWith escaped s = quotedWith escaped s' ↔ s = s' := by
  constructor
  · intro h
    have hs := (quotes_iff (s := s).2 rfl : Quotes escaped s _).unquote?
    have hs' := (quotes_iff (s := s').2 rfl : Quotes escaped s' _).unquote?
    rw [h, hs'] at hs
    exact (Option.some.inj hs).symm
  · exact congrArg _

end Descent.Text

namespace Descent

open Descent.Script (Calls Env Fault eval)
open Descent.Text

/-! ## Refusals -/

/-- **The message tells the refusal,** and so the text that is refused. -/
theorem BuildError.message_inj {e e' : BuildError} : e.message = e'.message ↔ e = e' := by
  constructor
  · intro h
    cases e with
    | notOneChar s =>
      cases e' with
      | notOneChar s' => exact congrArg _ (quotedWith_inj.1 (List.append_cancel_left h))
      | tooFewChoices => exact absurd (List.cons.inj h).1 (by decide)
    | tooFewChoices =>
      cases e' with
      | notOneChar s' => exact absurd (List.cons.inj h).1 (by decide)
      | tooFewChoices => rfl
  · exact congrArg _

/-- The maker of a single character refuses all texts but those of one character. -/
theorem Script.make_char_eq_error_iff {s : Text} {f : Fault} :
    Maker.char.make [.text s] = .error f ↔ s.length ≠ 1 ∧ f = .build (.notOneChar s) := by
  have hmake : Maker.char.make [.text s] = do return .parser (← refused (Recipe.ofChar? s)) := rfl
  have hrefused {e : BuildError} := Recipe.ofChar?_eq_error_iff (κ := Value) (s := s) (e := e)
  rw [hmake]
  constructor
  · intro h
    cases hr : (Recipe.ofChar? s : Except BuildError (Recipe Value)) with
    | ok p =>
      rw [hr] at h
      cases h
    | error e =>
      obtain ⟨hs, rfl⟩ := hrefused.1 hr
      rw [hr] at h
      cases h
      exact ⟨hs, rfl⟩
  · rintro ⟨hs, rfl⟩
    rw [hrefused.2 ⟨hs, rfl⟩]
    rfl

/-- **A single character is refused unless the text is one,** whatever the script is run with. -/
theorem Script.eval_char_error_iff (h : Calls) (globals env : Env) {s : Text} {m : List Mark}
    {f : Fault} : (eval h globals env (.call (.make .char) [.text s])).Ends m (.error f) ↔
      m = [] ∧ s.length ≠ 1 ∧ f = .build (.notOneChar s) := by
  have heval : eval h globals env (.call (.make .char) [.text s]) =
      Run.ofExcept (Maker.char.make [.text s]) := by
    rw [eval_call_one, eval, pure_bind]
    rfl
  rw [heval, Run.ends_ofExcept, eq_comm (a := Except.error f), make_char_eq_error_iff]

/-- **Refusals tell texts.** A single character is refused exactly when the text has not one
character, and the message goes on with the text in quotes. Whichever characters outside ASCII are
escaped, there is one way to quote a text, and the text can be read back from it: no character is
hidden, and after the opening quote the first that is not escaped is the last character. So different
texts are not quoted alike, and different refusals have different messages. -/
theorem refusals_tell_texts :
    (∀ (h : Calls) (globals env : Env) s m f,
      (eval h globals env (.call (.make .char) [.text s])).Ends m (.error f) ↔
        m = [] ∧ s.length ≠ 1 ∧ f = .build (.notOneChar s)) ∧
    (∀ s t, (BuildError.notOneChar s).message =
      "char: expected a single character, got ".toList ++ t ↔ Quotes isEscaped s t) ∧
    (∀ escaped s t, Quotes escaped s t ↔ t = quotedWith escaped s) ∧
    (∀ escaped s t, Quotes escaped s t → Legible escaped s t) ∧
    (∀ escaped s s', quotedWith escaped s = quotedWith escaped s' ↔ s = s') ∧
    ∀ e e' : BuildError, e.message = e'.message ↔ e = e' := by
  refine ⟨fun h globals env s m f => Script.eval_char_error_iff h globals env, fun s t => ?_,
    fun escaped s t => quotes_iff, fun escaped s t => Quotes.legible,
    fun escaped s s' => quotedWith_inj, fun e e' => BuildError.message_inj⟩
  rw [quotes_iff, eq_comm (a := t)]
  exact List.append_right_inj _

/-- A text with a single quote, a backslash, a line break, a character that is not shown, and a digit
behind this one. The double quotes let the single one stand. -/
theorem refusals_tell_texts_escapes :
    let s : Text := ['\'', '\\', '\n', '\u200b', '0']
    let t : Text := ['"', '\'', '\\', '\\', '\\', 'n', '\\', 'u', '2', '0', '0', 'b', '0', '"']
    (∀ (h : Calls) (globals env : Env),
      (eval h globals env (.call (.make .char) [.text s])).Ends [] (.error (.build (.notOneChar s)))) ∧
    (BuildError.notOneChar s).message = "char: expected a single character, got ".toList ++ t ∧
    Legible isEscaped s t := by
  intro s t
  obtain ⟨hrefused, hmessage, hquotes, hlegible, -⟩ := refusals_tell_texts
  have ht : Quotes isEscaped s t := (hquotes isEscaped s t).2 (by decide +kernel)
  exact ⟨fun h globals env => (hrefused h globals env s _ _).2 ⟨rfl, by decide, rfl⟩,
    (hmessage s t).2 ht, hlegible isEscaped s t ht⟩

end Descent
