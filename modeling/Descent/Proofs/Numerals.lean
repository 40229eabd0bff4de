import Descent.Grammars.Numeral
import Descent.Proofs.Decides
import Descent.Proofs.Naturality
import Descent.Proofs.Positional
import Descent.Proofs.Spacing

/-!
# Numbers are read from their numerals

One or more digits are read as the number that they write in base ten, whatever zeros stand in
front. Every number is read from its numeral, and the numeral is the only text without a leading
zero that it is read from.

* `isDigit_iff`: the digits are the ten characters of base ten, and no digits of other scripts.
* `Converts conv`: a conversion that knows the ten digits. It may raise an error for other
  characters, or know digits of other scripts. `convert` is one that does both.
* `digitBy_eq`: **a conversion is called on digits only,** so it makes no difference what it does
  with other characters.
* `writes_decimal_iff`: the texts that write a number in base ten.
* `number_decides`: **the number of the digits up to the first other character** is read.
* `TellsNumbers r answer`: the answers on whole texts.
* `Script.decimal`: the number in scripts, with a fold over the list of digits.
* `numerals_are_read`: the results together.
-/

namespace Descent.Numeral

open Descent.Parser (decides_map decides_many1 decides_oneOf decides_span many1)

variable {ω ε β : Type}

/-! ## Digits -/

theorem digitVal_digitChar {d : Nat} (hd : d < 10) : digitVal d.digitChar = d := by
  have hval := Nat.toNat_digitChar_of_lt_ten hd
  have hzero : '0'.toNat = 48 := rfl
  rw [digitVal, hval, hzero]
  omega

theorem isDigit_iff_range {c : Char} : isDigit c = true ↔ 48 ≤ c.toNat ∧ c.toNat ≤ 57 := by
  rw [isDigit, Bool.and_eq_true, decide_eq_true_eq, decide_eq_true_eq]
  exact .rfl

/-- **The digits are the ten characters of base ten.** -/
theorem isDigit_iff {c : Char} : isDigit c = true ↔ ∃ d < 10, c = Nat.digitChar d := by
  rw [isDigit_iff_range]
  constructor
  · intro hc
    refine ⟨c.toNat - 48, by omega, ?_⟩
    have hval := Nat.toNat_digitChar_of_lt_ten (n := c.toNat - 48) (by omega)
    exact Char.toNat_inj.1 (by omega)
  · rintro ⟨d, hd, rfl⟩
    rw [Nat.toNat_digitChar_of_lt_ten hd]
    omega

theorem isDigit_digitChar {d : Nat} (hd : d < 10) : isDigit d.digitChar = true :=
  isDigit_iff.2 ⟨d, hd, rfl⟩

/-- The values of digits, and the digits of values. -/
theorem map_digitVal_digitChar {ds : List Nat} (hds : ∀ d ∈ ds, d < 10) :
    (ds.map Nat.digitChar).map digitVal = ds := by
  rw [List.map_map]
  exact (List.map_congr_left fun d hd => digitVal_digitChar (hds d hd)).trans (List.map_id ds)

theorem digitVal_lt {c : Char} (hc : isDigit c = true) : digitVal c < 10 := by
  obtain ⟨d, hd, rfl⟩ := isDigit_iff.1 hc
  rwa [digitVal_digitChar hd]

theorem digitChar_digitVal {c : Char} (hc : isDigit c = true) : (digitVal c).digitChar = c := by
  obtain ⟨d, hd, rfl⟩ := isDigit_iff.1 hc
  rw [digitVal_digitChar hd]

theorem map_digitChar_digitVal {s : Text} (hs : ∀ c ∈ s, isDigit c = true) :
    (s.map digitVal).map Nat.digitChar = s := by
  rw [List.map_map]
  exact (List.map_congr_left fun c hc => digitChar_digitVal (hs c hc)).trans (List.map_id s)

/-! ## Conversions -/

/-- **The conversion knows the digits.** Nothing is said of other characters. -/
def Converts (conv : Char → Run ω ε Nat) : Prop := ∀ d < 10, conv (Nat.digitChar d) = pure d

/-- A conversion that raises the error `e` for all that is no decimal digit. The digits of a script
follow its zero in order, and `zeros` are the zeros of other scripts. -/
def convert (zeros : List Char) (e : ε) (c : Char) : Run ω ε Nat :=
  match ('0' :: zeros).find? fun z => z.toNat ≤ c.toNat && c.toNat < z.toNat + 10 with
  | some z => pure (c.toNat - z.toNat)
  | none => Run.raise e

theorem convert_converts (zeros : List Char) (e : ε) :
    Converts (convert zeros e : Char → Run ω ε Nat) := by
  intro d hd
  have hval := Nat.toNat_digitChar_of_lt_ten hd
  have hzero : '0'.toNat = 48 := rfl
  have hfirst : ('0' :: zeros).find? (fun z =>
      z.toNat ≤ d.digitChar.toNat && d.digitChar.toNat < z.toNat + 10) = some '0' := by
    refine List.find?_cons_of_pos ?_
    simp only [hval, hzero, Bool.and_eq_true, decide_eq_true_eq]
    omega
  rw [convert, hfirst, hval]
  exact congrArg pure (Nat.add_sub_cancel_left 48 d)

/-- A digit under a conversion. -/
def digitBy (conv : Char → Run ω ε Nat) : Parser ω ε Nat := Parser.digit.map conv

/-- One or more digits under a conversion, as a number. -/
def numberBy (conv : Char → Run ω ε Nat) : Parser ω ε Nat :=
  (many1 (digitBy conv)).map fun ds => pure (value ds)

/-- **A conversion is called on digits only.** Two that do the same with these are exchangeable. -/
theorem digitBy_congr {conv conv' : Char → Run ω ε Nat}
    (h : ∀ c, isDigit c = true → conv c = conv' c) : digitBy conv = digitBy conv' := by
  refine Parser.ext (funext fun s => ?_)
  rw [digitBy, digitBy, Parser.map_run, Parser.map_run, Parser.digit]
  cases s with
  | nil => rfl
  | cons c s =>
    rw [Parser.oneOf_cons, pure_bind, pure_bind]
    by_cases hc : isDigit c
    · simp only [if_pos hc, h c hc]
    · rw [if_neg hc]

theorem converts_digitVal : Converts (fun c => pure (digitVal c) : Char → Run ω ε Nat) :=
  fun _ hd => congrArg pure (digitVal_digitChar hd)

theorem digitBy_eq {conv : Char → Run ω ε Nat} (h : Converts conv) :
    digitBy conv = Parser.digitValue := by
  refine digitBy_congr fun c hc => ?_
  obtain ⟨d, hd, rfl⟩ := isDigit_iff.1 hc
  exact (h d hd).trans (converts_digitVal d hd).symm

theorem numberBy_eq {conv : Char → Run ω ε Nat} (h : Converts conv) : numberBy conv = number := by
  rw [numberBy, digitBy_eq h, number]

/-! ## Numbers -/

/-- **The texts that write a number in base ten** are those of digits, one or more. -/
theorem writes_decimal_iff {n : Nat} {s : Text} : Writes 10 n s ↔
    s ≠ [] ∧ (∀ c ∈ s, isDigit c = true) ∧ n = value (s.map digitVal) := by
  rw [writes_iff (by decide)]
  constructor
  · rintro ⟨ds, hne, hds, rfl, rfl⟩
    have hdigits : ∀ c ∈ ds.map Nat.digitChar, isDigit c = true :=
      List.forall_mem_map.2 fun d hd => isDigit_digitChar (hds d hd)
    exact ⟨fun h => hne (List.map_eq_nil_iff.1 h), hdigits,
      congrArg value (map_digitVal_digitChar hds).symm⟩
  · rintro ⟨hne, hs, rfl⟩
    have hvalues : ∀ d ∈ s.map digitVal, d < 10 :=
      List.forall_mem_map.2 fun c hc => digitVal_lt (hs c hc)
    exact ⟨s.map digitVal, fun h => hne (List.map_eq_nil_iff.1 h), hvalues,
      (map_digitChar_digitVal hs).symm, rfl⟩

/-- The texts that write no number are the empty one and those with other characters. -/
theorem not_writes_iff {s : Text} :
    (∀ n, ¬Writes 10 n s) ↔ s = [] ∨ ∃ c ∈ s, isDigit c = false := by
  simp only [writes_decimal_iff]
  constructor
  · intro h
    by_cases hne : s = []
    · exact .inl hne
    · by_cases hs : ∀ c ∈ s, isDigit c = true
      · exact absurd ⟨hne, hs, rfl⟩ (h (value (s.map digitVal)))
      · exact .inr (by simpa using hs)
  · rintro (rfl | ⟨c, hc, hno⟩) n ⟨hne, hs, -⟩
    · exact hne rfl
    · rw [hs c hc] at hno
      cases hno

theorem digitValue_decides (s : Text) : (Parser.digitValue : Parser ω ε Nat).Decides s fun n r =>
    n < 10 ∧ s = Nat.digitChar n :: r := by
  refine (decides_map (decides_oneOf isDigit s)).congr fun n r => ?_
  constructor
  · rintro ⟨c, ⟨hs, hc⟩, rfl⟩
    exact ⟨digitVal_lt hc, by rw [digitChar_digitVal hc, hs]⟩
  · rintro ⟨hn, hs⟩
    exact ⟨_, ⟨hs, isDigit_digitChar hn⟩, (digitVal_digitChar hn).symm⟩

/-- **The digits up to the first other character are read,** as the number that they write. -/
theorem number_decides (s : Text) : (number : Parser ω ε Nat).Decides s fun n r =>
    ∃ ds, Span isDigit s ds r ∧ Writes 10 n ds := by
  have hdigits : (Parser.many1 Parser.digitValue : Parser ω ε (List Nat)) =
      (many1 Parser.digit).map fun cs => pure (cs.map digitVal) := Parser.many1_map_pure ..
  rw [number, hdigits, Parser.map_pure_map]
  refine (decides_map (decides_many1 (decides_span isDigit s))).congr fun n r => ?_
  constructor
  · rintro ⟨ds, ⟨hne, hspan⟩, rfl⟩
    exact ⟨ds, hspan, writes_decimal_iff.2 ⟨hne, hspan.2.1, rfl⟩⟩
  · rintro ⟨ds, hspan, hn⟩
    obtain ⟨hne, -, rfl⟩ := writes_decimal_iff.1 hn
    exact ⟨ds, ⟨hne, hspan⟩, rfl⟩

/-! ## Whole texts -/

/-- **The run tells what number a text writes.** On every text it comes to the answer for a number,
if the text writes this number in base ten, and otherwise to the answer for none. This is so for the
empty text and where any character is no digit. There are no marks. -/
structure TellsNumbers (r : Text → Run ω ε β) (answer : Option Nat → β) : Prop where
  number : ∀ s n, (r s).Ends [] (.ok (answer (some n))) ↔ Writes 10 n s
  none : ∀ s, (r s).Ends [] (.ok (answer none)) ↔ s = [] ∨ ∃ c ∈ s, isDigit c = false
  ends : ∀ s, ∃ x, (r s).Ends [] (.ok (answer x))

/-- A run that does what a number on whole texts does, under answers that tell values apart, tells what
number a text writes. -/
theorem tellsNumbers_of_agrees {r : Text → Run ω ε β} {answer : Option Nat → β}
    (hanswer : ∀ x y, answer x = answer y → x = y)
    (hr : ∀ s, (r s).Agrees (number.unpack s >>= fun x => pure (answer x))) :
    TellsNumbers r answer := by
  have hends (s : Text) : ∃ x, (r s).Ends [] (.ok (answer x)) ∧ ∀ n, x = some n ↔ Writes 10 n s := by
    obtain ⟨x, hx, hwhole⟩ := Parser.decides_unpack (number_decides (ω := ω) (ε := ε) s)
    refine ⟨x, (hr s).ends_iff.2 (Run.ends_bind_pure_ok.2 ⟨x, hx, rfl⟩), fun n => ?_⟩
    rw [hwhole]
    constructor
    · rintro ⟨ds, ⟨rfl, -, -⟩, hn⟩
      rwa [List.append_nil]
    · intro hn
      obtain ⟨-, hs, -⟩ := writes_decimal_iff.1 hn
      exact ⟨s, ⟨(List.append_nil s).symm, hs, fun c r h => by cases h⟩, hn⟩
  have hanswers (s : Text) (y : Option Nat) :
      ∃ x, ((r s).Ends [] (.ok (answer y)) ↔ y = x) ∧ ∀ n, x = some n ↔ Writes 10 n s := by
    obtain ⟨x, hx, hn⟩ := hends s
    refine ⟨x, ⟨fun hy => hanswer y x (Except.ok.inj (hy.unique hx).2), ?_⟩, hn⟩
    rintro rfl
    exact hx
  refine ⟨fun s n => ?_, fun s => ?_, fun s => ?_⟩
  · obtain ⟨x, hx, hn⟩ := hanswers s (some n)
    rw [hx, eq_comm, hn]
  · obtain ⟨x, hx, hn⟩ := hanswers s none
    rw [hx, ← not_writes_iff, eq_comm, Option.eq_none_iff_forall_ne_some]
    exact forall_congr' fun n => not_congr (hn n)
  · obtain ⟨x, hx, -⟩ := hends s
    exact ⟨x, hx⟩

end Descent.Numeral

/-! ## Numbers in scripts -/

namespace Descent.Script

open Descent.Numeral (number tellsNumbers_of_agrees value TellsNumbers)

/-- What is done with the number `a` so far and a further digit `d`. -/
def shifting : Term :=
  .fn "d" (.call (.data .add) [.call (.data .mul) [.int 10, .var "a"], .var "d"])

/-- The function that folds a list of digits from the left, starting from zero. -/
def digitFold : Value := .closure [] "ds" (.call (.act .fold) [.fn "a" shifting, .int 0, .var "ds"])

/-- **One or more digits as a number,** as a recipe. -/
def decimal : Recipe Value := .map digitFold (.many1 .digitValue)

/-- A number as a value, or null. -/
def numberOrNull : Option Nat → Value
  | some n => .int n
  | none => .null

theorem numberOrNull_injective (x y : Option Nat) (h : numberOrNull x = numberOrNull y) :
    x = y := by
  match x, y with
  | some n, some m => exact congrArg some (Int.ofNat.inj (Value.int.inj h))
  | none, none => rfl
  | some n, none => cases h
  | none, some m => cases h

variable (globals : Env)

/-- **The fold of digits is the number that they come to.** -/
theorem digitFold_agrees (ds : List Nat) :
    ((calls globals).apply digitFold (.list (ds.map fun d : Nat => .int d))).Agrees
      (pure (.int (value ds))) := by
  let env : Env := [("ds", .list (ds.map fun d : Nat => .int d))]
  have hstep (a d : Nat) : ((calls globals).apply (.closure env "a" shifting) (.int a) >>= fun g =>
      (calls globals).apply g (.int d)).Agrees (pure (.int ↑(10 * a + d))) := by
    have hfirst := calls_apply_agrees globals env "a" shifting (.int a)
    rw [shifting, eval] at hfirst
    refine (hfirst.bind fun _ => .refl _).trans ?_
    rw [pure_bind]
    refine (calls_apply_agrees ..).trans (.of_eq ?_)
    rw [eval_call_two, eval_call_two, eval_var (x := .int a) rfl, eval_var (x := .int d) rfl, eval]
    simp only [pure_bind]
    rfl
  have hargs : evalAll (calls globals) globals env [.fn "a" shifting, .int 0, .var "ds"] =
      pure [.closure env "a" shifting, .int 0, .list (ds.map fun d : Nat => .int d)] := by
    rw [evalAll, evalAll, evalAll, evalAll, eval_var (x := .list (ds.map fun d : Nat => .int d)) rfl]
    rfl
  refine (calls_apply_agrees ..).trans ?_
  rw [eval, hargs, pure_bind]
  exact foldValues_agrees hstep 0 ds

/-- The recipe is the parser, with numbers as values. -/
theorem parse_decimal_agrees :
    ((calls globals).parse decimal).Agrees (number.map fun n : Nat => pure (.int n)) := by
  have hdigits : ((calls globals).parse (.many1 .digitValue)).Agrees
      ((Parser.many1 .digitValue).map fun ds => pure (.list (ds.map fun d : Nat => .int d))) := by
    have h := (calls globals).parse_agrees (.many1 .digitValue)
    have hdigit : Recipe.denote (calls globals) (calls globals).parse .digitValue =
        Parser.digitValue.map fun d : Nat => pure (.int d) := rfl
    have hlist : (calls globals).list = Value.list := rfl
    rwa [Recipe.denote_many1, hdigit, Recipe.ofList, Parser.many1_map_pure, Parser.map_pure_map,
      hlist] at h
  have hfold := Parser.map_agrees (.refl (Parser.many1 .digitValue)) (digitFold_agrees globals)
  refine ((calls globals).parse_map_agrees digitFold _).trans ?_
  refine (Parser.map_agrees hdigits fun _ => .refl _).trans ?_
  rw [Parser.map_pure_map, number, Parser.map_pure_map]
  exact hfold

/-- **Scripts tell what number a text writes.** -/
theorem unpacked_tellsNumbers : TellsNumbers (fun s =>
    (calls globals).apply (.unpacked decimal) (.text s)) numberOrNull := by
  refine tellsNumbers_of_agrees numberOrNull_injective fun s => ?_
  have hunpack : (((calls globals).parse decimal).unpack s).Agrees
      (number.unpack s >>= fun x => pure (x.map fun n : Nat => .int n)) :=
    ((parse_decimal_agrees globals s).bind fun _ => .refl _).trans (.of_eq (Parser.unpack_map_pure ..))
  refine (apply_unpacked_agrees globals decimal s).trans ?_
  refine (hunpack.bind fun _ => .refl _).trans (.of_eq ?_)
  rw [bind_assoc]
  refine congrArg (number.unpack s >>= ·) (funext fun x => ?_)
  rw [pure_bind]
  cases x <;> rfl

end Descent.Script

namespace Descent.Numeral

open Descent.Script (calls decimal numberOrNull)

variable {ω ε : Type}

/-- **Numbers are read from their numerals.** The digits are the ten characters of base ten. Their
conversion is called on digits only, so any that knows the digits makes the same parsers, also if it
raises an error for other characters or knows digits of other scripts: a digit gives its value, which
is less than ten, and no error is raised. A number takes the digits up to the first other character,
and comes to the number that they write. A whole text has a value just when it consists of digits,
one or more, and then this is the number that it writes in base ten, whatever zeros are in front. So
every number is read from its numeral, and a text without a leading zero that is read is the numeral
of its value. In scripts the digits are folded from the left, and the value is a number or null. -/
theorem numerals_are_read :
    (∀ c, isDigit c = true ↔ ∃ d < 10, c = Nat.digitChar d) ∧
    (∀ conv conv' : Char → Run ω ε Nat, (∀ c, isDigit c = true → conv c = conv' c) →
      digitBy conv = digitBy conv') ∧
    (∀ zeros e, Converts (convert zeros e : Char → Run ω ε Nat)) ∧
    (∀ conv : Char → Run ω ε Nat, Converts conv →
      digitBy conv = Parser.digitValue ∧ numberBy conv = number) ∧
    (∀ s, (Parser.digitValue : Parser ω ε Nat).Decides s fun d r =>
      d < 10 ∧ s = Nat.digitChar d :: r) ∧
    (∀ s, (number : Parser ω ε Nat).Decides s fun n r =>
      ∃ ds, Span isDigit s ds r ∧ Writes 10 n ds) ∧
    TellsNumbers (number : Parser ω ε Nat).unpack id ∧
    (∀ n, ((number : Parser ω ε Nat).unpack (numeral n)).Ends [] (.ok (some n))) ∧
    (∀ s n, ((number : Parser ω ε Nat).unpack s).Ends [] (.ok (some n)) →
      s.head? ≠ some '0' ∨ s = ['0'] → s = numeral n) ∧
    ∀ globals,
      ((calls globals).parse decimal).Agrees (number.map fun n : Nat => pure (.int n)) ∧
      TellsNumbers (fun s => (calls globals).apply (.unpacked decimal) (.text s)) numberOrNull ∧
      ∀ n : Nat, ((calls globals).apply (.unpacked decimal) (.text (numeral n))).Ends []
        (.ok (.int n)) := by
  have htells : TellsNumbers (number : Parser ω ε Nat).unpack id :=
    tellsNumbers_of_agrees (fun _ _ h => h) fun s => .of_eq (bind_pure _).symm
  refine ⟨fun c => isDigit_iff, fun _ _ => digitBy_congr, convert_converts,
    fun conv h => ⟨digitBy_eq h, numberBy_eq h⟩, digitValue_decides, number_decides, htells,
    fun n => ?_, fun s n h hs => ?_, fun globals => ⟨?_, ?_, fun n => ?_⟩⟩
  · exact (htells.number _ n).2 (writes_toDigits 10 n)
  · exact ((htells.number s n).1 h).eq_toDigits hs
  · exact Script.parse_decimal_agrees globals
  · exact Script.unpacked_tellsNumbers globals
  · exact ((Script.unpacked_tellsNumbers globals).number _ n).2 (writes_toDigits 10 n)

/-- A conversion that also knows the digits of a script with its zero at `\u0660`, and raises an
error for letters. A three of that script is no digit here and is not converted, and neither is the
letter behind a seven with zeros in front. -/
theorem numerals_are_read_zeros :
    let conv : Char → Run Unit Unit Nat := convert ['\u0660'] ()
    Converts conv ∧ conv '\u0663' = pure 3 ∧ conv 'x' = Run.raise () ∧
    (digitBy conv).Gives ['\u0663'] .failure ∧
    (numberBy conv).Gives ['0', '0', '7', 'x'] (.success 7 ['x']) ∧
    ((numberBy conv).unpack ['0', '0', '7']).Ends [] (.ok (some 7)) ∧
    ((numberBy conv).unpack ['7', '\u0663']).Ends [] (.ok none) := by
  intro conv
  obtain ⟨-, -, hconverts, hsame, hdigit, hnumber, htells, -⟩ :=
    numerals_are_read (ω := Unit) (ε := Unit)
  have hconv : Converts conv := hconverts ['\u0660'] ()
  obtain ⟨hdigitBy, hnumberBy⟩ := hsame conv hconv
  rw [hdigitBy, hnumberBy]
  have hseven : Writes 10 7 ['0', '0', '7'] := ⟨2, rfl⟩
  have hspan : Span isDigit ['0', '0', '7', 'x'] ['0', '0', '7'] ['x'] := span_iff.2 ⟨rfl, rfl⟩
  refine ⟨hconv, rfl, rfl, ?_, ?_, (htells.number _ 7).2 hseven, (htells.none _).2 (.inr ?_)⟩
  · refine (hdigit _).gives_failure_iff.2 ?_
    rintro d r ⟨hd, hs⟩
    obtain ⟨hc, -⟩ := List.cons.inj hs
    exact absurd (isDigit_iff.2 ⟨d, hd, hc⟩) (by decide)
  · exact (hnumber _).gives_success_iff.2 ⟨_, hspan, hseven⟩
  · exact ⟨'\u0663', by decide, by decide⟩

end Descent.Numeral
