import Descent.Outcome

/-!
# Positional notation

A number is written in a base by its numeral, and zeros in front of it make no difference. What is
written so is known digit by digit, from the left.

* `countOn b n ds`: the number that is reached from `n` when it is followed by digits.
* `Writes b n s`: the text is the numeral of the number, with any number of zeros in front.
* `Writes.append`: **digits behind a number count on from it.**
* `writes_iff`: a text writes a number just when it consists of digits that come to it.
* `Writes.eq_toDigits`: without a zero in front, the text is the numeral. `Writes.eq_of_length`: there
  is one text of each length.
-/

namespace Descent.Numeral

/-- The number that digits come to, when they follow a number. -/
def countOn (b n : Nat) (ds : List Nat) : Nat := ds.foldl (fun a d => b * a + d) n

/-- **The text writes the number** in base `b`, possibly with leading zeros. -/
def Writes (b n : Nat) (s : Text) : Prop := ∃ k, s = List.replicate k '0' ++ Nat.toDigits b n

variable {b n m : Nat} {s u : Text} {ds es : List Nat}

theorem countOn_cons (b n d : Nat) (ds : List Nat) :
    countOn b n (d :: ds) = countOn b (b * n + d) ds := rfl

theorem countOn_append (b n : Nat) (ds es : List Nat) :
    countOn b n (ds ++ es) = countOn b (countOn b n ds) es := List.foldl_append

theorem countOn_zeros (b k : Nat) : countOn b 0 (List.replicate k 0) = 0 := by
  induction k with
  | zero => rfl
  | succ k ih => rwa [List.replicate_succ, countOn_cons, Nat.mul_zero, Nat.add_zero]

theorem writes_toDigits (b n : Nat) : Writes b n (Nat.toDigits b n) := ⟨0, rfl⟩

theorem writes_digit {d : Nat} (hd : d < b) : Writes b d [d.digitChar] := by
  rw [← Nat.toDigits_of_lt_base hd]
  exact writes_toDigits b d

theorem Writes.ne_nil (h : Writes b n s) : s ≠ [] := by
  obtain ⟨k, rfl⟩ := h
  exact List.append_ne_nil_of_right_ne_nil _ Nat.toDigits_ne_nil

/-- A digit behind a number. -/
theorem Writes.concat {d : Nat} (hb : 1 < b) (h : Writes b n s) (hd : d < b) :
    Writes b (b * n + d) (s ++ [d.digitChar]) := by
  obtain ⟨k, rfl⟩ := h
  rw [← Nat.toDigits_of_lt_base hd, List.append_assoc]
  by_cases hn : n = 0
  · -- the zero of the number becomes a leading one
    subst hn
    refine ⟨k + 1, ?_⟩
    rw [Nat.toDigits_zero, Nat.mul_zero, Nat.zero_add, List.replicate_succ', List.append_assoc]
  · exact ⟨k, by rw [Nat.toDigits_append_toDigits hb (Nat.pos_of_ne_zero hn) hd]⟩

/-- **Digits behind a number count on from it.** -/
theorem Writes.append (hb : 1 < b) (h : Writes b n s) (hds : ∀ d ∈ ds, d < b) :
    Writes b (countOn b n ds) (s ++ ds.map Nat.digitChar) := by
  induction ds generalizing n s with
  | nil => rwa [List.map_nil, List.append_nil]
  | cons d ds ih =>
    obtain ⟨hd, hrest⟩ := List.forall_mem_cons.1 hds
    rw [List.map_cons, List.append_cons]
    exact ih (h.concat hb hd) hrest

/-- The digits of a numeral. -/
theorem exists_digits (hb : 1 < b) (n : Nat) : ∃ ds, (∀ d ∈ ds, d < b) ∧
    Nat.toDigits b n = ds.map Nat.digitChar ∧ countOn b 0 ds = n := by
  induction n using Nat.strongRecOn with
  | _ n ih =>
    by_cases hn : n < b
    · refine ⟨[n], List.forall_mem_singleton.2 hn, Nat.toDigits_of_lt_base hn, ?_⟩
      rw [countOn_cons, Nat.mul_zero, Nat.zero_add]
      rfl
    · have hle : b ≤ n := Nat.le_of_not_lt hn
      obtain ⟨ds, hds, htext, hcount⟩ := ih (n / b) (Nat.div_lt_self (by omega) hb)
      refine ⟨ds ++ [n % b], ?_, ?_, ?_⟩
      · exact List.forall_mem_append.2
          ⟨hds, List.forall_mem_singleton.2 (Nat.mod_lt n (by omega))⟩
      · rw [Nat.toDigits_of_base_le hb hle, htext, List.map_append, List.map_singleton]
      · rw [countOn_append, hcount, countOn_cons]
        exact Nat.div_add_mod n b

/-- **A text writes a number just when it consists of digits that come to it,** one or more. -/
theorem writes_iff (hb : 1 < b) : Writes b n s ↔
    ∃ ds, ds ≠ [] ∧ (∀ d ∈ ds, d < b) ∧ s = ds.map Nat.digitChar ∧ countOn b 0 ds = n := by
  constructor
  · intro h
    have hne := h.ne_nil
    obtain ⟨k, rfl⟩ := h
    obtain ⟨ds, hds, htext, hcount⟩ := exists_digits hb n
    have hall : List.replicate k '0' ++ Nat.toDigits b n =
        (List.replicate k 0 ++ ds).map Nat.digitChar := by
      rw [List.map_append, List.map_replicate, htext]
      rfl
    refine ⟨List.replicate k 0 ++ ds, ?_, ?_, hall, ?_⟩
    · rintro hnil
      rw [hall, hnil] at hne
      exact hne rfl
    · refine List.forall_mem_append.2 ⟨fun d hd => ?_, hds⟩
      rw [List.eq_of_mem_replicate hd]
      omega
    · rw [countOn_append, countOn_zeros, hcount]
  · rintro ⟨ds, hne, hds, rfl, rfl⟩
    cases ds with
    | nil => exact absurd rfl hne
    | cons d ds =>
      obtain ⟨hd, hrest⟩ := List.forall_mem_cons.1 hds
      rw [countOn_cons, Nat.mul_zero, Nat.zero_add]
      exact (writes_digit hd).append hb hrest

/-- What is so for each digit is so for each character. -/
theorem Writes.forall_mem {p : Char → Prop} (hb : 1 < b) (h : Writes b n s)
    (hp : ∀ d < b, p d.digitChar) : ∀ c ∈ s, p c := by
  obtain ⟨ds, -, hds, rfl, -⟩ := (writes_iff hb).1 h
  exact List.forall_mem_map.2 fun d hd => hp d (hds d hd)

/-- Without a zero in front the text is the numeral, and so is a zero on its own. -/
theorem Writes.eq_toDigits (h : Writes b n s) (hs : s.head? ≠ some '0' ∨ s = ['0']) :
    s = Nat.toDigits b n := by
  obtain ⟨k, rfl⟩ := h
  cases k with
  | zero => rfl
  | succ k =>
    rcases hs with hs | hs
    · exact absurd rfl hs
    · -- behind the zero there would have to be a numeral
      have hrest := (List.cons.inj hs).2
      exact absurd (List.append_eq_nil_iff.1 hrest).2 Nat.toDigits_ne_nil

/-- Texts of one length that write the same number are the same. -/
theorem Writes.eq_of_length (h : Writes b n s) (k : Writes b n u) (hlen : s.length = u.length) :
    s = u := by
  obtain ⟨i, rfl⟩ := h
  obtain ⟨j, rfl⟩ := k
  simp only [List.length_append, List.length_replicate] at hlen
  rw [Nat.add_right_cancel hlen]

end Descent.Numeral
