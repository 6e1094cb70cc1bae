/-
# Decimal digits of natural numbers

A number is written with the digits `Nat.toDigits 10`, without a leading `0` unless the
number is `0`.  Digits that are added behind those of a positive number are the digits of a
greater number (`toDigits_append`), so that any digits without a leading `0` are those of
their value (`toDigits_ofDigitChars`).
-/

import Mathlib.Algebra.Group.Nat.Defs

namespace Retarget

theorem isDigit_of_mem_toDigits {n : Nat} {c : Char} (h : c ∈ Nat.toDigits 10 n) : c.isDigit = true :=
  Nat.isDigit_of_mem_toDigits (by decide) (by decide) h

/-- A digit writes a number below ten. -/
theorem exists_digitChar {c : Char} (h : c.isDigit = true) : ∃ d < 10, c = Nat.digitChar d := by
  obtain ⟨h1, h2⟩ : 48 ≤ c.toNat ∧ c.toNat ≤ 57 := by
    simpa [Char.isDigit, UInt32.le_iff_toNat_le] using h
  refine ⟨c.toNat - 48, by omega, Char.toNat_inj.1 ?_⟩
  rw [Nat.toNat_digitChar_of_lt_ten (by omega)]
  omega

/-- **Digits behind those of a positive number** are digits of a greater number. -/
theorem toDigits_append {n : Nat} (hn : 0 < n) {cs : List Char} (h : ∀ c ∈ cs, c.isDigit = true) :
    Nat.toDigits 10 n ++ cs = Nat.toDigits 10 (Nat.ofDigitChars 10 cs n) := by
  induction cs generalizing n with
  | nil => rw [Nat.ofDigitChars_nil, List.append_nil]
  | cons c cs ih =>
    obtain ⟨d, hd, rfl⟩ := exists_digitChar (h c (List.mem_cons_self ..))
    rw [Nat.ofDigitChars_cons_digitChar_of_lt_ten hd, ← ih (by omega) fun c hc =>
      h c (List.mem_cons_of_mem _ hc), ← Nat.toDigits_append_toDigits (by decide) hn hd,
      Nat.toDigits_of_lt_base hd, List.append_assoc, List.singleton_append]

/-- **Digits without a leading `0` are those of their value.** -/
theorem toDigits_ofDigitChars {c : Char} {cs : List Char} (hc : c ≠ '0')
    (h : ∀ x ∈ c :: cs, x.isDigit = true) :
    Nat.toDigits 10 (Nat.ofDigitChars 10 (c :: cs) 0) = c :: cs := by
  obtain ⟨d, hd, rfl⟩ := exists_digitChar (h c (List.mem_cons_self ..))
  have hpos : 0 < d := Nat.pos_of_ne_zero fun h0 => hc (by rw [h0]; rfl)
  rw [Nat.ofDigitChars_cons_digitChar_of_lt_ten hd, Nat.mul_zero, Nat.zero_add,
    ← toDigits_append hpos fun c hc => h c (List.mem_cons_of_mem _ hc), Nat.toDigits_of_lt_base hd,
    List.singleton_append]

/-- Zeros behind the digits of a positive number multiply it by ten. -/
theorem toDigits_append_zeros {n : Nat} (hn : 0 < n) (k : Nat) :
    Nat.toDigits 10 n ++ List.replicate k '0' = Nat.toDigits 10 (10 ^ k * n) := by
  rw [toDigits_append hn fun c hc => (List.eq_of_mem_replicate hc) ▸ by decide,
    Nat.ofDigitChars_replicate_zero]

/-- The value of digits is below the power of ten of their number. -/
theorem ofDigitChars_lt {cs : List Char} (h : ∀ c ∈ cs, c.isDigit = true) (n : Nat) :
    Nat.ofDigitChars 10 cs n < 10 ^ cs.length * (n + 1) := by
  induction cs generalizing n with
  | nil =>
    rw [Nat.ofDigitChars_nil, List.length_nil, Nat.pow_zero, Nat.one_mul]
    exact Nat.lt_succ_self n
  | cons c cs ih =>
    obtain ⟨d, hd, rfl⟩ := exists_digitChar (h c (List.mem_cons_self ..))
    rw [Nat.ofDigitChars_cons_digitChar_of_lt_ten hd, List.length_cons, Nat.pow_succ, Nat.mul_assoc]
    refine Nat.lt_of_lt_of_le (ih (fun c hc => h c (List.mem_cons_of_mem _ hc)) _)
      (Nat.mul_le_mul_left _ ?_)
    omega

/-- Digits that are not all zeros are zeros before the digits of their value. -/
theorem exists_zeros_append {cs : List Char} (h : ∀ c ∈ cs, c.isDigit = true)
    (hpos : 0 < Nat.ofDigitChars 10 cs 0) :
    ∃ k, cs = List.replicate k '0' ++ Nat.toDigits 10 (Nat.ofDigitChars 10 cs 0) := by
  induction cs with
  | nil => cases hpos
  | cons c cs ih =>
    by_cases hc : c = '0'
    · subst hc
      have hv : Nat.ofDigitChars 10 ('0' :: cs) 0 = Nat.ofDigitChars 10 cs 0 := Nat.ofDigitChars_cons
      rw [hv] at hpos ⊢
      obtain ⟨k, hk⟩ := ih (fun c hc => h c (List.mem_cons_of_mem _ hc)) hpos
      exact ⟨k + 1, by rw [List.replicate_succ, List.cons_append, ← hk]⟩
    · exact ⟨0, (toDigits_ofDigitChars hc h).symm⟩

/-- The last digit is the remainder by ten. -/
theorem ofDigitChars_mod_ten {cs : List Char} {c : Char} (hc : c.isDigit = true) (h0 : c ≠ '0') (n : Nat) :
    Nat.ofDigitChars 10 (cs ++ [c]) n % 10 ≠ 0 := by
  obtain ⟨d, hd, rfl⟩ := exists_digitChar hc
  have hpos : d ≠ 0 := fun hz => h0 (by rw [hz]; rfl)
  rw [Nat.ofDigitChars_append, Nat.ofDigitChars_cons_digitChar_of_lt_ten hd, Nat.ofDigitChars_nil]
  omega

/-- The first digit of a positive number is not `0`. -/
theorem head_toDigits_ne_zero {n : Nat} (hn : 0 < n) {c : Char} {cs : List Char}
    (h : Nat.toDigits 10 n = c :: cs) : c ≠ '0' := by
  induction n using Nat.strongRecOn generalizing cs with
  | ind n ih =>
    by_cases h10 : n < 10
    · rw [Nat.toDigits_of_lt_base h10] at h
      rw [← (List.cons.inj h).1, Ne, Nat.digitChar_eq_zero]
      omega
    · rw [Nat.toDigits_of_base_le (by decide) (Nat.le_of_not_lt h10)] at h
      cases ht : Nat.toDigits 10 (n / 10) with
      | nil => exact absurd ht Nat.toDigits_ne_nil
      | cons d ds =>
        rw [ht, List.cons_append] at h
        obtain ⟨rfl, -⟩ := List.cons.inj h
        exact ih (n / 10) (by omega) (by omega) ht

end Retarget
