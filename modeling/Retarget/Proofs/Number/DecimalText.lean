/-
# Decimals as they are spelled

A decimal is spelled with digits, a point and digits: `2.0`, `4.10`, `0.25`.  Read as a
floating-point number and written again it comes back without the zeros at its end, and
without the point if nothing is left behind that (`positional_shortest_eq`): `2`, `4.1`,
`0.25`.  That is so for at most 15 digits in all; what is spelled with more may lose other
digits too.
-/

import Mathlib.Data.List.DropRight
import Mathlib.Data.Nat.Factorization.Basic
import Retarget.Proofs.Number.Digits
import Retarget.Proofs.Number.Shortest

namespace Retarget

/-- Digits without a needless leading `0`, a point, and one or more digits. -/
structure DecimalText where
  whole : List Char
  fraction : List Char
  isDigit_whole : ∀ c ∈ whole, c.isDigit = true
  isDigit_fraction : ∀ c ∈ fraction, c.isDigit = true
  whole_ne_nil : whole ≠ []
  fraction_ne_nil : fraction ≠ []
  noNeedlessZero : whole.head? = some '0' → whole = ['0']

namespace DecimalText

variable (d : DecimalText)

/-- The characters. -/
def chars : List Char := d.whole ++ '.' :: d.fraction

/-- How many digits there are. -/
def digitCount : Nat := d.whole.length + d.fraction.length

/-- The number that all the digits write, the point left out. -/
def number : Nat := Nat.ofDigitChars 10 (d.whole ++ d.fraction) 0

/-- The digits behind the point without the zeros at their end. -/
def kept : List Char := d.fraction.rdropWhile (· = '0')

/-- The characters without the zeros at their end, and without the point if no digit is left behind it. -/
def shortened : List Char := if d.kept.isEmpty then d.whole else d.whole ++ '.' :: d.kept

/-- The zeros at the end. -/
theorem exists_fraction_eq : ∃ k, d.fraction = d.kept ++ List.replicate k '0' := by
  refine ⟨(d.fraction.rtakeWhile (· = '0')).length, ?_⟩
  have hz : d.fraction.rtakeWhile (· = '0') =
      List.replicate (d.fraction.rtakeWhile (· = '0')).length '0' :=
    List.eq_replicate_iff.2 ⟨rfl, fun c hc => by simpa using List.mem_rtakeWhile_imp hc⟩
  rw [← hz, kept, List.rdropWhile_append_rtakeWhile]

theorem isDigit_digits : ∀ c ∈ d.whole ++ d.fraction, c.isDigit = true :=
  List.forall_mem_append.2 ⟨d.isDigit_whole, d.isDigit_fraction⟩

/-- A decimal of few digits writes a small number. -/
theorem number_lt (hd : d.digitCount ≤ 15) : d.number < 10 ^ 15 := by
  refine Nat.lt_of_lt_of_le (ofDigitChars_lt d.isDigit_digits 0) ?_
  rw [Nat.zero_add, Nat.mul_one, List.length_append]
  exact Nat.pow_le_pow_right (by decide) hd

theorem isDigit_kept {c : Char} (hc : c ∈ d.kept) : c.isDigit = true :=
  d.isDigit_fraction c ((List.rdropWhile_prefix _ _).subset hc)

/-- The zeros at the end raise the number by a power of ten. -/
theorem number_eq {k : Nat} (h : d.fraction = d.kept ++ List.replicate k '0') :
    d.number = 10 ^ k * Nat.ofDigitChars 10 (d.whole ++ d.kept) 0 := by
  rw [number, h, ← List.append_assoc, Nat.ofDigitChars_append, Nat.ofDigitChars_replicate_zero]

/-- **A decimal is kept as it is just if it does not end in `0`.** -/
theorem shortened_eq_chars_iff : d.shortened = d.chars ↔ d.fraction.getLast? ≠ some '0' := by
  constructor
  · intro h hlast
    obtain ⟨ds, hds⟩ := List.getLast?_eq_some_iff.1 hlast
    have hlen : d.kept.length ≤ ds.length := by
      rw [kept, hds, List.rdropWhile_concat_pos _ _ _ (by simp)]
      exact (List.rdropWhile_prefix _ _).length_le
    have hshort := congrArg List.length h
    rw [shortened, chars, hds] at hshort
    split at hshort
    · simp at hshort
    · simp at hshort
      omega
  · intro h
    have hk : d.kept = d.fraction := by
      rw [kept, List.rdropWhile_eq_self_iff]
      intro hne hz
      exact h (by rw [List.getLast?_eq_some_getLast hne, of_decide_eq_true hz])
    rw [shortened, hk, if_neg (by simpa using d.fraction_ne_nil), chars]

/-- There is one `0` before the point, or the digits there start with another one. -/
theorem whole_cases : d.whole = ['0'] ∨ ∃ c cs, d.whole = c :: cs ∧ c.isDigit = true ∧ c ≠ '0' := by
  obtain ⟨c, cs, hw⟩ := List.exists_cons_of_ne_nil d.whole_ne_nil
  by_cases hc : c = '0'
  · exact .inl (d.noNeedlessZero (by rw [hw, hc]; rfl))
  · exact .inr ⟨c, cs, hw, d.isDigit_whole c (by rw [hw]; exact List.mem_cons_self ..), hc⟩

/-! ### The digits as they are printed -/

theorem toDigits_whole : Nat.toDigits 10 (Nat.ofDigitChars 10 d.whole 0) = d.whole := by
  rcases d.whole_cases with hz | ⟨c, cs, hw, -, hc⟩
  · rw [hz]
    rfl
  · rw [hw]
    exact toDigits_ofDigitChars hc (hw ▸ d.isDigit_whole)

/-- A whole number is printed with the zeros that its exponent counts. -/
theorem positional_of_nonneg {m s : Nat} (h : 10 ^ s * m = Nat.ofDigitChars 10 d.whole 0) (hm : 0 < m) :
    (Decimal.mk m s).positional = d.whole := by
  rw [Decimal.positional, if_pos (Int.natCast_nonneg s), Int.toNat_natCast, Decimal.text,
    toDigits_append_zeros hm, h, toDigits_whole]

/-- A decimal is printed with a point, after a `0` if all its digits are behind that. -/
theorem positional_of_neg (hk : d.kept ≠ []) (hpos : 0 < Nat.ofDigitChars 10 (d.whole ++ d.kept) 0) :
    (Decimal.mk (Nat.ofDigitChars 10 (d.whole ++ d.kept) 0) (-d.kept.length)).positional =
      d.whole ++ '.' :: d.kept := by
  have hp : 0 < d.kept.length := List.length_pos_of_ne_nil hk
  rw [Decimal.positional, if_neg (by simp; omega)]
  simp only [Decimal.text, Int.neg_neg, Int.toNat_natCast]
  rcases d.whole_cases with hz | ⟨c, cs, hw, -, hc⟩
  · have hv : Nat.ofDigitChars 10 (d.whole ++ d.kept) 0 = Nat.ofDigitChars 10 d.kept 0 := by
      rw [hz]
      exact Nat.ofDigitChars_cons
    rw [hv] at hpos ⊢
    obtain ⟨j, hj⟩ := exists_zeros_append (fun _ => d.isDigit_kept) hpos
    have hlen := congrArg List.length hj
    rw [List.length_append, List.length_replicate] at hlen
    rw [if_neg (by omega), hz, show d.kept.length - (Nat.toDigits 10 _).length = j by omega,
      List.append_assoc, ← hj]
    rfl
  · have hd : Nat.toDigits 10 (Nat.ofDigitChars 10 (d.whole ++ d.kept) 0) = d.whole ++ d.kept := by
      rw [hw, List.cons_append]
      refine toDigits_ofDigitChars hc ?_
      rw [← List.cons_append, ← hw]
      exact List.forall_mem_append.2 ⟨d.isDigit_whole, fun _ => d.isDigit_kept⟩
    have hlen : 0 < d.whole.length := List.length_pos_of_ne_nil d.whole_ne_nil
    rw [hd, List.length_append, Nat.add_sub_cancel, if_pos hlen, List.take_left', List.drop_left']
    all_goals rfl

/-! ### Reading and printing -/

theorem ten_pow_mul_zpow_neg (a k : Nat) :
    (10 : ℚ) ^ k * 10 ^ (-((a + k : Nat) : ℤ)) = 10 ^ (-(a : ℤ)) := by
  rw [← zpow_natCast, ← zpow_add₀ (by norm_num)]
  congr 1
  omega

section Rounded

open Binary64

variable {n c : Nat} {tie : Tie} (hc : 0 < c)
  (h : (n : ℚ) / c = d.number * 10 ^ (-(d.fraction.length : ℤ)) * one) (hd : d.digitCount ≤ 15)
include hc h hd

/-- Without zeros at the end something is left behind the point. -/
theorem positional_shortest_of_kept (hk : d.kept ≠ []) :
    (shortest tie (rounded n c)).positional = d.whole ++ '.' :: d.kept := by
  obtain ⟨k, hf⟩ := d.exists_fraction_eq
  have hlen : d.fraction.length = d.kept.length + k := by
    rw [congrArg List.length hf, List.length_append, List.length_replicate]
  have hlast : ((d.kept.getLast hk).isDigit = true) ∧ d.kept.getLast hk ≠ '0' := by
    refine ⟨d.isDigit_kept (List.getLast_mem hk), fun hz => ?_⟩
    exact List.rdropWhile_last_not _ _ hk (decide_eq_true hz)
  have hten : Nat.ofDigitChars 10 (d.whole ++ d.kept) 0 % 10 ≠ 0 := by
    rw [← List.dropLast_append_getLast hk, ← List.append_assoc]
    exact ofDigitChars_mod_ten hlast.1 hlast.2 0
  have hpos : 0 < Nat.ofDigitChars 10 (d.whole ++ d.kept) 0 :=
    Nat.pos_of_ne_zero fun h0 => hten (by rw [h0])
  have hdigits : ∀ x ∈ d.whole ++ d.kept, x.isDigit = true :=
    List.forall_mem_append.2 ⟨d.isDigit_whole, fun _ => d.isDigit_kept⟩
  rw [digitCount] at hd
  have hlt : Nat.ofDigitChars 10 (d.whole ++ d.kept) 0 < 10 ^ 15 := by
    refine Nat.lt_of_lt_of_le (ofDigitChars_lt hdigits 0) ?_
    rw [Nat.zero_add, Nat.mul_one, List.length_append]
    exact Nat.pow_le_pow_right (by decide) (by omega)
  have hvalue : (n : ℚ) / c =
      Nat.ofDigitChars 10 (d.whole ++ d.kept) 0 * 10 ^ (-(d.kept.length : ℤ)) * one := by
    rw [h, d.number_eq hf, hlen, ← ten_pow_mul_zpow_neg d.kept.length k, Nat.cast_mul, Nat.cast_pow,
      Nat.cast_ofNat]
    ring
  rw [← d.positional_of_neg hk hpos, shortest_rounded hc hpos hlt (by omega) (by omega) hvalue hten]

/-- With nothing but zeros behind the point the whole number is left. -/
theorem positional_shortest_of_zeros (hk : d.kept = []) :
    (shortest tie (rounded n c)).positional = d.whole := by
  obtain ⟨k, hf⟩ := d.exists_fraction_eq
  have hlen : d.fraction.length = k := by rw [hf, hk, List.nil_append, List.length_replicate]
  have hnumber := d.number_eq hf
  rw [hk, List.append_nil] at hnumber
  have hw := ofDigitChars_lt d.isDigit_whole 0
  have hwhole := d.toDigits_whole
  generalize hv : Nat.ofDigitChars 10 d.whole 0 = w at hnumber hw hwhole
  have hvalue : (n : ℚ) / c = w * one := by
    have hp := ten_pow_mul_zpow_neg 0 k
    rw [Nat.zero_add, Nat.cast_zero, neg_zero, zpow_zero] at hp
    rw [h, hnumber, hlen, Nat.cast_mul, Nat.cast_pow, Nat.cast_ofNat, mul_right_comm _ _ ((10 : ℚ) ^ _),
      hp, one_mul]
  rcases Nat.eq_zero_or_pos w with rfl | hpos
  · have hn : n = 0 := by
      rw [Nat.cast_zero, zero_mul, div_eq_zero_iff] at hvalue
      exact_mod_cast hvalue.resolve_right (Nat.cast_ne_zero.2 (Nat.pos_iff_ne_zero.1 hc))
    rw [hn, rounded_zero, ← hwhole, shortest, if_pos rfl]
    rfl
  · obtain ⟨s, m, hm, rfl⟩ := Nat.exists_eq_pow_mul_and_not_dvd (Nat.pos_iff_ne_zero.1 hpos) 10 (by decide)
    have hmpos : 0 < m := Nat.pos_of_ne_zero fun h0 => hm (h0 ▸ Nat.dvd_zero 10)
    rw [digitCount] at hd
    have hlen' : 0 < d.fraction.length := List.length_pos_of_ne_nil d.fraction_ne_nil
    have hlt : 10 ^ s * m < 10 ^ 15 := by
      refine Nat.lt_of_lt_of_le hw ?_
      rw [Nat.zero_add, Nat.mul_one]
      exact Nat.pow_le_pow_right (by decide) (by omega)
    have hs : s < 15 := (Nat.pow_lt_pow_iff_right (by decide)).1
      (Nat.lt_of_le_of_lt (Nat.le_mul_of_pos_right (10 ^ s) hmpos) hlt)
    have hm15 : m < 10 ^ 15 :=
      Nat.lt_of_le_of_lt (Nat.le_mul_of_pos_left m (Nat.pow_pos (by decide))) hlt
    have hvalue' : (n : ℚ) / c = m * 10 ^ (s : ℤ) * one := by
      rw [hvalue, Nat.cast_mul, Nat.cast_pow, Nat.cast_ofNat, zpow_natCast]
      ring
    rw [shortest_rounded hc hmpos hm15 (by omega) (by omega) hvalue'
      (fun h0 => hm (Nat.dvd_of_mod_eq_zero h0))]
    exact d.positional_of_nonneg hv.symm hmpos

/-- **A decimal of at most 15 digits comes back without the zeros at its end.** -/
theorem positional_shortest_eq : (shortest tie (rounded n c)).positional = d.shortened := by
  rw [shortened]
  split
  · rename_i hk
    exact d.positional_shortest_of_zeros hc h hd (List.isEmpty_iff.1 hk)
  · rename_i hk
    exact d.positional_shortest_of_kept hc h hd (by simpa using hk)

/-- The number is none of those that are too large. -/
theorem rounded_lt_limit : rounded n c < limit := by
  have hlt := d.number_lt hd
  rw [digitCount] at hd
  rcases Nat.eq_zero_or_pos d.number with h0 | hpos
  · have hn : n = 0 := by
      rw [h0, Nat.cast_zero, zero_mul, zero_mul, div_eq_zero_iff] at h
      exact_mod_cast h.resolve_right (Nat.cast_ne_zero.2 (Nat.pos_iff_ne_zero.1 hc))
    rw [hn, rounded_zero]
    decide +kernel
  · exact Binary64.rounded_lt_limit hc hpos hlt (by omega) (by omega) h

/-- **The number that is read is printed as the decimal, less the zeros at its end.** -/
theorem positional_ofUnits : (ofUnits false n c).isFinite = true ∧
    (ofUnits false n c).positional = String.ofList d.shortened := by
  rw [ofUnits, if_pos (d.rounded_lt_limit hc h hd)]
  refine ⟨rfl, ?_⟩
  rw [positional, d.positional_shortest_eq hc h hd]
  rfl

end Rounded

end DecimalText
end Retarget
