/-
# Decimals without their quotes in JSON

A decimal that stands in a text as it is, is a floating-point number: its digits are
collected in a significand, which is divided by the power of ten of the digits behind the
point.  With at most 15 digits in all both are exact and the quotient is rounded once, so
the number is the nearest one, and its text is the decimal without the zeros at its end
(`Scalar.value?_of_decimal`).
-/

import Retarget.Proofs.Json.Spelling.Integer
import Retarget.Proofs.Number.DecimalText

namespace Retarget
namespace Json

/-- Every decimal is the spelling of a number. -/
theorem exists_numeral_of_decimal (d : DecimalText) :
    ∃ n : Numeral, n.negative = false ∧ n.body = d.chars ∧ n.chars = d.chars := by
  obtain ⟨w, hw, -⟩ := exists_whole_of_nat (Nat.ofDigitChars 10 d.whole 0)
  obtain ⟨fs, hf⟩ := exists_digitChars d.isDigit_fraction
  cases fs with
  | nil => exact absurd hf.symm d.fraction_ne_nil
  | cons f fs =>
    have hb : (Numeral.mk false w (some ⟨f, fs⟩) none).body = d.chars := by
      change w.chars ++ (('.' :: Digits.chars ⟨f, fs⟩) ++ []) = d.chars
      rw [hw.trans d.toDigits_whole, show Digits.chars ⟨f, fs⟩ = d.fraction from hf, List.append_nil,
        DecimalText.chars]
    exact ⟨_, rfl, hb, hb⟩

theorem exists_scalar_of_decimal (d : DecimalText) : ∃ x : Scalar, x.spell [] = d.chars := by
  obtain ⟨n, -, -, hn⟩ := exists_numeral_of_decimal d
  exact ⟨.number n, by rw [Scalar.spell, hn, List.append_nil]⟩

/-- The digits of a decimal are collected in one number, and those behind the point counted. -/
theorem number_chars_of_decimal (d : DecimalText) (hd : d.digitCount ≤ 15) :
    number false d.chars = real false d.number (-d.fraction.length) [] := by
  obtain ⟨fs, hf⟩ := exists_digitChars d.isDigit_fraction
  obtain ⟨ws, hw⟩ := exists_digitChars d.isDigit_whole
  have hlt : d.number < Nat.pow 2 64 := Nat.lt_trans (d.number_lt hd) (by decide)
  have hlen : fs.length = d.fraction.length := by rw [← hf, List.length_map]
  have hne : d.fraction.length ≠ 0 := Nat.ne_of_gt (List.length_pos_of_ne_nil d.fraction_ne_nil)
  have hnumber : d.number = decimal (decimal 0 ws) fs := by
    rw [decimal_eq, decimal_eq, hw, hf, ← Nat.ofDigitChars_append, DecimalText.number]
  have hwl : decimal 0 ws < Nat.pow 2 64 := Nat.lt_of_le_of_lt (hnumber ▸ le_decimal _ fs) hlt
  have hpoint : NoDigit ('.' :: d.fraction) := by
    rintro c ⟨⟩
    decide
  have hcount : digitCount ('.' :: d.fraction) = 0 := digitCount_digitChars [] hpoint
  have hfraction : withFraction false (decimal 0 ws) 0 d.fraction =
      real false d.number (-d.fraction.length) [] := by
    have hc := collect_eq_decimal ends_nil.noDigit (hnumber ▸ hlt)
    rw [List.append_nil, hf] at hc
    rw [withFraction, hc, ← hnumber, hlen]
    simp [hne, afterDigits, afterFraction]
  rw [← hfraction, DecimalText.chars]
  rcases d.whole_cases with hz | ⟨c, cs, hcs, hd, h0⟩
  · have hws : decimal 0 ws = 0 := by
      rw [decimal_eq, hw, hz]
      rfl
    rw [hws, hz, List.singleton_append, number, if_pos rfl, if_pos hcount]
    rfl
  · have hc := collect_eq_decimal hpoint hwl
    rw [hw, hcs, List.cons_append] at hc
    rw [hcs, List.cons_append, number, if_neg h0, if_pos hd, hc]
    dsimp only
    rw [if_pos hcount]
    rfl

/-- The significand and the power of ten are exact, and their quotient is rounded once. -/
theorem dividedBy_eq (d : DecimalText) (hd : d.digitCount ≤ 15) :
    (Binary64.ofNat d.number).dividedBy (.tenPower d.fraction.length) =
      .ofUnits false (d.number * Binary64.one * Binary64.one)
        (10 ^ d.fraction.length * Binary64.one) := by
  have hn : d.number < 2 ^ 53 := Nat.lt_trans (d.number_lt hd) (by decide)
  have hk : 10 ^ d.fraction.length < 2 ^ 53 := by
    rw [DecimalText.digitCount] at hd
    exact Nat.lt_of_le_of_lt (Nat.pow_le_pow_right (by decide) (by omega : _ ≤ 15)) (by decide)
  have hpos : 10 ^ d.fraction.length * Binary64.one ≠ 0 :=
    Nat.mul_ne_zero (Nat.pos_iff_ne_zero.1 (Nat.pow_pos (by decide)))
      (Nat.pos_iff_ne_zero.1 Binary64.one_pos)
  rw [Binary64.tenPower, Nat.pow_eq, Binary64.ofNat_of_lt hn, Binary64.ofNat_of_lt hk,
    Binary64.dividedBy, if_neg hpos]
  rfl

/-- **A decimal without its quotes is read as the number of its own text**, less the zeros at
its end. -/
theorem Scalar.value?_of_decimal {x : Scalar} {d : DecimalText} (hd : d.digitCount ≤ 15)
    (h : x.spell [] = d.chars) :
    ∃ r : Binary64, x.value? = some (.real r) ∧ r.positional = String.ofList d.shortened := by
  obtain ⟨n, hneg, hb, hn⟩ := exists_numeral_of_decimal d
  have hx : x.spell [] = (Scalar.number n).spell [] := by
    rw [h, Scalar.spell, hn, List.append_nil]
  have hlen : 0 < d.fraction.length := List.length_pos_of_ne_nil d.fraction_ne_nil
  have hk : d.fraction.length ≤ 308 := by
    rw [DecimalText.digitCount] at hd
    omega
  obtain ⟨r, hr⟩ : ∃ r, r = (Binary64.ofNat d.number).dividedBy (.tenPower d.fraction.length) := ⟨_, rfl⟩
  have hscaled : scaled 4 (.ofNat d.number) (-d.fraction.length) = some r := by
    rw [scaled, Int.natAbs_neg, Int.natAbs_natCast, if_pos hk, if_neg (by omega), hr]
  have hvalue : x.value? = some (.real r) := by
    rw [value?_congr hx, value?, Numeral.value?, hb, hneg, number_chars_of_decimal d hd, real, hscaled]
    rfl
  refine ⟨r, hvalue, ?_⟩
  rw [hr, dividedBy_eq d hd]
  refine (d.positional_ofUnits ?_ ?_ hd).2
  · exact Nat.mul_pos (Nat.pow_pos (by decide)) Binary64.one_pos
  · have hone : (Binary64.one : ℚ) ≠ 0 := Nat.cast_ne_zero.2 (Nat.pos_iff_ne_zero.1 Binary64.one_pos)
    rw [Nat.cast_mul, Nat.cast_mul, Nat.cast_mul, mul_div_mul_right _ _ hone, Nat.cast_pow,
      Nat.cast_ofNat, zpow_neg, zpow_natCast, div_eq_mul_inv]
    ring

end Json
end Retarget
