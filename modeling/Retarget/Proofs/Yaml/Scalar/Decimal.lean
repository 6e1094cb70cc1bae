/-
# Decimals that are plain scalars

A plain scalar is tried for null, a flag and an integer before it is tried for a number.  A
decimal is none of the first three: it starts with a digit, and it has a point.  As a number
it is the one of all its digits, divided by the power of ten of those behind the point, and
with at most 15 digits the text of that number is the decimal without the zeros at its end
(`untagged_of_decimal`).
-/

import Retarget.Proofs.Number.DecimalText
import Retarget.Yaml.Scalar.Resolve

namespace Retarget
namespace Yaml
namespace Resolve

variable {base n : Nat} {cs : List Char}

/-! ### Digits -/

theorem digit?_of_isDigit {c : Char} (h : c.isDigit = true) : digit? 10 c = some (c.toNat - 48) := by
  obtain ⟨k, hk, rfl⟩ := exists_digitChar h
  rw [digit?, if_pos h, if_pos]
  rw [Nat.toNat_digitChar_of_lt_ten hk]
  omega

/-- Decimal digits write their number. -/
theorem digits?_of_isDigit (h : ∀ c ∈ cs, c.isDigit = true) :
    digits? 10 n cs = some (Nat.ofDigitChars 10 cs n) := by
  induction cs generalizing n with
  | nil => rfl
  | cons c cs ih =>
    rw [digits?, digit?_of_isDigit (h c (List.mem_cons_self ..))]
    exact ih fun c hc => h c (List.mem_cons_of_mem _ hc)

/-- A character that is no digit of the base ends all hope for a number. -/
theorem digits?_eq_none {c : Char} (hc : digit? base c = none) (h : c ∈ cs) : digits? base n cs = none := by
  induction cs generalizing n with
  | nil => cases h
  | cons d cs ih =>
    rw [digits?]
    rcases List.mem_cons.1 h with rfl | h
    · rw [hc]
    · split
      · exact ih h
      · rfl

/-! ### What a decimal is not -/

section Decimal

variable (d : DecimalText)

/-- The first character is a digit, and no needless zero. -/
theorem exists_chars_eq_cons : ∃ c cs, d.chars = c :: cs ∧ c.isDigit = true ∧
    (c = '0' → cs = '.' :: d.fraction) := by
  rcases d.whole_cases with hz | ⟨c, cs, hw, hc, h0⟩
  · exact ⟨'0', '.' :: d.fraction, by rw [DecimalText.chars, hz]; rfl, rfl, fun _ => rfl⟩
  · exact ⟨c, cs ++ '.' :: d.fraction, by rw [DecimalText.chars, hw]; rfl, hc, fun h => (h0 h).elim⟩

/-- A decimal is none of the words that start with another character than a digit. -/
theorem decimal_ne_word {w : String} (hw : w.toList.head?.map Char.isDigit = some false) :
    String.ofList d.chars ≠ w := by
  obtain ⟨c, cs, hcs, hc, -⟩ := exists_chars_eq_cons d
  rintro rfl
  rw [String.toList_ofList, hcs, List.head?_cons, Option.map_some, hc] at hw
  cases hw

theorem isNull_decimal : isNull (String.ofList d.chars) = false := by
  simp (disch := decide) [isNull, decimal_ne_word]

theorem flag?_decimal : flag? (String.ofList d.chars) = none := by
  simp (disch := decide) [flag?, decimal_ne_word]

theorem isSign_of_isDigit {c : Char} (h : c.isDigit = true) : isSign c = false := by
  rw [isSign, Bool.or_eq_false_iff, decide_eq_false_iff_not, decide_eq_false_iff_not]
  constructor <;> (rintro rfl; exact absurd h (by decide))

/-- A decimal has no sign. -/
theorem isSigned_decimal : isSigned d.chars = false := by
  obtain ⟨c, cs, hcs, hc, -⟩ := exists_chars_eq_cons d
  rw [hcs]
  exact isSign_of_isDigit hc

theorem unsigned_decimal : unsigned d.chars = d.chars := by
  rw [unsigned, isSigned_decimal, if_neg Bool.false_ne_true]

theorem head?_decimal_ne {c : Char} (hc : c.isDigit = false) : d.chars.head? ≠ some c := by
  obtain ⟨x, cs, hcs, hx, -⟩ := exists_chars_eq_cons d
  rw [hcs]
  rintro ⟨⟩
  rw [hc] at hx
  cases hx

theorem hasNeedlessZero_decimal : hasNeedlessZero d.chars = false := by
  obtain ⟨c, cs, hcs, -, h0⟩ := exists_chars_eq_cons d
  rw [hasNeedlessZero, unsigned_decimal, hcs]
  split
  · rename_i h
    obtain ⟨rfl, rfl⟩ := List.cons.inj h
    rw [h0 rfl]
    rfl
  · rfl

/-- No base is named: behind a `0` comes the point. -/
theorem base?_decimal : base? d.chars = none := by
  obtain ⟨c, cs, hcs, -, h0⟩ := exists_chars_eq_cons d
  rw [hcs]
  by_cases hc : c = '0'
  · rw [h0 hc, hc]
    rfl
  · simp [base?, hc]

/-- A decimal is no integer, as it has a point. -/
theorem integer?_decimal : integer? d.chars = none := by
  have hpoint : '.' ∈ d.chars := List.mem_append_right _ (List.mem_cons_self ..)
  have hnatural : natural? d.chars = none := by
    rw [natural?, base?_decimal, hasNeedlessZero_decimal]
    simp [number?, digits?_eq_none (show digit? 10 '.' = none from rfl) hpoint]
  rw [integer?, if_neg (head?_decimal_ne d rfl), unpositive, if_neg (head?_decimal_ne d rfl), hnatural]
  rfl

/-! ### What a decimal is -/

theorem decimal?_decimal : decimal? d.chars = some (d.whole, d.fraction, 0) := by
  have hw : d.chars.takeWhile Char.isDigit = d.whole := by
    rw [DecimalText.chars, List.takeWhile_append_of_pos d.isDigit_whole, List.takeWhile_cons_of_neg,
      List.append_nil]
    decide
  have hr : d.chars.dropWhile Char.isDigit = '.' :: d.fraction := by
    rw [DecimalText.chars, List.dropWhile_append_of_pos d.isDigit_whole, List.dropWhile_cons_of_neg]
    decide
  have hf : d.fraction.takeWhile Char.isDigit = d.fraction :=
    List.takeWhile_eq_self_iff.2 d.isDigit_fraction
  have hn : d.fraction.dropWhile Char.isDigit = [] := List.dropWhile_eq_nil_iff.2 d.isDigit_fraction
  simp [decimal?, hw, hr, hf, hn, d.whole_ne_nil]

/-- The number of a decimal is the one of all its digits, over the power of ten of those behind the
point. -/
theorem ofDecimal_eq (hd : d.digitCount ≤ 15) : ∃ n c : Nat, 0 < c ∧
    (n : ℚ) / c = d.number * 10 ^ (-(d.fraction.length : ℤ)) * Binary64.one ∧
    Binary64.ofDecimal false d.number (0 - d.fraction.length) = .ofUnits false n c := by
  rcases Nat.eq_zero_or_pos d.number with h0 | hpos
  · refine ⟨0, 1, Nat.one_pos, ?_, ?_⟩
    · rw [h0, Nat.cast_zero, zero_div, zero_mul, zero_mul]
    · rw [h0, Binary64.ofDecimal, if_pos (by rfl), Binary64.ofUnits, Binary64.rounded_zero,
        if_pos (by decide +kernel), Binary64.zero]
  · have hlen : (Nat.toDigits 10 d.number).length ≤ 15 :=
      (Nat.length_toDigits_le_iff (by decide) (by decide)).2 (d.number_lt hd)
    rw [DecimalText.digitCount] at hd
    refine ⟨d.number * Nat.pow 10 0 * Binary64.one, Nat.pow 10 d.fraction.length,
      Nat.pow_pos (by decide), ?_, ?_⟩
    · rw [Nat.pow_eq, Nat.pow_eq, Nat.pow_zero, Nat.mul_one, Nat.cast_mul, Nat.cast_pow, Nat.cast_ofNat,
        zpow_neg, zpow_natCast, div_eq_mul_inv]
      ring
    · have hup : (0 - (d.fraction.length : ℤ)).toNat = 0 := by omega
      have hdown : (-(0 - (d.fraction.length : ℤ))).toNat = d.fraction.length := by omega
      rw [Binary64.ofDecimal, if_neg (by simp; omega), if_neg (by omega), hup, hdown]

theorem finite?_decimal (hd : d.digitCount ≤ 15) :
    ∃ r, finite? false d.chars = some r ∧ r.positional = String.ofList d.shortened := by
  obtain ⟨n, c, hc, h, he⟩ := ofDecimal_eq d hd
  obtain ⟨hfinite, hp⟩ := d.positional_ofUnits hc h hd
  refine ⟨_, ?_, hp⟩
  rw [finite?, decimal?_decimal]
  dsimp only
  rw [digits?_of_isDigit d.isDigit_digits, ← DecimalText.number]
  dsimp only
  rw [he, if_pos hfinite]

/-- **A decimal means a number, whose text is the decimal without the zeros at its end.** -/
theorem untagged_of_decimal (hd : d.digitCount ≤ 15) :
    ∃ r, untagged (String.ofList d.chars) = .known (.real r) ∧
      r.positional = String.ofList d.shortened := by
  obtain ⟨r, hr, hp⟩ := finite?_decimal d hd
  refine ⟨r, ?_, hp⟩
  have hempty : (String.ofList d.chars).isEmpty = false := by
    simp [DecimalText.chars]
  have hreal : real? d.chars = some r := by
    rw [real?, if_neg (by simp (disch := decide) [decimal_ne_word]), unsigned_decimal,
      if_neg (by simp (disch := decide) [isInfinity, decimal_ne_word]),
      decide_eq_false (head?_decimal_ne d rfl), hr]
  rw [untagged, String.toList_ofList, hempty, isNull_decimal, Bool.or_false, if_neg Bool.false_ne_true,
    flag?_decimal, integer?_decimal, hasNeedlessZero_decimal, if_neg Bool.false_ne_true, hreal]
  rfl

end Decimal

end Resolve
end Yaml
end Retarget
