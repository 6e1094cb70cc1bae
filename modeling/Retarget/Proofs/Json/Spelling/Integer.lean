/-
# Integers as they are spelled

An integer is spelled with a minus sign if it is negative, and with the digits of its
magnitude (`exists_numeral`).  Between `-2^63` and `2^64 - 1` it is read as itself: as a
natural number without the sign, and as a signed integer with it
(`Scalar.value?_of_integer`).  What a scalar is read as depends on its characters alone
(`Scalar.value?_congr`), so this holds of anything that is spelled like an integer.
-/

import Mathlib.Algebra.Group.Int.Defs
import Retarget.Proofs.Json.Spelling.Accepted.Scalar
import Retarget.Proofs.Json.Spelling.Ordinary
import Retarget.Proofs.Number.Digits

namespace Retarget

/-- The value that an integer is read as: it has a sign just if it is negative. -/
def Value.ofInteger (i : Int) : Value := if 0 ≤ i then .unsigned i.toNat else .signed i

/-- The text of an integer has all its digits. -/
theorem Value.scalarText?_ofInteger (i : Int) : (ofInteger i).scalarText? = some (toString i) := by
  cases i <;> rfl

namespace Json

theorem decimal_eq (n : Nat) (ds : List Digit) :
    decimal n ds = Nat.ofDigitChars 10 (digitChars ds) n := by
  induction ds generalizing n with
  | nil => rfl
  | cons d ds ih =>
    rw [decimal_cons, ih, digitChars, digitChars, List.map_cons, Nat.ofDigitChars_cons, Nat.mul_comm]
    rfl

/-- Digits with the knowledge that they are. -/
theorem exists_digitChars {cs : List Char} (h : ∀ c ∈ cs, c.isDigit = true) :
    ∃ ds, digitChars ds = cs := by
  obtain ⟨ds, hds⟩ := exists_digits cs
  have hrest : (cs ++ []).dropWhile Char.isDigit = [] := List.dropWhile_append_of_pos h
  rw [List.append_nil] at hrest
  rw [hrest, List.append_nil] at hds
  exact ⟨ds, hds.symm⟩

/-- Every natural number can stand before a point. -/
theorem exists_whole_of_nat (n : Nat) : ∃ w : Whole, w.chars = Nat.toDigits 10 n ∧ w.number = n := by
  rcases Nat.eq_zero_or_pos n with rfl | hn
  · exact ⟨.zero, rfl, rfl⟩
  · obtain ⟨ds, hds⟩ := exists_digitChars fun c hc => isDigit_of_mem_toDigits (n := n) hc
    cases ds with
    | nil => exact absurd hds.symm Nat.toDigits_ne_nil
    | cons d ds =>
      refine ⟨.positive ⟨d, ds⟩ (head_toDigits_ne_zero hn hds.symm), hds, ?_⟩
      rw [Whole.number, decimal_eq, hds, Nat.ofDigitChars_ten_toDigits]

/-- The characters of an integer: a minus sign if it is negative, and its digits. -/
theorem toList_toString (i : Int) : (toString i).toList =
    (if i < 0 then ['-'] else []) ++ Nat.toDigits 10 i.natAbs := by
  cases i with
  | ofNat n => exact Nat.toList_repr
  | negSucc n =>
    rw [if_pos (Int.negSucc_lt_zero n)]
    change ("-" ++ (n + 1).repr).toList = _
    rw [String.toList_append, Nat.toList_repr]
    rfl

/-- Every integer is spelled by a number without fraction and exponent. -/
theorem exists_numeral (i : Int) : ∃ n : Numeral, n.chars = (toString i).toList ∧
    n.fraction = none ∧ n.exponent = none ∧ n.negative = decide (i < 0) ∧ n.whole.number = i.natAbs := by
  obtain ⟨w, hw, hn⟩ := exists_whole_of_nat i.natAbs
  refine ⟨⟨decide (i < 0), w, none, none⟩, ?_, rfl, rfl, rfl, hn⟩
  rw [toList_toString, ← hw, Numeral.chars, Numeral.body, Numeral.tail]
  by_cases hi : i < 0 <;> simp [hi]

namespace Scalar

/-- **What a scalar is read as depends on its characters alone.** -/
theorem value?_congr {x y : Scalar} (h : x.spell [] = y.spell []) : x.value? = y.value? := by
  have skip (z : Scalar) : skipBlank (z.spell []) = z.spell [] :=
    Spelling.skipBlank_spell (.scalar z) []
  have hx : Reads (value 1 0 (x.spell [])) x.value? [] := Spelling.value_scalar x ends_nil (skip x)
  have hy : Reads (value 1 0 (y.spell [])) y.value? [] := Spelling.value_scalar y ends_nil (skip y)
  rw [h] at hx
  rcases hx.ends with ⟨v, hv, he⟩ | ⟨hv, e, he⟩
  · rcases hy.ends with ⟨w, hw, he'⟩ | ⟨hw, e', he'⟩
    · rw [he, Except.ok.injEq, Prod.mk.injEq] at he'
      rw [hv, hw, he'.1]
    · rw [he] at he'
      cases he'
  · rcases hy.ends with ⟨w, hw, he'⟩ | ⟨hw, e', he'⟩
    · rw [he] at he'
      cases he'
    · rw [hv, hw]

/-- **An integer of 64 bits is read as itself.** -/
theorem value?_of_integer {x : Scalar} {i : Int} (hl : -2 ^ 63 ≤ i) (hu : i < 2 ^ 64)
    (h : x.spell [] = (toString i).toList) :
    x.value? = some (.ofInteger i) := by
  obtain ⟨n, hc, hf, he, hs, hn⟩ := exists_numeral i
  have hx : x.spell [] = (Scalar.number n).spell [] := by
    rw [h, Scalar.spell, hc, List.append_nil]
  have hlt : n.whole.number < Nat.pow 2 64 := by
    change _ < 2 ^ 64
    omega
  rw [value?_congr hx, value?, Numeral.value?_eq_of_number_lt hf he hlt, hs, hn, Value.ofInteger]
  by_cases hi : 0 ≤ i
  · rw [if_pos hi, if_pos (by simp [hi]), show i.natAbs = i.toNat by omega]
  · have hm : 0 < i.natAbs ∧ i.natAbs ≤ Nat.pow 2 63 := by
      change 0 < i.natAbs ∧ i.natAbs ≤ 2 ^ 63
      omega
    have hneg : Int.negOfNat i.natAbs = i := by
      rw [Int.negOfNat_eq, Int.ofNat_eq_natCast]
      omega
    rw [if_neg hi, if_neg (by simp [Int.not_le.1 hi]), if_pos (by simp [hm]), hneg]

end Scalar

end Json
end Retarget
