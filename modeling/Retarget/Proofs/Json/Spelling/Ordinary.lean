/-
# Values that can always be buffered

What is buffered is read whole, so that a half of a character or a number that is too large
makes the reading fail even where nobody looks at it.  Nothing of that kind is in an
*ordinary* value: it is made of null, flags, integers of 64 bits, texts, lists and objects,
and nests no deeper than the levels allow.
-/

import Retarget.Proofs.Json.Spelling.Value

namespace Retarget
namespace Json

/-! ### Integers -/

/-- The number that the digits write, behind those of `n`. -/
def decimal (n : Nat) (ds : List Digit) : Nat := ds.foldl (fun n d => n * 10 + digitValue d.char) n

theorem decimal_cons (n : Nat) (d : Digit) (ds : List Digit) :
    decimal n (d :: ds) = decimal (n * 10 + digitValue d.char) ds := by
  rw [decimal, List.foldl_cons, decimal]

theorem le_decimal (n : Nat) (ds : List Digit) : n ≤ decimal n ds := by
  induction ds generalizing n with
  | nil => exact Nat.le_of_eq rfl
  | cons d ds ih =>
    have := ih (n * 10 + digitValue d.char)
    rw [decimal_cons]
    omega

/-- All digits of a number below `2^64` are collected. -/
theorem collect_eq_decimal {n : Nat} {ds : List Digit} {tail : List Char} (ht : NoDigit tail)
    (h : decimal n ds < Nat.pow 2 64) :
    collect n (digitChars ds ++ tail) = (decimal n ds, ds.length, tail) := by
  induction ds generalizing n with
  | nil =>
    cases tail with
    | nil => rfl
    | cons c cs => simp [collect, ht c rfl, decimal]
  | cons d ds ih =>
    have hn : n * 10 + digitValue d.char < Nat.pow 2 64 := Nat.lt_of_le_of_lt (le_decimal _ ds) h
    rw [decimal_cons] at h ⊢
    simp only [digitChars, List.map_cons, List.cons_append, collect, d.isDigit, hn, decide_true,
      Bool.and_self, if_true]
    rw [ih h]
    rfl

/-- The number that is written before the point. -/
def Whole.number : Whole → Nat
  | zero => 0
  | positive ds _ => decimal 0 (ds.first :: ds.more)

/-- The number is an integer of 64 bits, with a sign or without one. -/
structure Numeral.IsInteger (n : Numeral) : Prop where
  fraction_eq : n.fraction = none
  exponent_eq : n.exponent = none
  number_lt : n.whole.number < Nat.pow 2 64
  negative_le : n.negative = true → n.whole.number ≤ Nat.pow 2 63

theorem afterWhole_nil (negative : Bool) (n : Nat) :
    afterWhole negative n [] = .ok (if !negative then .unsigned n
      else if 0 < n && n ≤ Nat.pow 2 63 then .signed (Int.negOfNat n)
      else .real (.neg (.ofNat n)), []) := by
  rw [afterWhole]
  · split
    · rfl
    · split <;> rfl
  all_goals simp

/-- What the digits of a whole number below `2^64` come to. -/
theorem Whole.number_chars {w : Whole} (h : w.number < Nat.pow 2 64) (negative : Bool) :
    Json.number negative w.chars = afterWhole negative w.number [] := by
  cases w with
  | zero => rfl
  | positive ds h0 =>
    have hc := collect_eq_decimal ends_nil.noDigit h
    rw [digitChars, List.map_cons, List.append_nil] at hc
    rw [Whole.chars, Digits.chars, Json.number, if_neg h0, if_pos ds.first.isDigit, hc]
    dsimp only
    rw [digitCount, List.takeWhile_nil, List.length_nil, if_pos rfl, Whole.number]

/-- A number without fraction and exponent that is below `2^64` keeps all its digits. -/
theorem Numeral.value?_eq_of_number_lt {n : Numeral} (hf : n.fraction = none) (he : n.exponent = none)
    (h : n.whole.number < Nat.pow 2 64) : n.value? = some (if !n.negative then .unsigned n.whole.number
      else if 0 < n.whole.number && n.whole.number ≤ Nat.pow 2 63 then
        .signed (Int.negOfNat n.whole.number)
      else .real (.neg (.ofNat n.whole.number))) := by
  have hb : n.body = n.whole.chars := by
    rw [Numeral.body, Numeral.tail, hf, he, List.append_nil, List.append_nil]
  rw [Numeral.value?, hb, Whole.number_chars h, afterWhole_nil, Except.toOption, Option.map_some]

theorem Numeral.IsInteger.isSome_value? {n : Numeral} (h : n.IsInteger) : n.value?.isSome := by
  rw [Numeral.value?_eq_of_number_lt h.fraction_eq h.exponent_eq h.number_lt]
  rfl

/-! ### What can be buffered -/

theorem isSome_mapM_iff {α β : Type} {f : α → Option β} {xs : List α} :
    (xs.mapM f).isSome ↔ ∀ x ∈ xs, (f x).isSome := by
  induction xs with
  | nil => simp
  | cons x xs ih =>
    rw [List.mapM_cons, List.forall_mem_cons, ← ih]
    cases f x with
    | none => simp
    | some y => cases xs.mapM f <;> simp

namespace Spelling

theorem isSome_value?_list {inner : Gap} {xs : List (Spaced Spelling)} {levels : Nat} :
    ((list inner xs).value? (levels + 1)).isSome ↔ ∀ x ∈ xs, (x.value.value? levels).isSome := by
  rw [value?, deeper, Option.isSome_map, values?_eq_mapM, isSome_mapM_iff]

theorem isSome_memberValues?_iff {ms : List (Spaced Literal × Spaced Spelling)} {levels : Nat} :
    (memberValues? ms levels).isSome ↔
      ∀ m ∈ ms, m.1.value.text?.isSome ∧ (m.2.value.value? levels).isSome := by
  induction ms with
  | nil => simp [memberValues?]
  | cons m ms ih =>
    obtain ⟨⟨b, l, a⟩, ⟨b', v, a'⟩⟩ := m
    rw [List.forall_mem_cons, ← ih, memberValues?]
    cases l.text? with
    | none => simp
    | some key =>
      cases v.value? levels with
      | none => simp
      | some x => cases memberValues? ms levels <;> simp

theorem isSome_value?_object {inner : Gap} {ms : List (Spaced Literal × Spaced Spelling)}
    {levels : Nat} : ((object inner ms).value? (levels + 1)).isSome ↔
      ∀ m ∈ ms, m.1.value.text?.isSome ∧ (m.2.value.value? levels).isSome := by
  rw [value?, deeper, Option.isSome_map, isSome_memberValues?_iff]

end Spelling

/-! ### Ordinary values -/

/-- The value is made of null, flags, integers of 64 bits, texts, lists and objects, and nests
no deeper than so many levels. -/
inductive Ordinary : (levels : Nat) → Spelling → Prop where
  | null {levels : Nat} : Ordinary levels (.scalar .null)
  | flag {levels : Nat} (b : Bool) : Ordinary levels (.scalar (.flag b))
  | integer {levels : Nat} {n : Numeral} (h : n.IsInteger) : Ordinary levels (.scalar (.number n))
  | text {levels : Nat} {l : Literal} (h : l.text?.isSome) : Ordinary levels (.scalar (.text l))
  | list {levels : Nat} {inner : Gap} {xs : List (Spaced Spelling)}
      (h : ∀ x ∈ xs, Ordinary levels x.value) : Ordinary (levels + 1) (.list inner xs)
  | object {levels : Nat} {inner : Gap} {ms : List (Spaced Literal × Spaced Spelling)}
      (keys : ∀ m ∈ ms, m.1.value.text?.isSome) (h : ∀ m ∈ ms, Ordinary levels m.2.value) :
      Ordinary (levels + 1) (.object inner ms)

/-- **An ordinary value can be buffered.** -/
theorem Ordinary.isSome_value? {levels : Nat} {v : Spelling} (h : Ordinary levels v) :
    (v.value? levels).isSome := by
  induction h with
  | null => rfl
  | flag b => rfl
  | integer h => exact h.isSome_value?
  | text h => rwa [Spelling.value?, Scalar.value?, Option.isSome_map]
  | list _ ih => exact Spelling.isSome_value?_list.2 ih
  | object keys _ ih => exact Spelling.isSome_value?_object.2 fun m hm => ⟨keys m hm, ih m hm⟩

end Json
end Retarget
