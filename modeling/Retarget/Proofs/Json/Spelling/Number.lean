/-
# Numbers are read as they are spelled

The reader of numbers works its way through the digits and stops where no number can go
on.  What it makes of a number does therefore not depend on what follows, as long as that
starts with a blank, a comma or a closing bracket (`Ends`).  Each part of the reader is
*steady* on the part of a number that it is for: it reads the same value, or fails, whatever
follows, and it reads to the end of the number and no further.
-/

import Retarget.Proofs.Json.Spelling.Scalar

namespace Retarget
namespace Json

/-- What can follow a value: blanks, a comma, a closing bracket or the end of the text. -/
def Ends (rest : List Char) : Prop :=
  ∀ c ∈ rest.head?, isBlank c = true ∨ c = ',' ∨ c = ']' ∨ c = '\x7d'

theorem ends_nil : Ends [] := by simp [Ends]

theorem ends_gap {rest : List Char} (h : Ends rest) : ∀ g : Gap, Ends (g.spell rest)
  | [] => h
  | b :: g => by simp [Ends, b.isBlank_char]

/-- No digit comes next. -/
def NoDigit (cs : List Char) : Prop := ∀ c ∈ cs.head?, c.isDigit = false

/-- What ends a value does not go on with a number. -/
theorem Ends.ne {rest : List Char} (h : Ends rest) :
    ∀ c ∈ rest.head?, c.isDigit = false ∧ c ≠ '.' ∧ c ≠ 'e' ∧ c ≠ 'E' := by
  intro c hc
  rcases h c hc with h | rfl | rfl | rfl
  · simp only [isBlank, Bool.or_eq_true, decide_eq_true_eq] at h
    rcases h with ((rfl | rfl) | rfl) | rfl <;> decide
  · decide
  · decide
  · decide

theorem Ends.noDigit {rest : List Char} (h : Ends rest) : NoDigit rest := fun c hc => (h.ne c hc).1

/-- The reader reads the same value from the text, or fails, whatever follows it. -/
def Steady (f : List Char → Reading Value) (cs : List Char) : Prop :=
  ∃ v? : Option Value, ∀ rest, Ends rest → Reads (f (cs ++ rest)) v? rest

/-! ### Digits -/

/-- The characters of digits. -/
abbrev digitChars (ds : List Digit) : List Char := ds.map Digit.char

theorem takeWhile_digitChars (ds : List Digit) {tail : List Char} (h : NoDigit tail) :
    (digitChars ds ++ tail).takeWhile Char.isDigit = digitChars ds := by
  have hd : ∀ c ∈ digitChars ds, c.isDigit = true := by
    intro c hc
    obtain ⟨d, -, rfl⟩ := List.mem_map.1 hc
    exact d.isDigit
  rw [List.takeWhile_append_of_pos hd]
  cases tail with
  | nil => simp
  | cons c cs => simp [h c rfl]

theorem dropWhile_digitChars (ds : List Digit) {tail : List Char} (h : NoDigit tail) :
    (digitChars ds ++ tail).dropWhile Char.isDigit = tail := by
  have hd : ∀ c ∈ digitChars ds, c.isDigit = true := by
    intro c hc
    obtain ⟨d, -, rfl⟩ := List.mem_map.1 hc
    exact d.isDigit
  rw [List.dropWhile_append_of_pos hd]
  cases tail with
  | nil => rfl
  | cons c cs => simp [h c rfl]

theorem digitCount_digitChars (ds : List Digit) {tail : List Char} (h : NoDigit tail) :
    digitCount (digitChars ds ++ tail) = ds.length := by
  rw [digitCount, takeWhile_digitChars ds h, List.length_map]

theorem afterDigits_digitChars (ds : List Digit) {tail : List Char} (h : NoDigit tail) :
    afterDigits (digitChars ds ++ tail) = tail :=
  dropWhile_digitChars ds h

/-- Digits are collected as far as they fit; those that do not are left. -/
theorem collect_digitChars (n : Nat) (ds : List Digit) :
    ∃ m k left, (k = 0 → left = ds) ∧ ∀ tail, NoDigit tail →
      collect n (digitChars ds ++ tail) = (m, k, digitChars left ++ tail) := by
  induction ds generalizing n with
  | nil =>
    refine ⟨n, 0, [], fun _ => rfl, fun tail h => ?_⟩
    cases tail with
    | nil => rfl
    | cons c cs => simp [collect, h c rfl]
  | cons d ds ih =>
    by_cases hn : n * 10 + digitValue d.char < Nat.pow 2 64
    · obtain ⟨m, k, left, -, h⟩ := ih (n * 10 + digitValue d.char)
      refine ⟨m, k + 1, left, by simp, fun tail ht => ?_⟩
      simp only [List.map_cons, List.cons_append, collect, d.isDigit, hn, decide_true, Bool.and_self,
        if_true, h tail ht]
    · refine ⟨n, 0, d :: ds, fun _ => rfl, fun tail _ => ?_⟩
      simp only [List.map_cons, List.cons_append, collect, hn, decide_false, Bool.and_false,
        Bool.false_eq_true, if_false]

/-- A digit is not a character that is no digit. -/
theorem Digit.ne (d : Digit) {c : Char} (h : c.isDigit = false) : d.char ≠ c := by
  rintro rfl
  rw [d.isDigit] at h
  cases h

/-- The digits of an exponent are read to their end, or to where they are too many. -/
theorem exponentDigits_digitChars (n : Nat) (ds : List Digit) :
    ∃ m? left, (m?.isSome → left = []) ∧ ∀ tail, NoDigit tail →
      exponentDigits n (digitChars ds ++ tail) = (m?, digitChars left ++ tail) := by
  induction ds generalizing n with
  | nil =>
    refine ⟨some n, [], fun _ => rfl, fun tail h => ?_⟩
    cases tail with
    | nil => rfl
    | cons c cs => simp [exponentDigits, h c rfl]
  | cons d ds ih =>
    by_cases hn : n * 10 + digitValue d.char < Nat.pow 2 31
    · obtain ⟨m?, left, hl, h⟩ := ih (n * 10 + digitValue d.char)
      refine ⟨m?, left, hl, fun tail ht => ?_⟩
      simp only [List.map_cons, List.cons_append, exponentDigits, d.isDigit, hn, if_true, h tail ht]
    · refine ⟨none, ds, by simp, fun tail _ => ?_⟩
      simp only [List.map_cons, List.cons_append, exponentDigits, d.isDigit, hn, if_true, if_false]

/-! ### Parts of a number -/

section Parts

variable (negative : Bool) (n : Nat) (e : Int)

theorem steady_real : Steady (real negative n e) [] := by
  cases h : scaled 4 (.ofNat n) e with
  | none => exact ⟨none, fun rest _ => by simp [real, h, fail, Reads]⟩
  | some x => exact ⟨some (.real (if negative then x.neg else x)), fun rest _ => by
      simp [real, h, Reads]⟩

/-- The exponent after its sign, with or without digits that fit. -/
theorem withExponent_eq {x : Exponent} {rest left : List Char} {m? : Option Nat}
    (h : exponentDigits 0 (x.digits.chars ++ rest) = (m?, left)) :
    withExponent negative n e (x.tail ++ rest) =
      m?.elim
        (if n ≠ 0 && !(x.sign == some true) then fail .numberTooLarge left
          else .ok (.real (.zero negative), afterDigits left))
        fun m => real negative n (if x.sign == some true then e - m else e + m) left := by
  obtain ⟨capital, sign, ⟨d, ds⟩⟩ := x
  have hm : d.char ≠ '-' := d.ne (by decide)
  have hp : d.char ≠ '+' := d.ne (by decide)
  rw [Digits.chars, List.cons_append] at h
  cases m? <;> rcases sign with _ | _ | _ <;>
    simp [withExponent, Exponent.tail, Digits.chars, d.isDigit, hm, hp, h]

theorem steady_withExponent (x : Exponent) : Steady (withExponent negative n e) x.tail := by
  obtain ⟨m?, left, hl, h⟩ := exponentDigits_digitChars 0 (x.digits.first :: x.digits.more)
  cases m? with
  | some m =>
    obtain rfl := hl rfl
    obtain ⟨v?, hv⟩ := steady_real negative n (if x.sign == some true then e - m else e + m)
    refine ⟨v?, fun rest hr => ?_⟩
    rw [withExponent_eq negative n e (h rest hr.noDigit)]
    exact hv rest hr
  | none =>
    refine ⟨if n ≠ 0 && !(x.sign == some true) then none else some (.real (.zero negative)),
      fun rest hr => ?_⟩
    rw [withExponent_eq negative n e (h rest hr.noDigit), Option.elim_none]
    split
    · exact ⟨_, rfl⟩
    · rw [afterDigits_digitChars left hr.noDigit]
      rfl

/-- The exponent of a number, if it has one. -/
abbrev exponentChars (x? : Option Exponent) : List Char :=
  match x? with
  | none => []
  | some x => x.chars

theorem noDigit_exponent (x? : Option Exponent) {rest : List Char} (h : Ends rest) :
    NoDigit (exponentChars x? ++ rest) := by
  cases x? with
  | none => exact h.noDigit
  | some x =>
    rintro c ⟨⟩
    cases x.capital <;> decide

theorem steady_afterFraction (x? : Option Exponent) :
    Steady (afterFraction negative n e) (exponentChars x?) := by
  cases x? with
  | none =>
    obtain ⟨v?, hv⟩ := steady_real negative n e
    refine ⟨v?, fun rest hr => ?_⟩
    have hne := hr.ne
    have hw : afterFraction negative n e rest = real negative n e rest := by
      rw [afterFraction.eq_def]
      split
      · exact absurd rfl (hne 'e' rfl).2.2.1
      · exact absurd rfl (hne 'E' rfl).2.2.2
      · rfl
    rw [List.nil_append, hw]
    exact hv rest hr
  | some x =>
    obtain ⟨v?, hv⟩ := steady_withExponent negative n e x
    refine ⟨v?, fun rest hr => ?_⟩
    rw [exponentChars, Exponent.chars]
    cases x.capital <;> exact hv rest hr

theorem steady_withFraction (ds : Digits) (x? : Option Exponent) :
    Steady (withFraction negative n e) (ds.chars ++ exponentChars x?) := by
  obtain ⟨m, k, left, hk, h⟩ := collect_digitChars n (ds.first :: ds.more)
  obtain ⟨v?, hv⟩ := steady_afterFraction negative m (e - k) x?
  refine ⟨v?, fun rest hr => ?_⟩
  have ht := noDigit_exponent x? hr
  have hz : (k = 0 && digitCount (digitChars left ++ (exponentChars x? ++ rest)) = 0 : Bool) = false := by
    rw [digitCount_digitChars left ht]
    by_cases h0 : k = 0
    · simp [h0, hk h0]
    · simp [h0]
  rw [Digits.chars, ← List.map_cons, List.append_assoc, withFraction, h _ ht]
  simp only [hz, Bool.false_eq_true, if_false, afterDigits_digitChars left ht]
  exact hv rest hr

/-- The fraction and the exponent of a number, if it has them. -/
abbrev tailChars (f? : Option Digits) (x? : Option Exponent) : List Char :=
  (match f? with
  | none => []
  | some ds => '.' :: ds.chars) ++ exponentChars x?

theorem noDigit_tail (f? : Option Digits) (x? : Option Exponent) {rest : List Char} (h : Ends rest) :
    NoDigit (tailChars f? x? ++ rest) := by
  cases f? with
  | none => exact noDigit_exponent x? h
  | some ds => rintro c ⟨⟩; decide

theorem steady_afterWhole (f? : Option Digits) (x? : Option Exponent) :
    Steady (afterWhole negative n) (tailChars f? x?) := by
  cases f? with
  | some ds => exact steady_withFraction negative n 0 ds x?
  | none =>
    cases x? with
    | some x =>
      obtain ⟨v?, hv⟩ := steady_withExponent negative n 0 x
      refine ⟨v?, fun rest hr => ?_⟩
      rw [tailChars, List.nil_append, exponentChars, Exponent.chars]
      cases x.capital <;> exact hv rest hr
    | none =>
      refine ⟨some (if !negative then .unsigned n
        else if 0 < n && n ≤ Nat.pow 2 63 then .signed (Int.negOfNat n)
        else .real (.neg (.ofNat n))), fun rest hr => ?_⟩
      have hne := hr.ne
      change afterWhole negative n rest = _
      rw [afterWhole.eq_def]
      split
      · exact absurd rfl (hne '.' rfl).2.1
      · exact absurd rfl (hne 'e' rfl).2.2.1
      · exact absurd rfl (hne 'E' rfl).2.2.2
      · split
        · rfl
        · split <;> rfl

/-- What is left of a number whose digits before the point do not all fit. -/
def afterLeft (k : Int) : List Char → Reading Value
  | '.' :: rest => withFraction negative n k rest
  | rest => afterFraction negative n k rest

theorem steady_afterLeft (k : Int) (f? : Option Digits) (x? : Option Exponent) :
    Steady (afterLeft negative n k) (tailChars f? x?) := by
  cases f? with
  | some ds => exact steady_withFraction negative n k ds x?
  | none =>
    obtain ⟨v?, hv⟩ := steady_afterFraction negative n k x?
    refine ⟨v?, fun rest hr => ?_⟩
    have hne : ∀ c ∈ (exponentChars x? ++ rest).head?, c ≠ '.' := by
      cases x? with
      | none => exact fun c hc => (hr.ne c hc).2.1
      | some x => rintro c ⟨⟩; cases x.capital <;> decide
    rw [tailChars, List.nil_append, afterLeft.eq_def]
    split
    · rename_i he
      exact absurd rfl (hne '.' (by rw [he]; rfl))
    · exact hv rest hr

end Parts

namespace Numeral

/-- What the reader makes of the number, if that is not too large. -/
def value? (n : Numeral) : Option Value := (number n.negative n.body).toOption.map (·.1)

theorem steady_body (n : Numeral) : Steady (number n.negative) n.body := by
  obtain ⟨negative, whole, f?, x?⟩ := n
  have hb : body ⟨negative, whole, f?, x?⟩ = whole.chars ++ tailChars f? x? := rfl
  rw [hb]
  cases whole with
  | zero =>
    obtain ⟨v?, hv⟩ := steady_afterWhole negative 0 f? x?
    refine ⟨v?, fun rest hr => ?_⟩
    have hd : digitCount (tailChars f? x? ++ rest) = 0 :=
      digitCount_digitChars [] (noDigit_tail f? x? hr)
    rw [Whole.chars, List.singleton_append, List.cons_append, number, if_pos rfl, if_pos hd]
    exact hv rest hr
  | positive ds h0 =>
    obtain ⟨m, k, left, -, h⟩ := collect_digitChars 0 (ds.first :: ds.more)
    have hread (rest : List Char) (hr : Ends rest) :
        number negative (ds.chars ++ tailChars f? x? ++ rest) =
          if left.length = 0 then afterWhole negative m (digitChars left ++ (tailChars f? x? ++ rest))
          else afterLeft negative m left.length (tailChars f? x? ++ rest) := by
      have ht := noDigit_tail f? x? hr
      have hc := h _ ht
      rw [digitChars, List.map_cons, List.cons_append] at hc
      rw [Digits.chars, List.append_assoc, List.cons_append, number, if_neg h0, if_pos ds.first.isDigit,
        hc]
      simp only [digitCount_digitChars left ht, afterDigits_digitChars left ht]
      rfl
    by_cases hl : left.length = 0
    · obtain ⟨v?, hv⟩ := steady_afterWhole negative m f? x?
      refine ⟨v?, fun rest hr => ?_⟩
      rw [Whole.chars, hread rest hr, if_pos hl, List.length_eq_zero_iff.1 hl]
      exact hv rest hr
    · obtain ⟨v?, hv⟩ := steady_afterLeft negative m left.length f? x?
      refine ⟨v?, fun rest hr => ?_⟩
      rw [Whole.chars, hread rest hr, if_neg hl]
      exact hv rest hr

/-- **A number is read as it is spelled**, whatever follows it. -/
theorem number_body (n : Numeral) {rest : List Char} (h : Ends rest) :
    Reads (number n.negative (n.body ++ rest)) n.value? rest := by
  obtain ⟨v?, hv⟩ := n.steady_body
  have he : n.value? = v? := by
    have h0 := hv [] ends_nil
    rw [List.append_nil] at h0
    rcases h0.ends with ⟨v, rfl, h0⟩ | ⟨rfl, e, h0⟩
    · rw [value?, h0]; rfl
    · rw [value?, h0]; rfl
  rw [he]
  exact hv rest h

/-- A number starts with a digit after its sign. -/
theorem exists_body_eq_cons (n : Numeral) : ∃ (d : Digit) (cs : List Char), n.body = d.char :: cs := by
  obtain ⟨negative, whole, f?, x?⟩ := n
  cases whole with
  | zero => exact ⟨⟨'0', by decide⟩, _, rfl⟩
  | positive ds h0 => exact ⟨ds.first, _, rfl⟩

/-- The number with its sign, if it has one. -/
theorem chars_eq (n : Numeral) : n.negative = true ∧ n.chars = '-' :: n.body ∨
    n.negative = false ∧ n.chars = n.body := by
  cases h : n.negative <;> simp [chars, h]

end Numeral

/-! ### Scalars -/

namespace Scalar

/-- What the reader makes of the scalar, if it can be read. -/
def value? : Scalar → Option Value
  | null => some .null
  | flag b => some (.flag b)
  | number n => n.value?
  | text l => l.text?.map .text

/-- A scalar starts with a sign that is neither a blank nor a comma nor a bracket; and with
a quote or the letter of a word only if it is a text or that word. -/
theorem exists_spell_eq_cons (s : Scalar) (rest : List Char) :
    ∃ c cs, s.spell rest = c :: cs ∧ isBlank c = false ∧
      (∀ d ∈ ['[', ']', '\x7b', '\x7d', ','], c ≠ d) ∧ (c = 'n' → s = null) ∧
        (c = '"' → ∃ l, s = text l) ∧ (c = 't' ∨ c = 'f' → ∃ b, s = flag b) := by
  have digit (d : Digit) : isBlank d.char = false ∧
      (∀ c ∈ ['[', ']', '\x7b', '\x7d', ','], d.char ≠ c) := by
    constructor
    · simp [isBlank, d.ne (c := ' ') rfl, d.ne (c := '\t') rfl, d.ne (c := '\n') rfl,
        d.ne (c := '\r') rfl]
    · simp [d.ne (c := '[') rfl, d.ne (c := ']') rfl, d.ne (c := '\x7b') rfl,
        d.ne (c := '\x7d') rfl, d.ne (c := ',') rfl]
  cases s with
  | null => exact ⟨_, _, rfl, rfl, by simp, by simp, by simp, by simp⟩
  | flag b => cases b <;> exact ⟨_, _, rfl, rfl, by simp, by simp, by simp, by simp⟩
  | text l => exact ⟨_, _, rfl, rfl, by simp, by simp, by simp, by simp⟩
  | number n =>
    rcases n.chars_eq with ⟨-, hc⟩ | ⟨-, hc⟩
    · exact ⟨'-', n.body ++ rest, by rw [spell, hc, List.cons_append], rfl, by simp,
        by simp, by simp, by simp⟩
    · obtain ⟨d, cs, hb⟩ := n.exists_body_eq_cons
      exact ⟨d.char, cs ++ rest, by rw [spell, hc, hb, List.cons_append], (digit d).1, (digit d).2,
        fun h => absurd h (d.ne rfl), fun h => absurd h (d.ne rfl),
        fun h => absurd h (not_or.2 ⟨d.ne rfl, d.ne rfl⟩)⟩

end Scalar

end Json
end Retarget
