/-
# Spellings of what is not a text

Without quotes some texts would be read as something else.  They are *special*:

    special    =  "" | "~" | "null" | "Null" | "NULL"
               |  "true" | "True" | "TRUE" | "false" | "False" | "FALSE"
               |  ".nan" | ".NaN" | ".NAN"
               |  [ "+" | "-" ] magnitude
    magnitude  =  whole | ".inf" | ".Inf" | ".INF" | decimal
    whole      =  digits | "0x" digits | "0o" digits | "0b" digits
    decimal    =  [ digits ] [ "." [ digits ] ] [ ( "e" | "E" ) [ "+" | "-" ] digits ]

The digits are those of the base; a whole number has at most 128 bits, a decimal has a digit before
its exponent and lies within the range of floating-point numbers, and neither is made of several
digits after a needless zero.

A plain scalar means something else than its text exactly if it is special
(`Resolve.isText_untagged_eq_false_iff`).  There are no spaces, breaks or quotes in special texts,
so they stand in single quotes as they are, and that is how they are written
(`Written.style_of_special`).
-/

import Retarget.Proofs.Text
import Retarget.Proofs.Yaml.Scalar.Decimal
import Retarget.Proofs.Yaml.Scalar.Style

namespace Retarget
namespace Yaml
namespace Resolve

/-! ### The grammar -/

/-- What may stand before a number. -/
def signs : List (List Char) := [[], ['+'], ['-']]

/-- What may stand before the digits of a whole number, and their base. -/
def bases : List (List Char × Nat) := [([], 10), (['0', 'x'], 16), (['0', 'o'], 8), (['0', 'b'], 2)]

/-- Where whole numbers are too wide, without or with a minus sign. -/
def wholeLimit (negative : Bool) : Nat := if negative then Nat.pow 2 127 + 1 else Nat.pow 2 128

/-- A point with the digits behind it, or nothing. -/
inductive IsPoint : List Char → (fraction : List Char) → Prop
  | none : IsPoint [] []
  | some {fraction : List Char} (h : ∀ c ∈ fraction, c.isDigit = true) :
      IsPoint ('.' :: fraction) fraction

/-- An exponent, or nothing. -/
inductive IsPower : List Char → (exponent : Int) → Prop
  | none : IsPower [] 0
  | some {e : Char} {sign ds : List Char} {n : Nat} (he : e = 'e' ∨ e = 'E') (hs : sign ∈ signs)
      (hn : number? 10 ds = some n) :
      IsPower (e :: (sign ++ ds)) (if sign = ['-'] then -n else n)

/-- The digits of a decimal before and behind its point, and its exponent. -/
structure IsDecimal (cs whole fraction : List Char) (exponent : Int) : Prop where
  spelled : ∃ point power, cs = whole ++ (point ++ power) ∧ IsPoint point fraction ∧
    IsPower power exponent
  isDigit : ∀ c ∈ whole, c.isDigit = true
  hasDigit : whole ++ fraction ≠ []

/-- A number without its sign. -/
inductive Magnitude (negative : Bool) : List Char → Prop
  | whole {mark ds : List Char} {base n : Nat} (hb : (mark, base) ∈ bases)
      (hd : number? base ds = some n) (hz : hasNeedlessZero (mark ++ ds) = false)
      (hn : n < wholeLimit negative) : Magnitude negative (mark ++ ds)
  | infinity {w : String} (h : w ∈ [".inf", ".Inf", ".INF"]) : Magnitude negative w.toList
  | decimal {cs whole fraction : List Char} {exponent : Int} {n : Nat}
      (h : IsDecimal cs whole fraction exponent) (hz : hasNeedlessZero cs = false)
      (hn : digits? 10 0 (whole ++ fraction) = some n)
      (hf : (Binary64.ofDecimal negative n (exponent - fraction.length)).isFinite = true) :
      Magnitude negative cs

/-- The spelling of something else than a text. -/
inductive Special : List Char → Prop
  | null {w : String} (h : w ∈ ["", "~", "null", "Null", "NULL"]) : Special w.toList
  | flag {w : String} (h : w ∈ ["true", "True", "TRUE", "false", "False", "FALSE"]) :
      Special w.toList
  | nan {w : String} (h : w ∈ [".nan", ".NaN", ".NAN"]) : Special w.toList
  | number {sign cs : List Char} (hs : sign ∈ signs) (h : Magnitude (sign = ['-']) cs) :
      Special (sign ++ cs)

/-! ### Signs -/

variable {cs ds sign : List Char} {n base : Nat} {negative : Bool}

/-- What is left behind a sign, if there is one. -/
theorem exists_sign (cs : List Char) : ∃ sign ∈ signs, cs = sign ++ unsigned cs ∧
    (cs.head? = some '-' ↔ sign = ['-']) := by
  cases cs with
  | nil => exact ⟨[], by decide, rfl, by simp⟩
  | cons c cs =>
    by_cases hp : c = '+'
    · exact ⟨['+'], by decide, by simp [hp, unsigned, isSigned, isSign], by simp [hp]⟩
    · by_cases hm : c = '-'
      · exact ⟨['-'], by decide, by simp [hm, unsigned, isSigned, isSign], by simp [hm]⟩
      · exact ⟨[], by decide, by simp [hp, hm, unsigned, isSigned, isSign], by simp [hm]⟩

theorem unsigned_append (hs : sign ∈ signs) (hc : isSigned cs = false) :
    unsigned (sign ++ cs) = cs := by
  simp only [signs, List.mem_cons, List.not_mem_nil, or_false] at hs
  obtain rfl | rfl | rfl := hs
  · rw [List.nil_append, unsigned, hc, if_neg Bool.false_ne_true]
  · rfl
  · rfl

theorem head?_append_eq_minus_iff (hs : sign ∈ signs) (hc : isSigned cs = false) :
    (sign ++ cs).head? = some '-' ↔ sign = ['-'] := by
  simp only [signs, List.mem_cons, List.not_mem_nil, or_false] at hs
  obtain rfl | rfl | rfl := hs
  · have : cs.head? ≠ some '-' := by
      intro h
      rw [isSigned, h] at hc
      exact absurd hc (by decide)
    simpa using this
  · simp
  · simp

/-- A needless zero stands behind the sign. -/
theorem hasNeedlessZero_append (hs : sign ∈ signs) (hc : isSigned cs = false) :
    hasNeedlessZero (sign ++ cs) = hasNeedlessZero cs := by
  have hu : unsigned ([] ++ cs) = cs := unsigned_append (by decide) hc
  rw [List.nil_append] at hu
  rw [hasNeedlessZero, hasNeedlessZero, unsigned_append hs hc, hu]

/-! ### Whole numbers -/

theorem number?_eq_some_iff : number? base cs = some n ↔ cs ≠ [] ∧ digits? base 0 cs = some n := by
  rw [number?]
  cases cs <;> simp

/-- A sign is a digit of no base. -/
theorem digit?_of_isSign {c : Char} (h : isSign c = true) : digit? base c = none := by
  simp only [isSign, Bool.or_eq_true, decide_eq_true_eq] at h
  obtain rfl | rfl := h <;> simp [digit?]

/-- The digits of a number have no sign before them. -/
theorem isSigned_of_number? (h : number? base cs = some n) : isSigned cs = false := by
  obtain ⟨hne, hd⟩ := number?_eq_some_iff.1 h
  obtain ⟨c, cs, rfl⟩ := List.exists_cons_of_ne_nil hne
  by_contra hs
  have hc : isSign c = true := by simpa [isSigned] using hs
  rw [digits?_eq_none (digit?_of_isSign hc) (List.mem_cons_self ..)] at hd
  cases hd

/-- A text with a base in front is no number in base ten. -/
theorem number?_ten_of_base? {p : Nat × List Char} (h : base? cs = some p) :
    number? 10 cs = none := by
  have hletter : ∃ c ∈ cs, digit? 10 c = none := by
    rw [base?.eq_def] at h
    split at h
    · exact ⟨'x', by simp, rfl⟩
    · exact ⟨'o', by simp, rfl⟩
    · exact ⟨'b', by simp, rfl⟩
    · cases h
  obtain ⟨c, hc, hd⟩ := hletter
  rw [number?, digits?_eq_none hd hc, ite_self]

theorem base?_eq_some_iff : base? cs = some (base, ds) ↔
    ∃ mark, mark ≠ [] ∧ (mark, base) ∈ bases ∧ cs = mark ++ ds := by
  constructor
  · intro h
    rw [base?.eq_def] at h
    split at h
    · obtain ⟨rfl, rfl⟩ := Prod.mk.inj (Option.some.inj h)
      exact ⟨['0', 'x'], by decide, by decide, rfl⟩
    · obtain ⟨rfl, rfl⟩ := Prod.mk.inj (Option.some.inj h)
      exact ⟨['0', 'o'], by decide, by decide, rfl⟩
    · obtain ⟨rfl, rfl⟩ := Prod.mk.inj (Option.some.inj h)
      exact ⟨['0', 'b'], by decide, by decide, rfl⟩
    · cases h
  · rintro ⟨mark, hne, hb, rfl⟩
    simp only [bases, List.mem_cons, List.not_mem_nil, or_false, Prod.mk.injEq] at hb
    obtain ⟨rfl, rfl⟩ | ⟨rfl, rfl⟩ | ⟨rfl, rfl⟩ | ⟨rfl, rfl⟩ := hb
    · exact absurd rfl hne
    · rfl
    · rfl
    · rfl

/-- No zero is needless before a letter. -/
theorem hasNeedlessZero_of_base? {p : Nat × List Char} (h : base? cs = some p) :
    hasNeedlessZero cs = false := by
  rw [base?.eq_def] at h
  split at h
  · rfl
  · rfl
  · rfl
  · cases h

/-- **A natural number is spelled in one of the bases.** -/
theorem natural?_eq_some_iff : natural? cs = some n ↔ hasNeedlessZero cs = false ∧
    ∃ mark base ds, (mark, base) ∈ bases ∧ cs = mark ++ ds ∧ number? base ds = some n := by
  rw [natural?]
  cases hbase : base? cs with
  | some p =>
    obtain ⟨base, ds⟩ := p
    have hz := hasNeedlessZero_of_base? hbase
    dsimp only
    constructor
    · intro h
      obtain ⟨mark, -, hb, rfl⟩ := base?_eq_some_iff.1 hbase
      exact ⟨hz, mark, base, ds, hb, rfl, h⟩
    · rintro ⟨-, mark, base', ds', hb, rfl, hn⟩
      by_cases hm : mark = []
      · -- without a mark the base would be ten
        obtain rfl : base' = 10 := by simpa [hm, bases] using hb
        rw [hm, List.nil_append] at hbase
        rw [number?_ten_of_base? hbase] at hn
        cases hn
      · have he : base? (mark ++ ds') = some (base', ds') :=
          base?_eq_some_iff.2 ⟨mark, hm, hb, rfl⟩
        obtain ⟨rfl, rfl⟩ := Prod.mk.inj (Option.some.inj (hbase.symm.trans he))
        exact hn
  | none =>
    dsimp only
    constructor
    · intro h
      split at h
      · cases h
      · rename_i hz
        exact ⟨Bool.eq_false_iff.2 hz, [], 10, cs, by decide, rfl, h⟩
    · rintro ⟨hz, mark, base, ds, hb, rfl, hn⟩
      by_cases hm : mark = []
      · obtain rfl : base = 10 := by simpa [hm, bases] using hb
        rw [if_neg (by simp [hz])]
        simpa [hm] using hn
      · rw [base?_eq_some_iff.2 ⟨mark, hm, hb, rfl⟩] at hbase
        cases hbase

/-- A natural number has no sign. -/
theorem isSigned_of_natural? (h : natural? cs = some n) : isSigned cs = false := by
  obtain ⟨-, mark, base, ds, hb, rfl, hn⟩ := natural?_eq_some_iff.1 h
  simp only [bases, List.mem_cons, List.not_mem_nil, or_false, Prod.mk.injEq] at hb
  obtain ⟨rfl, rfl⟩ | ⟨rfl, rfl⟩ | ⟨rfl, rfl⟩ | ⟨rfl, rfl⟩ := hb
  · exact isSigned_of_number? hn
  · rfl
  · rfl
  · rfl

/-- The sign of an integer stands before its natural number. -/
theorem integer?_eq (cs : List Char) :
    integer? cs = (natural? (unsigned cs)).map fun n => (decide (cs.head? = some '-'), n) := by
  cases cs with
  | nil => rfl
  | cons c cs =>
    by_cases hm : c = '-'
    · subst hm
      rfl
    · by_cases hp : c = '+'
      · subst hp
        rfl
      · simp [integer?, unpositive, unsigned, isSigned, isSign, hm, hp]

/-- A whole number means one up to the limit of its sign. -/
theorem isSome_wholeMeaning? : (wholeMeaning? (negative, n)).isSome = true ↔
    n < wholeLimit negative := by
  have h1 : Nat.pow 2 64 ≤ Nat.pow 2 128 := by decide +kernel
  have h2 : Nat.pow 2 63 ≤ Nat.pow 2 127 := by decide +kernel
  cases negative with
  | false =>
    rw [wholeMeaning?.eq_1, wholeLimit, if_neg Bool.false_ne_true]
    split
    · exact iff_of_true rfl (by omega)
    · split
      · exact iff_of_true rfl (by omega)
      · exact iff_of_false Bool.false_ne_true (by omega)
  | true =>
    rw [wholeMeaning?.eq_2, wholeLimit, if_pos rfl]
    split
    · exact iff_of_true rfl (by omega)
    · split
      · exact iff_of_true rfl (by omega)
      · exact iff_of_false Bool.false_ne_true (by omega)

/-- **What means a whole number.** -/
theorem isSome_whole_iff : ((integer? cs).bind wholeMeaning?).isSome = true ↔
    ∃ n, natural? (unsigned cs) = some n ∧ n < wholeLimit (cs.head? = some '-') := by
  rw [integer?_eq]
  cases natural? (unsigned cs) with
  | none => simp
  | some n => simp [isSome_wholeMeaning?]

/-! ### Decimals -/

/-- The exponent of a decimal, if nothing else is left of it. -/
def power? : List Char → Option Int
  | [] => some 0
  | e :: ds =>
    if e = 'e' || e = 'E' then
      (number? 10 (unsigned ds)).map fun n : Nat => if ds.head? = some '-' then -(n : Int) else n
    else none

/-- The digits behind a point, and what is left behind them. -/
def afterPoint (cs : List Char) : List Char × List Char :=
  if cs.head? = some '.' then (cs.tail.takeWhile Char.isDigit, cs.tail.dropWhile Char.isDigit)
  else ([], cs)

/-- What is left behind the digits is read as the exponent. -/
theorem match_power (whole fraction cs : List Char) :
    (match cs with
    | [] => some (whole, fraction, 0)
    | e :: ds =>
      if e = 'e' || e = 'E' then
        (number? 10 (unsigned ds)).map fun n =>
          (whole, fraction, if ds.head? = some '-' then -n else n)
      else none : Option (List Char × List Char × Int)) =
      (power? cs).map fun x => (whole, fraction, x) := by
  cases cs with
  | nil => rfl
  | cons e ds =>
    rw [power?]
    dsimp only
    split
    · cases number? 10 (unsigned ds) <;> rfl
    · rfl

/-- A decimal is read in three parts. -/
theorem decimal?_eq (cs : List Char) :
    decimal? cs =
      if (cs.takeWhile Char.isDigit).isEmpty && (afterPoint (cs.dropWhile Char.isDigit)).1.isEmpty
      then none
      else (power? (afterPoint (cs.dropWhile Char.isDigit)).2).map fun x =>
        (cs.takeWhile Char.isDigit, (afterPoint (cs.dropWhile Char.isDigit)).1, x) := by
  by_cases h : (cs.dropWhile Char.isDigit).head? = some '.'
  · simp only [decimal?, afterPoint, h, if_true]
    split
    · rfl
    · exact match_power _ _ _
  · simp only [decimal?, afterPoint, h, if_false]
    split
    · rfl
    · exact match_power _ _ _

/-- No digit and no point starts an exponent. -/
theorem IsPower.head? {x : Int} (h : IsPower cs x) : ∀ c ∈ cs.head?, c = 'e' ∨ c = 'E' := by
  cases h with
  | none => exact nofun
  | some he _ _ =>
    rintro c ⟨⟩
    exact he

theorem power?_eq_some_iff {x : Int} : power? cs = some x ↔ IsPower cs x := by
  constructor
  · intro h
    cases cs with
    | nil =>
      obtain rfl := Option.some.inj h
      exact .none
    | cons e ds =>
      rw [power?] at h
      split at h
      · rename_i he
        obtain ⟨n, hn, rfl⟩ := Option.map_eq_some_iff.1 h
        obtain ⟨sign, hs, hds, hm⟩ := exists_sign ds
        have hp := IsPower.some (by simpa using he) hs hn
        rw [← hds] at hp
        simpa only [hm] using hp
      · cases h
  · intro h
    cases h with
    | none => rfl
    | @some e sign ds n he hs hn =>
      have hd := isSigned_of_number? hn
      rw [power?, if_pos (by simpa using he), unsigned_append hs hd, hn]
      simp only [Option.map_some, head?_append_eq_minus_iff hs hd]

/-- What stands behind the digits of a decimal does not start with one, and only a point makes it
longer. -/
theorem head?_point_power {point power fraction : List Char} {x : Int} (hp : IsPoint point fraction)
    (hx : IsPower power x) : ∀ c ∈ (point ++ power).head?, ¬ c.isDigit = true := by
  cases hp with
  | some _ =>
    rintro c ⟨⟩
    decide
  | none =>
    intro c hc
    obtain rfl | rfl := hx.head? c hc <;> decide

/-- A point is read with its digits, and the exponent is left. -/
theorem afterPoint_eq {point power fraction : List Char} {x : Int} (hp : IsPoint point fraction)
    (hx : IsPower power x) : afterPoint (point ++ power) = (fraction, power) := by
  have hd : ∀ c ∈ power.head?, ¬ c.isDigit = true := head?_point_power .none hx
  cases hp with
  | some h =>
    rw [afterPoint, List.cons_append, List.head?_cons, if_pos rfl, List.tail_cons,
      Text.takeWhile_append_of_head? h hd, Text.dropWhile_append_of_head? h hd]
  | none =>
    have hn : power.head? ≠ some '.' := fun h => by
      obtain h | h := hx.head? _ h <;> cases h
    rw [afterPoint, List.nil_append, if_neg hn]

theorem exists_afterPoint (cs : List Char) :
    ∃ point, cs = point ++ (afterPoint cs).2 ∧ IsPoint point (afterPoint cs).1 := by
  rw [afterPoint]
  split
  · rename_i h
    cases cs with
    | nil => cases h
    | cons c cs =>
      obtain rfl := Option.some.inj h
      refine ⟨'.' :: cs.takeWhile Char.isDigit, ?_, .some fun c hc => List.mem_takeWhile_imp hc⟩
      rw [List.cons_append, List.tail_cons, List.takeWhile_append_dropWhile]
  · exact ⟨[], rfl, .none⟩

/-- **The digits and the exponent of a decimal are read off.** -/
theorem decimal?_eq_some_iff {whole fraction : List Char} {exponent : Int} :
    decimal? cs = some (whole, fraction, exponent) ↔ IsDecimal cs whole fraction exponent := by
  rw [decimal?_eq]
  constructor
  · intro h
    split at h
    · cases h
    · rename_i hne
      obtain ⟨x, hx, he⟩ := Option.map_eq_some_iff.1 h
      obtain ⟨rfl, rfl, rfl⟩ : _ ∧ _ ∧ _ := by simpa using he
      obtain ⟨point, hcs, hp⟩ := exists_afterPoint (cs.dropWhile Char.isDigit)
      refine ⟨⟨point, _, ?_, hp, power?_eq_some_iff.1 hx⟩,
        fun c hc => List.mem_takeWhile_imp hc, ?_⟩
      · rw [← hcs, List.takeWhile_append_dropWhile]
      · simpa using hne
  · rintro ⟨⟨point, power, rfl, hp, hx⟩, hw, hne⟩
    have hd := head?_point_power hp hx
    rw [Text.takeWhile_append_of_head? hw hd, Text.dropWhile_append_of_head? hw hd,
      afterPoint_eq hp hx, if_neg (by simpa using hne), power?_eq_some_iff.2 hx]
    rfl

/-- A decimal starts with a digit or a point. -/
theorem IsDecimal.isSigned {whole fraction : List Char} {exponent : Int}
    (h : IsDecimal cs whole fraction exponent) : isSigned cs = false := by
  obtain ⟨⟨point, power, rfl, hp, -⟩, hw, hne⟩ := h
  cases whole with
  | cons c whole => exact isSign_of_isDigit (hw c (List.mem_cons_self ..))
  | nil =>
    cases hp with
    | none => exact absurd rfl hne
    | some _ => rfl

theorem finite?_isSome_iff : (finite? negative cs).isSome = true ↔
    ∃ whole fraction exponent n, IsDecimal cs whole fraction exponent ∧
      digits? 10 0 (whole ++ fraction) = some n ∧
      (Binary64.ofDecimal negative n (exponent - fraction.length)).isFinite = true := by
  rw [finite?]
  cases hd : decimal? cs with
  | none =>
    refine iff_of_false Bool.false_ne_true ?_
    rintro ⟨whole, fraction, exponent, n, h, -⟩
    rw [decimal?_eq_some_iff.2 h] at hd
    cases hd
  | some p =>
    obtain ⟨whole, fraction, exponent⟩ := p
    dsimp only
    constructor
    · intro h
      cases hn : digits? 10 0 (whole ++ fraction) with
      | none =>
        rw [hn] at h
        cases h
      | some n =>
        rw [hn] at h
        dsimp only at h
        split at h
        · rename_i hf
          exact ⟨whole, fraction, exponent, n, decimal?_eq_some_iff.1 hd, hn, hf⟩
        · cases h
    · rintro ⟨whole', fraction', exponent', n, h, hn, hf⟩
      obtain ⟨rfl, rfl, rfl⟩ : whole' = whole ∧ fraction' = fraction ∧ exponent' = exponent := by
        simpa using (decimal?_eq_some_iff.2 h).symm.trans hd
      rw [hn]
      dsimp only
      rw [if_pos hf]
      rfl

/-! ### What is not a text -/

/-- The ways in which a plain scalar means something else. -/
theorem isText_untagged_cases {s : String} : (untagged s).isText = false ↔
    (s.isEmpty || isNull s) = true ∨ (flag? s).isSome = true ∨
      ((integer? s.toList).bind wholeMeaning?).isSome = true ∨
      hasNeedlessZero s.toList = false ∧ (real? s.toList).isSome = true := by
  rw [untagged]
  split
  · rename_i he
    exact iff_of_true rfl (.inl he)
  · rename_i he
    split
    · rename_i b hb
      exact iff_of_true rfl (.inr (.inl (by rw [hb]; rfl)))
    · rename_i hb
      split
      · rename_i m hm
        obtain ⟨w, -, hw⟩ := Option.bind_eq_some_iff.1 hm
        have htext : m.isText = false := by
          obtain ⟨n, rfl⟩ | ⟨i, rfl⟩ | ⟨i, rfl⟩ := eq_of_wholeMeaning? hw <;> rfl
        exact iff_of_true htext (.inr (.inr (.inl (by rw [hm]; rfl))))
      · rename_i hm
        split
        · rename_i x hx
          split at hx
          · cases hx
          · rename_i hz
            exact iff_of_true rfl
              (.inr (.inr (.inr ⟨Bool.eq_false_iff.2 hz, by rw [hx]; rfl⟩)))
        · rename_i hx
          refine iff_of_false (fun h => Bool.noConfusion h) ?_
          rintro (h | h | h | ⟨hz, h⟩)
          · exact he h
          · rw [hb] at h
            cases h
          · rw [hm] at h
            cases h
          · rw [if_neg (by rw [hz]; exact Bool.false_ne_true)] at hx
            rw [hx] at h
            cases h

theorem isNull_iff {s : String} : (s.isEmpty || isNull s) = true ↔
    s ∈ ["", "~", "null", "Null", "NULL"] := by
  simp [isNull, or_comm, or_left_comm]

theorem isSome_flag?_iff {s : String} : (flag? s).isSome = true ↔
    s ∈ ["true", "True", "TRUE", "false", "False", "FALSE"] := by
  rw [flag?]
  split
  · rename_i h
    simp only [Bool.or_eq_true, beq_iff_eq] at h
    refine iff_of_true rfl ?_
    obtain (rfl | rfl) | rfl := h <;> decide
  · rename_i ht
    split
    · rename_i h
      simp only [Bool.or_eq_true, beq_iff_eq] at h
      refine iff_of_true rfl ?_
      obtain (rfl | rfl) | rfl := h <;> decide
    · rename_i hf
      refine iff_of_false Bool.false_ne_true fun h => ?_
      simp only [Bool.or_eq_true, beq_iff_eq] at ht hf
      simp only [List.mem_cons, List.not_mem_nil, or_false] at h
      tauto

theorem isSome_real?_iff : (real? cs).isSome = true ↔
    (∃ w ∈ [".nan", ".NaN", ".NAN"], cs = w.toList) ∨
      (∃ w ∈ [".inf", ".Inf", ".INF"], unsigned cs = w.toList) ∨
      (finite? (cs.head? = some '-') (unsigned cs)).isSome = true := by
  have hword (cs : List Char) (w : String) : (String.ofList cs == w) = true ↔ cs = w.toList := by
    rw [beq_iff_eq]
    exact ⟨fun h => by rw [← h, String.toList_ofList], fun h => by rw [h, String.ofList_toList]⟩
  have hnan : (String.ofList cs == ".nan" || String.ofList cs == ".NaN" ||
      String.ofList cs == ".NAN") = true ↔ ∃ w ∈ [".nan", ".NaN", ".NAN"], cs = w.toList := by
    simp only [Bool.or_eq_true, hword, List.mem_cons, List.not_mem_nil, or_false, exists_eq_or_imp,
      exists_eq_left, or_assoc]
  have hinf : isInfinity (String.ofList (unsigned cs)) = true ↔
      ∃ w ∈ [".inf", ".Inf", ".INF"], unsigned cs = w.toList := by
    simp only [isInfinity, Bool.or_eq_true, hword, List.mem_cons, List.not_mem_nil, or_false,
      exists_eq_or_imp, exists_eq_left, or_assoc]
  rw [real?, ← hnan, ← hinf]
  dsimp only
  split
  · rename_i h
    exact iff_of_true rfl (.inl h)
  · rename_i h
    split
    · rename_i hi
      exact iff_of_true rfl (.inr (.inl hi))
    · rename_i hi
      rw [or_iff_right h, or_iff_right hi]

/-- What means a whole number is special, -/
theorem special_of_whole (h : ((integer? cs).bind wholeMeaning?).isSome = true) : Special cs := by
  obtain ⟨n, hn, hlim⟩ := isSome_whole_iff.1 h
  obtain ⟨hz, mark, base, ds, hb, hcs, hd⟩ := natural?_eq_some_iff.1 hn
  obtain ⟨sign, hs, he, hm⟩ := exists_sign cs
  rw [hcs] at hz he
  rw [decide_eq_decide.2 hm] at hlim
  rw [he]
  exact .number hs (.whole hb hd hz hlim)

/-- and so is what means a floating-point number. -/
theorem special_of_real (hz : hasNeedlessZero cs = false) (h : (real? cs).isSome = true) :
    Special cs := by
  obtain ⟨sign, hs, he, hm⟩ := exists_sign cs
  rcases isSome_real?_iff.1 h with ⟨w, hw, rfl⟩ | ⟨w, hw, hcs⟩ | hfinite
  · exact .nan hw
  · rw [he, hcs]
    exact .number hs (.infinity hw)
  · obtain ⟨whole, fraction, exponent, n, hd, hn, hf⟩ := finite?_isSome_iff.1 hfinite
    rw [he, hasNeedlessZero_append hs hd.isSigned] at hz
    rw [decide_eq_decide.2 hm] at hf
    rw [he]
    exact .number hs (.decimal hd hz hn hf)

/-- A number with its sign means one. -/
theorem isSome_of_magnitude (hs : sign ∈ signs) (h : Magnitude (sign = ['-']) cs) :
    ((integer? (sign ++ cs)).bind wholeMeaning?).isSome = true ∨
      hasNeedlessZero (sign ++ cs) = false ∧ (real? (sign ++ cs)).isSome = true := by
  cases h with
  | @whole mark ds base n hb hd hz hn =>
    have hnat : natural? (mark ++ ds) = some n :=
      natural?_eq_some_iff.2 ⟨hz, mark, base, ds, hb, rfl, hd⟩
    have hu := isSigned_of_natural? hnat
    refine .inl (isSome_whole_iff.2 ⟨n, by rw [unsigned_append hs hu, hnat], ?_⟩)
    rwa [decide_eq_decide.2 (head?_append_eq_minus_iff hs hu)]
  | @infinity w hw =>
    have hword : isSigned w.toList = false ∧ hasNeedlessZero w.toList = false := by
      simp only [List.mem_cons, List.not_mem_nil, or_false] at hw
      obtain rfl | rfl | rfl := hw <;> decide
    rw [hasNeedlessZero_append hs hword.1]
    refine .inr ⟨hword.2, isSome_real?_iff.2 (.inr (.inl ⟨w, hw, ?_⟩))⟩
    rw [unsigned_append hs hword.1]
  | @decimal cs whole fraction exponent n hd hz hn hf =>
    have hu := hd.isSigned
    rw [hasNeedlessZero_append hs hu]
    refine .inr ⟨hz, isSome_real?_iff.2 (.inr (.inr ?_))⟩
    rw [unsigned_append hs hu, decide_eq_decide.2 (head?_append_eq_minus_iff hs hu)]
    exact finite?_isSome_iff.2 ⟨whole, fraction, exponent, n, hd, hn, hf⟩

/-- **A plain scalar means something else than its text exactly if it is special.** -/
theorem isText_untagged_eq_false_iff {s : String} :
    (untagged s).isText = false ↔ Special s.toList := by
  rw [isText_untagged_cases]
  constructor
  · rintro (h | h | h | ⟨hz, h⟩)
    · exact .null (isNull_iff.1 h)
    · exact .flag (isSome_flag?_iff.1 h)
    · exact special_of_whole h
    · exact special_of_real hz h
  · intro h
    generalize hcs : s.toList = cs at h
    cases h with
    | null hw =>
      obtain rfl := String.toList_inj.1 hcs
      exact .inl (isNull_iff.2 hw)
    | flag hw =>
      obtain rfl := String.toList_inj.1 hcs
      exact .inr (.inl (isSome_flag?_iff.2 hw))
    | @nan w hw =>
      have hz : hasNeedlessZero w.toList = false := by
        simp only [List.mem_cons, List.not_mem_nil, or_false] at hw
        obtain rfl | rfl | rfl := hw <;> decide
      exact .inr (.inr (.inr ⟨hz, isSome_real?_iff.2 (.inl ⟨w, hw, rfl⟩)⟩))
    | number hs hm => exact .inr (.inr (isSome_of_magnitude hs hm))

/-- Without quotes just the other texts mean themselves. -/
theorem special_iff_scalar_ne {s : String} :
    Special s.toList ↔ scalar none s .plain ≠ .ok (.known (.text s)) := by
  rw [← isText_untagged_eq_false_iff, scalar, if_pos rfl]
  constructor
  · intro h he
    rw [Except.ok.inj he] at h
    cases h
  · intro h
    refine Bool.eq_false_iff.2 fun htext => h ?_
    rw [untagged_eq_of_isText htext]

/-! ### How special texts are written -/

/-- The character is one from `+` to `~`, so no space, break or quote. -/
def IsBare (c : Char) : Prop := '+' ≤ c ∧ c ≤ '~'

instance (c : Char) : Decidable (IsBare c) := inferInstanceAs (Decidable (_ ∧ _))

theorem isBare_of_all (h : cs.all (fun c => decide (IsBare c)) = true) : ∀ c ∈ cs, IsBare c :=
  fun c hc => of_decide_eq_true (List.all_eq_true.1 h c hc)

theorem isBare_of_le {a b c : Char} (ha : a ≤ c) (hb : c ≤ b) (h : IsBare a ∧ IsBare b) :
    IsBare c :=
  ⟨Char.le_trans h.1.1 ha, Char.le_trans hb h.2.2⟩

theorem isBare_of_isDigit {c : Char} (h : c.isDigit = true) : IsBare c := by
  simp only [Char.isDigit, Bool.and_eq_true, decide_eq_true_eq] at h
  exact isBare_of_le h.1 h.2 (by decide)

/-- A digit of a base up to 16 is a decimal digit, or a letter up to `f`. -/
theorem isBare_of_digit? {c : Char} (h : digit? base c ≠ none) : IsBare c := by
  by_cases hd : c.isDigit = true
  · exact isBare_of_isDigit hd
  · by_cases hl : 'a' ≤ c ∧ c ≤ 'f'
    · exact isBare_of_le hl.1 hl.2 (by decide)
    · by_cases hu : 'A' ≤ c ∧ c ≤ 'F'
      · exact isBare_of_le hu.1 hu.2 (by decide)
      · simp [digit?, hd, hl, hu] at h

theorem isBare_of_number? (h : number? base cs = some n) : ∀ c ∈ cs, IsBare c := by
  intro c hc
  have hd : digit? base c ≠ none := fun hd => by
    rw [number?, digits?_eq_none hd hc, ite_self] at h
    cases h
  exact isBare_of_digit? hd

theorem isBare_of_mem_signs (hs : sign ∈ signs) : ∀ c ∈ sign, IsBare c := by
  simp only [signs, List.mem_cons, List.not_mem_nil, or_false] at hs
  obtain rfl | rfl | rfl := hs <;> exact isBare_of_all (by decide)

theorem isBare_of_mem_bases {mark : List Char} (hb : (mark, base) ∈ bases) :
    ∀ c ∈ mark, IsBare c := by
  simp only [bases, List.mem_cons, List.not_mem_nil, or_false, Prod.mk.injEq] at hb
  obtain ⟨rfl, -⟩ | ⟨rfl, -⟩ | ⟨rfl, -⟩ | ⟨rfl, -⟩ := hb <;> exact isBare_of_all (by decide)

theorem IsPoint.isBare {fraction : List Char} (h : IsPoint cs fraction) :
    ∀ c ∈ cs, IsBare c := by
  cases h with
  | none => exact nofun
  | some hd => exact List.forall_mem_cons.2 ⟨by decide, fun c hc => isBare_of_isDigit (hd c hc)⟩

theorem IsPower.isBare {exponent : Int} (h : IsPower cs exponent) : ∀ c ∈ cs, IsBare c := by
  cases h with
  | none => exact nofun
  | some he hs hn =>
    refine List.forall_mem_cons.2 ⟨by obtain rfl | rfl := he <;> decide, ?_⟩
    exact List.forall_mem_append.2 ⟨isBare_of_mem_signs hs, isBare_of_number? hn⟩

theorem IsDecimal.isBare {whole fraction : List Char} {exponent : Int}
    (h : IsDecimal cs whole fraction exponent) : ∀ c ∈ cs, IsBare c := by
  obtain ⟨⟨point, power, rfl, hp, hx⟩, hw, -⟩ := h
  exact List.forall_mem_append.2 ⟨fun c hc => isBare_of_isDigit (hw c hc),
    List.forall_mem_append.2 ⟨hp.isBare, hx.isBare⟩⟩

theorem Magnitude.isBare (h : Magnitude negative cs) : ∀ c ∈ cs, IsBare c := by
  cases h with
  | whole hb hd _ _ =>
    exact List.forall_mem_append.2 ⟨isBare_of_mem_bases hb, isBare_of_number? hd⟩
  | infinity hw =>
    simp only [List.mem_cons, List.not_mem_nil, or_false] at hw
    obtain rfl | rfl | rfl := hw <;> exact isBare_of_all (by decide)
  | decimal hd _ _ _ => exact hd.isBare

theorem Special.isBare (h : Special cs) : ∀ c ∈ cs, IsBare c := by
  cases h with
  | null hw =>
    simp only [List.mem_cons, List.not_mem_nil, or_false] at hw
    obtain rfl | rfl | rfl | rfl | rfl := hw <;> exact isBare_of_all (by decide)
  | flag hw =>
    simp only [List.mem_cons, List.not_mem_nil, or_false] at hw
    obtain rfl | rfl | rfl | rfl | rfl | rfl := hw <;> exact isBare_of_all (by decide)
  | nan hw =>
    simp only [List.mem_cons, List.not_mem_nil, or_false] at hw
    obtain rfl | rfl | rfl := hw <;> exact isBare_of_all (by decide)
  | number hs hm =>
    exact List.forall_mem_append.2 ⟨isBare_of_mem_signs hs, hm.isBare⟩

end Resolve

namespace Written

section Bare

variable {c : Char} {cs : List Char}

/-- A bare character is printable, and neither a space nor a break. -/
theorem isPrintable_of_isBare (h : Resolve.IsBare c) :
    isPrintable c = true ∧ isSpace c = false ∧ isBreak c = false := by
  refine ⟨?_, ?_, ?_⟩
  · have h1 : 0x2B ≤ c.toNat := UInt32.le_iff_toNat_le.1 h.1
    have h2 : c.toNat ≤ 0x7E := UInt32.le_iff_toNat_le.1 h.2
    simp only [isPrintable, Bool.or_eq_true, Bool.and_eq_true, decide_eq_true_eq]
    omega
  · refine decide_eq_false ?_
    rintro rfl
    exact absurd h (by decide)
  · refine Bool.eq_false_iff.2 fun hb => ?_
    simp only [isBreak, Bool.or_eq_true, decide_eq_true_eq] at hb
    obtain (((rfl | rfl) | rfl) | rfl) | rfl := hb <;> exact absurd h (by decide)

theorem adjacent_eq_false {p q : Char → Bool} (h : ∀ c ∈ cs, q c = false) :
    adjacent p q cs = false := by
  induction cs with
  | nil => rfl
  | cons a cs ih =>
    obtain ⟨-, h⟩ := List.forall_mem_cons.1 h
    cases cs with
    | nil => rfl
    | cons b cs => rw [adjacent, h b (List.mem_cons_self ..), ih h, Bool.and_false, Bool.or_false]

theorem singleAllowed_of_isBare (h : ∀ c ∈ cs, Resolve.IsBare c) : singleAllowed cs = true := by
  have hspace := adjacent_eq_false (p := isBreak) fun c hc => (isPrintable_of_isBare (h c hc)).2.1
  have hbreak := adjacent_eq_false (p := isSpace) fun c hc => (isPrintable_of_isBare (h c hc)).2.2
  have hall : cs.all isPrintable = true :=
    List.all_eq_true.2 fun c hc => (isPrintable_of_isBare (h c hc)).1
  rw [singleAllowed, hspace, hbreak, hall]
  rfl

theorem indented_of_isBare {indent : Nat} (h : ∀ c ∈ cs, Resolve.IsBare c) :
    indented indent singleChar false cs = cs := by
  induction cs with
  | nil => rfl
  | cons c cs ih =>
    obtain ⟨hc, hcs⟩ := List.forall_mem_cons.1 h
    have hquote : c ≠ '\'' := by
      rintro rfl
      exact absurd hc (by decide)
    rw [indented, (isPrintable_of_isBare hc).2.2, if_neg Bool.false_ne_true, ih hcs, singleChar,
      if_neg hquote]
    rfl

/-- Bare characters stand in single quotes as they are. -/
theorem single_of_isBare {indent : Nat} (h : ∀ c ∈ cs, Resolve.IsBare c) :
    single indent cs = '\'' :: (cs ++ ['\'']) := by
  have hlast : (cs.getLast?.map isBreak).getD false = false := by
    cases hl : cs.getLast? with
    | none => rfl
    | some c => exact (isPrintable_of_isBare (h c (List.mem_of_getLast? hl))).2.2
  rw [single, indented_of_isBare h, hlast]
  simp

end Bare

/-- **Special texts are written in single quotes**, as they are. -/
theorem style_of_special {s : String} (h : Resolve.Special s.toList) :
    style s = .singleQuoted ∧ ∀ indent, scalar indent s = '\'' :: (s.toList ++ ['\'']) := by
  have hn : s.toList.contains '\n' = false := by
    refine Bool.eq_false_iff.2 fun hm => ?_
    exact absurd (h.isBare _ (List.contains_iff_mem.1 hm)) (by decide)
  have ha : isAmbiguous s = true := by
    rw [isAmbiguous, Resolve.isText_untagged_eq_false_iff.2 h]
    rfl
  have hstyle : style s = .singleQuoted := by
    rw [style, hn, if_neg Bool.false_ne_true, ha, if_neg (by simp),
      if_pos (singleAllowed_of_isBare h.isBare)]
  refine ⟨hstyle, fun indent => ?_⟩
  rw [scalar, hstyle]
  exact single_of_isBare h.isBare

end Written
end Yaml
end Retarget
