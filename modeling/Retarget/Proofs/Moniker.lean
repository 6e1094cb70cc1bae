/-
# The language of monikers

The grammar of target framework monikers as a set of texts, put together from characters of
a class (`oneOf`) and fixed words by concatenation, choice and repetition:

    number    =  D { D }                        D a decimal digit of any script
    version   =  number { "." number }
    platform  =  a { a } [ version ]            a a letter from "a" to "z"
    moniker   =  "net" version [ "-" platform ]
              |  "net" "standard" number "." number
              |  "net" "coreapp" number "." number

The recogniser reads a text from left to right and does not go back, so each of its functions
takes as much off the front as it can.  What it takes is pinned by what cannot be left:

| function | takes off | what is left does not start with |
| --- | --- | --- |
| `after?` | the word | |
| `afterDigits?` | a number | a digit |
| `afterVersion?` | a version | a digit, or a point and a digit |

Taking as much as possible loses nothing: after a number comes the end or a point, after the
version of a moniker the end or a hyphen, and after the letters of a platform the end or a
digit.  So a text is recognised exactly if it is in the language (`recognized_iff`).
-/

import Retarget.Framework
import Retarget.Proofs.Text
import Mathlib.Computability.Language

namespace Retarget
namespace Moniker

open Computability
open Text (isDecimalDigit)

/-! ### The grammar -/

/-- The texts of one character of the class. -/
def oneOf (p : Char → Bool) : Language Char := {cs | ∃ c, p c ∧ cs = [c]}

/-- The texts of characters of the class, at least one. -/
def someOf (p : Char → Bool) : Language Char := oneOf p * (oneOf p)∗

/-- The word and no other text. -/
def word (s : String) : Language Char := {s.toList}

/-- The numbers: digits, at least one. -/
def number : Language Char := someOf isDecimalDigit

/-- The versions: numbers with points between them. -/
def version : Language Char := number * (word "." * number)∗

/-- The platforms: small letters, with a version or without. -/
def platform : Language Char := someOf isPlatformLetter * (1 + version)

/-- The versions of exactly two numbers. -/
def numberPair : Language Char := number * word "." * number

/-- **The target framework monikers.** -/
def monikers : Language Char :=
  word "net" * version * (1 + word "-" * platform) +
    word "netstandard" * numberPair + word "netcoreapp" * numberPair

/-! ### Words and classes -/

variable {p : Char → Bool} {cs ds rest : List Char}

theorem mem_word {s : String} : cs ∈ word s ↔ cs = s.toList := Iff.rfl

theorem mem_word_mul {s : String} {l : Language Char} :
    cs ∈ word s * l ↔ ∃ rest ∈ l, cs = s.toList ++ rest := by
  rw [Language.mem_mul]
  constructor
  · rintro ⟨_, rfl, rest, hr, rfl⟩
    exact ⟨rest, hr, rfl⟩
  · rintro ⟨rest, hr, rfl⟩
    exact ⟨_, rfl, rest, hr, rfl⟩

/-- One word after the other is one word. -/
theorem word_mul_word (s t : String) : word s * word t = word (s ++ t) := by
  ext cs
  rw [mem_word_mul, mem_word, String.toList_append]
  constructor
  · rintro ⟨_, rfl, rfl⟩
    rfl
  · rintro rfl
    exact ⟨_, rfl, rfl⟩

/-- The monikers with their common word in front. -/
theorem monikers_eq : monikers = word "net" * (version * (1 + word "-" * platform) +
    (word "standard" * numberPair + word "coreapp" * numberPair)) := by
  have hs : word "netstandard" = word "net" * word "standard" :=
    (word_mul_word "net" "standard").symm
  have hc : word "netcoreapp" = word "net" * word "coreapp" :=
    (word_mul_word "net" "coreapp").symm
  rw [monikers, hs, hc, mul_assoc (word "net") version, mul_assoc (word "net") (word "standard"),
    mul_assoc (word "net") (word "coreapp"), add_assoc, ← mul_add, ← mul_add]

/-- A repetition of characters of a class is a text over the class. -/
theorem mem_kstar_oneOf : cs ∈ (oneOf p)∗ ↔ ∀ c ∈ cs, p c := by
  constructor
  · rintro ⟨parts, rfl, h⟩ c hc
    obtain ⟨part, hm, hc⟩ := List.mem_flatten.1 hc
    obtain ⟨d, hd, rfl⟩ := h part hm
    exact List.mem_singleton.1 hc ▸ hd
  · intro h
    refine ⟨cs.map fun c => [c], ?_, ?_⟩
    · induction cs with
      | nil => rfl
      | cons c cs ih =>
        rw [List.map_cons, List.flatten_cons, ← ih fun d hd => h d (List.mem_cons_of_mem _ hd)]
        rfl
    · intro part hm
      obtain ⟨c, hc, rfl⟩ := List.mem_map.1 hm
      exact ⟨c, h c hc, rfl⟩

theorem mem_someOf : cs ∈ someOf p ↔ ∃ c ds, cs = c :: ds ∧ p c ∧ ∀ d ∈ ds, p d := by
  rw [someOf, Language.mem_mul]
  constructor
  · rintro ⟨_, ⟨c, hc, rfl⟩, ds, hds, rfl⟩
    exact ⟨c, ds, rfl, hc, mem_kstar_oneOf.1 hds⟩
  · rintro ⟨c, ds, rfl, hc, hds⟩
    exact ⟨[c], ⟨c, hc, rfl⟩, ds, mem_kstar_oneOf.2 hds, rfl⟩

/-- What follows a word is found behind it. -/
theorem after?_eq_some_iff {w : List Char} : after? w cs = some rest ↔ cs = w ++ rest := by
  fun_induction after? w cs with
  | case1 cs => rw [List.nil_append, Option.some.injEq]
  | case2 w ws => exact ⟨nofun, nofun⟩
  | case3 ws c cs ih => rw [ih, List.cons_append, List.cons.injEq, and_iff_right rfl]
  | case4 w ws c cs h => exact ⟨nofun, fun he => absurd (List.cons.inj he).1.symm h⟩

/-! ### Numbers -/

/-- **A number is taken off with all its digits.** -/
theorem afterDigits?_eq_some_iff :
    afterDigits? cs = some rest ↔
      (∃ ds ∈ number, cs = ds ++ rest) ∧ ∀ c ∈ rest.head?, ¬ isDecimalDigit c := by
  constructor
  · intro h
    cases cs with
    | nil => cases h
    | cons c cs =>
      rw [afterDigits?] at h
      split at h
      · rename_i hc
        obtain rfl := Option.some.inj h
        obtain ⟨l, he, hl, hr⟩ := Text.exists_eq_append_dropWhile isDecimalDigit cs
        refine ⟨⟨c :: l, mem_someOf.2 ⟨c, l, rfl, hc, hl⟩, ?_⟩, hr⟩
        exact congrArg (c :: ·) he
      · cases h
  · rintro ⟨⟨ds, hds, rfl⟩, hr⟩
    obtain ⟨c, l, rfl, hc, hl⟩ := mem_someOf.1 hds
    rw [List.cons_append, afterDigits?, if_pos hc, Text.dropWhile_append_of_head? hl hr]

/-- A whole text is a number if nothing is left of it. -/
theorem afterDigits?_eq_nil_iff : afterDigits? cs = some [] ↔ cs ∈ number := by
  rw [afterDigits?_eq_some_iff]
  simp

/-- **Two numbers with a point between them are read as such.** -/
theorem isNumberPair_iff : isNumberPair cs ↔ cs ∈ numberPair := by
  have hpoint : ∀ rest, ∀ c ∈ ('.' :: rest).head?, ¬ isDecimalDigit c := by
    rintro rest c ⟨⟩
    decide
  constructor
  · intro h
    rw [isNumberPair] at h
    split at h
    · rename_i rest hd
      obtain ⟨⟨ds, hds, rfl⟩, -⟩ := afterDigits?_eq_some_iff.1 hd
      rw [beq_iff_eq, afterDigits?_eq_nil_iff] at h
      rw [numberPair, mul_assoc]
      exact Language.append_mem_mul hds (Language.append_mem_mul (mem_word.2 rfl) h)
    · cases h
  · intro h
    rw [numberPair, mul_assoc] at h
    obtain ⟨ds, hds, tail, ht, rfl⟩ := Language.mem_mul.1 h
    obtain ⟨rest, hrest, rfl⟩ := mem_word_mul.1 ht
    have hd : afterDigits? (ds ++ '.' :: rest) = some ('.' :: rest) :=
      afterDigits?_eq_some_iff.2 ⟨⟨ds, hds, rfl⟩, hpoint rest⟩
    have hr : afterDigits? rest = some [] := afterDigits?_eq_nil_iff.2 hrest
    show isNumberPair (ds ++ '.' :: rest) = true
    simp only [isNumberPair, hd, hr, beq_self_eq_true]

/-! ### Versions -/

/-- The text would make a version before it longer. -/
def GoesOn : List Char → Prop
  | [] => False
  | [c] => isDecimalDigit c
  | c :: d :: _ => isDecimalDigit c ∨ c = '.' ∧ isDecimalDigit d

/-- What may follow the first digit of a version. -/
def versionTail : Language Char := (oneOf isDecimalDigit)∗ * (word "." * number)∗

theorem version_eq : version = oneOf isDecimalDigit * versionTail := by
  rw [versionTail, ← mul_assoc]
  rfl

theorem nil_mem_versionTail : [] ∈ versionTail :=
  Language.mem_mul.2 ⟨[], Language.nil_mem_kstar _, [], Language.nil_mem_kstar _, rfl⟩

theorem digit_mem_versionTail {c : Char} (hc : isDecimalDigit c) (h : ds ∈ versionTail) :
    c :: ds ∈ versionTail := by
  obtain ⟨as, ha, bs, hb, rfl⟩ := Language.mem_mul.1 h
  refine Language.mem_mul.2 ⟨c :: as, mem_kstar_oneOf.2 ?_, bs, hb, rfl⟩
  exact List.forall_mem_cons.2 ⟨hc, mem_kstar_oneOf.1 ha⟩

theorem point_mem_versionTail {d : Char} (hd : isDecimalDigit d) (h : ds ∈ versionTail) :
    '.' :: d :: ds ∈ versionTail := by
  obtain ⟨as, ha, _, ⟨parts, rfl, hparts⟩, rfl⟩ := Language.mem_mul.1 h
  have hn : d :: as ∈ number := mem_someOf.2 ⟨d, as, rfl, hd, mem_kstar_oneOf.1 ha⟩
  refine Language.mem_mul.2 ⟨[], Language.nil_mem_kstar _, _,
    ⟨('.' :: d :: as) :: parts, rfl, List.forall_mem_cons.2 ⟨?_, hparts⟩⟩, rfl⟩
  exact mem_word_mul.2 ⟨d :: as, hn, rfl⟩

/-- What is taken off is the tail of a version. -/
theorem exists_afterVersionTail (cs : List Char) :
    ∃ ds ∈ versionTail, cs = ds ++ afterVersionTail cs := by
  fun_induction afterVersionTail cs with
  | case1 => exact ⟨[], nil_mem_versionTail, rfl⟩
  | case2 c hc => exact ⟨[c], digit_mem_versionTail hc nil_mem_versionTail, rfl⟩
  | case3 c hc => exact ⟨[], nil_mem_versionTail, rfl⟩
  | case4 c d cs hc ih =>
    obtain ⟨ds, hds, he⟩ := ih
    exact ⟨c :: ds, digit_mem_versionTail hc hds, congrArg (c :: ·) he⟩
  | case5 c d cs hc h ih =>
    obtain ⟨ds, hds, he⟩ := ih
    obtain ⟨rfl, hd⟩ : c = '.' ∧ isDecimalDigit d := by simpa using h
    exact ⟨'.' :: d :: ds, point_mem_versionTail hd hds, congrArg ('.' :: d :: ·) he⟩
  | case6 c d cs hc h => exact ⟨[], nil_mem_versionTail, rfl⟩

/-- What is left does not make the version longer. -/
theorem not_goesOn_afterVersionTail (cs : List Char) : ¬ GoesOn (afterVersionTail cs) := by
  fun_induction afterVersionTail cs with
  | case1 => exact id
  | case2 c hc => exact id
  | case3 c hc => exact hc
  | case4 c d cs hc ih => exact ih
  | case5 c d cs hc h ih => exact ih
  | case6 c d cs hc h =>
    rintro (hd | ⟨rfl, hd⟩)
    · exact hc hd
    · exact h (by simp [hd])

theorem afterVersionTail_digit {c : Char} (hc : isDecimalDigit c) (cs : List Char) :
    afterVersionTail (c :: cs) = afterVersionTail cs := by
  cases cs with
  | nil => simp only [afterVersionTail, hc, if_true]
  | cons d cs => rw [afterVersionTail, if_pos hc]

theorem afterVersionTail_point {d : Char} (hd : isDecimalDigit d) (cs : List Char) :
    afterVersionTail ('.' :: d :: cs) = afterVersionTail cs := by
  have hp : isDecimalDigit '.' = false := by decide
  simp only [afterVersionTail, hp, hd, decide_true, Bool.true_and, if_true, if_false,
    Bool.false_eq_true]

theorem afterVersionTail_of_not_goesOn (h : ¬ GoesOn cs) : afterVersionTail cs = cs := by
  match cs, h with
  | [], _ => rfl
  | [c], h => exact if_neg h
  | c :: d :: cs, h =>
    have hc : ¬ isDecimalDigit c := fun hc => h (.inl hc)
    have hp : ¬ (c = '.' && isDecimalDigit d) := fun hp => h (.inr (by simpa using hp))
    rw [afterVersionTail, if_neg hc, if_neg hp]

theorem afterVersionTail_digits (h : ∀ d ∈ ds, isDecimalDigit d) (rest : List Char) :
    afterVersionTail (ds ++ rest) = afterVersionTail rest := by
  induction ds with
  | nil => rfl
  | cons d ds ih =>
    obtain ⟨hd, hds⟩ := List.forall_mem_cons.1 h
    rw [List.cons_append, afterVersionTail_digit hd, ih hds]

theorem afterVersionTail_parts (parts : List (List Char))
    (hparts : ∀ part ∈ parts, part ∈ word "." * number) (h : ¬ GoesOn rest) :
    afterVersionTail (parts.flatten ++ rest) = rest := by
  induction parts with
  | nil => exact afterVersionTail_of_not_goesOn h
  | cons part parts ih =>
    obtain ⟨hpart, hmore⟩ := List.forall_mem_cons.1 hparts
    obtain ⟨n, hn, rfl⟩ := mem_word_mul.1 hpart
    obtain ⟨d, ds, rfl, hd, hds⟩ := mem_someOf.1 hn
    rw [List.flatten_cons, List.append_assoc, List.append_assoc]
    show afterVersionTail ('.' :: d :: (ds ++ (parts.flatten ++ rest))) = rest
    rw [afterVersionTail_point hd, afterVersionTail_digits hds, ih hmore]

/-- The tail of a version is taken off if what follows does not make it longer. -/
theorem afterVersionTail_append (hds : ds ∈ versionTail) (h : ¬ GoesOn rest) :
    afterVersionTail (ds ++ rest) = rest := by
  obtain ⟨as, ha, _, ⟨parts, rfl, hparts⟩, rfl⟩ := Language.mem_mul.1 hds
  rw [List.append_assoc, afterVersionTail_digits (mem_kstar_oneOf.1 ha)]
  exact afterVersionTail_parts parts hparts h

/-- **A version is taken off as far as it goes.** -/
theorem afterVersion?_eq_some_iff :
    afterVersion? cs = some rest ↔ (∃ v ∈ version, cs = v ++ rest) ∧ ¬ GoesOn rest := by
  constructor
  · intro h
    cases cs with
    | nil => cases h
    | cons c cs =>
      rw [afterVersion?] at h
      split at h
      · rename_i hc
        obtain rfl := Option.some.inj h
        obtain ⟨ds, hds, he⟩ := exists_afterVersionTail cs
        refine ⟨⟨c :: ds, ?_, congrArg (c :: ·) he⟩, not_goesOn_afterVersionTail cs⟩
        rw [version_eq]
        exact Language.append_mem_mul (a := [c]) ⟨c, hc, rfl⟩ hds
      · cases h
  · rintro ⟨⟨v, hv, rfl⟩, hr⟩
    rw [version_eq] at hv
    obtain ⟨_, ⟨c, hc, rfl⟩, ds, hds, rfl⟩ := Language.mem_mul.1 hv
    rw [List.append_assoc, List.singleton_append, afterVersion?, if_pos hc,
      afterVersionTail_append hds hr]

/-- A whole text is a version if nothing is left of it. -/
theorem afterVersion?_eq_nil_iff : afterVersion? cs = some [] ↔ cs ∈ version := by
  rw [afterVersion?_eq_some_iff]
  simp [GoesOn]

/-- A version starts with a digit. -/
theorem exists_eq_cons_of_mem_version (h : cs ∈ version) :
    ∃ c ds, cs = c :: ds ∧ isDecimalDigit c := by
  rw [version_eq] at h
  obtain ⟨_, ⟨c, hc, rfl⟩, ds, -, rfl⟩ := Language.mem_mul.1 h
  exact ⟨c, ds, rfl, hc⟩

/-! ### Platforms -/

/-- No digit of any script is a small letter. -/
theorem not_isPlatformLetter {c : Char} (hc : isDecimalDigit c) : ¬ isPlatformLetter c := by
  have hranges : ∀ r ∈ Text.decimalDigits, r.2 < 97 ∨ 122 < r.1 := by decide
  obtain ⟨r, hr, h1, h2⟩ := Text.Ranges.has_iff.1 hc
  intro hl
  obtain ⟨ha, hz⟩ : 97 ≤ c.toNat ∧ c.toNat ≤ 122 := by
    simpa [isPlatformLetter, Char.le_def, UInt32.le_iff_toNat_le] using hl
  rcases hranges r hr with h | h <;> omega

/-- **A platform is read as such.** -/
theorem isPlatform_iff : isPlatform cs ↔ cs ∈ platform := by
  cases cs with
  | nil =>
    refine ⟨nofun, fun h => ?_⟩
    obtain ⟨_, hl, _, -, he⟩ := Language.mem_mul.1 h
    obtain ⟨c, ds, rfl, -⟩ := mem_someOf.1 hl
    cases he
  | cons c cs =>
    rw [isPlatform, Bool.and_eq_true]
    constructor
    · rintro ⟨hc, h⟩
      obtain ⟨l, he, hl, -⟩ := Text.exists_eq_append_dropWhile isPlatformLetter cs
      have hm : c :: l ∈ someOf isPlatformLetter := mem_someOf.2 ⟨c, l, rfl, hc, hl⟩
      refine Language.mem_mul.2 ⟨c :: l, hm, _, ?_, congrArg (c :: ·) he.symm⟩
      rw [Language.mem_add, Language.mem_one]
      split at h
      · exact .inl ‹_›
      · exact .inr (afterVersion?_eq_nil_iff.1 (by simpa using h))
    · intro h
      obtain ⟨_, hl, v, hv, he⟩ := Language.mem_mul.1 h
      obtain ⟨d, l, rfl, hd, hl⟩ := mem_someOf.1 hl
      obtain ⟨rfl, hcs⟩ : d = c ∧ l ++ v = cs := List.cons.inj he
      refine ⟨hd, ?_⟩
      -- The letters end where the version starts, since no digit is a letter.
      rcases (Language.mem_add _ _ _).1 hv with rfl | hv
      · have hdrop : cs.dropWhile isPlatformLetter = [] :=
          hcs ▸ Text.dropWhile_append_of_head? hl (by simp)
        rw [hdrop]
      · obtain ⟨e, es, rfl, hde⟩ := exists_eq_cons_of_mem_version hv
        have hdrop : cs.dropWhile isPlatformLetter = e :: es :=
          hcs ▸ Text.dropWhile_append_of_head? hl (by simpa using not_isPlatformLetter hde)
        rw [hdrop]
        exact beq_iff_eq.2 (afterVersion?_eq_nil_iff.2 hv)

/-- **A version with or without a platform is read as such.** -/
theorem isVersioned_iff : isVersioned cs ↔ cs ∈ version * (1 + word "-" * platform) := by
  have hhyphen : ∀ rest, ¬ GoesOn ('-' :: rest) := by
    intro rest h
    have hd : isDecimalDigit '-' = false := by decide
    cases rest <;> simp [GoesOn, hd] at h
  constructor
  · intro h
    rw [isVersioned] at h
    split at h
    · rename_i hv
      have hm : cs ∈ version := afterVersion?_eq_nil_iff.1 hv
      exact Language.mem_mul.2 ⟨cs, hm, [], .inl rfl, List.append_nil cs⟩
    · rename_i rest hr
      obtain ⟨⟨v, hv, rfl⟩, -⟩ := afterVersion?_eq_some_iff.1 hr
      exact Language.append_mem_mul hv (.inr (mem_word_mul.2 ⟨rest, isPlatform_iff.1 h, rfl⟩))
    · cases h
  · intro h
    obtain ⟨v, hv, tail, ht, rfl⟩ := Language.mem_mul.1 h
    rcases (Language.mem_add _ _ _).1 ht with rfl | ht
    · rw [List.append_nil, isVersioned, afterVersion?_eq_nil_iff.2 hv]
    · obtain ⟨rest, hr, rfl⟩ := mem_word_mul.1 ht
      have hd : afterVersion? (v ++ '-' :: rest) = some ('-' :: rest) :=
        afterVersion?_eq_some_iff.2 ⟨⟨v, hv, rfl⟩, hhyphen rest⟩
      show isVersioned (v ++ '-' :: rest) = true
      simp only [isVersioned, hd, isPlatform_iff.2 hr]

/-! ### Monikers -/

/-- A version does not start with a word that starts with a letter. -/
theorem after?_eq_none_of_version {l : Language Char} {w : Char} {ws : List Char}
    (hw : isDecimalDigit w = false) (h : cs ∈ version * l) : after? (w :: ws) cs = none := by
  obtain ⟨v, hv, tail, -, rfl⟩ := Language.mem_mul.1 h
  obtain ⟨c, ds, rfl, hc⟩ := exists_eq_cons_of_mem_version hv
  have hne : w ≠ c := by
    rintro rfl
    exact absurd hc (by simp [hw])
  rw [List.cons_append, after?, if_neg hne]

/-- **The recogniser accepts the monikers and nothing else.** -/
theorem recognized_iff {framework : String} :
    recognized framework ↔ framework.toList ∈ monikers := by
  rw [monikers_eq, mem_word_mul, recognized]
  constructor
  · intro h
    split at h
    · cases h
    · rename_i rest hnet
      refine ⟨rest, ?_, after?_eq_some_iff.1 hnet⟩
      split at h
      · rename_i numbers hs
        rw [after?_eq_some_iff.1 hs]
        exact .inr (.inl (mem_word_mul.2 ⟨numbers, isNumberPair_iff.1 h, rfl⟩))
      · rename_i numbers _ hc
        rw [after?_eq_some_iff.1 hc]
        exact .inr (.inr (mem_word_mul.2 ⟨numbers, isNumberPair_iff.1 h, rfl⟩))
      · exact .inl (isVersioned_iff.1 h)
  · rintro ⟨rest, hr, hnet⟩
    simp only [after?_eq_some_iff.2 hnet]
    -- The recogniser tries the longer words first, so they must not be found before a version.
    rcases hr with hr | hr | hr
    · have hs : after? "standard".toList rest = none := after?_eq_none_of_version (by decide) hr
      have hc : after? "coreapp".toList rest = none := after?_eq_none_of_version (by decide) hr
      simp only [hs, hc, isVersioned_iff.2 hr]
    · obtain ⟨numbers, hn, rfl⟩ := mem_word_mul.1 hr
      have hs := after?_eq_some_iff.2 (rfl : "standard".toList ++ numbers = _)
      simp only [hs, isNumberPair_iff.2 hn]
    · obtain ⟨numbers, hn, rfl⟩ := mem_word_mul.1 hr
      have hs : after? "standard".toList ("coreapp".toList ++ numbers) = none := rfl
      have hc := after?_eq_some_iff.2 (rfl : "coreapp".toList ++ numbers = _)
      simp only [hs, hc, isNumberPair_iff.2 hn]

instance (framework : String) : Decidable (framework.toList ∈ monikers) :=
  decidable_of_iff _ recognized_iff

/-- **Exactly the monikers are recognised.**  The whole text has to be in the grammar.  Of a list of
frameworks those that are not monikers are left, in their order and as often as they were. -/
theorem exactly_monikers_recognized :
    (∀ framework : String, recognized framework ↔ framework.toList ∈ monikers) ∧
    ∀ frameworks : List String, (unrecognized frameworks).Sublist frameworks ∧
      ∀ framework : String, (unrecognized frameworks).count framework =
        if framework.toList ∈ monikers then 0 else frameworks.count framework := by
  refine ⟨fun _ => recognized_iff, fun frameworks => ⟨List.filter_sublist, fun framework => ?_⟩⟩
  by_cases h : framework.toList ∈ monikers
  · rw [if_pos h, List.count_eq_zero]
    intro hm
    have hu := (List.mem_filter.1 hm).2
    simp [recognized_iff.2 h] at hu
  · rw [if_neg h]
    have hr : ¬ recognized framework := fun hr => h (recognized_iff.1 hr)
    exact List.count_filter (by simp [hr])

example : unrecognized ["net45", "v4.5", "net6.0-windows10.", "net\u0664.0", "v4.5"] =
    ["v4.5", "net6.0-windows10.", "v4.5"] := by decide +kernel

end Moniker
end Retarget
