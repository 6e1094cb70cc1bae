/-
# Only texts and numbers that are spelled are accepted

The other direction of `text_spellOpen` and `Numeral.number_body`: where a reader of a text
or of a number succeeds, or one that only passes over it, what it took from the source is a
`Literal` or a `Numeral`.
-/

import Retarget.Proofs.Json.Spelling.Skip

namespace Retarget
namespace Json

/-- What stands before the first character that is no blank. -/
theorem exists_gap (cs : List Char) : ∃ g : Gap, cs = g.spell (skipBlank cs) := by
  induction cs with
  | nil => exact ⟨[], rfl⟩
  | cons c cs ih =>
    by_cases hb : isBlank c = true
    · obtain ⟨g, hg⟩ := ih
      have hs : skipBlank (c :: cs) = skipBlank cs := List.dropWhile_cons_of_pos hb
      have hc : ∃ b : Blank, b.char = c := by
        simp only [isBlank, Bool.or_eq_true, decide_eq_true_eq] at hb
        rcases hb with ((rfl | rfl) | rfl) | rfl
        · exact ⟨.space, rfl⟩
        · exact ⟨.tab, rfl⟩
        · exact ⟨.lineFeed, rfl⟩
        · exact ⟨.carriageReturn, rfl⟩
      obtain ⟨b, rfl⟩ := hc
      exact ⟨b :: g, by rw [hs, Gap.spell_cons, ← hg]⟩
    · exact ⟨[], by rw [skipBlank_cons (by simpa using hb)]; rfl⟩

/-- What a reading leaves of its source has the property. -/
def Leaves {α : Type} (P : List Char → Prop) (r : Reading α) : Prop :=
  ∀ x rest, r = .ok (x, rest) → P rest

namespace Leaves

variable {α β : Type} {P Q : List Char → Prop} {r : Reading α}

theorem error (e : Fault) : Leaves P (.error e : Reading α) := fun _ _ h => nomatch h

theorem ok {rest : List Char} (h : P rest) (x : α) : Leaves P (.ok (x, rest) : Reading α) := by
  rintro _ _ ⟨⟩
  exact h

theorem mono (h : Leaves P r) (hPQ : ∀ rest, P rest → Q rest) : Leaves Q r :=
  fun x rest hr => hPQ rest (h x rest hr)

theorem map (h : Leaves P r) (f : α → β) : Leaves P (r.map fun (x, rest) => (f x, rest)) := by
  cases r with
  | error e => exact error e
  | ok y => exact ok (h y.1 y.2 rfl) _

end Leaves

/-! ### Texts -/

theorem exists_of_fourDigits {cs rest : List Char} {n : Nat} (h : fourDigits cs = .ok (n, rest)) :
    ∃ a b c d : HexDigit, cs = a.char :: b.char :: c.char :: d.char :: rest := by
  rw [fourDigits] at h
  split at h
  · rename_i r hr
    cases h
    rw [fourDigits?.eq_def] at hr
    split at hr
    · split at hr
      · rename_i ha hb hc hd
        cases hr
        exact ⟨⟨_, _, ha⟩, ⟨_, _, hb⟩, ⟨_, _, hc⟩, ⟨_, _, hd⟩, rfl⟩
      · cases hr
    · cases hr
  · split at h <;> cases h

theorem eq_of_expect {c : Char} {cs rest : List Char} (h : expect c cs = .ok rest) :
    cs = c :: rest := by
  rw [expect.eq_def] at h
  split at h
  · cases h
  · split at h
    · rename_i hd
      cases h
      rw [hd]
    · cases h

/-- The four digits of an escape make a letter. -/
theorem exists_letter_of_fourDigits {cs rest : List Char} {n : Nat}
    (h : fourDigits cs = .ok (n, rest)) : ∃ x : Letter, '\\' :: 'u' :: cs = x.chars ++ rest := by
  obtain ⟨a, b, c, d, rfl⟩ := exists_of_fourDigits h
  exact ⟨.numbered a b c d, rfl⟩

theorem exists_of_secondHalf {first : Nat} {cs rest : List Char} {c : Char}
    (h : secondHalf first cs = .ok (c, rest)) : ∃ x : Letter, cs = x.chars ++ rest := by
  rw [secondHalf] at h
  split at h
  · cases h
  · rename_i h1
    split at h
    · cases h
    · rename_i h2
      rw [secondDigits] at h
      split at h
      · cases h
      · rename_i hd
        split at h
        · obtain ⟨-, rfl⟩ := Prod.mk.inj (Except.ok.inj h)
          obtain ⟨x, hx⟩ := exists_letter_of_fourDigits hd
          exact ⟨x, by rw [eq_of_expect h1, eq_of_expect h2, hx]⟩
        · cases h

/-- A number stands for a character alone, or with a second one that is its other half. -/
theorem exists_of_numbered {cs rest : List Char} {c : Char} (h : numbered cs = .ok (c, rest)) :
    ∃ ls : Literal, '\\' :: 'u' :: cs = ls.flatMap Letter.chars ++ rest := by
  rw [numbered] at h
  split at h
  · cases h
  · rename_i n more hn
    obtain ⟨x, hx⟩ := exists_letter_of_fourDigits hn
    rw [hx]
    split at h
    · cases h
    · split at h
      · obtain ⟨y, rfl⟩ := exists_of_secondHalf h
        exact ⟨[x, y], by simp⟩
      · obtain ⟨-, rfl⟩ := Prod.mk.inj (Except.ok.inj h)
        exact ⟨[x], by simp⟩

/-- An escape, read with its value, takes one letter or the two of a pair of halves. -/
theorem exists_of_escape {cs rest : List Char} {c : Char} (h : escape cs = .ok (c, rest)) :
    ∃ ls : Literal, '\\' :: cs = ls.flatMap Letter.chars ++ rest := by
  cases cs with
  | nil => cases h
  | cons m cs =>
    rw [escape] at h
    split at h
    · rename_i d hd
      cases h
      exact ⟨[.short m c hd], rfl⟩
    · split at h
      · rename_i hm
        subst hm
        exact exists_of_numbered h
      · cases h

theorem exists_of_skipEscape {cs rest : List Char} (h : skipEscape cs = .ok rest) :
    ∃ x : Letter, '\\' :: cs = x.chars ++ rest := by
  cases cs with
  | nil => cases h
  | cons m cs =>
    rw [skipEscape] at h
    split at h
    · rename_i hd
      cases h
      obtain ⟨c, hc⟩ := Option.isSome_iff_exists.1 hd
      exact ⟨.short m c hc, rfl⟩
    · split at h
      · rename_i hm
        subst hm
        rw [skipFourDigits] at h
        split at h
        · cases h
        · rename_i hn
          cases h
          exact exists_letter_of_fourDigits hn
      · cases h

/-- **A text that is accepted is spelled**, up to its closing quote. -/
theorem exists_of_text {read cs rest : List Char} {s : String} (h : text read cs = .ok (s, rest)) :
    ∃ l, cs = Literal.spellOpen l rest := by
  fun_induction text read cs with
  | case1 => cases h
  | case2 read cs =>
    cases h
    exact ⟨[], rfl⟩
  | case3 => cases h
  | case4 read cs d more he _ ih =>
    obtain ⟨l, rfl⟩ := ih h
    obtain ⟨ls, hl⟩ := exists_of_escape he
    exact ⟨ls ++ l, by rw [hl]; simp [Literal.spellOpen]⟩
  | case5 => cases h
  | case6 read c cs hq hb hc ih =>
    obtain ⟨l, rfl⟩ := ih h
    exact ⟨.plain c (isPlain_iff.2 ⟨hq, hb, hc⟩) :: l, by simp [Letter.chars]⟩

theorem exists_of_skipText {cs rest : List Char} (h : skipText cs = .ok rest) :
    ∃ l, cs = Literal.spellOpen l rest := by
  fun_induction skipText cs with
  | case1 => cases h
  | case2 cs =>
    cases h
    exact ⟨[], rfl⟩
  | case3 => cases h
  | case4 cs more he _ ih =>
    obtain ⟨l, rfl⟩ := ih h
    obtain ⟨x, hx⟩ := exists_of_skipEscape he
    exact ⟨x :: l, by rw [hx]; simp⟩
  | case5 => cases h
  | case6 c cs hq hb hc ih =>
    obtain ⟨l, rfl⟩ := ih h
    exact ⟨.plain c (isPlain_iff.2 ⟨hq, hb, hc⟩) :: l, by simp [Letter.chars]⟩

/-! ### Digits -/

theorem exists_digits (cs : List Char) :
    ∃ ds : List Digit, cs = digitChars ds ++ cs.dropWhile Char.isDigit := by
  induction cs with
  | nil => exact ⟨[], rfl⟩
  | cons c cs ih =>
    by_cases hc : c.isDigit = true
    · obtain ⟨ds, hd⟩ := ih
      refine ⟨⟨c, hc⟩ :: ds, ?_⟩
      rw [List.dropWhile_cons_of_pos hc]
      exact congrArg (c :: ·) hd
    · exact ⟨[], by rw [List.dropWhile_cons_of_neg hc]; rfl⟩

theorem exists_of_collect (n : Nat) (cs : List Char) :
    ∃ ds : List Digit, ds.length = (collect n cs).2.1 ∧ cs = digitChars ds ++ (collect n cs).2.2 := by
  induction cs generalizing n with
  | nil => exact ⟨[], rfl, rfl⟩
  | cons c cs ih =>
    rw [collect]
    dsimp only
    split
    · rename_i h
      simp only [Bool.and_eq_true, decide_eq_true_eq] at h
      obtain ⟨ds, hl, hd⟩ := ih (n * 10 + digitValue c)
      exact ⟨⟨c, h.1⟩ :: ds, by simp [hl], congrArg (c :: ·) hd⟩
    · exact ⟨[], rfl, rfl⟩

theorem exists_of_exponentDigits (n : Nat) (cs : List Char) :
    ∃ ds : List Digit, cs = digitChars ds ++ (exponentDigits n cs).2 := by
  induction cs generalizing n with
  | nil => exact ⟨[], rfl⟩
  | cons c cs ih =>
    rw [exponentDigits]
    split
    · rename_i hc
      dsimp only
      split
      · obtain ⟨ds, hd⟩ := ih (n * 10 + digitValue c)
        exact ⟨⟨c, hc⟩ :: ds, congrArg (c :: ·) hd⟩
      · exact ⟨[⟨c, hc⟩], rfl⟩
    · exact ⟨[], rfl⟩

/-- The first digit of an exponent is read in any case. -/
theorem exists_of_exponentDigits_cons (n : Nat) {c : Char} (hc : c.isDigit = true)
    (cs : List Char) :
    ∃ ds : Digits, c :: cs = ds.chars ++ (exponentDigits n (c :: cs)).2 := by
  rw [exponentDigits, if_pos hc]
  dsimp only
  split
  · obtain ⟨ds, hd⟩ := exists_of_exponentDigits (n * 10 + digitValue c) cs
    exact ⟨⟨⟨c, hc⟩, ds⟩, congrArg (c :: ·) hd⟩
  · exact ⟨⟨⟨c, hc⟩, []⟩, rfl⟩

theorem Digits.exists_append (ds : Digits) (es : List Digit) :
    ∃ fs : Digits, fs.chars = ds.chars ++ digitChars es :=
  ⟨⟨ds.first, ds.more ++ es⟩, by simp [chars]⟩

/-! ### Numbers -/

section Parts

variable {negative : Bool} {n : Nat} {e : Int}

theorem real_leaves (cs : List Char) : Leaves (· = cs) (real negative n e cs) := by
  rw [real]
  split
  · exact .error _
  · exact .ok (P := (· = cs)) rfl _

/-- The sign of an exponent, if there is one, goes before its digits. -/
theorem exists_sign (cs : List Char) : ∃ sign : Option Bool, ∀ (ds : Digits) (rest : List Char),
    (if (cs.head? == some '-') || cs.head? == some '+' then cs.tail else cs) = ds.chars ++ rest →
      cs = (Exponent.mk false sign ds).tail ++ rest := by
  by_cases hm : cs.head? = some '-'
  · refine ⟨some true, fun ds rest h => ?_⟩
    obtain ⟨cs, rfl⟩ := List.head?_eq_some_iff.1 hm
    simpa [Exponent.tail] using h
  · by_cases hp : cs.head? = some '+'
    · refine ⟨some false, fun ds rest h => ?_⟩
      obtain ⟨cs, rfl⟩ := List.head?_eq_some_iff.1 hp
      simpa [Exponent.tail] using h
    · refine ⟨none, fun ds rest h => ?_⟩
      simpa [Exponent.tail, hm, hp] using h

/-- An exponent after its letter. -/
theorem withExponent_leaves (cs : List Char) :
    Leaves (fun rest => ∃ x : Exponent, cs = x.tail ++ rest) (withExponent negative n e cs) := by
  obtain ⟨sign, hsign⟩ := exists_sign cs
  rw [withExponent]
  split
  · exact .error _
  · rename_i c ds hcs
    split
    · exact .error _
    · rename_i hc
      obtain ⟨fs, hf⟩ := exists_of_exponentDigits_cons 0 (by simpa using hc) ds
      split
      · rename_i he
        rw [he] at hf
        refine (real_leaves _).mono ?_
        rintro _ rfl
        exact ⟨_, hsign fs _ (hcs.trans hf)⟩
      · rename_i more he
        rw [he] at hf
        split
        · exact .error _
        · refine .ok ?_ _
          obtain ⟨es, hes⟩ := exists_digits more
          obtain ⟨gs, hg⟩ := fs.exists_append es
          refine ⟨_, hsign gs _ ?_⟩
          rw [hg, List.append_assoc, afterDigits, ← hes]
          exact hcs.trans hf

theorem afterFraction_leaves (cs : List Char) :
    Leaves (fun rest => ∃ x? : Option Exponent, cs = exponentChars x? ++ rest)
      (afterFraction negative n e cs) := by
  rw [afterFraction.eq_def]
  split
  · refine (withExponent_leaves _).mono ?_
    rintro rest ⟨⟨_, sign, ds⟩, rfl⟩
    exact ⟨some ⟨false, sign, ds⟩, rfl⟩
  · refine (withExponent_leaves _).mono ?_
    rintro rest ⟨⟨_, sign, ds⟩, rfl⟩
    exact ⟨some ⟨true, sign, ds⟩, rfl⟩
  · refine (real_leaves _).mono ?_
    rintro _ rfl
    exact ⟨none, rfl⟩

theorem withFraction_leaves (cs : List Char) :
    Leaves (fun rest => ∃ (ds : Digits) (x? : Option Exponent), cs = ds.chars ++ exponentChars x? ++ rest)
      (withFraction negative n e cs) := by
  obtain ⟨ds, hl, hd⟩ := exists_of_collect n cs
  obtain ⟨es, he⟩ := exists_digits (collect n cs).2.2
  rw [withFraction]
  dsimp only
  split
  · exact .error _
  · rename_i hz
    -- at least one digit is read, collected or not
    have hne : ds ++ es ≠ [] := by
      rintro h
      obtain ⟨rfl, rfl⟩ := List.append_eq_nil_iff.1 h
      refine hz ?_
      rw [← hl]
      have : digitCount (collect n cs).2.2 = 0 := by
        rw [digitCount, List.length_eq_zero_iff]
        have := List.takeWhile_append_dropWhile (p := Char.isDigit) (l := (collect n cs).2.2)
        rw [← show _ = (collect n cs).2.2.dropWhile Char.isDigit from he] at this
        exact List.append_left_eq_self.1 this
      simp [this]
    obtain ⟨f, fs, hfs⟩ := List.exists_cons_of_ne_nil hne
    refine (afterFraction_leaves _).mono ?_
    rintro rest ⟨x?, hx⟩
    refine ⟨⟨f, fs⟩, x?, ?_⟩
    have hc : (Digits.mk f fs).chars = digitChars ds ++ digitChars es := by
      rw [← List.map_append, hfs]
      rfl
    rw [hc, List.append_assoc, ← hx, List.append_assoc, afterDigits, ← he]
    exact hd

theorem afterWhole_leaves (cs : List Char) :
    Leaves (fun rest => ∃ (f? : Option Digits) (x? : Option Exponent), cs = tailChars f? x? ++ rest)
      (afterWhole negative n cs) := by
  rw [afterWhole.eq_def]
  split
  · refine (withFraction_leaves _).mono ?_
    rintro rest ⟨ds, x?, rfl⟩
    exact ⟨some ds, x?, rfl⟩
  · refine (withExponent_leaves _).mono ?_
    rintro rest ⟨⟨_, sign, ds⟩, rfl⟩
    exact ⟨none, some ⟨false, sign, ds⟩, rfl⟩
  · refine (withExponent_leaves _).mono ?_
    rintro rest ⟨⟨_, sign, ds⟩, rfl⟩
    exact ⟨none, some ⟨true, sign, ds⟩, rfl⟩
  · split
    · exact .ok ⟨none, none, rfl⟩ _
    · split
      · exact .ok ⟨none, none, rfl⟩ _
      · exact .ok ⟨none, none, rfl⟩ _

/-- The parts of a number make a number. -/
theorem Numeral.exists_body (negative : Bool) (whole : Whole) (f? : Option Digits)
    (x? : Option Exponent) {ds rest : List Char} (h : ds = tailChars f? x? ++ rest) :
    ∃ n : Numeral, n.negative = negative ∧ whole.chars ++ ds = n.body ++ rest := by
  refine ⟨⟨negative, whole, f?, x?⟩, rfl, ?_⟩
  rw [h, body]
  exact (List.append_assoc ..).symm

/-- The digits before the point, those that fit and those that do not. -/
theorem exists_whole {c : Char} (h0 : c ≠ '0') (hc : c.isDigit = true) (cs : List Char) :
    ∃ whole : Whole, c :: cs = whole.chars ++ afterDigits (collect 0 (c :: cs)).2.2 := by
  obtain ⟨ds, -, hd⟩ := exists_of_collect 0 (c :: cs)
  obtain ⟨es, he⟩ := exists_digits (collect 0 (c :: cs)).2.2
  have hall : c :: cs = digitChars (ds ++ es) ++ afterDigits (collect 0 (c :: cs)).2.2 := by
    rw [digitChars, List.map_append, List.append_assoc, afterDigits, ← he]
    exact hd
  cases hds : ds ++ es with
  | cons f fs =>
    rw [hds] at hall
    exact ⟨.positive ⟨f, fs⟩ ((List.cons.inj hall).1 ▸ h0), hall⟩
  | nil =>
    obtain ⟨rfl, rfl⟩ := List.append_eq_nil_iff.1 hds
    have hd : c :: cs = (collect 0 (c :: cs)).2.2 := hd
    rw [← hd, List.dropWhile_cons_of_pos hc] at he
    have hl : cs.length + 1 = (cs.dropWhile Char.isDigit).length := congrArg List.length he
    have := length_dropWhile_le Char.isDigit cs
    omega

/-- **A number that is accepted is spelled**, after its sign. -/
theorem number_leaves (negative : Bool) (cs : List Char) :
    Leaves (fun rest => ∃ n : Numeral, n.negative = negative ∧ cs = n.body ++ rest)
      (number negative cs) := by
  cases cs with
  | nil => exact .error _
  | cons c cs =>
    rw [number]
    split
    · rename_i hc
      subst hc
      split
      · refine (afterWhole_leaves _).mono ?_
        rintro rest ⟨f?, x?, h⟩
        exact Numeral.exists_body negative .zero f? x? h
      · exact .error _
    · rename_i h0
      split
      · rename_i hc
        dsimp only
        obtain ⟨whole, hw⟩ := exists_whole h0 hc cs
        have hd := List.takeWhile_append_dropWhile (p := Char.isDigit)
          (l := (collect 0 (c :: cs)).2.2)
        generalize collect 0 (c :: cs) = r at *
        rw [hw]
        split
        · rename_i hm
          have ha : afterDigits r.2.2 = r.2.2 := by
            rw [List.length_eq_zero_iff.1 hm] at hd
            exact hd
          rw [ha]
          refine (afterWhole_leaves _).mono ?_
          rintro rest ⟨f?, x?, h⟩
          exact Numeral.exists_body negative whole f? x? h
        · split
          · rename_i more he
            rw [he]
            refine (withFraction_leaves _).mono ?_
            rintro rest ⟨fs, x?, h⟩
            exact Numeral.exists_body negative whole (some fs) x? (by rw [h]; rfl)
          · refine (afterFraction_leaves _).mono ?_
            rintro rest ⟨x?, h⟩
            exact Numeral.exists_body negative whole none x? h
      · exact .error _

end Parts

/-! ### Numbers that are passed over -/

theorem exists_of_skipDigits {cs rest : List Char} (h : skipDigits cs = .ok rest) :
    ∃ ds : Digits, cs = ds.chars ++ rest := by
  rw [skipDigits.eq_def] at h
  split at h
  · cases h
  · rename_i c cs
    split at h
    · rename_i hc
      cases h
      obtain ⟨ds, hd⟩ := exists_digits cs
      exact ⟨⟨⟨c, hc⟩, ds⟩, congrArg (c :: ·) hd⟩
    · cases h

theorem exists_of_skipExponent {cs rest : List Char} (h : skipExponent cs = .ok rest) :
    ∃ (sign : Option Bool) (ds : Digits), ∀ capital, cs = (Exponent.mk capital sign ds).tail ++ rest := by
  rw [skipExponent.eq_def] at h
  split at h
  · obtain ⟨ds, rfl⟩ := exists_of_skipDigits h
    exact ⟨some false, ds, fun _ => rfl⟩
  · obtain ⟨ds, rfl⟩ := exists_of_skipDigits h
    exact ⟨some true, ds, fun _ => rfl⟩
  · obtain ⟨ds, rfl⟩ := exists_of_skipDigits h
    exact ⟨none, ds, fun _ => rfl⟩

theorem exists_of_skipAfterDigits {cs rest : List Char} (h : skipAfterDigits cs = .ok rest) :
    ∃ x? : Option Exponent, cs = exponentChars x? ++ rest := by
  rw [skipAfterDigits.eq_def] at h
  split at h
  · obtain ⟨sign, ds, hx⟩ := exists_of_skipExponent h
    exact ⟨some ⟨false, sign, ds⟩, by rw [hx false]; rfl⟩
  · obtain ⟨sign, ds, hx⟩ := exists_of_skipExponent h
    exact ⟨some ⟨true, sign, ds⟩, by rw [hx true]; rfl⟩
  · cases h
    exact ⟨none, rfl⟩

theorem exists_of_skipNumber {cs rest : List Char} (h : skipNumber cs = .ok rest) (negative : Bool) :
    ∃ n : Numeral, n.negative = negative ∧ cs = n.body ++ rest := by
  rw [skipNumber] at h
  split at h
  · cases h
  · rename_i more hm
    obtain ⟨ds, rfl⟩ := exists_of_skipDigits hm
    split at h
    · cases h
    · rename_i hz
      -- a leading zero stands alone
      have hwhole : ∃ whole : Whole, whole.chars = ds.chars := by
        by_cases h0 : ds.first.char = '0'
        · obtain ⟨d, _ | ⟨d', more'⟩⟩ := ds
          · exact ⟨.zero, by rw [Whole.chars, Digits.chars, show d.char = '0' from h0]; rfl⟩
          · refine absurd ?_ hz
            simp [Digits.chars, show d.char = '0' from h0, d'.isDigit]
        · exact ⟨.positive ds h0, rfl⟩
      obtain ⟨whole, hw⟩ := hwhole
      rw [← hw]
      split at h
      · rename_i more
        split at h
        · cases h
        · rename_i hf
          obtain ⟨fs, rfl⟩ := exists_of_skipDigits hf
          obtain ⟨x?, rfl⟩ := exists_of_skipAfterDigits h
          refine Numeral.exists_body negative whole (some fs) x? ?_
          exact congrArg ('.' :: ·) (List.append_assoc ..).symm
      · obtain ⟨x?, rfl⟩ := exists_of_skipAfterDigits h
        exact Numeral.exists_body negative whole none x? rfl

end Json
end Retarget
