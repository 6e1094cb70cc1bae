/-
# Whatever is spelled can be passed over

The value of an unknown member is passed over, and that never fails: not at a number that
is too large, nor at a half of an escaped character, nor at brackets that nest too deep to
be read.  The walk keeps the open brackets on a stack; a value leaves the stack as it was,
so it leads from its own front to `more` with the same brackets around.
-/

import Retarget.Proofs.Json.Spelling.Value

namespace Retarget
namespace Json

/-! ### Scalars -/

theorem skipText_backslash {cs rest : List Char} (h : skipEscape cs = .ok rest) :
    skipText ('\\' :: cs) = skipText rest := by
  rw [skipText, if_neg (by decide), if_pos rfl]
  split
  · rename_i he
    rw [h] at he
    cases he
  · rename_i r he
    rw [h] at he
    rw [Except.ok.inj he]

theorem skipText_spellOpen (l : Literal) (rest : List Char) :
    skipText (Literal.spellOpen l rest) = .ok rest := by
  induction l with
  | nil => rw [Literal.spellOpen_nil, skipText, if_pos rfl]
  | cons x l ih =>
    rw [Literal.spellOpen_cons]
    cases x with
    | plain c hc =>
      have h := isPlain_iff.1 hc
      rw [Letter.chars, List.singleton_append, skipText, if_neg h.1, if_neg h.2.1,
        if_neg h.2.2, ih]
    | short mark c hc =>
      have he : skipEscape (mark :: Literal.spellOpen l rest) = .ok (Literal.spellOpen l rest) := by
        simp [skipEscape, hc]
      exact (skipText_backslash he).trans ih
    | numbered a b c d =>
      have hu : escaped? 'u' = none := rfl
      have he : skipEscape ('u' :: a.char :: b.char :: c.char :: d.char :: Literal.spellOpen l rest) =
          .ok (Literal.spellOpen l rest) := by
        simp [skipEscape, hu, skipFourDigits, HexDigit.fourDigits]
      exact (skipText_backslash he).trans ih

theorem skipDigits_chars (ds : Digits) {tail : List Char} (h : NoDigit tail) :
    skipDigits (ds.chars ++ tail) = .ok tail := by
  rw [Digits.chars, List.cons_append, skipDigits, if_pos ds.first.isDigit,
    dropWhile_digitChars ds.more h]

theorem skipExponent_tail (x : Exponent) {rest : List Char} (h : NoDigit rest) :
    skipExponent (x.tail ++ rest) = .ok rest := by
  have hd := skipDigits_chars x.digits h
  obtain ⟨capital, sign, ⟨d, ds⟩⟩ := x
  have hm : d.char ≠ '-' := fun h => absurd (h ▸ d.isDigit) (by decide)
  have hp : d.char ≠ '+' := fun h => absurd (h ▸ d.isDigit) (by decide)
  rcases sign with _ | _ | _
  · rw [Exponent.tail, List.nil_append, skipExponent.eq_def]
    split
    · rename_i he
      exact absurd (List.cons.inj he).1 hp
    · rename_i he
      exact absurd (List.cons.inj he).1 hm
    · exact hd
  · exact hd
  · exact hd

theorem skipAfterDigits_exponent (x? : Option Exponent) {rest : List Char} (h : Ends rest) :
    skipAfterDigits (exponentChars x? ++ rest) = .ok rest := by
  cases x? with
  | none =>
    have hne := h.ne
    rw [exponentChars, List.nil_append, skipAfterDigits.eq_def]
    split
    · exact absurd rfl (hne 'e' rfl).2.2.1
    · exact absurd rfl (hne 'E' rfl).2.2.2
    · rfl
  | some x =>
    rw [exponentChars, Exponent.chars]
    cases x.capital <;> exact skipExponent_tail x h.noDigit

/-- A number is passed over, after its sign. -/
theorem skipNumber_body (n : Numeral) {rest : List Char} (h : Ends rest) :
    skipNumber (n.body ++ rest) = .ok rest := by
  obtain ⟨negative, whole, f?, x?⟩ := n
  have ht := noDigit_tail f? x? h
  have hb : Numeral.body ⟨negative, whole, f?, x?⟩ ++ rest =
      whole.chars ++ (tailChars f? x? ++ rest) := List.append_assoc ..
  -- the digits before the point, which do not go on after a leading zero
  have hw : skipDigits (whole.chars ++ (tailChars f? x? ++ rest)) = .ok (tailChars f? x? ++ rest) ∧
      ((whole.chars ++ (tailChars f? x? ++ rest)).head? = some '0' &&
        ((whole.chars ++ (tailChars f? x? ++ rest)).tail.head?.map Char.isDigit).getD false) =
          false := by
    cases whole with
    | zero =>
      refine ⟨skipDigits_chars ⟨⟨'0', by decide⟩, []⟩ ht, ?_⟩
      rw [Whole.chars, List.singleton_append, List.tail_cons, List.head?_cons]
      cases hc : (tailChars f? x? ++ rest).head? with
      | none => rfl
      | some c => simp [ht c hc]
    | positive ds h0 =>
      refine ⟨skipDigits_chars ds ht, ?_⟩
      rw [Whole.chars, Digits.chars, List.cons_append, List.head?_cons]
      simp [h0]
  rw [hb, skipNumber, hw.1]
  simp only [hw.2, Bool.false_eq_true, if_false]
  cases f? with
  | some ds =>
    have hd := skipDigits_chars ds (noDigit_exponent x? h)
    rw [← List.append_assoc] at hd
    simp only [tailChars, List.cons_append, hd]
    exact skipAfterDigits_exponent x? h
  | none =>
    have hd := skipAfterDigits_exponent x? h
    rw [tailChars, List.nil_append]
    split
    · rename_i he
      cases x? with
      | none => exact absurd rfl (h.ne '.' (by rw [show rest = _ from he]; rfl)).2.1
      | some x =>
        rw [exponentChars, Exponent.chars] at he
        exact absurd (List.cons.inj he).1 (by cases x.capital <;> decide)
    · exact hd

theorem skipScalar_spell (s : Scalar) {rest cs : List Char} {c : Char} (hr : Ends rest)
    (h : s.spell rest = c :: cs) : skipScalar c cs = .ok rest := by
  cases s with
  | null => obtain ⟨rfl, rfl⟩ := List.cons.inj h; rfl
  | flag b =>
    cases b
    · obtain ⟨rfl, rfl⟩ := List.cons.inj h; rfl
    · obtain ⟨rfl, rfl⟩ := List.cons.inj h; rfl
  | text l =>
    obtain ⟨rfl, rfl⟩ := List.cons.inj h
    exact skipText_spellOpen l rest
  | number n =>
    have hn := skipNumber_body n hr
    rcases n.chars_eq with ⟨-, hc⟩ | ⟨-, hc⟩
    · rw [Scalar.spell, hc] at h
      obtain ⟨rfl, rfl⟩ := List.cons.inj h
      exact hn
    · obtain ⟨d, ds, hb⟩ := n.exists_body_eq_cons
      rw [hb] at hn
      rw [Scalar.spell, hc, hb] at h
      obtain ⟨rfl, rfl⟩ := List.cons.inj h
      rw [skipScalar, if_neg (d.ne rfl), if_neg (d.ne rfl), if_neg (d.ne rfl), if_neg (d.ne rfl),
        if_neg (d.ne rfl), if_pos d.isDigit]
      exact hn

/-! ### Values -/

theorem skip_scalar {cs rest : List Char} {around : List Bracket} (s : Scalar) (hr : Ends rest)
    (h : skipBlank cs = s.spell rest) : skip .value around cs = skip .more around rest := by
  obtain ⟨c, ds, hc, -, hs, -⟩ := s.exists_spell_eq_cons rest
  have ha := skipScalar_spell s hr hc
  rw [hc] at h
  rw [skip]
  split
  · rename_i he
    rw [h] at he
    cases he
  · rename_i d es he
    rw [h] at he
    obtain ⟨rfl, rfl⟩ := List.cons.inj he
    rw [if_neg (hs '[' (by simp)), if_neg (hs '\x7b' (by simp))]
    split
    · rename_i he
      rw [ha] at he
      cases he
    · rename_i more he
      rw [ha] at he
      rw [Except.ok.inj he]

/-! ### Steps of the walk -/

section Steps

variable {cs ds more : List Char} {around : List Bracket}

theorem skip_emptyList (h : skipBlank cs = '[' :: ds) (hd : skipBlank ds = ']' :: more) :
    skip .value around cs = skip .more around more := by
  rw [skip]
  split
  · rename_i he; rw [h] at he; cases he
  · rename_i he
    rw [h] at he
    obtain ⟨rfl, rfl⟩ := List.cons.inj he
    rw [if_pos rfl]
    split
    · rename_i he; rw [hd] at he; cases he
    · rename_i he
      rw [hd] at he
      obtain ⟨rfl, rfl⟩ := List.cons.inj he
      rw [if_pos rfl]

theorem skip_list {d : Char} (h : skipBlank cs = '[' :: ds) (hd : skipBlank ds = d :: more)
    (hne : d ≠ ']') : skip .value around cs = skip .value (.list :: around) (d :: more) := by
  rw [skip]
  split
  · rename_i he; rw [h] at he; cases he
  · rename_i he
    rw [h] at he
    obtain ⟨rfl, rfl⟩ := List.cons.inj he
    rw [if_pos rfl]
    split
    · rename_i he; rw [hd] at he; cases he
    · rename_i he
      rw [hd] at he
      obtain ⟨rfl, rfl⟩ := List.cons.inj he
      rw [if_neg hne]

theorem skip_emptyObject (h : skipBlank cs = '\x7b' :: ds) (hd : skipBlank ds = '\x7d' :: more) :
    skip .value around cs = skip .more around more := by
  rw [skip]
  split
  · rename_i he; rw [h] at he; cases he
  · rename_i he
    rw [h] at he
    obtain ⟨rfl, rfl⟩ := List.cons.inj he
    rw [if_neg (by decide), if_pos rfl]
    split
    · rename_i he; rw [hd] at he; cases he
    · rename_i he
      rw [hd] at he
      obtain ⟨rfl, rfl⟩ := List.cons.inj he
      rw [if_pos rfl]

theorem skip_object {d : Char} (h : skipBlank cs = '\x7b' :: ds) (hd : skipBlank ds = d :: more)
    (hne : d ≠ '\x7d') : skip .value around cs = skip .member (.object :: around) (d :: more) := by
  rw [skip]
  split
  · rename_i he; rw [h] at he; cases he
  · rename_i he
    rw [h] at he
    obtain ⟨rfl, rfl⟩ := List.cons.inj he
    rw [if_neg (by decide), if_pos rfl]
    split
    · rename_i he; rw [hd] at he; cases he
    · rename_i he
      rw [hd] at he
      obtain ⟨rfl, rfl⟩ := List.cons.inj he
      rw [if_neg hne]

theorem skip_member (h : skipBlank cs = '"' :: ds) (hd : skipName ds = .ok more) :
    skip .member around cs = skip .value around more := by
  conv_lhs => rw [skip]
  split
  · rename_i he; rw [h] at he; cases he
  · rename_i he
    rw [h] at he
    obtain ⟨rfl, rfl⟩ := List.cons.inj he
    rw [if_pos rfl]
    split
    · rename_i he; rw [hd] at he; cases he
    · rename_i he
      rw [hd] at he
      rw [Except.ok.inj he]

theorem skip_closing {b : Bracket} (h : skipBlank cs = b.closing :: more) :
    skip .more (b :: around) cs = skip .more around more := by
  rw [skip]
  split
  · rename_i he; rw [h] at he; cases he
  · rename_i he
    rw [h] at he
    obtain ⟨rfl, rfl⟩ := List.cons.inj he
    rw [if_pos rfl]

theorem skip_comma {b : Bracket} (h : skipBlank cs = ',' :: more) :
    skip .more (b :: around) cs =
      skip (if b = .list then .value else .member) (b :: around) more := by
  rw [skip]
  split
  · rename_i he; rw [h] at he; cases he
  · rename_i he
    rw [h] at he
    obtain ⟨rfl, rfl⟩ := List.cons.inj he
    rw [if_neg (by cases b <;> decide), if_pos rfl]

end Steps

theorem skipName_spellOpen (l : Literal) (a : Gap) (rest : List Char) :
    skipName (Literal.spellOpen l (a.spell (':' :: rest))) = .ok rest := by
  rw [skipName, skipText_spellOpen, Except.bind, colon, skipBlank_gap, skipBlank_cons rfl]
  exact if_pos rfl

/-! ### Lists and objects -/

/-- Wherever the value stands, it is passed over and nothing else changes. -/
def Passed (v : Spelling) : Prop :=
  ∀ {around cs rest}, Ends rest → skipBlank cs = v.spell rest →
    skip .value around cs = skip .more around rest

theorem skip_spellItems {xs : List (Spaced Spelling)} (h : ∀ x ∈ xs, Passed x.value)
    (around : List Bracket) (a : Gap) (rest : List Char) :
    skip .more (.list :: around) (a.spell (Spelling.spellItems xs rest)) = skip .more around rest := by
  induction xs generalizing a with
  | nil => exact skip_closing (b := .list) (by rw [skipBlank_gap]; exact skipBlank_cons rfl rest)
  | cons x xs ih =>
    obtain ⟨b, v, a'⟩ := x
    rw [skip_comma (by rw [skipBlank_gap]; exact skipBlank_cons rfl _), if_pos rfl,
      h _ (List.mem_cons_self ..) (ends_gap (Spelling.ends_spellItems xs rest) a')
        (by rw [Spelling.skipBlank_gap_spell])]
    exact ih (fun x hx => h x (List.mem_cons_of_mem _ hx)) a'

/-- A member is passed over, from the blanks before its name on. -/
theorem skip_spellMember {v : Spelling} (h : Passed v) (around : List Bracket) (b a b' : Gap)
    (l : Literal) {rest : List Char} (hr : Ends rest) :
    skip .member around (b.spell (l.spell (a.spell (':' :: b'.spell (v.spell rest))))) =
      skip .more around rest := by
  rw [skip_member (by rw [skipBlank_gap]; exact skipBlank_cons rfl _) (skipName_spellOpen l a _)]
  exact h hr (by rw [Spelling.skipBlank_gap_spell])

theorem skip_spellMembers {ms : List (Spaced Literal × Spaced Spelling)}
    (h : ∀ m ∈ ms, Passed m.2.value) (around : List Bracket) (a : Gap) (rest : List Char) :
    skip .more (.object :: around) (a.spell (Spelling.spellMembers ms rest)) =
      skip .more around rest := by
  induction ms generalizing a with
  | nil => exact skip_closing (b := .object) (by rw [skipBlank_gap]; exact skipBlank_cons rfl rest)
  | cons m ms ih =>
    obtain ⟨⟨b, l, a'⟩, ⟨b', v, a''⟩⟩ := m
    rw [skip_comma (by rw [skipBlank_gap]; exact skipBlank_cons rfl _), if_neg (by decide),
      skip_spellMember (h _ (List.mem_cons_self ..)) _ _ _ _ _
        (ends_gap (Spelling.ends_spellMembers ms rest) a'')]
    exact ih (fun m hm => h m (List.mem_cons_of_mem _ hm)) a''

/-- **Every value that is spelled is passed over**, at whatever depth it stands. -/
theorem Spelling.passed (v : Spelling) : Passed v := by
  induction v using Spelling.induct with
  | scalar s => exact fun hr h => skip_scalar s hr h
  | list inner xs ih =>
    intro around cs rest hr h
    rcases xs with _ | ⟨⟨b, v, a⟩, xs⟩
    · exact skip_emptyList h (by rw [skipBlank_gap]; exact skipBlank_cons rfl rest)
    · obtain ⟨d, more, hv, -, hne, -⟩ := v.exists_spell_eq_cons (a.spell (spellItems xs rest))
      rw [skip_list h (by rw [skipBlank_gap, Spelling.skipBlank_spell, hv]) hne, ← hv,
        ih _ (List.mem_cons_self ..) (ends_gap (Spelling.ends_spellItems xs rest) a) (v.skipBlank_spell _)]
      exact skip_spellItems (fun x hx => ih x (List.mem_cons_of_mem _ hx)) around a rest
  | object inner ms ih =>
    intro around cs rest hr h
    rcases ms with _ | ⟨⟨⟨b, l, a⟩, ⟨b', v, a'⟩⟩, ms⟩
    · exact skip_emptyObject h (by rw [skipBlank_gap]; exact skipBlank_cons rfl rest)
    · rw [skip_object h (by rw [skipBlank_gap]; exact skipBlank_cons rfl _) (by decide)]
      exact (skip_spellMember (ih _ (List.mem_cons_self ..)) _ [] _ _ _
        (ends_gap (Spelling.ends_spellMembers ms rest) a')).trans
          (skip_spellMembers (fun m hm => ih m (List.mem_cons_of_mem _ hm)) around a' rest)

theorem skipValue_spell (v : Spelling) {cs rest : List Char} (hr : Ends rest)
    (h : skipBlank cs = v.spell rest) : skipValue cs = .ok rest := by
  rw [skipValue, v.passed hr h, skip]

end Json
end Retarget
