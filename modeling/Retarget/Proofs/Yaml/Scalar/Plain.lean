/-
# Plain scalars that were written are read back

A plain scalar ends at the line break behind it, since the next line is not indented deeper
than what the scalar belongs to (`scan_plain`); as a key it ends at its colon (`scan_key`).
As for quoted scalars, `inWord` and `inGap` are what is left of the reader's work in the
midst of a word or of a gap.
-/

import Retarget.Proofs.Yaml.Scalar.Gap
import Retarget.Proofs.Yaml.Scalar.Style

namespace Retarget
namespace Yaml
namespace Plain

open Written (spaces isPrintable separates atSeparator hasInnerIndicator)

/-- What a reader in a gap comes to, outside brackets. -/
def inGap (edge : Nat) (start : Mark) (read : List Char) (gap : Gap) (m : Mark) (cs : List Char) :
    Except Flaw Read :=
  match gap.read edge m cs with
  | .error n => flawedWhile .plainScalar start .tabInPlain n
  | .ok (gap, e) =>
    if e.mark.column < edge then .ok ⟨read.reverse, gap.isBroken, e⟩
      else more false edge start read gap e

/-- What a reader in a word comes to; `w` has been read of the word, last character first. -/
def inWord (edge : Nat) (start : Mark) (read : List Char) (gap : Gap) (w : List Char) (m : Mark)
    (cs : List Char) : Except Flaw Read :=
  match word false w m cs with
  | .error m => flawedWhile .plainScalar start .colonInPlain m
  | .ok (w, d) =>
    let read := if w.isEmpty then read else w ++ gap.folded ++ read
    let gap := if w.isEmpty then gap else .empty
    if startsGap d.rest then inGap edge start read gap d.mark d.rest
    else .ok ⟨read.reverse, gap.isBroken, d⟩

section Steps

variable {edge : Nat} {start m : Mark} {read w cs : List Char} {gap : Gap} {c : Char}

theorem more_eq_inWord (h : (Cursor.mk m cs).atDocumentMark = false) (hc : cs.head? ≠ some '#') :
    more false edge start read gap ⟨m, cs⟩ = inWord edge start read gap [] m cs := by
  rw [more, if_neg (by simp [h, Cursor.head?, hc]), inWord]
  split <;> rename_i hw <;> simp only [hw]
  split
  · rw [inGap]
    split <;> rename_i hg <;> simp only [hg]
    simp
  · rfl

/-- A character without a meaning of its own. -/
theorem inWord_cons (h : isGap c = false) (hc : (c = ':' && atGap cs) = false) :
    inWord edge start read gap w m (c :: cs) =
      inWord edge start read gap (c :: w) (m.right 1) cs := by
  rw [inWord, word]
  simp only [h, hc, Bool.false_and, Bool.or_false, Bool.false_eq_true, if_false]
  rw [inWord]

theorem inWord_gap (h : isGap c = true) (hw : w ≠ []) :
    inWord edge start read gap w m (c :: cs) =
      inGap edge start (w ++ gap.folded ++ read) .empty m (c :: cs) := by
  have he : w.isEmpty = false := by simpa using hw
  rw [inWord, word, if_pos h]
  simp only [he, startsGap, List.head?_cons, Option.map_some, Option.getD_some, h,
    Bool.false_eq_true, if_true, if_false]

theorem inGap_space (bs : List Char) :
    inGap edge start read (.blanks bs) m (' ' :: cs) =
      inGap edge start read (.blanks (' ' :: bs)) (m.right 1) cs := by
  rw [inGap, Gap.read_space, inGap]

/-- A word begins within the line. -/
theorem inGap_word (h : isGap c = false) (hc : c ≠ '#') (hm : 0 < m.column) (he : edge ≤ m.column) :
    inGap edge start read gap m (c :: cs) = inWord edge start read gap [] m (c :: cs) := by
  rw [inGap, Gap.read_word gap h]
  simp only [Nat.not_lt.2 he, if_false]
  exact more_eq_inWord (atDocumentMark_eq_false hm) fun hs => hc (Option.some.inj hs)

/-- The scalar ends where the next line is not indented deep enough. -/
theorem inGap_feed {column : Nat} (hs : ∀ c ∈ cs.head?, isGap c = false) (he : column < edge) :
    inGap edge start read .empty m ('\n' :: (spaces column ++ cs)) =
      .ok ⟨read.reverse, true, ⟨m.down.right column, cs⟩⟩ := by
  rw [inGap, Gap.empty, Gap.read_feed hs]
  have hd : (m.down.right column).column < edge := by simpa using he
  simp only [hd, if_true]
  rfl

end Steps

/-- What the rest of a text has to be like to go on a plain scalar; `gap` tells whether a
gap comes before it. -/
structure GoesOn (gap : Bool) (cs : List Char) : Prop where
  printable : Printable cs
  noBreak : ∀ c ∈ cs, isBreak c = false
  noSpaceEnd : cs.getLast? ≠ some ' '
  noIndicator : hasInnerIndicator gap cs = false

theorem separates_eq_false {c : Char} (hp : isPrintable c = true) (h : isGap c = false) :
    separates c = false := by
  have hc : c ≠ '\x00' := by rintro rfl; exact absurd hp (by decide)
  simp [separates, h, hc]

theorem GoesOn.cons {gap : Bool} {c : Char} {cs : List Char} (h : GoesOn gap (c :: cs)) :
    isPrintable c = true ∧ isBreak c = false ∧ (c = ':' && atSeparator cs) = false ∧
      (c = '#' && gap) = false ∧ GoesOn (separates c) cs := by
  have hi := h.noIndicator
  simp only [hasInnerIndicator, Bool.or_eq_false_iff] at hi
  refine ⟨h.printable c (List.mem_cons_self ..), h.noBreak c (List.mem_cons_self ..),
    hi.1.1, hi.1.2, ?_⟩
  refine ⟨fun d hd => h.printable d (List.mem_cons_of_mem _ hd),
    fun d hd => h.noBreak d (List.mem_cons_of_mem _ hd), ?_, hi.2⟩
  have hl := h.noSpaceEnd
  cases cs with
  | nil => simp
  | cons d cs => rwa [List.getLast?_cons_cons] at hl

/-- A colon that does not separate within the text does not separate before the line break
either. -/
theorem colon_of_atSeparator {c : Char} {cs rest : List Char}
    (h : (c = ':' && atSeparator cs) = false) :
    (c = ':' && atGap (cs ++ '\n' :: rest)) = false := by
  cases cs with
  | nil =>
    have : c ≠ ':' := by simpa [atSeparator] using h
    simp [this]
  | cons d cs =>
    simp only [atSeparator, separates, atGap, List.cons_append, List.head?_cons, Option.map_some,
      Option.getD_some, Bool.and_eq_false_iff, Bool.or_eq_false_iff] at h ⊢
    exact h.imp_right (·.1)

/-- What a text without quotes is like. -/
structure Starts (c : Char) (cs : List Char) : Prop where
  noSpace : c ≠ ' '
  noLead : Written.isLeadIndicator c = false
  noSign : ((c = '?' || c = ':' || c = '-') && atSeparator cs) = false
  goesOn : GoesOn false (c :: cs)

theorem starts_of_plainAllowed {c : Char} {cs : List Char}
    (h : Written.plainAllowed (c :: cs) = true) :
    Starts c cs := by
  have hp := Written.printable_of_plainAllowed h
  simp only [Written.plainAllowed, Bool.and_eq_true, Bool.not_eq_true', Written.atAnEnd,
    Bool.or_eq_false_iff, Written.hasIndicator] at h
  obtain ⟨⟨⟨-, hb⟩, hh, hl⟩, ⟨⟨-, hi⟩, hs⟩, hn⟩ := h
  have hc : (c = ':' && atSeparator cs) = false := by
    simp only [Bool.and_eq_false_iff, Bool.or_eq_false_iff] at hs ⊢
    exact hs.imp_left (·.1.2)
  refine ⟨by simpa [Written.isSpace] using hh, hi, hs, hp, fun d hd => ?_, ?_, ?_⟩
  · simpa using List.any_eq_false.1 hb d hd
  · intro he
    rw [he] at hl
    exact absurd hl (by decide)
  · simp only [hasInnerIndicator, hc, hn, Bool.and_false, Bool.or_false]

section Plain

variable {edge column : Nat} {rest : List Char}

mutual

/-- The rest of a text is read in a word, -/
theorem inWord_plain (start : Mark) (hr : ∀ c ∈ rest.head?, isGap c = false) (hc : column < edge)
    (cs read w : List Char) (gap : Gap) (m : Mark) (h : GoesOn false cs) (hw : w ≠ [])
    (hm : edge ≤ m.column) :
    inWord edge start read gap w m (cs ++ '\n' :: (spaces column ++ rest)) =
      .ok ⟨read.reverse ++ (gap.folded.reverse ++ (w.reverse ++ cs)), true,
        ⟨m.down.right column, rest⟩⟩ := by
  cases cs with
  | nil =>
    rw [List.nil_append, inWord_gap rfl hw, inGap_feed hr hc]
    simp
  | cons c cs =>
    obtain ⟨hp, hb, hi, -, ht⟩ := h.cons
    by_cases hs : c = ' '
    · subst hs
      have ih := inGap_plain start hr hc cs (w ++ gap.folded ++ read) [' '] (m.right 1) ht
        (fun he => h.noSpaceEnd (by rw [he]; rfl)) (Nat.le_succ_of_le hm)
      rw [List.cons_append, inWord_gap rfl hw, Gap.empty, inGap_space, ih]
      simp
    · have hg := isGap_eq_false hp hs hb
      have ih := inWord_plain start hr hc cs read (c :: w) gap (m.right 1)
        (separates_eq_false hp hg ▸ ht) (List.cons_ne_nil _ _)
        (Nat.le_succ_of_le hm)
      rw [List.cons_append, inWord_cons hg (colon_of_atSeparator hi), ih]
      simp
termination_by (cs.length, 0)

/-- and behind blanks, where there has to be one. -/
theorem inGap_plain (start : Mark) (hr : ∀ c ∈ rest.head?, isGap c = false) (hc : column < edge)
    (cs read bs : List Char) (m : Mark) (h : GoesOn true cs) (hn : cs ≠ []) (hm : edge ≤ m.column) :
    inGap edge start read (.blanks bs) m (cs ++ '\n' :: (spaces column ++ rest)) =
      .ok ⟨read.reverse ++ (bs.reverse ++ cs), true, ⟨m.down.right column, rest⟩⟩ := by
  obtain ⟨c, cs, rfl⟩ := List.exists_cons_of_ne_nil hn
  obtain ⟨hp, hb, hi, hh, ht⟩ := h.cons
  by_cases hs : c = ' '
  · subst hs
    have ih := inGap_plain start hr hc cs read (' ' :: bs) (m.right 1) ht
      (fun he => h.noSpaceEnd (by rw [he]; rfl)) (Nat.le_succ_of_le hm)
    rw [List.cons_append, inGap_space, ih]
    simp
  · have hg := isGap_eq_false hp hs hb
    have hs : c ≠ '#' := by simpa using hh
    have ih := inWord_plain start hr hc cs read [c] (.blanks bs) (m.right 1)
      (separates_eq_false hp hg ▸ ht)
      (List.cons_ne_nil _ _) (Nat.le_succ_of_le hm)
    rw [List.cons_append, inGap_word hg hs (Nat.lt_of_lt_of_le (Nat.zero_lt_of_lt hc) hm) hm,
      inWord_cons hg (colon_of_atSeparator hi), ih]
    rfl
termination_by (cs.length, 1)

end

/-- **A plain scalar is read back**, up to the next line. -/
theorem scan_plain {cs : List Char} {m : Mark} (hr : ∀ c ∈ rest.head?, isGap c = false)
    (h : Written.plainAllowed cs = true) (hn : cs ≠ []) (hc : column < edge)
    (hm : edge ≤ m.column) :
    scan false edge ⟨m, cs ++ '\n' :: (spaces column ++ rest)⟩ =
      .ok ⟨cs, true, ⟨m.down.right column, rest⟩⟩ := by
  obtain ⟨c, cs, rfl⟩ := List.exists_cons_of_ne_nil hn
  have hs := starts_of_plainAllowed h
  obtain ⟨hp, hb, hi, -, ht⟩ := hs.goesOn.cons
  have hg := isGap_eq_false hp hs.noSpace hb
  have hh : c ≠ '#' := by rintro rfl; exact absurd hs.noLead (by decide)
  have hd : (Cursor.mk m ((c :: cs) ++ '\n' :: (spaces column ++ rest))).atDocumentMark = false :=
    atDocumentMark_eq_false (Nat.lt_of_lt_of_le (Nat.zero_lt_of_lt hc) hm)
  have hw := inWord_plain m hr hc cs [] [c] .empty (m.right 1) (separates_eq_false hp hg ▸ ht)
    (List.cons_ne_nil _ _) (Nat.le_succ_of_le hm)
  rw [scan, more_eq_inWord hd fun he => hh (Option.some.inj he), List.cons_append,
    inWord_cons hg (colon_of_atSeparator hi), hw]
  rfl

end Plain

/-! ### Keys -/

/-- The name of a member that can be written as it is, on a line of which it is not all. -/
structure IsKey (key : List Char) : Prop where
  nonempty : key ≠ []
  plain : ∀ c ∈ key, (c.isAlphanum || c = '_') = true
  short : key.length ≤ 1024

/-- A letter, a digit or an underscore has no meaning of its own. -/
theorem ne_of_isKeyChar {c : Char} (h : (c.isAlphanum || c = '_') = true) (d : Char)
    (hd : (d.isAlphanum || d = '_') = false) : c ≠ d := by
  rintro rfl
  exact absurd (h.symm.trans hd) (by decide)

theorem isGap_of_isKeyChar {c : Char} (h : (c.isAlphanum || c = '_') = true) : isGap c = false := by
  have hn := ne_of_isKeyChar h
  refine isGap_eq_false_iff.2 ⟨hn ' ' (by decide), hn '\t' (by decide), ?_⟩
  simp [isBreak, hn '\n' (by decide), hn '\r' (by decide), hn '\u0085' (by decide),
    hn '\u2028' (by decide), hn '\u2029' (by decide)]

/-- A key is one word, which ends at its colon. -/
theorem word_key {key rest : List Char} {w : List Char} {m : Mark}
    (h : ∀ c ∈ key, (c.isAlphanum || c = '_') = true) (hr : atGap rest = true) :
    word false w m (key ++ ':' :: rest) =
      .ok (key.reverse ++ w, ⟨m.right key.length, ':' :: rest⟩) := by
  induction key generalizing w m with
  | nil =>
    rw [List.nil_append, word, if_neg (by decide)]
    simp [hr]
  | cons c cs ih =>
    obtain ⟨hc, hcs⟩ := List.forall_mem_cons.1 h
    have hn := ne_of_isKeyChar hc ':' (by decide)
    rw [List.cons_append, word]
    simp only [isGap_of_isKeyChar hc, hn, decide_false, Bool.false_and, Bool.and_false,
      Bool.or_false, Bool.false_eq_true, if_false]
    rw [ih hcs]
    simp [Nat.add_comm]

/-- **A key is read back**, up to its colon. -/
theorem scan_key {key rest : List Char} {edge : Nat} {m : Mark} (h : IsKey key)
    (hr : atGap rest = true) :
    scan false edge ⟨m, key ++ ':' :: rest⟩ =
      .ok ⟨key, false, ⟨m.right key.length, ':' :: rest⟩⟩ := by
  obtain ⟨c, cs, he⟩ := List.exists_cons_of_ne_nil h.nonempty
  have hc : (c.isAlphanum || c = '_') = true := h.plain c (by rw [he]; exact List.mem_cons_self ..)
  have hn := ne_of_isKeyChar hc
  have hd : (Cursor.mk m (key ++ ':' :: rest)).atDocumentMark = false := by
    simp [Cursor.atDocumentMark, Cursor.atMark, he, hn '-' (by decide), hn '.' (by decide)]
  have hs : (key ++ ':' :: rest).head? ≠ some '#' := by
    rw [he]
    exact fun h => hn '#' (by decide) (Option.some.inj h)
  have hk : key.reverse.isEmpty = false := by simp [he]
  rw [scan, more_eq_inWord hd hs, inWord, word_key h.plain hr]
  have hg : isGap ':' = false := by decide
  simp [hk, startsGap, Gap.empty, Gap.folded, Gap.isBroken, hg]

end Plain
end Yaml
end Retarget
