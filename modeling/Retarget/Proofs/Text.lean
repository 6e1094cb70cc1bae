/-
# What cutting, trimming and comparing texts come to

Each of the three functions that the guard applies to a text is pinned down by a relation
that does not mention it:

| function | relation |
| --- | --- |
| `pieces` | `IsCut`: texts free of the separator which, joined with it, are the text |
| `trim` | `IsCore`: the text without white space around it, and with none at its ends |
| `agrees` | `SameLetter` character by character, over the whole length |

Each relation holds for exactly one result.

White space that is added around pieces is trimmed off again and makes no new pieces
(`IsPadded`).  A map of characters that respects the separator and white space, as folding
letters does, may be applied before cutting and trimming or after (`pieces_map`, `trim_map`).
-/

import Retarget.Text.Blank
import Retarget.Text.Caseless
import Retarget.Text.Joined
import Mathlib.Data.List.Forall2
import Mathlib.Data.List.TakeWhile

namespace Retarget
namespace Text

/-- The texts are what remains of `cs` when it is cut at every `sep`. -/
structure IsCut (sep : Char) (cs : List Char) (ps : List (List Char)) : Prop where
  nonempty : ps ≠ []
  free : ∀ p ∈ ps, sep ∉ p
  whole : joinedWith sep ps = cs

/-- No piece holds the separator. -/
theorem not_mem_of_mem_pieces {sep : Char} {cs p : List Char} (h : p ∈ pieces sep cs) :
    sep ∉ p := by
  induction cs generalizing p with
  | nil =>
    obtain rfl : p = [] := by simpa [pieces] using h
    exact List.not_mem_nil
  | cons c cs ih =>
    by_cases hc : c = sep
    · rw [pieces, if_pos hc] at h
      rcases List.mem_cons.1 h with rfl | h
      · exact List.not_mem_nil
      · exact ih h
    · rw [pieces, if_neg hc] at h
      cases hq : pieces sep cs with
      | nil => exact absurd hq (pieces_ne_nil sep cs)
      | cons q qs =>
        rw [hq] at h ih
        rcases List.mem_cons.1 h with rfl | h
        · have hq : sep ∉ q := ih (List.mem_cons_self ..)
          simp [hq, Ne.symm hc]
        · exact ih (List.mem_cons_of_mem _ h)

/-- A text free of the separator is its only piece. -/
theorem pieces_of_not_mem {sep : Char} {p : List Char} (h : sep ∉ p) : pieces sep p = [p] := by
  induction p with
  | nil => rfl
  | cons c p ih =>
    obtain ⟨hc, hp⟩ := List.ne_and_not_mem_of_not_mem_cons h
    rw [pieces, if_neg (Ne.symm hc), ih hp]

/-- The piece before the first separator is split off. -/
theorem pieces_append_cons {sep : Char} {p : List Char} (h : sep ∉ p) (cs : List Char) :
    pieces sep (p ++ sep :: cs) = p :: pieces sep cs := by
  induction p with
  | nil => rw [List.nil_append, pieces, if_pos rfl]
  | cons c p ih =>
    obtain ⟨hc, hp⟩ := List.ne_and_not_mem_of_not_mem_cons h
    rw [List.cons_append, pieces, if_neg (Ne.symm hc), ih hp]

/-- The pieces of a text on both sides of a separator. -/
theorem pieces_append_sep (sep : Char) (as bs : List Char) :
    pieces sep (as ++ sep :: bs) = pieces sep as ++ pieces sep bs := by
  induction as with
  | nil => simp [pieces]
  | cons a as ih =>
    by_cases ha : a = sep
    · rw [List.cons_append, pieces, if_pos ha, pieces, if_pos ha, ih, List.cons_append]
    · rw [List.cons_append, pieces, if_neg ha, pieces, if_neg ha, ih]
      cases hp : pieces sep as with
      | nil => exact absurd hp (pieces_ne_nil sep as)
      | cons p ps => rfl

/-- Pieces that were joined are found again. -/
theorem pieces_joinedWith {sep : Char} {ps : List (List Char)} (hn : ps ≠ [])
    (h : ∀ p ∈ ps, sep ∉ p) : pieces sep (joinedWith sep ps) = ps := by
  induction ps with
  | nil => exact absurd rfl hn
  | cons p ps ih =>
    have hp : sep ∉ p := h p (List.mem_cons_self ..)
    cases ps with
    | nil => exact pieces_of_not_mem hp
    | cons q ps =>
      rw [joinedWith, pieces_append_cons hp,
        ih (List.cons_ne_nil _ _) fun r hr => h r (List.mem_cons_of_mem _ hr)]

/-- **A text is cut in one way only**, and `pieces` finds it. -/
theorem isCut_iff {sep : Char} {cs : List Char} {ps : List (List Char)} :
    IsCut sep cs ps ↔ ps = pieces sep cs := by
  constructor
  · rintro ⟨hn, hf, rfl⟩
    exact (pieces_joinedWith hn hf).symm
  · rintro rfl
    exact ⟨pieces_ne_nil sep cs, fun p hp => not_mem_of_mem_pieces hp, joinedWith_pieces sep cs⟩

/-- A map of characters that keeps the separator, and makes no other character one, may be applied
before the cut or after it. -/
theorem pieces_map {sep : Char} {f : Char → Char} (hf : ∀ c, f c = sep ↔ c = sep) (cs : List Char) :
    pieces sep (cs.map f) = (pieces sep cs).map (List.map f) := by
  induction cs with
  | nil => rfl
  | cons c cs ih =>
    rw [List.map_cons, pieces, ih, pieces]
    by_cases hc : c = sep
    · rw [if_pos hc, if_pos ((hf c).2 hc)]
      rfl
    · rw [if_neg hc, if_neg (mt (hf c).1 hc)]
      cases pieces sep cs <;> rfl

/-- `core` is what remains of `cs` when the white space at both ends is removed. -/
def IsCore (cs core : List Char) : Prop :=
  (∃ l r, cs = l ++ core ++ r ∧ (∀ c ∈ l, isBlank c) ∧ ∀ c ∈ r, isBlank c) ∧
    (∀ c ∈ core.head?, ¬ isBlank c) ∧ ∀ c ∈ core.getLast?, ¬ isBlank c

/-- Taking characters of a class off the front splits the text in two. -/
theorem exists_eq_append_dropWhile (p : Char → Bool) (cs : List Char) :
    ∃ l, cs = l ++ cs.dropWhile p ∧ (∀ c ∈ l, p c) ∧ ∀ c ∈ (cs.dropWhile p).head?, ¬ p c := by
  refine ⟨cs.takeWhile p, List.takeWhile_append_dropWhile.symm, fun c hc => ?_, fun c hc => ?_⟩
  · exact List.mem_takeWhile_imp hc
  · have := List.head?_dropWhile_not p cs
    rw [Option.mem_def.1 hc] at this
    simpa using this

/-- Blanks in front of a text that does not start with one are taken off, no more. -/
theorem dropWhile_append_of_head? {p : Char → Bool} {l cs : List Char} (hl : ∀ c ∈ l, p c)
    (hc : ∀ c ∈ cs.head?, ¬ p c) : (l ++ cs).dropWhile p = cs := by
  rw [List.dropWhile_append_of_pos hl]
  cases cs with
  | nil => rfl
  | cons c cs => exact List.dropWhile_cons_of_neg (hc c rfl)

/-- They are taken off as a whole. -/
theorem takeWhile_append_of_head? {p : Char → Bool} {l cs : List Char} (hl : ∀ c ∈ l, p c)
    (hc : ∀ c ∈ cs.head?, ¬ p c) : (l ++ cs).takeWhile p = l := by
  rw [List.takeWhile_append_of_pos hl]
  cases cs with
  | nil => exact List.append_nil l
  | cons c cs => rw [List.takeWhile_cons_of_neg (hc c rfl), List.append_nil]

theorem trimEnd_append {cs r : List Char} (hr : ∀ c ∈ r, isBlank c)
    (hc : ∀ c ∈ cs.getLast?, ¬ isBlank c) : trimEnd (cs ++ r) = cs := by
  rw [trimEnd, List.reverse_append,
    dropWhile_append_of_head? (fun c h => hr c (List.mem_reverse.1 h)) (by simpa using hc),
    List.reverse_reverse]

theorem isCore_trim (cs : List Char) : IsCore cs (trim cs) := by
  obtain ⟨l, hl, hlb, hh⟩ := exists_eq_append_dropWhile isBlank cs
  obtain ⟨r, hr, hrb, ht⟩ := exists_eq_append_dropWhile isBlank (trimStart cs).reverse
  have hs : trimStart cs = trim cs ++ r.reverse := by
    rw [trim, trimEnd, ← List.reverse_append, ← hr, List.reverse_reverse]
  refine ⟨⟨l, r.reverse, ?_, hlb, fun c hc => hrb c (List.mem_reverse.1 hc)⟩, fun c hc => ?_, ?_⟩
  · rw [List.append_assoc, ← hs]
    exact hl
  · refine hh c ?_
    rw [show cs.dropWhile isBlank = trim cs ++ r.reverse from hs, List.head?_append,
      Option.mem_def.1 hc]
    rfl
  · simpa [trim, trimEnd] using ht

/-- **A text has one core only**, and `trim` finds it. -/
theorem isCore_iff {cs core : List Char} : IsCore cs core ↔ core = trim cs := by
  constructor
  · rintro ⟨⟨l, r, rfl, hl, hr⟩, hh, ht⟩
    cases core with
    | nil =>
      have hb : ∀ c ∈ l ++ [] ++ r, isBlank c := fun c hc => by
        rcases List.mem_append.1 hc with h | h
        · exact hl c (by simpa using h)
        · exact hr c h
      rw [trim, trimStart, List.dropWhile_eq_nil_iff.2 hb]
      rfl
    | cons c core =>
      rw [trim, trimStart, List.append_assoc, dropWhile_append_of_head? hl (by simpa using hh),
        trimEnd_append hr ht]
  · rintro rfl
    exact isCore_trim cs

/-- `padded` is `cs` with white space added at either end, or at both. -/
def IsPadded (cs padded : List Char) : Prop :=
  ∃ l r, padded = l ++ cs ++ r ∧ (∀ c ∈ l, isBlank c) ∧ ∀ c ∈ r, isBlank c

/-- Added white space is trimmed off with what was there before. -/
theorem trim_of_isPadded {cs padded : List Char} (h : IsPadded cs padded) :
    trim padded = trim cs := by
  obtain ⟨l, r, rfl, hl, hr⟩ := h
  obtain ⟨⟨l', r', he, hl', hr'⟩, hcore⟩ := isCore_trim cs
  refine (isCore_iff.1 ⟨⟨l ++ l', r' ++ r, ?_, fun c hc => ?_, fun c hc => ?_⟩, hcore⟩).symm
  · calc l ++ cs ++ r = l ++ (l' ++ trim cs ++ r') ++ r := by rw [← he]
      _ = l ++ l' ++ trim cs ++ (r' ++ r) := by simp only [List.append_assoc]
  · exact (List.mem_append.1 hc).elim (hl c) (hl' c)
  · exact (List.mem_append.1 hc).elim (hr' c) (hr c)

section Padded

variable {sep : Char} {tokens padded : List (List Char)}

/-- White space around texts without the separator brings no separator into them. -/
theorem free_padded (hs : ¬ isBlank sep) (hf : ∀ t ∈ tokens, sep ∉ t)
    (hp : List.Forall₂ IsPadded tokens padded) : ∀ u ∈ padded, sep ∉ u := by
  induction hp with
  | nil => exact fun _ h => absurd h List.not_mem_nil
  | cons h _ ih =>
    rw [List.forall_mem_cons] at hf ⊢
    obtain ⟨l, r, rfl, hl, hr⟩ := h
    refine ⟨?_, ih hf.2⟩
    simp only [List.mem_append, not_or]
    exact ⟨⟨fun hc => hs (hl _ hc), hf.1⟩, fun hc => hs (hr _ hc)⟩

/-- The pieces of a text, padded and joined again, are the pieces of the new text. -/
theorem isCut_padded (hs : ¬ isBlank sep) {cs : List Char} (hc : IsCut sep cs tokens)
    (hp : List.Forall₂ IsPadded tokens padded) : IsCut sep (joinedWith sep padded) padded := by
  refine ⟨?_, free_padded hs hc.free hp, rfl⟩
  rintro rfl
  exact hc.nonempty (List.forall₂_nil_right_iff.1 hp)

/-- Padded texts are the same after trimming. -/
theorem map_trim_padded (hp : List.Forall₂ IsPadded tokens padded) :
    padded.map trim = tokens.map trim := by
  induction hp with
  | nil => rfl
  | cons h _ ih => rw [List.map_cons, List.map_cons, trim_of_isPadded h, ih]

end Padded

/-- A map that keeps white space, and makes no other character white space, may be applied before
trimming or after it. -/
theorem trim_map {f : Char → Char} (hf : ∀ c, isBlank (f c) = isBlank c) (cs : List Char) :
    trim (cs.map f) = (trim cs).map f := by
  have hb : isBlank ∘ f = isBlank := funext hf
  rw [trim, trim, trimStart, trimStart, trimEnd, trimEnd, List.dropWhile_map, hb, ← List.map_reverse,
    List.dropWhile_map, hb, ← List.map_reverse]

/-- The two characters are the same, or the two cases of one ASCII letter. -/
def SameLetter (a b : Char) : Prop :=
  a = b ∨ a.isUpper ∧ b.toNat = a.toNat + 32 ∨ b.isUpper ∧ a.toNat = b.toNat + 32

theorem isUpper_iff {c : Char} : c.isUpper ↔ 65 ≤ c.toNat ∧ c.toNat ≤ 90 := by
  show decide (c.val ≥ 'A'.val ∧ c.val ≤ 'Z'.val) = true ↔ _
  simp only [decide_eq_true_eq, ge_iff_le, UInt32.le_iff_toNat_le]
  exact Iff.rfl

/-- A capital is folded to the letter 32 code points further on. -/
theorem toNat_fold (c : Char) : (fold c).toNat = if c.isUpper then c.toNat + 32 else c.toNat := by
  show Char.toNat (if h : c.val ≥ 'A'.val ∧ c.val ≤ 'Z'.val then _ else c) = _
  by_cases hc : c.isUpper
  · have hn := isUpper_iff.1 hc
    rw [if_pos hc, dif_pos (of_decide_eq_true hc)]
    show (c.val + ('a'.val - 'A'.val)).toNat = c.toNat + 32
    rw [UInt32.toNat_add]
    show (c.toNat + 32) % 2 ^ 32 = c.toNat + 32
    omega
  · rw [if_neg hc, dif_neg fun h => hc (decide_eq_true h)]

theorem toNat_inj {a b : Char} : a.toNat = b.toNat ↔ a = b :=
  ⟨fun h => Char.ext (UInt32.toNat_inj.1 h), fun h => h ▸ rfl⟩

theorem fold_eq_fold_iff {a b : Char} : fold a = fold b ↔ SameLetter a b := by
  rw [← toNat_inj, SameLetter, ← toNat_inj, toNat_fold, toNat_fold]
  simp only [isUpper_iff]
  split_ifs <;> omega

theorem fold_fold (c : Char) : fold (fold c) = fold c := by
  rw [fold_eq_fold_iff, SameLetter]
  by_cases hc : c.isUpper
  · exact .inr (.inr ⟨hc, by rw [toNat_fold, if_pos hc]⟩)
  · exact .inl (toNat_inj.1 (by rw [toNat_fold, if_neg hc]))

/-- White space has no letter case. -/
theorem isBlank_fold (c : Char) : isBlank (fold c) = isBlank c := by
  rw [Bool.eq_iff_iff]
  simp only [isBlank, toNat_fold c, Bool.or_eq_true, Bool.and_eq_true, decide_eq_true_eq, beq_iff_eq]
  by_cases hc : c.isUpper
  · have := isUpper_iff.1 hc
    rw [if_pos hc]
    omega
  · rw [if_neg hc]

/-- A semicolon has no letter case. -/
theorem fold_eq_semicolon_iff (c : Char) : fold c = ';' ↔ c = ';' := by
  rw [← toNat_inj, ← toNat_inj, toNat_fold, show ';'.toNat = 59 from rfl]
  by_cases hc : c.isUpper
  · have := isUpper_iff.1 hc
    rw [if_pos hc]
    omega
  · rw [if_neg hc]

/-- **Texts agree when they are the same letter by letter.** -/
theorem agrees_iff_forall₂ {a b : List Char} : agrees a b ↔ List.Forall₂ SameLetter a b := by
  rw [agrees_iff, ← List.forall₂_eq_eq_eq, List.forall₂_map_left_iff, List.forall₂_map_right_iff]
  simp only [fold_eq_fold_iff]

end Text
end Retarget
