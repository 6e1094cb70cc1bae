/-
# Gaps that were written

Between two words of a scalar that was written there are either spaces or line breaks,
never both side by side, since the styles that keep them as they are exclude it
(`Separated`).  So a gap is read as what it was written for: spaces as themselves, and
breaks, with the indentation behind them left out.
-/

import Retarget.Proofs.Yaml.Characters

namespace Retarget
namespace Yaml

open Written (spaces isSpace)

namespace Mark

@[simp] theorem right_zero (m : Mark) : m.right 0 = m := rfl

@[simp] theorem right_right (m : Mark) (n k : Nat) : (m.right n).right k = m.right (n + k) := by
  simp [right, Nat.add_assoc]

@[simp] theorem right_column (m : Mark) (n : Nat) : (m.right n).column = m.column + n := rfl

@[simp] theorem right_line (m : Mark) (n : Nat) : (m.right n).line = m.line := rfl

@[simp] theorem right_down (m : Mark) (n : Nat) : (m.right n).down = m.down := rfl

@[simp] theorem down_column (m : Mark) : m.down.column = 0 := rfl

@[simp] theorem down_line (m : Mark) : m.down.line = m.line + 1 := rfl

end Mark

theorem isGap_of_isBreak {c : Char} (h : isBreak c = true) : isGap c = true := by
  rw [isGap, h, Bool.or_true]

theorem isGap_eq_false_iff {c : Char} :
    isGap c = false ↔ c ≠ ' ' ∧ c ≠ '\t' ∧ isBreak c = false := by
  simp [isGap, isBlank, and_assoc]

/-- A printable character is a space, a break, or none of the gap. -/
theorem isGap_eq_false {c : Char} (hp : Written.isPrintable c = true) (hs : c ≠ ' ')
    (hb : isBreak c = false) :
    isGap c = false :=
  isGap_eq_false_iff.2 ⟨hs, (ne_of_isPrintable hp).1, hb⟩

/-- No space stands beside a break. -/
def Separated (cs : List Char) : Prop :=
  Written.adjacent isBreak isSpace cs = false ∧ Written.adjacent isSpace isBreak cs = false

namespace Separated

variable {c d : Char} {cs : List Char}

theorem tail (h : Separated (c :: cs)) : Separated cs := by
  cases cs with
  | nil => exact ⟨rfl, rfl⟩
  | cons d cs =>
    simp only [Separated, Written.adjacent, Bool.or_eq_false_iff] at h ⊢
    exact ⟨h.1.2, h.2.2⟩

/-- Behind a space there is no break. -/
theorem not_isBreak (h : Separated (' ' :: d :: cs)) : isBreak d = false := by
  simpa [Written.adjacent, isSpace] using And.right h |> Bool.or_eq_false_iff.1 |>.1

/-- Behind a break there is no space. -/
theorem ne_space (h : Separated (c :: d :: cs)) (hc : isBreak c = true) : d ≠ ' ' := by
  have := (Bool.or_eq_false_iff.1 h.1).1
  simpa [hc, isSpace] using this

end Separated

namespace Gap

variable {edge : Nat} {m : Mark} {c : Char} {cs : List Char}

theorem read_space (bs : List Char) :
    read edge (blanks bs) m (' ' :: cs) = read edge (blanks (' ' :: bs)) (m.right 1) cs := by
  rw [read, if_neg (by decide), if_pos (by decide)]

theorem read_break (gap : Gap) (h : isBreak c = true) :
    read edge gap m (c :: cs) = read edge (gap.add c) m.down cs := by
  rw [read.eq_def]
  simp only [h, if_true]

/-- The indentation of a line does not count. -/
theorem read_indentation (first : Option Char) (more : List Char) (n : Nat) :
    read edge (breaks first more) m (spaces n ++ cs) =
      read edge (breaks first more) (m.right n) cs := by
  induction n generalizing m with
  | zero => rfl
  | succ n ih =>
    rw [spaces, List.replicate_succ, List.cons_append, read, if_neg (by decide), if_pos (by decide)]
    simp only [Char.reduceEq, decide_false, Bool.false_and, Bool.false_eq_true, if_false]
    rw [← spaces, ih, Mark.right_right, Nat.add_comm]

theorem read_word (gap : Gap) (h : isGap c = false) :
    read edge gap m (c :: cs) = .ok (gap, ⟨m, c :: cs⟩) := by
  obtain ⟨hs, ht, hb⟩ := isGap_eq_false_iff.1 h
  have hk : isBlank c = false := by simp [isBlank, hs, ht]
  rw [read.eq_def]
  simp only [hb, hk, Bool.false_eq_true, if_false]

theorem read_end (gap : Gap) (h : ∀ c ∈ cs.head?, isGap c = false) :
    read edge gap m cs = .ok (gap, ⟨m, cs⟩) := by
  cases cs with
  | nil => rw [read]
  | cons c cs => exact read_word gap (h c rfl)

/-- A line feed and the indentation of the next line are read up to what stands there. -/
theorem read_feed {n : Nat} (h : ∀ c ∈ cs.head?, isGap c = false) (bs : List Char) :
    read edge (blanks bs) m ('\n' :: (spaces n ++ cs)) =
      .ok (breaks (some '\n') [], ⟨m.down.right n, cs⟩) := by
  rw [read_break _ rfl, add, read_indentation, read_end _ h]

end Gap

/-- Within a line no document starts or ends. -/
theorem atDocumentMark_eq_false {c : Cursor} (h : 0 < c.mark.column) :
    c.atDocumentMark = false := by
  have h0 : (c.mark.column == 0) = false := by simp; omega
  simp [Cursor.atDocumentMark, Cursor.atMark, h0]

end Yaml
end Retarget
