/-
# Gaps between the words of a scalar

A plain or quoted scalar may run over several lines.  Blanks between two words of one
line belong to the scalar.  Around a line break they do not, and the breaks are *folded*:
a single line feed becomes a space, of several the first one is dropped, and `U+2028` and
`U+2029` are kept.
-/

import Retarget.Yaml.Source

namespace Retarget
namespace Yaml

/-- A gap comes next. -/
def startsGap (cs : List Char) : Bool := (cs.head?.map isGap).getD false

/-- What stands between two words: blanks, or breaks, of which `first` is absent if it
was escaped.  Characters are listed last first. -/
inductive Gap where
  | blanks (read : List Char)
  | breaks (first : Option Char) (more : List Char)
  deriving DecidableEq, Repr

namespace Gap

/-- No gap. -/
def empty : Gap := blanks []

/-- The gap reaches into another line. -/
def isBroken : Gap → Bool
  | blanks _ => false
  | breaks _ _ => true

/-- What the gap contributes to the scalar, last character first. -/
def folded : Gap → List Char
  | blanks read => read
  | breaks none more => more
  | breaks (some c) more =>
    if c = '\n' then (if more.isEmpty then [' '] else more) else more ++ [c]

/-- The gap with one more break. -/
def add (c : Char) : Gap → Gap
  | blanks _ => breaks (some c) []
  | breaks first more => breaks first (c :: more)

/-- The gap read on to the next word.  In a line after the first one a tab must not stand
before the column `edge`; the error is its place. -/
def read (edge : Nat) (gap : Gap) (m : Mark) : List Char → Except Mark (Gap × Cursor)
  | [] => .ok (gap, ⟨m, []⟩)
  | c :: cs =>
    if isBreak c then read edge (gap.add c) m.down cs
    else if isBlank c then
      match gap with
      | blanks bs => read edge (blanks (c :: bs)) (m.right 1) cs
      | breaks first more =>
        if c = '\t' && m.column < edge then .error m
        else read edge (breaks first more) (m.right 1) cs
    else .ok (gap, ⟨m, c :: cs⟩)

theorem length_of_read {edge : Nat} {gap g : Gap} {m : Mark} {cs : List Char} {c : Cursor}
    (h : gap.read edge m cs = .ok (g, c)) : c.rest.length ≤ cs.length := by
  fun_induction read edge gap m cs with
  | case1 => cases h; simp
  | case2 _ _ _ _ _ ih => simpa using Nat.le_succ_of_le (ih h)
  | case3 _ _ _ _ _ _ ih => simpa using Nat.le_succ_of_le (ih h)
  | case4 => simp at h
  | case5 _ _ _ _ _ _ _ _ ih => simpa using Nat.le_succ_of_le (ih h)
  | case6 => cases h; simp

/-- A gap is not passed over without moving on. -/
theorem length_of_read_lt {edge : Nat} {gap g : Gap} {m : Mark} {cs : List Char} {c : Cursor}
    (h : gap.read edge m cs = .ok (g, c)) (hd : startsGap cs) : c.rest.length < cs.length := by
  obtain ⟨d, cs, rfl⟩ : ∃ d ds, cs = d :: ds := by
    cases cs with
    | nil => simp [startsGap] at hd
    | cons d ds => exact ⟨d, ds, rfl⟩
  simp only [startsGap, isGap, List.head?_cons, Option.map_some, Option.getD_some,
    Bool.or_eq_true] at hd
  unfold read at h
  split at h
  · simpa using Nat.lt_succ_of_le (length_of_read h)
  · rename_i hb
    split at h
    · split at h
      · simpa using Nat.lt_succ_of_le (length_of_read h)
      · split at h
        · simp at h
        · simpa using Nat.lt_succ_of_le (length_of_read h)
    · rename_i hs
      simp_all

end Gap
end Yaml
end Retarget
