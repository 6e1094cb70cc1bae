/-
# Comparison up to ASCII letter case

Two characters agree when they are equal after the letters `A` … `Z` have been
replaced by `a` … `z`; no other character is folded, so `K` (Kelvin sign) and `k`
differ.  Two texts agree when they have the same length and agree character by
character.
-/

namespace Retarget
namespace Text

/-- The character with an ASCII capital replaced by its small letter. -/
def fold (c : Char) : Char := c.toLower

/-- The two texts are equal up to the case of ASCII letters. -/
def agrees (a b : List Char) : Bool := a.map fold == b.map fold

theorem agrees_iff {a b : List Char} : agrees a b = true ↔ a.map fold = b.map fold := by
  simp [agrees]

@[simp] theorem agrees_refl (a : List Char) : agrees a a = true := by simp [agrees]

end Text
end Retarget
