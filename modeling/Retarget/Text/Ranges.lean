/-
# Sets of characters given by ranges

A Unicode property is a list of closed ranges of code points in rising order.
-/

namespace Retarget
namespace Text

/-- Closed ranges of code points. -/
abbrev Ranges := List (Nat × Nat)

/-- The character lies in one of the ranges. -/
def Ranges.has (table : Ranges) (c : Char) : Bool :=
  table.any fun r => r.1 ≤ c.toNat && c.toNat ≤ r.2

theorem Ranges.has_iff {table : Ranges} {c : Char} :
    table.has c = true ↔ ∃ r ∈ table, r.1 ≤ c.toNat ∧ c.toNat ≤ r.2 := by
  simp [Ranges.has]

end Text
end Retarget
