/-
# Reports in JSON are faithful

The text of a report is one JSON object with each member of the report once, and whoever reads it
gets the report back: from the values of the members, in whatever way they are looked up, and by
reading the text as a report.  A report nests five levels at most and the reader has `127`, so there
is no report that could not be read.  Two reports with one text are therefore the same.
-/

import Retarget.Proofs.Json.RoundTrip
import Retarget.Proofs.Report

namespace Retarget
namespace Json

/-- Any value, read as it is. -/
def anyValue : Shape Value := .buffered "any value" some

/-- **A report in JSON is faithful.**  Its text is a single object whose members are those of the
report, each once, with the reason among them just if there is one.  The values of the members give
the report back, with every text and every list in order, and so does reading the text.  Two reports
with the same text are equal. -/
theorem json_report_faithful (r : Report) :
    (∃ members : List (Value × Value),
      read anyValue (r.text .json) = .ok (.map members) ∧
      members.map Prod.fst = r.memberNames.map .text ∧ r.memberNames.Nodup ∧
      Report.shape.ofValue? (.map members) = some r) ∧
    read Report.shape (r.text .json) = .ok r ∧
    ∀ s : Report, s.text .json = r.text .json ↔ s = r := by
  have hlimit : ∀ s : Report, s.tree.depth ≤ depthLimit := fun s =>
    Nat.le_trans s.depth_tree_le (by decide)
  have hread : ∀ s : Report, read Report.shape (s.text .json) = .ok s := fun s =>
    read_render_of_depth s.holds_tree (hlimit s)
  refine ⟨?_, hread r, fun s => ⟨fun h => ?_, fun h => h ▸ rfl⟩⟩
  · obtain ⟨members, ht, hn⟩ := r.exists_tree_eq
    have hv : r.tree.value = .map (Tree.memberValues members) := by rw [ht, Tree.value]
    refine ⟨Tree.memberValues members, ?_, ?_, r.nodup_memberNames, ?_⟩
    · have hh : anyValue.Holds r.tree r.tree.value := rfl
      rw [← hv]
      exact read_render_of_depth hh (hlimit r)
    · rw [Tree.map_fst_memberValues, hn]
    · rw [← hv]
      exact Report.shape.ofValue?_of_holds r.holds_tree
  · have hs := hread s
    rw [h, hread r] at hs
    exact (Except.ok.inj hs).symm

end Json
end Retarget
