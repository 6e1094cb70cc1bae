/-
# Reports in YAML are unambiguous

In the text of a report nothing is told apart by its place alone: lists are not indented under
their keys, the reason is left out where there is none, and a text stands in one of four styles.
Whoever reads the text gets the report back all the same, whatever its texts are, because every
text and every collection in it is read back from what is written for it.  A report nests five
levels at most and the reader has `128`.  So no two reports have the same text.
-/

import Retarget.Proofs.Report
import Retarget.Proofs.Yaml.RoundTrip

namespace Retarget
namespace Yaml

/-- The names of all members that are written for reports. -/
def reportNames : List String :=
  ["project", "status", "rejection_reason", "applied_transformations", frameworksKey, appendKey,
    "progress", "name", "changes", "field", "old_value", "new_value"]

theorem isName_of_mem_reportNames {key : String} (h : key ∈ reportNames) : IsName key :=
  isName_of_forall (by decide) (by decide) (by decide) (by decide) h

theorem named_reportRecord {ms : List (String × Tree)}
    (h : ∀ m ∈ ms, m.1 ∈ reportNames ∧ m.2.Named) : (Tree.record ms).Named :=
  .record (fun m hm => isName_of_mem_reportNames (h m hm).1) fun m hm => (h m hm).2

theorem named_list {α : Type} {tree : α → Tree} (h : ∀ x, (tree x).Named) (xs : List α) :
    (Tree.list (xs.map tree)).Named := by
  refine .list fun t ht => ?_
  obtain ⟨x, -, rfl⟩ := List.mem_map.1 ht
  exact h x

theorem named_change (c : Change) : c.tree.Named :=
  named_reportRecord (by simp [reportNames, Setting.tree, Tree.Named.text])

theorem named_applied (a : Applied) : a.tree.Named :=
  named_reportRecord (by simp [reportNames, Tree.Named.text, named_list named_change])

/-- All members of a report have names that can be written as they are. -/
theorem named_report (r : Report) : r.tree.Named := by
  cases hr : r.reason <;>
    exact named_reportRecord (by
      simp [hr, reportNames, Tree.Named.text, Tree.Named.flag, named_list named_applied, named_texts])

/-- A report is read back from its text. -/
theorem read_render_report (r : Report) : read Report.shape (render r.tree) = .ok r := by
  refine (read_render_of_holds r.holds_tree (named_report r)).resolve_right fun ⟨hl, _⟩ => ?_
  exact absurd (Nat.le_trans r.depth_tree_le (by decide)) (Nat.not_le.2 hl)

/-- **A report in YAML is unambiguous.**  Reading its text gives the report back, with its project,
its status, its reason if it has one, all its steps and changes in order, its frameworks, its flag
and its messages; so two reports with the same text are equal. -/
theorem yaml_report_unambiguous (r : Report) :
    read Report.shape (r.text .yaml) = .ok r ∧ ∀ s : Report, s.text .yaml = r.text .yaml ↔ s = r := by
  refine ⟨read_render_report r, fun s => ⟨fun h => ?_, fun h => h ▸ rfl⟩⟩
  have hs : read Report.shape (s.text .yaml) = .ok s := read_render_report s
  have hr : read Report.shape (r.text .yaml) = .ok r := read_render_report r
  rw [h, hr] at hs
  exact (Except.ok.inj hs).symm

end Yaml
end Retarget
