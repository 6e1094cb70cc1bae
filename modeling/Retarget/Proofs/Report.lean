/-
# What is written for a report holds the report

Reports are written and never read by the program, so how a report stands in a file is said here,
as its readers find it (`Report.shape`): every member once, with the reason left out where there is
none, and no other member.  The tree of a report holds the report (`Report.holds_tree`) whatever
its texts are and however many steps and changes it lists, and it is at most five levels deep:

| level | what is on it |
| --- | --- |
| 1 | the report |
| 2 | its lists |
| 3 | an applied step |
| 4 | the list of its changes |
| 5 | a change |
-/

import Retarget.Proofs.Snapshot
import Retarget.Report

namespace Retarget

/-- How a status stands in a file. -/
def Status.shape : Shape Status :=
  .choice "MigrationStatus" ([Status.migrated, .rejected].map fun s => (s.label, s))

namespace Report

/-- How a report stands in a file: all members are there but for the reason, and no others. -/
def shape : Shape Report :=
  .record "MigrationReport" true
    (.required "project" .text (.required "status" Status.shape
      (.defaulted "rejection_reason" (.nullable .text) none
        (.required "applied_transformations" (.list Applied.shape)
          (.required frameworksKey (.list .text) (.required appendKey .flag
            (.required "progress" (.list .text) .done)))))))
    fun (project, status, reason, applied, frameworks, append, progress, ()) =>
      ⟨project, status, reason, applied, frameworks, append, progress⟩

/-- The names of the report's members, in order. -/
def memberNames (r : Report) : List String :=
  ["project", "status"] ++ (if r.reason.isSome then ["rejection_reason"] else []) ++
    ["applied_transformations", "target_frameworks", "append_target_framework_to_output_path",
      "progress"]

theorem nodup_memberNames (r : Report) : r.memberNames.Nodup := by
  rw [memberNames]
  split <;> decide

end Report

/-! ### What is written -/

theorem Setting.holds_tree (f : Setting) : shape.Holds f.tree f := by
  cases f <;> exact ⟨_, rfl, rfl⟩

theorem Change.holds_tree (c : Change) : shape.Holds c.tree c := by
  refine ⟨by decide, _, (c.field, c.oldValue, c.newValue, ()), rfl, ?_, rfl⟩
  exact ⟨_, _, rfl, c.field.holds_tree, _, _, rfl, rfl, _, [], rfl, rfl, rfl⟩

theorem Applied.holds_tree (a : Applied) : shape.Holds a.tree a := by
  refine ⟨by decide, _, (a.name, a.changes, ()), rfl, ?_, rfl⟩
  exact ⟨_, _, rfl, rfl, _, [], rfl, Shape.holds_list fun c _ => c.holds_tree, rfl⟩

theorem Status.holds_label (s : Status) : shape.Holds (.text s.label) s := by
  cases s <;> exact ⟨_, rfl, rfl⟩

theorem Applied.depth_tree_le (a : Applied) : a.tree.depth ≤ 3 := by
  have hc : Tree.depthAll (a.changes.map Change.tree) ≤ 1 :=
    Tree.depthAll_map_le (fun _ => Nat.le_refl 1) a.changes
  simp only [tree, Tree.depth, Tree.depthMembers]
  omega

namespace Report

/-- The members that follow the reason. -/
theorem hold_members (r : Report) :
    Fields.Hold (.required "applied_transformations" (.list Applied.shape)
      (.required frameworksKey (.list .text) (.required appendKey .flag
        (.required "progress" (.list .text) .done))))
      [("applied_transformations", .list (r.applied.map Applied.tree)),
        (frameworksKey, Tree.texts r.frameworks), (appendKey, .flag r.appendFramework),
        ("progress", Tree.texts r.progress)]
      (r.applied, r.frameworks, r.appendFramework, r.progress, ()) :=
  ⟨_, _, rfl, Shape.holds_list fun a _ => a.holds_tree, _, _, rfl, holds_texts r.frameworks,
    _, _, rfl, rfl, _, [], rfl, holds_texts r.progress, rfl⟩

/-- **What is written for a report holds the report**: a reason is written even if it is empty. -/
theorem holds_tree (r : Report) : shape.Holds r.tree r := by
  refine ⟨by decide, _, (r.project, r.status, r.reason, r.applied, r.frameworks, r.appendFramework,
    r.progress, ()), rfl, ?_, rfl⟩
  refine ⟨_, _, rfl, rfl, _, _, rfl, r.status.holds_label, ?_⟩
  cases hr : r.reason with
  | none => exact .inr ⟨rfl, r.hold_members⟩
  | some reason => exact .inl ⟨_, _, rfl, ⟨reason, rfl, rfl⟩, r.hold_members⟩

theorem depth_tree_le (r : Report) : r.tree.depth ≤ 5 := by
  have ha : Tree.depthAll (r.applied.map Applied.tree) ≤ 3 :=
    Tree.depthAll_map_le Applied.depth_tree_le r.applied
  cases hr : r.reason <;>
    simp [tree, hr, Tree.depth, Tree.depthMembers, depth_texts] <;> omega

/-- The members of the tree are those of the report. -/
theorem exists_tree_eq (r : Report) :
    ∃ members, r.tree = .record members ∧ members.map Prod.fst = r.memberNames := by
  refine ⟨_, rfl, ?_⟩
  cases hr : r.reason <;> simp [memberNames, hr, frameworksKey, appendKey]

end Report

end Retarget
