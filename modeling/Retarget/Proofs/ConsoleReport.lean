/-
# The lines of a report agree with the run

The lines on a migrated project show how it stands now, and below that what led there:

    Target Frameworks: net6.0
    AppendTargetFrameworkToOutputPath: false
    Transformations Applied: 2
      • [first] TargetFrameworks: net45 → net6.0
      • [second] AppendTargetFrameworkToOutputPath: true → false

Three facts tie the lines to each other and to the run.  There is one bullet for each recorded
change, and the one of a change stands behind as many others as there are changes before it: those
of earlier steps and those before it in its own (`getElem?_recorded`).  The number of steps is that
of the pipeline.  And since the changes of a setting lead to its value after the run, the last
bullet of a setting ends with the text on the setting's own line (`newValue_of_last`), even though
the settings come to the report from the project and the changes from the record of the run.

The lines on a project that was refused stop after the reason, so nothing of this is in them.
-/

import Retarget.Proofs.ChangeLog
import Retarget.Report

namespace Retarget

namespace Report

open Pipeline

/-- The recorded changes with the names of their steps, in order. -/
def recorded (entries : List Applied) : List (String × Change) :=
  entries.flatMap fun a => a.changes.map (a.name, ·)

/-- How many changes are recorded. -/
def changeCount (entries : List Applied) : Nat := (entries.flatMap (·.changes)).length

theorem bullets_eq (entries : List Applied) :
    bullets entries = (recorded entries).map fun (step, c) => bullet step c := by
  rw [bullets, recorded, List.map_flatMap]
  simp only [List.map_map]
  rfl

theorem recorded_append (as bs : List Applied) :
    recorded (as ++ bs) = recorded as ++ recorded bs := List.flatMap_append

/-- The changes without the names. -/
theorem map_snd_recorded (entries : List Applied) :
    (recorded entries).map Prod.snd = entries.flatMap (·.changes) := by
  rw [recorded, List.map_flatMap]
  simp only [List.map_map]
  exact List.flatMap_congr fun a _ => List.map_id _

theorem length_recorded (entries : List Applied) :
    (recorded entries).length = changeCount entries := by
  rw [changeCount, ← map_snd_recorded, List.length_map]

/-- **A change stands behind those of earlier steps and those before it in its own.** -/
theorem getElem?_recorded (before : List Applied) (entry : Applied) (after : List Applied)
    {cs ds : List Change} {c : Change} (h : entry.changes = cs ++ c :: ds) :
    (recorded (before ++ entry :: after))[changeCount before + cs.length]? =
      some (entry.name, c) := by
  have he : recorded (before ++ entry :: after) =
      recorded before ++ (cs.map (entry.name, ·) ++
        (entry.name, c) :: (ds.map (entry.name, ·) ++ recorded after)) := by
    rw [recorded_append]
    simp only [recorded, List.flatMap_cons, h, List.map_append, List.map_cons, List.append_assoc,
      List.cons_append]
  rw [he, ← length_recorded, List.getElem?_append_right (Nat.le_add_right ..),
    Nat.add_sub_cancel_left, List.getElem?_append_right (by simp)]
  simp

/-- **The last change of a setting shows the setting's value after the run.** -/
theorem newValue_of_last {steps : Pipeline} {p : Project} {earlier later : List (String × Change)}
    {step : String} {c : Change} (h : recorded (steps.log p) = earlier ++ (step, c) :: later)
    (hl : ∀ r ∈ later, r.2.field ≠ c.field) : c.newValue = (steps.leave p).shown c.field := by
  have hc : changesOf c.field (steps.log p) =
      (earlier.map Prod.snd).filter (·.field = c.field) ++ [c] := by
    have hnone : (later.map Prod.snd).filter (·.field = c.field) = [] := by
      simpa using fun d name hd => hl (name, d) hd
    rw [changesOf, ← map_snd_recorded, h, List.map_append, List.map_cons, List.filter_append,
      List.filter_cons_of_pos (by simp), hnone]
  have hleads := leads_log c.field steps p
  rw [hc] at hleads
  have hlast := hleads.newValue_getLast (by simp)
  rwa [List.getLast_append_singleton] at hlast

/-- The lines on a migrated project, with the settings that it has. -/
theorem lines_migrated (name : String) (result : Completed) (p : Project) (progress : List String) :
    (ofOutcome name (.migrated result) p.frameworks p.appendFramework progress).lines =
      ["=== Project Migration Report ===", "", "Project: " ++ name, "Status: MIGRATED",
        "Target Frameworks: " ++ p.shown .frameworks,
        "AppendTargetFrameworkToOutputPath: " ++ p.shown .appendFramework,
        "Transformations Applied: " ++ toString result.applied.length] ++
        (recorded result.applied).map fun (step, c) => bullet step c := by
  rw [← bullets_eq]
  rfl

/-- **The lines of a report agree with each other and with the run.**  For a migrated project they
are the header, the project's name, the status, the two settings after the run, the number of
steps, and one bullet for each recorded change, in the order of the steps and within a step in the
order of the record, with the name of the step.  The last bullet of a setting shows as its new value
what the line of the setting shows.  For a project that was refused there are only the header, the
name, the status and the reason, whatever its settings are. -/
theorem console_agrees_with_run (steps : Pipeline) (p : Project) (name : String)
    (progress : List String) :
    let after := (steps.migrate p).project
    (∀ result, (steps.migrate p).outcome = .ok (.migrated result) →
      let shown := recorded result.applied
      (ofOutcome name (.migrated result) after.frameworks after.appendFramework progress).text
          .console =
        String.join (([
          "=== Project Migration Report ===", "", "Project: " ++ name, "Status: MIGRATED",
          "Target Frameworks: " ++ after.shown .frameworks,
          "AppendTargetFrameworkToOutputPath: " ++ after.shown .appendFramework,
          "Transformations Applied: " ++ toString steps.length] ++
          shown.map fun r : String × Change => "  • [" ++ r.1 ++ "] " ++ r.2.field.label ++ ": " ++
            r.2.oldValue ++ " → " ++ r.2.newValue).map (· ++ "\n")) ∧
      shown.length = changeCount result.applied ∧
      result.applied.map (·.name) = steps.names ∧
      (∀ before entry others, result.applied = before ++ entry :: others →
        ∀ cs c ds, entry.changes = cs ++ c :: ds →
          shown[changeCount before + cs.length]? = some (entry.name, c)) ∧
      ∀ earlier step c later, shown = earlier ++ (step, c) :: later →
        (∀ r ∈ later, r.2.field ≠ c.field) → c.newValue = after.shown c.field) ∧
    ∀ kind frameworks append,
      (ofOutcome name (.rejected kind) frameworks append progress).text .console =
        String.join (["=== Project Migration Report ===", "", "Project: " ++ name,
          "Status: REJECTED",
          "Reason: " ++ (kind.description ++ " projects (" ++ kind.guid ++ ") cannot be migrated")].map
          (· ++ "\n")) := by
  intro after
  refine ⟨fun result h => ?_, fun _ _ _ => rfl⟩
  obtain ⟨hk, hr⟩ := outcome_migrate_eq_migrated_iff.1 h
  have ha : result.applied = steps.log p := applied_of_outcome hr
  have hafter : after = steps.leave p := by
    show (steps.migrate p).project = _
    rw [migrate_of_supported hk, run_of_succeeds (succeeds_of_outcome hr)]
  intro shown
  refine ⟨?_, length_recorded _, ?_, ?_, ?_⟩
  · have hlen : steps.length = result.applied.length := by rw [ha, length_log]
    rw [hlen]
    exact congrArg String.join (congrArg _ (lines_migrated name result after progress))
  · rw [ha, map_name_log]
  · intro before entry others he cs c ds hc
    show (recorded result.applied)[_]? = _
    rw [he]
    exact getElem?_recorded before entry others hc
  · intro earlier step c later hs hl
    have hlog : recorded (steps.log p) = earlier ++ (step, c) :: later := ha ▸ hs
    rw [hafter]
    exact newValue_of_last hlog hl

/-- Two steps change the frameworks and back, and a third one changes the flag. -/
theorem console_agrees_with_run_there_and_back :
    let steps : Pipeline :=
      [.setFrameworks ["net6.0"] true, .setFrameworks ["net45"] true, .setFrameworks [] false]
    let p : Project := { Project.empty .classic with frameworks := ["net45"] }
    let back : Change := ⟨.frameworks, "net6.0", "net45"⟩
    ∃ result, (steps.migrate p).outcome = .ok (.migrated result) ∧
      (recorded result.applied)[1]? = some ("target-framework", back) ∧
      (steps.migrate p).project.shown .frameworks = "net45" ∧
      (ofOutcome "a.json" (.migrated result) ["net45"] false []).text .console =
        "=== Project Migration Report ===\n\nProject: a.json\nStatus: MIGRATED\n" ++
        "Target Frameworks: net45\nAppendTargetFrameworkToOutputPath: false\n" ++
        "Transformations Applied: 3\n" ++
        "  • [target-framework] TargetFrameworks: net45 → net6.0\n" ++
        "  • [target-framework] TargetFrameworks: net6.0 → net45\n" ++
        "  • [target-framework] AppendTargetFrameworkToOutputPath: true → false\n" := by
  intro steps p back
  have hk : p.unsupportedKind = none := by decide +kernel
  have hm : steps.migrate p = _ := migrate_of_supported hk
  have ho : (steps.migrate p).outcome = .ok (.migrated ⟨steps.log p, ["net45"], false⟩) := by
    rw [hm]
    rfl
  have hp : (steps.migrate p).project = { p with appendFramework := false } := by
    rw [hm]
    rfl
  obtain ⟨htext, -, -, hplace, hlast⟩ := (console_agrees_with_run steps p "a.json" []).1 _ ho
  have hs : steps.log p = [⟨"target-framework", [⟨.frameworks, "net45", "net6.0"⟩]⟩] ++
      ⟨"target-framework", [back]⟩ ::
        [⟨"target-framework", [⟨.appendFramework, "true", "false"⟩]⟩] := by decide
  refine ⟨_, ho, hplace _ _ _ hs [] back [] rfl, ?_, ?_⟩
  · refine (hlast [("target-framework", ⟨.frameworks, "net45", "net6.0"⟩)] "target-framework" back
      [("target-framework", ⟨.appendFramework, "true", "false"⟩)] (by decide) ?_).symm
    simp [back]
  · rw [hp] at htext
    exact htext.trans (by decide +kernel)

end Report
end Retarget
