/-
# Reports

A report tells what became of one project: whether it was migrated or rejected and why,
what each step changed, the settings that the project has now, and the messages given on
the way.  It is shown as lines of text, or written as JSON or YAML.

The lines of a rejected project stop after the reason.  Those of a migrated one show the
settings, the number of steps, and one line with a bullet for each change:

    • [step] setting: old value → new value
-/

import Retarget.Json.Printer
import Retarget.Snapshot
import Retarget.Yaml.Printer

namespace Retarget

/-- What became of a project. -/
inductive Status where
  | migrated
  | rejected
  deriving DecidableEq, Repr, Inhabited

/-- The status as it is written in a file. -/
def Status.label : Status → String
  | migrated => "migrated"
  | rejected => "rejected"

/-- How a report is shown. -/
inductive ReportFormat where
  | console
  | json
  | yaml
  deriving DecidableEq, Repr, Inhabited

namespace ReportFormat

/-- The name of the format on the command line. -/
def label : ReportFormat → String
  | console => "console"
  | json => "json"
  | yaml => "yaml"

/-- Every format. -/
def all : List ReportFormat := [console, json, yaml]

/-- The format of this name. -/
def ofLabel? (s : String) : Option ReportFormat := all.find? fun f => f.label == s

theorem ofLabel?_label (f : ReportFormat) : ofLabel? f.label = some f := by cases f <;> decide

end ReportFormat

/-- A report on one project. -/
structure Report where
  project : String
  status : Status
  reason : Option String
  applied : List Applied
  frameworks : List String
  appendFramework : Bool
  progress : List String
  deriving DecidableEq, Repr, Inhabited

namespace Report

/-- Why a project of an unsupported kind is rejected. -/
def refusal (kind : ProjectKind) : String :=
  kind.description ++ " projects (" ++ kind.guid ++ ") cannot be migrated"

/-- The report on an outcome, with the project's settings after it. -/
def ofOutcome (project : String) (outcome : Outcome) (frameworks : List String) (append : Bool)
    (progress : List String) : Report :=
  match outcome with
  | .rejected kind => ⟨project, .rejected, some (refusal kind), [], frameworks, append, progress⟩
  | .migrated result => ⟨project, .migrated, none, result.applied, frameworks, append, progress⟩

/-- The line of a change. -/
def bullet (step : String) (c : Change) : String :=
  "  • [" ++ step ++ "] " ++ c.field.label ++ ": " ++ c.oldValue ++ " → " ++ c.newValue

/-- The lines of the changes, in order. -/
def bullets (applied : List Applied) : List String :=
  applied.flatMap fun a => a.changes.map (bullet a.name)

/-- The lines of the report. -/
def lines (r : Report) : List String :=
  ["=== Project Migration Report ===", "", "Project: " ++ r.project] ++
    match r.status with
    | .rejected => "Status: REJECTED" :: (r.reason.map ("Reason: " ++ ·)).toList
    | .migrated =>
      ["Status: MIGRATED", "Target Frameworks: " ++ Text.joined r.frameworks,
        "AppendTargetFrameworkToOutputPath: " ++ flagText r.appendFramework,
        "Transformations Applied: " ++ toString r.applied.length] ++ bullets r.applied

/-- The lines, each with a line break at its end. -/
def consoleText (r : Report) : String := String.join (r.lines.map (· ++ "\n"))

/-- The report as it is written in a file. -/
def tree (r : Report) : Tree :=
  .record ([("project", .text r.project), ("status", .text r.status.label)] ++
    (r.reason.map fun s => ("rejection_reason", Tree.text s)).toList ++
    [("applied_transformations", .list (r.applied.map Applied.tree)),
      (frameworksKey, Tree.texts r.frameworks), (appendKey, .flag r.appendFramework),
      ("progress", Tree.texts r.progress)])

/-- The report in a format. -/
def text (r : Report) : ReportFormat → String
  | .console => r.consoleText
  | .json => Json.render r.tree
  | .yaml => Yaml.render r.tree

end Report
end Retarget
