/-
# Pipelines

A pipeline is a list of steps that run one after the other on the same project.  The
first step that fails ends the run; the project stays as that step left it.  A run
that succeeds records what each step changed.

`migrate` asks the guard first: a project of an unsupported kind is left as it is and
no step runs.
-/

import Retarget.Guard
import Retarget.Migration.Transformation

namespace Retarget

/-- A list of steps. -/
abbrev Pipeline := List Transformation

/-- The result of a run that succeeded: what each step changed, and the settings after it. -/
structure Completed where
  applied : List Applied
  frameworks : List String
  appendFramework : Bool
  deriving DecidableEq, Repr, Inhabited

/-- What became of a project: it was refused as a kind, or it was migrated. -/
inductive Outcome where
  | rejected (kind : ProjectKind)
  | migrated (result : Completed)
  deriving DecidableEq, Repr, Inhabited

/-- Why a run ended early. -/
inductive PipelineError where
  | stepFailed (step : String) (cause : StepError)
  | guard (cause : GuardError)
  deriving DecidableEq, Repr

namespace PipelineError

/-- The text of the error's cause. -/
def cause : PipelineError → String
  | stepFailed _ cause => cause.message
  | guard cause => cause.message

/-- The text of the error. -/
def message : PipelineError → String
  | stepFailed step cause => "Transformation " ++ step ++ " failed: " ++ cause.message
  | guard cause => "Compatibility check failed: " ++ cause.message

end PipelineError

/-- What running something on a project left behind. -/
structure Ran (α : Type) where
  project : Project
  notices : List Notice
  outcome : Except PipelineError α

namespace Pipeline

/-- The names of the steps, in order. -/
def names (steps : Pipeline) : List String := steps.map (·.name)

/-- The notice that a step is about to run. -/
def applying (t : Transformation) : Notice :=
  .log ⟨.debug, .pipeline, "applying transformation", [("transformation", .quoted t.name)]⟩

/-- The notice that a step has failed. -/
def failed (t : Transformation) (cause : StepError) : Notice :=
  .log ⟨.warn, .pipeline, "transformation failed",
    [("transformation", .quoted t.name), ("error", .plain cause.message)]⟩

/-- The steps in order, up to the first that fails. -/
def runSteps : Pipeline → Project → Ran (List Applied)
  | [], p => ⟨p, [], .ok []⟩
  | t :: steps, p =>
    let effect := t.apply p
    match effect.failure with
    | some cause =>
      ⟨effect.project, applying t :: effect.notices ++ [failed t cause],
        .error (.stepFailed t.name cause)⟩
    | none =>
      let later := runSteps steps effect.project
      ⟨later.project, applying t :: effect.notices ++ later.notices,
        later.outcome.map (⟨t.name, changes p effect.project⟩ :: ·)⟩

/-- The pipeline run on a project. -/
def run (steps : Pipeline) (p : Project) : Ran Completed :=
  let ran := runSteps steps p
  match ran.outcome with
  | .error e => ⟨ran.project, ran.notices, .error e⟩
  | .ok applied =>
    ⟨ran.project,
      ran.notices ++ [.log ⟨.info, .pipeline, "pipeline complete",
        [("steps", .plain (toString applied.length))]⟩],
      .ok ⟨applied, ran.project.frameworks, ran.project.appendFramework⟩⟩

/-- The notice that the guard has found an unsupported kind. -/
def declared (kind : ProjectKind) : Notice :=
  .log ⟨.debug, .guard, "unsupported project type declared",
    [("guid", .quoted kind.guid), ("kind", .quoted kind.description)]⟩

/-- The notices that a project is refused. -/
def refusal (kind : ProjectKind) : List Notice := [
  .log ⟨.warn, .pipeline, "refusing to migrate " ++ kind.description ++ " project",
    [("guid", .quoted kind.guid)]⟩,
  .progress ("Project type " ++ kind.description ++ " (" ++ kind.guid ++
    ") is not supported, migration skipped")]

/-- `run` for a project that may be absent: without one there is no result. -/
def runOn (steps : Pipeline) : Option Project → Option (Ran Completed)
  | none => none
  | some p => some (steps.run p)

/-- The pipeline run on a project that the guard lets pass.  A run without a result would
count as one that did nothing. -/
def migrate (steps : Pipeline) (p : Project) : Ran Outcome :=
  match p.unsupportedKind with
  | some kind => ⟨p, declared kind :: refusal kind, .ok (.rejected kind)⟩
  | none =>
    let ran := (steps.runOn (some p)).getD ⟨p, [], .ok default⟩
    ⟨ran.project, ran.notices, ran.outcome.map .migrated⟩

/-- `migrate` for a project that may be absent: without one the guard fails. -/
def migrateOn (steps : Pipeline) : Option Project → Except PipelineError (Ran Outcome)
  | none => .error (.guard .missingProject)
  | some p => .ok (steps.migrate p)

end Pipeline

end Retarget
