/-
# Steps of a migration

A transformation is a named step.  Given a project it leaves a project behind, gives
notice of what it does, and may fail; what it had already changed before failing stays
changed.  Without a project it does nothing.

The one step of the program itself sets the target frameworks and the append flag.
With an empty list of frameworks it leaves the project's frameworks alone; the flag is
always written.
-/

import Retarget.Project
import Retarget.Log.Entry
import Retarget.Migration.Change

namespace Retarget

/-- Something made known while a migration runs: a message for the user, or an entry
for the log only. -/
inductive Notice where
  | progress (message : String)
  | log (entry : LogEntry)
  deriving DecidableEq, Repr, Inhabited

namespace Notice

/-- The message for the user, if it is one. -/
def message? : Notice → Option String
  | progress message => some message
  | log _ => none

/-- The log entry of the notice; a message for the user is logged as information. -/
def entry : Notice → LogEntry
  | progress message => ⟨.info, .progress, message, []⟩
  | log entry => entry

/-- The messages for the user, in order. -/
def messages (notices : List Notice) : List String := notices.filterMap message?

end Notice

/-- Why a step cannot do its work. -/
inductive StepError where
  | unsupported (reason : String)
  deriving DecidableEq, Repr, Inhabited

/-- The text of the error. -/
def StepError.message : StepError → String
  | unsupported reason => "Cannot apply transformation: " ++ reason

/-- What a step does to a project. -/
structure Effect where
  project : Project
  notices : List Notice
  failure : Option StepError
  deriving DecidableEq, Repr

/-- A named step of a migration. -/
structure Transformation where
  name : String
  apply : Project → Effect

/-- The step applied to a project that may be absent. -/
def Transformation.applyTo (t : Transformation) : Option Project → Option Effect
  | none => none
  | some p => some (t.apply p)

/-- The step that sets the target frameworks, unless the list is empty, and the flag. -/
def Transformation.setFrameworks (frameworks : List String) (append : Bool) : Transformation where
  name := "target-framework"
  apply p :=
    let set := !frameworks.isEmpty
    { project := { p with
        frameworks := if set then frameworks else p.frameworks
        appendFramework := append }
      notices :=
        (if set then [.progress ("Target frameworks set to " ++ Text.joined frameworks)] else []) ++
          [.log ⟨.debug, .frameworkStep, "AppendTargetFrameworkToOutputPath applied",
            [("append", .plain (flagText append))]⟩]
      failure := none }

end Retarget
