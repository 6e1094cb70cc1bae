/-
# Running the program

A run reads the options and the project, migrates the project, prints a report, and writes
the migrated project beside the one that was read.  Nothing is written for a rejected
project, or when only the report is asked for.

A run acts on a *world*: it reads and writes files, adds entries to a log and prints.  The
world in memory is a `Scene`.  What a run comes to decides the exit code: 0 for a migrated
project, 2 for a rejected one, 1 if the run failed.

An error is reported with its causes, each after a colon.  An options file that cannot be
read names its cause in its own text and again as the cause.
-/

import Retarget.Arguments
import Retarget.FileTree
import Retarget.Json.Reader
import Retarget.Log.Filter
import Retarget.OutputName
import Retarget.Yaml.Reader

namespace Retarget

/-- What a run can do. -/
structure World (m : Type → Type) where
  read : String → m (Except FileError String)
  taken : String → m Bool
  write : String → String → m (Except FileError Unit)
  log : LogEntry → m Unit
  print : String → m Unit

/-- Why options cannot be had. -/
inductive OptionsError where
  | file (path : String) (cause : FileError)
  | content (cause : Yaml.Fault)
  deriving DecidableEq, Repr

namespace OptionsError

/-- The text of the cause. -/
def cause : OptionsError → String
  | file _ e => e.message
  | content e => e.message

/-- The text of the error. -/
def message : OptionsError → String
  | file path e => "Failed to read options file " ++ path ++ ": " ++ e.message
  | content e => "Invalid options: " ++ e.message

end OptionsError

/-- Why a project cannot be read. -/
inductive ProjectError where
  | file (path : String) (cause : FileError)
  | json (text : String) (cause : Json.Fault)
  | yaml (cause : Yaml.Fault)
  deriving DecidableEq, Repr

/-- The text of the error, with its cause. -/
def ProjectError.message : ProjectError → String
  | file path e => "Failed to read project snapshot " ++ path ++ ": " ++ e.message
  | json text e => "Failed to parse project snapshot JSON: " ++ e.message text.toList
  | yaml e => "Failed to parse project snapshot YAML: " ++ e.message

/-- Why a file cannot be written. -/
structure WriteError where
  path : String
  cause : FileError
  deriving DecidableEq, Repr

/-- The text of the error, with its cause. -/
def WriteError.message (e : WriteError) : String :=
  "Failed to write " ++ e.path ++ ": " ++ e.cause.message

/-- Why a run failed. -/
inductive RunError where
  | options (cause : OptionsError)
  | project (cause : ProjectError)
  | migration (path : String) (cause : PipelineError)
  | output (cause : WriteError)
  deriving DecidableEq, Repr

/-- The text of the error, with all its causes. -/
def RunError.message : RunError → String
  | options e => e.message ++ ": " ++ e.cause
  | project e => e.message
  | migration path e => "Migration of " ++ path ++ " failed: " ++ e.message ++ ": " ++ e.cause
  | output e => e.message

/-- The options that a YAML text holds. -/
def Options.ofText (text : String) : Except OptionsError Options :=
  match Yaml.read Options.shape text with
  | .ok o => .ok o
  | .error e => .error (.content e)

/-- The project that a text holds, as JSON or YAML by the path it was read from. -/
def Project.ofText (path text : String) : Except ProjectError Project :=
  if FilePath.isJson path then
    match Json.read Project.shape text with
    | .ok p => .ok p
    | .error e => .error (.json text e)
  else
    match Yaml.read Project.shape text with
    | .ok p => .ok p
    | .error e => .error (.yaml e)

/-- The text of a project, as JSON or YAML by the path it is written to. -/
def Project.toText (path : String) (p : Project) : String :=
  if FilePath.isJson path then Json.render p.tree else Yaml.render p.tree

/-- The warning that a framework is not recognised. -/
def unrecognizedWarning (framework : String) : LogEntry :=
  ⟨.warn, .program, "unrecognized target framework moniker, applying as-is",
    [("target_framework", .quoted framework)]⟩

/-- The note that the migrated project was written. -/
def writtenNote (path : String) : LogEntry :=
  ⟨.info, .program, "wrote migrated project", [("output", .plain path)]⟩

namespace World

variable {m : Type → Type} [Monad m]

/-- The options in the file at a path. -/
def loadOptions (w : World m) (path : String) : m (Except OptionsError Options) := do
  match ← w.read path with
  | .error e => return .error (.file path e)
  | .ok text => return Options.ofText text

/-- The project in the file at a path. -/
def loadProject (w : World m) (path : String) : m (Except ProjectError Project) := do
  match ← w.read path with
  | .error e => return .error (.file path e)
  | .ok text => return Project.ofText path text

/-- The project written to a path. -/
def saveProject (w : World m) (path : String) (p : Project) : m (Except WriteError Unit) := do
  match ← w.write path (p.toText path) with
  | .error e => return .error ⟨path, e⟩
  | .ok () => return .ok ()

/-- The options of a run: those of the file, with those of the command line over them. -/
def options (w : World m) (args : Arguments) : m (Except OptionsError Options) := do
  let base ← match args.options with
    | none => pure (.ok Options.standard)
    | some path => w.loadOptions path
  return base.map fun o => o.override args.frameworks (if args.noAppend then some false else none)

/-- The migrated project written beside the one that was read. -/
def saveMigrated (w : World m) (args : Arguments) (p : Project) : m (Except RunError Unit) := do
  let path ← OutputName.unique w.taken args.projectFile
  match ← w.saveProject path p with
  | .error e => return .error (.output e)
  | .ok () =>
    w.log (writtenNote path)
    return .ok ()

/-- The migration of a project that has been read; true if it was migrated. -/
def migrate (w : World m) (args : Arguments) (o : Options) (p : Project) : m (Except RunError Bool) := do
  let ran := o.pipeline.migrate p
  for notice in ran.notices do
    w.log notice.entry
  match ran.outcome with
  | .error e => return .error (.migration args.projectFile e)
  | .ok outcome =>
    let report := Report.ofOutcome args.projectFile outcome ran.project.frameworks
      ran.project.appendFramework (Notice.messages ran.notices)
    w.print (report.text args.format ++ "\n")
    match outcome with
    | .rejected _ => return .ok false
    | .migrated _ =>
      if args.dryRun then return .ok true
      else return (← w.saveMigrated args ran.project).map fun _ => true

/-- A run; true if the project was migrated. -/
def run (w : World m) (args : Arguments) : m (Except RunError Bool) := do
  match ← w.options args with
  | .error e => return .error (.options e)
  | .ok o =>
    for framework in o.unrecognized do
      w.log (unrecognizedWarning framework)
    match ← w.loadProject args.projectFile with
    | .error e => return .error (.project e)
    | .ok p => w.migrate args o p

end World

/-- The exit code of a run. -/
def exitCode : Except RunError Bool → Nat
  | .ok true => 0
  | .ok false => 2
  | .error _ => 1

/-- What is printed among the errors after a run. -/
def complaint : Except RunError Bool → String
  | .ok _ => ""
  | .error e => "\n❌ Error: " ++ e.message ++ "\n"

/-- The world in memory: files, the log, and what was printed. -/
structure Scene where
  files : FileTree
  entries : List LogEntry
  printed : String

namespace Scene

/-- Files alone. -/
def ofFiles (files : FileTree) : Scene := ⟨files, [], ""⟩

/-- Acting on a scene. -/
def world : World (StateM Scene) where
  read path := return (← get).files.read path
  taken path := return (← get).files.exists? path
  write path text := do
    match (← get).files.write path text with
    | .error e => return .error e
    | .ok files =>
      modify fun s => { s with files }
      return .ok ()
  log entry := modify fun s => { s with entries := s.entries ++ [entry] }
  print text := modify fun s => { s with printed := s.printed ++ text }

/-- The lines of the log that a filter lets pass, each with a line break. -/
def logText (s : Scene) (filter : LogFilter) : String :=
  String.join ((s.entries.filter filter.passes).map (·.line ++ "\n"))

end Scene

/-- What a program leaves behind: its exit code, what it printed, and what it printed among
the errors, without the times of log lines. -/
structure Finished where
  code : Nat
  output : String
  errors : String
  files : FileTree

/-- The whole program on files in memory.  `filter` is the log filter that the environment
asks for. -/
def perform (arguments : List String) (filter : Option String) (files : FileTree) : Finished :=
  match Arguments.ofList arguments with
  | .error e =>
    if e = .help then ⟨0, e.message, "", files⟩ else ⟨2, "", e.message ++ "\n", files⟩
  | .ok args =>
    let (result, scene) := (Scene.world.run args).run (.ofFiles files)
    ⟨exitCode result, scene.printed, scene.logText (.chosen filter args.verbose) ++ complaint result,
      scene.files⟩

end Retarget
