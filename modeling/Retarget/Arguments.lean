/-
# The command line

| argument | may repeat | meaning |
| --- | --- | --- |
| `<PROJECT_FILE>` | no, needed | the project to migrate |
| `--options <FILE>` | no | a file with options |
| `--target-framework <TFM>` | yes | a framework to set |
| `--no-append-target-framework` | no | do not append the framework to the output path |
| `--format <FORMAT>` | no | the format of the report |
| `--dry-run` | no | write no file |
| `-v`, `--verbose` | no | log details |
| `-h`, `--help` | | show the usage |

A value follows its option as `--name=value` or as the next argument, which must not look
like an option.  Flags of one letter may be joined (`-vh`).  After `--` every argument is a
project file.  `-` alone is a value.

Arguments are taken in order.  A value given as an argument of its own is *pending* until
the next argument is understood or the command line ends; only then is it checked.  An
argument that is not known is reported before the pending one.
-/

import Retarget.Report

namespace Retarget

/-- What the command line asks for. -/
structure Arguments where
  projectFile : String
  options : Option String
  frameworks : List String
  noAppend : Bool
  format : ReportFormat
  dryRun : Bool
  verbose : Bool
  deriving DecidableEq, Repr

/-- An argument that has a value. -/
inductive ValueArgument where
  | projectFile
  | options
  | framework
  | format
  deriving DecidableEq, Repr

/-- An argument without a value. -/
inductive FlagArgument where
  | noAppend
  | dryRun
  | verbose
  | help
  deriving DecidableEq, Repr

/-- The argument, as messages show it. -/
def ValueArgument.shown : ValueArgument → String
  | projectFile => "<PROJECT_FILE>"
  | options => "--options <FILE>"
  | framework => "--target-framework <TFM>"
  | format => "--format <FORMAT>"

/-- The argument, as messages show it. -/
def FlagArgument.shown : FlagArgument → String
  | noAppend => "--no-append-target-framework"
  | dryRun => "--dry-run"
  | verbose => "--verbose"
  | help => "--help"

/-- Why the command line is not understood; `help` is what asking for help comes to. -/
inductive UsageError where
  | help
  | unknownArgument (argument : String)
  | tooManyValues (value : String) (flag : FlagArgument)
  | noValue (argument : ValueArgument)
  | badValue (value : String) (argument : ValueArgument)
  | repeatedValue (argument : ValueArgument)
  | repeatedFlag (flag : FlagArgument)
  | noProjectFile
  deriving DecidableEq, Repr

namespace UsageError

/-- The usage of the program. -/
def usage : String := String.intercalate "\n" [
  "Migrate a legacy project snapshot to the new project format",
  "",
  "Usage: project-upgrade [OPTIONS] <PROJECT_FILE>",
  "",
  "Arguments:",
  "  <PROJECT_FILE>  Project snapshot to migrate (.yaml, .yml or .json)",
  "",
  "Options:",
  "      --options <FILE>              YAML file with migration options",
  "      --target-framework <TFM>      Target framework to set; repeat for multi-targeting (overrides the options file)",
  "      --no-append-target-framework  Don't append the target framework to the output path",
  "      --format <FORMAT>             Report format [default: console] [possible values: console, json, yaml]",
  "      --dry-run                     Only report, don't write the migrated snapshot",
  "  -v, --verbose                     ",
  "  -h, --help                        Print help",
  ""]

/-- The error in words; a value in it may run over several lines. -/
def text : UsageError → String
  | help => usage
  | unknownArgument a => "error: unexpected argument '" ++ a ++ "' found"
  | tooManyValues v f =>
    "error: unexpected value '" ++ v ++ "' for '" ++ f.shown ++ "' found; no more were expected"
  | noValue a => "error: a value is required for '" ++ a.shown ++ "' but none was supplied"
  | badValue v a => "error: invalid value '" ++ v ++ "' for '" ++ a.shown ++ "'"
  | repeatedValue a => "error: the argument '" ++ a.shown ++ "' cannot be used multiple times"
  | repeatedFlag f => "error: the argument '" ++ f.shown ++ "' cannot be used multiple times"
  | noProjectFile => "error: the following required arguments were not provided:"

/-- The usage, or the first line of the error. -/
def message (e : UsageError) : String :=
  if e = help then usage else String.ofList (e.text.toList.takeWhile (· ≠ '\n'))

end UsageError

/-- A command line of which some arguments have been taken. -/
structure ArgumentReader where
  projectFile : Option String
  options : Option String
  frameworks : List String
  format : Option ReportFormat
  flags : List FlagArgument
  pending : Option (ValueArgument × Option String)
  awaiting : Bool
  seenFile : Bool
  onlyFiles : Bool

namespace ArgumentReader

/-- Nothing has been taken. -/
def start : ArgumentReader := ⟨none, none, [], none, [], none, false, false, false⟩

/-- A text that has to have characters. -/
def someText (a : ValueArgument) (v : String) : Except UsageError String :=
  if v.isEmpty then .error (.noValue a) else .ok v

/-- The format that a text names. -/
def formatOf (v : String) : Except UsageError ReportFormat :=
  match ReportFormat.ofLabel? v with
  | some f => .ok f
  | none => .error (if v.isEmpty then .noValue .format else .badValue v .format)

/-- The value of an argument taken. -/
def give (r : ArgumentReader) (a : ValueArgument) (v : String) : Except UsageError ArgumentReader :=
  match a with
  | .projectFile => (someText a v).map fun v => { r with projectFile := some v }
  | .options =>
    if r.options.isSome then .error (.repeatedValue a)
    else (someText a v).map fun v => { r with options := some v }
  | .framework => .ok { r with frameworks := r.frameworks ++ [v] }
  | .format =>
    if r.format.isSome then .error (.repeatedValue a)
    else (formatOf v).map fun f => { r with format := some f }

/-- The pending argument taken. -/
def settle (r : ArgumentReader) : Except UsageError ArgumentReader :=
  match r.pending with
  | none => .ok r
  | some (a, none) => .error (.noValue a)
  | some (a, some v) => { r with pending := none }.give a v

/-- A flag taken. -/
def raise (r : ArgumentReader) (f : FlagArgument) : Except UsageError ArgumentReader := do
  let r ← r.settle
  if f = .help then throw .help
  else if r.flags.contains f then throw (.repeatedFlag f)
  else return { r with flags := f :: r.flags, awaiting := false }

/-- The option of this name. -/
def option? (name : String) : Option ValueArgument :=
  if name = "options" then some .options
  else if name = "target-framework" then some .framework
  else if name = "format" then some .format
  else none

/-- The flag of this name. -/
def flag? (name : String) : Option FlagArgument :=
  if name = "no-append-target-framework" then some .noAppend
  else if name = "dry-run" then some .dryRun
  else if name = "verbose" then some .verbose
  else if name = "help" then some .help
  else none

/-- An argument `--name` or `--name=value`, without its dashes. -/
def long (r : ArgumentReader) (cs : List Char) : Except UsageError ArgumentReader :=
  let name := String.ofList (cs.takeWhile (· ≠ '='))
  let value := if cs.contains '=' then some (String.ofList (cs.dropWhile (· ≠ '=')).tail) else none
  match option? name, flag? name, value with
  | some a, _, some v => do
    let r ← r.settle
    return { ← r.give a v with awaiting := false }
  | some a, _, none => r.settle.map fun r => { r with pending := some (a, none), awaiting := true }
  | none, some f, some v => .error (.tooManyValues v f)
  | none, some f, none => r.raise f
  | none, none, _ => .error (.unknownArgument ("--" ++ name))

/-- Flags of one letter. -/
def short : List Char → ArgumentReader → Except UsageError ArgumentReader
  | [], r => .ok r
  | c :: cs, r =>
    if c = 'v' then (r.raise .verbose).bind (short cs)
    else if c = 'h' then (r.raise .help).bind (short cs)
    else .error (.unknownArgument (String.ofList ['-', c]))

/-- An argument that is the project file. -/
def file (r : ArgumentReader) (v : String) : Except UsageError ArgumentReader :=
  if r.seenFile then .error (.unknownArgument v)
  else r.settle.map fun r => { r with pending := some (.projectFile, some v), seenFile := true }

/-- One argument taken. -/
def take (r : ArgumentReader) (arg : String) : Except UsageError ArgumentReader :=
  if r.onlyFiles then r.file arg
  else
    match arg.toList with
    | ['-', '-'] => .ok { r with onlyFiles := true, awaiting := false }
    | '-' :: '-' :: cs => r.long cs
    | '-' :: c :: cs => short (c :: cs) r
    | _ =>
      match r.awaiting, r.pending with
      | true, some (a, _) => .ok { r with pending := some (a, some arg), awaiting := false }
      | _, _ => r.file arg

/-- The command line once every argument has been taken. -/
def finish (r : ArgumentReader) : Except UsageError Arguments := do
  let r ← r.settle
  match r.projectFile with
  | none => throw .noProjectFile
  | some projectFile =>
    return {
      projectFile
      options := r.options
      frameworks := r.frameworks
      noAppend := r.flags.contains .noAppend
      format := r.format.getD .console
      dryRun := r.flags.contains .dryRun
      verbose := r.flags.contains .verbose }

end ArgumentReader

/-- The arguments of a command line. -/
def Arguments.ofList (args : List String) : Except UsageError Arguments :=
  (args.foldlM ArgumentReader.take .start).bind ArgumentReader.finish

end Retarget
