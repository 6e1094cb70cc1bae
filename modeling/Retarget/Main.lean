/-
# The program

Acts on the files of the machine.  Log lines start with the time in UTC and, like errors,
go to the error output, so that the report on the standard output stays readable by other
programs.  The variable `RUST_LOG` of the environment holds the log filter.
-/

import Retarget.Run
import Std.Time

namespace Retarget

/-- The error that the system gave. -/
def FileError.ofSystem (e : IO.Error) : FileError :=
  match e with
  | .noFileOrDirectory .. => .absent
  | .inappropriateType _ code details => .other (details ++ " (os error " ++ toString code ++ ")")
  | .permissionDenied _ code details => .other (details ++ " (os error " ++ toString code ++ ")")
  | .invalidArgument _ code details => .other (details ++ " (os error " ++ toString code ++ ")")
  | e => .other (toString e)

/-- An action whose failure is an error about a file. -/
def attempt {α : Type} (act : IO α) : IO (Except FileError α) := do
  match ← act.toBaseIO with
  | .ok x => return .ok x
  | .error e => return .error (.ofSystem e)

/-- The text of a file of the machine. -/
def readText (path : String) : IO (Except FileError String) := do
  match ← attempt (IO.FS.readBinFile path) with
  | .error e => return .error e
  | .ok content =>
    match String.fromUTF8? content with
    | some text => return .ok text
    | none => return .error .notText

/-- The present time, as log lines show it. -/
def timeText : IO String := do
  let now := Std.Time.DateTime.ofTimestampWithZone (← Std.Time.Timestamp.now) Std.Time.TimeZone.UTC
  return now.format "uuuu-MM-dd'T'HH:mm:ss.SSSSSS'Z'"

/-- The blanks that bring the names of log levels to one width. -/
def levelMargin (level : LogLevel) : String :=
  String.ofList (List.replicate (6 - level.label.length) ' ')

/-- Acting on the files of the machine, with a filter for the log. -/
def machine (filter : LogFilter) : World IO where
  read := readText
  taken path := return (← (IO.FS.realPath path).toBaseIO).toBool
  write path text := attempt (IO.FS.writeFile path text)
  log entry := do
    if filter.passes entry then
      (← IO.getStderr).putStrLn ((← timeText) ++ levelMargin entry.level ++ entry.line)
  print text := do (← IO.getStdout).putStr text

/-- A command line that is understood, carried out. -/
def carryOut (args : Arguments) : IO UInt32 := do
  let filter := LogFilter.chosen (← IO.getEnv "RUST_LOG") args.verbose
  let result ← (machine filter).run args
  (← IO.getStderr).putStr (complaint result)
  return UInt32.ofNat (exitCode result)

end Retarget

/-- The program. -/
def main (args : List String) : IO UInt32 := do
  match Retarget.Arguments.ofList args with
  | .ok args => Retarget.carryOut args
  | .error .help =>
    IO.print Retarget.UsageError.usage
    return 0
  | .error e =>
    IO.eprintln e.message
    return 2
