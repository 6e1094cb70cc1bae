/-
# Log entries

An entry is one line of the log, perhaps more if its message has line breaks:

    LEVEL message key=value key=value …

A text given as a value is quoted (`Text.quoted`); a name, a number or a flag is not.  In
the message, characters that could steer a terminal are written as their numbers:

| characters | written |
| --- | --- |
| backspace, bell, form feed, escape, delete | `\x` and two hexadecimal digits |
| `U+0080` … `U+009F` | `\u` and two hexadecimal digits between braces |

Every entry comes from a part of the program with a path of its own, by which filters
select entries.
-/

import Retarget.Text.Quoted

namespace Retarget

/-- The importance of a log entry. -/
inductive LogLevel where
  | error
  | warn
  | info
  | debug
  | trace
  deriving DecidableEq, Repr, Inhabited

namespace LogLevel

/-- The level as a log line shows it. -/
def label : LogLevel → String
  | error => "ERROR"
  | warn => "WARN"
  | info => "INFO"
  | debug => "DEBUG"
  | trace => "TRACE"

/-- How much detail the level stands for: a filter of rank `n` lets ranks up to `n` pass. -/
def rank : LogLevel → Nat
  | error => 1
  | warn => 2
  | info => 3
  | debug => 4
  | trace => 5

end LogLevel

/-- The part of the program that an entry comes from. -/
inductive LogSource where
  | program
  | guard
  | pipeline
  | frameworkStep
  | progress
  deriving DecidableEq, Repr, Inhabited

/-- The path by which filters know the part. -/
def LogSource.path : LogSource → String
  | program => "project_upgrade"
  | guard => "project_upgrade::compatibility"
  | pipeline => "project_upgrade::pipeline"
  | frameworkStep => "project_upgrade::transforms::target_framework"
  | progress => "project_upgrade::progress"

/-- A value attached to a log entry. -/
inductive LogValue where
  | quoted (text : String)
  | plain (text : String)
  deriving DecidableEq, Repr, Inhabited

/-- The value as a log line shows it. -/
def LogValue.shown : LogValue → String
  | quoted text => Text.quoted text
  | plain text => text

/-- A log entry. -/
structure LogEntry where
  level : LogLevel
  source : LogSource
  message : String
  values : List (String × LogValue)
  deriving DecidableEq, Repr, Inhabited

namespace LogEntry

/-- The ASCII characters that could steer a terminal. -/
def steering : List Char := ['\x07', '\x08', '\x0c', '\x1b', '\x7f']

/-- The character as a message shows it. -/
def tameChar (c : Char) : List Char :=
  let n := c.toNat
  let digits := [Nat.digitChar (n / 16), Nat.digitChar (n % 16)]
  if steering.contains c then '\\' :: 'x' :: digits
  else if 0x80 ≤ n && n ≤ 0x9F then '\\' :: 'u' :: '\x7b' :: digits ++ ['\x7d']
  else [c]

/-- The text with nothing in it that could steer a terminal. -/
def tame (s : String) : String := String.ofList (s.toList.flatMap tameChar)

/-- The entry's line, without the time that a log puts in front of it. -/
def line (e : LogEntry) : String :=
  e.values.foldl (fun s v => s ++ " " ++ v.1 ++ "=" ++ v.2.shown)
    (e.level.label ++ " " ++ tame e.message)

end LogEntry

end Retarget
