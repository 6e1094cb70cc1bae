/-
# Log filters

A filter is a list of directives, separated by commas:

| directive | lets pass |
| --- | --- |
| `level` | entries of every part up to the level |
| `path=level` | entries of the parts whose path starts with `path`, up to the level |
| `path`, `path=` | all entries of those parts |
| `…[span]…` | nothing here: it is about spans, which this program does not open |

Levels are `error`, `warn`, `info`, `debug`, `trace`, `off` in any case, or the numbers
5 down to 0 for `trace` down to `off`.  Of the directives that fit an entry the one with
the longest path decides, and of two with the same path the later one; an entry that
none fits is dropped.  A filter without any directive lets errors pass.
-/

import Retarget.Log.Entry
import Retarget.Text.Blank
import Retarget.Text.Caseless
import Retarget.Text.Joined

namespace Retarget

/-- A directive of a log filter; `path` is empty for one that fits every part. -/
structure LogDirective where
  path : Option String
  rank : Nat
  spans : Bool
  deriving DecidableEq, Repr, Inhabited

/-- A log filter. -/
structure LogFilter where
  directives : List LogDirective
  deriving DecidableEq, Repr, Inhabited

namespace LogFilter

/-- The names of the ranks, from the one that lets nothing pass. -/
def rankNames : List String := ["off", "error", "warn", "info", "debug", "trace"]

/-- The rank that a number from 0 to 5 names. -/
def numberedRank? (cs : List Char) : Option Nat :=
  let digits := if cs.head? = some '+' then cs.tail else cs
  if digits ≠ [] && digits.all Char.isDigit then
    let n := digits.foldl (fun n c => 10 * n + (c.toNat - 48)) 0
    if n ≤ 5 then some n else none
  else none

/-- The rank that a level names. -/
def rank? (cs : List Char) : Option Nat :=
  match numberedRank? cs with
  | some n => some n
  | none => if cs = [] then some 1 else rankNames.findIdx? fun name => Text.agrees name.toList cs

/-- The character may start a directive. -/
def startsDirective (c : Char) : Bool :=
  c.isAlphanum || c == '-' || c == ':' || c == '_' || c == '[' || 0x7F < c.toNat

/-- The rank after the sign `=`: everything when nothing stands there. -/
def rankAfterSign? (cs : List Char) : Option Nat := if cs = [] then some 5 else rank? cs

/-- A single directive. -/
def directive? (cs : List Char) : Option LogDirective :=
  match cs with
  | [] => none
  | c :: _ =>
    if !startsDirective c then none
    else
      let path := cs.takeWhile fun d => d != '=' && d != '['
      match cs.drop path.length with
      | [] =>
        match rank? path with
        | some n => some ⟨none, n, false⟩
        | none => some ⟨some (String.ofList path), 5, false⟩
      | '=' :: level => (rankAfterSign? level).map fun n => ⟨some (String.ofList path), n, false⟩
      | span =>
        match span.dropWhile (· != ']') with
        | [']'] => some ⟨none, 5, true⟩
        | ']' :: '=' :: level => (rankAfterSign? level).map fun n => ⟨none, n, true⟩
        | _ => none

/-- The filter that a text describes; none if a directive is malformed. -/
def ofText? (text : String) : Option LogFilter :=
  let parts := (Text.pieces ',' text.toList).filter (· ≠ [])
  match parts.mapM fun p => directive? (Text.trim p) with
  | none => none
  | some [] => some ⟨[⟨none, LogLevel.error.rank, false⟩]⟩
  | some ds => some ⟨ds⟩

/-- The directive fits entries from the part of the program. -/
def fits (d : LogDirective) (source : LogSource) : Bool :=
  !d.spans &&
    match d.path with
    | none => true
    | some path => path.toList.isPrefixOf source.path.toList

/-- How specific a directive is: the more, the longer its path. -/
def specificity (d : LogDirective) : Nat :=
  match d.path with
  | none => 0
  | some path => path.length + 1

/-- The most specific directive that fits, the later one of two with the same path. -/
def deciding? (f : LogFilter) (source : LogSource) : Option LogDirective :=
  (f.directives.filter (fits · source)).foldl
    (fun best d =>
      match best with
      | none => some d
      | some b => if specificity b ≤ specificity d then some d else some b)
    none

/-- The entry passes the filter. -/
def passes (f : LogFilter) (e : LogEntry) : Bool :=
  match f.deciding? e.source with
  | none => false
  | some d => e.level.rank ≤ d.rank

/-- The filter of a run without a filter of its own: the program's entries down to
information, or down to debugging details when they are asked for. -/
def standard (verbose : Bool) : LogFilter :=
  if verbose then ⟨[⟨some "project_upgrade", LogLevel.debug.rank, false⟩, ⟨none, LogLevel.info.rank, false⟩]⟩
  else ⟨[⟨some "project_upgrade", LogLevel.info.rank, false⟩]⟩

/-- The filter in force: the one asked for if it is well formed, else the standard one. -/
def chosen (asked : Option String) (verbose : Bool) : LogFilter :=
  (asked.bind ofText?).getD (standard verbose)

end LogFilter

end Retarget
