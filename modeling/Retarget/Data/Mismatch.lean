/-
# Mismatches

A text can be well formed and still not hold what is asked for.  A mismatch says what was
found and what was expected in its place.  The two formats show a missing value and a
floating-point number in their own words; everything else reads the same.

| mismatch | message |
| --- | --- |
| `wrongType` | `invalid type: found, expected expectation` |
| `wrongValue` | `invalid value: found, expected expectation` |
| `wrongLength` | `invalid length n, expected expectation` |
| `missing`, `repeated` | `missing field`, `duplicate field` and the name |
| `unknownMember`, `unknownChoice` | `unknown field`, `unknown variant`, the name and the known names |
-/

import Retarget.Number.Shortest
import Retarget.Text.Quoted

namespace Retarget

/-- What was found. -/
inductive Found where
  | nothing
  | flag (value : Bool)
  | integer (i : Int)
  | wideInteger (i : Int)
  | real (x : Binary64)
  | text (content : String)
  | list
  | map
  deriving DecidableEq, Repr

/-- How a format speaks of what was found. -/
structure Wording where
  nothing : String
  real : Binary64 → String

namespace Found

/-- What was found, in words.  Whole numbers outside the range from `-2^63` to `2^64 - 1`
are shown with the width that they need. -/
def shown (w : Wording) : Found → String
  | nothing => w.nothing
  | flag value => "boolean `" ++ (if value then "true" else "false") ++ "`"
  | integer i => "integer `" ++ toString i ++ "`"
  | wideInteger i => "integer `" ++ toString i ++ "` as " ++ (if 0 ≤ i then "u128" else "i128")
  | real x => "floating point `" ++ w.real x ++ "`"
  | text content => "string " ++ Text.quoted content
  | list => "sequence"
  | map => "map"

end Found

/-- Why a value does not have the shape that is asked for. -/
inductive Mismatch where
  | wrongType (found : Found) (expected : String)
  | wrongValue (found : Found) (expected : String)
  | wrongLength (length : Nat) (expected : String)
  | missing (key : String)
  | repeated (key : String)
  | unknownMember (key : String) (known : List String)
  | unknownChoice (choice : String) (known : List String)
  | noAlternative (title : String)
  | taggedAlternative
  deriving DecidableEq, Repr

namespace Mismatch

/-- The name between backquotes. -/
def ticked (s : String) : String := "`" ++ s ++ "`"

/-- The known names, as an expectation. -/
def oneOf : List String → String
  | [a] => ticked a
  | [a, b] => ticked a ++ " or " ++ ticked b
  | names => "one of " ++ String.intercalate ", " (names.map ticked)

/-- The text of the mismatch in the words of a format. -/
def message (w : Wording) : Mismatch → String
  | wrongType found expected => "invalid type: " ++ found.shown w ++ ", expected " ++ expected
  | wrongValue found expected => "invalid value: " ++ found.shown w ++ ", expected " ++ expected
  | wrongLength n expected => "invalid length " ++ toString n ++ ", expected " ++ expected
  | missing key => "missing field " ++ ticked key
  | repeated key => "duplicate field " ++ ticked key
  | unknownMember key known => "unknown field " ++ ticked key ++ ", expected " ++ oneOf known
  | unknownChoice choice known => "unknown variant " ++ ticked choice ++ ", expected " ++ oneOf known
  | noAlternative title => "data did not match any variant of untagged enum " ++ title
  | taggedAlternative => "untagged and internally tagged enums do not support enum input"

end Mismatch
end Retarget
