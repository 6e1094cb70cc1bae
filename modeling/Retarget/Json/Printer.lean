/-
# Writing JSON

Every member of a record and every item of a list stands on a line of its own, indented
by two spaces for each level.  An empty list is `[]`, an empty record is written likewise
with its own brackets.  There is no line break at the end.
-/

import Retarget.Data.Tree
import Retarget.Json.Text

namespace Retarget
namespace Json

/-- A line break and the indentation of a level. -/
def newline (level : Nat) : List Char := '\n' :: List.replicate (2 * level) ' '

mutual

/-- The tree as it is written at a level, before the rest of a text. -/
def write (level : Nat) : Tree → (rest : List Char) → List Char
  | .text s, rest => encode s ++ rest
  | .flag b, rest => (if b then "true" else "false").toList ++ rest
  | .list [], rest => '[' :: ']' :: rest
  | .list (t :: ts), rest =>
    '[' :: newline (level + 1) ++ write (level + 1) t (writeItems level ts rest)
  | .record [], rest => '\x7b' :: '\x7d' :: rest
  | .record ((key, t) :: ms), rest =>
    '\x7b' :: newline (level + 1) ++ encode key ++ ':' :: ' ' ::
      write (level + 1) t (writeMembers level ms rest)

/-- The further items of a list at a level, and its end. -/
def writeItems (level : Nat) : List Tree → (rest : List Char) → List Char
  | [], rest => newline level ++ ']' :: rest
  | t :: ts, rest => ',' :: newline (level + 1) ++ write (level + 1) t (writeItems level ts rest)

/-- The further members of a record at a level, and its end. -/
def writeMembers (level : Nat) : List (String × Tree) → (rest : List Char) → List Char
  | [], rest => newline level ++ '\x7d' :: rest
  | (key, t) :: ms, rest =>
    ',' :: newline (level + 1) ++ encode key ++ ':' :: ' ' ::
      write (level + 1) t (writeMembers level ms rest)

end

/-- The tree as a JSON text. -/
def render (t : Tree) : String := String.ofList (write 0 t [])

end Json
end Retarget
