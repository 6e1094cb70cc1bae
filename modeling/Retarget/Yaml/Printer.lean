/-
# Writing YAML

Records and lists are written in block style:

* a member is `key: value`; the members of a record inside it follow on lines indented by
  two more spaces, the items of a list on lines indented like the member itself;
* an item is `- value`, and a record or list in it begins on the same line;
* an empty list is `[]`, an empty record is written with its own brackets.

Every text ends with a line break.  Names of members are plain words.
-/

import Retarget.Data.Tree
import Retarget.Yaml.Scalar.Written

namespace Retarget
namespace Yaml

open Written (spaces)

/-- The text with a line break at its end, unless it ends with one. -/
def ended (cs : List Char) : List Char :=
  if (cs.getLast?.map isBreak).getD false then cs else cs ++ ['\n']

/-- The column at which the value of a member begins its lines, and what stands between
the colon and the value. -/
def lead (indent : Nat) : Tree → Nat × List Char
  | .list (_ :: _) => (indent, '\n' :: spaces indent)
  | .record (_ :: _) => (indent + 2, '\n' :: spaces (indent + 2))
  | _ => (indent + 2, [' '])

mutual

/-- A value that begins on the current line, where its members stand at column `indent`,
before the rest of a text. -/
def write (indent : Nat) : Tree → (rest : List Char) → List Char
  | .text s, rest => ended (Written.scalar (max indent 2) s) ++ rest
  | .flag b, rest => (if b then "true\n" else "false\n").toList ++ rest
  | .list [], rest => "[]\n".toList ++ rest
  | .list (t :: ts), rest => '-' :: ' ' :: write (indent + 2) t (writeItems indent ts rest)
  | .record [], rest => "\x7b\x7d\n".toList ++ rest
  | .record ((key, t) :: ms), rest =>
    key.toList ++ ':' :: (lead indent t).2 ++ write (lead indent t).1 t (writeMembers indent ms rest)

/-- The further items of a list, each on a line of its own. -/
def writeItems (indent : Nat) : List Tree → (rest : List Char) → List Char
  | [], rest => rest
  | t :: ts, rest =>
    spaces indent ++ '-' :: ' ' :: write (indent + 2) t (writeItems indent ts rest)

/-- The further members of a record, each on a line of its own. -/
def writeMembers (indent : Nat) : List (String × Tree) → (rest : List Char) → List Char
  | [], rest => rest
  | (key, t) :: ms, rest =>
    spaces indent ++ key.toList ++ ':' :: (lead indent t).2 ++
      write (lead indent t).1 t (writeMembers indent ms rest)

end

/-- The tree as a YAML text. -/
def render (t : Tree) : String := String.ofList (write 0 t [])

end Yaml
end Retarget
