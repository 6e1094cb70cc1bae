/-
# Names of files in paths

A path is a text in which `/` separates the names.  Empty names and the name `.` count for
nothing, except a `.` at the very start.  The last name that counts is the file's name,
unless it is `.` or `..`; then the path has none.

    name       =  stem [ "." extension ]

The extension starts after the last point, and a point at the start of a name begins
none.
-/

import Retarget.Text.Caseless
import Retarget.Text.Joined

namespace Retarget
namespace FilePath

/-- The path starts at the root of all files. -/
def isAbsolute (path : List Char) : Bool := path.head? = some '/'

/-- Text that counts for nothing at the end of a path. -/
def trimmed (path : List Char) : List Char := ofReversed path.reverse
where
  /-- The path, given last character first. -/
  ofReversed : List Char → List Char
    | [] => []
    | ['/'] => ['/']
    | '/' :: cs => ofReversed cs
    | ['.', '/'] => ['/']
    | '.' :: '/' :: cs => ofReversed cs
    | cs => cs.reverse

/-- The last name of a path that counts, and the text before it. -/
def lastName (path : List Char) : List Char × List Char :=
  let back := (trimmed path).reverse
  ((back.takeWhile (· ≠ '/')).reverse, (back.dropWhile (· ≠ '/')).reverse)

/-- The file's name. -/
def name? (path : List Char) : Option (List Char) :=
  let name := (lastName path).1
  if name = [] || name = ['.'] || name = ['.', '.'] then none else some name

/-- The part of a name before the last point, and the part behind it if there is one. -/
def split (name : List Char) : List Char × Option (List Char) :=
  let back := name.reverse
  let ext := (back.takeWhile (· ≠ '.')).reverse
  match back.dropWhile (· ≠ '.') with
  | [] => (name, none)
  | [_] => (name, none)
  | _ :: stem => (stem.reverse, some ext)

/-- The file's name without its extension. -/
def stem? (path : List Char) : Option (List Char) := (name? path).map fun n => (split n).1

/-- The file's extension. -/
def extension? (path : List Char) : Option (List Char) := (name? path).bind fun n => (split n).2

/-- The path of a file of this name in the same directory; in the path itself if that has
no file's name. -/
def withName (path name : List Char) : List Char :=
  let base := if (name? path).isSome then trimmed (lastName path).2 else path
  if base = [] || base.getLast? = some '/' then base ++ name else base ++ '/' :: name

/-- The file's extension is `json`, in any letter case. -/
def isJson (path : String) : Bool :=
  ((extension? path.toList).map (Text.agrees "json".toList)).getD false

end FilePath
end Retarget
