/-
# What can be wrong with a YAML text that is read as a shape

Besides the flaws of the text itself there are mismatches, which say where in the document
they lie, and limits on nesting and on the use of aliases.  The path of a value is the way
from the root to it:

| step | shown |
| --- | --- |
| the item at a place | `[0]` after the path of the list |
| the member of a name | a point and the name, after the path of the map, unless that is the root |
| a member whose name is not a scalar | as if its name were `?` |
| an alias | nothing |

The path of the root itself is a point, and a mismatch there shows no path.
-/

import Retarget.Data.Mismatch
import Retarget.Yaml.Flaw

namespace Retarget
namespace Yaml

/-- The way from the root of a document to a value. -/
inductive Path where
  | root
  | item (parent : Path) (place : Nat)
  | member (parent : Path) (key : String)
  | strange (parent : Path)
  | aliased (parent : Path)
  deriving DecidableEq, Repr, Inhabited

namespace Path

/-- The path, as messages show it. -/
def shown : Path → String
  | root => "."
  | item parent n => parent.shown ++ "[" ++ toString n ++ "]"
  | member parent key => (if parent = root then "" else parent.shown ++ ".") ++ key
  | strange parent => (if parent = root then "" else parent.shown ++ ".") ++ "?"
  | aliased parent => parent.shown

end Path

/-- What is wrong with a text that is read as a shape.  A mismatch without a place belongs
to no single value yet. -/
inductive Fault where
  | flaw (f : Flaw)
  | unknownAnchor (m : Mark)
  | tooDeep (m : Mark)
  | tooManyAliases
  | endOfText
  | severalDocuments
  | mismatch (mismatch : Mismatch) (place : Option (Mark × Path))
  deriving DecidableEq, Repr

namespace Fault

/-- How this format speaks of null and of floating-point numbers. -/
def wording : Wording := ⟨"unit value", Binary64.pointed⟩

/-- The text of the fault. -/
def message : Fault → String
  | flaw f => f.message
  | unknownAnchor m => "unknown anchor" ++ m.shown
  | tooDeep m => "recursion limit exceeded" ++ m.shown
  | tooManyAliases => "repetition limit exceeded"
  | endOfText => "EOF while parsing a value"
  | severalDocuments => "deserializing from YAML containing more than one document is not supported"
  | mismatch x none => x.message wording
  | mismatch x (some (m, path)) =>
    (if path.shown = "." then "" else path.shown ++ ": ") ++ x.message wording ++ m.shown

/-- A mismatch without a place gets one. -/
def placed (m : Mark) (path : Path) : Fault → Fault
  | mismatch x none => mismatch x (some (m, path))
  | fault => fault

end Fault
end Yaml
end Retarget
