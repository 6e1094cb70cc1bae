/-
# Trees of data to be written

Every value that is written to a file is first turned into a tree: a text, a flag, a
list, or a record of members with names.  A format is a function from trees to texts.
-/

namespace Retarget

/-- A value to be written. -/
inductive Tree where
  | text (content : String)
  | flag (value : Bool)
  | list (items : List Tree)
  | record (members : List (String × Tree))
  deriving Repr, Inhabited

namespace Tree

/-- A list of texts. -/
def texts (ss : List String) : Tree := list (ss.map text)

/-- The member, unless it is left out. -/
def member (key : String) (value : Tree) (leftOut : Bool) : List (String × Tree) :=
  if leftOut then [] else [(key, value)]

end Tree
end Retarget
