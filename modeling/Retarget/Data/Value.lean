/-
# Values read before their shape is known

A value that could be one of several things is read as a whole first.  Numbers keep the
way in which they were read: a natural number below `2^64`, an integer of at least
`-2^63` written with a minus sign, or a floating-point number.
-/

import Retarget.Number.Shortest

namespace Retarget

/-- A value as it was read. -/
inductive Value where
  | null
  | flag (value : Bool)
  | unsigned (n : Nat)
  | signed (i : Int)
  | real (x : Binary64)
  | text (content : String)
  | list (items : List Value)
  | map (members : List (Value × Value))
  deriving Repr, Inhabited

namespace Value

mutual

/-- How deep lists and maps are nested in the value. -/
def depth : Value → Nat
  | list items => depthAll items + 1
  | map members => depthMembers members + 1
  | _ => 0

/-- The greatest depth among the values. -/
def depthAll : List Value → Nat
  | [] => 0
  | v :: vs => max (depth v) (depthAll vs)

/-- The greatest depth among the keys and values. -/
def depthMembers : List (Value × Value) → Nat
  | [] => 0
  | (k, v) :: ms => max (max (depth k) (depth v)) (depthMembers ms)

end

/-- The text that a scalar stands for; nothing for `null`, a list or a map. -/
def scalarText? : Value → Option String
  | flag true => some "true"
  | flag false => some "false"
  | unsigned n => some (toString n)
  | signed i => some (toString i)
  | real x => some x.positional
  | text s => some s
  | _ => none

end Value
end Retarget
