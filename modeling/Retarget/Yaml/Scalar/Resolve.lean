/-
# What a plain scalar means

A plain scalar without a tag may mean something else than its text:

| scalar | meaning |
| --- | --- |
| nothing, `~`, `null`, `Null`, `NULL` | null |
| `true`, `True`, `TRUE`, `false`, `False`, `FALSE` | a flag |
| `[+-] digits`, `[+-]0x…`, `[+-]0o…`, `[+-]0b…` | an integer of at most 128 bits |
| `[+-].inf`, `.nan`, and capitalised | an infinity, not a number |
| `[+-] digits [. digits] [e [+-] digits]`, digits missing on one side of the point | a number |
| digits after a needless leading zero, with or without a sign | the text |

A natural number below `2^64` and an integer with a minus sign from `-2^63` on are read
exactly, wider ones are told apart from them; what is wider than 128 bits is a
floating-point number.  A number too large for a floating-point number is a text.

Scalars with the tag of a null, a flag, an integer or a number have to be one; with any
other tag, or with quotes, a scalar means its text.
-/

import Retarget.Data.Mismatch
import Retarget.Data.Value
import Retarget.Yaml.Token

namespace Retarget
namespace Yaml

/-- What a scalar means: a value, or an integer that is too wide for one. -/
inductive Meaning where
  | known (v : Value)
  | wide (i : Int)
  deriving Repr

namespace Resolve

/-- The text means null. -/
def isNull (s : String) : Bool := s == "null" || s == "Null" || s == "NULL" || s == "~"

/-- The flag that the text means. -/
def flag? (s : String) : Option Bool :=
  if s == "true" || s == "True" || s == "TRUE" then some true
  else if s == "false" || s == "False" || s == "FALSE" then some false
  else none

/-- The character is a sign. -/
def isSign (c : Char) : Bool := c = '+' || c = '-'

/-- The text starts with a sign. -/
def isSigned (cs : List Char) : Bool := (cs.head?.map isSign).getD false

/-- The text without a sign at its front. -/
def unsigned (cs : List Char) : List Char := if isSigned cs then cs.tail else cs

/-- The text without a plus sign at its front. -/
def unpositive (cs : List Char) : List Char := if cs.head? = some '+' then cs.tail else cs

/-- Digits after a needless leading zero, perhaps with a sign. -/
def hasNeedlessZero (cs : List Char) : Bool :=
  match unsigned cs with
  | '0' :: d :: ds => (d :: ds).all Char.isDigit
  | _ => false

/-- The value of a digit of a base up to 16. -/
def digit? (base : Nat) (c : Char) : Option Nat :=
  let n :=
    if c.isDigit then c.toNat - 48
    else if 'a' ≤ c && c ≤ 'f' then c.toNat - 87
    else if 'A' ≤ c && c ≤ 'F' then c.toNat - 55
    else base
  if n < base then some n else none

/-- The number that digits of a base write, of which `n` has been read. -/
def digits? (base n : Nat) : List Char → Option Nat
  | [] => some n
  | c :: cs =>
    match digit? base c with
    | some d => digits? base (base * n + d) cs
    | none => none

/-- The number that at least one digit of a base writes. -/
def number? (base : Nat) (cs : List Char) : Option Nat := if cs.isEmpty then none else digits? base 0 cs

/-- The base that follows a leading zero. -/
def base? : List Char → Option (Nat × List Char)
  | '0' :: 'x' :: cs => some (16, cs)
  | '0' :: 'o' :: cs => some (8, cs)
  | '0' :: 'b' :: cs => some (2, cs)
  | _ => none

/-- The natural number that digits write, in the base they name. -/
def natural? (cs : List Char) : Option Nat :=
  match base? cs with
  | some (base, ds) => number? base ds
  | none => if hasNeedlessZero cs then none else number? 10 cs

/-- The whole number that the text means, and whether it has a minus sign. -/
def integer? (cs : List Char) : Option (Bool × Nat) :=
  if cs.head? = some '-' then (natural? cs.tail).map ((true, ·))
  else (natural? (unpositive cs)).map ((false, ·))

/-- The meaning of a whole number; nothing if it is wider than 128 bits. -/
def wholeMeaning? : Bool × Nat → Option Meaning
  | (false, n) =>
    if n < Nat.pow 2 64 then some (.known (.unsigned n))
    else if n < Nat.pow 2 128 then some (.wide (Int.ofNat n))
    else none
  | (true, n) =>
    if n ≤ Nat.pow 2 63 then some (.known (.signed (Int.negOfNat n)))
    else if n ≤ Nat.pow 2 127 then some (.wide (Int.negOfNat n))
    else none

/-- The digits of a number before and after its point, and the digits of its exponent
with their sign, if the text has the form of a number. -/
def decimal? (cs : List Char) : Option (List Char × List Char × Int) :=
  let whole := cs.takeWhile Char.isDigit
  let rest := cs.dropWhile Char.isDigit
  let point := rest.head? = some '.'
  let fraction := if point then rest.tail.takeWhile Char.isDigit else []
  let rest := if point then rest.tail.dropWhile Char.isDigit else rest
  if whole.isEmpty && fraction.isEmpty then none
  else
    match rest with
    | [] => some (whole, fraction, 0)
    | e :: ds =>
      if e = 'e' || e = 'E' then
        (number? 10 (unsigned ds)).map fun n => (whole, fraction, if ds.head? = some '-' then -n else n)
      else none

/-- The finite number of this sign that the text means. -/
def finite? (negative : Bool) (cs : List Char) : Option Binary64 :=
  match decimal? cs with
  | none => none
  | some (whole, fraction, exponent) =>
    match digits? 10 0 (whole ++ fraction) with
    | none => none
    | some n =>
      let x := Binary64.ofDecimal negative n (exponent - fraction.length)
      if x.isFinite then some x else none

/-- The text after its sign means an infinity. -/
def isInfinity (s : String) : Bool := s == ".inf" || s == ".Inf" || s == ".INF"

/-- The floating-point number that the text means. -/
def real? (cs : List Char) : Option Binary64 :=
  let s := String.ofList cs
  if s == ".nan" || s == ".NaN" || s == ".NAN" then some .nan
  else
    let negative := cs.head? = some '-'
    let digits := unsigned cs
    if isInfinity (String.ofList digits) then some (.infinite negative) else finite? negative digits

/-- The meaning of a plain scalar without a tag. -/
def untagged (s : String) : Meaning :=
  let cs := s.toList
  if s.isEmpty || isNull s then .known .null
  else
    match flag? s with
    | some b => .known (.flag b)
    | none =>
      match (integer? cs).bind wholeMeaning? with
      | some m => m
      | none =>
        match (if hasNeedlessZero cs then none else real? cs) with
        | some x => .known (.real x)
        | none => .known (.text s)

/-- The meaning that a tag demands, or the mismatch that the text does not have it. -/
def demanded (s : String) (what : String) (meaning : Option Meaning) : Except Mismatch Meaning :=
  match meaning with
  | some m => .ok m
  | none => .error (.wrongValue (.text s) what)

/-- A tag of the standard schema. -/
def standardTag (name : String) : Octets := octets ("tag:yaml.org,2002:" ++ name)

/-- The meaning of a scalar. -/
def scalar (tag : Option Octets) (s : String) (style : Style) : Except Mismatch Meaning :=
  match tag with
  | none => .ok (if style = .plain then untagged s else .known (.text s))
  | some t =>
    if t = standardTag "bool" then demanded s "a boolean" ((flag? s).map fun b => .known (.flag b))
    else if t = standardTag "int" then demanded s "an integer" ((integer? s.toList).bind wholeMeaning?)
    else if t = standardTag "float" then demanded s "a float" ((real? s.toList).map fun x => .known (.real x))
    else if t = standardTag "null" then demanded s "null" (if isNull s then some (.known .null) else none)
    else if t.head? = some 0x21 && style = .plain then .ok (untagged s)
    else .ok (.known (.text s))

/-- The name that a tag of one's own gives: what follows its `!`, or the `!` alone. -/
def ownTag? (tag : Option Octets) : Option String :=
  match tag with
  | some (b :: bs) =>
    if b = 0x21 then String.fromUTF8? ⟨(if bs.isEmpty then [b] else bs).toArray⟩ else none
  | _ => none

end Resolve

namespace Meaning

/-- What a scalar of this meaning is found to be. -/
def found : Meaning → Found
  | known (.flag b) => .flag b
  | known (.unsigned n) => .integer n
  | known (.signed i) => .integer i
  | known (.real x) => .real x
  | known (.text s) => .text s
  | known .null => .nothing
  | known (.list _) => .list
  | known (.map _) => .map
  | wide i => .wideInteger i

/-- The value, if it is not too wide. -/
def value : Meaning → Except Mismatch Value
  | known v => .ok v
  | m => .error (.wrongType m.found "any value")

/-- The meaning is the text itself. -/
def isText : Meaning → Bool
  | known (.text _) => true
  | _ => false

end Meaning
end Yaml
end Retarget
