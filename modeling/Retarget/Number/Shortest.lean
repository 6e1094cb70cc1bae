/-
# The shortest decimal that reads back

The reals that round to a magnitude form an interval, reaching half way to the next
number on either side; the ends belong to it when the last binary digit of the number
is 0.  The shortest decimal is the multiple of the largest possible power of ten in that
interval, and of two such multiples the nearer one; on an exact tie a parameter says
which.

Two notations:

* *positional*: all digits, a point only if digits follow it: `1000`, `0.5`, `-0`;
* *scientific*, for numbers of magnitude `10^16` or more, or below `10^-5`: `1e16`,
  `2.5e-7`; other numbers are positional with at least one digit after the point: `1.0`.
-/

import Retarget.Number.Binary64

namespace Retarget

/-- A decimal: `digits · 10^exponent`. -/
structure Decimal where
  digits : Nat
  exponent : Int
  deriving DecidableEq, Repr, Inhabited

/-- What becomes of a decimal half way between two candidates. -/
inductive Tie where
  | up
  | toEven
  deriving DecidableEq, Repr

namespace Binary64

/-- The interval of reals that round to a magnitude, in quarters of a unit. -/
structure Basin where
  low : Nat
  middle : Nat
  high : Nat
  closed : Bool

/-- The interval around a magnitude. -/
def basin (units : Nat) : Basin :=
  let step := Nat.pow 2 (spare units)
  let shorter := 0 < spare units && units == Nat.pow 2 units.log2
  { low := 4 * units - (if shorter then step else 2 * step)
    middle := 4 * units
    high := 4 * units + 2 * step
    closed := units / step % 2 == 0 }

/-- The fraction `n / d` of quarters lies in the interval. -/
def Basin.has (b : Basin) (n d : Nat) : Bool :=
  if b.closed then b.low * d ≤ n && n ≤ b.high * d
  else b.low * d < n && n < b.high * d

/-- The multiple of `10^exponent` in the interval that is nearest to its middle. -/
def Basin.multiple? (b : Basin) (tie : Tie) (exponent : Int) : Option Nat :=
  let n := 4 * one * Nat.pow 10 exponent.toNat
  let d := Nat.pow 10 (-exponent).toNat
  let below := b.middle * d / n
  let rest := b.middle * d - below * n
  match b.has (below * n) d, b.has ((below + 1) * n) d with
  | true, true =>
    if 2 * rest < n then some below
    else if n < 2 * rest then some (below + 1)
    else match tie with
      | .up => some (below + 1)
      | .toEven => some (if below % 2 == 0 then below else below + 1)
  | true, false => some below
  | false, true => some (below + 1)
  | false, false => none

/-- The first exponent from `exponent` downwards of which a multiple lies in the
interval, with that multiple. -/
def Basin.search (b : Basin) (tie : Tie) : (steps : Nat) → (exponent : Int) → Decimal
  | 0, exponent => ⟨0, exponent⟩
  | steps + 1, exponent =>
    match b.multiple? tie exponent with
    | some n => ⟨n, exponent⟩
    | none => b.search tie steps (exponent - 1)

/-- A power of ten above every number of the magnitude. -/
def topExponent (units : Nat) : Int := ((units.log2 : Int) - 1074) * 30103 / 100000 + 2

/-- The shortest decimal of a magnitude that reads back as it. -/
def shortest (tie : Tie) (units : Nat) : Decimal :=
  if units = 0 then ⟨0, 0⟩ else (basin units).search tie 40 (topExponent units)

end Binary64

namespace Decimal

/-- The decimal digits. -/
def text (d : Decimal) : List Char := Nat.toDigits 10 d.digits

/-- The digits with the point among them, before them or after them. -/
def positional (d : Decimal) : List Char :=
  if 0 ≤ d.exponent then d.text ++ List.replicate d.exponent.toNat '0'
  else
    let places := (-d.exponent).toNat
    let whole := d.text.length - places
    if 0 < whole then d.text.take whole ++ '.' :: d.text.drop whole
    else ['0', '.'] ++ List.replicate (places - d.text.length) '0' ++ d.text

/-- One digit before the point, and the power of ten. -/
def scientific (d : Decimal) : List Char :=
  let power := (d.text.length : Int) + d.exponent - 1
  let mantissa := match d.text with
    | [c] => [c]
    | c :: cs => c :: '.' :: cs
    | [] => []
  mantissa ++ 'e' :: (toString power).toList

/-- The decimal with a point or a power of ten. -/
def marked (d : Decimal) : List Char :=
  let top := (d.text.length : Int) + d.exponent
  if d.digits = 0 then ['0', '.', '0']
  else if -5 < top && top ≤ 16 then
    if 0 ≤ d.exponent then d.positional ++ ['.', '0'] else d.positional
  else d.scientific

end Decimal

namespace Binary64

/-- A number of this sign with its digits. -/
def signed (negative : Bool) (digits : List Char) : String :=
  String.ofList (if negative then '-' :: digits else digits)

/-- The number in positional notation. -/
def positional : Binary64 → String
  | finite s u => signed s (shortest .up u).positional
  | infinite s => signed s ['i', 'n', 'f']
  | nan => "NaN"

/-- The number in positional notation, `.0` added to a whole number. -/
def pointed : Binary64 → String
  | finite s u =>
    let digits := (shortest .up u).positional
    signed s (if digits.contains '.' then digits else digits ++ ['.', '0'])
  | x => x.positional

/-- The number with a point or a power of ten. -/
def marked : Binary64 → String
  | finite s u => signed s (shortest .toEven u).marked
  | x => x.positional

end Binary64
end Retarget
