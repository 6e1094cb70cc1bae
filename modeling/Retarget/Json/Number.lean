/-
# Numbers in JSON

    number    =  [ "-" ] whole [ "." digit digit… ] [ ( "e" | "E" ) [ "+" | "-" ] digit digit… ]
    whole     =  "0" | a digit other than 0, then digits

Without fraction and exponent a number is whole, if it is below `2^64`, or at least
`-2^63` with a minus sign; `-0` is a floating-point zero.  Any other number is a
floating-point number, found as follows:

* the *significand* collects digits, across the point, as long as it stays below `2^64`.
  Once a digit does not fit, the digits up to the point only raise the power of ten, and
  the digits behind the point are dropped; a digit behind the point may fit again;
* the significand, rounded to a floating-point number, is multiplied or divided by the
  power of ten, also rounded, in one step if that power is at most `10^308`.

So the result is close to the number written, but not always the closest.
-/

import Retarget.Data.Value
import Retarget.Json.Fault

namespace Retarget
namespace Json

/-- The value of a digit. -/
def digitValue (c : Char) : Nat := c.toNat - 48

/-- The digits at the front collected in the significand while it stays below `2^64`:
the significand, how many digits they are, and the rest of the text. -/
def collect (significand : Nat) : List Char → Nat × Nat × List Char
  | [] => (significand, 0, [])
  | c :: cs =>
    let next := significand * 10 + digitValue c
    if c.isDigit && next < Nat.pow 2 64 then
      let (n, count, rest) := collect next cs
      (n, count + 1, rest)
    else (significand, 0, c :: cs)

/-- The number of digits at the front. -/
def digitCount (cs : List Char) : Nat := (cs.takeWhile Char.isDigit).length

/-- The text without the digits at its front. -/
def afterDigits (cs : List Char) : List Char := cs.dropWhile Char.isDigit

/-- The number scaled by a power of ten; nothing if the result is too large. -/
def scaled : (steps : Nat) → Binary64 → (exponent : Int) → Option Binary64
  | 0, x, _ => some x
  | steps + 1, x, exponent =>
    if exponent.natAbs ≤ 308 then
      if 0 ≤ exponent then
        let y := x.times (.tenPower exponent.toNat)
        if y.isInfinite then none else some y
      else some (x.dividedBy (.tenPower exponent.natAbs))
    else if x.isZero then some x
    else if 0 ≤ exponent then none
    else scaled steps (x.dividedBy (.tenPower 308)) (exponent + 308)

/-- The floating-point number of this sign, significand and power of ten. -/
def real (negative : Bool) (significand : Nat) (exponent : Int) (rest : List Char) : Reading Value :=
  match scaled 4 (.ofNat significand) exponent with
  | none => fail .numberTooLarge rest
  | some x => .ok (.real (if negative then x.neg else x), rest)

/-- The digits of an exponent, as a number; nothing once it reaches `2^31`, with the text
behind the digit at which it does. -/
def exponentDigits (n : Nat) : List Char → Option Nat × List Char
  | [] => (some n, [])
  | c :: cs =>
    if c.isDigit then
      let next := n * 10 + digitValue c
      if next < Nat.pow 2 31 then exponentDigits next cs else (none, cs)
    else (some n, c :: cs)

/-- The number whose exponent comes next, after the letter. -/
def withExponent (negative : Bool) (significand : Nat) (exponent : Int) (cs : List Char) :
    Reading Value :=
  let down := cs.head? == some '-'
  match (if down || cs.head? == some '+' then cs.tail else cs) with
  | [] => fail .endInValue []
  | c :: cs =>
    if !c.isDigit then stop .badNumber (c :: cs)
    else
      match exponentDigits 0 (c :: cs) with
      | (some n, rest) => real negative significand (if down then exponent - n else exponent + n) rest
      | (none, rest) =>
        if significand ≠ 0 && !down then fail .numberTooLarge rest
        else .ok (.real (.zero negative), afterDigits rest)

/-- The number of which all digits have been read, perhaps with an exponent to come. -/
def afterFraction (negative : Bool) (significand : Nat) (exponent : Int) (cs : List Char) :
    Reading Value :=
  match cs with
  | 'e' :: rest => withExponent negative significand exponent rest
  | 'E' :: rest => withExponent negative significand exponent rest
  | rest => real negative significand exponent rest

/-- The number whose fraction comes next, after the point. -/
def withFraction (negative : Bool) (significand : Nat) (exponent : Int) (cs : List Char) :
    Reading Value :=
  let (n, count, rest) := collect significand cs
  if count = 0 && digitCount rest = 0 then
    stop (if rest.isEmpty then .endInValue else .badNumber) rest
  else afterFraction negative n (exponent - count) (afterDigits rest)

/-- The whole number, or the floating-point number that comes of what follows. -/
def afterWhole (negative : Bool) (significand : Nat) (cs : List Char) : Reading Value :=
  match cs with
  | '.' :: rest => withFraction negative significand 0 rest
  | 'e' :: rest => withExponent negative significand 0 rest
  | 'E' :: rest => withExponent negative significand 0 rest
  | rest =>
    if !negative then .ok (.unsigned significand, rest)
    else if 0 < significand && significand ≤ Nat.pow 2 63 then .ok (.signed (Int.negOfNat significand), rest)
    else .ok (.real (.neg (.ofNat significand)), rest)

/-- A number, after its sign. -/
def number (negative : Bool) : List Char → Reading Value
  | [] => fail .endInValue []
  | c :: cs =>
    if c = '0' then
      if digitCount cs = 0 then afterWhole negative 0 cs else stop .badNumber cs
    else if c.isDigit then
      match collect 0 (c :: cs) with
      | (n, _, rest) =>
        let more := digitCount rest
        if more = 0 then afterWhole negative n rest
        else
          match afterDigits rest with
          | '.' :: rest => withFraction negative n more rest
          | rest => afterFraction negative n more rest
    else stop .badNumber (c :: cs)

end Json
end Retarget
