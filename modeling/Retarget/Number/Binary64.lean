/-
# Binary floating-point numbers of 64 bits

A finite number is a sign and a magnitude, counted in units of `2^-1074`, the smallest
positive number.  A magnitude below `2^53` units can be any number of units; between
`2^(52+k)` and `2^(53+k)` units it is a multiple of `2^k` units, so that 53 binary digits
always suffice; from `2^2098` units on it is infinite.

All arithmetic is exact on natural numbers and rounds once, at the end, to the nearest
number, a tie going to the one whose last binary digit is 0.
-/

namespace Retarget

/-- A floating-point number; `units` counts units of `2^-1074`. -/
inductive Binary64 where
  | finite (negative : Bool) (units : Nat)
  | infinite (negative : Bool)
  | nan
  deriving DecidableEq, Repr, Inhabited

namespace Binary64

/-- The number 1 in units. -/
def one : Nat := Nat.pow 2 1074

/-- Where the magnitudes end: the first power of two that is infinite. -/
def limit : Nat := Nat.pow 2 2098

/-- How many binary digits the magnitude has too many: numbers near it are multiples of
`2^spare units`. -/
def spare (units : Nat) : Nat := units.log2 - 52

/-- The quotient rounded to the nearest natural number, a tie to the even one. -/
def nearest (n d : Nat) : Nat :=
  let q := n / d
  let r := n % d
  if 2 * r < d || (2 * r == d && q % 2 == 0) then q else q + 1

theorem nearest_of_dvd {n d : Nat} (hd : 0 < d) (h : d ∣ n) : nearest n d = n / d := by
  have hr : n % d = 0 := Nat.mod_eq_zero_of_dvd h
  simp [nearest, hr, hd]

/-- The magnitude nearest to the quotient of two numbers of units. -/
def rounded (n d : Nat) : Nat :=
  let step := Nat.pow 2 (spare (n / d))
  nearest n (d * step) * step

/-- The number of this sign nearest to the quotient of two numbers of units. -/
def ofUnits (negative : Bool) (n d : Nat) : Binary64 :=
  let m := rounded n d
  if m < limit then finite negative m else infinite negative

/-- Zero. -/
def zero (negative : Bool) : Binary64 := finite negative 0

/-- The number nearest to a natural number. -/
def ofNat (n : Nat) : Binary64 := ofUnits false (n * one) 1

/-- The number nearest to a power of ten. -/
def tenPower (k : Nat) : Binary64 := ofNat (Nat.pow 10 k)

/-- The number with the other sign. -/
def neg : Binary64 → Binary64
  | finite s u => finite (!s) u
  | infinite s => infinite (!s)
  | nan => nan

/-- The product of two numbers. -/
def times : Binary64 → Binary64 → Binary64
  | finite s u, finite t v => ofUnits (s != t) (u * v) one
  | finite s u, infinite t => if u = 0 then nan else infinite (s != t)
  | infinite s, finite t v => if v = 0 then nan else infinite (s != t)
  | infinite s, infinite t => infinite (s != t)
  | _, _ => nan

/-- The quotient of two numbers. -/
def dividedBy : Binary64 → Binary64 → Binary64
  | finite s u, finite t v =>
    if v = 0 then (if u = 0 then nan else infinite (s != t)) else ofUnits (s != t) (u * one) v
  | finite s _, infinite t => zero (s != t)
  | infinite s, finite t _ => infinite (s != t)
  | _, _ => nan

/-- The number is zero, of either sign. -/
def isZero : Binary64 → Bool
  | finite _ u => u == 0
  | _ => false

/-- The number is an infinity. -/
def isInfinite : Binary64 → Bool
  | infinite _ => true
  | _ => false

/-- The number is neither an infinity nor undefined. -/
def isFinite : Binary64 → Bool
  | finite _ _ => true
  | _ => false

/-- The number nearest to `n · 10^exponent`.  Exponents that lead far out of the range of
the numbers are decided by their size alone. -/
def ofDecimal (negative : Bool) (n : Nat) (exponent : Int) : Binary64 :=
  let top := ((Nat.toDigits 10 n).length : Int) + exponent
  if n = 0 || top < -400 then zero negative
  else if 400 < top then infinite negative
  else ofUnits negative (n * Nat.pow 10 exponent.toNat * one) (Nat.pow 10 (-exponent).toNat)

end Binary64
end Retarget
