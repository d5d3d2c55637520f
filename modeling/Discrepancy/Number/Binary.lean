/-!
# Binary floating point

A binary number is a number that some floating point format holds, kept exactly: not-a-number, one
of the two infinities, or a signed integer times a power of two.  The significand of a finite
number is odd unless it is zero, so that a number has one representation whichever format it came
from, and a wider format holds it unchanged.

A `Format` enters twice only: when a fraction or a number of another format is rounded to the
nearest number of the format, and when the shortest numeral is sought that reads back as the same
number of the format.
-/

namespace Discrepancy

/-- The value of a floating point leaf. -/
inductive Binary where
  | nan
  | infinity (negative : Bool)
  /-- The number `significand * 2 ^ exponent`, or its negative. -/
  | finite (negative : Bool) (significand : Nat) (exponent : Int)
  deriving DecidableEq

namespace Binary

/-- A floating point format: its numbers are the multiples of `2 ^ minExponent` below
`2 ^ overflow` whose significand fits into `precision` bits. -/
structure Format where
  precision : Nat
  minExponent : Int
  overflow : Int

def Format.single : Format := ⟨24, -149, 128⟩

def Format.double : Format := ⟨53, -1074, 1024⟩

/-- Extended precision, with a significand of 64 bits. -/
def Format.extended : Format := ⟨64, -16445, 16384⟩

/-- Divides out the factors of two of a significand, at most `steps` of them. -/
def reduce (negative : Bool) : (steps significand : Nat) → (exponent : Int) → Binary
  | 0, m, e => finite negative m e
  | steps + 1, m, e =>
    if m % 2 == 0 then reduce negative steps (m / 2) (e + 1) else finite negative m e

/-- The finite number `significand * 2 ^ exponent` in its one representation. -/
def ofScaled (negative : Bool) (significand : Nat) (exponent : Int) : Binary :=
  if significand == 0 then finite negative 0 0
  else reduce negative significand.log2 significand exponent

/-- The integer nearest to a fraction, the even one of two that are equally near. -/
def roundHalfEven (num den : Nat) : Nat :=
  let q := num / den
  let twice := 2 * (num % den)
  if twice < den then q
  else if den < twice then q + 1
  else q + q % 2

/-- The exponent of the largest power of two that a positive fraction reaches. -/
def magnitude (num den : Nat) : Int :=
  let k : Int := num.log2 - den.log2
  if den * Nat.pow 2 k.toNat ≤ num * Nat.pow 2 (-k).toNat then k else k - 1

/-- The number of a format nearest to the fraction `num / den`; what is out of range is an
infinity. -/
def ofFraction (format : Format) (negative : Bool) (num den : Nat) : Binary :=
  if num == 0 then finite negative 0 0
  else
    let exponent := max (magnitude num den - format.precision + 1) format.minExponent
    let significand :=
      roundHalfEven (num * Nat.pow 2 (-exponent).toNat) (den * Nat.pow 2 exponent.toNat)
    if format.overflow ≤ significand.log2 + exponent then infinity negative
    else ofScaled negative significand exponent

def round (format : Format) : Binary → Binary
  | finite negative m e =>
    ofFraction format negative (m * Nat.pow 2 e.toNat) (Nat.pow 2 (-e).toNat)
  | x => x

def ofInt (n : Int) : Binary :=
  ofScaled (n < 0) n.natAbs 0

/-- The integer which a number is, if it is one. -/
def int? : Binary → Option Int
  | finite negative m (.ofNat e) =>
    some (if negative then -(m * Nat.pow 2 e) else m * Nat.pow 2 e)
  | _ => none

/-- The order of two magnitudes `m * 2 ^ e` and `m' * 2 ^ e'`. -/
def orderMagnitudes (m : Nat) (e : Int) (m' : Nat) (e' : Int) : Ordering :=
  compare (m * Nat.pow 2 (e - e').toNat) (m' * Nat.pow 2 (e' - e).toNat)

/-- The order of two numbers.  The two zeros are equal, and not-a-number is not in order with any
number, itself included. -/
def order : Binary → Binary → Option Ordering
  | nan, _ => none
  | _, nan => none
  | infinity a, infinity b => some (compare b a)
  | infinity a, finite .. => some (if a then .lt else .gt)
  | finite .., infinity b => some (if b then .gt else .lt)
  | finite a m e, finite b m' e' =>
    if m == 0 && m' == 0 then some .eq
    else match a, b with
      | false, true => some .gt
      | true, false => some .lt
      | false, false => some (orderMagnitudes m e m' e')
      | true, true => some (orderMagnitudes m' e' m e)

def equal (x y : Binary) : Bool :=
  order x y == some .eq

end Binary

end Discrepancy
