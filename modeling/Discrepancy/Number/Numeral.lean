import Discrepancy.Number.Binary
import Discrepancy.Text

/-!
# Numerals

Reading and writing of floating point numbers.

A written number has no exponent, and it has the fewest significant digits that read back as the
same number of its format; among those it is the nearest.  An integer that needs more bits than
the significand of the format has is written exactly instead.  Nothing marks a whole number, so
one is written `1`.

The fewest digits are found on decimal grids of decreasing step: the first grid with a point
inside the interval of reals that round to the number wins.  The ends of the interval belong to it
exactly when the significand is even.
-/

namespace Discrepancy.Binary

/-! ## Reading -/

/-- A decimal fraction `digits * 10 ^ scale`. -/
structure Decimal where
  negative : Bool
  digits : Nat
  scale : Int

/-- A bound on the scales which matter: beyond it every format overflows or gives zero. -/
def Decimal.scaleLimit : Nat := 20000

/-- The number of a format nearest to a decimal fraction. -/
def ofDecimal (format : Format) (d : Decimal) : Binary :=
  let scale := max (min d.scale Decimal.scaleLimit) (-Decimal.scaleLimit)
  ofFraction format d.negative (d.digits * Nat.pow 10 scale.toNat) (Nat.pow 10 (-scale).toNat)

/-- The digits in front of the first byte that is none, and the rest. -/
def spanDigits (t : Text) : Text × Text :=
  t.span fun b ↦ (Text.digit? b).isSome

/-- The value of digits, zero where there are none. -/
def natOfDigits (t : Text) : Nat :=
  (Text.nat? t).getD 0

/-- Reads the part of a numeral behind its digits: nothing, or a decimal exponent. -/
def readExponent : Text → Option Int
  | [] => some 0
  | b :: rest =>
    if Text.lower b == Text.byte 'e' then
      match rest with
      | [] => none
      | sign :: digits =>
        if sign == Text.byte '+' then (Text.nat? digits).map fun n ↦ (n : Int)
        else Text.int? rest
    else none

/-- Reads digits with an optional point and an optional exponent. -/
def readUnsigned (negative : Bool) (t : Text) : Option Decimal := do
  let (whole, rest) := spanDigits t
  let (fraction, rest) := match rest with
    | b :: behind => if b == Text.byte '.' then spanDigits behind else ([], rest)
    | [] => ([], [])
  let exponent ← readExponent rest
  if whole.isEmpty && fraction.isEmpty then none
  else some ⟨negative, natOfDigits (whole ++ fraction), exponent - fraction.length⟩

def readDecimal : Text → Option Decimal
  | [] => none
  | b :: rest =>
    if b == Text.byte '-' then readUnsigned true rest
    else if b == Text.byte '+' then readUnsigned false rest
    else readUnsigned false (b :: rest)

/-- Reads a decimal numeral, `inf`, `-inf` or `nan` as a number of a format. -/
def read? (format : Format) (t : Text) : Option Binary :=
  if t == "inf" then some (infinity false)
  else if t == "-inf" then some (infinity true)
  else if t == "nan" then some nan
  else (readDecimal t).map (ofDecimal format)

/-! ## Writing -/

/-- An interval of positive reals around a number: the fractions between `low / den` and
`high / den`, with both ends or without them. -/
structure Rounding where
  low : Nat
  value : Nat
  high : Nat
  den : Nat
  closed : Bool

/-- The reals that round to the positive number `m * 2 ^ e` of a format.  Below a power of two
the numbers lie twice as dense as above it. -/
def Rounding.of (format : Format) (m : Nat) (e : Int) : Rounding :=
  let unit := max (e + m.log2 + 1 - format.precision) format.minExponent
  let significand := m * Nat.pow 2 (e - unit).toNat
  let below := if significand == Nat.pow 2 (format.precision - 1) && format.minExponent < unit
    then 1 else 2
  let scale := Nat.pow 2 (unit - 2).toNat
  { low := (4 * significand - below) * scale
    value := 4 * significand * scale
    high := (4 * significand + 2) * scale
    den := Nat.pow 2 (2 - unit).toNat
    closed := significand % 2 == 0 }

/-- Whether `point * 10 ^ step` lies in an interval. -/
def Rounding.contains (r : Rounding) (point : Nat) (step : Int) : Bool :=
  let num := point * Nat.pow 10 step.toNat * r.den
  let ten := Nat.pow 10 (-step).toNat
  if r.closed then r.low * ten ≤ num && num ≤ r.high * ten
  else r.low * ten < num && num < r.high * ten

/-- The point of the grid of step `10 ^ step` inside an interval.  Where there are two it is the one
nearer to the number, and the even one when both are equally near. -/
def Rounding.point? (r : Rounding) (step : Int) : Option Nat :=
  let num := r.value * Nat.pow 10 (-step).toNat
  let den := r.den * Nat.pow 10 step.toNat
  let below := num / den
  let above := below + 1
  match r.contains below step && below != 0, r.contains above step with
  | true, true => some (roundHalfEven num den)
  | true, false => some below
  | false, true => some above
  | false, false => none

/-- Searches grids of decreasing step for a point inside an interval. -/
def Rounding.search (r : Rounding) : (grids : Nat) → (step : Int) → Option (Nat × Int)
  | 0, _ => none
  | grids + 1, step =>
    match r.point? step with
    | some point => some (point, step)
    | none => r.search grids (step - 1)

/-- A step above the number: the coarsest grid that can have a point inside the interval. -/
def Rounding.firstStep (r : Rounding) : Int :=
  if r.den ≤ r.value then (Text.ofNat (r.value / r.den)).length
  else 2 - ((Text.ofNat (r.den / r.value)).length : Int)

/-- The numeral `digits * 10 ^ scale` without an exponent. -/
def positional (digits : Nat) (scale : Int) : Text :=
  if 0 ≤ scale then Text.ofNat (digits * Nat.pow 10 scale.toNat)
  else
    let places := (-scale).toNat
    let numeral := Text.ofNat digits
    let padded := List.replicate (places + 1 - numeral.length) (Text.byte '0') ++ numeral
    padded.take (padded.length - places) ++ "." ++ padded.drop (padded.length - places)

/-- The numeral of a positive number.  The search succeeds within as many grids as the
significand has bits, and a few more. -/
def positiveText (format : Format) (m : Nat) (e : Int) : Text :=
  if (format.precision : Int) ≤ e + m.log2 then Text.ofNat (m * Nat.pow 2 e.toNat)
  else
    let r := Rounding.of format m e
    match r.search (format.precision + 4) r.firstStep with
    | some (digits, scale) => positional digits scale
    | none => []

def text (format : Format) : Binary → Text
  | nan => "nan"
  | infinity false => "inf"
  | infinity true => "-inf"
  | finite negative m e =>
    let magnitude : Text := if m == 0 then "0" else positiveText format m e
    if negative then "-" ++ magnitude else magnitude

/-- The text of a complex number: both parts in parentheses, the second one signed. -/
def complexText (format : Format) (re im : Binary) : Text :=
  let imaginary := im.text format
  let signed := match imaginary with
    | b :: _ => if b == Text.byte '-' || b == Text.byte '+' then imaginary else "+" ++ imaginary
    | [] => "+"
  "(" ++ re.text format ++ signed ++ "i)"

end Discrepancy.Binary
