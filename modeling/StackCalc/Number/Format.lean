import StackCalc.Number.Rounding

/-!
# Texts of numbers

A program prints a number with twelve significant digits, trailing zeros
dropped, in plain notation unless its exponent is small or large. A number in a
source text is shown with the fewest digits that read back as the same number,
always in plain notation.

- `NumberFormat.general`: the format of printed values, `formatNumber` the text
  in it.
- `shortest`: the fewest digits that read back, `literalText` the text of them.
-/

namespace StackCalc

/-- How printed values are written. -/
structure NumberFormat where
  /-- The number of significant digits. -/
  digits : Nat
  /-- The least exponent of the leading digit that is still written in plain
  notation; the largest is one less than `digits`. -/
  leastPlain : Int
  /-- The least number of exponent digits in scientific notation. -/
  exponentDigits : Nat

/-- Printed values have twelve significant digits, plain notation from `0.0001`
up to twelve digits before the point, and two or more exponent digits. -/
def NumberFormat.general : NumberFormat :=
  ⟨12, -4, 2⟩

/-- The text of a positive decimal in the format `f`. -/
def NumberFormat.write (f : NumberFormat) (d : Decimal) : String :=
  if d.order < f.leastPlain || f.digits ≤ d.order then d.trim.scientific f.exponentDigits
  else d.trim.plain

/-- The text of a number as a program prints it. -/
def formatNumber (x : Float) : String :=
  if x.isNaN then "nan"
  else
    let sign := if isNegative x then "-" else ""
    if x.isInf then sign ++ "inf"
    else if x == 0.0 then sign ++ "0"
    else
      let f := NumberFormat.general
      let (num, den) := (Binary.ofFloat x).ratio
      sign ++ f.write (significant f.digits num den)

/-! ### Fewest digits that read back -/

/-- A decimal of `n` digits that reads back as `x`, the nearer of two; from the
middle the upper one is taken. -/
def readsBack? (x : Float) (n : Nat) : Option Decimal :=
  let (num, den) := (Binary.ofFloat x).ratio
  let (lower, upper, place) := neighbours n num den
  if lower.toFloat == x && (place == .lt || upper.toFloat != x) then some lower
  else if upper.toFloat == x then some upper
  else none

/-- The decimal with the fewest digits that reads back as the positive number
`x`. Seventeen digits are enough for every double, so the exact value is never
reached. -/
def shortest (x : Float) : Decimal :=
  ((List.range 17).findSome? fun n => readsBack? x (n + 1)).getD
    (Binary.ofFloat x).toDecimal

/-- The text of a number as it is shown in a source text: no exponent, however
long. -/
def literalText (x : Float) : String :=
  if x.isNaN then "NaN"
  else
    let sign := if isNegative x then "-" else ""
    if x.isInf then sign ++ "inf"
    else if x == 0.0 then sign ++ "0"
    else sign ++ (shortest x.abs).trim.plain

end StackCalc
