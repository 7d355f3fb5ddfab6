/-!
# Decimals

A `Decimal` is a natural coefficient scaled by a power of ten. This file holds
the type, its two ways of writing (plain and scientific) and the number it reads
as.

- `Decimal.trim`: the same value with no trailing zero in the coefficient.
- `Decimal.plain`: positional notation, as in `0.025` or `1200`.
- `Decimal.scientific`: one digit, a point, the rest, and an exponent, as in
  `2.5e-02`.
- `Decimal.toFloat`: the nearest double.
-/

namespace StackCalc

/-- The value `coefficient * 10 ^ exponent`. -/
structure Decimal where
  coefficient : Nat
  exponent : Int
deriving DecidableEq, Repr

namespace Decimal

/-! ### Digits -/

/-- The number of decimal digits of `n`; zero has one. -/
def digitCount (n : Nat) : Nat :=
  if n < 10 then 1 else digitCount (n / 10) + 1

theorem digitCount_pos (n : Nat) : 0 < digitCount n := by
  rw [digitCount]
  split <;> omega

/-- The decimal digits of `n`, most significant first. -/
def digits (n : Nat) : List Char :=
  Nat.toDigits 10 n

/-- Whether `c` is one of the ten decimal digits. -/
def isDigit (c : Char) : Bool :=
  '0' ≤ c && c ≤ '9'

/-- The value of a string of digits, most significant first. -/
def ofDigits (cs : List Char) : Nat :=
  cs.foldl (fun n c => 10 * n + (c.toNat - '0'.toNat)) 0

/-! ### Size and shape -/

/-- The exponent of the leading digit: `d.order = x` means
`10 ^ x ≤ d < 10 ^ (x + 1)`. -/
def order (d : Decimal) : Int :=
  d.exponent + digitCount d.coefficient - 1

/-- The same value with no trailing zero in its coefficient. -/
def trim (d : Decimal) : Decimal :=
  if d.coefficient = 0 then ⟨0, 0⟩
  else if d.coefficient % 10 = 0 then trim ⟨d.coefficient / 10, d.exponent + 1⟩
  else d
termination_by d.coefficient
decreasing_by omega

/-! ### Writing -/

/-- Positional notation: every digit down to the exponent, and at least one
before the point. -/
def plain (d : Decimal) : String :=
  let ds := digits d.coefficient
  if 0 ≤ d.exponent then
    String.ofList (ds ++ List.replicate d.exponent.toNat '0')
  else
    let places := d.exponent.natAbs
    let padded := List.replicate (places + 1 - ds.length) '0' ++ ds
    let whole := padded.length - places
    String.ofList (padded.take whole ++ '.' :: padded.drop whole)

/-- The exponent part of scientific notation: a sign and at least `width` digits. -/
def exponentText (width : Nat) (x : Int) : String :=
  let ds := digits x.natAbs
  let sign := if x < 0 then '-' else '+'
  String.ofList ('e' :: sign :: List.replicate (width - ds.length) '0' ++ ds)

/-- Scientific notation with at least `width` exponent digits; a lone leading
digit has no point. -/
def scientific (width : Nat) (d : Decimal) : String :=
  let mantissa := match digits d.coefficient with
    | [] => []
    | [c] => [c]
    | c :: cs => c :: '.' :: cs
  String.ofList mantissa ++ exponentText width d.order

/-! ### Reading as a double -/

/-- The positive infinity. -/
def infinity : Float :=
  Float.ofBits 0x7ff0000000000000

/-- The double nearest to `d`. Values far outside the range of doubles are
settled by their size, so that no huge power of ten is ever formed: with a
coefficient `c` of `b` bits the value lies below `10 ^ (b + exponent)`. -/
def toFloat (d : Decimal) : Float :=
  if d.coefficient = 0 then 0.0
  else if 400 < d.exponent then infinity
  else if d.exponent + d.coefficient.log2 + 1 < -400 then 0.0
  else Float.ofScientific d.coefficient (d.exponent < 0) d.exponent.natAbs

end Decimal

end StackCalc
