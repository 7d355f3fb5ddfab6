import StackCalc.Number.Decimal

/-!
# Exact values of doubles

A finite double is a natural coefficient scaled by a power of two. Decimal texts
and remainders are computed on that exact value.

- `Binary.ofFloat`: the magnitude of a finite double.
- `Binary.ratio`: the same magnitude as a quotient of naturals.
- `isNegative`: the sign bit, also of zeros.
- `remainder`, `truncate`: the remainder of division and the whole part, both
  exact.
-/

namespace StackCalc

/-- The value `coefficient * 2 ^ exponent`. -/
structure Binary where
  coefficient : Nat
  exponent : Int
deriving DecidableEq, Repr

namespace Binary

/-- The magnitude of a finite double, read off its bits. -/
def ofFloat (x : Float) : Binary :=
  let bits : Nat := x.toBits.toNat
  let scale : Nat := bits / Nat.pow 2 52 % Nat.pow 2 11
  let fraction : Nat := bits % Nat.pow 2 52
  if scale = 0 then ⟨fraction, -1074⟩ else ⟨Nat.pow 2 52 + fraction, (scale : Int) - 1075⟩

/-- The value as a numerator over a denominator. -/
def ratio (b : Binary) : Nat × Nat :=
  if 0 ≤ b.exponent then (b.coefficient * Nat.pow 2 b.exponent.toNat, 1)
  else (b.coefficient, Nat.pow 2 b.exponent.natAbs)

theorem ratio_den_pos (b : Binary) : 0 < b.ratio.2 := by
  unfold ratio
  split
  · simp
  · exact Nat.pow_pos (by decide)

/-- The value as a decimal: every power of two divides a power of ten. -/
def toDecimal (b : Binary) : Decimal :=
  if 0 ≤ b.exponent then ⟨b.coefficient * Nat.pow 2 b.exponent.toNat, 0⟩
  else ⟨b.coefficient * Nat.pow 5 b.exponent.natAbs, b.exponent⟩

end Binary

/-- Whether the sign bit of `x` is set. -/
def isNegative (x : Float) : Bool :=
  Nat.pow 2 63 ≤ x.toBits.toNat

/-- The remainder of `x / y` when the quotient is cut to a whole number; it has
the sign of `x`. Both magnitudes are brought to the smaller power of two, where
the remainder is one of naturals. -/
def remainder (x y : Float) : Float :=
  if x.isNaN || y.isNaN || x.isInf || y == 0.0 then 0.0 / 0.0
  else if y.isInf then x
  else
    let a := Binary.ofFloat x
    let b := Binary.ofFloat y
    let e := min a.exponent b.exponent
    let r := a.coefficient * Nat.pow 2 (a.exponent - e).toNat %
      (b.coefficient * Nat.pow 2 (b.exponent - e).toNat)
    let magnitude := (Float.ofNat r).scaleB e
    if isNegative x then -magnitude else magnitude

/-- The whole part of a finite number, cut toward zero. -/
def truncate (x : Float) : Float :=
  if x < 0.0 then x.ceil else x.floor

end StackCalc
