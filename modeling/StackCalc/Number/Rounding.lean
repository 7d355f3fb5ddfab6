import StackCalc.Number.Binary

/-!
# Rounding a quotient to decimal digits

- `roundHalfEven`: the natural nearest to a quotient, a half going to the even
  neighbour.
- `orderOf`: the exponent of the leading decimal digit of a quotient.
- `significant`: the nearest decimal with a given number of digits.
- `neighbours`: the two decimals with a given number of digits around a
  quotient.
-/

namespace StackCalc

/-- The natural nearest to `num / den`; a half goes to the even neighbour. -/
def roundHalfEven (num den : Nat) : Nat :=
  let q := num / den
  let r := num % den
  if 2 * r < den then q
  else if den < 2 * r then q + 1
  else if q % 2 = 0 then q
  else q + 1

/-- `num / den * 10 ^ x` as a quotient of naturals. -/
def scaleByTen (num den : Nat) (x : Int) : Nat × Nat :=
  if 0 ≤ x then (num * Nat.pow 10 x.toNat, den) else (num, den * Nat.pow 10 x.natAbs)

/-- The exponent of the leading decimal digit of `num / den`, for positive `num`
and `den`. A quotient below one is first scaled up until it is not: `s` places
are enough, since `8 ^ s` already exceeds `den / num`. -/
def orderOf (num den : Nat) : Int :=
  let s := if den ≤ num then 0 else (den / num).log2 / 3 + 1
  (Decimal.digitCount (num * Nat.pow 10 s / den) : Int) - 1 - s

/-- The decimal of `n` digits nearest to `num / den`, a half going to the even
neighbour. A value that rounds up to the next power of ten has a coefficient of
`n + 1` digits, all but the first zero. -/
def significant (n num den : Nat) : Decimal :=
  let x := orderOf num den - (n - 1 : Nat)
  let (a, b) := scaleByTen num den (-x)
  ⟨roundHalfEven a b, x⟩

/-- The decimals of `n` digits just below and just above `num / den`, and how
the value lies between them: the ordering of its distance to the lower one
against half a step. Both are the value itself when it has no more than `n`
digits. -/
def neighbours (n num den : Nat) : Decimal × Decimal × Ordering :=
  let x := orderOf num den - (n - 1 : Nat)
  let (a, b) := scaleByTen num den (-x)
  let q := a / b
  let r := a % b
  (⟨q, x⟩, ⟨if r = 0 then q else q + 1, x⟩, compare (2 * r) b)

end StackCalc
