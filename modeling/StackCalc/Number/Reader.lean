import StackCalc.Number.Decimal

/-!
# Reading numbers

The written form of a number: digits with at most one point among or around
them, and an optional exponent. A value typed in by a user may also carry a
sign, or be one of the names of infinity and of "not a number", in any case of
letters.

- `Decimal.read?`: the decimal of a whole text without sign.
- `readNumber?`: the number of a text as a user types it.
-/

namespace StackCalc

open Decimal (isDigit)

/-- The value of the digits of an exponent. It stops growing once it has passed
`65535`, which no number needs. -/
def exponentValue (cs : List Char) : Nat :=
  cs.foldl (fun n c => if n < 65536 then 10 * n + (c.toNat - '0'.toNat) else n) 0

/-- The exponent a text denotes: nothing, or `e` and one or more digits behind
an optional sign. -/
def readExponent? : List Char → Option Int
  | [] => some 0
  | c :: cs =>
    if c = 'e' ∨ c = 'E' then
      let (negative, ds) := match cs with
        | '-' :: ds => (true, ds)
        | '+' :: ds => (false, ds)
        | ds => (false, ds)
      if ds ≠ [] ∧ ds.all isDigit then
        some (if negative then -(exponentValue ds : Int) else exponentValue ds)
      else none
    else none

/-- The decimal that a text denotes: digits, an optional point and more digits,
an optional exponent; at least one digit before the exponent. -/
def Decimal.read? (cs : List Char) : Option Decimal :=
  let whole := cs.takeWhile isDigit
  let (fraction, rest) := match cs.dropWhile isDigit with
    | '.' :: rest => (rest.takeWhile isDigit, rest.dropWhile isDigit)
    | rest => ([], rest)
  if whole = [] ∧ fraction = [] then none
  else (readExponent? rest).map fun x =>
    ⟨ofDigits (whole ++ fraction), x - fraction.length⟩

/-- The names of the values that have no digits. -/
def readName? (cs : List Char) : Option Float :=
  let name := String.ofList (cs.map Char.toLower)
  if name = "inf" ∨ name = "infinity" then some Decimal.infinity
  else if name = "nan" then some (0.0 / 0.0)
  else none

/-- The number that a text without sign denotes. -/
def readMagnitude? (cs : List Char) : Option Float :=
  match Decimal.read? cs with
  | some d => some d.toFloat
  | none => readName? cs

/-- The number that a whole text denotes, with an optional sign in front. -/
def readNumber? : List Char → Option Float
  | '-' :: cs => (readMagnitude? cs).map (- ·)
  | '+' :: cs => readMagnitude? cs
  | cs => readMagnitude? cs

end StackCalc
