import StackCalc.Code.Cell
import StackCalc.Fault

/-!
# Arithmetic of operations

The values of the operations on two operands and of the assigning operations.
Dividing by zero is a fault, and so is a power that is no number or too large
although both operands are numbers of size. A comparison is one if it holds and
zero if not; every number but zero counts as true.
-/

namespace StackCalc

/-- The number for a truth value. -/
def truth (b : Bool) : Float :=
  if b then 1.0 else 0.0

/-- Whether a number counts as true. -/
def isTrue (x : Float) : Bool :=
  x != 0.0

/-- The quotient of two numbers. -/
def quotient (x y : Float) : Except Fault Float :=
  if y == 0.0 then .error { kind := .divisionByZero } else .ok (x / y)

/-- The remainder of two numbers. -/
def modulus (x y : Float) : Except Fault Float :=
  if y == 0.0 then .error { kind := .divisionByZero } else .ok (remainder x y)

/-- The power of two numbers. -/
def power (x y : Float) : Except Fault Float :=
  let r := x.pow y
  if r.isNaN && !x.isNaN && !y.isNaN then .error { kind := .outOfDomain, note := "^" }
  else if r.isInf && x.isFinite && y.isFinite then
      .error { kind := .outOfRange, note := "^" }
  else .ok r

/-- The value of an operation on two operands. -/
def BinaryOp.apply (op : BinaryOp) (x y : Float) : Except Fault Float :=
  match op with
  | add => .ok (x + y)
  | sub => .ok (x - y)
  | mul => .ok (x * y)
  | div => quotient x y
  | mod => modulus x y
  | pow => power x y
  | lt => .ok (truth (x < y))
  | le => .ok (truth (x ≤ y))
  | gt => .ok (truth (y < x))
  | ge => .ok (truth (y ≤ x))
  | eq => .ok (truth (x == y))
  | ne => .ok (truth (x != y))
  | and => .ok (truth (isTrue x && isTrue y))
  | or => .ok (truth (isTrue x || isTrue y))

/-- The value that an assigning operation gives to a variable of value `x`. -/
def AssignOp.apply (op : AssignOp) (x y : Float) : Except Fault Float :=
  match op with
  | set => .ok y
  | add => .ok (x + y)
  | sub => .ok (x - y)
  | mul => .ok (x * y)
  | div => quotient x y
  | mod => modulus x y

/-- By how much a step changes its variable. -/
def Step.change : Step → Float
  | preInc | postInc => 1.0
  | preDec | postDec => -1.0

/-- Whether a step has the new value of its variable rather than the old one. -/
def Step.isBefore : Step → Bool
  | preInc | preDec => true
  | postInc | postDec => false

end StackCalc
