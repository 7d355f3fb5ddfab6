import StackCalc.Fault
import StackCalc.Number.Binary

/-!
# Built-in functions and constants

The functions of one number that every program may call, and the constants every
program may read. A function refuses an argument it has no number for
(`outOfDomain`) and a finite argument whose value is too large (`outOfRange`);
`checked` is that test.
-/

namespace StackCalc

/-- The built-in functions. -/
inductive Builtin where
  | sin
  | cos
  | atan
  | asin
  | acos
  | sinh
  | cosh
  | tanh
  | log
  | log10
  | exp
  | sqrt
  | int
  | abs
deriving DecidableEq, Repr

namespace Builtin

/-- Every built-in function, in the order of the initial symbol table. -/
def all : List Builtin :=
  [sin, cos, atan, asin, acos, sinh, cosh, tanh, log, log10, exp, sqrt, int, abs]

/-- The name of a built-in function. -/
def name : Builtin → String
  | sin => "sin"
  | cos => "cos"
  | atan => "atan"
  | asin => "asin"
  | acos => "acos"
  | sinh => "sinh"
  | cosh => "cosh"
  | tanh => "tanh"
  | log => "log"
  | log10 => "log10"
  | exp => "exp"
  | sqrt => "sqrt"
  | int => "int"
  | abs => "abs"

/-- The built-in function called `s`. -/
def ofName? (s : String) : Option Builtin :=
  all.find? fun f => f.name == s

/-- Refuses a result that is no number although `x` is one, and an infinite
result of a finite `x`; the fault names the function. -/
def checked (name : String) (x result : Float) : Except Fault Float :=
  if result.isNaN && !x.isNaN then .error ⟨.outOfDomain, none, name⟩
  else if result.isInf && x.isFinite then .error ⟨.outOfRange, none, name⟩
  else .ok result

/-- The value of a logarithm, which only positive numbers have. -/
def logarithm (name : String) (f : Float → Float) (x : Float) : Except Fault Float :=
  if x ≤ 0.0 then .error ⟨.outOfDomain, none, name⟩ else checked name x (f x)

/-- The whole part of a number, which only finite numbers have. -/
def wholePart (name : String) (x : Float) : Except Fault Float :=
  if x.isNaN then .error ⟨.outOfDomain, none, name⟩
  else if x.isInf then .error ⟨.outOfRange, none, name⟩
  else .ok (truncate x)

/-- The value of a built-in function. -/
def apply (f : Builtin) (x : Float) : Except Fault Float :=
  match f with
  | sin => checked f.name x x.sin
  | cos => checked f.name x x.cos
  | atan => checked f.name x x.atan
  | asin => checked f.name x x.asin
  | acos => checked f.name x x.acos
  | sinh => checked f.name x x.sinh
  | cosh => checked f.name x x.cosh
  | tanh => checked f.name x x.tanh
  | log => logarithm f.name Float.log x
  | log10 => logarithm f.name Float.log10 x
  | exp => checked f.name x x.exp
  | sqrt => checked f.name x x.sqrt
  | int => wholePart f.name x
  | abs => .ok x.abs

end Builtin

/-- The constants and their values, in the order of the initial symbol table. -/
def constants : List (String × Float) :=
  [("PI", 3.14159265358979323846264338327950288),
    ("E", 2.71828182845904523536028747135266250),
    ("GAMMA", 0.5772156649015328606),
    ("DEG", 57.2957795130823208768),
    ("PHI", 1.6180339887498948482)]

end StackCalc
