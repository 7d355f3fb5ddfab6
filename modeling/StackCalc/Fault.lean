/-!
# Faults

Everything that can go wrong with a program, from reading it to running it. A
`Fault` has a kind, the line it was found in where one is known, and a note that
names the culprit. `Fault.message` holds the only wording; `FaultKind.number` is
a stable number, and numbers below twenty are faults of the text rather than of
the run.
-/

namespace StackCalc

/-- What went wrong. -/
inductive FaultKind where
  | malformed
  | illegalCharacter
  | definitionOnly
  | stackOverflow
  | stackUnderflow
  | callNestedTooDeeply
  | programTooBig
  | divisionByZero
  | undefinedVariable
  | notAVariable
  | assignmentToNonVariable
  | notEnoughArguments
  | procedureReturnsValue
  | functionReturnsNoValue
  | undefinedFunction
  | outOfDomain
  | outOfRange
  | nestedTooDeeply
  | nonNumberRead
  | interrupted
  | internal
deriving DecidableEq, Repr

namespace FaultKind

/-- The number of a kind of fault. -/
def number : FaultKind → Nat
  | malformed => 2
  | illegalCharacter => 3
  | definitionOnly => 4
  | stackOverflow => 20
  | stackUnderflow => 21
  | callNestedTooDeeply => 22
  | programTooBig => 23
  | divisionByZero => 24
  | undefinedVariable => 25
  | notAVariable => 26
  | assignmentToNonVariable => 27
  | notEnoughArguments => 28
  | procedureReturnsValue => 29
  | functionReturnsNoValue => 30
  | undefinedFunction => 31
  | outOfDomain => 32
  | outOfRange => 33
  | nestedTooDeeply => 34
  | nonNumberRead => 35
  | interrupted => 36
  | internal => 51

/-- Whether a kind is a fault of the program text. -/
def isCompile (k : FaultKind) : Bool :=
  k.number < 20

/-- The wording of a kind of fault. -/
def text : FaultKind → String
  | malformed => "syntax error"
  | illegalCharacter => "illegal character"
  | definitionOnly => "used outside definition"
  | stackOverflow => "stack overflow"
  | stackUnderflow => "stack underflow"
  | callNestedTooDeeply => "call nested too deeply"
  | programTooBig => "program too big"
  | divisionByZero => "division by zero"
  | undefinedVariable => "undefined variable"
  | notAVariable => "attempt to evaluate non-variable"
  | assignmentToNonVariable => "assignment to non-variable"
  | notEnoughArguments => "not enough arguments"
  | procedureReturnsValue => "procedure returns value"
  | functionReturnsNoValue => "function returns no value"
  | undefinedFunction => "undefined function"
  | outOfDomain => "argument out of domain"
  | outOfRange => "result out of range"
  | nestedTooDeeply => "nested too deeply"
  | nonNumberRead => "non-number read into"
  | interrupted => "break"
  | internal => "internal error"

end FaultKind

/-- A fault: its kind, the line where it was found, and what it is about. -/
structure Fault where
  kind : FaultKind
  line : Option Nat := none
  note : String := ""
deriving DecidableEq, Repr

namespace Fault

/-- The text shown to a user: the kind, the line if there is one, the note if it
is not empty. -/
def message (f : Fault) : String :=
  let place := match f.line with
    | some n => " in line " ++ toString n
    | none => ""
  let about := if f.note = "" then "" else "; " ++ f.note
  f.kind.text ++ place ++ about

/-- The text shown where a fault is listed among other values. -/
def listed (f : Fault) : String :=
  "Error \x7b " ++ f.message ++ " \x7d"

end Fault

end StackCalc
