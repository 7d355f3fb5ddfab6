import StackCalc.Machine.Arithmetic
import StackCalc.Machine.Basic

/-!
# Instructions

What each instruction does to the machine. The order of the single actions is
part of the meaning: an instruction that fails keeps what it did before.
-/

namespace StackCalc

namespace Exec

/-! ### Values -/

/-- Checks that a symbol is a variable that has been assigned to. -/
def verify (id : Nat) : Exec Unit := do
  match (← symbol id).kind with
  | .var => return
  | .undefined => failAbout .undefinedVariable id
  | _ => failAbout .notAVariable id

/-- Replaces a reference by the value of its symbol. -/
def eval (job : Job) : Exec Unit := do
  match (← onStack Stack.pop).symbol with
  | some id =>
    verify id
    push job (← symbol id).value
  | none => internal "eval without symbol"

/-- Replaces two operands by the value of an operation on them. -/
def binary (job : Job) (op : BinaryOp) : Exec Unit := do
  let (a, b) ← onStack Stack.popTwo
  push job (← ofExcept (op.apply a.value b.value))

/-! ### Assignments -/

/-- Checks that a symbol may be assigned to. -/
def verifyAssignable (id : Nat) : Exec Unit := do
  if (← symbol id).isAssignable then return else failAbout .assignmentToNonVariable id

/-- Assigns the value below a reference to its symbol. -/
def assignTop (job : Job) (op : AssignOp) : Exec Unit := do
  let target ← onStack Stack.pop
  let x ← pop
  match target.symbol with
  | some id =>
    verifyAssignable id
    let y ← ofExcept (op.apply (← symbol id).value x)
    assign id y
    push job y
  | none => internal "assignment without symbol"

/-- Steps a variable by one. -/
def step (job : Job) (how : Step) : Exec Unit := do
  let id ← symbolOperand job
  verify id
  let old := (← symbol id).value
  let new := old + how.change
  assign id new
  push job (if how.isBefore then new else old)

/-- Reads a number into a variable. At the end of the input the variable becomes
zero, and the value pushed is zero instead of one. -/
def read (job : Job) : Exec Unit := do
  let id ← symbolOperand job
  verifyAssignable id
  match ← readLine with
  | none =>
    assign id 0.0
    push job 0.0
  | some l =>
    match readTyped? l with
    | some x =>
      assign id x
      push job 1.0
    | none => failAbout .nonNumberRead id

/-! ### Built-in functions and printing -/

/-- Applies a built-in function. -/
def builtin (job : Job) : Exec Unit := do
  let id ← symbolOperand job
  match (← symbol id).native with
  | some f =>
    let x ← pop
    push job (← ofExcept (f.apply x))
  | none => internal "not a builtin"

/-- Prints a text literal. -/
def printLiteral (job : Job) : Exec Unit := do
  match ← operand job with
  | .text s => print (.text s)
  | _ => internal "expected text"

/-- Prints a value on a line of its own and keeps it under the name `_`. -/
def printTop : Exec Unit := do
  let x ← pop
  print (.echo x)
  modify fun m =>
    let (id, t) := m.symbols.resolve "_"
    { m with symbols := t.modify id (Symbol.assigned x) }

/-! ### Calls -/

/-- Leaves the call at hand: its arguments are dropped, and everything up to the
call is skipped. -/
def leave : Exec Unit := do
  let f ← onFrames Stack.pop
  if (← get).stack.size ≠ f.height then internal "unbalanced return"
  else
    onStack (Stack.truncate (f.height - f.count))
    modify fun m => { m with pc := f.resume, returning := true }

/-- Returns a value from a function. -/
def returnValue (job : Job) : Exec Unit := do
  let f ← frame
  if (← symbol f.symbol).kind = .procedure then failAbout .procedureReturnsValue f.symbol
  else
    let x ← pop
    leave
    push job x

/-- Returns from a procedure. -/
def returnNothing : Exec Unit := do
  let f ← frame
  if (← symbol f.symbol).kind = .function then failAbout .functionReturnsNoValue f.symbol
  else leave

/-- The place on the operand stack of the argument whose index follows. -/
def argPlace (job : Job) : Exec Nat := do
  let n ← countOperand job
  let f ← frame
  if n = 0 then internal "$0"
  else if f.count < n then failAbout .notEnoughArguments f.symbol
  else return f.height - f.count + n - 1

/-- Pushes an argument. -/
def arg (job : Job) : Exec Unit := do
  let i ← argPlace job
  match (← get).stack.get? i with
  | some d => push job d.value
  | none => internal "argument slot"

/-- Assigns to an argument. -/
def argAssign (job : Job) : Exec Unit := do
  let i ← argPlace job
  let x ← pop
  let s := (← get).stack
  match s.get? i with
  | some d =>
    match s.set? i { d with value := x } with
    | some s =>
      modify fun m => { m with stack := s }
      push job x
    | none => internal "argument slot"
  | none => internal "argument slot"

end Exec

/-- What an instruction does. -/
def Instruction.run (job : Job) : Instruction → Exec Unit
  | constPush => do
    match ← Exec.operand job with
    | .number x => Exec.push job x
    | _ => Exec.internal "expected number"
  | varPush => do
    let id ← Exec.symbolOperand job
    Exec.pushDatum job { value := 0.0, symbol := some id }
  | eval => Exec.eval job
  | pop => do
    let _ ← Exec.pop
  | binary op => Exec.binary job op
  | negate => do
    let x ← Exec.pop
    Exec.push job (-x)
  | not => do
    let x ← Exec.pop
    Exec.push job (truth (!isTrue x))
  | assign op => Exec.assignTop job op
  | step how => Exec.step job how
  | builtin => Exec.builtin job
  | printValue => do
    let x ← Exec.pop
    Exec.print (.value x)
  | printText => Exec.printLiteral job
  | printTop => Exec.printTop
  | read => Exec.read job
  | returnValue => Exec.returnValue job
  | returnNothing => Exec.returnNothing
  | arg => Exec.arg job
  | argAssign => Exec.argAssign job

end StackCalc
