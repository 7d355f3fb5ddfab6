import StackCalc.Code.Store
import StackCalc.Machine.Console
import StackCalc.Machine.Stack

/-!
# The machine

The state of a stack machine and the actions its operations are made of. The
code and the limits do not change while a program runs, so they are a `Job`
beside the state and not part of it.

A run ends in one of three ways: it is done, it fails with a fault, or it has
used up the rounds its loops were given. `Halt` tells the last two apart, and
either keeps the state that was reached.
-/

namespace StackCalc

/-- How much a session may use. -/
structure Limits where
  /-- Items on the operand stack. -/
  stack : Nat := 256
  /-- Calls that have not returned. -/
  frames : Nat := 100
  /-- Cells of code. -/
  program : Nat := 2000
  /-- Levels of nesting, of a text and of a run. -/
  depth : Nat := 200
deriving DecidableEq, Repr

/-- An item of the operand stack: a value, or a reference to a symbol. -/
structure Datum where
  value : Float
  symbol : Option Nat := none
deriving DecidableEq, Repr

/-- A call that has not returned. Its arguments are the `count` items below
`height`. -/
structure Frame where
  symbol : Nat
  /-- How many arguments there are. -/
  count : Nat
  /-- Where to go on after the call. -/
  resume : Nat
  /-- The size of the operand stack when the call was made. -/
  height : Nat
deriving DecidableEq, Repr

/-- The state of a machine. -/
structure Machine where
  symbols : SymbolTable
  stack : Stack Datum := {}
  frames : Stack Frame := {}
  /-- The address of the next cell. -/
  pc : Nat := 0
  /-- Whether a return is under way to the call it belongs to. -/
  returning : Bool := false
  console : Console := {}
  /-- Whether the run is to be broken off. -/
  interrupted : Bool := false
  /-- After how many more writes an interrupt arrives, if one is due. -/
  alarm : Option Nat := none
deriving DecidableEq, Repr

/-- The code of a run and the limits it runs under. -/
structure Job where
  cells : Array Cell
  limits : Limits

/-- Why a run stopped before it was done. -/
inductive Halt where
  | fault (f : Fault)
  | outOfFuel
deriving DecidableEq, Repr

/-- An action of the machine. -/
abbrev Exec (α : Type) := EStateM Halt Machine α

namespace Machine

/-- The state in which a run starts. -/
def start (m : Machine) (a : Nat) : Machine :=
  { m with stack := {}, frames := {}, pc := a, returning := false, interrupted := false }

/-- Writes to the console. The write that an interrupt is due after raises it. -/
def write (m : Machine) (w : Write) : Machine :=
  let m := { m with console := m.console.write w }
  match m.alarm with
  | some 1 => { m with alarm := none, interrupted := true }
  | some (n + 2) => { m with alarm := some (n + 1) }
  | _ => m

end Machine

namespace Exec

/-! ### Failing -/

/-- Fails with a fault. -/
def fail {α : Type} (kind : FaultKind) (note : String := "") : Exec α :=
  throw (.fault { kind, note })

/-- Fails on code that no program yields. -/
def internal {α : Type} (note : String) : Exec α :=
  fail .internal note

/-- The value of a computation that may fail. -/
def ofExcept {α : Type} : Except Fault α → Exec α
  | .ok a => return a
  | .error f => throw (.fault f)

/-! ### The stacks -/

/-- Runs an action on the operand stack. -/
def onStack {α : Type} (act : EStateM Fault (Stack Datum) α) : Exec α :=
  fun m =>
    match act m.stack with
    | .ok a stack => .ok a { m with stack }
    | .error f stack => .error (.fault f) { m with stack }

/-- Runs an action on the stack of calls. -/
def onFrames {α : Type} (act : EStateM Fault (Stack Frame) α) : Exec α :=
  fun m =>
    match act m.frames with
    | .ok a frames => .ok a { m with frames }
    | .error f frames => .error (.fault f) { m with frames }

/-- Pushes an item. -/
def pushDatum (job : Job) (d : Datum) : Exec Unit :=
  onStack (Stack.push job.limits.stack .stackOverflow d)

/-- Pushes a value. -/
def push (job : Job) (x : Float) : Exec Unit :=
  pushDatum job { value := x }

/-- Pops an item and returns its value. -/
def pop : Exec Float :=
  return (← onStack Stack.pop).value

/-! ### Code -/

/-- Goes on at an address. -/
def jump (a : Nat) : Exec Unit :=
  modify fun m => { m with pc := a }

/-- Takes the cell that follows. -/
def operand (job : Job) : Exec Cell := do
  let a := (← get).pc
  match job.cells[a]? with
  | some c =>
    jump (a + 1)
    return c
  | none => internal "missing operand"

/-- Takes the symbol that follows. -/
def symbolOperand (job : Job) : Exec Nat := do
  match ← operand job with
  | .symbol id => return id
  | _ => internal "expected symbol"

/-- Takes the count that follows. -/
def countOperand (job : Job) : Exec Nat := do
  match ← operand job with
  | .count n => return n
  | _ => internal "expected count"

/-! ### Symbols and console -/

/-- The symbol at a place. -/
def symbol (id : Nat) : Exec Symbol :=
  return (← get).symbols.get id

/-- Makes a symbol a variable of value `x`. -/
def assign (id : Nat) (x : Float) : Exec Unit :=
  modify fun m => { m with symbols := m.symbols.modify id (Symbol.assigned x) }

/-- Fails with a fault about a symbol. -/
def failAbout {α : Type} (kind : FaultKind) (id : Nat) : Exec α := do
  fail kind (← symbol id).label

/-- Prints something. -/
def print (w : Write) : Exec Unit :=
  modify fun m => m.write w

/-- Reads a line. -/
def readLine : Exec (Option String) :=
  modifyGet fun m =>
    let (l, console) := m.console.readLine
    (l, { m with console })

/-- The call at hand. -/
def frame : Exec Frame := do
  match (← get).frames.top? with
  | some f => return f
  | none => internal "return outside call"

end Exec

end StackCalc
