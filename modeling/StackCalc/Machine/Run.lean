import StackCalc.Machine.Instruction

/-!
# Running code

A stretch of code is run from an address to a stop, cell by cell. Control
operations run further stretches, one level of nesting further in; the limit on
levels is what `exec` goes down on. Loops are given a number of rounds, `fuel`,
that bounds each of them: the row of cells that a stretch passes through, and
the rounds of a `while` or `for` loop.

A return sets a flag that ends every stretch up to the call it belongs to.

- `Exec.cell`: one cell, with what control operations run as an argument.
- `Exec.dispatch`: one stretch, cell after cell.
- `Exec.exec`: a stretch at a given number of levels.
- `Exec.execute`: a run from the start.
-/

namespace StackCalc

namespace Exec

variable (job : Job)

/-! ### Control operations -/

/-- The address in a slot. -/
def slotAddress (a : Nat) : Exec Nat :=
  match job.cells[a]? with
  | some (.address b) => return b
  | _ => internal "expected address"

/-- Whether a slot holds an address. -/
def isLinked (a : Nat) : Bool :=
  match job.cells[a]? with
  | some (.address _) => true
  | _ => false

/-- Runs the code of a condition and takes its value. -/
def condition (enter : Nat → Exec Unit) (a : Nat) : Exec Bool := do
  enter a
  return isTrue (← pop)

/-- Runs a `while` loop whose slots start at `a`. -/
def whileLoop (enter : Nat → Exec Unit) (a : Nat) : (fuel : Nat) → Exec Unit
  | 0 => throw .outOfFuel
  | fuel + 1 => do
    if ← condition enter (a + 2) then
      enter a
      if (← get).returning then return else whileLoop enter a fuel
    else jump (← slotAddress job (a + 1))

/-- Runs a `for` loop whose slots start at `a`, its first clause done. -/
def forLoop (enter : Nat → Exec Unit) (a : Nat) : (fuel : Nat) → Exec Unit
  | 0 => throw .outOfFuel
  | fuel + 1 => do
    if ← condition enter a then
      enter (a + 2)
      if (← get).returning then return
      else
        enter (a + 1)
        let _ ← pop
        forLoop enter a fuel
    else jump (← slotAddress job (a + 3))

/-- Runs the branch that a condition chooses; the slots start at `a`. -/
def branch (enter : Nat → Exec Unit) (a : Nat) : Exec Unit := do
  if ← condition enter (a + 3) then enter a
  else if isLinked job (a + 1) then enter (a + 1)
  if (← get).returning then return else jump (← slotAddress job (a + 2))

/-- Makes the call whose operands follow. -/
def call (enter : Nat → Exec Unit) : Exec Unit := do
  let id ← symbolOperand job
  let n ← countOperand job
  if (← get).frames.isFull job.limits.frames then failAbout .callNestedTooDeeply id
  else
    match (← symbol id).code with
    | none => failAbout .undefinedFunction id
    | some body =>
      let m ← get
      let height := m.stack.size
      if height < n then fail .stackUnderflow
      else
        let f : Frame := ⟨id, n, m.pc, height⟩
        onFrames (Stack.push job.limits.frames .callNestedTooDeeply f)
        enter body
        modify fun m => { m with returning := false }

/-- Runs a control operation whose operands follow. -/
def control (enter : Nat → Exec Unit) (fuel : Nat) : Control → Exec Unit
  | .whileLoop => do
    whileLoop job enter (← get).pc fuel
  | .forLoop => do
    let a := (← get).pc
    enter (a + 4)
    let _ ← pop
    forLoop job enter a fuel
  | .branch => do
    branch job enter (← get).pc
  | .call => call job enter

/-- Runs an operation. -/
def operation (enter : Nat → Exec Unit) (fuel : Nat) : Opcode → Exec Unit
  | .plain i => i.run job
  | .control c => control job enter fuel c

/-! ### Stretches -/

/-- Runs the cell at hand, unless it is a stop or a return is under way, and
tells whether there was something to run. -/
def cell (enter : Nat → Exec Unit) (fuel : Nat) : Exec Bool := do
  let m ← get
  if m.returning then return false
  else if m.interrupted then fail .interrupted
  else
    match job.cells[m.pc]? with
    | some .stop => return false
    | some (.address a) =>
      jump a
      return true
    | some (.op o) =>
      jump (m.pc + 1)
      operation job enter fuel o
      return true
    | some _ => internal "operand executed"
    | none => internal "pc out of range"

/-- Runs cells up to a stop or a return, or an interrupt; at most `rounds` of
them. -/
def dispatch (enter : Nat → Exec Unit) (fuel : Nat) : (rounds : Nat) → Exec Unit
  | 0 => throw .outOfFuel
  | rounds + 1 => do
    if ← cell job enter fuel then dispatch enter fuel rounds

/-- Runs the stretch at an address, with at most `depth` levels of nesting. -/
def exec (fuel : Nat) : (depth a : Nat) → Exec Unit
  | 0, _ => fail .nestedTooDeeply
  | depth + 1, a => do
    jump a
    dispatch job (exec fuel depth) fuel fuel

/-- Runs the code at an address from the start: empty stacks, no return under
way, no interrupt. -/
def execute (fuel : Nat) (a : Nat) : Exec Unit := do
  modify fun m => m.start a
  exec job fuel job.limits.depth a

end Exec

end StackCalc
