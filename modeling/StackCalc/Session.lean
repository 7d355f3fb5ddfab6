import StackCalc.Code.Generator
import StackCalc.Machine.Run
import StackCalc.Parser.Stmt

/-!
# Sessions

A session keeps a machine and its code from one program to the next. `compile`
turns a source text into code, `execute` runs code, and `enter` does both and
discards the code that is not a definition. Each of them keeps what it did when
it fails.
-/

namespace StackCalc

/-- A machine, its code, and how programs are compiled and run. -/
structure Session where
  limits : Limits := {}
  /-- Whether expression statements show their value. -/
  echo : Bool := false
  store : Store := {}
  machine : Machine := { symbols := SymbolTable.initial }

namespace Session

/-- A session in which nothing has been entered. -/
def fresh (limits : Limits) : Session :=
  { limits }

/-- The code and the symbols of a session. -/
def image (s : Session) : Image :=
  ⟨s.store, s.machine.symbols⟩

/-- The session with other code and symbols. -/
def withImage (s : Session) (im : Image) : Session :=
  { s with store := im.store, machine := { s.machine with symbols := im.symbols } }

/-- What a run of the session's code is given. -/
def job (s : Session) : Job :=
  ⟨s.store.cells, s.limits⟩

/-! ### Compiling -/

/-- Generates the code of a program and returns its address. -/
def generate (program : List Stmt) : EStateM Fault Session Nat :=
  fun s =>
    match Image.generate s.limits.program s.echo program s.image with
    | .ok entry im => .ok entry (s.withImage im)
    | .error f im => .error f (s.withImage im)

/-- Reads a source text and installs its symbols. -/
def read (source : String) : EStateM Fault Session (List Stmt) :=
  fun s =>
    let (result, symbols) := parse (lex source) s.machine.symbols s.limits.depth
    let s := { s with machine := { s.machine with symbols } }
    match result with
    | .ok program => .ok program s
    | .error f => .error f s

/-- Compiles a source text and returns the address of its code. -/
def compile (source : String) : EStateM Fault Session Nat := do
  generate (← read source)

/-! ### Running -/

/-- An action that can only fail with a fault, among those that may also run out
of fuel. -/
def lift {α : Type} (act : EStateM Fault Session α) : EStateM Halt Session α :=
  fun s =>
    match act s with
    | .ok a s => .ok a s
    | .error f s => .error (.fault f) s

/-- Runs the code at an address. -/
def execute (fuel : Nat) (a : Nat) : EStateM Halt Session Unit :=
  fun s =>
    match Exec.execute s.job fuel a s.machine with
    | .ok _ machine => .ok () { s with machine }
    | .error h machine => .error h { s with machine }

/-- Discards the code that is not a definition. -/
def rewind (s : Session) : Session :=
  { s with store := s.store.rewind }

/-- Compiles and runs a source text, and discards its code but for the
definitions. -/
def enter (fuel : Nat) (source : String) : EStateM Halt Session Unit := do
  let entry ← lift (compile source)
  fun s =>
    match execute fuel entry s with
    | .ok _ s => .ok () s.rewind
    | .error h s => .error h s.rewind

/-! ### Settings and views -/

/-- Shows the value of expression statements from now on, or not. -/
def setEcho (on : Bool) (s : Session) : Session :=
  { s with echo := on }

/-- Raises the interrupt; the next run clears it before it starts. -/
def interrupt (s : Session) : Session :=
  { s with machine := { s.machine with interrupted := true } }

/-- Lets an interrupt arrive right after the `n`-th write from now; none for
zero. -/
def interruptAfter (n : Nat) (s : Session) : Session :=
  { s with machine := { s.machine with alarm := if n = 0 then none else some n } }

/-- Replaces the lines still to be read and forgets what was written. -/
def supply (lines : List String) (s : Session) : Session :=
  { s with machine := { s.machine with
      console := { s.machine.console with writes := #[], input := lines } } }

/-- What was written since the last time, which is forgotten. -/
def takeOutput (s : Session) : String × Session :=
  (s.machine.console.output,
    { s with machine := { s.machine with
      console := { s.machine.console with writes := #[] } } })

/-- The number of operands that the last run left. -/
def stackDepth (s : Session) : Nat :=
  s.machine.stack.size

/-- The value of a variable that has been assigned to. -/
def valueOf? (s : Session) (name : String) : Option Float :=
  s.machine.symbols.valueOf? name

/-- The listing of the session's code. -/
def listing (s : Session) : String :=
  s.store.listing s.machine.symbols

end Session

end StackCalc
