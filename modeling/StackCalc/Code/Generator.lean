import StackCalc.Code.Store

/-!
# Generating code

Code is appended to the store in one pass. A slot for an address that is not yet
known is left as a stop and patched when the place it points to is reached.
Definitions come first, each sealed at once; then the code of the other
statements, ended by a stop.

A tree that no source text yields may be refused. Code appended before that is
discarded by the caller; definitions sealed before that remain.
-/

namespace StackCalc

/-- An action that appends code to the store. -/
abbrev Gen (α : Type) := EStateM Fault Store α

/-- What generating code depends on: the capacity of the store, whether
expression statements show their value, and the symbols. -/
structure GenContext where
  capacity : Nat
  echo : Bool
  symbols : SymbolTable

/-! ### Operations of operators -/

namespace Operator

/-- The operation of a binary operator. -/
def binaryOp? : Operator → Option BinaryOp
  | plus => some .add
  | minus => some .sub
  | times => some .mul
  | divide => some .div
  | modulo => some .mod
  | caret => some .pow
  | less => some .lt
  | lessEqual => some .le
  | greater => some .gt
  | greaterEqual => some .ge
  | equal => some .eq
  | notEqual => some .ne
  | and => some .and
  | or => some .or
  | _ => none

/-- The operation of a unary operator. -/
def unaryOp? : Operator → Option Instruction
  | minus => some .negate
  | not => some .not
  | _ => none

/-- The operation of an assigning operator. -/
def assignOp? : Operator → Option AssignOp
  | assign => some .set
  | addAssign => some .add
  | subtractAssign => some .sub
  | multiplyAssign => some .mul
  | divideAssign => some .div
  | moduloAssign => some .mod
  | _ => none

end Operator

namespace Gen

/-- Fails on a tree that no source text yields. -/
def refuse {α : Type} (note : String) : Gen α :=
  throw { kind := .internal, note }

/-- What is there, or a failure. -/
def orRefuse {α : Type} (note : String) : Option α → Gen α
  | some a => return a
  | none => refuse note

/-- The operation of a binary operator. -/
def binaryOp (op : Operator) : Gen BinaryOp :=
  orRefuse "not a binary operator" op.binaryOp?

/-- The operation of a unary operator. -/
def unaryOp (op : Operator) : Gen Instruction :=
  orRefuse "not a unary operator" op.unaryOp?

/-- The operation of an assigning operator. -/
def assignOp (op : Operator) : Gen AssignOp :=
  orRefuse "not an assignment operator" op.assignOp?

variable (cx : GenContext)

/-! ### Cells and slots -/

/-- Appends a cell. -/
def emit (c : Cell) : Gen Unit := do
  let _ ← Store.push cx.capacity c

/-- Appends an instruction. -/
def plain (i : Instruction) : Gen Unit :=
  emit cx (.op (.plain i))

/-- Appends an instruction and the symbol it works on. -/
def withSymbol (i : Instruction) (id : Nat) : Gen Unit := do
  plain cx i
  emit cx (.symbol id)

/-- Appends a slot for an address and returns its own. -/
def slot : Gen Nat :=
  Store.push cx.capacity .stop

/-- Makes a slot point to the next cell to be appended. -/
def land (a : Nat) : Gen Unit := do
  Store.patch a (.address (← get).size)

/-! ### Expressions -/

/-- The cells of a call behind the code of its arguments. -/
def callCells (id : Nat) (count : Nat) : Gen Unit := do
  emit cx (.op (.control .call))
  emit cx (.symbol id)
  emit cx (.count count)

mutual

/-- The code of an expression; it leaves one value. -/
def expr : Expr → Gen Unit
  | .literal id => do
    plain cx .constPush
    emit cx (.number (cx.symbols.get id).value)
  | .variable id => do
    withSymbol cx .varPush id
    plain cx .eval
  | .text _ => refuse "string in expression"
  | .binary op lhs rhs => do
    expr lhs
    expr rhs
    plain cx (.binary (← binaryOp op))
  | .unary op e => do
    expr e
    plain cx (← unaryOp op)
  | .builtin id e => do
    expr e
    withSymbol cx .builtin id
  | .step how id => withSymbol cx (.step how) id
  | .call id es => do
    exprs es
    callCells cx id es.length
  | .arg n => do
    plain cx .arg
    emit cx (.count n)
  | .read id => withSymbol cx .read id

/-- The code of several expressions, from first to last. -/
def exprs : List Expr → Gen Unit
  | [] => return
  | e :: es => do
    expr e
    exprs es

end

/-! ### Statements -/

/-- The code of an assignment or an expression; it leaves one value. -/
def clause : Stmt → Gen Unit
  | .assign op id e => do
    expr cx e
    withSymbol cx .varPush id
    plain cx (.assign (← assignOp op))
  | .argAssign n e => do
    expr cx e
    plain cx .argAssign
    emit cx (.count n)
  | .expr e => expr cx e
  | _ => refuse "not a clause"

/-- The code of one item of a print statement. -/
def printItem : Expr → Gen Unit
  | .text id => do
    match (cx.symbols.get id).text with
    | some s =>
      plain cx .printText
      emit cx (.text s)
    | none => refuse "string without text"
  | e => do
    expr cx e
    plain cx .printValue

/-- The code of the items of a print statement, from first to last. -/
def printItems : List Expr → Gen Unit
  | [] => return
  | e :: es => do
    printItem cx e
    printItems es

mutual

/-- The code of a statement; it leaves nothing. -/
def stmt : Stmt → Gen Unit
  | .assign op id e => do
    clause cx (.assign op id e)
    plain cx .pop
  | .argAssign n e => do
    clause cx (.argAssign n e)
    plain cx .pop
  | .print items => printItems cx items
  | .whileLoop cond body => do
    emit cx (.op (.control .whileLoop))
    let bodySlot ← slot cx
    let endSlot ← slot cx
    expr cx cond
    emit cx .stop
    land bodySlot
    stmts body
    emit cx .stop
    land endSlot
  | .forLoop init cond post body => do
    emit cx (.op (.control .forLoop))
    let condSlot ← slot cx
    let postSlot ← slot cx
    let bodySlot ← slot cx
    let endSlot ← slot cx
    clause cx init
    emit cx .stop
    land condSlot
    expr cx cond
    emit cx .stop
    land postSlot
    clause cx post
    emit cx .stop
    land bodySlot
    stmts body
    emit cx .stop
    land endSlot
  | .ifThen cond body => do
    emit cx (.op (.control .branch))
    let thenSlot ← slot cx
    let _ ← slot cx
    let endSlot ← slot cx
    expr cx cond
    emit cx .stop
    land thenSlot
    stmts body
    emit cx .stop
    land endSlot
  | .ifElse cond body other => do
    emit cx (.op (.control .branch))
    let thenSlot ← slot cx
    let elseSlot ← slot cx
    let endSlot ← slot cx
    expr cx cond
    emit cx .stop
    land thenSlot
    stmts body
    emit cx .stop
    land elseSlot
    stmts other
    emit cx .stop
    land endSlot
  | .expr e => do
    expr cx e
    plain cx (if cx.echo then .printTop else .pop)
  | .call id es => do
    exprs cx es
    callCells cx id es.length
  | .returnValue e => do
    expr cx e
    plain cx .returnValue
  | .returnNothing => plain cx .returnNothing
  | .define .. => refuse "nested definition"

/-- The code of several statements, from first to last. -/
def stmts : List Stmt → Gen Unit
  | [] => return
  | s :: ss => do
    stmt s
    stmts ss

end

/-- The code of the body of a definition, sealed; returns its address. -/
def body (ss : List Stmt) : Gen Nat := do
  stmts cx ss
  plain cx .returnNothing
  emit cx .stop
  modifyGet Store.define

end Gen

/-! ### Programs -/

/-- The code of a session and the symbols that name its parts. -/
structure Image where
  store : Store
  symbols : SymbolTable

namespace Image

/-- Runs a generator on the store, with the symbols as they are. -/
def generating {α : Type} (capacity : Nat) (echo : Bool) (g : GenContext → Gen α) :
    EStateM Fault Image α :=
  fun im =>
    match g ⟨capacity, echo, im.symbols⟩ im.store with
    | .ok a store => .ok a { im with store }
    | .error f store => .error f { im with store }

/-- Generates the body of a definition and makes its symbol point to it. -/
def define (capacity : Nat) (echo : Bool) : Stmt → EStateM Fault Image Unit
  | .define _ id ss => do
    let start ← generating capacity echo fun cx => Gen.body cx ss
    modify fun im =>
      { im with symbols := im.symbols.modify id fun s => { s with code := some start } }
  | _ => throw { kind := .internal, note := "not a definition" }

/-- Generates definitions, from first to last. -/
def defineAll (capacity : Nat) (echo : Bool) : List Stmt → EStateM Fault Image Unit
  | [] => return
  | s :: ss => do
    define capacity echo s
    defineAll capacity echo ss

/-- Generates the code of the statements that are no definitions, and returns
its address. -/
def main (capacity : Nat) (echo : Bool) (ss : List Stmt) : EStateM Fault Image Nat := do
  let entry := (← get).store.base
  generating capacity echo fun cx => do
    Gen.stmts cx (topLevel ss)
    Gen.emit cx .stop
  return entry

/-- The image without the cells that are not sealed. -/
def rewound (im : Image) : Image :=
  { im with store := im.store.rewind }

/-- Generates the code of a program above the sealed cells: its definitions,
then its other statements, whose address is returned. -/
def program (capacity : Nat) (echo : Bool) (ss : List Stmt) :
    EStateM Fault Image Nat := do
  modify rewound
  defineAll capacity echo (definitions ss)
  main capacity echo ss

/-- Generates the code of a program. On failure the cells that are not sealed
are discarded. -/
def generate (capacity : Nat) (echo : Bool) (ss : List Stmt) : EStateM Fault Image Nat :=
  fun im =>
    match program capacity echo ss im with
    | .ok entry im => .ok entry im
    | .error f im => .error f im.rewound

end Image

end StackCalc
