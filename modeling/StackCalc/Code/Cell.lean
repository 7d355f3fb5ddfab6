import StackCalc.Tree

/-!
# Code cells

Code is a row of cells: operations, the operands that follow them, and stops.
Operations come in two sorts. An `Instruction` works on the stacks, the symbols
and the console and is done; a `Control` operation runs other stretches of code
before it is done.

Control operations are laid out as follows, where a slot holds an address:

- `WHILE body end`, then condition, stop, body, stop;
- `FOR condition post body end`, then first clause, stop, condition, stop, last
  clause, stop, body, stop;
- `IF then else end`, then condition, stop, first branch, stop, and the second
  branch and its stop if there is one; otherwise its slot holds a stop;
- `CALL symbol count`.
-/

namespace StackCalc

/-- The operations on two operands. -/
inductive BinaryOp where
  | add
  | sub
  | mul
  | div
  | mod
  | pow
  | lt
  | le
  | gt
  | ge
  | eq
  | ne
  | and
  | or
deriving DecidableEq, Repr

/-- The operations that assign: plainly, or after an operation on the old value. -/
inductive AssignOp where
  | set
  | add
  | sub
  | mul
  | div
  | mod
deriving DecidableEq, Repr

/-- An operation that runs no other code. -/
inductive Instruction where
  /-- Pushes the number that follows. -/
  | constPush
  /-- Pushes a reference to the symbol that follows. -/
  | varPush
  /-- Replaces a reference by the value of its symbol. -/
  | eval
  | pop
  | binary (op : BinaryOp)
  | negate
  | not
  /-- Assigns to the symbol referred to on top the value below it, and leaves
  that value. -/
  | assign (op : AssignOp)
  /-- Steps the variable that follows by one. -/
  | step (how : Step)
  /-- Applies the built-in function that follows. -/
  | builtin
  | printValue
  /-- Prints the text that follows. -/
  | printText
  /-- Prints a value on a line of its own and keeps it under the name `_`. -/
  | printTop
  /-- Reads a number into the variable that follows. -/
  | read
  | returnValue
  | returnNothing
  /-- Pushes the argument whose index follows. -/
  | arg
  /-- Assigns to the argument whose index follows. -/
  | argAssign
deriving DecidableEq, Repr

/-- An operation that runs other code. -/
inductive Control where
  | whileLoop
  | forLoop
  | branch
  | call
deriving DecidableEq, Repr

/-- An operation. -/
inductive Opcode where
  | plain (i : Instruction)
  | control (c : Control)
deriving DecidableEq, Repr

/-- A cell of the code store. -/
inductive Cell where
  | op (o : Opcode)
  | number (x : Float)
  | symbol (id : Nat)
  | text (s : String)
  | count (n : Nat)
  | address (a : Nat)
  | stop
deriving DecidableEq, Repr

/-! ### Mnemonics -/

/-- The mnemonic of an operation on two operands. -/
def BinaryOp.mnemonic : BinaryOp → String
  | add => "ADD"
  | sub => "SUB"
  | mul => "MUL"
  | div => "DIV"
  | mod => "MOD"
  | pow => "POW"
  | lt => "LT"
  | le => "LE"
  | gt => "GT"
  | ge => "GE"
  | eq => "EQ"
  | ne => "NE"
  | and => "AND"
  | or => "OR"

/-- The mnemonic of an assigning operation. -/
def AssignOp.mnemonic : AssignOp → String
  | set => "ASSIGN"
  | add => "ADDEQ"
  | sub => "SUBEQ"
  | mul => "MULEQ"
  | div => "DIVEQ"
  | mod => "MODEQ"

/-- The mnemonic of a step. -/
def Step.mnemonic : Step → String
  | preInc => "PREINC"
  | preDec => "PREDEC"
  | postInc => "POSTINC"
  | postDec => "POSTDEC"

/-- The mnemonic of an instruction. -/
def Instruction.mnemonic : Instruction → String
  | constPush => "CONSTPUSH"
  | varPush => "VARPUSH"
  | eval => "EVAL"
  | pop => "POP"
  | binary op => op.mnemonic
  | negate => "NEGATE"
  | not => "NOT"
  | assign op => op.mnemonic
  | step how => how.mnemonic
  | builtin => "BLTIN"
  | printValue => "PREXPR"
  | printText => "PRSTR"
  | printTop => "PRINTTOP"
  | read => "VARREAD"
  | returnValue => "FUNCRET"
  | returnNothing => "PROCRET"
  | arg => "ARG"
  | argAssign => "ARGASSIGN"

/-- The mnemonic of a control operation. -/
def Control.mnemonic : Control → String
  | whileLoop => "WHILE"
  | forLoop => "FOR"
  | branch => "IF"
  | call => "CALL"

/-- The mnemonic of an operation. -/
def Opcode.mnemonic : Opcode → String
  | plain i => i.mnemonic
  | control c => c.mnemonic

/-- Every operation. -/
def Opcode.all : List Opcode :=
  let binary : List BinaryOp :=
    [.add, .sub, .mul, .div, .mod, .pow, .lt, .le, .gt, .ge, .eq, .ne, .and, .or]
  let assign : List AssignOp := [.set, .add, .sub, .mul, .div, .mod]
  let step : List Step := [.preInc, .preDec, .postInc, .postDec]
  let plain : List (List Instruction) :=
    [[.constPush, .varPush, .eval, .pop], binary.map .binary, [.negate, .not],
      assign.map .assign, step.map .step,
    [.builtin, .printValue, .printText, .printTop, .read, .returnValue,
      .returnNothing, .arg, .argAssign]]
  let control : List Control := [.whileLoop, .forLoop, .branch, .call]
  plain.flatten.map .plain ++ control.map .control

/-- The operation with the mnemonic `s`. -/
def Opcode.ofMnemonic? (s : String) : Option Opcode :=
  all.find? fun o => o.mnemonic == s

/-- The text of a cell in a listing. A symbol without a name is shown by its
kind. -/
def Cell.listed (symbols : SymbolTable) : Cell → String
  | op o => o.mnemonic
  | number x => formatNumber x
  | symbol id =>
    let s := symbols.get id
    if s.label = "" then "<" ++ s.kind.word ++ ">" else s.label
  | text s => "\"" ++ s ++ "\""
  | count n => toString n
  | address a => "@" ++ toString a
  | stop => "STOP"

end StackCalc
