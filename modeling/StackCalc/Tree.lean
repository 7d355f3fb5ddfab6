import StackCalc.Symbol.Table

/-!
# Program trees

Expressions and statements over the places of a symbol table. A tree may hold
combinations that no source text yields, such as an assigning operator between
two operands; generating code refuses them.
-/

namespace StackCalc

/-- The four ways to step a variable by one. -/
inductive Step where
  | preInc
  | preDec
  | postInc
  | postDec
deriving DecidableEq, Repr

/-- An expression. -/
inductive Expr where
  /-- A number literal. -/
  | literal (id : Nat)
  /-- The value of a variable. -/
  | variable (id : Nat)
  /-- A text literal, an item of a print statement. -/
  | text (id : Nat)
  | binary (op : Operator) (lhs rhs : Expr)
  | unary (op : Operator) (operand : Expr)
  /-- A built-in function of one argument. -/
  | builtin (id : Nat) (argument : Expr)
  | step (how : Step) (id : Nat)
  | call (id : Nat) (arguments : List Expr)
  /-- The argument `$n` of the running call. -/
  | arg (n : Nat)
  /-- Reads a number into a variable; the value says whether there was one. -/
  | read (id : Nat)
deriving Repr

/-- The two kinds of definition. -/
inductive DefinitionKind where
  | function
  | procedure
deriving DecidableEq, Repr

/-- The kind of symbol that a definition makes of its name. -/
def DefinitionKind.symbolKind : DefinitionKind → SymbolKind
  | function => .function
  | procedure => .procedure

/-- A statement. -/
inductive Stmt where
  | assign (op : Operator) (target : Nat) (value : Expr)
  | argAssign (n : Nat) (value : Expr)
  | print (items : List Expr)
  | whileLoop (condition : Expr) (body : List Stmt)
  /-- The first and the third clause are assignments or expressions. -/
  | forLoop (init : Stmt) (condition : Expr) (post : Stmt) (body : List Stmt)
  | ifThen (condition : Expr) (body : List Stmt)
  | ifElse (condition : Expr) (body other : List Stmt)
  | expr (value : Expr)
  | call (id : Nat) (arguments : List Expr)
  | returnValue (value : Expr)
  | returnNothing
  | define (kind : DefinitionKind) (id : Nat) (body : List Stmt)
deriving Repr

/-- Whether a statement defines a function or a procedure. -/
def Stmt.isDefinition : Stmt → Bool
  | define .. => true
  | _ => false

/-- The definitions of a program. -/
def definitions (program : List Stmt) : List Stmt :=
  program.filter Stmt.isDefinition

/-- The statements of a program that are no definitions. -/
def topLevel (program : List Stmt) : List Stmt :=
  program.filter fun s => !s.isDefinition

end StackCalc
