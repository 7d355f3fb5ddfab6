import StackCalc.Machine.Run
import StackCalc.Proofs.Symbol.Running
import StackCalc.Proofs.Tree.Parts

/-!
# Evaluating trees

What programs mean, said of their trees alone: an evaluator without code,
addresses or an operand stack. Operands are evaluated from left to right and
both sides of every operator are; an assignment reads its variable after its
operand; a call evaluates its arguments in order and then the body that its
callee was given last; a return leaves the call at hand from inside any nest of
loops and conditions.

The evaluator goes down on the tree. Loops and calls are given a number of
rounds; `Eval.program_mono` says that more of them change no result but that of
having used them up.

- `Eval.expr`, `Eval.stmts`: trees, with what a call does as an argument.
- `Eval.invoke`: calls, which ties the knot.
- `Eval.program`: the statements of a program.

An expression may call something that returns no value, and a statement
something that does, if a name has been defined anew as the other sort since the
text was read. Such a call makes no sense, and the evaluation is broken off as
`unbalanced`.
-/

namespace StackCalc

/-- A generated body, and whether its expression statements show their value. -/
structure Definition where
  echo : Bool
  body : List Stmt

/-- The definitions of a session, the latest first. -/
abbrev Definitions := List (Nat × Definition)

/-- The call at hand. -/
structure Activation where
  callee : Nat
  arguments : List Float
deriving DecidableEq, Repr

/-- What an evaluation reads and changes. -/
structure World where
  symbols : SymbolTable
  console : Console
  call : Option Activation := none
deriving DecidableEq, Repr

/-- Why an evaluation breaks off. -/
inductive Abort where
  | fault (f : Fault)
  | outOfFuel
  /-- A call returned a value where none is expected, or none where one is. -/
  | unbalanced
deriving DecidableEq, Repr

/-- An evaluation. -/
abbrev Eval (α : Type) := EStateM Abort World α

/-- How a statement ends: the next one follows, or the call at hand is left. -/
inductive Flow where
  | next
  | back (value : Option Float)
deriving DecidableEq, Repr

namespace Eval

/-! ### Symbols and console -/

/-- Fails with a fault. -/
def fail {α : Type} (kind : FaultKind) (note : String := "") : Eval α :=
  throw (.fault { kind, note })

/-- Fails on a tree without a meaning. -/
def meaningless {α : Type} : Eval α :=
  fail .internal

/-- The symbol at a place. -/
def symbol (id : Nat) : Eval Symbol :=
  return (← get).symbols.get id

/-- Fails with a fault about a symbol. -/
def failAbout {α : Type} (kind : FaultKind) (id : Nat) : Eval α := do
  fail kind (← symbol id).label

/-- The value of a computation that may fail. -/
def ofExcept {α : Type} : Except Fault α → Eval α
  | .ok a => return a
  | .error f => throw (.fault f)

/-- The value of a variable that has been assigned to. -/
def value (id : Nat) : Eval Float := do
  let s ← symbol id
  match s.kind with
  | .var => return s.value
  | .undefined => failAbout .undefinedVariable id
  | _ => failAbout .notAVariable id

/-- Makes a symbol a variable of value `x`. -/
def assign (id : Nat) (x : Float) : Eval Unit :=
  modify fun w => { w with symbols := w.symbols.modify id (Symbol.assigned x) }

/-- Checks that a symbol may be assigned to. -/
def checkAssignable (id : Nat) : Eval Unit := do
  if (← symbol id).isAssignable then return else failAbout .assignmentToNonVariable id

/-- Prints something. -/
def print (w : Write) : Eval Unit :=
  modify fun s => { s with console := s.console.write w }

/-- Reads a line. -/
def readLine : Eval (Option String) :=
  modifyGet fun w =>
    let (l, console) := w.console.readLine
    (l, { w with console })

/-! ### Values -/

/-- The value of a unary operator. -/
def unary (op : Operator) (x : Float) : Eval Float :=
  match op with
  | .minus => return -x
  | .not => return truth (!isTrue x)
  | _ => meaningless

/-- The value of a binary operator. -/
def binary (op : Operator) (x y : Float) : Eval Float :=
  match op with
  | .plus => return x + y
  | .minus => return x - y
  | .times => return x * y
  | .divide => ofExcept (quotient x y)
  | .modulo => ofExcept (modulus x y)
  | .caret => ofExcept (power x y)
  | .less => return truth (x < y)
  | .lessEqual => return truth (x ≤ y)
  | .greater => return truth (y < x)
  | .greaterEqual => return truth (y ≤ x)
  | .equal => return truth (x == y)
  | .notEqual => return truth (x != y)
  | .and => return truth (isTrue x && isTrue y)
  | .or => return truth (isTrue x || isTrue y)
  | _ => meaningless

/-- The value that an assigning operator gives to a variable. -/
def combine (op : Operator) (old x : Float) : Eval Float :=
  match op with
  | .assign => return x
  | .addAssign => return old + x
  | .subtractAssign => return old - x
  | .multiplyAssign => return old * x
  | .divideAssign => ofExcept (quotient old x)
  | .moduloAssign => ofExcept (modulus old x)
  | _ => meaningless

/-- Applies a built-in function. -/
def builtin (id : Nat) (x : Float) : Eval Float := do
  match (← symbol id).native with
  | some f => ofExcept (f.apply x)
  | none => meaningless

/-- Assigns to a variable, perhaps after an operation on its old value; yields
the new one. -/
def update (op : Operator) (id : Nat) (x : Float) : Eval Float := do
  checkAssignable id
  let y ← combine op (← symbol id).value x
  assign id y
  return y

/-- Steps a variable by one. -/
def step (how : Step) (id : Nat) : Eval Float := do
  let old ← value id
  let new := old + how.change
  assign id new
  return if how.isBefore then new else old

/-- Reads a number into a variable. At the end of the input the variable becomes
zero, and the value is zero instead of one. -/
def read (id : Nat) : Eval Float := do
  checkAssignable id
  match ← readLine with
  | none =>
    assign id 0.0
    return 0.0
  | some l =>
    match readTyped? l with
    | some x =>
      assign id x
      return 1.0
    | none => failAbout .nonNumberRead id

/-- Shows a value on a line of its own and keeps it under the name `_`. -/
def display (x : Float) : Eval Unit := do
  print (.echo x)
  modify fun w =>
    let (id, t) := w.symbols.resolve "_"
    { w with symbols := t.modify id (Symbol.assigned x) }

/-! ### The call at hand -/

/-- The call at hand. -/
def activation : Eval Activation := do
  match (← get).call with
  | some c => return c
  | none => meaningless

/-- The argument `$n`. -/
def arg (n : Nat) : Eval Float := do
  let c ← activation
  if n = 0 then meaningless
  else
    match c.arguments[n - 1]? with
    | some x => return x
    | none => failAbout .notEnoughArguments c.callee

/-- Assigns to the argument `$n`; yields the new value. -/
def setArg (n : Nat) (x : Float) : Eval Float := do
  let c ← activation
  if n = 0 then meaningless
  else if c.arguments.length < n then failAbout .notEnoughArguments c.callee
  else
    modify fun w =>
      { w with call := some { c with arguments := c.arguments.set (n - 1) x } }
    return x

/-- Leaves the call at hand with a value, which a procedure must not return. -/
def returnValue (x : Float) : Eval Flow := do
  let c ← activation
  if (← symbol c.callee).kind = .procedure then failAbout .procedureReturnsValue c.callee
  else return .back (some x)

/-- Leaves the call at hand without a value, which a function must return. -/
def returnNothing : Eval Flow := do
  let c ← activation
  if (← symbol c.callee).kind = .function then failAbout .functionReturnsNoValue c.callee
  else return .back none

/-! ### Trees -/

section

variable (invoke : Nat → List Float → Eval (Option Float))

mutual

/-- The value of an expression. -/
def expr : Expr → Eval Float
  | .literal id => return (← symbol id).value
  | .variable id => value id
  | .text _ => meaningless
  | .binary op lhs rhs => do
    let x ← expr lhs
    let y ← expr rhs
    binary op x y
  | .unary op e => do
    let x ← expr e
    unary op x
  | .builtin id e => do
    let x ← expr e
    builtin id x
  | .step how id => step how id
  | .call id es => do
    let xs ← exprs es
    match ← invoke id xs with
    | some x => return x
    | none => throw .unbalanced
  | .arg n => arg n
  | .read id => read id

/-- The values of several expressions, from first to last. -/
def exprs : List Expr → Eval (List Float)
  | [] => return []
  | e :: es => do
    let x ← expr e
    let xs ← exprs es
    return x :: xs

end

/-- The value of a statement that leaves one. -/
def clause : Stmt → Eval Float
  | .assign op id e => do
    let x ← expr invoke e
    update op id x
  | .argAssign n e => do
    let x ← expr invoke e
    setArg n x
  | .expr e => expr invoke e
  | _ => meaningless

/-- One item of a print statement. -/
def printItem : Expr → Eval Unit
  | .text id => do
    match (← symbol id).text with
    | some s => print (.text s)
    | none => meaningless
  | e => do
    let x ← expr invoke e
    print (.value x)

/-- The items of a print statement. -/
def printItems : List Expr → Eval Unit
  | [] => return
  | e :: es => do
    printItem invoke e
    printItems es

/-- A `while` loop of at most `rounds` rounds. -/
def whileLoop (cond : Eval Float) (body : Eval Flow) : (rounds : Nat) → Eval Flow
  | 0 => throw .outOfFuel
  | rounds + 1 => do
    let x ← cond
    if isTrue x then
      match ← body with
      | .next => whileLoop cond body rounds
      | .back v => return .back v
    else return .next

/-- A `for` loop of at most `rounds` rounds, its first clause done. -/
def forLoop (cond post : Eval Float) (body : Eval Flow) : (rounds : Nat) → Eval Flow
  | 0 => throw .outOfFuel
  | rounds + 1 => do
    let x ← cond
    if isTrue x then
      match ← body with
      | .next =>
        let _ ← post
        forLoop cond post body rounds
      | .back v => return .back v
    else return .next

variable (echo : Bool) (rounds : Nat)

mutual

/-- Evaluates a statement. -/
def stmt : Stmt → Eval Flow
  | .assign op id e => do
    let _ ← clause invoke (.assign op id e)
    return .next
  | .argAssign n e => do
    let _ ← clause invoke (.argAssign n e)
    return .next
  | .print items => do
    printItems invoke items
    return .next
  | .whileLoop cond body => whileLoop (expr invoke cond) (stmts body) rounds
  | .forLoop init cond post body => do
    let _ ← clause invoke init
    forLoop (expr invoke cond) (clause invoke post) (stmts body) rounds
  | .ifThen cond body => do
    let x ← expr invoke cond
    if isTrue x then stmts body else return .next
  | .ifElse cond body other => do
    let x ← expr invoke cond
    if isTrue x then stmts body else stmts other
  | .expr e => do
    let x ← expr invoke e
    if echo then display x
    return .next
  | .call id es => do
    let xs ← exprs invoke es
    match ← invoke id xs with
    | none => return .next
    | some _ => throw .unbalanced
  | .returnValue e => do
    let x ← expr invoke e
    returnValue x
  | .returnNothing => returnNothing
  | .define .. => meaningless

/-- Evaluates statements one after the other. -/
def stmts : List Stmt → Eval Flow
  | [] => return .next
  | s :: ss => do
    match ← stmt s with
    | .next => stmts ss
    | .back v => return .back v

end

/-- Evaluates the body of a definition; at its end the call returns without a
value. -/
def body (ss : List Stmt) : Eval (Option Float) := do
  match ← stmts invoke echo rounds ss with
  | .back v => return v
  | .next =>
    match ← returnNothing with
    | .back v => return v
    | .next => return none

end

/-! ### Calls and programs -/

/-- Evaluates inside a call. Whether that fails or not, the call outside is at
hand again. -/
def within {α : Type} (c : Activation) (x : Eval α) : Eval α :=
  fun w =>
    match x { w with call := some c } with
    | .ok a w' => .ok a { w' with call := w.call }
    | .error e w' => .error e { w' with call := w.call }

/-- Calls the latest definition of a symbol with arguments; calls nest at most
`calls` deep. -/
def invoke (ds : Definitions) (rounds : Nat) :
    (calls : Nat) → Nat → List Float → Eval (Option Float)
  | 0, _, _ => throw .outOfFuel
  | calls + 1, id, xs =>
    match ds.lookup id with
    | none => failAbout .undefinedFunction id
    | some d => within ⟨id, xs⟩ (body (invoke ds rounds calls) d.echo rounds d.body)

/-- Evaluates the statements of a program outside its definitions. -/
def program (ds : Definitions) (echo : Bool) (rounds : Nat) (ss : List Stmt) :
    Eval Unit := do
  let _ ← stmts (invoke ds rounds rounds) echo rounds (mainPart ss)

end Eval

end StackCalc
