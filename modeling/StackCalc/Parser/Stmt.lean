import StackCalc.Parser.Expr

/-!
# Parsing statements and programs

A statement is one level of nesting; the statements of a block stand for
themselves. The kind of a defined name changes as soon as the name is read, so
that calls after it, also those in its own body, are read as calls. `parse`
reads a whole program.
-/

namespace StackCalc

namespace Parser

/-! ### Statements -/

section

variable (sc : Scope)

/-- An assignment or an expression. -/
def simple (expression : Parser Expr) : Parser Stmt := do
  match ← peek, ← peekSecond with
  | some (.ident name), some (.operator op) =>
    if op.isAssignment then
      skip
      skip
      let id ← resolve name
      return .assign op id (← expression)
    else return .expr (← expression)
  | some (.arg n), some (.operator .assign) =>
    checkArg sc n
    skip
    skip
    return .argAssign n (← expression)
  | _, _ => return .expr (← expression)

/-- A condition in parentheses. -/
def condition (expression : Parser Expr) : Parser Expr := do
  expect sc .leftParen
  let e ← expression
  expect sc .rightParen
  return e

/-- The statements of a block up to its closing brace. -/
def blockItems (statement : Parser (List Stmt)) : List Located → Parser (List Stmt)
  | [] => malformed sc "expected '\x7d'"
  | _ :: bound => do
    match ← peek with
    | some .rightBrace =>
      skip
      return []
    | some .semicolon =>
      skip
      blockItems statement bound
    | none => malformed sc "expected '\x7d'"
    | some _ =>
      let first ← statement
      let rest ← blockItems statement bound
      return first ++ rest

/-- One item of a print statement. -/
def printItem (expression : Parser Expr) : Parser Expr := do
  match ← peek with
  | some (.text s) =>
    skip
    return .text (← addSymbol (·.addText s))
  | _ => expression

/-- The items of a print statement after the first. -/
def morePrintItems (expression : Parser Expr) : List Located → Parser (List Expr)
  | [] => return []
  | _ :: bound => do
    match ← peek with
    | some .comma =>
      skip
      let e ← printItem expression
      let es ← morePrintItems expression bound
      return e :: es
    | _ => return []

/-- The items of a print statement. -/
def printItems (expression : Parser Expr) : Parser (List Expr) := do
  let e ← printItem expression
  let es ← morePrintItems expression (← ahead)
  return e :: es

/-- A return statement; its value is left out before the end of the statement
and before a keyword that starts another one. -/
def returnStmt (expression : Parser Expr) : Parser Stmt := do
  if !sc.inDefinition then fail sc .definitionOnly "return"
  else
    skip
    match ← peek with
    | none | some .semicolon | some .rightBrace => return .returnNothing
    | some (.keyword .readKw) => return .returnValue (← expression)
    | some (.keyword _) => return .returnNothing
    | _ => return .returnValue (← expression)

/-- A loop with three clauses. -/
def forStmt (expression : Parser Expr) (statement : Parser (List Stmt)) :
    Parser Stmt := do
  skip
  expect sc .leftParen
  let init ← simple sc expression
  expect sc .semicolon
  let cond ← expression
  expect sc .semicolon
  let post ← simple sc expression
  expect sc .rightParen
  let body ← statement
  return .forLoop init cond post body

/-- A statement under a condition. -/
def ifStmt (expression : Parser Expr) (statement : Parser (List Stmt)) : Parser Stmt := do
  skip
  let cond ← condition sc expression
  let body ← statement
  match ← peek with
  | some (.keyword .elseKw) =>
    skip
    let other ← statement
    return .ifElse cond body other
  | _ => return .ifThen cond body

/-- A statement that a name starts: the call of a procedure, or a simple
statement. -/
def namedStmt (expression : Parser Expr) (name : String) : Parser Stmt := do
  match ← peekSecond with
  | some .leftParen =>
    let t ← symbols
    match t.lookup name with
    | some id =>
      if (t.get id).kind = .procedure then
        skip
        return .call id (← arguments sc expression)
      else simple sc expression
    | none => simple sc expression
  | _ => simple sc expression

/-- A statement and the semicolon that may end it. -/
def terminated (p : Parser Stmt) : Parser (List Stmt) := do
  let s ← p
  terminator
  return [s]

/-- A statement of any form; those of a block stand for themselves. -/
def anyStatement (expression : Parser Expr) (statement : Parser (List Stmt)) :
    Parser (List Stmt) := do
  match ← peek with
  | some .leftBrace =>
    skip
    blockItems sc statement (← ahead)
  | some (.keyword .printKw) =>
    terminated do
      skip
      return .print (← printItems expression)
  | some (.keyword .whileKw) =>
    terminated do
      skip
      let cond ← condition sc expression
      return .whileLoop cond (← statement)
  | some (.keyword .forKw) => return [← forStmt sc expression statement]
  | some (.keyword .ifKw) => return [← ifStmt sc expression statement]
  | some (.keyword .returnKw) => terminated (returnStmt sc expression)
  | some (.keyword .readKw) => terminated (simple sc expression)
  | some (.keyword _) => unexpected sc
  | some (.ident name) => terminated (namedStmt sc expression name)
  | _ => terminated (simple sc expression)

/-- A statement at most `depth` levels deep. -/
def statement : (depth : Nat) → Parser (List Stmt)
  | 0 => tooDeep sc
  | depth + 1 => anyStatement sc (expression sc depth) (statement depth)

end

/-! ### Programs -/

/-- The definition of a function or a procedure, its keyword still ahead. -/
def definition (sc : Scope) (kind : DefinitionKind) (depth : Nat) : Parser Stmt := do
  skip
  let name ← ident sc
  let id ← resolve name
  if ((← symbols).get id).kind = .builtin then malformed sc ("cannot redefine " ++ name)
  else
    modify fun s =>
      { s with symbols := s.symbols.modify id fun e =>
        { e with kind := kind.symbolKind } }
    expect sc .leftParen
    expect sc .rightParen
    let body ← statement { sc with inDefinition := true } depth
    return .define kind id body

/-- The definitions and statements of a program up to the end of the tokens. -/
def programItems (sc : Scope) (depth : Nat) : List Located → Parser (List Stmt)
  | [] => return []
  | _ :: bound => do
    match ← peek with
    | none => return []
    | some .semicolon =>
      skip
      programItems sc depth bound
    | some (.keyword .funcKw) =>
      let d ← definition sc .function depth
      let rest ← programItems sc depth bound
      return d :: rest
    | some (.keyword .procKw) =>
      let d ← definition sc .procedure depth
      let rest ← programItems sc depth bound
      return d :: rest
    | some _ =>
      let first ← statement sc depth
      let rest ← programItems sc depth bound
      return first ++ rest

end Parser

/-- Reads the tokens of a whole program; statements and expressions nest at most
`depth` levels deep. The symbol table comes back with what was installed, also
on failure. -/
def parse (tokens : List Located) (symbols : SymbolTable) (depth : Nat) :
    Except Fault (List Stmt) × SymbolTable :=
  let sc : Scope := ⟨false, tokens.getLast?.map Located.line⟩
  match Parser.programItems sc depth tokens ⟨tokens, symbols⟩ with
  | .ok program s => (.ok program, s.symbols)
  | .error f s => (.error f, s.symbols)

end StackCalc
