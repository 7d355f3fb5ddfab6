import StackCalc.Parser.Basic

/-!
# Parsing expressions

Binary operators are read by climbing: an operand, then every operator that
binds at least as tightly as the place demands, each with a right operand of its
own. Levels of nesting are limited, and the limit is what the recursion goes
down on: an operand, and the right side of an operator, are one level further
in. `Parser.binary` ties the knot; the parsers above it take the one for the
next level as an argument.
-/

namespace StackCalc

/-- How tightly a binary operator binds. -/
def Operator.precedence? : Operator → Option Nat
  | or => some 1
  | and => some 2
  | equal | notEqual => some 3
  | less | lessEqual | greater | greaterEqual => some 4
  | plus | minus => some 5
  | times | divide | modulo => some 6
  | caret => some 8
  | _ => none

/-- What the right operand of an operator of precedence `p` may hold: `^` groups
to the right, every other operator to the left. -/
def Operator.rightPrecedence (op : Operator) (p : Nat) : Nat :=
  if op = caret then p else p + 1

/-- The operand of a unary operator binds more tightly than every binary
operator but `^`. -/
def unaryPrecedence : Nat := 7

namespace Parser

variable (sc : Scope)

/-! ### Arguments -/

/-- The arguments after the first, up to the closing parenthesis. -/
def moreArguments (expression : Parser Expr) : List Located → Parser (List Expr)
  | [] => malformed sc "expected ',' or ')'"
  | _ :: bound => do
    match ← peek with
    | some .rightParen =>
      skip
      return []
    | some .comma =>
      skip
      let e ← expression
      let es ← moreArguments expression bound
      return e :: es
    | _ => malformed sc "expected ',' or ')'"

/-- A list of arguments in parentheses. -/
def arguments (expression : Parser Expr) : Parser (List Expr) := do
  expect sc .leftParen
  match ← peek with
  | some .rightParen =>
    skip
    return []
  | _ =>
    let e ← expression
    let es ← moreArguments sc expression (← ahead)
    return e :: es

/-! ### Operands -/

/-- What follows a name: it is a call, a step after use, or a plain use. -/
def named (expression : Parser Expr) (name : String) : Parser Expr := do
  let t ← symbols
  let known := t.lookup name
  match known, known.map fun id => (t.get id).kind with
  | some id, some .builtin =>
    expect sc .leftParen
    let e ← expression
    expect sc .rightParen
    return .builtin id e
  | some id, some .function =>
    let es ← arguments sc expression
    return .call id es
  | _, some .procedure => malformed sc ("procedure " ++ name ++ " used in expression")
  | _, _ =>
    match ← peek with
    | some .leftParen => malformed sc ("undefined function " ++ name)
    | _ =>
      let id ← resolve name
      match ← peek with
      | some (.operator .increment) =>
        skip
        return .step .postInc id
      | some (.operator .decrement) =>
        skip
        return .step .postDec id
      | _ => return .variable id

/-- An operand without operators in front. -/
def primary (expression : Parser Expr) : Parser Expr := do
  match ← peek with
  | some (.number x) =>
    skip
    return .literal (← addSymbol (·.addNumber x))
  | some .leftParen =>
    skip
    let e ← expression
    expect sc .rightParen
    return e
  | some (.ident name) =>
    skip
    named sc expression name
  | some (.arg n) =>
    checkArg sc n
    skip
    return .arg n
  | some (.keyword .readKw) =>
    skip
    expect sc .leftParen
    let name ← ident sc
    expect sc .rightParen
    return .read (← resolve name)
  | some (.operator .increment) =>
    skip
    let name ← ident sc
    return .step .preInc (← resolve name)
  | some (.operator .decrement) =>
    skip
    let name ← ident sc
    return .step .preDec (← resolve name)
  | _ => unexpected sc

/-- An operand, with or without a unary operator in front. -/
def operand (binary : Nat → Parser Expr) : Parser Expr := do
  match ← peek with
  | some (.operator .minus) =>
    skip
    return .unary .minus (← binary unaryPrecedence)
  | some (.operator .not) =>
    skip
    return .unary .not (← binary unaryPrecedence)
  | _ => primary sc (binary 1)

/-! ### Operators -/

/-- The operators of precedence `least` and more that follow the operand `lhs`. -/
def climb (binary : Nat → Parser Expr) (least : Nat) : List Located → Expr → Parser Expr
  | [], lhs => return lhs
  | _ :: bound, lhs => do
    match ← peek with
    | some (.operator op) =>
      match op.precedence? with
      | some p =>
        if least ≤ p then
          skip
          let rhs ← binary (op.rightPrecedence p)
          climb binary least bound (.binary op lhs rhs)
        else return lhs
      | none => return lhs
    | _ => return lhs

/-- An expression of operators of precedence `least` and more, at most `depth`
levels deep. -/
def binary : (depth least : Nat) → Parser Expr
  | 0, _ => tooDeep sc
  | depth + 1, least => do
    let lhs ← operand sc (binary depth)
    climb (binary depth) least (← ahead) lhs

/-- An expression at most `depth` levels deep. -/
def expression (depth : Nat) : Parser Expr :=
  binary sc depth 1

end Parser

end StackCalc
