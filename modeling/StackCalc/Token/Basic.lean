import StackCalc.Number.Format

/-!
# Tokens

The words, operators and marks a source text is made of. `Token.ofText?` reads
the tokens that have one spelling; `Token.shown` writes any token.
-/

namespace StackCalc

/-! ### Keywords -/

/-- The reserved words. -/
inductive Keyword where
  | elseKw
  | forKw
  | funcKw
  | ifKw
  | printKw
  | procKw
  | readKw
  | returnKw
  | whileKw
deriving DecidableEq, Repr

namespace Keyword

/-- Every keyword, in alphabetical order. -/
def all : List Keyword :=
  [elseKw, forKw, funcKw, ifKw, printKw, procKw, readKw, returnKw, whileKw]

/-- The spelling of a keyword. -/
def text : Keyword → String
  | elseKw => "else"
  | forKw => "for"
  | funcKw => "func"
  | ifKw => "if"
  | printKw => "print"
  | procKw => "proc"
  | readKw => "read"
  | returnKw => "return"
  | whileKw => "while"

/-- The keyword spelled `s`. -/
def ofText? (s : String) : Option Keyword :=
  all.find? fun k => k.text == s

end Keyword

/-! ### Operators -/

/-- The operators, unary, binary and assigning. -/
inductive Operator where
  | caret
  | times
  | divide
  | modulo
  | plus
  | minus
  | equal
  | notEqual
  | less
  | lessEqual
  | greater
  | greaterEqual
  | not
  | and
  | or
  | increment
  | decrement
  | assign
  | addAssign
  | subtractAssign
  | multiplyAssign
  | divideAssign
  | moduloAssign
deriving DecidableEq, Repr

namespace Operator

/-- Every operator. -/
def all : List Operator :=
  [caret, times, divide, modulo, plus, minus, equal, notEqual, less, lessEqual, greater,
    greaterEqual, not, and, or, increment, decrement, assign, addAssign, subtractAssign,
    multiplyAssign, divideAssign, moduloAssign]

/-- The spelling of an operator. -/
def text : Operator → String
  | caret => "^"
  | times => "*"
  | divide => "/"
  | modulo => "%"
  | plus => "+"
  | minus => "-"
  | equal => "=="
  | notEqual => "!="
  | less => "<"
  | lessEqual => "<="
  | greater => ">"
  | greaterEqual => ">="
  | not => "!"
  | and => "&&"
  | or => "||"
  | increment => "++"
  | decrement => "--"
  | assign => "="
  | addAssign => "+="
  | subtractAssign => "-="
  | multiplyAssign => "*="
  | divideAssign => "/="
  | moduloAssign => "%="

/-- The operator spelled `s`. -/
def ofText? (s : String) : Option Operator :=
  all.find? fun o => o.text == s

/-- Whether an operator assigns to what stands left of it. -/
def isAssignment : Operator → Bool
  | assign | addAssign | subtractAssign | multiplyAssign | divideAssign | moduloAssign =>
    true
  | _ => false

end Operator

/-! ### Tokens -/

/-- A token. An `unknown` token is text that belongs to no other class; a `text`
token holds what stands between the quotes, escapes unread. -/
inductive Token where
  | unknown (text : String)
  | number (value : Float)
  | text (raw : String)
  | keyword (word : Keyword)
  | operator (op : Operator)
  | ident (name : String)
  | arg (index : Nat)
  | leftParen
  | rightParen
  | leftBrace
  | rightBrace
  | comma
  | semicolon
deriving DecidableEq, Repr

namespace Token

/-- The token spelled `s`, if it is a keyword, an operator or a mark. -/
def ofText? (s : String) : Option Token :=
  match Keyword.ofText? s with
  | some word => some (keyword word)
  | none =>
    match Operator.ofText? s with
    | some op => some (operator op)
    | none =>
      match s with
      | "(" => some leftParen
      | ")" => some rightParen
      | "\x7b" => some leftBrace
      | "\x7d" => some rightBrace
      | "," => some comma
      | ";" => some semicolon
      | _ => none

/-- The text of a token. -/
def shown : Token → String
  | unknown s => s
  | number x => literalText x
  | text raw => "\"" ++ raw ++ "\""
  | keyword word => word.text
  | operator op => op.text
  | ident name => name
  | arg n => "$" ++ toString n
  | leftParen => "("
  | rightParen => ")"
  | leftBrace => "\x7b"
  | rightBrace => "\x7d"
  | comma => ","
  | semicolon => ";"

end Token

/-- A token and the line it starts in, counted from one. -/
structure Located where
  line : Nat
  token : Token
deriving DecidableEq, Repr

end StackCalc
