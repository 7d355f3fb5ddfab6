import StackCalc.Token.Lexer
import StackCalc.Tree

/-!
# Reading tokens

A `Parser` reads tokens from the front of a list and installs symbols as it
goes; the symbols stay installed when it fails. `Scope` is what a parser knows
of its surroundings. The parsers here take single tokens; each failure names the
line of the token at hand, or of the last one at the end.
-/

namespace StackCalc

/-- The tokens still to be read and the symbols known so far. -/
structure ParseState where
  tokens : List Located
  symbols : SymbolTable

/-- A reader of tokens. -/
abbrev Parser (α : Type) := EStateM Fault ParseState α

/-- Where a parser stands: inside a definition or not, and the line of the last
token of all. -/
structure Scope where
  inDefinition : Bool
  lastLine : Option Nat

namespace Parser

/-! ### Looking ahead -/

/-- The token at the front. -/
def peek : Parser (Option Token) :=
  return (← get).tokens.head?.map Located.token

/-- The token behind the one at the front. -/
def peekSecond : Parser (Option Token) :=
  return (← get).tokens.tail.head?.map Located.token

/-- The tokens still to be read. They bound the rounds of a loop that reads a
token in each. -/
def ahead : Parser (List Located) :=
  return (← get).tokens

/-- Leaves the token at the front behind. -/
def skip : Parser Unit :=
  modify fun s => { s with tokens := s.tokens.tail }

/-! ### Symbols -/

/-- The symbols known so far. -/
def symbols : Parser SymbolTable :=
  return (← get).symbols

/-- Runs an operation that adds an entry to the symbol table. -/
def addSymbol (f : SymbolTable → Nat × SymbolTable) : Parser Nat :=
  modifyGet fun s =>
    let (id, t) := f s.symbols
    (id, { s with symbols := t })

/-- The symbol a name stands for, installed if it is new. -/
def resolve (name : String) : Parser Nat :=
  addSymbol (·.resolve name)

/-! ### Failing -/

/-- The line of the token at the front, or of the last token of all. -/
def line (sc : Scope) : Parser (Option Nat) :=
  return match (← get).tokens with
    | t :: _ => some t.line
    | [] => sc.lastLine

/-- Fails at the line at hand. -/
def fail {α : Type} (sc : Scope) (kind : FaultKind) (note : String) : Parser α := do
  throw ⟨kind, ← line sc, note⟩

/-- Fails with a fault of the grammar. -/
def malformed {α : Type} (sc : Scope) (note : String) : Parser α :=
  fail sc .malformed note

/-- Fails because statements or expressions nest too deeply. -/
def tooDeep {α : Type} (sc : Scope) : Parser α :=
  fail sc .nestedTooDeeply ""

/-- Fails because of the token at the front. -/
def unexpected {α : Type} (sc : Scope) : Parser α := do
  match ← peek with
  | some (.unknown s) => fail sc .illegalCharacter s
  | some t => malformed sc ("unexpected '" ++ t.shown ++ "'")
  | none => malformed sc "unexpected end of input"

/-! ### Single tokens -/

/-- Takes the token `t`. -/
def expect (sc : Scope) (t : Token) : Parser Unit := do
  match ← peek with
  | some (.unknown _) => unexpected sc
  | some u => if u = t then skip else malformed sc ("expected '" ++ t.shown ++ "'")
  | none => malformed sc ("expected '" ++ t.shown ++ "'")

/-- Takes a name. -/
def ident (sc : Scope) : Parser String := do
  match ← peek with
  | some (.ident name) =>
    skip
    return name
  | _ => malformed sc "expected identifier"

/-- Takes a semicolon if there is one. -/
def terminator : Parser Unit := do
  match ← peek with
  | some .semicolon => skip
  | _ => pure ()

/-- Checks that `$n` may stand here: inside a definition, and counted from one. -/
def checkArg (sc : Scope) (n : Nat) : Parser Unit :=
  if !sc.inDefinition then fail sc .definitionOnly ("$" ++ toString n)
  else if n = 0 then malformed sc "$0"
  else pure ()

end Parser

end StackCalc
