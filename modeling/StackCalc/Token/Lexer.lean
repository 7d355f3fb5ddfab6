import StackCalc.Number.Reader
import StackCalc.Token.Basic

/-!
# Cutting a text into tokens

At each place the characters ahead form one piece: a blank, a comment, or a
lexeme. `scan` says which, and how many characters it takes beyond its first;
`lexFrom` goes from piece to piece and counts lines. No text is refused: what
belongs to no class becomes an unknown token.
-/

namespace StackCalc

namespace Lexer

open Decimal (isDigit)

/-! ### Classes of characters -/

/-- Whether `c` separates tokens and means nothing else. -/
def isBlank (c : Char) : Bool :=
  c = ' ' || c = '\t' || c = '\r' || c = '\n'

/-- Whether a name may start with `c`. -/
def isLetter (c : Char) : Bool :=
  ('a' ≤ c && c ≤ 'z') || ('A' ≤ c && c ≤ 'Z') || c = '_'

/-- Whether a name may go on with `c`. -/
def isWordChar (c : Char) : Bool :=
  isLetter c || isDigit c

/-! ### Lengths of pieces -/

/-- How many characters stand in front of the end of the line. -/
def lineLength (cs : List Char) : Nat :=
  (cs.takeWhile (· ≠ '\n')).length

/-- How many characters a block comment takes after its opening mark, its
closing mark included. -/
def blockLength : List Char → Nat
  | [] => 0
  | '*' :: '/' :: _ => 2
  | _ :: cs => blockLength cs + 1

/-- How many digits stand in front. -/
def digitsLength (cs : List Char) : Nat :=
  (cs.takeWhile isDigit).length

/-- The length of a point and the digits after it. -/
def fractionLength : List Char → Nat
  | '.' :: cs => digitsLength cs + 1
  | _ => 0

/-- The length of a sign. -/
def signLength : List Char → Nat
  | '+' :: _ => 1
  | '-' :: _ => 1
  | _ => 0

/-- The length of an exponent; without a digit there is none. -/
def exponentLength : List Char → Nat
  | c :: cs =>
    if c = 'e' ∨ c = 'E' then
      let s := signLength cs
      let n := digitsLength (cs.drop s)
      if n = 0 then 0 else 1 + s + n
    else 0
  | [] => 0

/-- The length of a number: digits, a point and digits, an exponent, each of
them optional. -/
def numberLength (cs : List Char) : Nat :=
  let whole := digitsLength cs
  let fraction := fractionLength (cs.drop whole)
  whole + fraction + exponentLength (cs.drop (whole + fraction))

/-- How many characters stand between an opening quote and its closing quote on
the same line. A backslash makes a pair with the character after it. -/
def closingQuote? : List Char → Option Nat
  | [] => none
  | '"' :: _ => some 0
  | '\n' :: _ => none
  | '\\' :: '\n' :: _ => none
  | '\\' :: _ :: cs => (closingQuote? cs).map (· + 2)
  | _ :: cs => (closingQuote? cs).map (· + 1)

/-! ### Tokens of lexemes -/

/-- The token of a number. -/
def numberToken (cs : List Char) : Token :=
  match readNumber? cs with
  | some x => .number x
  | none => .unknown (String.ofList cs)

/-- The token of a word: a keyword or a name. -/
def wordToken (cs : List Char) : Token :=
  let word := String.ofList cs
  match Keyword.ofText? word with
  | some k => .keyword k
  | none => .ident word

/-- The token of `$` and the digits `cs`. Indices have 64 bits. -/
def argToken (cs : List Char) : Token :=
  let n := Decimal.ofDigits cs
  if cs ≠ [] ∧ n < Nat.pow 2 64 then .arg n else .unknown (String.ofList ('$' :: cs))

/-- The token of a mark of two characters, if there is one. -/
def pairToken? (c : Char) : List Char → Option Token
  | d :: _ => Token.ofText? (String.ofList [c, d])
  | [] => none

/-- The token of a mark of one character. -/
def markToken (c : Char) : Token :=
  match Token.ofText? (String.ofList [c]) with
  | some t => t
  | none => .unknown (String.ofList [c])

/-! ### Pieces -/

/-- The length, beyond the first character, of a comment that starts with `c`. -/
def comment? (c : Char) (cs : List Char) : Option Nat :=
  match c, cs with
  | '/', '*' :: rest => some (1 + blockLength rest)
  | '/', '/' :: _ => some (lineLength cs + 1)
  | '#', _ => some (lineLength cs + 1)
  | _, _ => none

/-- Whether the characters `c :: cs` start with a number. -/
def startsNumber (c : Char) (cs : List Char) : Bool :=
  isDigit c || (c = '.' && cs.head?.any isDigit)

/-- The lexeme in front of `c :: cs`: its token, and its length beyond the first
character. -/
def lexeme (c : Char) (cs : List Char) : Token × Nat :=
  if startsNumber c cs then
    let n := numberLength (c :: cs) - 1
    (numberToken (c :: cs.take n), n)
  else if isLetter c then
    let n := (cs.takeWhile isWordChar).length
    (wordToken (c :: cs.take n), n)
  else if c = '"' then
    match closingQuote? cs with
    | some n => (.text (String.ofList (cs.take n)), n + 1)
    | none => (.unknown (String.ofList (c :: cs.take (lineLength cs))), lineLength cs)
  else if c = '$' then
    let n := digitsLength cs
    (argToken (cs.take n), n)
  else
    match pairToken? c cs with
    | some t => (t, 1)
    | none => (markToken c, 0)

/-- The piece in front of `c :: cs`: its token unless it is a blank or a
comment, and its length beyond the first character. -/
def scan (c : Char) (cs : List Char) : Option Token × Nat :=
  if isBlank c then (none, 0)
  else
    match comment? c cs with
    | some n => (none, n)
    | none =>
      let (t, n) := lexeme c cs
      (some t, n)

/-- The number of line ends in a text. -/
def lineEnds (cs : List Char) : Nat :=
  cs.count '\n'

/-- The tokens of a text whose first line has the number `line`. -/
def lexFrom (line : Nat) : List Char → List Located
  | [] => []
  | c :: cs =>
    let (token?, n) := scan c cs
    let rest := lexFrom (line + lineEnds (c :: cs.take n)) (cs.drop n)
    match token? with
    | some t => ⟨line, t⟩ :: rest
    | none => rest
termination_by cs => cs.length
decreasing_by
  rw [List.length_drop, List.length_cons]
  omega

end Lexer

/-- The tokens of a source text, each with its line. -/
def lex (source : String) : List Located :=
  Lexer.lexFrom 1 source.toList

end StackCalc
