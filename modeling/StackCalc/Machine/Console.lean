import StackCalc.Number.Format
import StackCalc.Number.Reader

/-!
# The console

Where a running program prints and reads. What a program prints is kept as a
sequence of writes, each saying what was printed; `Write.shown` is the text of
one, and none ends in a line end of its own except an echo. Reading takes the
next line of input; a console on a terminal shows a prompt first.

- `Write`, `Console.output`: what was printed, and its text.
- `Console.readLine`: the next line.
- `Console.lines`: the lines of an input text.
- `readTyped?`: the number a line holds, spaces around it ignored.
-/

namespace StackCalc

/-! ### Writes -/

/-- The characters of a text literal as they are printed: a backslash and an `n`
are a line end, all else stands for itself. -/
def printedChars : List Char → List Char
  | '\\' :: 'n' :: cs => '\n' :: printedChars cs
  | c :: cs => c :: printedChars cs
  | [] => []

/-- A text literal as it is printed. -/
def printedText (s : String) : String :=
  String.ofList (printedChars s.toList)

/-- Something that was printed. -/
inductive Write where
  /-- A value among the items of a print statement. -/
  | value (x : Float)
  /-- A text literal among the items of a print statement, escapes unread. -/
  | text (raw : String)
  /-- The value of an expression statement. -/
  | echo (x : Float)
  /-- The prompt in front of a line that is read. -/
  | prompt
deriving DecidableEq, Repr

/-- The text of a write. -/
def Write.shown : Write → String
  | value x => formatNumber x ++ " "
  | text raw => printedText raw
  | echo x => "\t" ++ formatNumber x ++ "\n"
  | prompt => "$ "

/-! ### Consoles -/

/-- What was written, oldest first, and the lines still to be read. -/
structure Console where
  writes : Array Write := #[]
  input : List String := []
  /-- Whether reading shows a prompt. -/
  prompting : Bool := false
deriving DecidableEq, Repr

namespace Console

/-- Adds a write. -/
def write (c : Console) (w : Write) : Console :=
  { c with writes := c.writes.push w }

/-- Everything written, as one text. -/
def output (c : Console) : String :=
  String.join (c.writes.toList.map Write.shown)

/-- The next line of input, if there is one, after the prompt. -/
def readLine (c : Console) : Option String × Console :=
  let c := if c.prompting then c.write .prompt else c
  match c.input with
  | [] => (none, c)
  | l :: ls => (some l, { c with input := ls })

/-! ### Lines of a text -/

/-- The lines of a text, each with its line end. -/
def rawLines : List Char → List (List Char)
  | [] => []
  | c :: cs =>
    if c = '\n' then [c] :: rawLines cs
    else
      match rawLines cs with
      | [] => [[c]]
      | l :: ls => (c :: l) :: ls

/-- A line without the line ends and carriage returns it ends in. -/
def chomp (cs : List Char) : List Char :=
  cs.reverse.dropWhile (fun c => c = '\r' || c = '\n') |>.reverse

/-- The lines of an input text, as reading gives them. -/
def lines (s : String) : List String :=
  (rawLines s.toList).map fun l => String.ofList (chomp l)

end Console

/-! ### Typed numbers -/

/-- The characters that count as space around a number typed in: those with the
Unicode property White_Space. -/
def isSpace (c : Char) : Bool :=
  let n := c.toNat
  (9 ≤ n && n ≤ 13) || n = 0x20 || n = 0x85 || n = 0xa0 || n = 0x1680 ||
    (0x2000 ≤ n && n ≤ 0x200a) || n = 0x2028 || n = 0x2029 || n = 0x202f ||
      n = 0x205f || n = 0x3000

/-- A text without the spaces around it. -/
def trimSpaces (cs : List Char) : List Char :=
  ((cs.dropWhile isSpace).reverse.dropWhile isSpace).reverse

/-- The number that a line holds, spaces around it ignored. -/
def readTyped? (line : String) : Option Float :=
  readNumber? (trimSpaces line.toList)

end StackCalc
