import StackCalc.Machine.Basic

/-!
# Command line options

Options are read from left to right. An option that takes a number may have it
attached after `=` or as the next argument; such a number, and the file, are
only settled when the next known option or file is met, or the end. So an
unknown option is reported before a bad number in front of it, and a bad number
before anything that follows the next known option. After `--` every argument is
a file.
-/

namespace StackCalc

/-- What a command line asks for. -/
structure Options where
  file : Option String := none
  /-- Show the tokens first. -/
  tokens : Bool := false
  /-- Show the listing first. -/
  listing : Bool := false
  limits : Limits := {}
deriving DecidableEq, Repr

/-- Why a command line is not carried out. -/
inductive UsageError where
  /-- A value that is not a number of 64 bits. -/
  | badNumber
  /-- An option without its value, or a file without a name. -/
  | missingValue
  /-- An unknown option, or a second file. -/
  | unknownArgument
  /-- A value for an option that takes none. -/
  | unneededValue
  /-- An option given twice. -/
  | repeated
  /-- The user asked for help. -/
  | help
deriving DecidableEq, Repr

/-- The wording of a usage error. -/
def UsageError.text : UsageError → String
  | badNumber => "invalid value for an option that takes a number"
  | missingValue => "a value is required but none was supplied"
  | unknownArgument => "unexpected argument found"
  | unneededValue => "unexpected value for an option that takes none"
  | repeated => "an option cannot be used multiple times"
  | help => "help was asked for"

namespace Options

/-- How the program is called. -/
def usage : String :=
  "Usage: minic [OPTIONS] [FILE]\n"

/-- What the program and its options do. -/
def help : String :=
  usage ++ "\n" ++
    "  --tokens         Print the token stream before running\n" ++
    "  --listing        Print the instruction listing before running\n" ++
    "  --stack <N>      Operand stack depth\n" ++
    "  --frames <N>     Call frame depth\n" ++
    "  --program <N>    Instruction stream capacity in cells\n" ++
    "  --depth <N>      Nesting depth of control constructs and calls\n" ++
    "  -h, --help       Print help\n"

/-- The options that take no value. -/
inductive Switch where
  | tokens
  | listing
  | help
deriving DecidableEq, Repr

/-- The options that take a number. -/
inductive Setting where
  | stack
  | frames
  | program
  | depth
deriving DecidableEq, Repr

/-- An option. -/
inductive Name where
  | switch (s : Switch)
  | setting (s : Setting)
deriving DecidableEq, Repr

/-- The option of a long name. -/
def name? : String → Option Name
  | "tokens" => some (.switch .tokens)
  | "listing" => some (.switch .listing)
  | "help" => some (.switch .help)
  | "stack" => some (.setting .stack)
  | "frames" => some (.setting .frames)
  | "program" => some (.setting .program)
  | "depth" => some (.setting .depth)
  | _ => none

/-- A number of 64 bits: digits, with or without a plus sign. -/
def readCount? (s : String) : Option Nat :=
  let ds := match s.toList with
    | '+' :: ds => ds
    | ds => ds
  let n := Decimal.ofDigits ds
  if ds ≠ [] ∧ ds.all Decimal.isDigit ∧ n < Nat.pow 2 64 then some n else none

/-- The options with a limit set. -/
def set (o : Options) (n : Nat) : Setting → Options
  | .stack => { o with limits := { o.limits with stack := n } }
  | .frames => { o with limits := { o.limits with frames := n } }
  | .program => { o with limits := { o.limits with program := n } }
  | .depth => { o with limits := { o.limits with depth := n } }

/-- An argument that is not settled yet. -/
inductive Pending where
  | none
  /-- An option and its value, if that has been met. -/
  | setting (s : Setting) (value : Option String)
  | file (path : String)
deriving DecidableEq, Repr

/-- How far the arguments have been read. -/
structure Progress where
  options : Options := {}
  /-- The options met so far. -/
  seen : List Name := []
  pending : Pending := .none
  /-- Whether a file has been met. -/
  hasFile : Bool := false
  /-- Whether every argument from here on is a file. -/
  onlyFiles : Bool := false

namespace Progress

/-- Notes that an option has been met. -/
def meet (p : Progress) (n : Name) : Except UsageError Progress :=
  if n ∈ p.seen then .error .repeated else .ok { p with seen := n :: p.seen }

/-- Gives a setting its value. -/
def assign (p : Progress) (s : Setting) (value : String) :
    Except UsageError Progress := do
  let p ← p.meet (.setting s)
  match readCount? value with
  | some n => return { p with options := p.options.set n s }
  | none => throw .badNumber

/-- Settles the argument that is not settled yet. -/
def settle (p : Progress) : Except UsageError Progress :=
  let q := { p with pending := .none }
  match p.pending with
  | .none => .ok q
  | .setting _ none => .error .missingValue
  | .setting s (some value) => q.assign s value
  | .file path =>
    if path = "" then .error .missingValue
    else .ok { q with options := { q.options with file := some path } }

/-- Reads an option that takes no value. -/
def switch (p : Progress) (s : Switch) : Except UsageError Progress := do
  let p ← p.settle
  match s with
  | .help => throw .help
  | .tokens =>
    let p ← p.meet (.switch s)
    return { p with options := { p.options with tokens := true } }
  | .listing =>
    let p ← p.meet (.switch s)
    return { p with options := { p.options with listing := true } }

/-- Reads a long option, `body` being what follows the dashes. -/
def long (p : Progress) (body : List Char) : Except UsageError Progress :=
  let label := String.ofList (body.takeWhile (· ≠ '='))
  let value := match body.dropWhile (· ≠ '=') with
    | _ :: cs => some (String.ofList cs)
    | [] => none
  match name? label, value with
  | none, _ => .error .unknownArgument
  | some (.switch _), some _ => .error .unneededValue
  | some (.switch s), none => p.switch s
  | some (.setting s), some v => do
    let p ← p.settle
    p.assign s v
  | some (.setting s), none => do
    let p ← p.settle
    return { p with pending := .setting s none }

/-- Reads a file. -/
def file (p : Progress) (arg : String) : Except UsageError Progress :=
  if p.hasFile then .error .unknownArgument
  else do
    let p ← p.settle
    return { p with pending := .file arg, hasFile := true }

/-- Reads an argument that is no option: the value that is waited for, or a file. -/
def value (p : Progress) (arg : String) : Except UsageError Progress :=
  match p.pending with
  | .setting s none => .ok { p with pending := .setting s (some arg) }
  | _ => p.file arg

/-- Reads one argument. -/
def read (p : Progress) (arg : String) : Except UsageError Progress :=
  if p.onlyFiles then p.file arg
  else
    match arg.toList with
    | ['-', '-'] => .ok { p with onlyFiles := true }
    | '-' :: '-' :: body => p.long body
    | '-' :: 'h' :: _ => p.switch .help
    | '-' :: _ :: _ => .error .unknownArgument
    | _ => p.value arg

end Progress

/-- The options of a command line. -/
def parse (args : List String) : Except UsageError Options := do
  let p ← args.foldlM Progress.read {}
  let p ← p.settle
  return p.options

end Options

end StackCalc
