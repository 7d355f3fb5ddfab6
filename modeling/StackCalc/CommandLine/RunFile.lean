import StackCalc.CommandLine.Options
import StackCalc.Session

/-!
# Running a file

What running a source file puts on the two output streams, and the status it
ends with: zero for success, two for a fault of the text, one for any other.
`isOpen` says whether a text that is typed in line by line goes on.
-/

namespace StackCalc

/-- Why a file could not be read. -/
inductive ReadFailure where
  | missing
  | denied
  | directory
  | notText
deriving DecidableEq, Repr

/-- The wording of a failure to read a file. -/
def ReadFailure.text : ReadFailure → String
  | missing => "No such file or directory (os error 2)"
  | denied => "Permission denied (os error 13)"
  | directory => "Is a directory (os error 21)"
  | notText => "stream did not contain valid UTF-8"

/-- What a run leaves behind. -/
structure RunReport where
  status : Nat
  stdout : String
  stderr : String
deriving DecidableEq, Repr

namespace RunReport

/-- The report of a run that ended with a fault. -/
def ofFault (f : Fault) (stdout : String) : RunReport :=
  ⟨if f.kind.isCompile then 2 else 1, stdout, "?" ++ f.message ++ "\n"⟩

/-- The report of a file that could not be read. -/
def ofReadFailure (path : String) (failure : ReadFailure) : RunReport :=
  ⟨1, "", "minic: " ++ path ++ ": " ++ failure.text ++ "\n"⟩

end RunReport

/-- One line for each token of a text: its line, a tab and the token. -/
def tokenListing (source : String) : String :=
  String.join ((lex source).map fun t => toString t.line ++ "\t" ++ t.token.shown ++ "\n")

/-- The session in which a file is run. -/
def Options.session (o : Options) (input : String) : Session :=
  let machine : Machine :=
    { symbols := SymbolTable.initial,
      console := { input := Console.lines input, prompting := true } }
  { Session.fresh o.limits with machine }

/-- Runs a source text with the given standard input; nothing if the fuel runs
out. -/
def runSource (fuel : Nat) (o : Options) (source input : String) : Option RunReport :=
  let tokens := if o.tokens then tokenListing source else ""
  match Session.compile source (o.session input) with
  | .error f _ => some (.ofFault f tokens)
  | .ok entry s =>
    let shown := tokens ++ (if o.listing then s.listing else "")
    match Session.execute fuel entry s with
    | .ok _ s => some ⟨0, shown ++ s.machine.console.output, ""⟩
    | .error (.fault f) s => some (.ofFault f (shown ++ s.machine.console.output))
    | .error .outOfFuel _ => none

/-- Runs the file at a path, read as `source`. -/
def runFile (fuel : Nat) (o : Options) (path : String)
    (source : Except ReadFailure String) (input : String) : Option RunReport :=
  match source with
  | .ok source => runSource fuel o source input
  | .error failure => some (.ofReadFailure path failure)

/-- Whether a text typed in so far goes on in the next line: it has more opening
than closing braces. -/
def isOpen (source : String) : Bool :=
  source.toList.count '\x7d' < source.toList.count '\x7b'

end StackCalc
