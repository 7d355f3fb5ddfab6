import StackCalc.CommandLine.RunFile

/-!
# The program

Runs the file named on the command line, or, without one, the programs typed in
at a prompt; a program typed in finds no input. All that is decided here is
where texts come from and where they go.
-/

namespace StackCalc

/-- The rounds each loop of a run is given: more than any program takes in a
lifetime. -/
def plentyOfFuel : Nat := Nat.pow 2 60

/-- Reads a file as text. -/
def readSource (path : String) : IO (Except ReadFailure String) := do
  try
    let bytes ← IO.FS.readBinFile path
    return match String.fromUTF8? bytes with
      | some s => .ok s
      | none => .error .notText
  catch e =>
    return match e with
      | .permissionDenied .. => .error .denied
      | .inappropriateType .. => .error .directory
      | _ => .error .missing

/-- Runs a file and returns the status of the run. -/
def runPath (o : Options) (path : String) : IO Nat := do
  let source ← readSource path
  let input ← (← IO.getStdin).readToEnd
  match runFile plentyOfFuel o path source input with
  | some r =>
    (← IO.getStdout).putStr r.stdout
    (← IO.getStderr).putStr r.stderr
    return r.status
  | none => return 1

/-- Runs what is typed in, one entry at a time; an entry goes on while its
braces are open. -/
partial def prompt (s : Session) (entry : String) : IO Unit := do
  let stdout ← IO.getStdout
  stdout.putStr (if entry.isEmpty then "minic> " else "...> ")
  stdout.flush
  let line ← (← IO.getStdin).getLine
  if line.isEmpty then return
  let entry := entry ++ line
  if isOpen entry then prompt s entry
  else
    match Session.enter plentyOfFuel entry s with
    | .ok _ s =>
      let (output, s) := s.takeOutput
      stdout.putStr output
      prompt s ""
    | .error h s =>
      let (output, s) := s.takeOutput
      stdout.putStr output
      match h with
      | .fault f => stdout.putStr ("?" ++ f.message ++ "\n")
      | .outOfFuel => pure ()
      prompt s ""

/-- Carries out a command line and returns the status to end with. -/
def carryOut (args : List String) : IO Nat := do
  match Options.parse args with
  | .error .help =>
    (← IO.getStdout).putStr Options.help
    return 0
  | .error e =>
    (← IO.getStderr).putStr ("error: " ++ e.text ++ "\n\n" ++ Options.usage)
    return 2
  | .ok o =>
    match o.file with
    | some path => runPath o path
    | none =>
      prompt ((Session.fresh o.limits).setEcho true) ""
      return 0

end StackCalc

/-- The entry point of the program. -/
def main (args : List String) : IO UInt32 := do
  return (← StackCalc.carryOut args).toUInt32
