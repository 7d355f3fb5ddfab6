import StackCalc.CommandLine.RunFile
import StackCalc.Main
import StackCalc.Proofs.Code.TwoPass
import StackCalc.Proofs.Session.CompilerCorrectness
import StackCalc.Proofs.Session.FaultFreedom
import StackCalc.Proofs.Session.StackDiscipline
import StackCalc.Proofs.Parser.Layered
import StackCalc.Proofs.Machine.Limits
import StackCalc.Proofs.Parser.Climbing
import StackCalc.Proofs.Parser.Reading
import StackCalc.Proofs.Parser.ReadBack
import StackCalc.Proofs.Parser.RoundTrip
import StackCalc.Proofs.Symbol.Growth
import StackCalc.Proofs.Token.Joining
import StackCalc.Proofs.Parser.Agreement
import StackCalc.Proofs.Parser.Joining
import StackCalc.Proofs.Simulation.Twins
import StackCalc.Proofs.Simulation.Relocation
import StackCalc.Proofs.Simulation.RelocatedRuns
import StackCalc.Proofs.Session.Joining
import StackCalc.Proofs.Token.Decomposition
import StackCalc.Proofs.Token.Lexemes
import StackCalc.Proofs.Code.ClosedCode
import StackCalc.Proofs.Code.Sealing
import StackCalc.Proofs.Machine.Tidy
import StackCalc.Proofs.Machine.Accesses
import StackCalc.Proofs.Session.Reachable
import StackCalc.Proofs.Session.Acceptance
import StackCalc.Proofs.Session.SealedCode
import StackCalc.Proofs.Session.Coherence
import StackCalc.Proofs.Session.FailedGeneration
import StackCalc.Proofs.Parser.Composition
import StackCalc.Proofs.Parser.Declarations
import StackCalc.Proofs.Session.FailedReading
import StackCalc.Proofs.Parser.Nesting
import StackCalc.Proofs.Loops.Restating
import StackCalc.Proofs.Loops.Levels
import StackCalc.Proofs.Session.RestatedLoops
import StackCalc.Proofs.Loops.Programs
import StackCalc.Proofs.Parser.FaultLines
import StackCalc.Proofs.Parser.Registration
import StackCalc.Proofs.Machine.Interrupts
import StackCalc.Proofs.Session.Interrupts
import StackCalc.Proofs.Code.Conditions
import StackCalc.Proofs.Machine.LoopFree
import StackCalc.Proofs.Session.LoopFree
import StackCalc.Proofs.Parser.DepthLimit
import StackCalc.Proofs.Symbol.Transitions
import StackCalc.Proofs.Machine.Assignments
import StackCalc.Proofs.Session.SymbolKinds
import StackCalc.Proofs.Number.Nearest
import StackCalc.Proofs.Number.Packing
import StackCalc.Proofs.Number.Reading
import StackCalc.Proofs.Number.Shortest
import StackCalc.Proofs.Token.Shown
import StackCalc.Proofs.Token.Braces
import StackCalc.Proofs.Machine.FailedInstructions
import StackCalc.Proofs.Session.FailedInstructions
import StackCalc.Proofs.Number.Notation
import StackCalc.Proofs.Number.SignificantDigits
import StackCalc.Proofs.Number.Printing
import StackCalc.Proofs.Code.Echo
import StackCalc.Proofs.Machine.Echo
import StackCalc.Proofs.Session.Echo
import StackCalc.Proofs.Code.Bodies
