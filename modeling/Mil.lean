import Mil.Diag
import Mil.Text.Quoted
import Mil.Text.Integer
import Mil.Text.Category
import Mil.Word
import Mil.Ty.Basic
import Mil.Ty.Env
import Mil.Ty.Reader
import Mil.Prim.Fold
import Mil.Rep.Types
import Mil.Code.Basic
import Mil.Code.Alpha
import Mil.Program.Printer
import Mil.Yaml.Node
import Mil.Source.Load
import Mil.Typing.Check
import Mil.Mono.Fill
import Mil.Machine.Run
import Mil.Rep.Carry
import Mil.Optimize.Simplify
import Mil.Optimize.Inline
import Mil.Optimize.Unused
import Mil.Optimize.Invariants
import Mil.Optimize.Rounds
import Mil.Compiler
import Mil.Rtl.Printer
import Mil.Rtl.Passes
import Mil.Rtl.Generate
import Mil.Llvm.Printer
import Mil.Llvm.Generate
import Mil.Config.Read
import Mil.Command.Run
import Mil.Main
import Mil.Proofs.Machine.Safety
import Mil.Proofs.Mono.Valuation
import Mil.Proofs.Machine.Evaluate
import Mil.Proofs.Machine.Follow
import Mil.Proofs.Machine.Replay
import Mil.Proofs.Machine.Simulate
import Mil.Proofs.Machine.Preserve
import Mil.Proofs.Mono.Reading
import Mil.Proofs.Mono.Typed
import Mil.Proofs.Mono.Grant
import Mil.Proofs.Mono.Derive
import Mil.Proofs.Mono.Monomorphic
import Mil.Proofs.Mono.Flow
import Mil.Proofs.Mono.Termination
import Mil.Proofs.Rtl.Graph
import Mil.Proofs.Rtl.Symbols
import Mil.Proofs.Rtl.WordLevel
import Mil.Proofs.Rtl.Build
import Mil.Proofs.Rtl.Place
import Mil.Proofs.Rtl.Functions
import Mil.Proofs.Rtl.WellFormed
import Mil.Proofs.Machine.Soundness
import Mil.Proofs.Rtl.Carry
import Mil.Proofs.Rtl.Compute
import Mil.Proofs.Rtl.Enter
import Mil.Proofs.Rtl.Simulate
import Mil.Proofs.Rtl.Behaviour
import Mil.Proofs.Ty.Descent
import Mil.Proofs.Ty.MostGeneral
import Mil.Proofs.Ty.RoundTrip
import Mil.Proofs.Machine.Lockstep
import Mil.Proofs.Optimize.Alpha
import Mil.Proofs.Optimize.Duplicates
import Mil.Proofs.Machine.Answer
import Mil.Proofs.Machine.Ends
import Mil.Proofs.Machine.Fuel
import Mil.Proofs.Machine.Once
import Mil.Proofs.Optimize.Copy
import Mil.Proofs.Optimize.Inline
import Mil.Proofs.Optimize.Unused
import Mil.Proofs.Optimize.Effects
import Mil.Proofs.Rtl.Reads
import Mil.Proofs.Rtl.Supplied
import Mil.Proofs.Rtl.WritesFirst
import Mil.Proofs.Rtl.Mirror
import Mil.Proofs.Compiler
import Mil.Proofs.Rtl.Exports
import Mil.Proofs.Llvm.Apart
import Mil.Proofs.Program.Components
import Mil.Proofs.Program.Equivalence
import Mil.Proofs.Optimize.Invariants
import Mil.Proofs.Optimize.Neutral
import Mil.Proofs.Optimize.Remaining
import Mil.Proofs.Optimize.Links
import Mil.Proofs.Optimize.Fixpoint
import Mil.Proofs.Rep.Wide
import Mil.Proofs.Ty.Matching
import Mil.Proofs.Mono.Keys
import Mil.Proofs.Mono.Sharing
import Mil.Proofs.Rtl.Roots
import Mil.Proofs.Rtl.Jumps
import Mil.Proofs.Rtl.Ownership
import Mil.Proofs.Ty.Alpha
import Mil.Proofs.Machine.Range
import Mil.Proofs.Rtl.Finished
import Mil.Proofs.Program.Renaming
