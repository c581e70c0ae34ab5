import PoolMachine.Assembly
import PoolMachine.Code
import PoolMachine.CommandLine.Options
import PoolMachine.CommandLine.Report
import PoolMachine.Listing
import PoolMachine.Log
import PoolMachine.Machine.Effect
import PoolMachine.Machine.Fault
import PoolMachine.Machine.Run
import PoolMachine.Machine.Sink
import PoolMachine.Machine.State
import PoolMachine.Main
import PoolMachine.NameMap
import PoolMachine.Opcode
import PoolMachine.Program
import PoolMachine.Proofs.Acyclic
import PoolMachine.Proofs.Arguments
import PoolMachine.Proofs.BoundedSink
import PoolMachine.Proofs.ByteOrder
import PoolMachine.Proofs.CanonicalMaps
import PoolMachine.Proofs.CharacterRuns
import PoolMachine.Proofs.Command
import PoolMachine.Proofs.DebugOption
import PoolMachine.Proofs.DepthLimit
import PoolMachine.Proofs.Effects
import PoolMachine.Proofs.Emission
import PoolMachine.Proofs.ExactArithmetic
import PoolMachine.Proofs.ExactJumps
import PoolMachine.Proofs.ExitCodes
import PoolMachine.Proofs.ForwardJumps
import PoolMachine.Proofs.Grammar
import PoolMachine.Proofs.InstructionStream
import PoolMachine.Proofs.InvisibleLines
import PoolMachine.Proofs.JoinedText
import PoolMachine.Proofs.Jumps
import PoolMachine.Proofs.Layout
import PoolMachine.Proofs.Legible
import PoolMachine.Proofs.LineEndings
import PoolMachine.Proofs.ListedRun
import PoolMachine.Proofs.Numerals
import PoolMachine.Proofs.OperandTokens
import PoolMachine.Proofs.OptionGroups
import PoolMachine.Proofs.Origin
import PoolMachine.Proofs.OutputLines
import PoolMachine.Proofs.PoolGrowth
import PoolMachine.Proofs.PoolLayout
import PoolMachine.Proofs.PooledStrings
import PoolMachine.Proofs.RoundTrip
import PoolMachine.Proofs.StepLimit
import PoolMachine.Proofs.StoreHistory
import PoolMachine.Proofs.StraightRun
import PoolMachine.Proofs.Sweep
import PoolMachine.Proofs.Trace
import PoolMachine.Proofs.Turns
import PoolMachine.Proofs.UniqueListing
import PoolMachine.Proofs.UniqueProgram
import PoolMachine.Store
import PoolMachine.Text.Blank
import PoolMachine.Text.Decimal
import PoolMachine.Text.Enclosed
import PoolMachine.Text.Hidden
import PoolMachine.Text.Pieces
import PoolMachine.Text.Quoted
import PoolMachine.Token
import PoolMachine.Value
import PoolMachine.Word
