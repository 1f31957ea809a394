import Comparand.Assembly
import Comparand.Binary.Format
import Comparand.Binary.Rounding
import Comparand.Binary.Word
import Comparand.CodeError
import Comparand.Command.Action
import Comparand.Command.Arguments
import Comparand.Command.Request
import Comparand.Compare.Condition
import Comparand.Compare.Lowering
import Comparand.Compare.Mutant
import Comparand.Compare.Operand
import Comparand.Compare.Relation
import Comparand.Compare.Scratch
import Comparand.Compile.Error
import Comparand.Compile.Frame
import Comparand.Compile.Knowledge
import Comparand.Compile.Scopes
import Comparand.Compile.Statement
import Comparand.Compile.Test
import Comparand.Compile.Value
import Comparand.Decimal.Layout
import Comparand.Decimal.Reader
import Comparand.Decimal.Shortest
import Comparand.Files.Basic
import Comparand.Files.Path
import Comparand.Files.Store
import Comparand.Json
import Comparand.Main
import Comparand.NodeKind
import Comparand.Proofs.Execution
import Comparand.Proofs.Memory
import Comparand.Proofs.Result
import Comparand.Proofs.Widening
import Comparand.Riscv.Fault
import Comparand.Riscv.Instr
import Comparand.Riscv.Label
import Comparand.Riscv.Machine
import Comparand.Riscv.Memory
import Comparand.Riscv.Register
import Comparand.Riscv.Routine
import Comparand.Riscv.Run
import Comparand.Source.Diagnosis
import Comparand.Source.Encoding
import Comparand.Source.Grammar
import Comparand.Source.Lexeme
import Comparand.Source.Outline
import Comparand.Source.Builder
import Comparand.Source.Syntax
import Comparand.Suite.Execution
import Comparand.Suite.Header
import Comparand.Suite.Outcome
import Comparand.Suite.Report
import Comparand.Text.Blank
import Comparand.Text.Integer
import Comparand.Text.Paint
import Comparand.Width
import Comparand.Proofs.Reading
import Comparand.Proofs.Scratch
import Comparand.Proofs.Lowering
import Comparand.Proofs.Codegen
import Comparand.Proofs.Meaning
import Comparand.Proofs.Growth
import Comparand.Proofs.WellFormed
import Comparand.Proofs.Placement
import Comparand.Proofs.SourceCost
import Comparand.Proofs.Tracking
import Comparand.Proofs.Storing
import Comparand.Proofs.Testing
import Comparand.Proofs.Simulation
import Comparand.Proofs.Correctness
import Comparand.Proofs.Folding
import Comparand.Proofs.Safety
import Comparand.Proofs.Shape
import Comparand.Proofs.Allocation
import Comparand.Proofs.Status
import Comparand.Proofs.Pruning
import Comparand.Proofs.Concrete
import Comparand.Proofs.Direct
import Comparand.Proofs.Sighting
import Comparand.Proofs.Scanning
import Comparand.Proofs.Following
import Comparand.Proofs.Building
import Comparand.Proofs.Agreement
import Comparand.Proofs.Acceptance
import Comparand.Proofs.Parsing
import Comparand.Proofs.Isolation
import Comparand.Proofs.Course
import Comparand.Proofs.Forgetting
import Comparand.Proofs.Supply
import Comparand.Proofs.Framing
import Comparand.Proofs.Flags
import Comparand.Proofs.Aliasing
import Comparand.Proofs.StepLimit
import Comparand.Proofs.Bytes
import Comparand.Proofs.Effects
import Comparand.Proofs.Lifetime
import Comparand.Proofs.Printing
import Comparand.Proofs.Legibility
import Comparand.Proofs.Coloring
import Comparand.Proofs.Outlining
import Comparand.Proofs.Carrying
import Comparand.Proofs.Joining
import Comparand.Proofs.SignedNumerals
import Comparand.Proofs.Touching
import Comparand.Proofs.NumberUses
import Comparand.Proofs.ExactConstants
import Comparand.Proofs.Holding
import Comparand.Proofs.Scoping
