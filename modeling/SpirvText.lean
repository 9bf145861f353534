import SpirvText.Command.Folder
import SpirvText.Main
import SpirvText.Proofs.Flow.BlockOrder
import SpirvText.Proofs.Instruction.Constants
import SpirvText.Proofs.Module.Comments
import SpirvText.Proofs.Module.Conservation
import SpirvText.Proofs.Module.Grammar
import SpirvText.Proofs.Module.RoundTrip
import SpirvText.Proofs.Module.WrittenLine
import SpirvText.Proofs.Pipeline.Idempotence
import SpirvText.Proofs.Pipeline.Validity
import SpirvText.Proofs.Flow.ImmediateDominators
import SpirvText.Proofs.Flow.Completion
import SpirvText.Proofs.Pipeline.Acceptance
import SpirvText.Proofs.Module.Names
import SpirvText.Proofs.Instruction.Integers
import SpirvText.Proofs.Text.Delimiting
import SpirvText.Proofs.Token.SymbolText
import SpirvText.Proofs.Module.Constants
import SpirvText.Proofs.Number.Shifts
import SpirvText.Proofs.Instruction.Halves
import SpirvText.Proofs.Module.ErrorLines
import SpirvText.Proofs.Flow.DepthFirst
import SpirvText.Proofs.Command.Clauses
import SpirvText.Proofs.Command.Saving
