import Codegen.Chain
import Codegen.Main
import Codegen.Proofs.Assignment
import Codegen.Proofs.Booking
import Codegen.Proofs.Coverage
import Codegen.Proofs.IntegerCode
import Codegen.Proofs.JumpTargets
import Codegen.Proofs.Labels
import Codegen.Proofs.LiveRange
import Codegen.Proofs.Optimal
import Codegen.Proofs.RoundTrip
import Codegen.Proofs.Select
import Codegen.Proofs.Signedness
import Codegen.Proofs.Spill
import Codegen.Proofs.Splitting
import Codegen.Proofs.StackArea
import Codegen.Proofs.Variadic
import Codegen.Proofs.ArgumentRegisters
import Codegen.Proofs.Finishing
import Codegen.Proofs.Framing
import Codegen.Proofs.ResultRegisters
import Codegen.Proofs.Stretching
import Codegen.Proofs.ConstantFolding
import Codegen.Proofs.Interference
import Codegen.Proofs.Consistency
import Codegen.Proofs.Classification
import Codegen.Proofs.PushedBytes
import Codegen.Proofs.Arguments
import Codegen.Proofs.Blocks
import Codegen.Proofs.Adjacency
import Codegen.Proofs.Expansion
