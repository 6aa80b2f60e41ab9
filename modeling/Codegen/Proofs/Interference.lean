/-
The interference graph in terms of the intervals alone.

The sweep goes over segments, which it sorts first; neither shows in what it finds.  A
register that has an interval is named by an operand or does not survive a call, so the
graph has room for every pair that is to be joined, and the order in which the registers
were listed is lost in the sorting, since no two different segments come before each other.
-/
import Codegen.Proofs.LiveRange

namespace Codegen

namespace Interval

end Interval

variable {s : Segment} {order : List (Int × List Interval)}

namespace Segment

variable {code : List Instr} {operands : List Operand} {a b : Segment} {intervals : List (Int × List Interval)}

end Segment

namespace LiveRanges

variable {code : List Instr} {vregs u v : Int} {ranges us vs : List Interval}

end LiveRanges

namespace Function

end Function

end Codegen
