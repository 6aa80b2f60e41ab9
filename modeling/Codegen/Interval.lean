/-
Live intervals.

The code is looked at as one line of positions.  An ordinary register is live from its
first mention to its last, and from the start of the function when the first mention
is a read.  A pseudo-register carries many values, and is live from each write to the
last read of that value; a call writes every pseudo-register that does not survive it.

A backward jump makes a loop of the positions between its target and itself.  An
ordinary register whose interval meets a loop must survive the whole of it, so its
interval grows to cover the loop, and again for the loops it meets then.
-/
import Codegen.Function

namespace Codegen

structure Interval where
  first : Nat
  last : Nat
  deriving DecidableEq, Repr, Inhabited

namespace Interval

def overlaps (a b : Interval) : Bool := a.first ≤ b.last && b.first ≤ a.last

def join (a b : Interval) : Interval := ⟨min a.first b.first, max a.last b.last⟩

end Interval

/-- A register being read or written at a position. -/
structure Touch where
  vreg : Int
  pos : Nat
  writes : Bool
  deriving DecidableEq, Repr, Inhabited

namespace Touch

/-- The touches of one instruction: reads, the write, and what a call destroys. -/
def ofInstr (i : Instr) (pos : Nat) : List Touch :=
  i.reads.map (⟨·, pos, false⟩) ++ i.defined?.toList.map (⟨·, pos, true⟩) ++
    (if i.op.isCall then Reg.callerSaved.map (⟨·, pos, true⟩) else [])

def ofCode (code : List Instr) : List Touch :=
  (code.zipIdx.map fun (i, pos) => ofInstr i pos).flatten

/-- Take one more touch of a register into account; the last interval comes first. -/
def extend (segments : List Interval) (t : Touch) : List Interval :=
  match segments with
  | [] => [⟨if t.writes then t.pos else 0, t.pos⟩]
  | s :: rest =>
    if t.writes && Reg.isPseudo t.vreg then ⟨t.pos, t.pos⟩ :: s :: rest
    else { s with last := t.pos } :: rest

def segments (touches : List Touch) : List Interval := (touches.foldl extend []).reverse

end Touch

namespace Interval

/-! ### Loops -/

def labelPosition? (code : List Instr) (label : Int) : Option Nat :=
  (code.zipIdx.reverse.find? fun (i, _) => i.label != 0 && i.label == label).map (·.2)

/-- The loops of the code: from the target of each backward jump to the jump. -/
def loops (code : List Instr) : List Interval :=
  code.zipIdx.filterMap fun (i, pos) =>
    match i.jumpTarget?.bind (labelPosition? code) with
    | some head => if head ≤ pos then some ⟨head, pos⟩ else none
    | none => none

def cover (s loop : Interval) : Interval := if s.overlaps loop then s.join loop else s

/-- Cover every loop that is met, once around. -/
def coverAll (loops : List Interval) (s : Interval) : Interval := loops.foldl cover s

/-- Go around until nothing changes, at most `n` times. -/
def stretchWithin (loops : List Interval) : Nat → Interval → Interval
  | 0, s => s
  | n + 1, s =>
    let grown := coverAll loops s
    if grown = s then s else stretchWithin loops n grown

/-- Cover all loops that are met, also those met only after growing.  Each time around that changes
anything covers one more loop for good. -/
def stretch (loops : List Interval) (s : Interval) : Interval :=
  stretchWithin loops loops.length s

/-! ### All registers -/

def dedupSorted : List Int → List Int
  | [] => []
  | [a] => [a]
  | a :: b :: rest => if a = b then dedupSorted (b :: rest) else a :: dedupSorted (b :: rest)

def registers (touches : List Touch) : List Int :=
  dedupSorted ((touches.map (·.vreg)).mergeSort (· ≤ ·))

def ofRegister (touches : List Touch) (loops : List Interval) (v : Int) : List Interval :=
  let own := Touch.segments (touches.filter (·.vreg == v))
  if Reg.isPseudo v then own
  else match own with
    | s :: rest => stretch loops s :: rest
    | [] => []

def ofCode (code : List Instr) : List (Int × List Interval) :=
  let touches := Touch.ofCode code
  let loops := loops code
  (registers touches).map fun v => (v, ofRegister touches loops v)

end Interval

end Codegen
