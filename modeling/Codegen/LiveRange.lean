/-
What the register allocator needs to know.

Two registers of one class interfere when intervals of theirs overlap, except that a
copy at the last read of its source does not make source and target interfere.  The
cost of spilling a register is the number of operands that name it.  A register that
is copied to or from a pseudo-register would like to have its colour.
-/
import Codegen.Graph
import Codegen.Interval
import Codegen.Traced

namespace Codegen

/-- The facts about the registers 0 to n-1. -/
structure Analysis where
  graph : Graph
  cost : Array Int
  /-- The register, usually a pseudo-register, whose colour each would like; 0 for none. -/
  preferred : Array Int
  deriving Repr, Inhabited

namespace Analysis

def empty (n : Int) : Analysis :=
  ⟨.empty n, Array.replicate n.toNat 0, Array.replicate n.toNat 0⟩

/-- Is this one of the registers? -/
def covers (a : Analysis) (v : Int) : Bool := 0 ≤ v && v < a.cost.size

def costOf (a : Analysis) (v : Int) : Int := if v < 0 then 0 else a.cost.getD v.toNat 0

def preferredOf (a : Analysis) (v : Int) : Int := if v < 0 then 0 else a.preferred.getD v.toNat 0

def countOperand (a : Analysis) (v : Int) : Analysis :=
  { a with cost := a.cost.modify v.toNat (· + 1) }

/-- Let `v` prefer `p`, unless it prefers something already. -/
def prefer (a : Analysis) (v p : Int) : Analysis :=
  if a.preferredOf v = 0 then { a with preferred := a.preferred.setIfInBounds v.toNat p } else a

/-- Let an ordinary register prefer a pseudo-register. -/
def hint (a : Analysis) (v p : Int) : Analysis :=
  if !Reg.isPseudo v && Reg.isPseudo p then a.prefer v p else a

def addOperand (a : Analysis) (o : Operand) : Analysis :=
  match o.value with
  | .vreg r =>
    let a := a.countOperand r.id
    if r.preferred = 0 then a else a.prefer r.id r.preferred
  | _ => a

def addInstr (a : Analysis) (i : Instr) : Analysis :=
  let a := i.operands.foldl addOperand a
  match i.copy? with
  | some (d, s) => (a.hint d s).hint s d
  | none => a

end Analysis

/-- An interval of a register, with the class of the register. -/
structure Segment where
  vreg : Int
  cls : RegClass
  range : Interval
  deriving DecidableEq, Repr, Inhabited

namespace Segment

/-- Where the sweep meets a segment: by start, then register, then end. -/
def before (a b : Segment) : Bool :=
  if a.range.first ≠ b.range.first then a.range.first < b.range.first
  else if a.vreg ≠ b.vreg then a.vreg < b.vreg
  else a.range.last ≤ b.range.last

/-- Does `a` end exactly where `b` begins, at a copy of the first register into the second? -/
def copiedInto (code : Array Instr) (a b : Segment) : Bool :=
  a.range.last == b.range.first &&
    match code[b.range.first]? with
    | some i =>
      i.op.isMove && i.defined?.getD 0 == b.vreg && i.src1.bind (·.vregId?) == some a.vreg
    | none => false

/-- Do two segments that are live together make their registers interfere? -/
def conflicts (code : Array Instr) (a s : Segment) : Bool :=
  a.vreg != s.vreg && a.cls == s.cls && !(Reg.isPseudo a.vreg && Reg.isPseudo s.vreg) &&
    !copiedInto code a s && !copiedInto code s a

/-- Sweep over the segments in order; `active` are those met earlier that may still be live. -/
def sweep (code : Array Instr) (g : Graph) : List Segment → List Segment → Graph
  | _, [] => g
  | active, s :: rest =>
    let active := active.filter fun a => a.range.last ≥ s.range.first
    let g := active.foldl
      (fun g a => if conflicts code a s then g.addEdge a.vreg s.vreg else g) g
    sweep code g (active ++ [s]) rest

/-- The class of a register: that of the first operand that names it. -/
def classOf (operands : List Operand) (v : Int) : RegClass :=
  if Reg.isPseudo v then (Reg.ofPseudo v).cls
  else match operands.find? fun o => o.vregId? == some v with
    | some o => o.cls
    | none => .none

def ofIntervals (operands : List Operand) (intervals : List (Int × List Interval)) :
    List Segment :=
  (intervals.flatMap fun (v, ranges) =>
    let c := classOf operands v
    ranges.map fun r => ⟨v, c, r⟩).mergeSort before

end Segment

structure LiveRanges where
  intervals : List (Int × List Interval)
  analysis : Analysis
  deriving Repr, Inhabited

namespace LiveRanges

def ofCode (code : List Instr) (vregs : Int) : LiveRanges :=
  let intervals := Interval.ofCode code
  let facts := code.foldl Analysis.addInstr (.empty (vregs + 1))
  let segments := Segment.ofIntervals (code.flatMap Instr.operands) intervals
  ⟨intervals, { facts with graph := Segment.sweep code.toArray facts.graph [] segments }⟩

/-- Is every register that the code names among those up to `vregs`? -/
def inRange (code : List Instr) (vregs : Int) : Bool :=
  0 ≤ vregs + 1 &&
    (code.flatMap Instr.operands).all fun o =>
      match o.vregId? with
      | some v => 0 ≤ v && v ≤ vregs
      | none => true

def count (r : LiveRanges) : Nat := (r.intervals.flatMap (·.2)).length

end LiveRanges

namespace Function

def liveRanges (f : Function) : Traced LiveRanges := do
  Traced.require (LiveRanges.inRange f.code f.vregCount) .outOfRange
  let r := LiveRanges.ofCode f.code f.vregCount
  Traced.note f.name (.liveness r.intervals.length r.count)
  return r

end Function

end Codegen
