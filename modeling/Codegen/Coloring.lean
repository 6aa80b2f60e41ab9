/-
Colouring registers.

A colour is a position among the allocatable registers of a class.  The pseudo-registers
have their own registers' colours from the start.  The others are coloured one class
after the other, in three tiers: first those with at least as many neighbours of their
class as there are colours, then those with a hint, then the rest; within a tier the
ones that cost most to spill come first.

A register takes the colour it was hinted at, if no neighbour has it, and else the lowest
that no neighbour has.  If its neighbours have all of them it is spilled.
-/
import Codegen.LiveRange

namespace Codegen

structure AllocateOptions where
  /-- How many general-purpose registers to use; 0 for all. -/
  intRegisters : Int := 0
  /-- How many vector registers to use; 0 for all. -/
  sseRegisters : Int := 0
  hints : Bool := true
  deriving Repr, Inhabited

namespace AllocateOptions

def asked (o : AllocateOptions) (c : RegClass) : Int :=
  if c == .sse then o.sseRegisters else o.intRegisters

/-- The number of colours for a class. -/
def budget (o : AllocateOptions) (c : RegClass) : Nat :=
  if o.asked c = 0 then (Reg.allocatable c).length else (o.asked c).toNat

def allows (o : AllocateOptions) (c : RegClass) : Bool :=
  0 ≤ o.asked c && o.asked c ≤ (Reg.allocatable c).length

end AllocateOptions

/-- What the operands of the code say about one virtual register. -/
structure RegInfo where
  vreg : Int
  /-- The type and the class of the first operand that names it. -/
  type : Ty
  cls : RegClass
  /-- The incoming slot that already holds its value, or 0. -/
  origin : Int := 0
  /-- The register whose colour it would like, or 0. -/
  preferred : Int := 0
  deriving Repr, Inhabited

namespace RegInfo

/-- Take one more operand into account: the last origin and the first hint count. -/
def update (info : RegInfo) (v : VReg) : RegInfo :=
  { info with
    origin := if v.origin = 0 then info.origin else v.origin
    preferred := if info.preferred = 0 then v.preferred else info.preferred }

def addVReg (o : Operand) (v : VReg) : List RegInfo → List RegInfo
  | [] => [RegInfo.update ⟨v.id, o.type, o.cls, 0, 0⟩ v]
  | info :: rest => if info.vreg = v.id then info.update v :: rest else info :: addVReg o v rest

def addOperand (infos : List RegInfo) (o : Operand) : List RegInfo :=
  match o.value with
  | .vreg v => addVReg o v infos
  | _ => infos

/-- What the code says about its registers, in the order in which they appear. -/
def ofCode (code : List Instr) : List RegInfo :=
  (code.flatMap Instr.operands).foldl addOperand []

end RegInfo

structure ColorProblem where
  vregCount : Int
  infos : List RegInfo
  analysis : Analysis
  options : AllocateOptions
  deriving Inhabited

namespace ColorProblem

def info? (p : ColorProblem) (v : Int) : Option RegInfo := p.infos.find? (·.vreg = v)

def classOf (p : ColorProblem) (v : Int) : RegClass :=
  if Reg.isPseudo v then (Reg.ofPseudo v).cls
  else match p.info? v with
    | some i => i.cls
    | none => .none

def budget (p : ColorProblem) (c : RegClass) : Nat := p.options.budget c

/-- The register whose colour a register would like, or 0: analysis before the operands. -/
def hint (p : ColorProblem) (v : Int) : Int :=
  if !p.options.hints then 0
  else if p.analysis.preferredOf v ≠ 0 then p.analysis.preferredOf v
  else match p.info? v with
    | some i => i.preferred
    | none => 0

/-- The neighbours of a register that are of class `c`. -/
def rivals (p : ColorProblem) (v : Int) (c : RegClass) : List Int :=
  (p.analysis.graph.neighbors v).filter fun u => p.classOf u == c

/-! ### Order -/

/-- The ordinary registers of a class, ascending. -/
def members (p : ColorProblem) (c : RegClass) : List Int :=
  let ordinary := (List.range (p.vregCount - Reg.pseudoCount).toNat).map fun (n : Nat) =>
    (Reg.pseudoCount : Int) + 1 + n
  ordinary.filter fun v => p.classOf v == c

def isConstrained (p : ColorProblem) (c : RegClass) (v : Int) : Bool :=
  p.budget c ≤ (p.rivals v c).length

/-- Most expensive first. -/
def byCost (p : ColorProblem) (vs : List Int) : List Int :=
  vs.mergeSort fun a b => p.analysis.costOf b ≤ p.analysis.costOf a

/-- The three tiers of a class in the order of colouring. -/
structure Tiers where
  constrained : List Int
  preferred : List Int
  free : List Int

def tiers (p : ColorProblem) (c : RegClass) : Tiers :=
  let (constrained, rest) := (p.members c).partition (p.isConstrained c)
  let (preferred, free) := rest.partition fun v => p.hint v ≠ 0
  ⟨p.byCost constrained, p.byCost preferred, p.byCost free⟩

end ColorProblem

/-! ### Colours -/

abbrev Colors := List (Int × Nat)

namespace Colors

def get? (cs : Colors) (v : Int) : Option Nat := cs.lookup v

def fixed : Colors :=
  (List.range Reg.pseudoCount).filterMap fun (i : Nat) =>
    let v : Int := i + 1
    let r := Reg.ofPseudo v
    ((Reg.allocatable r.cls).idxOf? r).map fun c => (v, c)

end Colors

/-- What becomes of a register. -/
inductive Decision
  | hinted (hint : Int) (color : Nat)
  | lowest (color : Nat)
  | spill
  /-- Neither a colour nor a reason to spill. -/
  | stuck (used : Nat)
  deriving DecidableEq, Repr, Inhabited

namespace ColorProblem

def taken (p : ColorProblem) (cs : Colors) (c : RegClass) (v : Int) : List Nat :=
  (((p.rivals v c).filterMap cs.get?).filter (· < p.budget c)).eraseDups

/-- The colour a register is hinted at, if it may have it. -/
def hinted? (p : ColorProblem) (cs : Colors) (c : RegClass) (v : Int) : Option (Int × Nat) :=
  let h := p.hint v
  if h = 0 then none
  else match cs.get? h with
    | some color =>
      if color < p.budget c && !(p.taken cs c v).contains color then some (h, color) else none
    | none => none

def decide (p : ColorProblem) (cs : Colors) (c : RegClass) (v : Int) : Decision :=
  let taken := p.taken cs c v
  if p.budget c ≤ taken.length then .spill
  else match p.hinted? cs c v with
    | some (h, color) => .hinted h color
    | none =>
      match (List.range (p.budget c)).find? (!taken.contains ·) with
      | some color => .lowest color
      | none => .stuck taken.length

end ColorProblem

/-- Colouring under way. -/
structure Coloring where
  colors : Colors
  /-- The spilled registers with their slots, the last one first. -/
  spilled : List (Int × Int) := []
  /-- The function, whose slots the spilled registers take. -/
  function : Function
  deriving Inhabited

namespace Coloring

/-- The type a spilled register's slot is made for. -/
def spillType (t : Ty) : Ty := if t.isMissing || t.size ≤ 0 then .long else t

/-- Is everything known that spilling a register depends on? -/
def canSpill (info : RegInfo) : Bool :=
  info.origin ≠ 0 || info.type.isMissing ||
    (info.type.hasSize && (info.type.size ≤ 0 || info.type.hasAlign))

/-- Put a register in memory: back in the slot it came from, or else in a fresh one. -/
def spill (s : Coloring) (info : RegInfo) : Int × Coloring :=
  let (slot, f) :=
    if info.origin ≠ 0 then (info.origin, s.function)
    else
      let (_, f) := s.function.allocateSlot (spillType info.type)
      (-f.stackSlots, f)
  (slot, { s with spilled := (info.vreg, slot) :: s.spilled, function := f })

def carryOut (p : ColorProblem) (c : RegClass) (s : Coloring) (v : Int) :
    Decision → Traced Coloring
  | .hinted h color => do
    Traced.note s.function.name (.hinted v h color)
    return { s with colors := (v, color) :: s.colors }
  | .lowest color => return { s with colors := (v, color) :: s.colors }
  | .spill =>
    match p.info? v with
    | none => throw (.fault .outOfRange)
    | some info => do
      Traced.require (canSpill info) .missingType
      let (slot, s) := s.spill info
      Traced.note s.function.name (.spilled v slot (p.analysis.costOf v))
      return s
  | .stuck used => throw (.internal .regalloc (.noColor v used (p.budget c)) none)

def step (p : ColorProblem) (c : RegClass) (s : Coloring) (v : Int) : Traced Coloring :=
  carryOut p c s v (p.decide s.colors c v)

def colorClass (p : ColorProblem) (s : Coloring) (c : RegClass) : Traced Coloring := do
  let t := p.tiers c
  Traced.note s.function.name
    (.coloring c (p.budget c) t.constrained.length t.preferred.length t.free.length)
  (t.constrained ++ t.preferred ++ t.free).foldlM (step p c) s

def color (p : ColorProblem) (f : Function) : Traced Coloring := do
  let s ← colorClass p { colors := .fixed, function := f } .int
  colorClass p s .sse

end Coloring

end Codegen
