/-
Where registers live.

After colouring, every virtual register has a home: a physical register or a stack slot.
The homes are written into the operands, and moves that copy a home onto itself are
removed; one that carries a label leaves an empty instruction behind.
-/
import Codegen.Coloring

namespace Codegen

/-- Where a virtual register lives. -/
inductive Home
  | register (r : Reg)
  | slot (index : Int)
  deriving DecidableEq, Repr, Inhabited

namespace Home

def text : Home → String
  | .register r => "%" ++ r.text
  | .slot index => "S[" ++ toString index ++ "]"

def settle (v : VReg) : Home → VReg
  | .register r => { v with reg := r, spilled := false }
  | .slot index => { v with reg := .none, spilled := true, slot := index }

end Home

structure Assignment where
  homes : List (Int × Home)
  /-- The registers in memory, in the order they were spilled. -/
  spilled : List Int
  /-- How many moves were removed. -/
  removedMoves : Nat := 0
  deriving Repr, Inhabited

namespace Assignment

def home? (a : Assignment) (v : Int) : Option Home := a.homes.lookup v

/-- The homes that a colouring gives. -/
def ofColoring (p : ColorProblem) (s : Coloring) : Assignment :=
  let inRegisters := s.colors.filterMap fun (v, color) =>
    (Reg.allocatable (p.classOf v))[color]?.map fun r => (v, Home.register r)
  let inMemory := s.spilled.map fun (v, slot) => (v, Home.slot slot)
  { homes := inRegisters ++ inMemory, spilled := (s.spilled.map (·.1)).reverse }

/-- The homes of the ordinary registers, ascending. -/
def ordinary (a : Assignment) : List (Int × Home) :=
  (a.homes.filter fun (v, _) => !Reg.isPseudo v).mergeSort fun x y => x.1 ≤ y.1

/-- An operand with its home, or the register that has none. -/
def settleOperand (a : Assignment) (o : Operand) : Except Int Operand :=
  match o.value with
  | .vreg v =>
    match a.home? v.id with
    | some h => .ok { o with value := .vreg (h.settle v) }
    | none => .error v.id
  | _ => .ok o

/-- The operand in one place of an instruction, with its home. -/
def settlePlace (a : Assignment) : Option Operand → Except Int (Option Operand)
  | some o => (a.settleOperand o).map some
  | none => .ok none

/-- Report a register without a home, at the instruction as far as it is settled. -/
def demand (i : Instr) : Except Int (Option Operand) → Traced (Option Operand)
  | .ok o => pure o
  | .error v => throw (.internal .regalloc (.noLocation v) (some i))

/-- An instruction with the homes of its operands. -/
def settleInstr (a : Assignment) (i : Instr) : Traced Instr := do
  let dst ← demand i (a.settlePlace i.dst)
  let i := { i with dst := dst }
  let src1 ← demand i (a.settlePlace i.src1)
  let i := { i with src1 := src1 }
  let src2 ← demand i (a.settlePlace i.src2)
  return { i with src2 := src2 }

end Assignment

namespace Instr

/-- The stack slot a value lives in: its own or the one it was spilled to. -/
def slotOf? (o : Operand) : Option Int :=
  match o.value with
  | .slot index => some index
  | .vreg v => if v.spilled then some v.slot else none
  | _ => none

/-- Does a move copy a home onto itself? -/
def isSelfMove (i : Instr) : Bool :=
  match i.op, i.dst, i.src1 with
  | .machine .mov, some d, some s =>
    match d.value, s.value with
    | .vreg v, .vreg w =>
      if v.spilled then w.spilled && w.slot == v.slot && s.offset == 0
      else !w.spilled && w.reg == v.reg
    | .vreg v, .slot index => v.spilled && index == v.slot && s.offset == 0
    | _, _ => false
  | _, _, _ => false

/-- What is left of a move that is removed. -/
def remains (i : Instr) : List Instr := if i.label = 0 then [] else [.target i.label]

end Instr

namespace Function

/-- Remove the moves that copy a home onto itself; also how many there were. -/
def dropSelfMoves (name : String) : List Instr → Traced (List Instr × Nat)
  | [] => pure ([], 0)
  | i :: rest => do
    if i.isSelfMove then
      Traced.note name (.selfMove i)
      let (code, n) ← dropSelfMoves name rest
      return (i.remains ++ code, n + 1)
    else
      let (code, n) ← dropSelfMoves name rest
      return (i :: code, n)

def checkBudget (f : Function) (a : Analysis) (options : AllocateOptions) :
    Except Failure Unit :=
  if !options.allows .int then .error (.budget (.outOfRange (options.asked .int) .int))
  else if !options.allows .sse then .error (.budget (.outOfRange (options.asked .sse) .sse))
  else if a.graph.size ≤ f.vregCount then
    .error (.budget (.graphTooSmall (a.graph.size - 1) f.vregCount))
  else .ok ()

def allocate (f : Function) (a : Analysis) (options : AllocateOptions) :
    Traced (Assignment × Function) := do
  Traced.ofExcept (f.checkBudget a options)
  let p : ColorProblem := ⟨f.vregCount, RegInfo.ofCode f.code, a, options⟩
  let s ← Coloring.color p f
  let homes := Assignment.ofColoring p s
  let code ← f.code.mapM homes.settleInstr
  let (code, removed) ← dropSelfMoves f.name code
  return ({ homes with removedMoves := removed }, { s.function with code := code })

end Function

end Codegen
