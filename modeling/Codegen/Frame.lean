/-
The stack frame.

The frame base points at the caller's frame base, with the return address and the
incoming arguments above it.  Stack index n names the eight bytes at distance 8n from
the frame base.  Below it come the locals and spill slots, then padding that keeps the
stack pointer a multiple of sixteen at calls, then the callee-saved registers that the
function uses.
-/
import Codegen.Assignment

namespace Codegen

structure Frame where
  localSize : Int64
  /-- Bytes of incoming arguments that the code reads. -/
  incomingSize : Int64
  padding : Int64
  /-- The callee-saved registers that the code uses, in the order they are pushed. -/
  calleeSaved : List Reg
  leaf : Bool
  deriving Repr, Inhabited

namespace Frame

def slotSize : Int64 := 8

/-- The distance of a stack index from the frame base. -/
def slotOffset (index : Int) : Int64 := Int64.ofInt index * slotSize

def roundUp (n multiple : Int64) : Int64 := (n + multiple - 1) / multiple * multiple

def allocSize (f : Frame) : Int64 := f.localSize + f.padding

/-! ### Layout -/

/-- The bytes that the operands of a function reach. -/
structure Extent where
  /-- How far below the frame base. -/
  below : Int64 := 0
  /-- How far into the incoming arguments. -/
  incoming : Int64 := 0
  deriving Repr, Inhabited

/-- Take one operand into account.  The slots of the saved frame are out of bounds. -/
def addOperand (e : Extent) (o : Operand) : Except InternalError Extent :=
  match Instr.slotOf? o with
  | none => .ok e
  | some index =>
    let start := slotOffset index + o.offset
    if index < 0 then .ok { e with below := max e.below (-start) }
    else if index ≥ 2 then
      .ok { e with incoming := max e.incoming (start + o.width - 2 * slotSize) }
    else .error (.savedFrame index)

def addInstr (e : Extent) (i : Instr) : Except Failure Extent :=
  match i.operands.foldlM addOperand e with
  | .ok e => .ok e
  | .error cause => .error (.internal .stacking cause (some i))

def usedCalleeSaved (code : List Instr) : List Reg :=
  let used := (code.flatMap Instr.operands).map (·.location)
  Reg.calleeSaved.filter used.contains

def ofFunction (f : Function) : Except Failure Frame := do
  let e ← f.code.foldlM addInstr {}
  let localSize := roundUp (max (Int64.ofInt f.stackSlots * slotSize) e.below) slotSize
  let saved := usedCalleeSaved f.code
  let leaf := !f.code.any (·.op.isCall)
  let used := localSize + Int64.ofNat saved.length * slotSize
  return {
    localSize := localSize
    incomingSize := e.incoming
    padding := if leaf then 0 else roundUp used 16 - used
    calleeSaved := saved
    leaf := leaf }

/-! ### Entering and leaving -/

/-- A physical register as a whole. -/
def reg (r : Reg) : Operand := .preg r .long

def machine (op : MachineOp) (dst src : Option Operand) (template : String) : Instr :=
  { op := .machine op, dst := dst, src1 := src, template := .ofString template }

def push (r : Reg) : Instr := machine .push none (reg r) "pushq\t%v1q"

def pop (r : Reg) : Instr := machine .pop (reg r) none "popq\t%vdq"

/-- Set up the frame: save the caller's frame base, reserve the local bytes, and push the
callee-saved registers. -/
def prologue (f : Frame) : List Instr :=
  [push .rbp, machine .mov (reg .rbp) (reg .rsp) "movq\t%v1q, %vdq"] ++
    (if f.allocSize > 0 then
      [machine .stack (reg .rsp) (Operand.const f.allocSize .long) "subq\t$%v1q, %vdq"]
     else []) ++
    f.calleeSaved.map push

/-- Undo the frame: point at the pushed registers again, wherever the stack pointer is now, pop them
in reverse, and restore the caller's frame base. -/
def epilogue (f : Frame) : List Instr :=
  let below := -(f.allocSize + Int64.ofNat f.calleeSaved.length * slotSize)
  (if f.calleeSaved.isEmpty then []
   else [machine .lea (reg .rsp) (Operand.const below .long) "leaq\t%v1(%%rbp), %vdq"]) ++
    f.calleeSaved.reverse.map pop ++ [machine .stack none none "leave"]

/-- Code to which a label has moved. -/
def labelled (label : Int) : List Instr → List Instr
  | [] => []
  | i :: rest => if label = 0 then i :: rest else { i with label := label } :: rest

/-- Put the epilogue before a return, which hands its label over. -/
def leave (f : Frame) (i : Instr) : List Instr :=
  if i.op == .machine .ret then labelled i.label f.epilogue ++ [{ i with label := 0 }] else [i]

def wrap (f : Frame) (code : List Instr) : List Instr := f.prologue ++ code.flatMap f.leave

end Frame

namespace Function

/-- Lay out the frame of a function and wrap its code in it. -/
def addFrame (f : Function) : Traced (Frame × Function) := do
  let frame ← Traced.ofExcept (Frame.ofFunction f)
  let returns := f.code.countP (·.op == .machine .ret)
  Traced.note f.name (.frame frame.localSize frame.padding frame.calleeSaved.length returns)
  return (frame, { f with code := frame.wrap f.code })

end Function

end Codegen
