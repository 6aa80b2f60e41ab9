/-
Instructions.

An instruction is an operation with at most one destination and two sources.  A
non-zero label makes it a jump target.  Once instruction selection has picked a
machine operation the template is set, and from then on only the locations of the
operands change.
-/
import Codegen.Opcode
import Codegen.Operand
import Codegen.Template

namespace Codegen

structure Instr where
  op : Opcode
  label : Int := 0
  dst : Option Operand := none
  src1 : Option Operand := none
  src2 : Option Operand := none
  template : Template := .empty
  deriving Repr, Inhabited

namespace Instr

def ir (op : IrOp) (dst src1 src2 : Option Operand) : Instr :=
  { op := .ir op, dst := dst, src1 := src1, src2 := src2 }

def target (label : Int) : Instr := { op := .ir .nop, label := label }

def operands (i : Instr) : List Operand := [i.dst, i.src1, i.src2].filterMap id

def sources (i : Instr) : List Operand := [i.src1, i.src2].filterMap id

def mapOperands (f : Operand → Operand) (i : Instr) : Instr :=
  { i with dst := i.dst.map f, src1 := i.src1.map f, src2 := i.src2.map f }

/-- The virtual register the instruction writes.  A store through a pointer writes none, and number
0 names no register. -/
def defined? (i : Instr) : Option Int :=
  if i.op.storesThroughDst then none else (i.dst.bind (·.vregId?)).filter (· != 0)

/-- The virtual registers the instruction reads, sources first; a store reads its pointer. -/
def used (i : Instr) : List Int :=
  i.sources.filterMap (·.vregId?) ++
    (if i.op.storesThroughDst then (i.dst.bind (·.vregId?)).toList else [])

/-- Does the instruction read its destination as well?  Division finds the dividend there. -/
def readsDst (i : Instr) : Bool := i.op == .machine .div || i.op == .machine .idiv

/-- The virtual registers whose values the instruction needs. -/
def reads (i : Instr) : List Int :=
  i.used ++ (if i.readsDst then (i.dst.bind (·.vregId?)).toList else [])

def jumpTarget? (i : Instr) : Option Int :=
  if i.op.isJump then
    i.sources.findSome? fun o =>
      match o.value with
      | .label n => some n
      | _ => none
  else none

/-- The two registers of a copy from one virtual register to another: target and source. -/
def copy? (i : Instr) : Option (Int × Int) :=
  if i.op.isMove then
    match i.dst.bind (·.vregId?), i.src1.bind (·.vregId?) with
    | some d, some s => some (d, s)
    | _, _ => none
  else none

/-- An instruction on one line, without its label. -/
def text (i : Instr) : String :=
  let target := match i.dst with
    | some d => if i.op.storesThroughDst then "" else d.text ++ " = "
    | none => ""
  let pointer := match i.dst with
    | some d => if i.op.storesThroughDst then ["*" ++ d.text] else []
    | none => []
  let args := pointer ++ i.sources.map (·.text)
  let args := if args.isEmpty then "" else " " ++ ", ".intercalate args
  let template := if i.template.isEmpty then "" else " [" ++ i.template.flatText ++ "]"
  target ++ i.op.text ++ args ++ template

end Instr

end Codegen
