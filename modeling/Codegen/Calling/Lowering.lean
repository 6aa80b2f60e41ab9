/-
Building lowered code.

Lowering reads the code of a function once and writes new code beside it.  `Build`
is a step that always succeeds: it emits instructions and hands out registers,
labels and slots.  `LowerM` may also fail, and leaves events in the trace.
-/
import Codegen.Calling.Placement
import Codegen.Traced

namespace Codegen

/-- What is known about a function after its entry was lowered. -/
structure Entry where
  /-- The registers and stack bytes that the parameters take. -/
  params : Allocation := .arguments
  /-- Where each parameter lives after the entry: a register, a local slot or its incoming slot. -/
  homes : List Operand := []
  /-- The register with the address of the result, for a result in memory. -/
  hidden : Option Operand := none
  /-- The area that keeps the argument registers of a variadic function. -/
  saveArea : Option Operand := none
  gpOffset : Int64 := 0
  fpOffset : Int64 := 0
  /-- The bytes of named parameters on the stack. -/
  namedStack : Int64 := 0
  deriving Repr, Inhabited

structure Lowering where
  /-- The function, with its code as it was and its counters as they are now. -/
  fn : Function
  out : Array Instr := #[]
  entry : Entry := {}
  /-- The arguments seen so far, each with the number of its call. -/
  args : List (Int64 × Operand) := []
  deriving Inhabited

/-- A step of lowering that cannot fail. -/
abbrev Build := StateM Lowering

abbrev LowerM := StateT Lowering Traced

instance : MonadLift Build LowerM where
  monadLift b := modifyGet b.run

namespace Lowering

/-! ### Emitting -/

def append (i : Instr) : Build Unit := modify fun s => { s with out := s.out.push i }

def emit (op : IrOp) (dst src1 src2 : Option Operand) : Build Unit :=
  append (Instr.ir op dst src1 src2)

def move (dst src : Operand) : Build Unit := emit .move dst src none

def label (n : Int) : Build Unit := append (.target n)

def freshReg (t : Ty) : Build Operand :=
  modifyGet fun s =>
    let (o, fn) := s.fn.freshVReg t
    (o, { s with fn := fn })

def freshLabel : Build Int :=
  modifyGet fun s =>
    let (n, fn) := s.fn.freshLabel
    (n, { s with fn := fn })

def freshSlot (t : Ty) : Build Operand :=
  modifyGet fun s =>
    let (o, fn) := s.fn.allocateSlot t
    (o, { s with fn := fn })

def compute (op : IrOp) (t : Ty) (src1 src2 : Option Operand) : Build Operand := do
  let r ← freshReg t
  emit op r src1 src2
  return r

/-! ### Failing -/

/-- Fail, naming the function. -/
def refuse {α : Type} (cause : LowerError) : LowerM α := do
  throw (.within (← get).fn.name (.lower cause))

def require (ok : Bool) (fault : Fault) : LowerM Unit :=
  if ok then pure () else throw (.fault fault)

def note (n : Note) : LowerM Unit := do
  Traced.note (← get).fn.name n

/-! ### Registers of the convention -/

def pseudo (r : Reg) (t : Ty) : Operand := .vreg r.pseudo t

def argRegister : Place → Reg
  | .int n => Reg.intArgs.getD n .none
  | .sse n => Reg.sseArgs.getD n .none
  | .stack _ _ => .none

def resultRegister : Place → Reg
  | .int n => Reg.intResults.getD n .none
  | .sse n => Reg.sseResults.getD n .none
  | .stack _ _ => .none

end Lowering

end Codegen
