/-
Spill code.

An instruction cannot work on a spilled register directly.  Its sources are loaded into
scratch registers just before it, the first source into the first scratch register of
its class and the second into the second, and its result is stored just after it.  A
result that is also a source stays in that source's scratch register, so that the
instruction still updates in place.
-/
import Codegen.Ty.Layout
import Codegen.Traced

namespace Codegen

namespace Operand

def spilled? (o : Operand) : Option VReg :=
  match o.value with
  | .vreg v => if v.spilled then some v else none
  | _ => none

/-- The scratch register that stands for the first source. -/
def firstScratch (o : Operand) : Operand :=
  .preg (if o.cls == .sse then Reg.sseScratch.1 else Reg.intScratch.1) o.type

/-- The scratch register that stands for the second source. -/
def secondScratch (o : Operand) : Operand :=
  .preg (if o.cls == .sse then Reg.sseScratch.2 else Reg.intScratch.2) o.type

def sameVReg (a : Operand) (b : Option Operand) : Bool :=
  match a.vregId?, b.bind (·.vregId?) with
  | some v, some w => v == w
  | _, _ => false

/-- The template of a move between the slot and the scratch register of an operand. -/
def moveTemplate (o : Operand) : Template :=
  if o.cls == .sse then
    .ofString (if o.width = 4 then "movss\t%v1, %vd" else "movsd\t%v1, %vd")
  else
    (Template.ofString "mov%s\t%v1, %vd").expand
      (UInt8.ofNat (IntWidth.ofBytes o.width).letter.toNat)

end Operand

namespace Instr

def reload (o : Operand) (v : VReg) (reg : Operand) : Instr :=
  { op := .machine .mov, dst := some reg, src1 := some (.slot v.slot o.type)
    template := o.moveTemplate }

def store (o : Operand) (v : VReg) (reg : Option Operand) : Instr :=
  { op := .machine .mov, dst := some (.slot v.slot o.type), src1 := reg
    template := o.moveTemplate }

end Instr

/-- An instruction with the loads before it and the stores after it. -/
structure Spilling where
  loads : List Instr := []
  instr : Instr
  stores : List Instr := []
  deriving Repr, Inhabited

namespace Spilling

/-- The scratch register for a source and the load into it, if the source is spilled. -/
def source (scratch : Operand → Operand) (o : Option Operand) :
    Option (Operand × Instr) :=
  o.bind fun o => o.spilled?.map fun v => (scratch o, .reload o v (scratch o))

/-- An instruction whose destination is spilled, given the scratch registers of its sources. -/
def withDst (i : Instr) (d : Operand) (v : VReg) (first second : Option (Operand × Instr)) :
    Except InternalError Spilling :=
  let loads := [first, second].filterMap (·.map (·.2))
  if i.op.storesThroughDst then
    -- The destination is the pointer: it is read and not written.
    if second.isSome then .error .noScratchForPointer
    else
      let reg := d.secondScratch
      .ok ⟨loads ++ [.reload d v reg], { i with dst := some reg }, []⟩
  else if d.sameVReg i.src1 then
    let reg := first.map (·.1)
    .ok ⟨loads, { i with dst := reg }, [.store d v reg]⟩
  else if d.sameVReg i.src2 then
    let reg := second.map (·.1)
    .ok ⟨loads, { i with dst := reg }, [.store d v reg]⟩
  else if second.isSome then .error .allSpilled
  else
    let reg := some d.secondScratch
    .ok ⟨loads, { i with dst := reg }, [.store d v reg]⟩

/-- An instruction's label goes to its first load. -/
def moveLabel (s : Spilling) : Spilling :=
  match s.loads with
  | [] => s
  | load :: rest =>
    if s.instr.label = 0 then s
    else
      { s with
        loads := { load with label := s.instr.label } :: rest
        instr := { s.instr with label := 0 } }

def ofInstr (i : Instr) : Except InternalError Spilling := do
  let first := source (·.firstScratch) i.src1
  let second := source (·.secondScratch) i.src2
  let s ← match i.dst.bind fun d => d.spilled?.map fun v => (d, v) with
    | some (d, v) => withDst i d v first second
    | none => .ok ⟨[first, second].filterMap (·.map (·.2)), i, []⟩
  let instr :=
    { s.instr with
      src1 := (first.map (·.1)).or s.instr.src1
      src2 := (second.map (·.1)).or s.instr.src2 }
  return moveLabel { s with instr := instr }

def added (s : Spilling) : Nat := s.loads.length + s.stores.length

def code (s : Spilling) : List Instr := s.loads ++ s.instr :: s.stores

/-- The code with spill code added, and the number of instructions added. -/
def addTo (name : String) : List Instr → Traced (List Instr × Nat)
  | [] => pure ([], 0)
  | i :: rest =>
    match ofInstr i with
    | .error cause => throw (.internal .spill cause (some i))
    | .ok s => do
      if s.added > 0 then
        Traced.note name (.spillCode s.instr s.loads.length s.stores.length)
      let (code, added) ← addTo name rest
      return (s.code ++ code, s.added + added)

end Spilling

namespace Function

def addSpillCode (f : Function) : Traced (Nat × Function) := do
  let (code, added) ← Spilling.addTo f.name f.code
  return (added, { f with code := code })

end Function

end Codegen
