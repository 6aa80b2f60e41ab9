/-
Lowering a function to explicit moves.

Parameters, calls, returns and variable arguments become moves between virtual
registers, memory and the pseudo-registers of the convention; everything else stays
as it is.
-/
import Codegen.Calling.VarArgs

namespace Codegen
namespace Lowering

def markAddressTaken (f : Function) : List Bool :=
  let padded := f.addressTaken ++ List.replicate (f.params.length - f.addressTaken.length) false
  f.code.foldl
    (fun marks i =>
      match i.op, i.src1.map Operand.value with
      | .ir .addressOf, some (.param n) => if n < 0 then marks else marks.set n.toNat true
      | _, _ => marks)
    padded

/-- Replace a parameter by its home.  An offset into a parameter is kept only in memory. -/
def replaceParam (homes : List Operand) (o : Operand) : Except LowerError Operand :=
  match o.value with
  | .param n =>
    match (if n < 0 then none else homes[n.toNat]?) with
    | none => .error (.parameterRange n)
    | some home =>
      let offset := match home.value with
        | .slot _ => home.offset + o.offset
        | _ => home.offset
      .ok { home with offset := offset, type := o.type }
  | _ => .ok o

def replaceIn (o : Option Operand) : LowerM (Option Operand) := do
  match o with
  | none => return none
  | some o =>
    match replaceParam (← get).entry.homes o with
    | .ok o => return some o
    | .error cause => refuse cause

def replaceParams (i : Instr) : LowerM Instr := do
  let dst ← replaceIn i.dst
  let src1 ← replaceIn i.src1
  let src2 ← replaceIn i.src2
  return { i with dst := dst, src1 := src1, src2 := src2 }

def collectArg (i : Instr) (v : Operand) : LowerM Unit := do
  match i.src1.map Operand.value with
  | some (.const id) =>
    modify fun s => { s with args := s.args ++ [(id, v)] }
    if i.label != 0 then label i.label
  | _ => refuse .argWithoutCall

def lowerExpanded (i : Instr) : LowerM Unit :=
  match i.op with
  | .ir .ret => lowerReturn i
  | .ir .call => lowerCall i
  | .ir .vaStart => lowerVaStart i
  | _ => lowerVaArg i

/-- Lower one instruction.  What becomes several instructions has its label in front of them. -/
def lowerInstr (i : Instr) : LowerM Unit := do
  let i ← replaceParams i
  match i.op, i.src2 with
  | .ir .arg, some v => collectArg i v
  | op, _ =>
    match op with
    | .ir .ret | .ir .call | .ir .vaStart | .ir .vaArg =>
      if i.label != 0 then label i.label
      lowerExpanded { i with label := 0 }
    | _ => append i

def lowerBody : LowerM Unit := do
  lowerEntry
  (← get).fn.code.forM lowerInstr

end Lowering

namespace Function

def lower (f : Function) : Traced (Entry × Function) := do
  if f.params.length > Lowering.maxArgs then
    throw (.within f.name (.lower (.tooManyParameters f.params.length)))
  let f := { f with addressTaken := Lowering.markAddressTaken f }
  let (_, s) ← Lowering.lowerBody.run { fn := f }
  return (s.entry, { s.fn with code := s.out.toList })

end Function

end Codegen
