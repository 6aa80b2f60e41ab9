/-
The entry of a function.

Each parameter is given a home: a fresh register, a local slot when its address is
taken or it is an aggregate, or the stack slot it came in.  A variadic function also
saves the argument registers that no named parameter took, the vector ones only when
the caller says that it used some.
-/
import Codegen.Calling.Copy

namespace Codegen
namespace Lowering

/-- The size of the area that keeps the argument registers. -/
def saveAreaSize : Int64 := 176

/-- Where the vector registers start in that area. -/
def sseSaveStart : Nat := 48

/-- The stack index of bytes in the argument area: above the return address and the saved frame
pointer. -/
def incomingIndex (offset : Int64) : Int := ((16 + offset) >>> 3).toInt

def stackHome (t : Ty) (addressTaken : Bool) (offset : Int64) : Build Operand := do
  let index := incomingIndex offset
  let slot := Operand.slot index t
  if t.isAggregate || t.isLongDouble || addressTaken then return slot
  else
    let v ← freshReg t
    let v := match v.value with
      | .vreg r => { v with value := .vreg { r with origin := index } }
      | _ => v
    move v slot
    return v

def registerHome (t : Ty) (addressTaken : Bool) (place : Place) : Build Operand := do
  let home ← if addressTaken then freshSlot t else freshReg t
  move home (pseudo (argRegister place) t)
  return home

def aggregateHome (t : Ty) (p : Placement) : Build Operand := do
  let slot ← freshSlot t
  storeEightbytes slot p argRegister
  return slot

def paramHome (t : Ty) (addressTaken : Bool) (p : Placement) : LowerM Operand :=
  match p.stackOffset? with
  | some offset => stackHome t addressTaken offset
  | none =>
    match p.locations with
    | [] => freshSlot t
    | l :: _ =>
      if t.isAggregate then aggregateHome t p
      else match l.place with
        | .stack _ _ => throw (.fault .outOfRange)
        | place => registerHome t addressTaken place

def lowerParam (index : Nat) (t : Ty) (addressTaken : Bool) : LowerM Unit := do
  require (Allocation.canAdd t) .missingType
  let (p, params) := (← get).entry.params.add t
  modify fun s => { s with entry := { s.entry with params := params } }
  let home ← paramHome t addressTaken p
  modify fun s => { s with entry := { s.entry with homes := s.entry.homes ++ [home] } }
  note (.param index t home p.locations.length)

def lowerParams : Nat → List (Ty × Bool) → LowerM Unit
  | _, [] => pure ()
  | index, (t, addressTaken) :: rest => do
    lowerParam index t addressTaken
    lowerParams (index + 1) rest

/-- Keep the address of a result that goes to memory. -/
def lowerHidden : LowerM Unit := do
  let result := (← get).fn.result
  require (Placement.canResultInMemory result) .missingType
  if Placement.resultInMemory result then
    let (n, params) := (← get).entry.params.reserve
    let pointer := Ty.pointer result
    let hidden ← freshReg pointer
    move hidden (pseudo (argRegister (.int n)) pointer)
    modify fun s => { s with entry := { s.entry with params := params, hidden := some hidden } }

/-- Save the argument registers from the first one that no named parameter took. -/
def saveRegisters (a : Allocation) (area : Operand) : Build Unit := do
  (List.range' a.intRegs (6 - a.intRegs)).forM fun i =>
    move (area.shifted (Int64.ofNat (8 * i)) .long) (pseudo (argRegister (.int i)) .long)
  let skip ← freshLabel
  emit .jz none (pseudo .rax .uchar) (Operand.label skip)
  (List.range' a.sseRegs (8 - a.sseRegs)).forM fun i =>
    move (area.shifted (Int64.ofNat (sseSaveStart + 16 * i)) .double)
      (pseudo (argRegister (.sse i)) .double)
  label skip

def lowerVariadic : Build Unit := do
  let a := (← get).entry.params
  let area ← freshSlot (.array .char saveAreaSize)
  saveRegisters a area
  modify fun s =>
    { s with
      entry :=
        { s.entry with
          saveArea := some area
          gpOffset := Int64.ofNat (8 * a.intRegs)
          fpOffset := Int64.ofNat (sseSaveStart + 16 * a.sseRegs) } }

def lowerEntry : LowerM Unit := do
  lowerHidden
  let fn := (← get).fn
  lowerParams 0 (fn.params.zip fn.addressTaken)
  modify fun s =>
    { s with
      entry :=
        { s.entry with namedStack := s.entry.params.offset, params := s.entry.params.finalize } }
  if fn.variadic then lowerVariadic

end Lowering
end Codegen
