/-
Where arguments and results go.

`Allocation` hands out argument registers and stack bytes to one parameter after
another.  An aggregate is never split between registers and stack: when one of its
eightbytes finds no register, the whole of it goes to the stack and the registers
it took are given back.
-/
import Codegen.Calling.Eightbyte
import Codegen.Reg

namespace Codegen

/-- A place for one scalar or one eightbyte: the n-th integer or vector register of a sequence, or
bytes of the stack area. -/
inductive Place
  | int (n : Nat)
  | sse (n : Nat)
  | stack (offset padding : Int64)
  deriving DecidableEq, Repr, Inhabited

/-- The part of an aggregate that one register holds, and how many scalars start in it. -/
structure Window where
  offset : Int64
  size : Int64
  members : Nat
  deriving DecidableEq, Repr, Inhabited

/-- A place, with the part of an aggregate it holds. -/
structure Location where
  place : Place
  window : Option Window := none
  deriving DecidableEq, Repr, Inhabited

namespace Location

def onStack (l : Location) : Bool :=
  match l.place with
  | .stack offset _ => 0 ≤ offset
  | _ => false

def text (l : Location) : String :=
  match l.place with
  | .int n => "int" ++ toString n
  | .sse n => "sse" ++ toString n
  | .stack offset _ => if 0 ≤ offset then "stack+" ++ toString offset.toInt else "none"

end Location

/-- Where one parameter goes: one location for a scalar or for anything on the stack, one for each
eightbyte of an aggregate in registers, none for an empty aggregate. -/
structure Placement where
  type : Ty
  locations : List Location
  deriving Repr, Inhabited

namespace Placement

def inRegisters (p : Placement) : Bool :=
  !p.locations.isEmpty && p.locations.all (!·.onStack)

/-- The offset in the stack area, if the value travels there. -/
def stackOffset? (p : Placement) : Option Int64 :=
  match p.locations with
  | [⟨.stack offset _, _⟩] => if 0 ≤ offset then some offset else none
  | _ => none

def onStack (p : Placement) : Bool := p.stackOffset?.isSome

end Placement

/-- The registers and stack bytes given out so far. -/
structure Allocation where
  intRegs : Nat := 0
  sseRegs : Nat := 0
  biggestAlign : Int64 := 8
  offset : Int64 := 0
  maxInt : Nat := 6
  maxSse : Nat := 8
  count : Nat := 0
  deriving DecidableEq, Repr, Inhabited

namespace Allocation

def arguments : Allocation := {}

def results : Allocation := { biggestAlign := 0, maxInt := 2, maxSse := 2 }

/-- Take the next integer register, for the address of a result. -/
def reserve (a : Allocation) : Nat × Allocation := (a.intRegs, { a with intRegs := a.intRegs + 1 })

/-- The part of an aggregate of `size` bytes that its `i`-th register holds. -/
def window (size : Int64) (members : List Nat) (i : Nat) : Window :=
  let offset := Int64.ofNat i * 8
  ⟨offset, min (size - offset) 8, members.getD i 0⟩

/-- Take a register for one eightbyte, if there is one left. -/
def takeRegister (a : Allocation) : Eightbyte → Option (Place × Allocation)
  | .sse =>
    if a.sseRegs < a.maxSse then some (.sse a.sseRegs, { a with sseRegs := a.sseRegs + 1 })
    else none
  | _ =>
    if a.intRegs < a.maxInt then some (.int a.intRegs, { a with intRegs := a.intRegs + 1 })
    else none

/-- Take registers for the eightbytes from the `i`-th on, or none at all. -/
def takeRegisters (size : Int64) (members : List Nat) :
    Nat → List Eightbyte → Allocation → Option (List Location × Allocation)
  | _, [], a => some ([], a)
  | i, c :: cs, a =>
    match a.takeRegister c with
    | none => none
    | some (place, a) =>
      match takeRegisters size members (i + 1) cs a with
      | none => none
      | some (rest, a) => some (⟨place, some (window size members i)⟩ :: rest, a)

def takeStack (a : Allocation) (t : Ty) : Location × Allocation :=
  let align := max 8 t.align
  let offset := alignUp a.offset align
  (⟨.stack offset (offset - a.offset), none⟩,
    { a with
      offset := offset + alignUp t.size 8
      biggestAlign := max a.biggestAlign align })

/-- The registers for a value of type `t`, if it travels in registers and enough are left. -/
def placeInRegisters (a : Allocation) (t : Ty) : Option (List Location × Allocation) :=
  if t.isAggregate then
    match Eightbyte.classify t with
    | some classes => takeRegisters t.size (Eightbyte.memberCounts t) 0 classes a
    | none => none
  else if t.isSse then (a.takeRegister .sse).map fun (p, a) => ([⟨p, none⟩], a)
  else if t.fitsIntRegister then (a.takeRegister .integer).map fun (p, a) => ([⟨p, none⟩], a)
  else none

/-- The locations of the next parameter. -/
def place (a : Allocation) (t : Ty) : List Location × Allocation :=
  match a.placeInRegisters t with
  | some result => result
  | none =>
    if t.isAggregate && t.size == 0 then ([], a)
    else
      let (l, a) := a.takeStack t
      ([l], a)

def add (a : Allocation) (t : Ty) : Placement × Allocation :=
  let (locations, b) := a.place t
  (⟨t, locations⟩, { b with count := a.count + 1 })

/-- Place the next parameter on the stack, whatever its type. -/
def addStack (a : Allocation) (t : Ty) : Placement × Allocation :=
  let (l, b) := a.takeStack t
  (⟨t, [l]⟩, { b with count := a.count + 1 })

def addAll (a : Allocation) : List Ty → List Placement × Allocation
  | [] => ([], a)
  | t :: ts =>
    let (p, a) := a.add t
    let (ps, a) := a.addAll ts
    (p :: ps, a)

/-- Round the stack area up to the largest alignment in it. -/
def finalize (a : Allocation) : Allocation :=
  { a with offset := alignUp a.offset a.biggestAlign }

/-- Is everything known that placing a value on the stack depends on? -/
def canAddStack (t : Ty) : Bool := t.hasAlign && t.hasSize

/-- Is everything known that placing a value depends on? -/
def canAdd (t : Ty) : Bool :=
  if t.isAggregate then Eightbyte.canClassify t else canAddStack t

/-- Place the next parameter, if its type is known well enough; it is counted in any case. -/
def add? (a : Allocation) (t : Ty) : Option Placement × Allocation :=
  if canAdd t then
    let (p, a) := a.add t
    (some p, a)
  else (none, { a with count := a.count + 1 })

/-- Place the next parameter on the stack, if its type is known well enough. -/
def addStack? (a : Allocation) (t : Ty) : Option Placement × Allocation :=
  if canAddStack t then
    let (p, a) := a.addStack t
    (some p, a)
  else (none, a)

end Allocation

namespace Placement

/-- Where a result of type `t` comes back; none for no result and for one that comes back through a
hidden pointer. -/
def ofResult (t : Ty) : Option Placement :=
  match t with
  | .missing => none
  | .void => none
  | t =>
    if t.isAggregate && (Eightbyte.classify t).isNone then none
    else
      let p := (Allocation.results.add t).1
      if p.inRegisters then some p else none

/-- Is everything known that `ofResult` depends on? -/
def canOfResult : Ty → Bool
  | .missing => true
  | .void => true
  | t => Allocation.canAdd t

/-- Does a result of type `t` come back through a hidden pointer? -/
def resultInMemory (t : Ty) : Bool := t.isAggregate && (ofResult t).isNone

/-- Is everything known that `resultInMemory` depends on? -/
def canResultInMemory (t : Ty) : Bool := !t.isAggregate || canOfResult t

end Placement

end Codegen
