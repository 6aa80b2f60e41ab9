/-
Functions.

A function is its signature, its code, and the counters that hand out fresh virtual
registers, labels and stack slots.
-/
import Codegen.Instr

namespace Codegen

structure Function where
  name : String
  params : List Ty
  /-- Which parameters must live in memory, place by place. -/
  addressTaken : List Bool
  result : Ty
  variadic : Bool := false
  code : List Instr := []
  vregCount : Int := 26
  /-- The number of eight-byte local slots below the frame base. -/
  stackSlots : Int := 0
  labelCount : Int64 := 0
  strings : List String := []
  deriving Repr, Inhabited

namespace Function

/-- An empty function; a missing result type is void. -/
def new (name : String) (result : Ty) (params : List Ty) : Function :=
  { name := name
    params := params
    addressTaken := params.map fun _ => false
    result := if result.isMissing then .void else result }

def freshVReg (f : Function) (type : Ty) : Operand × Function :=
  let id := f.vregCount + 1
  (.vreg id type, { f with vregCount := id })

def freshLabel (f : Function) : Int × Function :=
  let n := f.labelCount + 1
  (n.toInt, { f with labelCount := n })

/-- The number of eight-byte slots a value of `size` bytes takes, at least one. -/
def slotsFor (size : Int64) : Int :=
  let n := (size + 7) / 8
  if n = 0 then 1 else n.toInt

/-- Take stack slots for a value of type `t`, and give the slot of its lowest byte.  What must be
aligned to sixteen bytes ends up at an even distance from the frame base. -/
def allocateSlot (f : Function) (t : Ty) : Operand × Function :=
  let n := slotsFor t.size
  let skip := t.align ≥ 16 && (f.stackSlots + n) % 2 != 0
  let slots := f.stackSlots + n + (if skip then 1 else 0)
  (.slot (-slots) t, { f with stackSlots := slots })

def emit (f : Function) (i : Instr) : Function := { f with code := f.code ++ [i] }

/-- Cut code into basic blocks; the block that has begun with `run` ends before an instruction with a
label and after a jump. -/
def blocksFrom (run : List Instr) : List Instr → List (List Instr)
  | [] => if run.isEmpty then [] else [run]
  | i :: rest =>
    let ends := i.label != 0 && !run.isEmpty
    let begun := if ends then [i] else run ++ [i]
    (if ends then [run] else []) ++
      if i.op.isJump then begun :: blocksFrom [] rest else blocksFrom begun rest

/-- The basic blocks of the code. -/
def blocks (f : Function) : List (List Instr) := blocksFrom [] f.code

/-! ### Listing -/

/-- The lines of one instruction: its label if it has one, and itself unless it does nothing. -/
def instrLines (i : Instr) : List String :=
  (if i.label = 0 then [] else ["l" ++ toString i.label ++ ":"]) ++
    (if i.op = .ir .nop then [] else ["  " ++ i.text])

def signatureText (f : Function) : String :=
  ", ".intercalate (f.params.map (·.text) ++ if f.variadic then ["..."] else [])

def lines (f : Function) : List String :=
  (f.name ++ "(" ++ f.signatureText ++ ") " ++ f.result.text ++ " \x7b") ::
    f.code.flatMap instrLines ++ ["\x7d"]

/-- Has every parameter a type?  A function without that cannot be listed. -/
def isListable (f : Function) : Bool := f.params.all (!·.isMissing)

end Function

end Codegen
