/-
Operands.

An operand is a value with the type it is used at and a byte offset that is added
to the place it denotes.  A virtual register also carries where it lives once the
allocator has decided: a physical register, or a stack slot it was spilled to.
-/
import Codegen.Numeral.Decimal
import Codegen.Reg
import Codegen.Ty.Layout

namespace Codegen

structure VReg where
  /-- The number of the register; 1 to 26 are the pseudo-registers. -/
  id : Int
  reg : Reg := .none
  slot : Int := 0
  spilled : Bool := false
  /-- The pseudo-register it would like to share a colour with, or 0. -/
  preferred : Int := 0
  /-- The incoming slot that already holds its value, or 0. -/
  origin : Int := 0
  deriving DecidableEq, Repr, Inhabited

/-- What an operand denotes.  Stack slots are counted in eight bytes from the frame base: below
zero locals and spills, from two on incoming parameters. -/
inductive Value
  | none
  | vreg (v : VReg)
  | preg (r : Reg)
  | slot (index : Int)
  | const (n : Int64)
  | fconst (x : Binary64)
  | string (index : Int)
  | global (symbol : String)
  | label (n : Int)
  | func (symbol : String)
  | param (index : Int)
  deriving DecidableEq, Repr, Inhabited

structure Operand where
  value : Value
  type : Ty
  offset : Int64 := 0
  deriving Repr, Inhabited

namespace Value

/-- The words for the kinds of value, in the order of their numbers. -/
def kindNames : List String :=
  ["?", "vreg", "preg", "stack", "const", "fconst", "string", "global", "label", "func", "param"]

/-- The word for the kind with a number; numbers past the end share one, negative ones have none. -/
def kindName? (n : Int) : Option String := if n < 0 then Option.none else some (kindNames.getD n.toNat "?")

def kind : Value → String
  | .none => "?"
  | .vreg _ => "vreg"
  | .preg _ => "preg"
  | .slot _ => "stack"
  | .const _ => "const"
  | .fconst _ => "fconst"
  | .string _ => "string"
  | .global _ => "global"
  | .label _ => "label"
  | .func _ => "func"
  | .param _ => "param"

end Value

namespace Operand

/-! ### Making operands -/

/-- A virtual register without a location. -/
def vreg (id : Int) (type : Ty) : Operand := ⟨.vreg { id := id }, type, 0⟩

def preg (r : Reg) (type : Ty) : Operand := ⟨.preg r, type, 0⟩

def const (n : Int64) (type : Ty) : Operand := ⟨.const n, type, 0⟩

def slot (index : Int) (type : Ty) : Operand := ⟨.slot index, type, 0⟩

def label (n : Int) : Operand := ⟨.label n, .missing, 0⟩

def string (index : Int) : Operand := ⟨.string index, .pointer .char, 0⟩

def global (symbol : String) (type : Ty) : Operand := ⟨.global symbol, type, 0⟩

def withType (o : Operand) (type : Ty) : Operand := { o with type := type }

/-- The place `delta` bytes further, used at another type. -/
def shifted (o : Operand) (delta : Int64) (type : Ty) : Operand :=
  { o with offset := o.offset + delta, type := type }

/-! ### Questions -/

def vregId? (o : Operand) : Option Int :=
  match o.value with
  | .vreg v => some v.id
  | _ => none

def isConst (o : Operand) : Bool :=
  match o.value with
  | .const _ => true
  | _ => false

/-- Does the value live in a register?  A spilled virtual register does not. -/
def isRegister (o : Operand) : Bool :=
  match o.value with
  | .vreg v => !v.spilled
  | .preg _ => true
  | _ => false

def isMemory (o : Operand) : Bool :=
  match o.value with
  | .global _ => true
  | .slot _ => true
  | _ => false

/-- The register file the value belongs in. -/
def cls (o : Operand) : RegClass :=
  let byType : RegClass := if o.type.isSse then .sse else .int
  match o.value with
  | .vreg v => if Reg.isPseudo v.id then (Reg.ofPseudo v.id).cls else byType
  | _ => byType

/-- The width in bytes at which the value is used: that of a scalar type, else eight. -/
def width (o : Operand) : Int64 :=
  match o.type with
  | .int w _ => w.bytes
  | .float k => k.bytes
  | _ => 8

def location (o : Operand) : Reg :=
  match o.value with
  | .preg r => r
  | .vreg v => if v.spilled then .none else v.reg
  | _ => .none

/-- The bit pattern of a floating constant at the precision of its type. -/
def floatBits (o : Operand) : UInt64 :=
  let x := match o.value with
    | .fconst x => x
    | _ => ⟨0⟩
  match o.type with
  | .float .single => x.singleBits
  | _ => x.bits

/-! ### Text -/

/-- An offset after the place it is added to; nothing for zero. -/
def offsetText (n : Int64) : String := if n = 0 then "" else "+" ++ toString n.toInt

def vregText (v : VReg) : String :=
  "r" ++ toString v.id ++
    (if v.reg != .none then "(%" ++ v.reg.text ++ ")"
     else if v.spilled then "[S" ++ toString v.slot ++ "]"
     else "")

def valueText (o : Operand) : String :=
  match o.value with
  | .none => ""
  | .vreg v => vregText v
  | .preg r => "%" ++ r.text
  | .slot index => "S[" ++ toString index ++ "]" ++ offsetText o.offset
  | .const n => toString n.toInt
  | .fconst x => x.text
  | .string index => "s" ++ toString index
  | .global symbol => symbol ++ offsetText o.offset
  | .label n => "l" ++ toString n
  | .func symbol => symbol
  | .param index => "param" ++ toString index

/-- Is the type written after the value? -/
def showsType (o : Operand) : Bool :=
  match o.value with
  | .label _ => false
  | .func _ => false
  | _ => !o.type.isMissing

def text (o : Operand) : String :=
  if o.showsType then o.valueText ++ ":" ++ o.type.text else o.valueText

def optionText : Option Operand → String
  | some o => o.text
  | none => ""

end Operand

end Codegen
