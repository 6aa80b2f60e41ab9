/-
Operand classes.

Instruction selection sees operands through classes: where the value is, how wide
it is, and whether it is signed, a float or a pointer.  An operand is usually in
several of them; a small constant, for one, is a constant of every width.

A family stands for one class of each width.  It occurs only in patterns, which are
written once and expanded to four rules.
-/
import Codegen.Operand

namespace Codegen

/-- Single or double precision. -/
inductive Precision
  | single
  | double
  deriving DecidableEq, Repr, Inhabited, Hashable

/-- A condition on the flags, by the suffix of the instructions that test it: equal, not equal, the
four signed orders and the four unsigned ones. -/
inductive Cond
  | e
  | ne
  | l
  | g
  | le
  | ge
  | b
  | a
  | be
  | ae
  deriving DecidableEq, Repr, Inhabited, Hashable

/-- One class for each width. -/
inductive Family
  | reg (sign : Signedness)
  | mem (sign : Signedness)
  | pointer
  | const (sign : Signedness)
  /-- Immediate operands: there is no immediate wider than 32 bits. -/
  | immediate
  deriving DecidableEq, Repr, Inhabited, Hashable

inductive OpClass
  | none
  | literal
  | label
  | func
  | const (sign : Signedness) (width : IntWidth)
  | fconst (precision : Precision)
  | reg (sign : Signedness) (width : IntWidth)
  | freg (precision : Precision)
  | mem (sign : Signedness) (width : IntWidth)
  | fmem (precision : Precision)
  /-- A register that points to a value of this width, or to anything else. -/
  | pointer (target : Option IntWidth)
  | pointerMem
  | extendedMem
  | aggregateMem
  | flags (cond : Cond)
  | family (f : Family)
  /-- A number that names no class. -/
  | unknown (code : Int)
  deriving DecidableEq, Repr, Inhabited, Hashable

/-! ### Conditions -/

namespace Cond

def all : List Cond := [.e, .ne, .l, .g, .le, .ge, .b, .a, .be, .ae]

def suffix : Cond → String
  | .e => "e"
  | .ne => "ne"
  | .l => "l"
  | .g => "g"
  | .le => "le"
  | .ge => "ge"
  | .b => "b"
  | .a => "a"
  | .be => "be"
  | .ae => "ae"

def text : Cond → String
  | .e => "cceq"
  | .ne => "ccne"
  | .l => "cclt"
  | .g => "ccgt"
  | .le => "ccle"
  | .ge => "ccge"
  | .b => "ccb"
  | .a => "cca"
  | .be => "ccbe"
  | .ae => "ccae"

/-- The condition that holds exactly when this one does not. -/
def inverse : Cond → Cond
  | .e => .ne
  | .ne => .e
  | .l => .ge
  | .g => .le
  | .le => .g
  | .ge => .l
  | .b => .ae
  | .a => .be
  | .be => .a
  | .ae => .b

end Cond

namespace OpClass

/-! ### Numbers and names -/

/-- The classes that stand for operands, in the order of their numbers from 1. -/
def operandClasses : List OpClass :=
  [.literal, .label, .func] ++
    Signedness.both.flatMap (fun s => IntWidth.all.map (OpClass.const s)) ++
    [.fconst .single, .fconst .double] ++
    Signedness.both.flatMap (fun s => IntWidth.all.map (OpClass.reg s)) ++
    [.freg .single, .freg .double] ++
    Signedness.both.flatMap (fun s => IntWidth.all.map (OpClass.mem s)) ++
    [.fmem .single, .fmem .double] ++
    IntWidth.all.map (fun w => OpClass.pointer (some w)) ++
    [.pointer Option.none, .pointerMem, .extendedMem, .aggregateMem]

def families : List OpClass :=
  [.family (.reg .signed), .family (.reg .unsigned), .family (.mem .signed),
    .family (.mem .unsigned), .family .pointer, .family (.const .signed),
    .family (.const .unsigned), .family .immediate]

def firstFamily : Nat := 257

/-- The concrete classes, in the order of their numbers from 0. -/
def concrete : List OpClass := .none :: operandClasses ++ Cond.all.map OpClass.flags

def ofCode (n : Int) : OpClass :=
  if n < 0 then .unknown n
  else match concrete[n.toNat]? with
    | some c => c
    | Option.none =>
      if n < firstFamily then .unknown n
      else families.getD (n.toNat - firstFamily) (.unknown n)

/-- The letter of a signedness in a class's name. -/
def signText : Signedness → String
  | .signed => "i"
  | .unsigned => "u"

/-- The digit of a precision in a class's name. -/
def precisionText : Precision → String
  | .single => "3"
  | .double => "4"

def familyText : Family → String
  | .reg s => "r" ++ signText s ++ "*"
  | .mem s => "m" ++ signText s ++ "*"
  | .pointer => "rp*"
  | .const s => "c" ++ signText s ++ "*"
  | .immediate => "ciimm"

def text : OpClass → String
  | .none => "-"
  | .literal => "stl"
  | .label => "lab"
  | .func => "fun"
  | .const s w => "c" ++ signText s ++ toString w.rank
  | .fconst p => "cs" ++ precisionText p
  | .reg s w => "r" ++ signText s ++ toString w.rank
  | .freg p => "rs" ++ precisionText p
  | .mem s w => "m" ++ signText s ++ toString w.rank
  | .fmem p => "ms" ++ precisionText p
  | .pointer (some w) => "rp" ++ toString w.rank
  | .pointer Option.none => "rp5"
  | .pointerMem => "mpv"
  | .extendedMem => "mld5"
  | .aggregateMem => "msa"
  | .flags cond => cond.text
  | .family f => familyText f
  | .unknown code => "nt" ++ toString code

def ofName? (name : String) : Option OpClass := (concrete ++ families).find? (·.text == name)

def code (c : OpClass) : Int :=
  match c with
  | .unknown n => n
  | c => match concrete.idxOf? c with
    | some i => i
    | Option.none => match families.idxOf? c with
      | some i => firstFamily + i
      | Option.none => 0

/-! ### Families -/

def isFamily : OpClass → Bool
  | .family _ => true
  | _ => false

/-- The member of a family with a width; a concrete class is its own member. -/
def member (c : OpClass) (w : IntWidth) : OpClass :=
  match c with
  | .family (.reg s) => .reg s w
  | .family (.mem s) => .mem s w
  | .family .pointer => .pointer (some w)
  | .family (.const s) => .const s w
  | .family .immediate => .const .signed (if w = .w64 then .w32 else w)
  | c => c

/-! ### Questions -/

/-- The rank of a class's width, or 0 for a class without one. -/
def size : OpClass → Nat
  | .const _ w => w.rank
  | .reg _ w => w.rank
  | .mem _ w => w.rank
  | .fconst .single => 3
  | .freg .single => 3
  | .fmem .single => 3
  | .fconst .double => 4
  | .freg .double => 4
  | .fmem .double => 4
  | .pointerMem => 4
  | .pointer _ => 4
  | _ => 0

def isRegister : OpClass → Bool
  | .reg _ _ => true
  | .freg _ => true
  | .pointer _ => true
  | _ => false

def isMemory : OpClass → Bool
  | .mem _ _ => true
  | .fmem _ => true
  | .pointerMem => true
  | .extendedMem => true
  | .aggregateMem => true
  | _ => false

def isConst : OpClass → Bool
  | .const _ _ => true
  | .fconst _ => true
  | _ => false

def isFlags : OpClass → Bool
  | .flags _ => true
  | _ => false

def isSse : OpClass → Bool
  | .fconst _ => true
  | .freg _ => true
  | .fmem _ => true
  | _ => false

def isUnsigned : OpClass → Bool
  | .const .unsigned _ => true
  | .reg .unsigned _ => true
  | .mem .unsigned _ => true
  | _ => false

def inverse : OpClass → OpClass
  | .flags cond => .flags cond.inverse
  | _ => .none

def floatType : Precision → Ty
  | .single => .single
  | .double => .double

def type : OpClass → Ty
  | .reg s w => .int w s
  | .mem s w => .int w s
  | .fconst p => floatType p
  | .freg p => floatType p
  | .fmem p => floatType p
  | .pointer (some w) => .pointer (.int w .signed)
  | .pointer Option.none => .pointer .void
  | .pointerMem => .pointer .void
  | .extendedMem => .longDouble
  | .flags _ => .sint
  | _ => .long

/-! ### The classes of an operand -/

/-- The class of a register that points to a value of a type. -/
def pointerTo : Ty → OpClass
  | .int w _ => .pointer (some w)
  | .pointer _ => .pointer (some .w64)
  | .float .single => .pointer (some .w32)
  | .float .double => .pointer (some .w64)
  | _ => .pointer Option.none

/-- The classes of a register that holds a value of a type.  A pointer is an unsigned integer too. -/
def ofRegister : Ty → List OpClass
  | .int w s => [.reg s w]
  | .pointer t => [pointerTo t, .reg .unsigned .w64]
  | .func _ _ _ => [.pointer Option.none, .reg .unsigned .w64]
  | .float .single => [.freg .single]
  | .float .double => [.freg .double]
  | _ => []

def ofMemory : Ty → List OpClass
  | .int w s => [.mem s w]
  | .pointer _ => [.pointerMem, .mem .unsigned .w64]
  | .func _ _ _ => [.pointerMem, .mem .unsigned .w64]
  | .float .single => [.fmem .single]
  | .float .double => [.fmem .double]
  | .float .extended => [.extendedMem]
  | .struct _ _ _ => [.aggregateMem]
  | .union _ _ => [.aggregateMem]
  | .array _ _ => [.aggregateMem]
  | _ => []

def fitsSigned (n : Int64) : IntWidth → Bool
  | .w8 => -128 ≤ n && n < 128
  | .w16 => -32768 ≤ n && n < 32768
  | .w32 => -2147483648 ≤ n && n < 2147483648
  | .w64 => true

def fitsUnsigned (n : Int64) : IntWidth → Bool
  | .w8 => 0 ≤ n && n < 256
  | .w16 => 0 ≤ n && n < 65536
  | .w32 => 0 ≤ n && n < 4294967296
  | .w64 => 0 ≤ n

/-- The width and signedness a constant of a type is written at; unsigned and widest unless the type
is an integer. -/
def constantShape : Ty → IntWidth × Signedness
  | .int w s => (w, s)
  | _ => (.w64, .unsigned)

/-- The classes of a constant: every one that it fits, and the one of its type's own width, so that
a cast is respected. -/
def ofConstant (n : Int64) (t : Ty) : List OpClass :=
  let (width, sign) := constantShape t
  (IntWidth.all.filter (fun w => fitsSigned n w || w == width)).map (OpClass.const .signed) ++
    (IntWidth.all.filter (fun w => fitsUnsigned n w || (sign == .unsigned && w == width))).map
      (OpClass.const .unsigned)

def ofOperand (o : Operand) : List OpClass :=
  match o.value with
  | .vreg _ => ofRegister o.type
  | .preg _ => ofRegister o.type
  | .slot _ => ofMemory o.type
  | .global _ => ofMemory o.type
  | .const n => ofConstant n o.type
  | .fconst _ => match o.type with
    | .float .single => [.fconst .single]
    | _ => [.fconst .double]
  | .string _ => [.literal]
  | .label _ => [.label]
  | .func _ => [.func]
  | _ => []

def holds (c : OpClass) (o : Operand) : Bool := (ofOperand o).contains c

/-- Can a computed result of this class stand for a value of a type? -/
def compatible (c : OpClass) (t : Ty) : Bool :=
  if c.isFlags then t.isInteger else (ofRegister t).contains c

/-- The type of a fresh register of this class for a value whose type is `t`. -/
def resultType (c : OpClass) (t : Ty) : Ty :=
  if !t.isMissing && c.compatible t && !c.isFlags then t else c.type

end OpClass

end Codegen
