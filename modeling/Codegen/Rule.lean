/-
Selection rules.

A rule says that an operation on operands of two classes can be computed into a
result class, at a cost, by a few machine instructions.  A rule without an operation
is a leaf rule: it turns an operand of one class into another.

Rules are written as patterns, whose classes may be families; expanding a pattern
gives one rule for each width.
-/
import Codegen.OpClass
import Codegen.Instr

namespace Codegen

/-- What a machine instruction of a rule reads or writes: the operands of the rule, scratch
registers made fresh for each application, or a fixed register. -/
inductive Arg
  | none
  | dst
  | src1
  | src2
  | scratch (n : Fin 4)
  | rax
  | rcx
  | rdx
  | xmm0
  deriving DecidableEq, Repr, Inhabited

namespace Arg

def all : List Arg :=
  [.none, .dst, .src1, .src2, .scratch 0, .scratch 1, .scratch 2, .scratch 3, .rax, .rcx, .rdx,
    .xmm0]

/-- The first scratch register, the one most rules make do with. -/
abbrev scratch1 : Arg := .scratch 0

abbrev scratch2 : Arg := .scratch 1

def ofCode? (n : Int) : Option Arg := if n < 0 then Option.none else all[n.toNat]?

def text : Arg → String
  | .none => "-"
  | .dst => "dst"
  | .src1 => "src1"
  | .src2 => "src2"
  | .scratch n => "slot" ++ toString (n.val + 1)
  | .rax => "rax"
  | .rcx => "rcx"
  | .rdx => "rdx"
  | .xmm0 => "xmm0"

def ofName? (name : String) : Option Arg := all.find? (·.text == name)

def isScratch : Arg → Bool
  | .scratch _ => true
  | _ => false

end Arg

structure MicroOp where
  op : Opcode
  dst : Arg
  v1 : Arg
  v2 : Arg
  template : Template
  deriving DecidableEq, Repr, Inhabited

/-- A rule as it is written: its classes may be families. -/
structure Pattern where
  op : Opcode
  dst : OpClass
  src1 : OpClass
  src2 : OpClass
  cost : Int64
  ops : List MicroOp
  deriving DecidableEq, Repr, Inhabited

/-- A rule in a table, with its place there. -/
structure Rule extends Pattern where
  index : Nat
  deriving DecidableEq, Repr, Inhabited

namespace Pattern

/-- Does a width have to be chosen? -/
def isSized (p : Pattern) : Bool := p.dst.isFamily || p.src1.isFamily || p.src2.isFamily

def atWidth (p : Pattern) (w : IntWidth) : Pattern :=
  { p with
    dst := p.dst.member w
    src1 := p.src1.member w
    src2 := p.src2.member w
    ops := p.ops.map fun m => { m with template := m.template.expand w.letter.toUInt8 } }

def expand (p : Pattern) : List Pattern := if p.isSized then IntWidth.all.map p.atWidth else [p]

end Pattern

namespace Rule

def isLeaf (r : Rule) : Bool := r.op == .ir .none

/-- Does one of the instructions read `src` after the destination was written? -/
def readsAfterWrite (src : Arg) : Bool → List MicroOp → Bool
  | _, [] => false
  | written, m :: rest =>
    (written && (m.v1 == src || m.v2 == src)) ||
      readsAfterWrite src (written || (m.dst == .dst && m.op != .machine .movToInd)) rest

/-- Is the destination written before `src` is read for the last time?  Such a rule is wrong when
the two are the same place. -/
def clobbers (r : Rule) (src : Arg) : Bool := readsAfterWrite src false r.ops

/-! ### Text -/

def padLeft (n : Nat) (s : String) : String :=
  String.ofList (List.replicate (n - s.length) ' ') ++ s

def padRight (n : Nat) (s : String) : String :=
  s ++ String.ofList (List.replicate (n - s.length) ' ')

def columns (index dst op src1 src2 cost : String) : String :=
  " ".intercalate
    [padLeft 4 index, padRight 5 dst, padRight 17 op, padRight 5 src1, padRight 5 src2,
      padLeft 3 cost]

def text (r : Rule) : String :=
  let head := columns (toString r.index) r.dst.text r.op.text r.src1.text r.src2.text
    (toString r.cost.toInt)
  if r.ops.isEmpty then head
  else head ++ " " ++ " ; ".intercalate (r.ops.map (·.template.flatText))

/-- Does an arithmetic rule lose bits of a register or memory operand?  Moves and comparisons may. -/
def narrows (r : Rule) : Bool :=
  let arithmetic := match r.op with
    | .ir .add => true
    | .ir .sub => true
    | .ir .mul => true
    | .ir .div => true
    | .ir .mod => true
    | .ir .bor => true
    | .ir .band => true
    | .ir .xor => true
    | .ir .bnot => true
    | _ => false
  arithmetic && r.dst.isRegister &&
    [r.src1, r.src2].any fun c => (c.isRegister || c.isMemory) && c.size > r.dst.size

end Rule

end Codegen
