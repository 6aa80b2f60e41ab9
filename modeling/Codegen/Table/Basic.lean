/-
Writing the rules of the machine.

Short names for patterns, machine instructions and costs, and the few templates that
more than one group of rules needs.
-/
import Codegen.RuleSet

namespace Codegen
namespace Table

/-! ### Costs -/

def costMove : Int64 := 1
def costLoad : Int64 := 2
def costStore : Int64 := 2
def costAdd : Int64 := 10
def costMul : Int64 := 30
def costDiv : Int64 := 50
def costShift : Int64 := 10
def costCompare : Int64 := 15
def costJump : Int64 := 5
def costCall : Int64 := 5
def costFloatAdd : Int64 := 10
def costFloatMul : Int64 := 20
def costFloatDiv : Int64 := 40

/-- Reading the same register with the other signedness emits nothing, but costs more than any
sequence that keeps the sign, so that an unsigned value meets a signed rule only when nothing else
matches. -/
def costReinterpret : Int64 := 20

/-! ### Constructors -/

def micro (op : MachineOp) (target v1 v2 : Arg) (template : Template) : MicroOp :=
  ⟨.machine op, target, v1, v2, template⟩

/-- A machine instruction from the first source, or what is given, to the destination. -/
def toDst (op : MachineOp) (v1 : Arg) (template : Template) : MicroOp :=
  micro op .dst v1 .none template

def rule (dst : OpClass) (op : IrOp) (src1 src2 : OpClass) (cost : Int64) (ops : List MicroOp) :
    Pattern :=
  ⟨.ir op, dst, src1, src2, cost, ops⟩

def leaf (dst src : OpClass) (cost : Int64) (ops : List MicroOp) : Pattern :=
  rule dst .none src .none cost ops

def regs (s : Signedness) : OpClass := .family (.reg s)

def mems (s : Signedness) : OpClass := .family (.mem s)

def immediates : OpClass := .family .immediate

def immediate (w : IntWidth) : OpClass := immediates.member w

/-- The integer register classes a truth value can be made in. -/
def valueClasses : List OpClass :=
  Signedness.both.flatMap fun s => IntWidth.all.map (OpClass.reg s)

/-! ### Templates -/

def text (s : String) : Template := .ofString s

def sized (w : IntWidth) (s : String) : Template := (text s).expand w.letter.toUInt8

def letter (w : IntWidth) : String := String.singleton w.letter

def suffix : Precision → String
  | .single => "ss"
  | .double => "sd"

def moveAt (w : IntWidth) : Template := sized w "mov%s\t%v1, %vd"

def move : MicroOp := toDst .mov .src1 (text "mov%s\t%v1, %vd")

def floatMove (p : Precision) : Template := text ("mov" ++ suffix p ++ "\t%v1, %vd")

/-- Loading a constant; only the longest form holds 64 bits. -/
def loadConst : IntWidth → Template
  | .w64 => text "movabsq\t$%v1q, %vdq"
  | w => sized w "mov%s\t$%v1, %vd"

/-- Widening a register by the signedness of what it holds.  Writing 32 bits clears the upper
half. -/
def extend (source target : IntWidth) (s : Signedness) : MicroOp :=
  let f := letter source
  let t := letter target
  match s with
  | .signed => toDst .movs .src1 (text ("movs" ++ f ++ t ++ "\t%v1" ++ f ++ ", %vd" ++ t))
  | .unsigned =>
    if source = .w32 then toDst .movz .src1 (text "movl\t%v1l, %vdl")
    else toDst .movz .src1 (text ("movz" ++ f ++ t ++ "\t%v1" ++ f ++ ", %vd" ++ t))

def lea : MicroOp := toDst .lea .src1 (text "leaq\t%v1, %vdq")

def leaFunction : MicroOp := toDst .lea .src1 (text "leaq\t%v1(%%rip), %vdq")

/-- Putting a floating constant into a vector register, through an integer one. -/
def loadFloatConst : Precision → List MicroOp
  | .single =>
    [micro .mov .scratch1 .src1 .none (text "movl\t$%v1F, %vdl"),
      toDst .movPregClass .scratch1 (text "movd\t%v1l, %vd")]
  | .double =>
    [micro .mov .scratch1 .src1 .none (text "movabsq\t$%v1F, %vdq"),
      toDst .movPregClass .scratch1 (text "movq\t%v1q, %vd")]

/-- Making a truth value, left in the low byte, as wide as a destination class. -/
def widenTruth (dst : OpClass) : List MicroOp :=
  let widen (l : String) := [toDst .movz .dst (text ("movzb" ++ l ++ "\t%v1b, %vd" ++ l))]
  match dst.size with
  | 2 => widen "w"
  | 3 => widen "l"
  | 4 => widen "q"
  | _ => []

end Table
end Codegen
