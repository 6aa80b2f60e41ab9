/-
Rules for arithmetic.

Two-operand instructions overwrite their destination, so most rules move the first
source there and then apply the operation.  Division and shifts use fixed registers.
-/
import Codegen.Table.Basic

namespace Codegen
namespace Table

/-! ### Operations on two integers -/

/-- The templates of a commutative operation: with a register or memory, and with an immediate.
Multiplication has no byte form; the low byte of a word product is the same. -/
def binaryTemplates (x : MachineOp) (mnemonic : String) (w : IntWidth) : Template × Template :=
  if x = .mul && w = .w8 then (text "imulw\t%v1w, %vdw", text "imulw\t$%v1, %vdw")
  else (sized w (mnemonic ++ "%s\t%v1, %vd"), sized w (mnemonic ++ "%s\t$%v1, %vd"))

def commutativeAt (op : IrOp) (x : MachineOp) (mnemonic : String) (cost : Int64) (s : Signedness)
    (w : IntWidth) : List Pattern :=
  let (withReg, withConst) := binaryTemplates x mnemonic w
  let r := OpClass.reg s w
  let fromFirst := toDst .mov .src1 (moveAt w)
  let fromSecond := toDst .mov .src2 (moveAt w)
  [rule r op r r cost [fromFirst, micro x .dst .src2 .dst withReg],
    rule r op r (immediate w) cost [fromFirst, micro x .dst .src2 .dst withConst],
    rule r op (immediate w) r cost [fromSecond, micro x .dst .src1 .dst withConst]] ++
    (if x = .mul && w = .w8 then []
     else [rule r op r (.mem s w) (cost + 1) [fromFirst, micro x .dst .src2 .dst withReg]])

def commutative (op : IrOp) (x : MachineOp) (mnemonic : String) (cost : Int64) : List Pattern :=
  Signedness.both.flatMap fun s => IntWidth.all.flatMap (commutativeAt op x mnemonic cost s)

def subtraction : List Pattern :=
  Signedness.both.flatMap fun s =>
    let r := regs s
    let sub := micro .sub .dst .src2 .dst (text "sub%s\t%v1, %vd")
    [rule r .sub r r costAdd [move, sub],
      rule r .sub r immediates costAdd
        [move, micro .sub .dst .src2 .dst (text "sub%s\t$%v1, %vd")],
      rule r .sub r (mems s) (costAdd + 1) [move, sub],
      rule r .sub immediates r costAdd
        [toDst .mov .src1 (text "mov%s\t$%v1, %vd"), sub],
      rule r .bnot r .none 3 [move, toDst .bnot .dst (text "not%s\t%vd")]]

/-! ### Division

The dividend stands in two fixed registers, the quotient comes out in one and the
remainder in the other.  The sources decide the signedness; the result may be read
with either.
-/

/-- Filling the upper half of the dividend. -/
def extendDividend (s : Signedness) (w : IntWidth) : MicroOp :=
  match s with
  | .unsigned => micro .xor .rdx .none .none (text "xorl\t%vdl, %vdl")
  | .signed => match w with
    | .w64 => micro .cqto .rdx .rax .none (text "cqto")
    | .w32 => micro .cltd .rdx .rax .none (text "cltd")
    | _ => micro .cltd .rdx .rax .none (text "cwtd")

def divide (s : Signedness) (w : IntWidth) : MicroOp :=
  match s with
  | .unsigned => micro .div .rax .src2 .rdx (sized w "div%s\t%v1")
  | .signed => micro .idiv .rax .src2 .rdx (sized w "idiv%s\t%v1")

def wideDivision : List Pattern :=
  [IntWidth.w16, .w32, .w64].flatMap fun w => Signedness.both.flatMap fun s =>
    [(IrOp.div, Arg.rax), (.mod, .rdx)].flatMap fun (op, result) => Signedness.both.map fun d =>
      rule (.reg d w) op (.reg s w) (.reg s w) costDiv
        [micro .mov .rax .src1 .none (moveAt w), extendDividend s w, divide s w,
          toDst .mov result (moveAt w)]

/-- Division of bytes: quotient and remainder come out in the two bytes of one register. -/
def byteDivision : List Pattern :=
  Signedness.both.flatMap fun s =>
    let (widen, divide) := match s with
      | .signed =>
        (micro .movs .rax .src1 .none (text "movsbw\t%v1b, %vdw"),
          micro .idiv .rax .src2 .none (text "idivb\t%v1b"))
      | .unsigned =>
        (micro .movz .rax .src1 .none (text "movzbw\t%v1b, %vdw"),
          micro .div .rax .src2 .none (text "divb\t%v1b"))
    let out := toDst .mov .rax (text "movb\t%v1b, %vdb")
    let r := OpClass.reg s .w8
    Signedness.both.flatMap fun d =>
      [rule (.reg d .w8) .div r r costDiv [widen, divide, out],
        rule (.reg d .w8) .mod r r costDiv
          [widen, divide, micro .shr .rax .none .rax (text "shrw\t$8, %vdw"), out]]

/-! ### Shifts -/

/-- The rules of a shift at one width: a variable count goes through the count register. -/
def shiftAt (op : IrOp) (x : MachineOp) (mnemonic : String) (s : Signedness) (w : IntWidth) :
    List Pattern :=
  let r := OpClass.reg s w
  let shift := micro x .dst .rcx .dst (sized w (mnemonic ++ "%s\t%v1b, %vd"))
  (Signedness.both.flatMap fun cs => IntWidth.all.map fun cw =>
    rule r op r (.reg cs cw) costShift
      [micro .mov .rcx .src2 .none (moveAt cw), toDst .mov .src1 (moveAt w), shift]) ++
    [rule r op r (.const .signed .w8) (costShift - 1)
      [toDst .mov .src1 (moveAt w),
        micro x .dst .src2 .dst (sized w (mnemonic ++ "%s\t$%v1b, %vd"))]]

def shifts : List Pattern :=
  [(IrOp.bshl, MachineOp.shl, "shl"), (.bshr, .shr, "shr"), (.ashr, .sar, "sar")].flatMap
    fun (op, x, mnemonic) => Signedness.both.flatMap fun s =>
      IntWidth.all.flatMap (shiftAt op x mnemonic s)

def integerRules : List Pattern :=
  commutative .add .add "add" costAdd ++ commutative .mul .mul "imul" costMul ++
    commutative .bor .bor "or" costAdd ++ commutative .band .band "and" costAdd ++
    commutative .xor .xor "xor" costAdd ++ subtraction ++ wideDivision ++ byteDivision ++ shifts

/-! ### Floats -/

def floatRules : List Pattern :=
  [(IrOp.add, MachineOp.fadd, "add", costFloatAdd), (.sub, .fsub, "sub", costFloatAdd),
    (.mul, .fmul, "mul", costFloatMul), (.div, .fdiv, "div", costFloatDiv)].flatMap
    fun (op, x, name, cost) => [Precision.single, .double].flatMap fun p =>
      let first := toDst .mov .src1 (floatMove p)
      let apply := micro x .dst .src2 .dst (text (name ++ suffix p ++ "\t%v1, %vd"))
      [rule (.freg p) op (.freg p) (.freg p) cost [first, apply],
        rule (.freg p) op (.freg p) (.fmem p) (cost + 1) [first, apply]]

end Table
end Codegen
