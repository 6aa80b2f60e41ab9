/-
Rules for comparisons and logical operations.

A comparison is computed either as a truth value in a register or, for a conditional
jump, as a condition on the flags.  Signed and unsigned operands are ordered by
different conditions; floats use the unsigned ones.
-/
import Codegen.Table.Basic

namespace Codegen
namespace Table

/-- The comparisons, with the conditions that hold for signed and for unsigned operands. -/
def comparisons : List (IrOp × Cond × Cond) :=
  [(.eq, .e, .e), (.ne, .ne, .ne), (.lt, .l, .b), (.gt, .g, .a), (.le, .le, .be), (.ge, .ge, .ae)]

/-- The instruction that stores a condition as a byte. -/
def setOp : Cond → MachineOp
  | .e => .sete
  | .ne => .setne
  | .l => .setlt
  | .g => .setgt
  | .le => .setle
  | .ge => .setge
  | .b => .setb
  | .a => .seta
  | .be => .setbe
  | .ae => .setae

def setValue (c : Cond) (dst : OpClass) : List MicroOp :=
  micro (setOp c) .dst .none .none (text ("set" ++ c.suffix ++ "\t%vdb")) :: widenTruth dst

def compareAt (op : IrOp) (c : Cond) (s : Signedness) (w : IntWidth) : List Pattern :=
  let r := OpClass.reg s w
  let withReg := micro .cmp .none .src2 .src1 (sized w "cmp%s\t%v1, %v2")
  let withConst := micro .cmp .none .src2 .src1 (sized w "cmp%s\t$%v1, %v2")
  (valueClasses.flatMap fun d =>
    [rule d op r r costCompare (withReg :: setValue c d),
      rule d op r (immediate w) costCompare (withConst :: setValue c d)]) ++
    [rule (.flags c) op r r costJump [withReg],
      rule (.flags c) op r (immediate w) costJump [withConst]]

def compareFloats (op : IrOp) (c : Cond) (p : Precision) : List Pattern :=
  let compare := micro .comis .none .src2 .src1 (text ("comi" ++ suffix p ++ "\t%v1, %v2"))
  valueClasses.map (fun d =>
    rule d op (.freg p) (.freg p) costCompare (compare :: setValue c d)) ++
    [rule (.flags c) op (.freg p) (.freg p) costJump [compare]]

def comparisonRules : List Pattern :=
  comparisons.flatMap fun (op, signed, unsigned) =>
    IntWidth.all.flatMap (compareAt op signed .signed) ++
      IntWidth.all.flatMap (compareAt op unsigned .unsigned) ++
      [Precision.single, .double].flatMap (compareFloats op unsigned)

def testZero (w : IntWidth) (src : Arg) : MicroOp :=
  micro .cmpz .none src .none (sized w "cmp%s\t$0, %v1")

/-- Both sources as truth values, joined; both are always evaluated. -/
def joinTruth (x : MachineOp) (name : String) (w : IntWidth) (dst : OpClass) : List MicroOp :=
  [testZero w .src1,
    micro .setne .scratch1 .none .none (text "setne\t%vdb"),
    testZero w .src2,
    micro .setne .dst .none .none (text "setne\t%vdb"),
    micro x .dst .scratch1 .dst (text (name ++ "\t%v1b, %vdb"))] ++ widenTruth dst

def logicalRules : List Pattern :=
  Signedness.both.flatMap fun s => IntWidth.all.flatMap fun w => valueClasses.flatMap fun d =>
    let r := OpClass.reg s w
    [rule d .lnot r .none costCompare (testZero w .src1 :: setValue .e d),
      rule d .land r r (2 * costCompare) (joinTruth .band "andb" w d),
      rule d .lor r r (2 * costCompare) (joinTruth .bor "orb" w d)]

end Table
end Codegen
