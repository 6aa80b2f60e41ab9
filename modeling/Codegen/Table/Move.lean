/-
Rules for moves: between integers of any two widths, between floats, and between
the two.
-/
import Codegen.Table.Basic

namespace Codegen
namespace Table

/-! ### Integers -/

def plainMoves : List Pattern :=
  Signedness.both.flatMap fun s =>
    [rule (regs s) .move (regs s) .none costMove [move],
      rule (regs s) .move (mems s) .none costLoad [move],
      rule (mems s) .move (regs s) .none costStore [move],
      rule (mems s) .move immediates .none costStore
        [toDst .mov .src1 (text "mov%s\t$%v1, %vd")]]

def crossMoves : List Pattern :=
  [rule (regs .signed) .move (mems .unsigned) .none costLoad [move],
    rule (regs .unsigned) .move (mems .signed) .none costLoad [move],
    rule (mems .signed) .move (regs .unsigned) .none costStore [move],
    rule (mems .unsigned) .move (regs .signed) .none costStore [move]]

def constantMoves : List Pattern :=
  IntWidth.all.flatMap fun w => Signedness.both.flatMap fun d => Signedness.both.map fun s =>
    rule (.reg d w) .move (.const s w) .none costMove [toDst .mov .src1 (loadConst w)]

/-- A move that keeps only the low bytes. -/
def narrow (w : IntWidth) : MicroOp :=
  let l := letter w
  toDst .mov .src1 (text ("mov" ++ l ++ "\t%v1" ++ l ++ ", %vd" ++ l))

def resizingMoves (source target : IntWidth) (s d : Signedness) : List Pattern :=
  if source = target then []
  else if source.rank < target.rank then
    [rule (.reg d target) .move (.reg s source) .none costMove [extend source target s]]
  else
    [rule (.reg d target) .move (.reg s source) .none costMove [narrow target],
      rule (.mem d target) .move (.reg s source) .none costStore [narrow target]]

def resizings : List Pattern :=
  IntWidth.all.flatMap fun source => IntWidth.all.flatMap fun target =>
    Signedness.both.flatMap fun s => Signedness.both.flatMap fun d =>
      resizingMoves source target s d

def addressMoves : List Pattern :=
  [rule (.reg .unsigned .w64) .move .literal .none costMove [lea],
    rule (.reg .unsigned .w64) .move .func .none costMove [leaFunction]]

/-- Extended-precision floats are copied in two halves through an integer register. -/
def extendedMove : Pattern :=
  rule .extendedMem .move .extendedMem .none (4 * costMove)
    [micro .mov .scratch1 .src1 .none (text "movq\t%v1L, %vdq"),
      toDst .mov .scratch1 (text "movq\t%v1q, %vdL"),
      micro .mov .scratch1 .src1 .none (text "movq\t%v1H, %vdq"),
      toDst .mov .scratch1 (text "movq\t%v1q, %vdH")]

def moveRules : List Pattern :=
  plainMoves ++ crossMoves ++ constantMoves ++ resizings ++ addressMoves ++ [extendedMove]

/-! ### Floats -/

def floatMoves : List Pattern :=
  [Precision.single, .double].flatMap fun p =>
    let move := toDst .mov .src1 (floatMove p)
    [rule (.freg p) .move (.freg p) .none costMove [move],
      rule (.freg p) .move (.fmem p) .none costLoad [move],
      rule (.fmem p) .move (.freg p) .none costStore [move]]

def floatConstantMoves : List Pattern :=
  [Precision.single, .double].map fun p =>
    rule (.freg p) .move (.fconst p) .none (costMove + costMove) (loadFloatConst p)

def precisionMoves : List Pattern :=
  [rule (.freg .double) .move (.freg .single) .none costMove
      [toDst .cvt .src1 (text "cvtss2sd\t%v1, %vd")],
    rule (.freg .single) .move (.freg .double) .none costMove
      [toDst .cvt .src1 (text "cvtsd2ss\t%v1, %vd")]]

def convertQuad (p : Precision) (v : Arg) : MicroOp :=
  toDst .cvt v (text ("cvtsi2" ++ suffix p ++ "q\t%v1q, %vd"))

/-- An unsigned 64-bit value with the top bit set is halved, its low bit kept for rounding,
converted, and doubled by adding one to the exponent.  The count register holds the top bit
throughout. -/
def convertUnsignedQuad (p : Precision) : List MicroOp :=
  let (shift, bits, transfer) := match p with
    | .single => ("23", "l", "movd")
    | .double => ("52", "q", "movq")
  [micro .mov .rcx .src1 .none (text "movq\t%v1q, %vdq"),
    micro .shr .rcx .none .rcx (text "shrq\t$63, %vdq"),
    micro .mov .scratch1 .src1 .none (text "movq\t%v1q, %vdq"),
    micro .shr .scratch1 .rcx .scratch1 (text "shrq\t%v1b, %vdq"),
    micro .mov .scratch2 .rcx .none (text "movq\t%v1q, %vdq"),
    micro .band .scratch2 .src1 .scratch2 (text "andq\t%v1q, %vdq"),
    micro .bor .scratch1 .scratch2 .scratch1 (text "orq\t%v1q, %vdq"),
    convertQuad p .scratch1,
    micro .movPregClass .scratch2 .dst .none (text (transfer ++ "\t%v1, %vd" ++ bits)),
    micro .shl .rcx .none .rcx (text ("shlq\t$" ++ shift ++ ", %vdq")),
    micro .add .scratch2 .rcx .scratch2
      (text ("add" ++ bits ++ "\t%v1" ++ bits ++ ", %vd" ++ bits)),
    toDst .movPregClass .scratch2 (text (transfer ++ "\t%v1" ++ bits ++ ", %vd"))]

/-- Integers to floats.  Unsigned 32-bit values are widened and converted as 64-bit ones. -/
def integerToFloat (p : Precision) : List Pattern :=
  [rule (.freg p) .move (.reg .signed .w32) .none costMove
      [toDst .cvt .src1 (text ("cvtsi2" ++ suffix p ++ "l\t%v1l, %vd"))],
    rule (.freg p) .move (.reg .signed .w64) .none costMove [convertQuad p .src1],
    rule (.freg p) .move (.reg .unsigned .w32) .none (2 * costMove)
      [micro .movz .scratch1 .src1 .none (text "movl\t%v1l, %vdl"),
        convertQuad p .scratch1],
    rule (.freg p) .move (.reg .unsigned .w64) .none (8 * costMove) (convertUnsignedQuad p)]

/-- Floats to integers, toward zero. -/
def floatToInteger (p : Precision) : List Pattern :=
  IntWidth.all.flatMap fun w => Signedness.both.map fun s =>
    let wide := w = .w64 || (w = .w32 && s = .unsigned)
    rule (.reg s w) .move (.freg p) .none costMove
      [toDst .cvt .src1
        (text ("cvtt" ++ suffix p ++ "2si\t%v1, %vd" ++ (if wide then "q" else "l")))]

def bitMoves : List Pattern :=
  let pair (p : Precision) (s : Signedness) (w : IntWidth) (there back : String) :=
    [rule (.freg p) .movePregClass (.reg s w) .none costMove
        [toDst .movPregClass .src1 (text there)],
      rule (.reg s w) .movePregClass (.freg p) .none costMove
        [toDst .movPregClass .src1 (text back)]]
  pair .double .signed .w64 "movq\t%v1q, %vd" "movq\t%v1, %vdq" ++
    pair .double .unsigned .w64 "movq\t%v1q, %vd" "movq\t%v1, %vdq" ++
    pair .single .signed .w32 "movd\t%v1l, %vd" "movd\t%v1, %vdl" ++
    pair .single .unsigned .w32 "movd\t%v1l, %vd" "movd\t%v1, %vdl"

def floatMoveRules : List Pattern :=
  floatMoves ++ floatConstantMoves ++ precisionMoves ++
    [Precision.single, .double].flatMap (fun p => integerToFloat p ++ floatToInteger p) ++ bitMoves

end Table
end Codegen
