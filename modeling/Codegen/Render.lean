/-
Rendering instructions.

The template of an instruction is assembly text with marks for its operands: `%v1` and
`%v2` for the sources, `%vd` for the destination, each with an optional selector for the
width or the part that is shown.  A doubled percent sign stands for one.
-/
import Codegen.Assembly

namespace Codegen

open Template (Mark Selector Piece)

namespace Template.Selector

/-- The number of bytes skipped to reach the selected part. -/
def skip : Selector → Int64
  | .high => 8
  | _ => 0

def isHalf : Selector → Bool
  | .high => true
  | .low => true
  | _ => false

def widthOf (o : Operand) : Selector → Int64
  | .width w => w.bytes
  | _ => o.width

end Template.Selector

namespace Function

def labelName (function : String) (n : Int) : String := ".L" ++ function ++ "." ++ toString n

def stringName (function : String) (i : Int) : String := ".L" ++ function ++ ".str" ++ toString i

end Function

namespace Operand

/-- The place at a distance from the frame base. -/
def frameText (offset : Int64) : String := toString offset.toInt ++ "(%rbp)"

/-- The place at a distance from a symbol. -/
def symbolText (symbol : String) (offset : Int64) : String :=
  let distance :=
    if offset > 0 then "+" ++ toString offset.toInt
    else if offset < 0 then toString offset.toInt
    else ""
  symbol ++ distance ++ "(%rip)"

/-- The bit pattern of a floating constant as a signed number of the width of its type. -/
def bitsText (o : Operand) : String :=
  match o.type with
  | .float .single => toString o.floatBits.toUInt32.toInt32.toInt
  | _ => toString o.floatBits.toInt64.toInt

def registerText (o : Operand) (selector : Selector) : Except RenderError String :=
  if o.location == .none then .error (.noRegister o)
  else if selector.isHalf then .error (.halfOfRegister o)
  else .ok ("%" ++ o.location.name (selector.widthOf o).toInt)

def render (function : String) (o : Operand) (selector : Selector) : Except RenderError String :=
  let skip := selector.skip
  match o.value with
  | .const n => .ok (toString n.toInt)
  | .fconst _ => .ok o.bitsText
  | .preg _ => o.registerText selector
  | .vreg v =>
    if v.spilled then .ok (frameText (Frame.slotOffset v.slot + skip))
    else o.registerText selector
  | .slot index => .ok (frameText (Frame.slotOffset index + o.offset + skip))
  | .global symbol => .ok (symbolText symbol (o.offset + skip))
  | .string index => .ok (symbolText (Function.stringName function index) (o.offset + skip))
  | .label n => .ok (Function.labelName function n)
  | .func symbol => .ok symbol
  | .none => .error (.unresolved o)
  | .param _ => .error (.unresolved o)

end Operand

namespace Instr

def marked (i : Instr) : Mark → Option Operand
  | .src1 => i.src1
  | .src2 => i.src2
  | .dst => i.dst

/-- One piece of the template in assembly. -/
def renderPiece (function : String) (i : Instr) : Piece → Except Failure (List UInt8)
  | .byte b => .ok [b]
  | .bad position => .error (.render (.badMark i.template position))
  | .operand mark selector =>
    let result := match i.marked mark with
      | some o => o.render function selector
      | none => .error .missingOperand
    match result with
    | .ok s => .ok (Utf8.encode s)
    | .error cause => .error (.within i.template.text (.render cause))

def render (function : String) (i : Instr) : Except Failure String := do
  let parts ← (Template.pieces 0 i.template.bytes).mapM (i.renderPiece function)
  return Utf8.text parts.flatten

/-- The lines of an instruction in assembly.  An instruction without a template must be a marker,
which stands for nothing. -/
def assemble (function : String) (i : Instr) : Except Failure (List AsmLine) := do
  let label := if i.label = 0 then [] else [AsmLine.label (Function.labelName function i.label)]
  if i.template.isEmpty then
    if i.op.isMarker then return label else throw (.unselected i)
  else return label ++ [.instr (← i.render function)]

end Instr

namespace Function

/-- The data symbols of the string literals, each with a zero byte at its end. -/
def stringSymbols (f : Function) : List DataSymbol :=
  f.strings.zipIdx.map fun (s, i) =>
    let bytes := Utf8.encode s ++ [0]
    ⟨stringName f.name i, Int64.ofNat bytes.length, 1, bytes, true⟩

def assemble (f : Function) (frame : Option Frame) : Except Failure AsmFunction :=
  match f.code.mapM (Instr.assemble f.name) with
  | .error e => .error (.within f.name e)
  | .ok lines =>
    .ok {
      name := f.name
      frameSize := match frame with
        | some fr => fr.localSize
        | none => 0
      calleeSaved := match frame with
        | some fr => fr.calleeSaved.map (·.text)
        | none => []
      code := lines.flatten }

end Function

namespace Assembly

/-- The program of some functions with their frames, and some data. -/
def ofFunctions (fs : List (Function × Option Frame)) (data : List DataSymbol) :
    Except Failure Assembly := do
  let functions ← fs.mapM fun (f, frame) => f.assemble frame
  return ⟨data ++ fs.flatMap fun (f, _) => f.stringSymbols, functions⟩

end Assembly

end Codegen
