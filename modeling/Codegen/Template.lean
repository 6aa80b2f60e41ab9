/-
Assembly templates.

A template is assembly text with marks for the operands.  It is kept as bytes,
because expansion and rendering look at one byte at a time.

The marks are `%v1` and `%v2` for the sources and `%vd` for the destination, each with an
optional selector for the width or the part that is shown.  A doubled percent sign
stands for one.
-/
import Codegen.Text.Utf8
import Codegen.Ty

namespace Codegen

structure Template where
  bytes : List UInt8
  deriving DecidableEq, Repr, Inhabited

namespace Template

def empty : Template := ⟨[]⟩

def ofString (s : String) : Template := ⟨Utf8.encode s⟩

def isEmpty (t : Template) : Bool := t.bytes.isEmpty

def text (t : Template) : String := Utf8.text t.bytes

inductive Mark
  | src1
  | src2
  | dst
  deriving DecidableEq, Repr, Inhabited

inductive Selector
  | plain
  /-- At the width of one of the letters. -/
  | width (w : IntWidth)
  | high
  | low
  /-- The bit pattern of a floating constant. -/
  | bits
  deriving DecidableEq, Repr, Inhabited

inductive Piece
  | byte (b : UInt8)
  | operand (mark : Mark) (selector : Selector)
  /-- A percent sign, at a position, that starts nothing known. -/
  | bad (position : Nat)
  deriving DecidableEq, Repr, Inhabited

def Mark.ofByte? (b : UInt8) : Option Mark :=
  if b == 0x31 then some .src1
  else if b == 0x32 then some .src2
  else if b == 0x64 then some .dst
  else none

def Selector.ofByte? (b : UInt8) : Option Selector :=
  if b == 0x62 then some (.width .w8)
  else if b == 0x77 then some (.width .w16)
  else if b == 0x6c then some (.width .w32)
  else if b == 0x71 then some (.width .w64)
  else if b == 0x48 then some .high
  else if b == 0x4c then some .low
  else if b == 0x46 then some .bits
  else none

/-! ### Size letters -/

/-- Fill in a size letter: `%s` becomes the letter, and an operand mark `%v` with its operand gets
the letter unless a selector follows it.  A doubled percent sign stays doubled. -/
def expandBytes (letter : UInt8) : List UInt8 → List UInt8
  | [] => []
  | [a] => [a]
  | a :: b :: rest =>
    if a != 0x25 then a :: expandBytes letter (b :: rest)
    else if b == 0x25 then a :: b :: expandBytes letter rest
    else if b == 0x73 then letter :: expandBytes letter rest
    else if b == 0x76 then
      match rest with
      | [] => [a, b]
      | [c] => [a, b, c, letter]
      | c :: d :: more =>
        if (Selector.ofByte? d).isSome then a :: b :: c :: expandBytes letter (d :: more)
        else a :: b :: c :: letter :: expandBytes letter (d :: more)
    else a :: expandBytes letter (b :: rest)

def expand (t : Template) (letter : UInt8) : Template := ⟨expandBytes letter t.bytes⟩

/-- The letters by number: none for zero, then the four widths. -/
def sizeLetter? (n : Int) : Option UInt8 :=
  if n < 0 then none else (Utf8.encode "?bwlq")[n.toNat]?

/-! ### Pieces -/

def pieces : Nat → List UInt8 → List Piece
  | _, [] => []
  | position, a :: rest =>
    if a != 0x25 then .byte a :: pieces (position + 1) rest
    else match rest with
      | 0x25 :: rest => .byte 0x25 :: pieces (position + 2) rest
      | 0x76 :: m :: rest =>
        match Mark.ofByte? m, rest with
        | none, _ => [.bad position]
        | some mark, [] => [.operand mark .plain]
        | some mark, s :: more =>
          match Selector.ofByte? s with
          | some selector => .operand mark selector :: pieces (position + 4) more
          | none => .operand mark .plain :: pieces (position + 3) (s :: more)
      | _ => [.bad position]

/-- The template on one line: tabs become spaces. -/
def flatText (t : Template) : String :=
  Utf8.text (t.bytes.map fun b => if b == 9 then 32 else b)

end Template

end Codegen
