/-
Where the bytes of a value are.

Sizes and offsets are 64-bit words and wrap like them.  A struct lays its members
out in order, each at the next multiple of its alignment (of one byte when the
struct is packed), and ends at a multiple of the largest alignment; a union puts
every member at offset zero.

A type with a missing part may have no size or no alignment.  The functions here
are total all the same and give such a part zero bytes; `hasSize`, `hasAlign` and
`hasScalars` say when their answer means something, and the checked forms
`size?`, `align?` and `scalars?` ask first.
-/
import Codegen.Ty

namespace Codegen

/-- Round `n` up to a multiple of the power of two `align`. -/
def alignUp (n align : Int64) : Int64 :=
  if align ≤ 1 then n else (n + align - 1) &&& ~~~(align - 1)

namespace Ty

mutual

def align : Ty → Int64
  | .missing => 0
  | .void => 1
  | .int width _ => width.bytes
  | .float kind => kind.bytes
  | .pointer _ => 8
  | .func _ _ _ => 8
  | .array element _ => element.align
  | .struct _ members packed => if packed then 1 else alignAll members 1
  | .union _ members => alignAll members 1

/-- The largest of `least` and the members' alignments. -/
def alignAll : List Ty → Int64 → Int64
  | [], least => least
  | m :: ms, least => alignAll ms (max least m.align)

end

def memberAlign (packed : Bool) (member : Ty) : Int64 :=
  if packed then 1 else member.align

mutual

def size : Ty → Int64
  | .missing => 0
  | .void => 1
  | .int width _ => width.bytes
  | .float kind => kind.bytes
  | .pointer _ => 8
  | .func _ _ _ => 8
  | .array element length => if length < 0 then 0 else length * element.size
  | .struct name members packed =>
    alignUp (endOffset packed members 0) (align (.struct name members packed))
  | .union name members => alignUp (sizeAll members 0) (align (.union name members))

/-- The offset just past the last of `members`, the first of them placed at or after `start`. -/
def endOffset (packed : Bool) : List Ty → Int64 → Int64
  | [], start => start
  | m :: ms, start => endOffset packed ms (alignUp start (memberAlign packed m) + m.size)

/-- The largest of `least` and the members' sizes. -/
def sizeAll : List Ty → Int64 → Int64
  | [], least => least
  | m :: ms, least => sizeAll ms (max least m.size)

end

/-- The offsets of a struct's members, the first of them placed at or after `start`. -/
def offsetsFrom (packed : Bool) : List Ty → Int64 → List Int64
  | [], _ => []
  | m :: ms, start =>
    let here := alignUp start (memberAlign packed m)
    here :: offsetsFrom packed ms (here + m.size)

def memberOffsets : Ty → List Int64
  | .struct _ members packed => offsetsFrom packed members 0
  | .union _ members => members.map fun _ => 0
  | _ => []

/-- A member that is no aggregate and no array, with its byte offset. -/
structure Scalar where
  type : Ty
  offset : Int64
  deriving Repr, Inhabited

mutual

def scalarsAt : Ty → Int64 → List Scalar
  | .struct _ members packed, base => memberScalars packed members base 0
  | .union _ members, base => overlaidScalars members base
  | .array element length, base =>
    (List.range length.toInt.toNat).flatMap fun i =>
      scalarsAt element (base + Int64.ofNat i * element.size)
  | .missing, base => [⟨.missing, base⟩]
  | .void, base => [⟨.void, base⟩]
  | .int width sign, base => [⟨.int width sign, base⟩]
  | .float kind, base => [⟨.float kind, base⟩]
  | .pointer target, base => [⟨.pointer target, base⟩]
  | .func params result variadic, base => [⟨.func params result variadic, base⟩]

/-- The scalars of a struct's members, the first of them placed at or after `start`. -/
def memberScalars (packed : Bool) : List Ty → Int64 → Int64 → List Scalar
  | [], _, _ => []
  | m :: ms, base, start =>
    let here := alignUp start (memberAlign packed m)
    scalarsAt m (base + here) ++ memberScalars packed ms base (here + m.size)

/-- The scalars of a union's members, all placed at `base`. -/
def overlaidScalars : List Ty → Int64 → List Scalar
  | [], _ => []
  | m :: ms, base => scalarsAt m base ++ overlaidScalars ms base

end

def scalars (t : Ty) : List Scalar := t.scalarsAt 0

/-! ### Types with missing parts -/

mutual

/-- Is every part known that the alignment depends on? -/
def hasAlign : Ty → Bool
  | .missing => false
  | .array element _ => element.hasAlign
  | .struct _ members packed => packed || hasAlignAll members
  | .union _ members => hasAlignAll members
  | _ => true

def hasAlignAll : List Ty → Bool
  | [] => true
  | m :: ms => m.hasAlign && hasAlignAll ms

end

mutual

/-- Is every part known that the size depends on? -/
def hasSize : Ty → Bool
  | .missing => false
  | .array element length => decide (length < 0) || element.hasSize
  | .struct _ members packed => (packed || hasAlignAll members) && hasSizeAll members
  | .union _ members => hasAlignAll members && hasSizeAll members
  | _ => true

def hasSizeAll : List Ty → Bool
  | [] => true
  | m :: ms => m.hasSize && hasSizeAll ms

end

mutual

/-- Is every part known that the list of scalars depends on? -/
def hasScalars : Ty → Bool
  | .array element length => element.hasSize && (decide (length ≤ 0) || element.hasScalars)
  | .struct _ members packed =>
    (packed || hasAlignAll members) && hasSizeAll members && hasScalarsAll members
  | .union _ members => hasScalarsAll members
  | _ => true

def hasScalarsAll : List Ty → Bool
  | [] => true
  | m :: ms => m.hasScalars && hasScalarsAll ms

end

/-- Does the layout of an aggregate's members exist?  Only a struct's depends on anything. -/
def hasMemberOffsets : Ty → Bool
  | .struct _ members packed => (packed || hasAlignAll members) && hasSizeAll members
  | _ => true

def size? (t : Ty) : Option Int64 := if t.hasSize then some t.size else none

def align? (t : Ty) : Option Int64 := if t.hasAlign then some t.align else none

def scalars? (t : Ty) : Option (List Scalar) := if t.hasScalars then some t.scalars else none

def memberOffsets? (t : Ty) : Option (List Int64) :=
  if t.hasMemberOffsets then some t.memberOffsets else none

end Ty

end Codegen
