/-
Eightbytes.

A small aggregate travels in registers, eight bytes at a time.  Each eightbyte goes
to a vector register when everything in it is a float, and to a general-purpose
register otherwise.  An aggregate travels in memory instead when it is empty or
larger than sixteen bytes, when it contains an extended-precision float, or when one
of its scalars is misaligned or lies across two eightbytes.
-/
import Codegen.Ty.Layout

namespace Codegen

/-- The class of an eightbyte.  `none` is that of one nothing is known about yet. -/
inductive Eightbyte
  | none
  | integer
  | sse
  | memory
  deriving DecidableEq, Repr, Inhabited

namespace Eightbyte

def text : Eightbyte → String
  | .none => "NONE"
  | .integer => "INTEGER"
  | .sse => "SSE"
  | .memory => "MEMORY"

def ofCode : Int → Eightbyte
  | 1 => .integer
  | 2 => .sse
  | 3 => .memory
  | _ => .none

/-- The number of eightbytes that `size` bytes start. -/
def count (size : Int64) : Nat := ((size + 7) / 8).toInt.toNat

/-- Does a scalar keep the aggregate around it in memory? -/
def forcesMemory (s : Ty.Scalar) : Bool :=
  let size := s.type.size
  s.type.isLongDouble ||
    (size != 0 &&
      (s.offset % s.type.align != 0 || s.offset / 8 != (s.offset + size - 1) / 8))

/-- The class of an eightbyte after one more scalar of it was seen: an integer decides. -/
def join (old : Eightbyte) (t : Ty) : Eightbyte :=
  if old = .integer then .integer else if t.isSse then .sse else .integer

def addScalar (classes : List Eightbyte) (s : Ty.Scalar) : List Eightbyte :=
  if s.type.size = 0 then classes
  else classes.modify (s.offset / 8).toInt.toNat (join · s.type)

/-- The class of an eightbyte when all was seen: one that holds nothing counts as an integer. -/
def settle (c : Eightbyte) : Eightbyte := if c = .none then .integer else c

/-- The class of each eightbyte of a type that travels in registers; none when it travels in
memory. -/
def classify (t : Ty) : Option (List Eightbyte) :=
  let size := t.size
  if size > 16 || size == 0 then Option.none
  else if t.scalars.any forcesMemory then Option.none
  else some ((t.scalars.foldl addScalar (List.replicate (count size) .none)).map settle)

/-- Is everything known that `classify` depends on?  A type too large is not taken apart. -/
def canClassify (t : Ty) : Bool :=
  t.hasSize && (t.size > 16 || t.size == 0 || (t.hasScalars && (t.size + 7) / 8 ≥ 0))

/-- The number of scalars that start in each eightbyte. -/
def memberCounts (t : Ty) : List Nat :=
  t.scalars.foldl (fun counts s => counts.modify (s.offset / 8).toInt.toNat (· + 1))
    (List.replicate (count t.size) 0)

end Eightbyte

end Codegen
