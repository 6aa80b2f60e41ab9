/-
Constant folding.

Operations on integer constants are evaluated in 64 bits.  Operands are first brought
into the range of their types and the result into the range of its own, so that the
outcome is that of two's-complement arithmetic at the width of the type.  A division
by zero is left as it is.
-/
import Codegen.Tree

namespace Codegen

/-- Wrap a value to the width and signedness of an integer type. -/
def truncate (n : Int64) (t : Ty) : Int64 :=
  let size := t.size
  if size ≤ 0 || size ≥ 8 then n
  else
    let shift := 64 - 8 * size
    if t.isUnsigned then ((n.toUInt64 <<< shift.toUInt64) >>> shift.toUInt64).toInt64
    else (n <<< shift) >>> shift

namespace Constant

def ofBool (b : Bool) : Int64 := if b then 1 else 0

/-- Is `x` below `y` in the order of a signedness? -/
def less (unsigned : Bool) (x y : Int64) : Bool :=
  if unsigned then x.toUInt64 < y.toUInt64 else x < y

def divide (unsigned : Bool) (x y : Int64) : Int64 :=
  if unsigned then (x.toUInt64 / y.toUInt64).toInt64 else x / y

def remainder (unsigned : Bool) (x y : Int64) : Int64 :=
  if unsigned then (x.toUInt64 % y.toUInt64).toInt64 else x % y

/-- The count of a shift: its low six bits. -/
def count (y : Int64) : Int64 := y &&& 63

/-- Shift right, filling with zeros, what the operand's own width holds. -/
def shiftRight (t : Ty) (x y : Int64) : Int64 :=
  ((truncate x (.intOfSize t.size .unsigned)).toUInt64 >>> (count y).toUInt64).toInt64

def unary (op : Opcode) (x : Int64) : Option Int64 :=
  match op with
  | .ir .move => some x
  | .ir .bnot => some (~~~x)
  | .ir .lnot => some (ofBool (x == 0))
  | _ => none

/-- An operation on two constants, the first of type `t`. -/
def binary (op : Opcode) (t : Ty) (x y : Int64) : Option Int64 :=
  let unsigned := t.isUnsigned
  match op with
  | .ir .add => some (x + y)
  | .ir .sub => some (x - y)
  | .ir .mul => some (x * y)
  | .ir .div => if y = 0 then none else some (divide unsigned x y)
  | .ir .mod => if y = 0 then none else some (remainder unsigned x y)
  | .ir .bor => some (x ||| y)
  | .ir .band => some (x &&& y)
  | .ir .xor => some (x ^^^ y)
  | .ir .bshl => some (x <<< count y)
  | .ir .bshr => some (shiftRight t x y)
  | .ir .ashr => some (x >>> count y)
  | .ir .land => some (ofBool (x != 0 && y != 0))
  | .ir .lor => some (ofBool (x != 0 || y != 0))
  | .ir .eq => some (ofBool (x == y))
  | .ir .ne => some (ofBool (x != y))
  | .ir .lt => some (ofBool (less unsigned x y))
  | .ir .gt => some (ofBool (!less unsigned x y && x != y))
  | .ir .le => some (ofBool (less unsigned x y || x == y))
  | .ir .ge => some (ofBool (!less unsigned x y))
  | _ => none

end Constant

namespace Tree

def constant? : Tree → Option (Int64 × Ty)
  | .leaf o =>
    match o.value with
    | .const n => some (n, o.type)
    | _ => none
  | _ => none

/-- A constant in the range of its type; a type that is no integer gives way to `other`. -/
def ranged (n : Int64) (t other : Ty) : Int64 × Ty :=
  let t := if t.isInteger then t else other
  (truncate n t, t)

def evaluate (op : Opcode) (type : Ty) (l r : Tree) : Option Int64 :=
  if !type.isInteger then none
  else match l.constant? with
    | none => none
    | some (x, tx) =>
      let (x, tx) := ranged x tx type
      let value :=
        if r.isAbsent then Constant.unary op x
        else match r.constant? with
          | none => none
          | some (y, ty) => Constant.binary op tx x (ranged y ty tx).1
      value.map fun v => truncate v type

/-- Evaluate the operations on constants, below the root. -/
def fold : Tree → Tree
  | .absent => .absent
  | .leaf o => .leaf o
  | .node op type l r =>
    let l := l.fold
    let r := r.fold
    match evaluate op type l r with
    | some v => .leaf (.const v type)
    | none => .node op type l r

/-- Fold a whole tree.  A folded root with a destination becomes a move of the constant, so that the
result still reaches it. -/
def foldRoot (dst : Option Operand) : Tree → Tree
  | .node op type l r =>
    let l := l.fold
    let r := r.fold
    if dst.isNone then .node op type l r
    else match evaluate op type l r with
      | some v => .node (.ir .move) type (.leaf (.const v type)) .absent
      | none => .node op type l r
  | t => t

end Tree

end Codegen
