/-
Floating constants.

A floating constant is kept as its 64-bit pattern, so that what is printed, rounded
to single precision or written into an instruction is decided by exact arithmetic
on natural numbers.  `Binary64.view` reads the pattern as a sign and m · 2^q, and
`roundRatio` is the one rounding rule: to nearest, ties to the even significand.
-/
namespace Codegen

structure Binary64 where
  bits : UInt64
  deriving DecidableEq, Repr, Inhabited

/-- A format with `precision` significant bits and exponents of the last bit between `least` and
`most`. -/
structure FloatFormat where
  precision : Nat
  least : Int
  most : Int

def FloatFormat.double : FloatFormat := ⟨53, -1074, 971⟩

def FloatFormat.single : FloatFormat := ⟨24, -149, 104⟩

/-- The quotient `num / den` rounded to a whole number, a half going to the even one. -/
def roundDiv (num den : Nat) : Nat :=
  let q := num / den
  let twice := 2 * (num % den)
  if twice > den || (twice == den && q % 2 == 1) then q + 1 else q

/-- `num / (den · 2^e)` rounded to a whole number. -/
def roundScaled (num den : Nat) (e : Int) : Nat :=
  if e < 0 then roundDiv (num * Nat.pow 2 (-e).toNat) den
  else roundDiv num (den * Nat.pow 2 e.toNat)

/-- The significand `m` and exponent `e` of the number m · 2^e of a format that is nearest to
`num / den`; `none` when it lies beyond the largest one. -/
def roundRatio (format : FloatFormat) (num den : Nat) : Option (Nat × Int) :=
  if num = 0 then some (0, format.least)
  else
    let guess : Int := (Nat.log2 num : Int) - Nat.log2 den - (format.precision - 1)
    -- The quotient has one bit less than guessed when the leading digits fall short.
    let leading := Nat.pow 2 (format.precision - 1)
    let short := if guess < 0 then num * Nat.pow 2 (-guess).toNat < den * leading
      else num < den * Nat.pow 2 guess.toNat * leading
    let e := max format.least (if short then guess - 1 else guess)
    let m := roundScaled num den e
    let (m, e) := if m = Nat.pow 2 format.precision then (m / 2, e + 1) else (m, e)
    if e > format.most then none else some (m, e)

namespace Binary64

inductive View
  | nan
  | infinite (negative : Bool)
  | finite (negative : Bool) (m : Nat) (q : Int)
  deriving DecidableEq, Repr, Inhabited

def negative (x : Binary64) : Bool := x.bits >>> 63 == 1

def exponentField (x : Binary64) : Nat := ((x.bits >>> 52) &&& 0x7FF).toNat

def fraction (x : Binary64) : Nat := (x.bits &&& 0xFFFFFFFFFFFFF).toNat

def view (x : Binary64) : View :=
  match x.exponentField with
  | 0x7FF => if x.fraction = 0 then .infinite x.negative else .nan
  | 0 => .finite x.negative x.fraction (-1074)
  | e => .finite x.negative (x.fraction + Nat.pow 2 52) (e - 1075)

/-- The quiet not-a-number that literals denote. -/
def nan : Binary64 := ⟨0x7FF8000000000001⟩

def signed (negative : Bool) (magnitude : UInt64) : Binary64 :=
  ⟨if negative then magnitude ||| 0x8000000000000000 else magnitude⟩

def infinite (negative : Bool) : Binary64 := signed negative 0x7FF0000000000000

/-- The pattern of m · 2^e, where `m` has 53 bits unless `e` is least. -/
def encode (negative : Bool) (m : Nat) (e : Int) : Binary64 :=
  signed negative <|
    if m < Nat.pow 2 52 then UInt64.ofNat m
    else UInt64.ofNat ((e + 1075).toNat * Nat.pow 2 52 + (m - Nat.pow 2 52))

/-- The number nearest to `num / den`, with a sign; `none` when it is too large. -/
def ofRatio? (negative : Bool) (num den : Nat) : Option Binary64 :=
  (roundRatio .double num den).map fun (m, e) => encode negative m e

def ratio (m : Nat) (q : Int) : Nat × Nat :=
  if q < 0 then (m, Nat.pow 2 (-q).toNat) else (m * Nat.pow 2 q.toNat, 1)

/-- The bit pattern of the single-precision number nearest to `x`.  A not-a-number keeps the top of
its payload and becomes quiet. -/
def singleBits (x : Binary64) : UInt64 :=
  let sign : UInt64 := if x.negative then 0x80000000 else 0
  match x.view with
  | .nan => sign ||| 0x7FC00000 ||| UInt64.ofNat (x.fraction / Nat.pow 2 29)
  | .infinite _ => sign ||| 0x7F800000
  | .finite _ m q =>
    let (num, den) := ratio m q
    match roundRatio .single num den with
    | none => sign ||| 0x7F800000
    | some (m, e) =>
      sign ||| (if m < Nat.pow 2 23 then UInt64.ofNat m
        else UInt64.ofNat ((e + 150).toNat * Nat.pow 2 23 + (m - Nat.pow 2 23)))

def whole? (x : Binary64) : Option Int :=
  match x.view with
  | .finite negative m q =>
    let n : Nat := if q < 0 then m / Nat.pow 2 (-q).toNat else m * Nat.pow 2 q.toNat
    some (if negative then -n else n)
  | _ => none

end Binary64

end Codegen
