/-
The decimal text of a floating constant.

The digits are the fewest that read back as the same number, and of those the
nearest to it.  A finite number m · 2^q is what every real in an interval around it
rounds to; `shortest` tries grids of one digit, two digits and so on, and takes the
first whose point next to the number lies in that interval.
-/
import Codegen.Numeral.Binary64

namespace Codegen

/-- Decimal digits d₁d₂…dₙ for the number 0.d₁d₂…dₙ · 10^point. -/
structure Decimal where
  digits : List Char
  point : Int
  deriving DecidableEq, Repr, Inhabited

namespace Decimal

/-- How many decimal digits a natural number has; zero has none. -/
def width (n : Nat) : Nat := if n = 0 then 0 else (Nat.toDigits 10 n).length

/-- The exponent of the leading digit of `num / den`, which is positive. -/
def leading (num den : Nat) : Int :=
  if den ≤ num then (width (num / den) : Int) - 1 else -(width ((den + num - 1) / num - 1) : Int)

def trimZeros (cs : List Char) : List Char := (cs.reverse.dropWhile (· == '0')).reverse

/-- The number c · 10^k written out. -/
def ofScaled (c : Nat) (k : Int) : Decimal :=
  let cs := Nat.toDigits 10 c
  ⟨trimZeros cs, k + cs.length⟩

/-- The interval of reals that round to one number, in quarters of its last bit, with whether the
ends belong to it. -/
structure Rounds where
  below : Nat
  value : Nat
  above : Nat
  closed : Bool

/-- What rounds to m · 2^q.  The gap below the first significand of a binade is half as wide. -/
def Rounds.of (m : Nat) (q : Int) : Rounds :=
  let narrow := m = Nat.pow 2 52 && q > -1074
  ⟨if narrow then 4 * m - 1 else 4 * m - 2, 4 * m, 4 * m + 2, m % 2 == 0⟩

/-- Does the grid point `x` lie in the interval, all scaled to whole numbers by `unit`? -/
def Rounds.contains (r : Rounds) (unit x : Nat) : Bool :=
  if r.closed then r.below * unit ≤ x && x ≤ r.above * unit
  else r.below * unit < x && x < r.above * unit

/-- The point of the grid 10^k that reads back as m · 2^q and is nearest to it, if there is one;
a tie goes to the even digit. -/
def onGrid (m : Nat) (q k : Int) : Option Nat :=
  let r := Rounds.of m q
  let step := Nat.pow 10 k.toNat * Nat.pow 2 (2 - q).toNat
  let unit := Nat.pow 10 (-k).toNat * Nat.pow 2 (q - 2).toNat
  let lo := r.value * unit / step
  let hi := lo + 1
  let loIn := r.contains unit (lo * step)
  let hiIn := r.contains unit (hi * step)
  let toLo := r.value * unit - lo * step
  let toHi := hi * step - r.value * unit
  if loIn && hiIn then
    if toLo < toHi || (toLo == toHi && lo % 2 == 0) then some lo else some hi
  else if loIn then some lo
  else if hiIn then some hi
  else none

/-- Try grids of `n` digits and more, `tries` of them. -/
def search (m : Nat) (q lead : Int) : Nat → Nat → Decimal
  | 0, _ => ⟨[], 0⟩
  | tries + 1, n =>
    let k := lead - n + 1
    match onGrid m q k with
    | some c => ofScaled c k
    | none => search m q lead tries (n + 1)

/-- The fewest digits that read back as m · 2^q, the nearest such; seventeen always suffice. -/
def shortest (m : Nat) (q : Int) : Decimal :=
  if m = 0 then ⟨[], 0⟩
  else
    let (num, den) := Binary64.ratio m q
    search m q (leading num den) 17 1

/-! ### Layout

Positional notation is used for exponents from -4 to 5, scientific notation outside
them; a scientific exponent has a sign and at least two digits.
-/

/-- An exponent with its sign and at least two digits. -/
def exponentText (e : Int) : String :=
  let digits := toString e.natAbs
  let digits := if digits.length < 2 then "0" ++ digits else digits
  (if e < 0 then "-" else "+") ++ digits

/-- `d.ddde±xx`. -/
def scientific (d : Decimal) : String :=
  let (first, rest) := match d.digits with
    | [] => ('0', [])
    | c :: cs => (c, cs)
  let mantissa := if rest.isEmpty then String.singleton first
    else String.singleton first ++ "." ++ String.ofList rest
  mantissa ++ "e" ++ exponentText (d.point - 1)

/-- `ddd.ddd`, without a point when nothing follows it. -/
def positional (d : Decimal) : String :=
  let whole :=
    if 0 < d.point then
      let n := d.point.toNat
      d.digits.take n ++ List.replicate (n - d.digits.length) '0'
    else ['0']
  let part :=
    if 0 < d.point then d.digits.drop d.point.toNat
    else List.replicate (-d.point).toNat '0' ++ d.digits
  if part.isEmpty then String.ofList whole else String.ofList (whole ++ '.' :: part)

/-- The text of a positive number or zero. -/
def text (d : Decimal) : String :=
  if d.digits.isEmpty then "0"
  else if d.point - 1 < -4 || d.point - 1 ≥ 6 then d.scientific
  else d.positional

end Decimal

namespace Binary64

/-- How a floating constant is printed. -/
def text (x : Binary64) : String :=
  match x.view with
  | .nan => "NaN"
  | .infinite negative => if negative then "-Inf" else "+Inf"
  | .finite negative m q => (if negative then "-" else "") ++ (Decimal.shortest m q).text

end Binary64

end Codegen
