/-
The values of YAML scalars.

A scalar has a tag, and its text is read as the tag says.  Without one, the way it is written
decides: a text in quotes is a text, and a plain one may also be a null, a truth value, a
number or a time.  Tags that say nothing about the kinds here leave the text as it is.
-/
import Codegen.Numeral.Literal
import Codegen.Yaml.Time

namespace Codegen.Yaml

namespace Tag

/-- What the short form of a tag leaves out. -/
def long : String := "tag:yaml.org,2002:"

def short (tag : String) : String :=
  if tag.startsWith long then "!!" ++ String.ofList (tag.toList.drop long.length) else tag

def null : String := "!!null"

def bool : String := "!!bool"

def str : String := "!!str"

def int : String := "!!int"

def float : String := "!!float"

def time : String := "!!timestamp"

def binary : String := "!!binary"

/-- The tag of the key that takes in other mappings. -/
def merge : String := "!!merge"

def seq : String := "!!seq"

def map : String := "!!map"

def decides (tag : String) : Bool := ["", str, bool, int, float, null, time].contains tag

end Tag

inductive Value
  | null
  | bool (b : Bool)
  | int (n : Int)
  | float (x : Binary64)
  | text (s : String)
  | time
  deriving DecidableEq, Repr, Inhabited

namespace Value

/-- The words with a meaning, by tag and value. -/
def word? (s : String) : Option (String × Value) :=
  if ["true", "True", "TRUE"].contains s then some (Tag.bool, .bool true)
  else if ["false", "False", "FALSE"].contains s then some (Tag.bool, .bool false)
  else if ["", "~", "null", "Null", "NULL"].contains s then some (Tag.null, .null)
  else if [".nan", ".NaN", ".NAN"].contains s then some (Tag.float, .float .nan)
  else if [".inf", ".Inf", ".INF", "+.inf", "+.Inf", "+.INF"].contains s then
    some (Tag.float, .float (.infinite false))
  else if ["-.inf", "-.Inf", "-.INF"].contains s then some (Tag.float, .float (.infinite true))
  else none

/-- Is this a decimal number with an optional point and exponent? -/
def isDecimalFloat (cs : List Char) : Bool :=
  let body := (Literal.takeSign cs).2
  let whole := body.takeWhile Literal.isDecimal
  let rest := body.dropWhile Literal.isDecimal
  let (places, rest) := match rest with
    | '.' :: rest => (rest.takeWhile Literal.isDecimal, rest.dropWhile Literal.isDecimal)
    | rest => ([], rest)
  let exponent := match rest with
    | [] => true
    | e :: rest =>
      let digits := (Literal.takeSign rest).2
      (e == 'e' || e == 'E') && !digits.isEmpty && digits.all Literal.isDecimal
  (!whole.isEmpty || !places.isEmpty) && exponent

/-- A whole number in a base, with an optional sign after the mark of the base. -/
def based? (mark : List Char) (base : Nat) (cs : List Char) : Option Int := do
  let body ← if cs.take mark.length == mark then some (cs.drop mark.length) else none
  let (negative, digits) := Literal.takeSign body
  if digits.isEmpty then none
  else
    let n ← Literal.digitsFrom? base 0 digits
    if negative then (if n ≤ Nat.pow 2 63 then some (-n) else none)
    else if n < Nat.pow 2 63 then some n
    else if body == digits && n < Nat.pow 2 64 then some n
    else none

def negated? (mark : List Char) (base : Nat) (cs : List Char) : Option Int := do
  let digits ← if cs.take mark.length == mark then some (cs.drop mark.length) else none
  if digits.isEmpty then none
  else
    let n ← Literal.digitsFrom? base 0 digits
    if n ≤ Nat.pow 2 63 then some (-n) else none

/-- A whole number of 64 bits, signed or not.  Signs may also stand after a mark of the base. -/
def whole? (cs : List Char) : Option Int :=
  match Literal.int64? cs with
  | some n => some n.toInt
  | none => (Literal.natural cs).toOption.map fun n => (n : Int)

/-- The same for numbers that are written in an unusual way. -/
def unusual? (cs : List Char) : Option Int :=
  based? ['0', 'b'] 2 cs <|> negated? ['-', '0', 'b'] 2 cs <|>
    based? ['0', 'o'] 8 cs <|> negated? ['-', '0', 'o'] 8 cs

/-- The number that a text spells, by tag and value; underscores are ignored. -/
def number? (cs : List Char) : Option (String × Value) :=
  let plain := cs.filter (· != '_')
  match whole? plain with
  | some n => some (Tag.int, .int n)
  | none =>
    match (if isDecimalFloat plain then Literal.float? plain else none) with
    | some x => some (Tag.float, .float x)
    | none => (unusual? plain).map fun n => (Tag.int, .int n)

/-- The kind and value of a text by the way it is written; a time only if one may be. -/
def guess (times : Bool) (s : String) : String × Value :=
  match word? s, s.toList with
  | some r, _ => r
  | none, [] => (Tag.str, .text s)
  | none, c :: cs =>
    let found :=
      if c == '.' then (Literal.float? (c :: cs)).map fun x => (Tag.float, Value.float x)
      else if Literal.isDecimal c || c == '+' || c == '-' then
        if times && Time.isTime (c :: cs) then some (Tag.time, .time) else number? (c :: cs)
      else none
    found.getD (Tag.str, .text s)

/-- The nearest number to a whole one of 64 bits. -/
def floated? (n : Int) : Option Value :=
  if n < Nat.pow 2 63 then (Binary64.ofRatio? (n < 0) n.natAbs 1).map .float else none

/-- The kind and value of a text with a tag; none if the text is of another kind.  A whole number is
good for any number. -/
def resolve? (tag s : String) : Option (String × Value) :=
  if !Tag.decides tag then some (tag, .text s)
  else if tag == Tag.str then some (Tag.str, .text s)
  else
    let (kind, v) := guess (tag.isEmpty || tag == Tag.time) s
    if tag.isEmpty || tag == kind then some (kind, v)
    else match v with
      | .int n => if tag == Tag.float then (floated? n).map fun v => (Tag.float, v) else none
      | _ => none

/-! ### Values of a kind -/

/-- A truth value; more words mean one than have its tag. -/
def bool? : Value → Option Bool
  | .bool b => some b
  | .text s =>
    if ["y", "Y", "yes", "Yes", "YES", "on", "On", "ON"].contains s then some true
    else if ["n", "N", "no", "No", "NO", "off", "Off", "OFF"].contains s then some false
    else none
  | _ => none

/-- A whole number of 64 bits.  Places after a point are dropped, and what is too small becomes the
smallest number. -/
def int? : Value → Option Int
  | .int n => if n < Nat.pow 2 63 then some n else none
  | .float x =>
    let limit : Int := Nat.pow 2 63
    match x.view with
    | .nan => none
    | .infinite negative => if negative then some (-limit) else none
    | .finite _ _ _ => x.whole?.bind fun n =>
      if n > limit then none else if -limit ≤ n ∧ n < limit then some n else some (-limit)
  | _ => none

def byte? : Value → Option UInt8
  | .int n => if 0 ≤ n ∧ n < 256 then some (UInt8.ofNat n.toNat) else none
  | .float x => x.whole?.bind fun n =>
    if 0 ≤ n ∧ n < 256 then some (UInt8.ofNat n.toNat) else none
  | _ => none

end Value

end Codegen.Yaml
