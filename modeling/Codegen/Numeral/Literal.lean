/-
Reading numbers.

Integers may carry a base mark (`0x`, `0o`, `0b`, or a leading zero for octal) and
underscores between digits; plain indexes are decimal with an optional sign.
Floating literals are decimal or, with `0x` and a binary exponent, hexadecimal, and
`inf`, `infinity` and `nan` in any case.  A literal that is too large is refused.
-/
import Codegen.Numeral.Binary64

namespace Codegen

inductive NumberError
  | malformed
  | tooLarge
  deriving DecidableEq, Repr, Inhabited

namespace NumberError

def message : NumberError → String
  | .malformed => "invalid syntax"
  | .tooLarge => "value out of range"

end NumberError

namespace Literal

/-- The value of a digit or letter: `0` to `9`, then `a` to `z` in either case from ten. -/
def digit? (c : Char) : Option Nat :=
  if '0' ≤ c ∧ c ≤ '9' then some (c.toNat - '0'.toNat)
  else if 'a' ≤ c.toLower ∧ c.toLower ≤ 'z' then some (c.toLower.toNat - 'a'.toNat + 10)
  else none

def isDecimal (c : Char) : Bool := '0' ≤ c && c ≤ '9'

/-- What the scan for underscores saw last. -/
inductive Seen
  | start
  | digit
  | underscore
  | other
  deriving DecidableEq, Repr

/-- Walk over a number: an underscore must follow a digit and be followed by one. -/
def separatedFrom (hex : Bool) : Seen → List Char → Bool
  | seen, [] => seen != .underscore
  | seen, c :: cs =>
    if isDecimal c || (hex && 'a' ≤ c.toLower && c.toLower ≤ 'f') then separatedFrom hex .digit cs
    else if c == '_' then seen == .digit && separatedFrom hex .underscore cs
    else seen != .underscore && separatedFrom hex .other cs

/-- Split off a sign; true for a minus. -/
def takeSign : List Char → Bool × List Char
  | '-' :: cs => (true, cs)
  | '+' :: cs => (false, cs)
  | cs => (false, cs)

/-- Do the underscores of a number stand between digits?  A base mark counts as a digit. -/
def underscoresOk (cs : List Char) : Bool :=
  match (takeSign cs).2 with
  | '0' :: b :: rest =>
    if b.toLower == 'x' then separatedFrom true .digit rest
    else if b.toLower == 'b' || b.toLower == 'o' then separatedFrom false .digit rest
    else separatedFrom false .start ('0' :: b :: rest)
  | body => separatedFrom false .start body

/-- The base a literal's mark gives it, and the digits after the mark. -/
def takeBase : List Char → Nat × List Char
  | '0' :: b :: c :: rest =>
    if b.toLower == 'b' then (2, c :: rest)
    else if b.toLower == 'o' then (8, c :: rest)
    else if b.toLower == 'x' then (16, c :: rest)
    else (8, b :: c :: rest)
  | '0' :: rest => (8, rest)
  | cs => (10, cs)

/-- The value of digits in a base, skipping underscores. -/
def digitsFrom? (base : Nat) : Nat → List Char → Option Nat
  | n, [] => some n
  | n, c :: cs =>
    if c == '_' then digitsFrom? base n cs
    else match digit? c with
      | some d => if d < base then digitsFrom? base (n * base + d) cs else none
      | none => none

/-- The value of digits in a base, skipping underscores, up to the first that is no digit or with
which the value reaches `limit`. -/
def digitsBelow (base limit : Nat) : Nat → List Char → Except NumberError Nat
  | n, [] => .ok n
  | n, c :: cs =>
    if c == '_' then digitsBelow base limit n cs
    else match digit? c with
      | some d =>
        if base ≤ d then .error .malformed
        else if limit ≤ n * base + d then .error .tooLarge
        else digitsBelow base limit (n * base + d) cs
      | none => .error .malformed

def natural (cs : List Char) : Except NumberError Nat :=
  if cs.isEmpty then .error .malformed
  else
    let (base, body) := takeBase cs
    match digitsBelow base (Nat.pow 2 64) 0 body with
    | .ok n => if cs.contains '_' && !underscoresOk cs then .error .malformed else .ok n
    | .error e => .error e

/-- A signed 64-bit number with an optional base mark. -/
def int64 (cs : List Char) : Except NumberError Int64 :=
  let (negative, body) := takeSign cs
  match natural body with
  | .ok n =>
    if negative then (if n ≤ Nat.pow 2 63 then .ok (Int64.ofInt (-n)) else .error .tooLarge)
    else if n < Nat.pow 2 63 then .ok (Int64.ofNat n) else .error .tooLarge
  | .error e => .error e

/-- A signed 64-bit number with an optional base mark, if it is one. -/
def int64? (cs : List Char) : Option Int64 := (int64 cs).toOption

/-- A natural number below 2^64 with an optional base mark, as a 64-bit word. -/
def word? (cs : List Char) : Option Int64 := (natural cs).toOption.map Int64.ofNat

/-- A constant: a signed number, or else an unsigned one taken as the same 64 bits. -/
def constant? (cs : List Char) : Option Int64 := int64? cs <|> word? cs

def decimal? (cs : List Char) : Option Nat :=
  if cs.isEmpty || !cs.all isDecimal then none else digitsFrom? 10 0 cs

/-- A decimal number with an optional sign, in 64 bits. -/
def index? (cs : List Char) : Option Int :=
  let (negative, body) := takeSign cs
  match decimal? body with
  | some n =>
    if negative then (if n ≤ Nat.pow 2 63 then some (-n) else none)
    else if n < Nat.pow 2 63 then some n else none
  | none => none

/-! ### Floating literals -/

def spells (word : String) (cs : List Char) : Bool := String.ofList (cs.map Char.toLower) == word

/-- An infinity, which may be signed, or a not-a-number, which may not. -/
def special? (cs : List Char) : Option Binary64 :=
  if spells "nan" cs then some .nan
  else
    let (negative, body) := takeSign cs
    if spells "inf" body || spells "infinity" body then some (.infinite negative) else none

/-- Digits with at most one point: their value, and how many stood after the point. -/
structure Mantissa where
  value : Nat := 0
  digits : Nat := 0
  places : Nat := 0
  sawPoint : Bool := false

def takeMantissa (base : Nat) : Mantissa → List Char → Mantissa × List Char
  | m, [] => (m, [])
  | m, c :: cs =>
    if c == '_' then takeMantissa base m cs
    else if c == '.' then
      if m.sawPoint then (m, c :: cs) else takeMantissa base { m with sawPoint := true } cs
    else match digit? c with
      | some d =>
        if d < base then
          takeMantissa base
            { m with
              value := m.value * base + d
              digits := m.digits + 1
              places := if m.sawPoint then m.places + 1 else m.places } cs
        else (m, c :: cs)
      | none => (m, c :: cs)

/-- The largest exponent that is still counted; every float is zero or infinite well before it. -/
def exponentLimit : Nat := 10000

/-- Read an exponent after its mark: an optional sign and decimal digits, at least one, to the end. -/
def exponent? (cs : List Char) : Option Int :=
  let (negative, body) := takeSign cs
  let digits := body.filter (· != '_')
  if body.head?.any isDecimal && digits.all isDecimal then
    let n := digits.foldl
      (fun n c => if n < exponentLimit then n * 10 + (c.toNat - '0'.toNat) else n) 0
    some (if negative then -n else n)
  else none

/-- `m · base^e`, with a sign. -/
def scaled? (negative : Bool) (m base : Nat) (e : Int) : Option Binary64 :=
  if e < 0 then Binary64.ofRatio? negative m (Nat.pow base (-e).toNat)
  else if m = 0 then Binary64.ofRatio? negative 0 1
  else Binary64.ofRatio? negative (m * Nat.pow base e.toNat) 1

/-- A hexadecimal literal after its `0x`; the binary exponent is required. -/
def hexFloat? (negative : Bool) (cs : List Char) : Option Binary64 :=
  let (m, rest) := takeMantissa 16 {} cs
  match rest with
  | p :: cs =>
    if m.digits = 0 || p.toLower != 'p' then none
    else match exponent? cs with
      | some e => scaled? negative m.value 2 (e - 4 * m.places)
      | none => none
  | [] => none

/-- A decimal literal; the exponent is optional. -/
def decimalFloat? (negative : Bool) (cs : List Char) : Option Binary64 :=
  let (m, rest) := takeMantissa 10 {} cs
  if m.digits = 0 then none
  else match rest with
    | [] => scaled? negative m.value 10 (-m.places)
    | p :: cs =>
      if p.toLower != 'e' then none
      else match exponent? cs with
        | some e => scaled? negative m.value 10 (e - m.places)
        | none => none

def float? (cs : List Char) : Option Binary64 :=
  match special? cs with
  | some x => some x
  | none =>
    if cs.contains '_' && !underscoresOk cs then none
    else
      let (negative, body) := takeSign cs
      match body with
      | '0' :: x :: c :: rest =>
        if x.toLower == 'x' then hexFloat? negative (c :: rest) else decimalFloat? negative body
      | _ => decimalFloat? negative body

end Literal
end Codegen
