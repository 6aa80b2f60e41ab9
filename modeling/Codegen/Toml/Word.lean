/-
Numbers and times of TOML.

The first characters of a word tell whether it is a number or a time, and then it goes on as long as
there are characters that could belong to one.  Whether it is well formed is a second question.
-/
import Codegen.Numeral.Date
import Codegen.Toml.Statement
import Codegen.Toml.Text

namespace Codegen.Toml

/-! ### Integers -/

/-- Digits with single underscores between them, of a class. -/
def isDigits (digit : Char → Bool) : List Char → Bool
  | [] => false
  | [c] => digit c
  | c :: '_' :: rest => digit c && isDigits digit rest
  | c :: rest => digit c && isDigits digit rest

/-- Decimal digits without a leading zero. -/
def isWhole (cs : List Char) : Bool :=
  isDigits Literal.isDecimal cs && (cs.length == 1 || cs.head? != some '0')

def isDigitOf (base : Nat) (c : Char) : Bool := (Literal.digit? c).any (· < base)

def base? (mark : Char) : Option Nat :=
  if mark == 'x' then some 16
  else if mark == 'o' then some 8
  else if mark == 'b' then some 2
  else none

def isInteger (cs : List Char) : Bool :=
  match cs with
  | '0' :: mark :: rest => (base? mark).any fun base => isDigits (isDigitOf base) rest
  | _ => isWhole (Literal.takeSign cs).2

/-- The integer that a word spells, if it is one of 64 bits. -/
def integer? (cs : List Char) : Option Int64 := if isInteger cs then Literal.int64? cs else none

/-! ### Numbers -/

def isPoint (c : Char) : Bool := c == '.' || c == 'e' || c == 'E'

def isNumeral (c : Char) : Bool :=
  Literal.isDecimal c || c == '+' || c == '-' || c == '_' || isPoint c

/-- A number without the mark of a base, and what follows. -/
def plainNumber? (cs : List Char) : Option (Value × List Char) :=
  let word := cs.takeWhile isNumeral
  match cs.dropWhile isNumeral with
  | 'i' :: 'n' :: 'f' :: rest => some (.other, rest)
  | 'n' :: 'a' :: 'n' :: rest => some (.other, rest)
  | 'i' :: _ => none
  | 'n' :: _ => none
  | rest =>
    if word.isEmpty then none
    else if word.any isPoint then some (.other, rest)
    else some (.int (integer? word), rest)

/-- A number, and what follows.  A leading zero with no mark of a base after it stands alone. -/
def number? (cs : List Char) : Option (Value × List Char) :=
  match cs with
  | '0' :: mark :: c :: rest =>
    if isPoint mark then plainNumber? cs
    else match base? mark with
      | none => some (.int (integer? ['0']), mark :: c :: rest)
      | some base =>
        let isPart (c : Char) := isDigitOf base c || c == '_'
        let digits := (c :: rest).takeWhile isPart
        some (.int (integer? ('0' :: mark :: digits)), (c :: rest).dropWhile isPart)
  | cs => plainNumber? cs

/-! ### Times -/

/-- A number of two digits, and what follows. -/
def twoDigits? : List Char → Option (Nat × List Char)
  | a :: b :: rest => (Literal.decimal? [a, b]).map fun n => (n, rest)
  | _ => none

/-- What follows a number of two digits that is at most `most`. -/
def upTo? (most : Nat) (cs : List Char) : Option (List Char) :=
  (twoDigits? cs).bind fun (n, rest) => if n ≤ most then some rest else none

def char? (c : Char) : List Char → Option (List Char)
  | x :: rest => if x == c then some rest else none
  | [] => none

def date? (cs : List Char) : Option (List Char) := do
  let (century, rest) ← twoDigits? cs
  let (year, rest) ← twoDigits? rest
  let (month, rest) ← twoDigits? (← char? '-' rest)
  let (day, rest) ← twoDigits? (← char? '-' rest)
  if Date.isDay (100 * century + year) month day then some rest else none

/-- What follows a time of day; a second may be a leap second, and may have places. -/
def clock? (cs : List Char) : Option (List Char) := do
  let rest ← upTo? 23 cs
  let rest ← upTo? 59 (← char? ':' rest)
  let rest ← upTo? 60 (← char? ':' rest)
  match rest with
  | '.' :: d :: rest =>
    if Literal.isDecimal d then some (rest.dropWhile Literal.isDecimal) else none
  | ['.'] => none
  | rest => some rest

/-- Is this the end of a time of day, or an offset after it? -/
def isOffset (cs : List Char) : Bool :=
  match cs with
  | [] => true
  | ['Z'] => true
  | ['z'] => true
  | sign :: rest =>
    (sign == '+' || sign == '-') &&
      ((upTo? 23 rest).bind fun rest => (char? ':' rest).bind (upTo? 59)) == some []

/-- Is there such a time?  It is a date, a time of day, or both and perhaps an offset. -/
def isReal (cs : List Char) : Bool :=
  clock? cs == some [] ||
    match date? cs with
    | none => false
    | some [] => true
    | some (c :: rest) => (c == 'T' || c == 't' || c == ' ') && (clock? rest).any isOffset

/-- Does a time start here, rather than a number? -/
def startsTime : List Char → Bool
  | a :: b :: ':' :: _ => Literal.isDecimal a && Literal.isDecimal b
  | a :: b :: c :: d :: '-' :: _ => [a, b, c, d].all Literal.isDecimal
  | _ => false

def isTimePart (c : Char) : Bool :=
  Literal.isDecimal c || ['-', 'T', 't', ':', '.', '+', 'Z', 'z'].contains c

/-- The characters of a time, and what follows.  It goes on after a space with a digit, and then
takes one more character unseen; `spaced` says that there was one. -/
def takeTime (spaced : Bool) : List Char → List Char × List Char
  | [] => ([], [])
  | [c] => if isTimePart c then ([c], []) else ([], [c])
  | [c, d] =>
    if c == ' ' && !spaced && Literal.isDecimal d then ([c, d], [])
    else if !isTimePart c then ([], [c, d])
    else if isTimePart d then ([c, d], [])
    else ([c], [d])
  | c :: d :: x :: rest =>
    if c == ' ' && !spaced && Literal.isDecimal d then
      if x.toNat < 128 then
        let (time, rest) := takeTime true rest
        (c :: d :: x :: time, rest)
      else ([c, d], x :: rest)
    else if isTimePart c then
      let (time, rest) := takeTime spaced (d :: x :: rest)
      (c :: time, rest)
    else ([], c :: d :: x :: rest)

def word? (cs : List Char) : Option (Value × List Char) :=
  match cs with
  | 't' :: 'r' :: 'u' :: 'e' :: rest => some (.bool true, rest)
  | 'f' :: 'a' :: 'l' :: 's' :: 'e' :: rest => some (.bool false, rest)
  | cs =>
    if startsTime cs then
      let (time, rest) := takeTime false cs
      some (.time (isReal time), rest)
    else number? cs

end Codegen.Toml
