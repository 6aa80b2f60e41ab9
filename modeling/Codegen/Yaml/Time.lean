/-
Times in a YAML text.

A time is a date, or a date and a time of day.  Months, days, hours, minutes and seconds have
one digit or two, and a time of day may have a fraction of a second.  After the letter that
divides it from the date it must name its offset.
-/
import Codegen.Numeral.Date
import Codegen.Numeral.Literal

namespace Codegen.Yaml.Time

def number? (cs : List Char) : Option (Nat × List Char) :=
  let digits := (cs.takeWhile Literal.isDecimal).take 2
  (Literal.decimal? digits).map fun n => (n, cs.drop digits.length)

def below? (limit : Nat) (cs : List Char) : Option (List Char) :=
  (number? cs).bind fun (n, rest) => if n < limit then some rest else none

def char? (c : Char) : List Char → Option (List Char)
  | x :: rest => if x == c then some rest else none
  | [] => none

def date? (cs : List Char) : Option (List Char) := do
  let year ← Literal.decimal? (cs.take 4)
  let rest ← char? '-' (cs.drop 4)
  let (month, rest) ← number? rest
  let (day, rest) ← number? (← char? '-' rest)
  if (cs.take 4).length == 4 && Date.isDay year month day then some rest else none

def skipFraction : List Char → List Char
  | p :: d :: rest =>
    if (p == '.' || p == ',') && Literal.isDecimal d then rest.dropWhile Literal.isDecimal
    else p :: d :: rest
  | cs => cs

def clock? (cs : List Char) : Option (List Char) := do
  let rest ← below? 24 cs
  let rest ← below? 60 (← char? ':' rest)
  let rest ← below? 60 (← char? ':' rest)
  some (skipFraction rest)

def offset? (cs : List Char) : Option (List Char) :=
  match cs with
  | 'Z' :: rest => some rest
  | sign :: a :: b :: ':' :: c :: d :: rest => do
    let hours ← Literal.decimal? [a, b]
    let minutes ← Literal.decimal? [c, d]
    if (sign == '+' || sign == '-') && hours ≤ 24 && minutes ≤ 60 then some rest else none
  | _ => none

def isTime (cs : List Char) : Bool :=
  let rest : Option (List Char) := do
    match ← date? cs with
    | [] => some []
    | 'T' :: rest => (clock? rest).bind offset?
    | 't' :: rest => (clock? rest).bind offset?
    | ' ' :: rest => clock? (rest.dropWhile (· == ' '))
    | rest => some rest
  rest == some []

end Codegen.Yaml.Time
