/-
Blanks, comments and quoted texts of TOML.
-/
import Codegen.Numeral.Literal

namespace Codegen.Toml

/-! ### Blanks -/

/-- May this character stand in a comment or a text?  Control characters may not, except the tab. -/
def isText (c : Char) : Bool := c == '\t' || (0x20 ≤ c.toNat && c.toNat != 0x7F)

def skipSpace (cs : List Char) : List Char := cs.dropWhile fun c => c == ' ' || c == '\t'

/-- The end of the line after the rest of a comment. -/
def endComment? : List Char → Option (List Char)
  | [] => some []
  | '\n' :: cs => some ('\n' :: cs)
  | '\r' :: '\n' :: cs => some ('\n' :: cs)
  | c :: cs => if isText c then endComment? cs else none

def lineBreak? : List Char → Option (List Char)
  | '\n' :: cs => some cs
  | '\r' :: '\n' :: cs => some cs
  | _ => none

/-- Skip blanks, comments and line breaks; `comment` says that a comment has begun. -/
def skipLines? (comment : Bool) : List Char → Option (List Char)
  | [] => some []
  | '\n' :: cs => skipLines? false cs
  | '\r' :: '\n' :: cs => skipLines? false cs
  | c :: cs =>
    if comment then (if isText c then skipLines? true cs else none)
    else if c == ' ' || c == '\t' then skipLines? false cs
    else if c == '#' then skipLines? true cs
    else if c == '\r' then none
    else some (c :: cs)

/-! ### Texts -/

def escape? (c : Char) : Option Char :=
  match c with
  | 'b' => some '\x08'
  | 't' => some '\t'
  | 'n' => some '\n'
  | 'f' => some '\x0c'
  | 'r' => some '\r'
  | 'e' => some '\x1b'
  | '"' => some '"'
  | '\\' => some '\\'
  | _ => none

/-- The character with a number in `n` hexadecimal digits, and what follows. -/
def numbered? (n : Nat) (cs : List Char) : Option (Char × List Char) :=
  let digits := cs.take n
  if digits.length ≠ n || digits.contains '_' then none
  else (Literal.digitsFrom? 16 0 digits).bind fun v =>
    if (0xD800 ≤ v && v ≤ 0xDFFF) || v > 0x10FFFF then none
    else some (Char.ofNat v, cs.drop n)

/-- The character of an escape, and what follows. -/
def escaped? : List Char → Option (Char × List Char)
  | 'u' :: rest => numbered? 4 rest
  | 'U' :: rest => numbered? 8 rest
  | c :: rest => (escape? c).map fun ch => (ch, rest)
  | [] => none

/-- The rest of a text in double quotes, whether it has escapes, and what follows. -/
def basic? : Nat → List Char → Option (List Char × Bool × List Char)
  | 0, _ => none
  | fuel + 1, cs =>
    match cs with
    | [] => none
    | '"' :: rest => some ([], false, rest)
    | '\\' :: rest => do
      let (c, rest) ← escaped? rest
      let (text, _, rest) ← basic? fuel rest
      return (c :: text, true, rest)
    | c :: rest =>
      if isText c then
        (basic? fuel rest).map fun (text, escaped, rest) => (c :: text, escaped, rest)
      else none

/-- The rest of a text in single quotes, and what follows. -/
def literal? : List Char → Option (List Char × List Char)
  | [] => none
  | '\'' :: rest => some ([], rest)
  | c :: rest =>
    if isText c then (literal? rest).map fun (text, rest) => (c :: text, rest) else none

/-- What follows the rest of a text in three quotes; up to two quotes may come before the last three.
In double quotes there are escapes, and a line that ends in a backslash goes on in the next. -/
def skipLong? (quote : Char) : Nat → List Char → Option (List Char)
  | 0, _ => none
  | fuel + 1, cs =>
    match cs with
    | [] => none
    | '\n' :: rest => skipLong? quote fuel rest
    | '\r' :: '\n' :: rest => skipLong? quote fuel rest
    | c :: rest =>
      if c == quote then
        let run := (c :: rest).takeWhile (· == quote)
        let rest := (c :: rest).drop run.length
        if run.length < 3 then skipLong? quote fuel rest
        else if run.length ≤ 5 then some rest
        else none
      else if c == '\\' && quote == '"' then
        match lineBreak? (skipSpace rest) with
        | some rest => skipLong? quote fuel rest
        | none => (escaped? rest).bind fun (_, rest) => skipLong? quote fuel rest
      else if isText c then skipLong? quote fuel rest
      else none

end Codegen.Toml
