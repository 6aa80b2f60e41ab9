/-
Tokens of a YAML text.

A token is an indicator, a scalar, or the start or end of a block collection, of which
nothing but the columns of the text tells.
-/
import Codegen.Numeral.Literal
import Codegen.Text.Utf8
import Codegen.Yaml.Cursor

namespace Codegen.Yaml

inductive Token
  | streamStart
  | streamEnd
  /-- The version that a document is written for. -/
  | version (major minor : Nat)
  /-- What a handle stands for in the tags of a document. -/
  | tagRule (handle uri : String)
  | documentStart
  | documentEnd
  | sequenceStart
  | mappingStart
  | blockEnd
  | flowSequenceStart
  | flowSequenceEnd
  | flowMappingStart
  | flowMappingEnd
  | dash
  | comma
  | key
  | value
  /-- A reference to the node with an anchor. -/
  | reference (name : String)
  | anchor (name : String)
  | tag (handle suffix : String)
  | scalar (text : String) (plain : Bool)
  deriving DecidableEq, Repr, Inhabited

namespace Token

/-! ### Names and tags -/

def nameEnds : List Char := ['?', ':', ',', ']', '\x7d', '%', '@', '\x60']

def name? (c : Cursor) : Option (String × Cursor) :=
  let name := c.rest.takeWhile isWord
  let d := c.steps name.length
  if name.isEmpty || !(blankAhead d.rest || d.rest.head?.any nameEnds.contains) then none
  else some (String.ofList name, d)

/-- The characters of a tag, beside those of names. -/
def tagMarks : List Char :=
  [';', '/', '?', ':', '@', '&', '=', '+', '$', ',', '.', '!', '~', '*', '\'', '(', ')', '[', ']']

/-- A byte in two hexadecimal digits. -/
def byte? (high low : Char) : Option UInt8 := do
  let h ← (Literal.digit? high).filter (· < 16)
  let l ← (Literal.digit? low).filter (· < 16)
  return UInt8.ofNat (16 * h + l)

/-- The number of bytes of a character with this first byte; zero if there is none. -/
def width (b : UInt8) : Nat :=
  if b < 0x80 then 1
  else if b &&& 0xE0 == 0xC0 then 2
  else if b &&& 0xF0 == 0xE0 then 3
  else if b &&& 0xF8 == 0xF0 then 4
  else 0

/-- Read bytes written as a percent sign and two digits: the first of a character, or `n` that
continue one. -/
def escapedBytes? : Nat → Bool → Cursor → Option (List UInt8 × Cursor)
  | 0, _, c => some ([], c)
  | n + 1, first, c =>
    match c.rest with
    | '%' :: h :: l :: _ => do
      let b ← byte? h l
      if !first && b &&& 0xC0 != 0x80 then none
      else
        let (bs, c) ← escapedBytes? n false (c.steps 3)
        some (b :: bs, c)
    | _ => none

def escapedChar? (c : Cursor) : Option (List UInt8 × Cursor) := do
  let (first, d) ← escapedBytes? 1 true c
  match first.map width with
  | [n + 1] =>
    let (more, d) ← escapedBytes? n false d
    some (first ++ more, d)
  | _ => none

def uriFrom : Nat → List UInt8 → Cursor → Option (List UInt8 × Cursor)
  | 0, _, _ => none
  | fuel + 1, text, c =>
    match c.rest with
    | '%' :: _ => do
      let (bs, c) ← escapedChar? c
      uriFrom fuel (text ++ bs) c
    | x :: _ =>
      if isWord x || tagMarks.contains x then
        uriFrom fuel (text ++ Utf8.encode (String.singleton x)) c.step
      else some (text, c)
    | [] => some (text, c)

/-- Read the rest of a tag after `head`; together they must not be empty. -/
def uri? (head : List Char) (c : Cursor) : Option (String × Cursor) := do
  let (text, d) ← uriFrom (c.size + 1) [] c
  if head.isEmpty && text.isEmpty then none
  else some (String.ofList (head.drop 1) ++ Utf8.text text, d)

/-- Read a handle, which may lack its second mark. -/
def handle? (c : Cursor) : Option (List Char × Cursor) :=
  match c.rest with
  | '!' :: rest =>
    let name := rest.takeWhile isWord
    let d := c.steps (name.length + 1)
    if d.rest.head? == some '!' then some ('!' :: name ++ ['!'], d.step)
    else some ('!' :: name, d)
  | _ => none

def isHandle (cs : List Char) : Bool := cs.length > 1 && cs.getLast? == some '!'

def tag? (c : Cursor) : Option (Token × Cursor) := do
  let (t, d) ← match c.rest with
    | '!' :: '<' :: _ => do
      let (suffix, d) ← uri? [] (c.steps 2)
      if d.rest.head? == some '>' then some (Token.tag "" suffix, d.step) else none
    | _ => do
      let (handle, d) ← handle? c
      if isHandle handle then
        let (suffix, d) ← uri? [] d
        some (Token.tag (String.ofList handle) suffix, d)
      else
        let (suffix, d) ← uri? handle d
        some (if suffix.isEmpty then Token.tag "" "!" else Token.tag "!" suffix, d)
  if blankAhead d.rest then some (t, d) else none

/-! ### Directives -/

/-- Read a number of one or two digits. -/
def versionNumber? (c : Cursor) : Option (Nat × Cursor) :=
  let digits := c.rest.takeWhile Literal.isDecimal
  if digits.length > 2 then none
  else (Literal.decimal? digits).map fun n => (n, c.steps digits.length)

def version? (c : Cursor) : Option (Token × Cursor) := do
  let (major, c) ← versionNumber? (c.skipWhile isSpace)
  if c.rest.head? != some '.' then none
  else
    let (minor, c) ← versionNumber? c.step
    some (.version major minor, c)

def tagRule? (c : Cursor) : Option (Token × Cursor) := do
  let (handle, c) ← handle? (c.skipWhile isSpace)
  if !(isHandle handle || handle == ['!']) || !(c.rest.head?.any isSpace) then none
  else
    let (uri, c) ← uri? [] (c.skipWhile isSpace)
    if blankAhead c.rest then some (.tagRule (String.ofList handle) uri, c) else none

/-- Read a directive, which takes the whole line. -/
def directive? (c : Cursor) : Option (Token × Cursor) := do
  let name := c.rest.drop 1 |>.takeWhile isWord
  let d := c.steps (name.length + 1)
  let (t, d) ← if !blankAhead d.rest then none
    else if name == "YAML".toList then version? d
    else if name == "TAG".toList then tagRule? d
    else none
  let d := d.skipWhile isSpace
  let d := if d.rest.head? == some '#' then d.toLineEnd else d
  if lineEnds d.rest then some (t, d.skipBreak) else none

end Token

end Codegen.Yaml
