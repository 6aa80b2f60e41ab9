/-
The tokens of a YAML text, one after the other.

Only a colon tells that what stands before it is a key, and that a mapping started there.
So the place of a possible key is kept until the colon comes, or until it no longer can:
a key and its colon are on one line and not more than 1024 characters apart.  Tokens wait
in a queue for that, at least three of them, and those of a key longer.

A text is read no further than the queue asks for, so what is wrong later does not matter.
-/
import Codegen.Yaml.Scalar
import Codegen.Yaml.Token

namespace Codegen.Yaml

structure KeyPlace where
  /-- Can a colon still make it one? -/
  possible : Bool := false
  /-- Must there be a key, because only one can stand in its column? -/
  required : Bool := false
  /-- The number of its first token. -/
  token : Nat := 0
  mark : Mark := {}
  deriving Repr, Inhabited

/-- Tokens that wait, and the text after them. -/
structure Tokens where
  cursor : Cursor
  /-- Does the text start with a mark of its encoding?  Then every line starts with a mark. -/
  marked : Bool := cursor.rest.head? == some (Char.ofNat 0xFEFF)
  queue : List Token := [.streamStart]
  /-- How many tokens have been taken from the queue. -/
  taken : Nat := 0
  /-- The column of the innermost block collection; -1 outside of all. -/
  indent : Int := -1
  /-- The columns around that. -/
  outer : List Int := []
  keyAllowed : Bool := true
  /-- Where a key may have started, for each open flow collection, the innermost first, and for the
  block around them. -/
  keys : List KeyPlace := [{}]
  /-- The tokens that may start a key, with the number of flow collections around them. -/
  heads : List (Nat × Nat) := []
  deriving Repr, Inhabited

namespace Tokens

/-- How deep collections may be nested. -/
def deepest : Nat := 10000

def flow (s : Tokens) : Nat := s.keys.length - 1

def next (s : Tokens) : Nat := s.taken + s.queue.length

def column (s : Tokens) : Nat := s.cursor.mark.column

def push (s : Tokens) (t : Token) : Tokens := { s with queue := s.queue ++ [t] }

/-- Add a token as the one with a number; at the end if that has been taken. -/
def insert (s : Tokens) (number : Nat) (t : Token) : Tokens :=
  if number < s.taken then s.push t
  else
    let n := number - s.taken
    { s with queue := s.queue.take n ++ t :: s.queue.drop n }

def pushSteps (s : Tokens) (width : Nat) (t : Token) : Tokens :=
  { s.push t with cursor := s.cursor.steps width }

/-! ### Keys -/

/-- Has the text left a possible key behind? -/
def isStale (s : Tokens) (k : KeyPlace) : Bool :=
  k.mark.line < s.cursor.mark.line || k.mark.index + 1024 < s.cursor.mark.index

/-- Can there still be a key at the place with a number of flow collections around it?  A required
key must not be left behind. -/
def checkKey (s : Tokens) (level : Nat) : Option (Bool × Tokens) :=
  if level > s.flow then some (false, s)
  else
    let k := s.keys.getD (s.flow - level) {}
    if !k.possible then some (false, s)
    else if !s.isStale k then some (true, s)
    else if k.required then none
    else some (false, { s with keys := s.keys.set (s.flow - level) { k with possible := false } })

/-- Forget the last possible key; a required one must not be forgotten. -/
def dropKey (s : Tokens) : Option Tokens :=
  match s.keys with
  | [] => some s
  | k :: ks =>
    if !k.possible then some s
    else if k.required then none
    else some
      { s with
        keys := { k with possible := false } :: ks
        heads := s.heads.filter (·.1 != k.token) }

def saveKey (s : Tokens) : Option Tokens :=
  if !s.keyAllowed then some s
  else do
    let required := s.flow == 0 && s.indent == s.column
    let k : KeyPlace := ⟨true, required, s.next, s.cursor.mark⟩
    let s ← s.dropKey
    some { s with keys := k :: s.keys.drop 1, heads := (k.token, s.flow) :: s.heads }

def enterFlow (s : Tokens) : Option Tokens :=
  if s.flow + 1 > deepest then none
  else some { s with keys := ⟨false, false, s.next, s.cursor.mark⟩ :: s.keys }

def leaveFlow (s : Tokens) : Tokens :=
  match s.keys with
  | k :: outer :: ks => { s with keys := outer :: ks, heads := s.heads.filter (·.1 != k.token) }
  | _ => s

/-! ### Columns -/

/-- Start a block collection, if the column is further to the right than that of the last; its token
gets a number, or comes last. -/
def startBlock (s : Tokens) (column : Nat) (number : Option Nat) (t : Token) : Option Tokens :=
  if s.flow > 0 || s.indent ≥ column then some s
  else if s.outer.length + 1 > deepest then none
  else
    let s := { s with outer := s.indent :: s.outer, indent := column }
    some (match number with
      | some n => s.insert n t
      | none => s.push t)

/-- The columns that are left of `indent` and `outer` when all beyond a column are gone, and how many
are gone. -/
def columnsUpTo (column : Int) : Int → List Int → Nat × Int × List Int
  | indent, [] => (0, indent, [])
  | indent, o :: os =>
    if indent > column then
      let (n, indent, outer) := columnsUpTo column o os
      (n + 1, indent, outer)
    else (0, indent, o :: os)

def endBlocks (s : Tokens) (column : Int) : Tokens :=
  if s.flow > 0 then s
  else
    let (n, indent, outer) := columnsUpTo column s.indent s.outer
    { s with queue := s.queue ++ List.replicate n .blockEnd, indent := indent, outer := outer }

/-! ### The next token -/

/-- Step over blanks, comments and line breaks.  A new line of a block may start with a key, and then a
tab is no blank. -/
def toToken : Nat → Tokens → Tokens
  | 0, s => s
  | fuel + 1, s =>
    let tabs := s.flow > 0 || !s.keyAllowed
    let c := if s.marked && s.column == 0 then s.cursor.step else s.cursor
    let c := c.skipWhile fun x => x == ' ' || (tabs && x == '\t')
    let c := if c.rest.head? == some '#' then c.skipComments (c.size + 1) else c
    if !c.rest.isEmpty && lineEnds c.rest then
      toToken fuel { s with cursor := c.skipBreak, keyAllowed := s.flow == 0 || s.keyAllowed }
    else { s with cursor := c }

def pushEnd (s : Tokens) : Option Tokens := do
  let m := s.cursor.mark
  let m := if m.column == 0 then m else { m with line := m.line + 1, column := 0 }
  let s ← { s.endBlocks (-1) with cursor := { s.cursor with mark := m } }.dropKey
  some ({ s with keyAllowed := false }.push .streamEnd)

def pushOutside (s : Tokens) (t : Token) (c : Cursor) : Option Tokens := do
  let s ← (s.endBlocks (-1)).dropKey
  some { s.push t with keyAllowed := false, cursor := c }

def pushFlowStart (s : Tokens) (t : Token) : Option Tokens := do
  let s ← s.saveKey
  let s ← s.enterFlow
  some ({ s with keyAllowed := true }.pushSteps 1 t)

def pushFlowEnd (s : Tokens) (t : Token) : Option Tokens := do
  let s ← s.dropKey
  some ({ s.leaveFlow with keyAllowed := false }.pushSteps 1 t)

def pushComma (s : Tokens) : Option Tokens := do
  let s ← s.dropKey
  some ({ s with keyAllowed := true }.pushSteps 1 .comma)

def pushDash (s : Tokens) : Option Tokens := do
  if s.flow == 0 && !s.keyAllowed then none
  else
    let s ← s.startBlock s.column none .sequenceStart
    let s ← s.dropKey
    some ({ s with keyAllowed := true }.pushSteps 1 .dash)

def pushKey (s : Tokens) : Option Tokens := do
  if s.flow == 0 && !s.keyAllowed then none
  else
    let s ← s.startBlock s.column none .mappingStart
    let s ← s.dropKey
    some ({ s with keyAllowed := s.flow == 0 }.pushSteps 1 .key)

/-- The mark of a value.  It makes what stands before it a key, or else ends a key with a mark. -/
def pushValue (s : Tokens) : Option Tokens := do
  let (valid, s) ← s.checkKey s.flow
  if valid then
    let k := s.keys.headD {}
    let s := s.insert k.token .key
    let s ← s.startBlock k.mark.column (some k.token) .mappingStart
    some ({ s with
      keys := { k with possible := false } :: s.keys.drop 1
      heads := s.heads.filter (·.1 != k.token)
      keyAllowed := false }.pushSteps 1 .value)
  else if s.flow == 0 && !s.keyAllowed then none
  else
    let s ← s.startBlock s.column none .mappingStart
    some ({ s with keyAllowed := s.flow == 0 }.pushSteps 1 .value)

def pushStart (s : Tokens) (read : Cursor → Option (Token × Cursor)) : Option Tokens := do
  let s ← s.saveKey
  let (t, c) ← read s.cursor
  some { s.push t with keyAllowed := false, cursor := c }

/-- A plain scalar.  One that ends with a line break may be followed by a key. -/
def pushPlain (s : Tokens) : Option Tokens := do
  let s ← s.saveKey
  let (text, broken, c) ← Scalar.plain? (s.flow > 0) (s.indent + 1).toNat s.cursor
  some { s.push (.scalar (String.ofList text) true) with keyAllowed := broken, cursor := c }

def pushBlockScalar (s : Tokens) (literal : Bool) : Option Tokens := do
  let s ← s.dropKey
  let (text, c) ← Scalar.block? literal s.indent s.cursor
  some { s.push (.scalar (String.ofList text) false) with keyAllowed := true, cursor := c }

def named (make : String → Token) (c : Cursor) : Option (Token × Cursor) :=
  (Token.name? c.step).map fun (name, c) => (make name, c)

def quoted (quote : Char) (c : Cursor) : Option (Token × Cursor) :=
  (Scalar.quoted? quote c).map fun (text, c) => (.scalar (String.ofList text) false, c)

/-- The token that starts with a character, of which `rest` follows. -/
def pushContent (s : Tokens) (x : Char) (rest : List Char) : Option Tokens :=
  let inFlow := s.flow > 0
  if x == '[' then s.pushFlowStart .flowSequenceStart
  else if x == '\x7b' then s.pushFlowStart .flowMappingStart
  else if x == ']' then s.pushFlowEnd .flowSequenceEnd
  else if x == '\x7d' then s.pushFlowEnd .flowMappingEnd
  else if x == ',' then s.pushComma
  else if x == '-' && blankAhead rest then s.pushDash
  else if x == '?' && (inFlow || blankAhead rest) then s.pushKey
  else if x == ':' && (inFlow || blankAhead rest) then s.pushValue
  else if x == '*' then s.pushStart (named .reference)
  else if x == '&' then s.pushStart (named .anchor)
  else if x == '!' then s.pushStart Token.tag?
  else if x == '|' && !inFlow then s.pushBlockScalar true
  else if x == '>' && !inFlow then s.pushBlockScalar false
  else if x == '\'' || x == '"' then s.pushStart (quoted x)
  else if Scalar.plainAhead inFlow (x :: rest) then s.pushPlain
  else none

/-- Step over a comment after a token.  What follows a dash on its line belongs to the item. -/
def skipComment (s : Tokens) : Tokens :=
  if s.queue.getLast? == some .dash then s else { s with cursor := s.cursor.skipLineComment }

/-- Read one more token, with those that the columns add. -/
def read (s : Tokens) : Option Tokens :=
  let s := toToken (s.cursor.size + 1) s
  let s := s.endBlocks s.column
  match s.cursor.rest with
  | [] => s.pushEnd
  | x :: rest =>
    if s.column == 0 && x == '%' then
      (Token.directive? s.cursor).bind fun (t, c) => s.pushOutside t c
    else if s.cursor.betweenDocuments then
      s.pushOutside (if x == '-' then .documentStart else .documentEnd) (s.cursor.steps 3)
    else (s.pushContent x rest).map skipComment

def fillFrom : Nat → Tokens → Option Tokens
  | 0, _ => none
  | fuel + 1, s =>
    if s.queue.length < 3 then s.read.bind (fillFrom fuel)
    else match s.heads.lookup s.taken with
      | none => some s
      | some level => do
        let (valid, s) ← s.checkKey level
        if valid then s.read.bind (fillFrom fuel) else some s

/-- Read enough tokens to know the first one. -/
def fill (s : Tokens) : Option Tokens := fillFrom (s.cursor.size + 4) s

def drop (s : Tokens) : Tokens := { s with queue := s.queue.drop 1, taken := s.taken + 1 }

end Tokens

end Codegen.Yaml
