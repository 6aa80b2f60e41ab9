/-
Scalars of a YAML text: plain, in quotes, and in blocks.

Scalars may go over several lines.  A single line break in one is folded to a space, and
of more than one the first is dropped; a separator is kept.
-/
import Codegen.Numeral.Literal
import Codegen.Yaml.Cursor

namespace Codegen.Yaml

/-! ### Gaps -/

structure Gap where
  blanks : List Char := []
  broken : Bool := false
  first : List Char := []
  more : List Char := []
  deriving Repr, Inhabited

namespace Gap

def text (g : Gap) : List Char :=
  if !g.broken then g.blanks
  else if g.first != ['\n'] then g.first ++ g.more
  else if g.more.isEmpty then [' ']
  else g.more

def addBlank (g : Gap) (c : Char) : Gap :=
  if g.broken then g else { g with blanks := g.blanks ++ [c] }

def addBreak (g : Gap) (text : List Char) : Gap :=
  if g.broken then { g with more := g.more ++ text }
  else { g with blanks := [], broken := true, first := text }

/-- Read a gap further.  On a new line there must be no tab before column `least`. -/
def take? (least : Nat) : Nat → Gap → Cursor → Option (Gap × Cursor)
  | 0, _, _ => none
  | fuel + 1, g, c =>
    match c.rest with
    | [] => some (g, c)
    | x :: _ =>
      if isSpace x then
        if g.broken && x == '\t' && c.mark.column < least then none
        else take? least fuel (g.addBlank x) c.step
      else if isBreak x then
        let (text, c) := c.takeBreak
        take? least fuel (g.addBreak text) c
      else some (g, c)

end Gap

namespace Scalar

/-! ### Plain scalars -/

/-- The characters that mean something at the start of a token. -/
def indicators : List Char :=
  ['-', '?', ':', ',', '[', ']', '\x7b', '\x7d', '#', '&', '*', '!', '|', '>', '\'', '"', '%', '@',
    '\x60']

/-- The characters that end a plain scalar in a flow collection. -/
def flowMarks : List Char := [',', '?', '[', ']', '\x7b', '\x7d']

def plainAhead (flow : Bool) : List Char → Bool
  | [] => false
  | c :: rest =>
    (!isSpace c && !isBreak c && !indicators.contains c) ||
      (c == '-' && !(rest.head?.any isSpace)) ||
      (!flow && (c == '?' || c == ':') && !blankAhead rest)

/-- The characters of a plain scalar up to the next blank. -/
def plainRun (flow : Bool) : List Char → List Char
  | [] => []
  | c :: cs =>
    if isSpace c || isBreak c || (c == ':' && blankAhead cs) || (flow && flowMarks.contains c) then []
    else c :: plainRun flow cs

/-- Read a plain scalar further, after a gap.  In a block its lines start at column `least` or after
it.  The result says whether it ends with a line break. -/
def plainFrom (flow : Bool) (least : Nat) :
    Nat → List Char → Gap → Cursor → Option (List Char × Bool × Cursor)
  | 0, _, _, _ => none
  | fuel + 1, text, gap, c =>
    if c.betweenDocuments || c.rest.head? == some '#' then some (text, gap.broken, c)
    else
      let run := plainRun flow c.rest
      let c := c.steps run.length
      let (text, gap) := if run.isEmpty then (text, gap) else (text ++ gap.text ++ run, {})
      match c.rest with
      | [] => some (text, gap.broken, c)
      | x :: _ =>
        if !isSpace x && !isBreak x then some (text, gap.broken, c)
        else do
          let (gap, c) ← gap.take? least (c.size + 1) c
          if !flow && c.mark.column < least then some (text, gap.broken, c)
          else plainFrom flow least fuel text gap c

def plain? (flow : Bool) (least : Nat) (c : Cursor) : Option (List Char × Bool × Cursor) :=
  plainFrom flow least (c.size + 1) [] {} c

/-! ### Quoted scalars -/

def escape? (c : Char) : Option Char :=
  match c with
  | '0' => some '\x00'
  | 'a' => some '\x07'
  | 'b' => some '\x08'
  | 't' => some '\t'
  | '\t' => some '\t'
  | 'n' => some '\n'
  | 'v' => some '\x0b'
  | 'f' => some '\x0c'
  | 'r' => some '\r'
  | 'e' => some '\x1b'
  | ' ' => some ' '
  | '"' => some '"'
  | '\'' => some '\''
  | '\\' => some '\\'
  | 'N' => some (Char.ofNat 0x85)
  | '_' => some (Char.ofNat 0xA0)
  | 'L' => some (Char.ofNat 0x2028)
  | 'P' => some (Char.ofNat 0x2029)
  | _ => none

/-- The number of hexadecimal digits after an escape letter. -/
def escapeDigits? (c : Char) : Option Nat :=
  match c with
  | 'x' => some 2
  | 'u' => some 4
  | 'U' => some 8
  | _ => none

def numbered? (digits : List Char) : Option Char :=
  if digits.contains '_' then none
  else (Literal.digitsFrom? 16 0 digits).bind fun n =>
    if (0xD800 ≤ n && n ≤ 0xDFFF) || n > 0x10FFFF then none else some (Char.ofNat n)

/-- The character of an escape, and how much text it takes after the backslash. -/
def escaped? : List Char → Option (Char × Nat)
  | [] => none
  | c :: rest =>
    match escapeDigits? c with
    | some n =>
      let digits := rest.take n
      if digits.length = n then (numbered? digits).map fun ch => (ch, n + 1) else none
    | none => (escape? c).map fun ch => (ch, 1)

/-- Read the rest of a word in quotes, up to the quote or a blank; `word` is what was read, last
character first.  In double quotes a backslash at the end of a line ends the word too: true, and what
follows the line. -/
def quotedRun (quote : Char) : Nat → List Char → Cursor → Option (List Char × Bool × Cursor)
  | 0, _, _ => none
  | fuel + 1, word, c =>
    match c.rest with
    | [] => some (word.reverse, false, c)
    | x :: rest =>
      if isSpace x || isBreak x then some (word.reverse, false, c)
      else if x == quote then
        if quote == '\'' && rest.head? == some '\'' then
          quotedRun quote fuel ('\'' :: word) (c.steps 2)
        else some (word.reverse, false, c)
      else if x == '\\' && quote == '"' then
        if !rest.isEmpty && lineEnds rest then some (word.reverse, true, c.step.skipBreak)
        else match escaped? rest with
          | some (ch, n) => quotedRun quote fuel (ch :: word) (c.steps (n + 1))
          | none => none
      else quotedRun quote fuel (x :: word) c.step

/-- Read a scalar in quotes further. -/
def quotedFrom (quote : Char) : Nat → List Char → Cursor → Option (List Char × Cursor)
  | 0, _, _ => none
  | fuel + 1, text, c =>
    if c.betweenDocuments || c.rest.isEmpty then none
    else do
      let (word, broken, c) ← quotedRun quote (c.size + 1) [] c
      let text := text ++ word
      if c.rest.head? == some quote then some (text, c.step)
      else
        let (gap, c) ← ({ broken := broken } : Gap).take? 0 (c.size + 1) c
        quotedFrom quote fuel (text ++ gap.text) c

def quoted? (quote : Char) (c : Cursor) : Option (List Char × Cursor) :=
  quotedFrom quote (c.size + 1) [] c.step

/-! ### Block scalars -/

/-- What happens to the line breaks at the end of a block scalar. -/
inductive Chomping
  /-- All are dropped. -/
  | strip
  /-- One is kept. -/
  | clip
  /-- All are kept. -/
  | keep
  deriving DecidableEq, Repr, Inhabited

/-- Read the mark for the end, if there is one. -/
def takeChomping (c : Cursor) : Chomping × Cursor :=
  match c.rest with
  | '+' :: _ => (.keep, c.step)
  | '-' :: _ => (.strip, c.step)
  | _ => (.clip, c)

def takeIndent? (c : Cursor) : Option (Nat × Cursor) :=
  match c.rest with
  | x :: _ =>
    if x == '0' then none
    else if Literal.isDecimal x then some (x.toNat - '0'.toNat, c.step)
    else some (0, c)
  | [] => some (0, c)

def blockMarks? (c : Cursor) : Option (Chomping × Nat × Cursor) := do
  let (chomping, d) := takeChomping c
  if chomping == .clip then
    let (indent, d) ← takeIndent? c
    if indent == 0 then some (.clip, 0, d)
    else
      let (chomping, d) := takeChomping d
      some (chomping, indent, d)
  else
    let (indent, d) ← takeIndent? d
    some (chomping, indent, d)

/-- Step to the first line of a block scalar. -/
def toFirstLine? (c : Cursor) : Option Cursor :=
  let c := c.skipWhile isSpace
  let c := if c.rest.head? == some '#' then c.toLineEnd else c
  if lineEnds c.rest then some c.skipBreak else none

/-- Read blank lines and the indentation of the next one, `indent` columns or, for zero, all there is:
the widest indentation, and the line breaks.  There must be no tab in it. -/
def takeLines? (indent : Nat) :
    Nat → Nat → List Char → Cursor → Option (Nat × List Char × Cursor)
  | 0, _, _, _ => none
  | fuel + 1, widest, breaks, c =>
    let spaces := (c.rest.takeWhile (· == ' ')).length
    let c := c.steps (if indent == 0 then spaces else min spaces (indent - c.mark.column))
    let widest := max widest c.mark.column
    if (indent == 0 || c.mark.column < indent) && c.rest.head? == some '\t' then none
    else match c.rest with
      | [] => some (widest, breaks, c)
      | x :: _ =>
        if isBreak x then
          let (text, c) := c.takeBreak
          takeLines? indent fuel widest (breaks ++ text) c
        else some (widest, breaks, c)

structure Block where
  text : List Char := []
  first : List Char := []
  more : List Char := []
  /-- Did the last line start with a blank? -/
  blank : Bool := false

namespace Block

/-- What stands before the next line.  Line breaks are folded in a folded scalar, but not around lines
that start with a blank. -/
def before (b : Block) (literal blank : Bool) : List Char :=
  if !literal && !b.blank && !blank && b.first == ['\n'] then
    (if b.more.isEmpty then [' '] else b.more)
  else b.first ++ b.more

/-- The text with its end. -/
def finish (b : Block) (chomping : Chomping) : List Char :=
  match chomping with
  | .strip => b.text
  | .clip => b.text ++ b.first
  | .keep => b.text ++ b.first ++ b.more

end Block

/-- Read the lines of a block scalar in column `indent`. -/
def blockFrom (literal : Bool) (indent : Nat) : Nat → Block → Cursor → Option (Block × Cursor)
  | 0, _, _ => none
  | fuel + 1, b, c =>
    if c.mark.column != indent then some (b, c)
    else match c.rest with
      | [] => some (b, c)
      | x :: _ => do
        let line := c.rest.takeWhile (!isBreak ·)
        let (first, d) := (c.steps line.length).takeBreak
        let (_, more, d) ← takeLines? indent (d.size + 1) 0 [] d
        blockFrom literal indent fuel
          { text := b.text ++ b.before literal (isSpace x) ++ line
            first := first
            more := more
            blank := isSpace x } d

/-- Read a block scalar from its mark on, inside a block in column `outer`. -/
def block? (literal : Bool) (outer : Int) (c : Cursor) : Option (List Char × Cursor) := do
  let (chomping, given, c) ← blockMarks? c.step
  let c ← toFirstLine? c
  let indent := if given == 0 then 0 else (max outer 0).toNat + given
  let (widest, more, c) ← takeLines? indent (c.size + 1) 0 [] c
  let indent := if indent == 0 then max (max widest (outer + 1).toNat) 1 else indent
  let (b, c) ← blockFrom literal indent (c.size + 1) { more := more } c
  some (b.finish chomping, c)

end Scalar

end Codegen.Yaml
