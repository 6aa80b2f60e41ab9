/-
A place in a YAML text.

Columns decide what belongs to what, and keys are limited to a line and to a number of
characters, so a place knows how far it is from the start of the text and of its line.
-/
namespace Codegen.Yaml

/-! ### Characters -/

def isSpace (c : Char) : Bool := c == ' ' || c == '\t'

/-- Is this a line or paragraph separator?  Such a break is kept as it is where others are folded. -/
def isSeparator (c : Char) : Bool := c.toNat == 0x2028 || c.toNat == 0x2029

def isBreak (c : Char) : Bool := c == '\n' || c == '\r' || c.toNat == 0x85 || isSeparator c

def isWord (c : Char) : Bool := c.isAlphanum || c == '_' || c == '-'

def lineEnds : List Char → Bool
  | [] => true
  | c :: _ => isBreak c

/-- Does the text end here, or go on with a space, a tab or a break? -/
def blankAhead : List Char → Bool
  | [] => true
  | c :: _ => isSpace c || isBreak c

/-! ### Places -/

/-- Where a place is. -/
structure Mark where
  /-- The characters before it. -/
  index : Nat := 0
  line : Nat := 0
  column : Nat := 0
  deriving DecidableEq, Repr, Inhabited

/-- What is left of the text, and where that starts. -/
structure Cursor where
  rest : List Char
  mark : Mark := {}
  /-- Is there a line break before it, and only blanks since? -/
  fresh : Bool := false
  /-- The length of the whole text, which bounds every loop over what is left. -/
  size : Nat := rest.length
  deriving Repr, Inhabited

namespace Cursor

def step (c : Cursor) : Cursor :=
  match c.rest with
  | [] => c
  | x :: rest =>
    { c with
      rest := rest
      mark := { c.mark with index := c.mark.index + 1, column := c.mark.column + 1 }
      fresh := c.fresh && isSpace x }

def steps : Nat → Cursor → Cursor
  | 0, c => c
  | n + 1, c => steps n c.step

def skipWhile (p : Char → Bool) (c : Cursor) : Cursor := c.steps (c.rest.takeWhile p).length

/-- The start of the next line, after a break of `width` characters. -/
def nextLine (c : Cursor) (width : Nat) (rest : List Char) : Cursor :=
  { c with
    rest := rest
    mark := { index := c.mark.index + width, line := c.mark.line + 1, column := 0 }
    fresh := true }

/-- Step over a line break: the text it stands for, and what follows. -/
def takeBreak (c : Cursor) : List Char × Cursor :=
  match c.rest with
  | '\r' :: '\n' :: rest => (['\n'], c.nextLine 2 rest)
  | x :: rest =>
    if isBreak x then ([if isSeparator x then x else '\n'], c.nextLine 1 rest) else ([], c)
  | [] => ([], c)

def skipBreak (c : Cursor) : Cursor := c.takeBreak.2

def betweenDocuments (c : Cursor) : Bool :=
  c.mark.column == 0 &&
    match c.rest with
    | '-' :: '-' :: '-' :: rest => blankAhead rest
    | '.' :: '.' :: '.' :: rest => blankAhead rest
    | _ => false

/-! ### Comments -/

def toLineEnd (c : Cursor) : Cursor := c.skipWhile (!isBreak ·)

/-- Is this one of the blanks that may stand between two lines of a comment? -/
def isGap (c : Char) : Bool := isSpace c || c == '\n' || c == '\r'

/-- Step over such blanks. -/
def skipGap : Nat → Cursor → Cursor
  | 0, c => c
  | fuel + 1, c =>
    match c.rest with
    | [] => c
    | x :: _ =>
      if isSpace x then skipGap fuel c.step
      else if isGap x then skipGap fuel c.skipBreak
      else c

/-- Step over a comment of any number of lines, which may be blank or indented in any way, to the
end of its last line. -/
def skipComments : Nat → Cursor → Cursor
  | 0, c => c
  | fuel + 1, c =>
    let c := c.toLineEnd
    if (c.rest.dropWhile isGap).head? == some '#' then
      skipComments fuel (skipGap c.size c)
    else c

def skipLineComment (c : Cursor) : Cursor :=
  let d := c.skipWhile isSpace
  if !c.fresh && d.rest.head? == some '#' then d.toLineEnd else c

end Cursor

end Codegen.Yaml
