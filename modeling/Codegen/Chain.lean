/-
A linked list of instructions in an arena.

Instructions are stored in the order they are made and never move, so the number of
an instruction stays its name for good; the order of the code is in the links.
Removing an instruction unlinks it and leaves it readable.  The number -1 stands for
no instruction.

An insertion stores its instruction first and looks at its anchor afterwards: when
the anchor is no stored instruction, the insertion fails and the instruction stays
stored, unlinked.
-/
import Codegen.Instr

namespace Codegen

/-- A stored instruction and its neighbours. -/
structure Link where
  instr : Instr
  next : Int := -1
  prev : Int := -1
  live : Bool := true
  deriving Repr, Inhabited

/-- The arena and the two ends of the code. -/
structure Chain where
  links : List Link := []
  first : Int := -1
  last : Int := -1
  length : Int := 0
  deriving Repr, Inhabited

namespace Chain

def empty : Chain := {}

def link? (c : Chain) (id : Int) : Option Link := if id < 0 then none else c.links[id.toNat]?

def update (c : Chain) (id : Int) (f : Link → Link) : Chain :=
  if id < 0 then c else { c with links := c.links.modify id.toNat f }

def next? (c : Chain) (id : Int) : Option Int := (c.link? id).map (·.next)

def prev? (c : Chain) (id : Int) : Option Int := (c.link? id).map (·.prev)

def instr? (c : Chain) (id : Int) : Option Instr := (c.link? id).map (·.instr)

/-- Is `id` part of the code? -/
def contains (c : Chain) (id : Int) : Bool := (c.link? id).any (·.live)

def store (c : Chain) (i : Instr) : Int × Chain :=
  (c.links.length, { c with links := c.links ++ [{ instr := i }], length := c.length + 1 })

/-- Let `p`, or the start of the code, be followed by `n`. -/
def setNext (c : Chain) (p n : Int) : Chain :=
  if p = -1 then { c with first := n } else c.update p fun l => { l with next := n }

/-- Let `n`, or the end of the code, be preceded by `p`. -/
def setPrev (c : Chain) (n p : Int) : Chain :=
  if n = -1 then { c with last := p } else c.update n fun l => { l with prev := p }

def append (c : Chain) (i : Instr) : Int × Chain :=
  let (id, c') := c.store i
  let c' := c'.update id fun l => { l with prev := c.last }
  (id, { c'.setNext c.last id with last := id })

/-- Add an instruction before `anchor`, or at the end when there is no anchor. -/
def insertBefore (c : Chain) (anchor : Int) (i : Instr) : Option Int × Chain :=
  if anchor = -1 then
    let (id, c') := c.append i
    (some id, c')
  else
    let (id, c') := c.store i
    match c'.prev? anchor with
    | none => (none, c')
    | some p =>
      let c' := c'.update id fun l => { l with prev := p, next := anchor }
      let c' := c'.setPrev anchor id
      (some id, c'.setNext p id)

/-- Add an instruction after `anchor`, or at the start when there is no anchor. -/
def insertAfter (c : Chain) (anchor : Int) (i : Instr) : Option Int × Chain :=
  if anchor = -1 then c.insertBefore c.first i
  else match c.next? anchor with
    | none => (none, c)
    | some n => c.insertBefore n i

/-- Unlink an instruction, and give the one that followed it.  What is not linked stays as it is. -/
def remove (c : Chain) (id : Int) : Int × Chain :=
  match c.link? id with
  | none => (-1, c)
  | some l =>
    if !l.live then (-1, c)
    else
      let c' := (c.setNext l.prev l.next).setPrev l.next l.prev
      let c' := c'.update id fun l => { l with prev := -1, next := -1, live := false }
      (l.next, { c' with length := c'.length - 1 })

/-- Follow the links from `id`, at most `fuel` of them. -/
def walk (c : Chain) : Nat → Int → List Int
  | 0, _ => []
  | fuel + 1, id =>
    match c.link? id with
    | none => []
    | some l => id :: c.walk fuel l.next

/-- The numbers of the linked instructions in order; there are no more of them than are stored. -/
def ids (c : Chain) : List Int := c.walk c.links.length c.first

def instrs (c : Chain) : List Instr := c.ids.filterMap c.instr?

/-- Follow the links from `id`, at most `fuel` of them, in a block that begins with `start`.  It ends
before an instruction with a label and after a jump. -/
def blocksFrom (c : Chain) : Nat → Int → Int → List (Int × Int)
  | 0, start, _ => if start = -1 then [] else [(start, -1)]
  | fuel + 1, start, id =>
    match c.link? id with
    | none => if start = -1 then [] else [(start, -1)]
    | some l =>
      let ends := l.instr.label != 0 && id != start
      let begun := if ends then id else start
      (if ends then [(start, id)] else []) ++
        if l.instr.op.isJump then (begun, l.next) :: c.blocksFrom fuel l.next l.next
        else c.blocksFrom fuel begun l.next

/-- The basic blocks as half-open ranges of numbers. -/
def blocks (c : Chain) : List (Int × Int) := c.blocksFrom c.links.length c.first c.first

end Chain

end Codegen
