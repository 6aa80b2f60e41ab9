/-
What a TOML text has defined so far.

A key can be given a value once.  A table can be opened once by a header.  A table that comes about
through the dots of a key belongs to the table in which the key stands: when another table is opened,
it is closed.
-/
import Codegen.Toml.Statement

namespace Codegen.Toml

abbrev Path := List String

namespace Key

def path (k : Key) : Path := k.map (·.text)

end Key

inductive Kind
  | value
  | table
  | array
  deriving DecidableEq, Repr, Inhabited

/-- A place, and what is known of it. -/
structure Definition where
  path : Path
  kind : Kind
  /-- No key may lead into it any more, and no header may open it. -/
  closed : Bool
  /-- It came about through a key of the open table. -/
  dotted : Bool
  deriving DecidableEq, Repr, Inhabited

/-- The places so far, and the open table. -/
structure Definitions where
  places : List Definition := []
  table : Path := []
  deriving Repr, Inhabited

namespace Definitions

def find? (ds : Definitions) (p : Path) : Option Definition := ds.places.find? (·.path == p)

def add (ds : Definitions) (d : Definition) : Definitions := { ds with places := d :: ds.places }

def change (ds : Definitions) (p : Path) (f : Definition → Definition) : Definitions :=
  { ds with places := ds.places.map fun d => if d.path == p then f d else d }

def isBelow (p : Path) (d : Definition) : Bool := p.isPrefixOf d.path && d.path != p

/-- Close what came about through the keys of the open table. -/
def close (ds : Definitions) : Definitions :=
  { ds with places := ds.places.map fun d =>
    if isBelow ds.table d && d.dotted then { d with closed := true, dotted := false } else d }

/-- The places on the way to a place, below `base`. -/
def way (base path : Path) : List Path :=
  (List.range (path.length - 1)).map fun n => base ++ path.take (n + 1)

/-- Make a table on the way to one with a header. -/
def pass (ds : Definitions) (p : Path) : Option Definitions :=
  match ds.find? p with
  | none => some (ds.add ⟨p, .table, false, false⟩)
  | some d => if d.kind == .value then none else some ds

def header (ds : Definitions) (p : Path) : Option Definitions := do
  let ds ← (way [] p).foldlM pass ds.close
  match ds.find? p with
  | none => return { ds.add ⟨p, .table, true, false⟩ with table := p }
  | some d =>
    if d.kind == .table && !d.closed then
      return { ds.change p fun d => { d with closed := true } with table := p }
    else none

/-- Open one more table of an array; what was in the last one is forgotten. -/
def item (ds : Definitions) (p : Path) : Option Definitions := do
  let ds ← (way [] p).foldlM pass ds.close
  match ds.find? p with
  | none => return { ds.add ⟨p, .array, true, false⟩ with table := p }
  | some d =>
    if d.kind == .array then
      return { ds with places := ds.places.filter (!isBelow p ·), table := p }
    else none

/-- Make a table on the way to a value. -/
def passDotted (ds : Definitions) (p : Path) : Option Definitions :=
  match ds.find? p with
  | none => some (ds.add ⟨p, .table, false, true⟩)
  | some d => if d.kind == .table && !d.closed then some ds else none

/-- Give a key of the open table a value. -/
def entry (ds : Definitions) (p : Path) : Option Definitions := do
  let ds ← (way ds.table p).foldlM passDotted ds
  match ds.find? (ds.table ++ p) with
  | none => return ds.add ⟨ds.table ++ p, .value, false, true⟩
  | some _ => none

end Definitions

/-! ### Values -/

mutual

/-- Do the tables in a value define everything once? -/
def Value.isSound : Value → Bool
  | .array items => soundItems items
  | .table entries => soundEntries {} entries
  | _ => true

/-- Do the tables in the items of an array define everything once? -/
def soundItems : List Value → Bool
  | [] => true
  | v :: vs => v.isSound && soundItems vs

/-- Do the entries of a table define everything once? -/
def soundEntries : Definitions → List (Key × Value) → Bool
  | _, [] => true
  | ds, (k, v) :: rest =>
    match ds.entry (Key.path k) with
    | some ds => v.isSound && soundEntries ds rest
    | none => false

end

namespace Definitions

def define (ds : Definitions) : Statement → Option Definitions
  | .entry k v => if v.isSound then ds.entry (Key.path k) else none
  | .header k => ds.header (Key.path k)
  | .item k => ds.item (Key.path k)

end Definitions

end Codegen.Toml
