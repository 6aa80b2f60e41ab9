/-
Values from YAML documents.

A node is read as what is wanted there, and one of another kind fails.  A null leaves things as
they are.  A mapping may take in others through the key `<<`; what it says itself comes first.

References let a short text stand for a very long one.  So visits are counted, and a document in
which too many of them are made through references fails.
-/
import Codegen.Yaml

namespace Codegen.Yaml

structure Walk where
  /-- The nodes with anchors, by number. -/
  anchored : Array Node
  /-- A bound on the number of nodes. -/
  size : Nat
  /-- The number of references on the way to the node at hand. -/
  depth : Nat := 0
  visited : Nat := 0
  /-- The number of visits that were made through references. -/
  referred : Nat := 0

namespace Walk

def next (w : Walk) : Walk :=
  { w with
    visited := w.visited + 1
    referred := if w.depth > 0 then w.referred + 1 else w.referred }

/-- Are more than 99 of 100 visits made through references?  From 400000 visits on, the share that is
allowed falls, to 10 of 100 at 4000000. -/
def isExcessive (w : Walk) : Bool :=
  let low := 400000
  let range := 3600000
  let fall := 89 * min (w.visited - low) range
  w.referred > 100 && w.visited > 1000 &&
    w.referred * (100 * range) > w.visited * (99 * range - fall)

end Walk

/-- Taking a value from a document may fail. -/
abbrev Extract := StateT Walk Option

namespace Extract

variable {α : Type}

/-! ### Nodes -/

def visit : Extract Unit := do
  let w := (← get).next
  if w.isExcessive then failure else set w

def node (read : Node → Extract α) : Node → Extract α
  | .reference _ target => do
    visit
    modify fun w => { w with depth := w.depth + 1 }
    visit
    let v ← read ((← get).anchored.getD target .null)
    modify fun w => { w with depth := w.depth - 1 }
    return v
  | n => do
    visit
    read n

/-- Read the value of a scalar; none if it is null. -/
def scalar (read : Value → Option α) : Node → Extract (Option α)
  | .scalar tag text =>
    match Node.value? tag text with
    | none => failure
    | some .null => return none
    | some v =>
      match read v with
      | some a => return some a
      | none => failure
  | _ => failure

def text : Node → Extract (Option String)
  | .scalar tag written => scalar (fun | .text s => some s | _ => some written) (.scalar tag written)
  | _ => failure

def null (n : Node) : Extract Unit := do
  let _ ← scalar (fun _ => (none : Option Unit)) n

/-- Read a list; it has no nulls, and a null is an empty list. -/
def list (item : Node → Extract (Option α)) : Node → Extract (List α)
  | .sequence _ items => do return (← items.mapM (node item)).filterMap id
  | n => do
    null n
    return []

/-! ### Mappings -/

/-- What the entries of mappings are put into. -/
structure Sink (α : Type) where
  /-- May an entry with this name stand only once in a mapping? -/
  single : String → Bool
  /-- Put an entry in; `own` says that it is not taken in from another mapping. -/
  put : Bool → String → Node → α → Extract α

/-- Where the reading of a mapping has got to. -/
structure Pass (α : Type) where
  value : α
  seen : Option (List String)
  names : List String := []
  /-- What the mapping takes in. -/
  merge : Option Node := none

def entry (sink : Sink α) (p : Pass α) (e : Node × Node) : Extract (Pass α) :=
  if e.1.isMerge then return { p with merge := some e.2 }
  else do
    match ← node text e.1 with
    | none => return p
    | some name =>
      if (p.seen.getD []).contains name then return p
      else if sink.single name && p.names.contains name then failure
      else
        return { p with
          value := ← sink.put p.seen.isNone name e.2 p.value
          seen := p.seen.map (name :: ·)
          names := name :: p.names }

/-- The names in a mapping that settle what it takes in.  Only texts do, not numbers and the like. -/
def ownNames (entries : List (Node × Node)) : Extract (List String) := do
  let names ← entries.mapM fun e => node (scalar fun | .text s => some (some s) | _ => some none) e.1
  return names.filterMap fun name => name.bind id

/-- The mappings that are taken in. -/
def sources : Node → Option (List Node)
  | .scalar _ _ => none
  | .sequence _ items => some items
  | n => some [n]

/-- Read the entries of a mapping into a value, and then the mappings that it takes in; what is
settled after that, and the value.  The fuel bounds how deep mappings take in others. -/
def entries (sink : Sink α) :
    Nat → Option (List String) → List (Node × Node) → α → Extract (Option (List String) × α)
  | 0, _, _, _ => failure
  | fuel + 1, seen, es, v => do
    if !Node.keysDiffer es then failure
    else
      let p ← es.foldlM (entry sink) { value := v, seen := seen }
      match p.merge with
      | none => return (p.seen, p.value)
      | some n =>
        let settled ← match p.seen with
          | some names => pure names
          | none => ownNames es
        let r ← (← sources n).foldlM (fun (r : Option (List String) × α) (n : Node) =>
          node (fun | .mapping _ es => entries sink fuel r.1 es r.2 | _ => failure) n)
          (some settled, p.value)
        return (p.seen.bind fun _ => r.1, r.2)

/-- Read a mapping into a value; a null changes nothing. -/
def mapping (sink : Sink α) (start : α) : Node → Extract (Option α)
  -- There are fewer mappings than that, and one that takes in itself fails.
  | .mapping _ es => do return some (← entries sink (← get).size none es start).2
  | n => do
    null n
    return none

/-! ### Records and maps -/

/-- A field of a record, with what its node does to the record. -/
structure RecordField (α : Type) where
  name : String
  put : Node → α → Extract α

def record (fields : List (RecordField α)) (start : α) : Node → Extract (Option α) :=
  mapping
    { single := fun name => fields.any (·.name == name)
      put := fun _ name n v =>
        match fields.find? (·.name == name) with
        | some f => node (f.put · v) n
        | none => return v }
    start

def insert (name : String) (a : α) : List (String × α) → List (String × α)
  | [] => [(name, a)]
  | e :: rest => if e.1 == name then (name, a) :: rest else e :: insert name a rest

/-- Read a map from names.  A null stands for `zero`, but takes the place of nothing that is taken in. -/
def map (zero : α) (item : Node → Extract (Option α)) (n : Node) :
    Extract (List (String × α)) := do
  return (← mapping
    { single := fun _ => false
      put := fun own name n m => do
        match ← node item n with
        | some a => return insert name a m
        | none => return if own || (m.lookup name).isNone then insert name zero m else m }
    [] n).getD []

/-- What the root of a document is read as.  The document counts as a visit of its own. -/
def run (read : Node → Extract α) (d : Document) : Option α :=
  let all : Extract α := do
    visit
    node read d.root
  (StateT.run all { anchored := d.anchored, size := d.size }).map (·.1)

end Extract

end Codegen.Yaml
