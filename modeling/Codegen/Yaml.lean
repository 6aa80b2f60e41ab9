/-
Reading YAML.

The first document of a text is read, and no more of what follows than it takes to see that
the document is over.

Every call below takes a token from the text before it comes back to itself, but for a few
steps, so a multiple of the length of the text is enough fuel.
-/
import Codegen.Yaml.Node
import Codegen.Yaml.Tokens

namespace Codegen.Yaml

structure Document where
  root : Node
  anchored : Array Node := #[]
  /-- The length of the text, which the number of nodes does not exceed by much. -/
  size : Nat := 0
  deriving Inhabited

/-- What is known while a document is read. -/
structure Source where
  tokens : Tokens
  /-- What handles stand for. -/
  rules : List (String × String) := []
  anchors : List (String × Nat) := []
  anchored : Array Node := #[]

abbrev Reading := StateT Source Option

namespace Reading

/-! ### Tokens -/

def peek : Reading Token := do
  let s ← get
  match s.tokens.fill with
  | none => failure
  | some tokens =>
    set { s with tokens := tokens }
    match tokens.queue with
    | [] => failure
    | t :: _ => return t

def skip : Reading Unit := modify fun s => { s with tokens := s.tokens.drop }

/-! ### Anchors and tags -/

/-- Give the next node an anchor: its number. -/
def reserve (name : String) : Reading Nat := do
  let s ← get
  set
    { s with
      anchors := (name, s.anchored.size) :: s.anchors
      anchored := s.anchored.push .null }
  return s.anchored.size

def define (number : Nat) (n : Node) : Reading Unit :=
  modify fun s => { s with anchored := s.anchored.setIfInBounds number n }

def refer (name : String) : Reading Node := do
  match (← get).anchors.lookup name with
  | some number => return .reference name number
  | none => failure

/-- What a tag stands for. -/
def expand (handle suffix : String) : Reading String := do
  if handle.isEmpty then return suffix
  else match (← get).rules.lookup handle with
    | some uri => if (uri ++ suffix).isEmpty then failure else return uri ++ suffix
    | none => failure

def anchor? : Reading (Option String) := do
  match ← peek with
  | .anchor name => skip; return some name
  | _ => return none

def tag? : Reading (Option (String × String)) := do
  match ← peek with
  | .tag handle suffix => skip; return some (handle, suffix)
  | _ => return none

/-- Read what stands before a node, in either order: its anchor and its tag. -/
def properties : Reading (Option String × String) := do
  let anchor ← anchor?
  let tag ← tag?
  let anchor ← if anchor.isNone && tag.isSome then anchor? else pure anchor
  match tag with
  | some (handle, suffix) => return (anchor, ← expand handle suffix)
  | none => return (anchor, "")

/-! ### Nodes -/

/-- The tokens before which nothing is written, in a block mapping. -/
def endsEntry : Token → Bool
  | .key => true
  | .value => true
  | .blockEnd => true
  | _ => false

/-- The tokens before which nothing is written, in a flow sequence. -/
def endsItem : Token → Bool
  | .comma => true
  | .flowSequenceEnd => true
  | _ => false

/-- The tokens before which nothing is written, in a flow mapping. -/
def endsPair : Token → Bool
  | .comma => true
  | .flowMappingEnd => true
  | _ => false

mutual

/-- Read a node.  A block collection can only start in a block, and where `level` is true a sequence
can do without an indentation of its own. -/
def node : Nat → Bool → Bool → Reading Node
  | 0, _, _ => failure
  | fuel + 1, block, level => do
    match ← peek with
    | .reference name => skip; refer name
    | _ =>
      let (anchor, tag) ← properties
      match anchor with
      | none => content fuel block level tag (!tag.isEmpty)
      | some name =>
        let number ← reserve name
        let n ← content fuel block level tag true
        define number n
        return n

/-- Read a node after its anchor and its tag; it can be left out if it has one of them. -/
def content : Nat → Bool → Bool → String → Bool → Reading Node
  | 0, _, _, _, _ => failure
  | fuel + 1, block, level, tag, optional => do
    let absent : Reading Node :=
      if optional then return .scalar (Node.scalarTag tag "" true) "" else failure
    let sequence := Node.collectionTag tag Tag.seq
    let mapping := Node.collectionTag tag Tag.map
    match ← peek with
    | .scalar text plain => skip; return .scalar (Node.scalarTag tag text plain) text
    | .flowSequenceStart => skip; return .sequence sequence (← flowItems fuel true)
    | .flowMappingStart => skip; return .mapping mapping (← flowEntries fuel true)
    | .dash => if level then return .sequence sequence (← levelItems fuel) else absent
    | .sequenceStart =>
      if block then skip; return .sequence sequence (← blockItems fuel) else absent
    | .mappingStart => if block then skip; return .mapping mapping (← blockEntries fuel) else absent
    | _ => absent

def blockItems : Nat → Reading (List Node)
  | 0 => failure
  | fuel + 1 => do
    match ← peek with
    | .dash =>
      skip
      let t ← peek
      let item ← if t == .dash || t == .blockEnd then pure Node.null else node fuel true false
      return item :: (← blockItems fuel)
    | .blockEnd => skip; return []
    | _ => failure

def levelItems : Nat → Reading (List Node)
  | 0 => failure
  | fuel + 1 => do
    match ← peek with
    | .dash =>
      skip
      let t ← peek
      let item ← if t == .dash || endsEntry t then pure Node.null else node fuel true false
      return item :: (← levelItems fuel)
    | _ => return []

def blockEntries : Nat → Reading (List (Node × Node))
  | 0 => failure
  | fuel + 1 => do
    match ← peek with
    | .key =>
      skip
      let key ← if endsEntry (← peek) then pure Node.null else node fuel true true
      let value ← blockValue fuel
      return (key, value) :: (← blockEntries fuel)
    | .blockEnd => skip; return []
    | _ => failure

def blockValue : Nat → Reading Node
  | 0 => failure
  | fuel + 1 => do
    match ← peek with
    | .value =>
      skip
      if endsEntry (← peek) then return .null else node fuel true true
    | _ => return .null

/-- Read the items of a flow sequence.  One with the mark of a key is a mapping of one entry. -/
def flowItems : Nat → Bool → Reading (List Node)
  | 0, _ => failure
  | fuel + 1, first => do
    if (← peek) == .flowSequenceEnd then skip; return []
    else
      if !first then
        if (← peek) == .comma then skip else failure
      match ← peek with
      | .key =>
        skip
        let pair ← flowPair fuel
        return .mapping Tag.map [pair] :: (← flowItems fuel false)
      | .flowSequenceEnd => skip; return []
      | _ =>
        let item ← node fuel false false
        return item :: (← flowItems fuel false)

/-- Read the one entry of a mapping in a flow sequence, after the mark of its key.  A token before
which the key is left out is lost. -/
def flowPair : Nat → Reading (Node × Node)
  | 0 => failure
  | fuel + 1 => do
    let t ← peek
    let key ← if t == .value || endsItem t then do skip; pure Node.null else node fuel false false
    let value ← match ← peek with
      | .value => do
        skip
        if endsItem (← peek) then pure Node.null else node fuel false false
      | _ => pure Node.null
    return (key, value)

/-- Read the entries of a flow mapping.  One without the mark of a key has no value. -/
def flowEntries : Nat → Bool → Reading (List (Node × Node))
  | 0, _ => failure
  | fuel + 1, first => do
    if (← peek) == .flowMappingEnd then skip; return []
    else
      if !first then
        if (← peek) == .comma then skip else failure
      match ← peek with
      | .key =>
        skip
        let t ← peek
        let key ← if t == .value || endsPair t then pure Node.null else node fuel false false
        let value ← flowValue fuel
        return (key, value) :: (← flowEntries fuel false)
      | .flowMappingEnd => skip; return []
      | _ =>
        let key ← node fuel false false
        return (key, .null) :: (← flowEntries fuel false)

def flowValue : Nat → Reading Node
  | 0 => failure
  | fuel + 1 => do
    match ← peek with
    | .value =>
      skip
      if endsPair (← peek) then return .null else node fuel false false
    | _ => return .null

end

/-! ### Documents -/

def commonRules : List (String × String) := [("!", "!"), ("!!", Tag.long)]

/-- Read the directives of a document: one version at most, which must be 1.1, and one rule at most for
a handle. -/
def directives : Nat → Bool → Reading Unit
  | 0, _ => failure
  | fuel + 1, versioned => do
    match ← peek with
    | .version major minor =>
      if versioned || major != 1 || minor != 1 then failure
      else
        skip
        directives fuel true
    | .tagRule handle uri =>
      if ((← get).rules.lookup handle).isSome then failure
      else
        modify fun s => { s with rules := s.rules ++ [(handle, uri)] }
        skip
        directives fuel versioned
    | _ => modify fun s => { s with rules := s.rules ++ commonRules }

/-- Is there no document before this token? -/
def isOutside : Token → Bool
  | .version _ _ => true
  | .tagRule _ _ => true
  | .documentStart => true
  | .documentEnd => true
  | .streamEnd => true
  | _ => false

/-- Read the first document; an empty text has a null. -/
def document (fuel : Nat) : Reading Node := do
  let _ ← peek
  skip
  let first ← peek
  if first == .streamEnd then return .null
  else
    directives fuel false
    let marked := first != .documentEnd && isOutside first
    if marked then
      if (← peek) == .documentStart then skip else failure
    let t ← peek
    let root ← if marked && isOutside t then pure Node.null else node fuel true false
    -- The document must be seen to be over.
    let _ ← peek
    return root

end Reading

def isAllowed (c : Char) : Bool :=
  let n := c.toNat
  n == 0x09 || n == 0x0A || n == 0x0D || (0x20 ≤ n && n ≤ 0x7E) || n == 0x85 ||
    (0xA0 ≤ n && n ≤ 0xD7FF) || (0xE000 ≤ n && n ≤ 0xFFFD) || 0x10000 ≤ n

/-- The text without the mark of its encoding. -/
def unmarked : List Char → List Char
  | c :: cs => if c.toNat == 0xFEFF then cs else c :: cs
  | [] => []

def read (s : String) : Option Document :=
  let cs := unmarked s.toList
  if !cs.all isAllowed then none
  else
    let size := cs.length + 8
    ((Reading.document (8 * size)).run { tokens := { cursor := { rest := cs } } }).map
      fun (root, s) => { root := root, anchored := s.anchored, size := size }

end Codegen.Yaml
