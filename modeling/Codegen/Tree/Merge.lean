/-
Merging trees.

Inside a basic block, the tree that computes a register takes the place of the leaf
that uses it, when that is its only use, nothing after the block needs it, and moving
the computation down past the instructions in between changes nothing: none of them
writes a register it reads, and if it reads memory none of them writes memory.
-/
import Codegen.Function
import Codegen.Tree

namespace Codegen

structure Item where
  instr : Instr
  tree : Tree
  merged : Bool := false
  deriving Repr, Inhabited

/-- What merging needs to know about the whole function. -/
structure MergeInfo where
  code : List Instr
  blocks : List (List Instr)
  /-- The registers read after the block that computes them; by default those that another block
  mentions. -/
  liveOut : Option (List Int) := none

namespace MergeInfo

def defCount (m : MergeInfo) (v : Int) : Nat := m.code.countP fun i => i.defined? == some v

def useCount (m : MergeInfo) (v : Int) : Nat := (m.code.flatMap Instr.used).count v

def mentions (v : Int) (i : Instr) : Bool := i.defined? == some v || i.used.contains v

def isLiveOut (m : MergeInfo) (v : Int) : Bool :=
  match m.liveOut with
  | some vs => vs.contains v
  | none => m.blocks.countP (·.any (mentions v)) > 1

end MergeInfo

namespace Item

/-- Can the computation become part of a later one?  It must write a virtual register and have no
other effect. -/
def isPure (i : Instr) : Bool :=
  let toRegister := match i.dst with
    | some d => d.vregId?.isSome
    | none => false
  let effect := i.op.isMarker || i.op.isJump || i.op.isMachine || i.op.writesMemory ||
    match i.op with
    | .ir .vaArg => true
    | .ir .argStackPadding => true
    | .ir .allocateStack => true
    | .ir .releaseStack => true
    | _ => false
  toRegister && !effect

def changesMemory (i : Instr) : Bool :=
  i.op.writesMemory || i.op == .ir .vaArg || i.dst.any (·.isMemory)

def isCallBoundary (op : Opcode) : Bool :=
  op == .ir .startCall || op == .ir .call || op == .ir .endCall

def writesOne (vs : List Int) (i : Instr) : Bool := i.defined?.any vs.contains

/-- May a computation that reads `vs`, and memory if `memory`, move down past an instruction? -/
def mayPass (vs : List Int) (memory : Bool) (i : Instr) : Bool :=
  !isCallBoundary i.op && !writesOne vs i && !(memory && changesMemory i)

/-- May the tree of `d`, which computes `v`, move into `user` past `between`? -/
def canMerge (m : MergeInfo) (user : Instr) (v : Int) (between : List Item) (d : Item) : Bool :=
  let reads := d.tree.reads
  !Reg.isPseudo v && d.instr.label == 0 && isPure d.instr && m.defCount v == 1 &&
    m.useCount v == 1 && !m.isLiveOut v && !reads.any Reg.isPseudo && !writesOne reads user &&
    between.all fun i => mayPass reads d.tree.readsMemory i.instr

/-- Split the earlier items, latest first, at the latest one that computes `v`. -/
def splitAtDef (v : Int) : List Item → Option (List Item × Item × List Item)
  | [] => none
  | item :: older =>
    if item.instr.defined? == some v then some ([], item, older)
    else (splitAtDef v older).map fun (between, d, rest) => (item :: between, d, rest)

/-- Replace the leaves of a tree by the computations that may move there. -/
def mergeTree (m : MergeInfo) (user : Instr) : Tree → List Item → Tree × List Item
  | .absent, earlier => (.absent, earlier)
  | .leaf o, earlier =>
    match o.vregId?.bind fun v => (splitAtDef v earlier).map fun s => (v, s) with
    | none => (.leaf o, earlier)
    | some (v, between, d, older) =>
      if canMerge m user v between d then
        (d.tree, between ++ { d with merged := true } :: older)
      else (.leaf o, earlier)
  | .node op type l r, earlier =>
    let (l, earlier) := mergeTree m user l earlier
    let (r, earlier) := mergeTree m user r earlier
    (.node op type l r, earlier)

/-- Is the instruction one that selection leaves as it is? -/
def isSettled (i : Instr) : Bool := i.op.isMarker || i.op.isMachine

/-- Add one instruction to the items before it, latest first. -/
def mergeStep (m : MergeInfo) (earlier : List Item) (i : Instr) : List Item :=
  let tree := Tree.ofInstr i
  if isSettled i then { instr := i, tree := tree } :: earlier
  else
    let (tree, earlier) := mergeTree m i tree earlier
    { instr := i, tree := tree } :: earlier

def mergeBlock (m : MergeInfo) (block : List Instr) : List Item :=
  (block.foldl (mergeStep m) []).reverse

def plainBlock (block : List Instr) : List Item :=
  block.map fun i => { instr := i, tree := Tree.ofInstr i }

end Item

end Codegen
