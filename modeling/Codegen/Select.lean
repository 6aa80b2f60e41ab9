/-
Instruction selection.

The code is cut into basic blocks and each block into trees; every tree is covered at
least cost and the instructions of the cover are emitted, operands first.

A result that goes to memory is computed into a register first, since only moves store.
When the destination is also a source that the root rule still needs after writing,
the result goes through a temporary.
-/
import Codegen.Cover
import Codegen.Traced
import Codegen.Tree.Fold
import Codegen.Tree.Merge

namespace Codegen

structure SelectOptions where
  merge : Bool := true
  fold : Bool := true
  /-- The registers needed after their block; by default those that another block mentions. -/
  liveOut : Option (List Int) := none

/-- Code in the middle of being selected. -/
structure Selection where
  vregCount : Int
  out : Array Instr := #[]
  /-- The label for the next instruction. -/
  label : Int := 0
  used : Array Nat := #[]
  deriving Inhabited

/-- A step of selection that cannot fail. -/
abbrev Emit := StateM Selection

abbrev SelectM := StateT Selection Traced

instance : MonadLift Emit SelectM where
  monadLift e := modifyGet e.run

namespace Selection

/-! ### Emitting a cover -/

def freshReg (t : Ty) : Emit Operand :=
  modifyGet fun s => (.vreg (s.vregCount + 1) t, { s with vregCount := s.vregCount + 1 })

def append (i : Instr) : Emit Unit := modify fun s => { s with out := s.out.push i }

def emit (i : Instr) : Emit Unit :=
  modify fun s =>
    { s with
      out := s.out.push (if s.label = 0 then i else { i with label := s.label })
      label := 0 }

/-- The operands of a rule, and the scratch registers made so far. -/
structure Binding where
  dst : Option Operand
  src1 : Option Operand
  src2 : Option Operand
  /-- The type at which fixed registers are used. -/
  type : Ty
  scratch : List (Fin 4 × Operand) := []

/-- The operand of an argument; a scratch register is made when it is first named. -/
def resolve (b : Binding) : Arg → Emit (Option Operand × Binding)
  | .none => pure (none, b)
  | .dst => pure (b.dst, b)
  | .src1 => pure (b.src1, b)
  | .src2 => pure (b.src2, b)
  | .rax => pure (some (.vreg Reg.rax.pseudo b.type), b)
  | .rcx => pure (some (.vreg Reg.rcx.pseudo b.type), b)
  | .rdx => pure (some (.vreg Reg.rdx.pseudo b.type), b)
  | .xmm0 => pure (some (.vreg Reg.xmm0.pseudo b.type), b)
  | .scratch n =>
    match b.scratch.lookup n with
    | some o => pure (some o, b)
    | none => do
      let o ← freshReg .long
      return (some o, { b with scratch := (n, o) :: b.scratch })

def applyMicro (b : Binding) (m : MicroOp) : Emit Binding := do
  let (dst, b) ← resolve b m.dst
  let (v1, b) ← resolve b m.v1
  let (v2, b) ← resolve b m.v2
  emit { op := m.op, dst := dst, src1 := v1, src2 := v2, template := m.template }
  return b

/-- The type at which a rule uses fixed registers: that of its value if a register can hold it. -/
def fixedType (t : Ty) : Ty := if t.isInteger || t.isPointer || t.isSse then t else .long

def apply (r : Rule) (dst src1 src2 : Option Operand) (type : Ty) : Emit Unit := do
  modify fun s => { s with used := s.used.push r.index }
  let _ ← r.ops.foldlM applyMicro
    { dst := dst, src1 := src1, src2 := src2, type := fixedType type }

/-- Apply a leaf rule to an operand.  A rule without instructions leaves it as it is. -/
def applyLeaf (r : Rule) (src : Operand) : Emit Operand :=
  if r.ops.isEmpty then pure src
  else do
    let dst ← freshReg (r.dst.resultType src.type)
    apply r dst src none src.type
    return dst

def reduce : Cover → Emit (Option Operand)
  | .absent => pure none
  | .leaf r o => do return some (← applyLeaf r o)
  | .chain r inner => do
    match ← reduce inner with
    | some o => return some (← applyLeaf r o)
    | none => return none
  | .node r type left right => do
    let src1 ← reduce left
    let src2 ← reduce right
    let dst ← if r.dst.isRegister then some <$> freshReg (r.dst.resultType type) else pure none
    apply r dst src1 src2 type
    return dst

/-- Does the rule overwrite a register that it reads again later as a source? -/
def overwrites (r : Rule) (dst src : Option Operand) (arg : Arg) : Bool :=
  match dst.bind (·.vregId?), src.bind (·.vregId?) with
  | some d, some s => d == s && r.clobbers arg
  | _, _ => false

/-! ### Selecting trees -/

def bestCover (set : RuleSet) (name : String) (i : Instr) (t : Tree) : SelectM Cover := do
  match (Choices.ofRoot set i.dst t).cheapest with
  | none => throw (.internal .select (.noRule t.text) (some i))
  | some (c, choice) =>
    Traced.note name (.tile t.text choice.cost.toInt c)
    return choice.cover

/-- A label that no instruction took stands alone. -/
def flushLabel : Emit Unit := do
  let label := (← get).label
  if label != 0 then
    append (.target label)
    modify fun s => { s with label := 0 }

/-- Cover and emit a tree.  `rounds` is how often a result may go through a temporary: the move out of
a temporary can need another one only if the first one's number was not really fresh, and the next
one's is. -/
def selectTree (set : RuleSet) (name : String) : Nat → Instr → Tree → SelectM Unit
  | rounds, i, t => do
    let cover ← bestCover set name i t
    modify fun s => { s with label := i.label }
    match cover with
    | .node r type left right =>
      let src1 ← reduce left
      let src2 ← reduce right
      match rounds with
      | rounds + 1 =>
        match i.dst with
        | some d =>
          if overwrites r i.dst src1 .src1 || overwrites r i.dst src2 .src2 then
            let tmp ← freshReg d.type
            apply r tmp src1 src2 type
            let move := Instr.ir .move d tmp none
            selectTree set name rounds move (.ofInstr move)
          else apply r i.dst src1 src2 type
        | none => apply r none src1 src2 type
      | 0 => apply r i.dst src1 src2 type
    | _ => pure ()
    flushLabel

def prepare (fold : Bool) (i : Instr) (t : Tree) : Tree :=
  let t := t.simplifyRoot i.dst
  if fold then t.foldRoot i.dst else t

def selectItem (set : RuleSet) (name : String) (fold : Bool) (item : Item) : SelectM Unit := do
  if item.merged then pure ()
  else if Item.isSettled item.instr then append item.instr
  else
    if item.instr.op == .ir .none then throw (.fault .noOperation)
    selectTree set name 2 item.instr (prepare fold item.instr item.tree)

def selectBlock (set : RuleSet) (name : String) (options : SelectOptions) (info : MergeInfo)
    (index : Nat) (block : List Instr) : SelectM Unit := do
  if options.merge && block.any (·.op == .ir .none) then throw (.fault .noOperation)
  let items := if options.merge then Item.mergeBlock info block else Item.plainBlock block
  items.forM (selectItem set name options.fold)
  Traced.note name (.block index block.length (items.countP (!·.merged)))

def selectBlocks (set : RuleSet) (name : String) (options : SelectOptions) (info : MergeInfo) :
    Nat → List (List Instr) → SelectM Unit
  | _, [] => pure ()
  | index, block :: rest => do
    selectBlock set name options info index block
    selectBlocks set name options info (index + 1) rest

end Selection

namespace Function

/-- Compute a result that goes to memory into a register first, and store it from there. -/
def splitMemoryDst (vregCount : Int) (i : Instr) : List Instr × Int :=
  match i.dst with
  | some d =>
    if !d.isMemory || i.op == .ir .move || i.op.isMarker || d.type.isAggregate ||
        d.type.isLongDouble then ([i], vregCount)
    else
      let tmp := Operand.vreg (vregCount + 1) d.type
      ([{ i with dst := some tmp }, .ir .move d tmp none], vregCount + 1)
  | none => ([i], vregCount)

def splitMemoryDsts : Int → List Instr → List Instr × Int
  | vregCount, [] => ([], vregCount)
  | vregCount, i :: rest =>
    let (first, vregCount) := splitMemoryDst vregCount i
    let (more, vregCount) := splitMemoryDsts vregCount rest
    (first ++ more, vregCount)

/-- Replace the generic instructions of a function by machine instructions; also the indexes of the
rules applied. -/
def select (f : Function) (set : RuleSet) (options : SelectOptions) :
    Traced (Function × Array Nat) := do
  let (code, vregCount) := splitMemoryDsts f.vregCount f.code
  let f := { f with code := code, vregCount := vregCount }
  let blocks := f.blocks
  let info : MergeInfo := { code := code, blocks := blocks, liveOut := options.liveOut }
  let (_, s) ← (Selection.selectBlocks set f.name options info 0 blocks).run
    { vregCount := vregCount }
  return ({ f with code := s.out.toList, vregCount := s.vregCount }, s.used)

end Function

end Codegen
