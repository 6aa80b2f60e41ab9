/-
Expression trees.

An instruction is a tree with its operation at the root and its sources as leaves.
When a register is computed only to be used once, its tree can take the place of the
leaf that uses it, so that one rule may cover several instructions.
-/
import Codegen.Instr

namespace Codegen

inductive Tree
  | absent
  | leaf (o : Operand)
  | node (op : Opcode) (type : Ty) (left right : Tree)
  deriving Repr, Inhabited

namespace Tree

def ofOperand : Option Operand → Tree
  | some o => .leaf o
  | none => .absent

/-- The type of the value an instruction computes: that of its destination, or else of its first
source. -/
def valueType (i : Instr) : Ty :=
  match i.dst, i.src1 with
  | some d, _ => d.type
  | none, some s => s.type
  | none, none => .missing

def ofInstr (i : Instr) : Tree := .node i.op (valueType i) (ofOperand i.src1) (ofOperand i.src2)

def type : Tree → Ty
  | .absent => .missing
  | .leaf o => o.type
  | .node _ t _ _ => t

/-- The same value at another type. -/
def withType (t : Tree) (type : Ty) : Tree :=
  match t with
  | .absent => .absent
  | .leaf o => .leaf (o.withType type)
  | .node op _ l r => .node op type l r

def leaves : Tree → List Operand
  | .absent => []
  | .leaf o => [o]
  | .node _ _ l r => l.leaves ++ r.leaves

def reads (t : Tree) : List Int := t.leaves.filterMap (·.vregId?)

def loads : Tree → Bool
  | .absent => false
  | .leaf _ => false
  | .node op _ l r => op == .ir .indirect || l.loads || r.loads

def readsMemory (t : Tree) : Bool := t.leaves.any (·.isMemory) || t.loads

/-- A tree in prefix form. -/
def text : Tree → String
  | .absent => ""
  | .leaf o => o.text
  | .node op _ l r =>
    let args := match l, r with
      | .absent, .absent => ""
      | .absent, r => r.text
      | l, .absent => l.text
      | l, r => l.text ++ " " ++ r.text
    "(" ++ op.text ++ " " ++ args ++ ")"

/-! ### Moves that only restate a type -/

/-- Does a move between these types leave the value as it is? -/
def sameRepresentation (a b : Ty) : Bool :=
  !a.isMissing && !b.isMissing && ((a.isPointer && b.isPointer) || a.same b)

/-- The value a removed move stands for.  A pointer to an aggregate keeps the type it was moved at. -/
def unmoved (type : Ty) (value : Tree) : Tree :=
  if type.target.isAggregate then value.withType type else value

def isAbsent : Tree → Bool
  | .absent => true
  | _ => false

def isNode : Tree → Bool
  | .node _ _ _ _ => true
  | _ => false

def simplify : Tree → Tree
  | .absent => .absent
  | .leaf o => .leaf o
  | .node op type l r =>
    let l := l.simplify
    let r := r.simplify
    if op == .ir .move && sameRepresentation type l.type then unmoved type l
    else .node op type l r

/-- Simplify a whole tree.  A move of an operation to a register becomes the operation itself. -/
def simplifyRoot (dst : Option Operand) : Tree → Tree
  | .node op type l r =>
    let l := l.simplify
    let r := r.simplify
    let direct := match dst with
      | some d => !d.isMemory
      | none => false
    if op == .ir .move && sameRepresentation type l.type && l.isNode && direct then
      l.withType type
    else .node op type l r
  | t => t

end Tree

end Codegen
