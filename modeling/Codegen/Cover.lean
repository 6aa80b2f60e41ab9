/-
Covering trees with rules.

A cover gives each operation of a tree a rule, whose operand classes are what the
covers of the children produce, and each leaf a leaf rule.  One more leaf rule may
follow an operation below the root, to widen or reinterpret its result.  For every
node the cheapest cover into each class is found, children first; of covers that cost
the same, the one whose last rule comes first in the table is taken.
-/
import Codegen.RuleSet
import Codegen.Tree

namespace Codegen

inductive Cover
  | absent
  | leaf (rule : Rule) (o : Operand)
  | node (rule : Rule) (type : Ty) (left right : Cover)
  /-- A leaf rule applied to the result of an operation. -/
  | chain (rule : Rule) (inner : Cover)
  deriving Repr, Inhabited

/-- A cover with its cost and its last rule. -/
structure Choice where
  cost : Int64
  index : Nat
  cover : Cover
  deriving Repr, Inhabited

namespace Choice

def better (a b : Choice) : Bool := if a.cost = b.cost then a.index < b.index else a.cost < b.cost

end Choice

abbrev Choices := List (OpClass × Choice)

namespace Choices

def get? (cs : Choices) (c : OpClass) : Option Choice := (cs.find? (·.1 == c)).map (·.2)

def offer (cs : Choices) (c : OpClass) (new : Choice) : Choices :=
  match cs with
  | [] => [(c, new)]
  | (k, old) :: rest =>
    if k == c then (k, if new.better old then new else old) :: rest
    else (k, old) :: offer rest c new

def cheapest : Choices → Option (OpClass × Choice)
  | [] => none
  | first :: rest =>
    some (rest.foldl (fun best new => if new.2.better best.2 then new else best) first)

/-! ### Leaves -/

def offerLeaves (set : RuleSet) (o : Operand) (cs : Choices) (c : OpClass) : Choices :=
  (set.leavesFrom c).foldl (fun cs r => cs.offer r.dst ⟨r.cost, r.index, .leaf r o⟩) cs

def ofOperand (set : RuleSet) (o : Operand) : Choices :=
  (OpClass.ofOperand o).foldl (offerLeaves set o) []

/-! ### Operations -/

/-- The choice for a child, which must be there exactly when the rule wants it. -/
def child (t : Tree) (cs : Choices) (want : OpClass) : Option Choice :=
  if t.isAbsent then (if want == .none then some ⟨0, 0, .absent⟩ else none)
  else if want == .none then none
  else cs.get? want

/-- Offer one rule for an operation, if the children have the classes it wants. -/
def offerRule (type : Ty) (l r : Tree) (lc rc : Choices) (accepts : OpClass → Bool) (cs : Choices)
    (rule : Rule) : Choices :=
  if !accepts rule.dst then cs
  else match child l lc rule.src1 with
    | none => cs
    | some a =>
      match child r rc rule.src2 with
      | none => cs
      | some b =>
        cs.offer rule.dst
          ⟨rule.cost + a.cost + b.cost, rule.index, .node rule type a.cover b.cover⟩

def ofRules (set : RuleSet) (op : Opcode) (type : Ty) (l r : Tree) (lc rc : Choices)
    (accepts : OpClass → Bool) : Choices :=
  (set.forOp op).foldl (offerRule type l r lc rc accepts) []

/-- Offer the leaf rules that may follow a result in a register. -/
def offerChains (set : RuleSet) (cs : Choices) (base : OpClass × Choice) : Choices :=
  if base.1.isRegister then
    (set.leavesFrom base.1).foldl
      (fun cs r =>
        if r.dst == r.src1 then cs
        else cs.offer r.dst ⟨base.2.cost + r.cost, r.index, .chain r base.2.cover⟩)
      cs
  else cs

def ofTree (set : RuleSet) : Tree → Choices
  | .absent => []
  | .leaf o => ofOperand set o
  | .node op type l r =>
    let base := ofRules set op type l r (ofTree set l) (ofTree set r) (·.compatible type)
    base.foldl (offerChains set) base

/-- May a rule with this result class write the destination? -/
def writes (dst : Option Operand) (c : OpClass) : Bool :=
  match dst with
  | none => c == .none
  | some d => c != .none && c.holds d

def ofRoot (set : RuleSet) (dst : Option Operand) : Tree → Choices
  | .node op type l r => ofRules set op type l r (ofTree set l) (ofTree set r) (writes dst)
  | _ => []

end Choices

end Codegen
