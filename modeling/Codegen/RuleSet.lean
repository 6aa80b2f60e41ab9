/-
Rule tables.

A table is a list of rules, each at the place its index says.  Selection asks for
the rules of an operation and for the leaf rules from a class; both keep the order
of the table, because ties between rules go to the smaller index.
-/
import Codegen.Rule
import Std.Data.HashMap

namespace Codegen

structure RuleSet where
  rules : List Rule
  deriving Repr, Inhabited

namespace RuleSet

def number (n : Nat) : List Pattern → List Rule
  | [] => []
  | p :: ps => { p with index := n } :: number (n + 1) ps

/-- The table that some patterns stand for. -/
def ofPatterns (ps : List Pattern) : RuleSet := ⟨number 0 (ps.flatMap Pattern.expand)⟩

def size (s : RuleSet) : Nat := s.rules.length

def forOp (s : RuleSet) (op : Opcode) : List Rule :=
  s.rules.filter fun r => r.op == op && !r.isLeaf

def leavesFrom (s : RuleSet) (c : OpClass) : List Rule :=
  s.rules.filter fun r => r.isLeaf && r.src1 == c

def unused (s : RuleSet) (used : List Nat) : List Rule :=
  s.rules.filter fun r => !used.contains r.index

def lines (s : RuleSet) : List String :=
  Rule.columns "#" "dst" "op" "src1" "src2" "cst" :: s.rules.map (·.text)

/-! ### Checking a table -/

/-- What is wrong with a table. -/
inductive Problem
  | tooMany (count : Nat)
  | duplicate (rule : Rule) (earlier : Nat)
  | free (rule : Rule)
  | narrowing (rule : Rule)
  deriving Repr

/-- The most rules a table may have. -/
def limit : Nat := 9000

def Problem.message : Problem → String
  | .tooMany count =>
    "rule table has " ++ toString count ++ " rules, limit is " ++ toString limit
  | .duplicate r earlier =>
    "rule " ++ toString r.index ++ " duplicates rule " ++ toString earlier ++ ": " ++ r.text
  | .free r => "rule " ++ toString r.index ++ " has an operation but no cost: " ++ r.text
  | .narrowing r => "rule " ++ toString r.index ++ " loses precision: " ++ r.text

/-- What two rules must not share. -/
structure Shape where
  op : Opcode
  dst : OpClass
  src1 : OpClass
  src2 : OpClass
  deriving DecidableEq, Hashable

def shape (r : Rule) : Shape := ⟨r.op, r.dst, r.src1, r.src2⟩

/-- The problems of one rule, given the first rule of each shape before it. -/
def problemsOf (seen : Std.HashMap Shape Nat) (r : Rule) : List Problem :=
  (match seen[shape r]? with
    | some earlier => [.duplicate r earlier]
    | none => []) ++
    (if r.cost = 0 && !r.isLeaf then [.free r] else []) ++
    (if r.narrows then [.narrowing r] else [])

def problemsFrom : Std.HashMap Shape Nat → List Rule → List Problem
  | _, [] => []
  | seen, r :: rest => problemsOf seen r ++ problemsFrom (seen.insertIfNew (shape r) r.index) rest

def problems (s : RuleSet) : List Problem :=
  (if s.size > limit then [.tooMany s.size] else []) ++ problemsFrom {} s.rules

end RuleSet

end Codegen
