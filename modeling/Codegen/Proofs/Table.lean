/-
The rules of the machine on words.

Every rule of the table that can be used in a tree of words is right about words: the leaf rules,
the moves, the commutative operations, subtraction and complement.  What is left of the table is
about floats, pointers, comparisons and control, and no rule there has a word for a result.

`isRight` tests this for one rule.  The table is gone through once; the rest says what the outcome
means.
-/
import Codegen.Proofs.Cover
import Codegen.Proofs.Layout
import Codegen.Proofs.Tile
import Codegen.Table

namespace Codegen
namespace Machine

open Table RuleSet

/-! ### The tests -/

/-- The classes that a move to a register takes and that do not carry a word of its width. -/
def misses (w : IntWidth) : OpClass → Bool
  | .reg _ w' => w'.bits < w.bits
  | .literal => true
  | .func => true
  | .freg _ => true
  | _ => false

/-- Do the same operands carry a word in both classes? -/
def alike : OpClass → OpClass → Bool
  | .reg _ w, .reg _ w' => w = w'
  | c, c' => c = c'

/-- A leaf rule does not lose bits of a word in a register or in memory, and leaves a constant as it
is or loads it at a cost.  What it does to a word is nothing, or a load into a register. -/
def isRightLeaf (r : Rule) : Bool :=
  (match r.src1 with
    | .reg _ w => !misses w r.dst
    | .mem _ w => !misses w r.dst
    | .const _ _ => r.dst = r.src1 || 1 ≤ r.cost.toInt
    | _ => true) &&
  IntWidth.all.all fun w => !carries w r.src1 || !carries w r.dst ||
    if r.ops.isEmpty then alike r.src1 r.dst
    else r.src2 = .none && r.dst.isRegister && isTransfer w r.toPattern

def isRightMove (w : IntWidth) (r : Rule) : Bool :=
  r.src2 = .none && 1 ≤ r.cost.toInt &&
    if carries w r.src1 then isTransfer w r.toPattern else misses w r.src1 && r.dst.isRegister

/-- What is tested of every rule. -/
def isRight (r : Rule) : Bool :=
  match r.op, r.dst with
  | .ir .none, _ => isRightLeaf r
  | .ir .move, .reg _ w => isRightMove w r
  | .ir .move, .mem _ w => isRightMove w r
  | .ir .bnot, .reg _ w => isComplement w r.toPattern && carries w r.src1 && r.src2 = .none
  | .ir op, .reg _ w => !op.isBinaryWord ||
    carries w r.src1 && carries w r.src2 && isCombination w op r.toPattern
  | _, _ => true

set_option maxRecDepth 8000 in
theorem isRight_of_mem : ∀ r ∈ x86.rules, isRight r = true := by
  decide +kernel

/-! ### What every rule does to words -/

variable {r : Rule} {c c' : OpClass} {op : IrOp} {s : Signedness} {w : IntWidth} {o : Operand}

theorem isRightLeaf_of_leavesFrom (h : r ∈ x86.leavesFrom c) : isRightLeaf r = true ∧ r.src1 = c := by
  simp only [leavesFrom, List.mem_filter, Bool.and_eq_true, Rule.isLeaf, beq_iff_eq] at h
  obtain ⟨hr, hop, hsrc⟩ := h
  have hright := isRight_of_mem r hr
  rw [isRight, hop] at hright
  exact ⟨hright, hsrc⟩

theorem isRight_of_forOp (h : r ∈ x86.forOp (.ir op)) : isRight r = true ∧ r.op = .ir op := by
  simp only [forOp, List.mem_filter, Bool.and_eq_true, beq_iff_eq] at h
  exact ⟨isRight_of_mem r h.1, h.2.1⟩

theorem Fits.of_alike (h : Fits w c o) (hc : alike c c' = true) : Fits w c' o := by
  unfold alike at hc
  split at hc
  · rw [of_decide_eq_true hc] at h
    exact h
  · rwa [of_decide_eq_true hc] at h

/-- What a leaf rule does to a word: nothing, or a load into a register. -/
theorem leaf_transforms (h : r ∈ x86.leavesFrom c) (hsrc : carries w c = true)
    (hdst : carries w r.dst = true) :
    (r.ops = [] ∧ ∀ o, Fits w c o → Fits w r.dst o) ∨
      r.ops ≠ [] ∧ Transforms w .move r.toPattern ∧ ∃ s w', r.dst = .reg s w' := by
  obtain ⟨hright, rfl⟩ := isRightLeaf_of_leavesFrom h
  simp only [isRightLeaf, Bool.and_eq_true, List.all_eq_true] at hright
  have htest := hright.2 w (by cases w <;> decide)
  simp only [hsrc, hdst, Bool.not_true, Bool.false_or] at htest
  split at htest
  · rename_i hops
    exact .inl ⟨List.isEmpty_iff.mp hops, fun o ho => ho.of_alike htest⟩
  · rename_i hops
    simp only [Bool.and_eq_true, decide_eq_true_eq] at htest
    obtain ⟨⟨hsrc2, hreg⟩, htransfer⟩ := htest
    refine .inr ⟨by simpa using hops, (transforms_of_isTransfer htransfer hsrc2).1, ?_⟩
    cases hc : r.dst <;> simp_all [OpClass.isRegister, carries]

theorem misses_of_leavesFrom (h : r ∈ x86.leavesFrom c) (hc : c = .reg s w ∨ c = .mem s w) :
    misses w r.dst = false := by
  obtain ⟨hright, rfl⟩ := isRightLeaf_of_leavesFrom h
  rcases hc with hc | hc <;> simp_all [isRightLeaf]

theorem const_of_leavesFrom (h : r ∈ x86.leavesFrom (.const s w)) : r.dst = .const s w ∨ 1 ≤ r.cost.toInt := by
  obtain ⟨hright, hc⟩ := isRightLeaf_of_leavesFrom h
  simp_all [isRightLeaf]

/-- What a move rule does to a word. -/
structure Moves (w : IntWidth) (q : Pattern) : Prop where
  src2 : q.src2 = .none
  cost : 1 ≤ q.cost.toInt
  sound : carries w q.src1 = true → Transforms w .move q ∧ q.ops.length = 1
  source : carries w q.src1 = true ∨ misses w q.src1 = true ∧ q.dst.isRegister = true

/-- The rules of a move to a register or to memory. -/
theorem moves_of_forOp (h : r ∈ x86.forOp (.ir .move)) (hdst : r.dst = .reg s w ∨ r.dst = .mem s w) :
    Moves w r.toPattern := by
  obtain ⟨hright, hop⟩ := isRight_of_forOp h
  have hmove : isRightMove w r = true := by
    rcases hdst with hdst | hdst <;> simpa only [isRight, hop, hdst] using hright
  simp only [isRightMove, Bool.and_eq_true, decide_eq_true_eq] at hmove
  obtain ⟨⟨hsrc2, hcost⟩, htest⟩ := hmove
  split at htest
  · rename_i hsrc
    exact ⟨hsrc2, hcost, fun _ => transforms_of_isTransfer htest hsrc2, .inl hsrc⟩
  · rename_i hsrc
    exact ⟨hsrc2, hcost, fun h => absurd h hsrc, .inr (Bool.and_eq_true_iff.mp htest)⟩

theorem combines_of_forOp (hop : op.isBinaryWord = true) (h : r ∈ x86.forOp (.ir op))
    (hdst : r.dst = .reg s w) : Combines w op r.toPattern := by
  obtain ⟨hright, hrop⟩ := isRight_of_forOp h
  have htest : (carries w r.src1 = true ∧ carries w r.src2 = true) ∧
      isCombination w op r.toPattern = true := by
    unfold isRight at hright
    rw [hrop, hdst] at hright
    cases op <;> simp only [IrOp.isBinaryWord, Bool.false_eq_true] at hop <;>
      simpa [IrOp.isBinaryWord] using hright
  exact combines_of_isCombination hop htest.2 hdst htest.1.1 htest.1.2

theorem transforms_of_forOp (h : r ∈ x86.forOp (.ir .bnot)) (hdst : r.dst = .reg s w) :
    Transforms w .bnot r.toPattern ∧ carries w r.src1 = true := by
  obtain ⟨hright, hop⟩ := isRight_of_forOp h
  simp only [isRight, hop, hdst, Bool.and_eq_true, decide_eq_true_eq] at hright
  obtain ⟨⟨htest, hsrc1⟩, hsrc2⟩ := hright
  exact ⟨transforms_of_isComplement htest hdst hsrc2, hsrc1⟩

/-! ### Rules that are there -/

theorem mem_signedness (s : Signedness) : s ∈ Signedness.both := by cases s <;> decide

theorem mem_widths (w : IntWidth) : w ∈ IntWidth.all := by cases w <;> decide

instance (P : Signedness → Prop) [DecidablePred P] : Decidable (∀ s, P s) :=
  decidable_of_iff (∀ s ∈ Signedness.both, P s) ⟨fun h s => h s (mem_signedness s), fun h s _ => h s⟩

instance (P : IntWidth → Prop) [DecidablePred P] : Decidable (∀ w, P w) :=
  decidable_of_iff (∀ w ∈ IntWidth.all, P w) ⟨fun h w => h w (mem_widths w), fun h w _ => h w⟩

theorem exists_binary (hop : op.isBinaryWord = true) : ∀ s w, ∃ r ∈ x86.forOp (.ir op),
    r.dst = .reg s w ∧ r.src1 = .reg s w ∧ r.src2 = .reg s w := by
  revert hop
  cases op <;> decide +kernel

theorem exists_complement : ∀ s w, ∃ r ∈ x86.forOp (.ir .bnot),
    r.dst = .reg s w ∧ r.src1 = .reg s w ∧ r.src2 = .none := by
  decide +kernel

/-- A constant is moved to a register at the least cost there is. -/
theorem exists_constant : ∀ s w,
    (∃ r ∈ x86.leavesFrom (.const .signed w), r.dst = .const .signed w ∧ r.cost = 0) ∧
      ∃ r ∈ x86.forOp (.ir .move),
        r.dst = .reg s w ∧ r.src1 = .const .signed w ∧ r.src2 = .none ∧ r.cost = 1 := by
  decide +kernel

/-- A word in a register can be moved to a register and to memory, and a wider one is cut off. -/
theorem exists_move : ∀ s w w', w.rank ≤ w'.rank →
    (∃ r ∈ x86.forOp (.ir .move), r.dst = .reg s w ∧ r.src1 = .reg s w' ∧ r.src2 = .none) ∧
      ∃ r ∈ x86.forOp (.ir .move), r.dst = .mem s w ∧ r.src1 = .reg s w' ∧ r.src2 = .none := by
  decide +kernel

end Machine

/-! ### Loads -/

theorem OpClass.isFlags_of_isRegister {c : OpClass} (h : c.isRegister = true) : c.isFlags = false := by
  cases c with
  | flags c => exact nomatch h
  | _ => rfl

/-- A constant is in the signed class of its own width, and in the one of its own signedness. -/
theorem OpClass.mem_ofConstant (n : Int64) (w : IntWidth) (s : Signedness) :
    .const s w ∈ ofConstant n (.int w s) ∧ .const .signed w ∈ ofConstant n (.int w s) := by
  have hw := Machine.mem_widths w
  cases s <;> simp [ofConstant, constantShape, hw]

/-- The cost of the leaf rule that puts an operand of a class into an integer register. -/
def OpClass.loadCost? (c : OpClass) (s : Signedness) (w : IntWidth) : Option Int :=
  match c with
  | .reg s' w' =>
    if w' = w then some (if s' = s then 0 else Table.costReinterpret.toInt)
    else if w'.rank < w.rank then some Table.costMove.toInt
    else Option.none
  | .mem _ w' => if w'.rank ≤ w.rank then some Table.costLoad.toInt else Option.none
  | .const _ w' => if w' = w then some Table.costMove.toInt else Option.none
  | .literal => if s = .unsigned ∧ w = .w64 then some Table.costMove.toInt else Option.none
  | .func => if s = .unsigned ∧ w = .w64 then some Table.costMove.toInt else Option.none
  | _ => Option.none

/-- Are there leaf rules from a class at the known costs? -/
def OpClass.Loads (c : OpClass) : Prop :=
  ∀ s w, ∀ k ∈ c.loadCost? s w, ∃ r ∈ RuleSet.x86.leavesFrom c, r.dst = .reg s w ∧ r.cost.toInt = k

instance (c : OpClass) : Decidable c.Loads := by
  unfold OpClass.Loads
  infer_instance

theorem OpClass.loads (c : OpClass) : c.Loads := by
  have hwords : ∀ s w, (OpClass.reg s w).Loads ∧ (OpClass.mem s w).Loads ∧ (OpClass.const s w).Loads := by
    decide +kernel
  cases c with
  | reg s w => exact (hwords s w).1
  | mem s w => exact (hwords s w).2.1
  | const s w => exact (hwords s w).2.2
  | literal => decide +kernel
  | func => decide +kernel
  | _ => exact fun _ _ _ h => nomatch h

/-! ### Costs that add up -/

/-- Is a tree so small that the costs of its covers by the rules of the machine fit a word? -/
def Tree.Small (t : Tree) : Prop := t.size < 2 ^ 55

theorem Tree.Small.of_node {op : Opcode} {type : Ty} {l r : Tree} (h : (Tree.node op type l r).Small) :
    l.Small ∧ r.Small := by
  simp only [Small, size] at h ⊢
  omega

namespace Choices

open RuleSet

variable {t t' : Tree} {a b : Choice} {c c' : OpClass} {rule : Rule} {op : Opcode} {type : Ty}

set_option maxRecDepth 8000 in
theorem cost_of_mem_rules : ∀ r ∈ x86.rules, 0 ≤ r.cost.toInt ∧ r.cost.toInt ≤ 64 := by
  decide +kernel

theorem cost_of_covers (ht : t.Small) (h : Covers x86 t c a) :
    a.cost.toInt = a.cover.cost ∧ 0 ≤ a.cost.toInt ∧ a.cost.toInt ≤ 64 * (2 * t.size) := by
  have hpos := h.tiles.cost_nonneg fun r hr => (cost_of_mem_rules r hr).1
  have hle := h.tiles.cost_le (by decide) fun r hr => (cost_of_mem_rules r hr).2
  unfold Tree.Small at ht
  rw [h.toInt_cost hpos (by omega)]
  exact ⟨rfl, hpos, hle⟩

theorem toInt_cost_ofChain (ht : t.Small) (ha : Covers x86 t c a) (hrule : rule ∈ x86.rules) :
    (a.cost + rule.cost).toInt = a.cost.toInt + rule.cost.toInt := by
  have hrule := cost_of_mem_rules rule hrule
  obtain ⟨-, ha⟩ := cost_of_covers ht ha
  unfold Tree.Small at ht
  exact toInt_add_of_nonneg ha.1 hrule.1 (by omega)

theorem toInt_cost_ofRule (ht : (Tree.node op type t t').Small) (ha : Covers x86 t c a) (hb : Covers x86 t' c' b)
    (hrule : rule ∈ x86.rules) :
    (rule.cost + a.cost + b.cost).toInt = rule.cost.toInt + a.cost.toInt + b.cost.toInt := by
  have hrule := cost_of_mem_rules rule hrule
  obtain ⟨-, ha⟩ := cost_of_covers ht.of_node.1 ha
  obtain ⟨-, hb⟩ := cost_of_covers ht.of_node.2 hb
  simp only [Tree.Small, Tree.size] at ht
  have hsum := toInt_add_of_nonneg hrule.1 ha.1 (by omega)
  rw [toInt_add_of_nonneg (by omega) hb.1 (by omega), hsum]

end Choices

end Codegen
