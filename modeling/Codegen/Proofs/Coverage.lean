/-
Every tree of integers has a cover.

What a rule wants is a register of one width and one signedness.  So the claim that carries
the induction says more than that a tree has a cover: its value can be had in a register of
either signedness and of every width from its own up.  A leaf gets there by one leaf rule.  An
operation is computed at its own type first, and one leaf rule after it widens or reinterprets
the result; that one is enough, since there is a rule from every width to every wider one.

Only the range of constants needs arithmetic.  A number in the range of its type fits, signed, in
every wider register, even if the type is unsigned and the number does not fit signed in its own.
-/
import Codegen.Proofs.Root
import Codegen.Proofs.Inspection
import Mathlib.Algebra.Ring.Int.Defs
import Mathlib.Algebra.GroupWithZero.Nat

namespace Codegen

open Table RuleSet Machine

/-! ### Integers -/

/-- A value of an integer type; a constant is in the range of its type. -/
inductive Operand.IsInteger (w : IntWidth) (s : Signedness) : Operand → Prop
  | vreg (v : VReg) (offset : Int64) : IsInteger w s ⟨.vreg v, .int w s, offset⟩
  | slot (index : Int) (offset : Int64) : IsInteger w s ⟨.slot index, .int w s, offset⟩
  | global (symbol : String) (offset : Int64) : IsInteger w s ⟨.global symbol, .int w s, offset⟩
  | const (n offset : Int64) (hrange : truncate n (.int w s) = n) :
      IsInteger w s ⟨.const n, .int w s, offset⟩

namespace IrOp

/-- Does an operation take a value of width `a` to one of width `w`? -/
def takesOne : IrOp → IntWidth → IntWidth → Bool
  | .move, _, _ => true
  | .lnot, _, _ => true
  | .bnot, w, a => a.rank ≤ w.rank
  | _, _, _ => false

/-- Is this a comparison, or a logical operation on two truth values? -/
def isRelation : IrOp → Bool
  | .eq | .ne | .lt | .gt | .le | .ge | .land | .lor => true
  | _ => false

/-- Does an operation take values of widths `a` and `b` to one of width `w`?  Arithmetic does not
narrow; a shift does not care how wide its count is, nor a relation how wide anything is. -/
def takesTwo (op : IrOp) (w a b : IntWidth) : Bool :=
  if op.isBinaryWord || op.isDivision then a.rank ≤ w.rank && b.rank ≤ w.rank
  else if op.isShift then a.rank ≤ w.rank
  else op.isRelation

end IrOp

/-- A tree whose value is an integer of a type, and whose parts are integers too. -/
inductive Tree.IsInteger : IntWidth → Signedness → Tree → Prop
  | leaf {w : IntWidth} {s : Signedness} {o : Operand} (ho : o.IsInteger w s) : IsInteger w s (.leaf o)
  | unary {op : IrOp} {w a : IntWidth} {s sa : Signedness} {l : Tree}
      (hop : op.takesOne w a = true) (hl : IsInteger a sa l) :
      IsInteger w s (.node (.ir op) (.int w s) l .absent)
  | binary {op : IrOp} {w a b : IntWidth} {s sa sb : Signedness} {l r : Tree}
      (hop : op.takesTwo w a b = true) (hl : IsInteger a sa l) (hr : IsInteger b sb r) :
      IsInteger w s (.node (.ir op) (.int w s) l r)

variable {o : Operand} {s : Signedness} {w w' : IntWidth} {n : Int64}

theorem Operand.IsInteger.type_eq (h : o.IsInteger w s) : o.type = .int w s := by
  cases h <;> rfl

variable {t l r : Tree} {a b : Choice} {type : Ty} {d : Operand} {src1 src2 : OpClass} {rule : Rule}
  {dst : Option Operand}

theorem Tree.IsInteger.type_eq (h : t.IsInteger w s) : t.type = .int w s := by
  cases h with
  | leaf ho => exact ho.type_eq
  | unary => rfl
  | binary => rfl

/-! ### Constants in range -/

/-- The range of a type, if it does not take the whole word. -/
theorem toInt_truncate_bounds (n : Int64) (hw : w ≠ .w64) (s : Signedness) :
    -2 ^ (w.bits - 1) ≤ (truncate n (.int w s)).toInt ∧ (truncate n (.int w s)).toInt < 2 ^ w.bits := by
  rw [← Int64.toInt_toBitVec, truncate_eq_number]
  generalize w.low n = x
  cases s with
  | signed =>
    have hpow : (2 : Int) ^ (w.bits - 1) ≤ 2 ^ w.bits := by cases w <;> decide
    rw [toInt_number_signed]
    exact ⟨BitVec.le_toInt x, Int.lt_of_lt_of_le BitVec.toInt_lt hpow⟩
  | unsigned =>
    have hpow : (0 : Int) ≤ 2 ^ (w.bits - 1) := by cases w <;> decide
    have hlt := x.isLt
    have hsmall : 2 * (Signedness.unsigned.number x).toBitVec.toNat < 2 ^ 64 := by
      rw [toNat_number_unsigned]
      cases w with
      | w64 => exact absurd rfl hw
      | _ => simp only [IntWidth.bits] at hlt ⊢; omega
    rw [BitVec.toInt_eq_toNat_of_lt hsmall, toNat_number_unsigned]
    exact ⟨by omega, by exact_mod_cast hlt⟩

theorem fitsSigned_of_toInt (h : -2 ^ (w.bits - 1) ≤ n.toInt ∧ n.toInt < 2 ^ (w.bits - 1)) :
    OpClass.fitsSigned n w = true := by
  cases w with
  | w64 => rfl
  | _ =>
    simp only [OpClass.fitsSigned, Bool.and_eq_true, decide_eq_true_eq, Int64.le_iff_toInt_le,
      Int64.lt_iff_toInt_lt]
    exact h

/-- A number in the range of its type fits in every wider register. -/
theorem fitsSigned_of_truncate (h : truncate n (.int w s) = n) (hlt : w.rank < w'.rank) :
    OpClass.fitsSigned n w' = true := by
  have hw : w ≠ .w64 := by rintro rfl; cases w' <;> simp [IntWidth.rank] at hlt
  have hbounds := toInt_truncate_bounds n hw s
  rw [h] at hbounds
  apply fitsSigned_of_toInt
  cases w <;> cases w' <;> simp only [IntWidth.rank] at hlt <;>
    simp only [IntWidth.bits] at hbounds ⊢ <;> omega

theorem IntWidth.eq_or_rank_lt (h : w.rank ≤ w'.rank) : w = w' ∨ w.rank < w'.rank := by
  cases w <;> cases w' <;> simp_all [IntWidth.rank]

theorem IntWidth.exists_rank_le (a b : IntWidth) : ∃ m : IntWidth, a.rank ≤ m.rank ∧ b.rank ≤ m.rank := by
  rcases Nat.le_total a.rank b.rank with hle | hle
  · exact ⟨b, hle, Nat.le_refl _⟩
  · exact ⟨a, Nat.le_refl _, hle⟩

/-- A number in the range of its type is a signed constant of its own width and every wider one. -/
theorem mem_ofConstant_of_truncate (h : truncate n (.int w s) = n) (hle : w.rank ≤ w'.rank) :
    .const .signed w' ∈ OpClass.ofConstant n (.int w s) := by
  rcases IntWidth.eq_or_rank_lt hle with rfl | hlt
  · exact (OpClass.mem_ofConstant n w s).2
  · simp only [OpClass.ofConstant, OpClass.constantShape, List.mem_append, List.mem_map,
      List.mem_filter]
    exact .inl ⟨w', ⟨mem_widths w', by simp [fitsSigned_of_truncate h hlt]⟩, rfl⟩

/-! ### Rules that are there -/

namespace Machine

variable {a b : IntWidth} {op : IrOp} {c dst : OpClass}

theorem exists_widening (hle : w.rank ≤ w'.rank) (s' : Signedness) (hc : c = .reg s w ∨ c = .mem s w) :
    ∃ r ∈ x86.leavesFrom c, r.src1 = c ∧ r.dst = .reg s' w' := by
  obtain ⟨k, hk⟩ : ∃ k, c.loadCost? s' w' = some k := by
    rcases hc with rfl | rfl
    · rcases IntWidth.eq_or_rank_lt hle with rfl | hlt
      · simp [OpClass.loadCost?]
      · by_cases hw : w = w' <;> simp [OpClass.loadCost?, hw, hlt]
    · simp [OpClass.loadCost?, hle]
  obtain ⟨r, hr, hdst, -⟩ := c.loads s' w' k hk
  exact ⟨r, hr, (isRightLeaf_of_leavesFrom hr).2, hdst⟩

/-- A value can be moved to a register of any integer type, and to memory. -/
theorem exists_move_between (s : Signedness) (hdst : dst = .reg s w ∨ dst = .mem s w) :
    ∃ w' s', a.rank ≤ w'.rank ∧ ∃ r ∈ x86.forOp (.ir .move),
      r.dst = dst ∧ r.src1 = .reg s' w' ∧ r.src2 = .none := by
  -- a wider value is cut off
  obtain ⟨w', ha, hw⟩ := IntWidth.exists_rank_le a w
  obtain ⟨hreg, hmem⟩ := exists_move s w w' hw
  rcases hdst with rfl | rfl
  · exact ⟨w', s, ha, hreg⟩
  · exact ⟨w', s, ha, hmem⟩

theorem exists_lnot : ∀ s w w', ∃ r ∈ x86.forOp (.ir .lnot),
    r.dst = .reg s w ∧ r.src1 = .reg .signed w' ∧ r.src2 = .none := by
  decide +kernel

theorem exists_takesOne (h : op.takesOne w a = true) (s : Signedness) :
    ∃ w' s', a.rank ≤ w'.rank ∧ ∃ r ∈ x86.forOp (.ir op),
      r.dst = .reg s w ∧ r.src1 = .reg s' w' ∧ r.src2 = .none := by
  cases op <;> simp only [IrOp.takesOne, Bool.false_eq_true] at h
  case move => exact exists_move_between s (.inl rfl)
  case lnot => exact ⟨a, .signed, Nat.le_refl _, exists_lnot s w a⟩
  case bnot => exact ⟨w, s, by simpa using h, exists_complement s w⟩

theorem exists_shift (hop : op.isShift = true) : ∀ s w w', ∃ r ∈ x86.forOp (.ir op),
    r.dst = .reg s w ∧ r.src1 = .reg s w ∧ r.src2 = .reg .signed w' := by
  revert hop
  cases op <;> decide +kernel

/-- Relations of signed integers, with the truth value in a register of any type. -/
theorem exists_relation (hop : op.isRelation = true) : ∀ s w m, ∃ r ∈ x86.forOp (.ir op),
    r.dst = .reg s w ∧ r.src1 = .reg .signed m ∧ r.src2 = .reg .signed m := by
  revert hop
  cases op <;> decide +kernel

/-- Every operation on two integers can be done in registers. -/
theorem exists_takesTwo (h : op.takesTwo w a b = true) (s : Signedness) :
    ∃ w₁ s₁ w₂ s₂, a.rank ≤ w₁.rank ∧ b.rank ≤ w₂.rank ∧ ∃ r ∈ x86.forOp (.ir op),
      r.dst = .reg s w ∧ r.src1 = .reg s₁ w₁ ∧ r.src2 = .reg s₂ w₂ := by
  unfold IrOp.takesTwo at h
  split at h
  · rename_i hop
    simp only [Bool.and_eq_true, decide_eq_true_eq] at h
    refine ⟨w, s, w, s, h.1, h.2, ?_⟩
    rcases Bool.or_eq_true_iff.mp hop with hop | hop
    · exact exists_binary hop s w
    · obtain ⟨r, hr, hsrc1, hsrc2, hdst, -⟩ := Rule.exists_divides hop s s w
      exact ⟨r, hr, hdst, hsrc1, hsrc2⟩
  · split at h
    · rename_i hop
      exact ⟨w, s, b, .signed, by simpa using h, Nat.le_refl _, exists_shift hop s w b⟩
    · -- A relation is tested at the greater of the two widths.
      obtain ⟨m, ha, hb⟩ := IntWidth.exists_rank_le a b
      exact ⟨m, .signed, m, .signed, ha, hb, exists_relation h s w m⟩

end Machine

/-! ### Trees below the root -/

open Choices

/-- The value of a tree can be had in registers of either signedness and of a width and all wider
ones. -/
def Tree.LoadsFrom (t : Tree) (w : IntWidth) : Prop :=
  ∀ (w' : IntWidth) (s' : Signedness), w.rank ≤ w'.rank →
    ∃ a, child t (ofTree x86 t) (.reg s' w') = some a

theorem loadsFrom_leaf (h : o.IsInteger w s) : Tree.LoadsFrom (.leaf o) w := by
  intro w' s' hle
  obtain ⟨c, hc, r, hr, hdst⟩ : ∃ c ∈ OpClass.ofOperand o, ∃ r ∈ x86.leavesFrom c,
      r.dst = .reg s' w' := by
    cases h with
    | vreg v offset =>
      obtain ⟨r, hr, -, hdst⟩ := exists_widening hle s' (.inl rfl)
      exact ⟨.reg s w, List.mem_singleton.mpr rfl, r, hr, hdst⟩
    | slot index offset =>
      obtain ⟨r, hr, -, hdst⟩ := exists_widening hle s' (.inr rfl)
      exact ⟨.mem s w, List.mem_singleton.mpr rfl, r, hr, hdst⟩
    | global symbol offset =>
      obtain ⟨r, hr, -, hdst⟩ := exists_widening hle s' (.inr rfl)
      exact ⟨.mem s w, List.mem_singleton.mpr rfl, r, hr, hdst⟩
    | const n offset hrange =>
      obtain ⟨r, hr, hdst, -⟩ := (OpClass.const .signed w').loads s' w' costMove.toInt (by simp [OpClass.loadCost?])
      exact ⟨.const .signed w', mem_ofConstant_of_truncate hrange hle, r, hr, hdst⟩
  have hwithin : Within (ofTree x86 (.leaf o)) (.reg s' w') r.cost.toInt := hdst ▸ within_ofOperand hc hr
  obtain ⟨a, ha, -⟩ := hwithin.exists_child (t := .leaf o) rfl (by simp)
  exact ⟨a, ha⟩

/-- An operation with a rule at its own type is followed by one leaf rule at most. -/
theorem loadsFrom_node {op : Opcode} (hrule : rule ∈ x86.forOp op) (hdst : rule.dst = .reg s w)
    (ha : child l (ofTree x86 l) rule.src1 = some a) (hb : child r (ofTree x86 r) rule.src2 = some b) :
    Tree.LoadsFrom (.node op (.int w s) l r) w := by
  intro w' s' hle
  have hbase : Has (base x86 op (.int w s) l r) (.reg s w) (ofRule (.int w s) rule a b) :=
    hdst ▸ has_ofRules hrule (by rw [hdst]; exact compatible_reg w s) ha hb
  obtain ⟨k, hk⟩ : ∃ k, Within (ofTree x86 (.node op (.int w s) l r)) (.reg s' w') k := by
    by_cases hsame : OpClass.reg s' w' = .reg s w
    · rw [hsame]
      exact ⟨_, hbase.ofTree.within⟩
    · obtain ⟨best, hbest, -⟩ := hbase
      obtain ⟨chain, hchain, hsrc, htarget⟩ := exists_widening hle s' (.inl rfl)
      have hne : chain.dst ≠ chain.src1 := by rwa [htarget, hsrc]
      exact ⟨_, htarget ▸ (has_chain (mem_of_get? hbest) rfl hchain hne).within⟩
  obtain ⟨c, hc, -⟩ := hk.exists_child (t := .node op (.int w s) l r) rfl nofun
  exact ⟨c, hc⟩

/-- **Every tree of integers reaches all registers from its own width up.** -/
theorem Tree.IsInteger.loadsFrom (h : t.IsInteger w s) : t.LoadsFrom w := by
  induction h with
  | leaf ho => exact loadsFrom_leaf ho
  | @unary op w a s sa l hop hl ih =>
    obtain ⟨w', s', hle, rule, hrule, hdst, hsrc1, hsrc2⟩ := exists_takesOne hop s
    obtain ⟨c, hc⟩ := ih w' s' hle
    exact loadsFrom_node hrule hdst (hsrc1 ▸ hc) (hsrc2 ▸ child_absent _)
  | @binary op w a b s sa sb l r hop hl hr ihl ihr =>
    obtain ⟨w₁, s₁, w₂, s₂, ha, hb, rule, hrule, hdst, hsrc1, hsrc2⟩ := exists_takesTwo hop s
    obtain ⟨c, hc⟩ := ihl w₁ s₁ ha
    obtain ⟨c', hc'⟩ := ihr w₂ s₂ hb
    exact loadsFrom_node hrule hdst (hsrc1 ▸ hc) (hsrc2 ▸ hc')

/-! ### Roots -/

/-- A jump target. -/
def Operand.isLabel (o : Operand) : Bool :=
  match o.value with
  | .label _ => true
  | _ => false

/-- The trees of integer code with their destinations: only moves write memory. -/
inductive Tree.Selectable : Option Operand → Tree → Prop
  | value {d : Operand} {w : IntWidth} {s : Signedness} {t : Tree} (hd : d.IsInteger w s)
      (hplace : d.isConst = false) (ht : t.IsInteger w s) (hnode : t.isNode = true)
      (hmove : d.isMemory = true → t.isMove = true) : Selectable (some d) t
  | jump (type : Ty) {o : Operand} (ho : o.isLabel = true) :
      Selectable none (.node (.ir .jmp) type (.leaf o) .absent)
  | branch {op : IrOp} (type : Ty) {w : IntWidth} {s : Signedness} {l : Tree} {o : Operand}
      (hop : op.isBranch = true) (hl : l.IsInteger w s) (ho : o.isLabel = true) :
      Selectable none (.node (.ir op) type l (.leaf o))
  | ret (type : Ty) : Selectable none (.node (.ir .ret) type .absent .absent)
  | retWith (type : Ty) {w : IntWidth} {s : Signedness} {l : Tree} (hl : l.IsInteger w s) :
      Selectable none (.node (.ir .ret) type l .absent)

theorem exists_cheapest_root {op : Opcode} (hrule : rule ∈ x86.forOp op) (hwrites : writes dst rule.dst = true)
    (ha : child l (ofTree x86 l) rule.src1 = some a) (hb : child r (ofTree x86 r) rule.src2 = some b) :
    ∃ c best, (ofRoot x86 dst (.node op type l r)).cheapest = some (c, best) := by
  have hwithin : Within (ofRoot x86 dst (.node op type l r)) rule.dst
      (rule.cost + a.cost + b.cost).toInt := within_ofRules hrule hwrites ha hb
  obtain ⟨⟨c, best⟩, hbest, -⟩ := exists_cheapest hwithin
  exact ⟨c, best, hbest⟩

theorem exists_label (h : o.isLabel = true) :
    ∃ a, child (.leaf o) (ofTree x86 (.leaf o)) .label = some a := by
  have hclass : .label ∈ OpClass.ofOperand o := by
    unfold Operand.isLabel at h
    unfold OpClass.ofOperand
    split at h
    · rename_i n hn
      simp [hn]
    · cases h
  have hrule : ∃ r ∈ x86.leavesFrom .label, r.dst = .label := by decide +kernel
  obtain ⟨r, hr, hdst⟩ := hrule
  have hwithin : Within (ofTree x86 (.leaf o)) .label r.cost.toInt := hdst ▸ within_ofOperand hclass hr
  obtain ⟨a, ha, -⟩ := hwithin.exists_child (t := .leaf o) rfl (by simp)
  exact ⟨a, ha⟩

/-- Where a value goes. -/
theorem writes_place (hd : d.IsInteger w s) (hplace : d.isConst = false) :
    writes (some d) (if d.isMemory then .mem s w else .reg s w) = true := by
  cases hd with
  | const n offset hrange => exact nomatch hplace
  | vreg => simp [writes, OpClass.holds, OpClass.ofOperand, OpClass.ofRegister, Operand.isMemory]
  | slot => simp [writes, OpClass.holds, OpClass.ofOperand, OpClass.ofMemory, Operand.isMemory]
  | global => simp [writes, OpClass.holds, OpClass.ofOperand, OpClass.ofMemory, Operand.isMemory]

/-- The jumps and returns of integer code. -/
def Controls (op : IrOp) (src1 src2 : OpClass) : Prop :=
  ∃ r ∈ x86.forOp (.ir op), r.dst = .none ∧ r.src1 = src1 ∧ r.src2 = src2

instance {op : IrOp} : Decidable (Controls op src1 src2) := by
  unfold Controls
  infer_instance

theorem controls : Controls .jmp .label .none ∧ Controls .ret .none .none ∧
    ∀ s w, Controls .jz (.reg s w) .label ∧ Controls .jnz (.reg s w) .label ∧
      Controls .ret (.reg s w) .none := by
  decide +kernel

/-- **The roots of integer code have covers.** -/
theorem Tree.Selectable.exists_cheapest (h : Selectable dst t) :
    ∃ c best, (ofRoot x86 dst t).cheapest = some (c, best) := by
  cases h with
  | @value d w s _ hd hplace ht hnode hmove =>
    have hwrites := writes_place hd hplace
    cases ht with
    | leaf ho => cases hnode
    | @unary op _ a _ sa l hop hl =>
      obtain ⟨w', s', hle, rule, hrule, hdst, hsrc1, hsrc2⟩ : ∃ w' s', a.rank ≤ w'.rank ∧
          ∃ r ∈ x86.forOp (.ir op), r.dst = (if d.isMemory then .mem s w else .reg s w) ∧
            r.src1 = .reg s' w' ∧ r.src2 = .none := by
        cases hmem : d.isMemory with
        | false => exact exists_takesOne hop s
        | true =>
          obtain rfl : op = .move := by simpa [Tree.isMove] using hmove hmem
          exact exists_move_between s (.inr rfl)
      obtain ⟨c, hc⟩ := hl.loadsFrom w' s' hle
      exact exists_cheapest_root hrule (hdst ▸ hwrites) (hsrc1 ▸ hc) (hsrc2 ▸ child_absent _)
    | @binary op _ a b _ sa sb l r hop hl hr =>
      -- An operation on two operands is no move, so that its value goes to a register.
      have hmem : d.isMemory = false := by
        cases hmem : d.isMemory with
        | false => rfl
        | true =>
          obtain rfl : op = .move := by simpa [Tree.isMove] using hmove hmem
          cases hop
      rw [hmem] at hwrites
      obtain ⟨w₁, s₁, w₂, s₂, ha, hb, rule, hrule, hdst, hsrc1, hsrc2⟩ :=
        exists_takesTwo hop s
      obtain ⟨c, hc⟩ := hl.loadsFrom w₁ s₁ ha
      obtain ⟨c', hc'⟩ := hr.loadsFrom w₂ s₂ hb
      exact exists_cheapest_root hrule (hdst ▸ hwrites) (hsrc1 ▸ hc) (hsrc2 ▸ hc')
  | jump type ho =>
    obtain ⟨rule, hrule, hdst, hsrc1, hsrc2⟩ := controls.1
    obtain ⟨c, hc⟩ := exists_label ho
    exact exists_cheapest_root hrule (by rw [hdst]; rfl) (hsrc1 ▸ hc) (hsrc2 ▸ child_absent _)
  | @branch op type w s l o hop hl ho =>
    obtain ⟨rule, hrule, hdst, hsrc1, hsrc2⟩ : Controls op (.reg s w) .label := by
      cases op with
      | jz => exact (controls.2.2 s w).1
      | jnz => exact (controls.2.2 s w).2.1
      | _ => cases hop
    obtain ⟨c, hc⟩ := hl.loadsFrom w s (Nat.le_refl _)
    obtain ⟨c', hc'⟩ := exists_label ho
    exact exists_cheapest_root hrule (by rw [hdst]; rfl) (hsrc1 ▸ hc) (hsrc2 ▸ hc')
  | ret type =>
    obtain ⟨rule, hrule, hdst, hsrc1, hsrc2⟩ := controls.2.1
    exact exists_cheapest_root hrule (by rw [hdst]; rfl) (hsrc1 ▸ child_absent _)
      (hsrc2 ▸ child_absent _)
  | @retWith type w s l hl =>
    obtain ⟨rule, hrule, hdst, hsrc1, hsrc2⟩ := (controls.2.2 s w).2.2
    obtain ⟨c, hc⟩ := hl.loadsFrom w s (Nat.le_refl _)
    exact exists_cheapest_root hrule (by rw [hdst]; rfl) (hsrc1 ▸ hc) (hsrc2 ▸ child_absent _)

end Codegen
