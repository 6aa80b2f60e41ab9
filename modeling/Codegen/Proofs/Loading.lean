/-
What it costs to have a value in a register.

A value starts out in a class of its operand, or in the class of the register that an operation leaves
it in; a leaf rule may follow.  So the cheapest way to have it in an integer register is known once the
leaf rules are: `loadCost?` is their cost, and `within_reg` puts the two together.
-/
import Codegen.Proofs.Inspection

namespace Codegen

open RuleSet Table Machine

/-! ### Leaf rules -/

theorem OpClass.loadCost?_self (s : Signedness) (w : IntWidth) :
    (OpClass.reg s w).loadCost? s w = some 0 := by
  simp [loadCost?]

namespace Table

/-- What a leaf rule is, by the class it is into. -/
def isLoad (p : Pattern) : Bool :=
  match p.dst with
  | .reg s w => p.src1.loadCost? s w == some p.cost.toInt
  | .freg _ => p.src1.isSse
  | .const s w => p.src1 == .const s w && p.cost == 0
  | .label => p.src1 == .label
  | .flags _ => false
  | _ => true

end Table

namespace RuleSet

variable {c : OpClass} {s : Signedness} {w : IntWidth}

set_option maxRecDepth 8000 in
theorem isLoad_of_isLeaf : ∀ r ∈ x86.rules, r.isLeaf = true → isLoad r.toPattern = true := by
  decide +kernel

theorem isLoad_of_leavesFrom {r : Rule} (h : r ∈ x86.leavesFrom c) : isLoad r.toPattern = true ∧ r.src1 = c := by
  simp only [leavesFrom, List.mem_filter, Bool.and_eq_true, beq_iff_eq] at h
  exact ⟨isLoad_of_isLeaf r h.1 h.2.1, h.2.2⟩

theorem loadCost_of_leavesFrom {r : Rule} (h : r ∈ x86.leavesFrom c) (hdst : r.dst = .reg s w) :
    c.loadCost? s w = some r.cost.toInt := by
  obtain ⟨hload, rfl⟩ := isLoad_of_leavesFrom h
  simpa [isLoad, hdst] using hload

end RuleSet

variable {n : Int64} {t : Ty} {c : OpClass}

theorem OpClass.exists_of_mem_ofConstant (h : c ∈ ofConstant n t) : ∃ s w, c = .const s w := by
  simp only [ofConstant, List.mem_append, List.mem_map] at h
  rcases h with ⟨w, -, rfl⟩ | ⟨w, -, rfl⟩
  · exact ⟨.signed, w, rfl⟩
  · exact ⟨.unsigned, w, rfl⟩

/-! ### Where a value starts out -/

namespace Tree

open Choices

/-- The classes a value has before a leaf rule, with what it cost to get there. -/
def Origin : Tree → OpClass → Int64 → Prop
  | .absent, _, _ => False
  | .leaf o, c, k => c ∈ OpClass.ofOperand o ∧ k = 0
  | .node op type l r, c, k =>
    c.isRegister = true ∧ ∃ a, (c, a) ∈ base x86 op type l r ∧ a.cost = k

variable {t l : Tree} {s : Signedness} {w : IntWidth} {k : Int} {e : OpClass × Choice} {p : Precision} {op : Opcode}

/-- A choice for a tree is one by the rules of its operation, or a leaf rule from where it starts. -/
theorem mem_ofTree_cases (h : e ∈ ofTree x86 t) :
    (∃ op type l r, t = .node op type l r ∧ e ∈ base x86 op type l r) ∨
      ∃ c k, t.Origin c k ∧ ∃ r ∈ x86.leavesFrom c, e.1 = r.dst ∧ e.2.cost = k + r.cost := by
  cases t with
  | absent => exact nomatch h
  | leaf o =>
    obtain ⟨c, hc, r, hr, rfl⟩ := exists_of_mem_ofOperand h
    exact .inr ⟨c, 0, ⟨hc, rfl⟩, r, hr, rfl, (Int64.zero_add _).symm⟩
  | node op type l r =>
    rcases mem_ofTree_node h with h | ⟨b, hb, hreg, rule, hrule, -, rfl⟩
    · exact .inl ⟨op, type, l, r, rfl, h⟩
    · exact .inr ⟨b.1, b.2.cost, ⟨hreg, b.2, hb, rfl⟩, rule, hrule, rfl, rfl⟩

/-- From where a value starts, the cost of a leaf rule is added. -/
theorem Origin.toInt_add {r : Rule} {k : Int64} (h : t.Origin c k) (ht : t.Small) (hr : r ∈ x86.leavesFrom c) :
    (k + r.cost).toInt = k.toInt + r.cost.toInt := by
  cases t with
  | absent => exact h.elim
  | leaf o =>
    obtain ⟨-, rfl⟩ := h
    simp
  | node op type left right =>
    obtain ⟨-, a, hbase, rfl⟩ := h
    obtain ⟨rule, x, y, heq, hcovers⟩ := covers_of_mem_base covers_of_mem_ofTree covers_of_mem_ofTree hbase
    obtain ⟨-, rfl⟩ := Prod.mk.inj heq
    exact toInt_cost_ofChain ht hcovers (List.mem_filter.mp hr).1

/-- **The cheapest way into an integer register is by a leaf rule from where the value starts.** -/
theorem within_reg (ht : t.Small) : Within (ofTree x86 t) (.reg s w) k ↔
    ∃ c k₀ k₁, t.Origin c k₀ ∧ c.loadCost? s w = some k₁ ∧ k₀.toInt + k₁ ≤ k := by
  constructor
  · rintro ⟨a, hget, hcost⟩
    rcases mem_ofTree_cases (mem_of_get? hget) with ⟨op, type, l, r, rfl, hbase⟩ | ⟨c, k₀, ho, r, hr, hdst, hsum⟩
    · exact ⟨_, a.cost, 0, ⟨rfl, a, hbase, rfl⟩, OpClass.loadCost?_self s w, by omega⟩
    · refine ⟨c, k₀, r.cost.toInt, ho, loadCost_of_leavesFrom hr hdst.symm, ?_⟩
      rw [← ho.toInt_add ht hr, ← hsum]
      exact hcost
  · rintro ⟨c, k₀, k₁, ho, hload, hcost⟩
    obtain ⟨r, hr, hdst, rfl⟩ := c.loads s w k₁ hload
    have hsrc := (isLoad_of_leavesFrom hr).2
    cases t with
    | absent => exact ho.elim
    | leaf o =>
      obtain ⟨hc, rfl⟩ := ho
      rw [← hdst]
      exact (within_ofOperand hc hr).mono (by simpa using hcost)
    | node op type l r' =>
      have hsum := ho.toInt_add ht hr
      obtain ⟨hreg, a, hbase, rfl⟩ := ho
      by_cases hself : c = .reg s w
      · subst hself
        rw [OpClass.loadCost?_self] at hload
        have hzero := Option.some.inj hload
        have hwithin : Within (base x86 op type l r') (.reg s w) a.cost.toInt :=
          ⟨a, get?_of_mem (nodup_ofRules ..) hbase, Int.le_refl _⟩
        exact hwithin.ofTree.mono (by omega)
      · have hchain := has_chain hbase hreg hr (by rw [hdst, hsrc]; exact fun h => hself h.symm)
        rw [hdst] at hchain
        exact hchain.within.mono (by rw [ofChain, hsum]; exact hcost)

/-- The class of a choice by the rules of an operation is one of a register, or a condition. -/
theorem isRegister_of_mem_base {r : Tree} {type : Ty} (h : e ∈ base x86 op type l r) (hflags : e.1.isFlags = false) :
    e.1 ∈ OpClass.ofRegister type ∧ e.1.isRegister = true := by
  obtain ⟨rule, x, y, hcompatible, rfl, -⟩ := best_of_mem_ofRules h
  have hmem : rule.dst ∈ OpClass.ofRegister type := by
    simp only at hflags
    simpa [OpClass.compatible, hflags] using hcompatible
  exact ⟨hmem, Selection.isRegister_of_mem_ofRegister hmem⟩

theorem exists_origin (h : e ∈ ofTree x86 t) (hflags : e.1.isFlags = false) :
    ∃ c k, t.Origin c k ∧ (e.1 = c ∧ e.2.cost = k ∧ c.isRegister = true ∨
      ∃ r ∈ x86.leavesFrom c, e.1 = r.dst ∧ e.2.cost = k + r.cost) := by
  rcases mem_ofTree_cases h with ⟨op, type, l, r, rfl, hbase⟩ | ⟨c, k, ho, hr⟩
  · have hreg := (isRegister_of_mem_base hbase hflags).2
    exact ⟨e.1, e.2.cost, ⟨hreg, e.2, hbase, rfl⟩, .inl ⟨rfl, rfl, hreg⟩⟩
  · exact ⟨c, k, ho, .inr hr⟩

/-- Only constants are immediates. -/
theorem within_const : Within (ofTree x86 t) (.const .signed w) k ↔
    ∃ o, t = .leaf o ∧ .const .signed w ∈ OpClass.ofOperand o ∧ 0 ≤ k := by
  constructor
  · rintro ⟨a, hget, hcost⟩
    obtain ⟨c, k₀, ho, ⟨rfl, -, hreg⟩ | ⟨r, hr, hdst, hsum⟩⟩ := exists_origin (mem_of_get? hget) rfl
    · exact nomatch hreg
    · obtain ⟨hload, rfl⟩ := isLoad_of_leavesFrom hr
      simp only [isLoad, ← hdst, Bool.and_eq_true, beq_iff_eq] at hload
      rw [hload.1] at ho
      cases t with
      | absent => exact ho.elim
      | leaf o =>
        obtain ⟨hc, rfl⟩ := ho
        rw [hsum, hload.2] at hcost
        exact ⟨o, rfl, hc, hcost⟩
      | node op type l r' => exact nomatch ho.1
  · rintro ⟨o, rfl, hc, hk⟩
    obtain ⟨r, hr, hdst, hcost⟩ := (exists_constant .signed w).1
    rw [← hdst]
    exact (within_ofOperand hc hr).mono (by rw [hcost]; exact hk)

/-- What is in a vector register starts out as a float. -/
theorem exists_origin_of_freg (h : Within (ofTree x86 t) (.freg p) k) :
    ∃ c k₀, t.Origin c k₀ ∧ c.isSse = true := by
  obtain ⟨a, hget, -⟩ := h
  obtain ⟨c, k₀, ho, ⟨rfl, -, hreg⟩ | ⟨r, hr, hdst, hsum⟩⟩ := exists_origin (mem_of_get? hget) rfl
  · exact ⟨_, k₀, ho, rfl⟩
  · obtain ⟨hload, rfl⟩ := isLoad_of_leavesFrom hr
    simp only [isLoad, ← hdst] at hload
    exact ⟨_, k₀, ho, hload⟩

/-! ### Integers -/

/-- The width and the signedness of a value that is an integer somewhere: in a register or in memory, a
constant, or the result of an operation. -/
def integer? : Tree → Option (IntWidth × Signedness)
  | .leaf ⟨.vreg _, .int w s, _⟩ => some (w, s)
  | .leaf ⟨.preg _, .int w s, _⟩ => some (w, s)
  | .leaf ⟨.slot _, .int w s, _⟩ => some (w, s)
  | .leaf ⟨.global _, .int w s, _⟩ => some (w, s)
  | .leaf ⟨.const _, .int w s, _⟩ => some (w, s)
  | .node _ (.int w s) _ _ => some (w, s)
  | _ => none

/-- Is the value in a register already?  The result of an operation is. -/
def inRegister : Tree → Bool
  | .leaf ⟨.vreg _, _, _⟩ => true
  | .leaf ⟨.preg _, _, _⟩ => true
  | .node _ _ _ _ => true
  | _ => false

/-- Where an integer starts out. -/
inductive Starts (t : Tree) (w : IntWidth) (s : Signedness) : Prop
  /-- In a register, or as the result of an operation. -/
  | register (hreg : t.inRegister = true) (h : ∀ c k, t.Origin c k → c = .reg s w)
  | memory (hreg : t.inRegister = false) (h : ∀ c k, t.Origin c k ↔ c = .mem s w ∧ k = 0)
  /-- As a constant, of its own width among others. -/
  | constant (hreg : t.inRegister = false)
      (h : ∀ c k, t.Origin c k → k = 0 ∧ ∃ s' w', c = .const s' w')
      (hown : t.Origin (.const s w) 0) (hsigned : t.Origin (.const .signed w) 0)

theorem starts_of_integer (h : t.integer? = some (w, s)) : t.Starts w s := by
  unfold integer? at h
  split at h
  case h_7 => exact nomatch h
  all_goals obtain ⟨rfl, rfl⟩ := Prod.mk.inj (Option.some.inj h)
  · exact .register rfl fun c k ho => List.mem_singleton.mp ho.1
  · exact .register rfl fun c k ho => List.mem_singleton.mp ho.1
  · exact .memory rfl fun c k => and_congr_left fun _ => List.mem_singleton
  · exact .memory rfl fun c k => and_congr_left fun _ => List.mem_singleton
  · rename_i n w s _
    obtain ⟨hown, hsigned⟩ := OpClass.mem_ofConstant n w s
    refine .constant rfl (fun c k ho => ⟨ho.2, ?_⟩) ⟨hown, rfl⟩ ⟨hsigned, rfl⟩
    have hc : c ∈ OpClass.ofConstant n (.int w s) := ho.1
    exact OpClass.exists_of_mem_ofConstant hc
  · refine .register rfl fun c k ho => ?_
    obtain ⟨hreg, a, hbase, -⟩ := ho
    exact List.mem_singleton.mp (isRegister_of_mem_base hbase (OpClass.isFlags_of_isRegister hreg)).1

/-- An integer has no way into a vector register. -/
theorem not_within_freg (h : t.integer? = some (w, s)) : ¬ Within (ofTree x86 t) (.freg p) k := by
  intro hwithin
  obtain ⟨c, k₀, ho, hsse⟩ := exists_origin_of_freg hwithin
  cases starts_of_integer h with
  | register hreg hall => rw [hall c k₀ ho] at hsse; exact nomatch hsse
  | memory hreg hall => rw [((hall c k₀).mp ho).1] at hsse; exact nomatch hsse
  | constant hreg hall hown hsigned =>
    obtain ⟨-, s', w', rfl⟩ := hall c k₀ ho
    exact nomatch hsse

/-! ### Comparing the ways into a register -/

section

variable {w' : IntWidth} (h : t.integer? = some (w, s)) {s' : Signedness}
include h

/-- What can be read as unsigned can be read as signed at no greater cost, unless it is an unsigned
integer of that width in a register. -/
theorem within_signed (ht : t.Small) (hwithin : Within (ofTree x86 t) (.reg .unsigned w') k)
    (hne : ¬ (s = .unsigned ∧ t.inRegister = true ∧ w = w')) :
    Within (ofTree x86 t) (.reg .signed w') k := by
  rw [within_reg ht] at hwithin ⊢
  obtain ⟨c, k₀, k₁, ho, hload, hcost⟩ := hwithin
  suffices hcheaper : ∃ k₂ ≤ k₁, c.loadCost? .signed w' = some k₂ by
    obtain ⟨k₂, hle, hload'⟩ := hcheaper
    exact ⟨c, k₀, k₂, ho, hload', by omega⟩
  cases starts_of_integer h with
  | register hreg hall =>
    rw [hall c k₀ ho, OpClass.loadCost?] at hload ⊢
    by_cases hw : w = w'
    · rw [if_pos hw] at hload ⊢
      obtain rfl : s = .signed := by
        cases s with
        | signed => rfl
        | unsigned => exact absurd ⟨rfl, hreg, hw⟩ hne
      obtain rfl := Option.some.inj hload
      exact ⟨0, by decide, rfl⟩
    · rw [if_neg hw] at hload ⊢
      exact ⟨k₁, Int.le_refl _, hload⟩
  | memory hreg hall =>
    obtain ⟨rfl, -⟩ := (hall c k₀).mp ho
    exact ⟨k₁, Int.le_refl _, hload⟩
  | constant hreg hall hown hsigned =>
    obtain ⟨-, s', w'', rfl⟩ := hall c k₀ ho
    exact ⟨k₁, Int.le_refl _, hload⟩

/-- What can be read as signed can be read as unsigned at its own width if it is unsigned, at no greater
cost, and at a smaller one if it is in a register. -/
theorem within_unsigned (ht : t.Small) (hs : s = .unsigned) (hwithin : Within (ofTree x86 t) (.reg .signed w') k) :
    Within (ofTree x86 t) (.reg .unsigned w) (if t.inRegister then k - 1 else k) := by
  subst hs
  rw [within_reg ht] at hwithin ⊢
  obtain ⟨c, k₀, k₁, ho, hload, hcost⟩ := hwithin
  cases starts_of_integer h with
  | register hreg hall =>
    obtain rfl := hall c k₀ ho
    refine ⟨_, k₀, 0, ho, OpClass.loadCost?_self _ _, ?_⟩
    have hpos : 1 ≤ k₁ := by
      rw [OpClass.loadCost?] at hload
      split at hload
      · obtain rfl := Option.some.inj hload; decide
      · obtain ⟨-, ⟨⟩⟩ := Option.ite_none_right_eq_some.mp hload; decide
    rw [if_pos hreg]
    omega
  | memory hreg hall =>
    obtain ⟨rfl, rfl⟩ := (hall c k₀).mp ho
    obtain ⟨-, ⟨⟩⟩ := Option.ite_none_right_eq_some.mp hload
    exact ⟨_, 0, costLoad.toInt, ho, by simp [OpClass.loadCost?], by simpa [hreg] using hcost⟩
  | constant hreg hall hown hsigned =>
    obtain ⟨rfl, s', w'', rfl⟩ := hall c k₀ ho
    obtain ⟨-, ⟨⟩⟩ := Option.ite_none_right_eq_some.mp hload
    exact ⟨_, 0, costMove.toInt, hown, by simp [OpClass.loadCost?], by simpa [hreg] using hcost⟩

/-- What is in a register is not read at less than its own width. -/
theorem rank_le_of_within (ht : t.Small) (hreg : t.inRegister = true)
    (hwithin : Within (ofTree x86 t) (.reg s' w') k) : w.rank ≤ w'.rank := by
  rw [within_reg ht] at hwithin
  obtain ⟨c, k₀, k₁, ho, hload, -⟩ := hwithin
  cases starts_of_integer h with
  | register _ hall =>
    rw [hall c k₀ ho, OpClass.loadCost?] at hload
    split at hload
    · rename_i hw
      exact Nat.le_of_eq (congrArg IntWidth.rank hw)
    · obtain ⟨hrank, -⟩ := Option.ite_none_right_eq_some.mp hload
      exact Nat.le_of_lt hrank
  | memory hreg' _ => exact absurd hreg (by simp [hreg'])
  | constant hreg' _ _ _ => exact absurd hreg (by simp [hreg'])

/-- An immediate is a constant, and one of its own width too. -/
theorem within_immediate (hwithin : Within (ofTree x86 t) (immediate w') k) :
    t.inRegister = false ∧ (w.rank ≤ w'.rank → Within (ofTree x86 t) (immediate w) k) := by
  have himm : ∀ w : IntWidth, immediate w = .const .signed (if w = .w64 then .w32 else w) := fun _ => rfl
  rw [himm] at hwithin
  obtain ⟨o, rfl, hc, hk⟩ := within_const.mp hwithin
  have hstart : (Tree.leaf o).Origin (.const .signed (if w' = .w64 then .w32 else w')) 0 := ⟨hc, rfl⟩
  cases starts_of_integer h with
  | register hreg hall => exact nomatch hall _ _ hstart
  | memory hreg hall => exact nomatch ((hall _ _).mp hstart).1
  | constant hreg hall hown hsigned =>
    refine ⟨hreg, fun hrank => ?_⟩
    rw [himm, within_const]
    refine ⟨o, rfl, ?_, hk⟩
    by_cases hw : w = .w64
    · obtain rfl : w' = .w64 := by subst hw; cases w' <;> simp_all [IntWidth.rank]
      rw [if_pos hw]
      exact hc
    · rw [if_neg hw]
      exact hsigned.1

end

end Tree

end Codegen
