/-
The cheapest cover of a tree.

A table of choices keeps one choice for each class, so most covers of a tree are never looked at.
What is shown here is that none of them is missed: `Tiles` and `TilesRoot` say which covers a tree
has, without a word about tables, and every one of them costs at least as much as the choice that
the table has for its class.

The argument is by the tree.  A rule that is applied to worse covers of its operands can be applied
to the best ones instead, for no more; and a leaf rule that only restates a class can be left out,
which is where a negative cost would do harm.  So would a cost that does not fit a word: it comes out
negative, and is preferred.
-/
import Codegen.Proofs.Cover
import Codegen.Table.Basic

namespace Codegen

/-- Covers of the operands of a rule. -/
structure Operands (set : RuleSet) (l r : Tree) (rule : Rule) (a b : Cover) : Prop where
  supplies_left : l.Supplies rule.src1
  supplies_right : r.Supplies rule.src2
  left : Tiles set l rule.src1 a
  right : Tiles set r rule.src2 b

/-- A rule at the root of a tree, with covers of its operands: its result goes to the destination. -/
structure TilesRoot (set : RuleSet) (dst : Option Operand) (op : Opcode) (l r : Tree) (rule : Rule)
    (a b : Cover) : Prop extends Operands set l r rule a b where
  mem : rule ∈ set.forOp op
  writes : Choices.writes dst rule.dst = true

namespace Choices

variable {set : RuleSet}

variable {t l r : Tree} {c : OpClass} {op : Opcode} {rule : Rule} {type : Ty} {cs : Choices} {dst : Option Operand}
  {e : OpClass × Choice} {a b : Cover}

/-- No rule has a negative cost, and no cover of the tree into the class costs more than a word can hold. -/
structure Affords (set : RuleSet) (t : Tree) (c : OpClass) : Prop where
  nonneg : ∀ rule ∈ set.rules, 0 ≤ rule.cost.toInt
  lt : ∀ cover, Tiles set t c cover → cover.cost < 2 ^ 63

theorem Affords.toInt_cost {a : Choice} (h : Affords set t c) (hcovers : Covers set t c a) :
    a.cost.toInt = a.cover.cost :=
  hcovers.toInt_cost (hcovers.tiles.cost_nonneg h.nonneg) (h.lt _ hcovers.tiles)

/-- Before the leaf rule a cover costs no more than with it. -/
theorem Affords.toInt_cost_ofChain {first : Rule} {a b : Choice} (h : Affords set (.node op type l r) rule.dst)
    (hcovers : Covers set (.node op type l r) first.dst (ofRule type first a b))
    (hreg : first.dst.isRegister = true) (hrule : rule ∈ set.leavesFrom first.dst) :
    (ofChain rule (ofRule type first a b)).cost.toInt = (ofRule type first a b).cost.toInt + rule.cost.toInt := by
  have hchain := covers_ofChain hcovers hreg hrule
  have hpos := h.nonneg rule (List.mem_filter.mp hrule).1
  have hfits := h.lt _ hchain.tiles
  rw [h.toInt_cost hchain]
  simp only [ofChain, Cover.cost] at hfits ⊢
  rw [hcovers.toInt_cost (hcovers.tiles.cost_nonneg h.nonneg) (by omega)]

/-! ### No cover is missed -/

/-- The table has a choice for the class, and if costs fit, one that costs no more than `k`. -/
def Reaches (set : RuleSet) (t : Tree) (c : OpClass) (k : Int) : Prop :=
  ∃ a, (ofTree set t).get? c = some a ∧ (Affords set t c → a.cost.toInt ≤ k)

theorem Reaches.exists_child (hsupplies : t.Supplies c) (htiles : Tiles set t c a)
    (h : t.isAbsent = false → Reaches set t c a.cost) :
    ∃ x, child t (ofTree set t) c = some x ∧ (Affords set t c → x.cost.toInt ≤ a.cost) := by
  by_cases habsent : t.isAbsent = true
  · cases htiles with
    | absent => exact ⟨⟨0, 0, .absent⟩, child_absent _, fun _ => Int.le_refl 0⟩
    | _ => exact absurd habsent (by simp [Tree.isAbsent])
  · have hwant : c ≠ .none := fun hc => habsent (hsupplies.mpr hc)
    obtain ⟨x, hx, hle⟩ := h (by simpa using habsent)
    exact ⟨x, by simp [child, habsent, hwant, hx], hle⟩

/-- A rule is applied to the choices for its operands too, and if costs fit, these cost no more than other
covers. -/
theorem exists_choices_of_operands (h : Operands set l r rule a b) (hrule : rule ∈ set.rules)
    (ihl : ∀ c cover, Tiles set l c cover → l.isAbsent = false → Reaches set l c cover.cost)
    (ihr : ∀ c cover, Tiles set r c cover → r.isAbsent = false → Reaches set r c cover.cost) (type : Ty) :
    ∃ x y, child l (ofTree set l) rule.src1 = some x ∧ child r (ofTree set r) rule.src2 = some y ∧
      ((∀ rule ∈ set.rules, 0 ≤ rule.cost.toInt) →
        (∀ a' b', Operands set l r rule a' b' → (Cover.node rule type a' b').cost < 2 ^ 63) →
        (ofRule type rule x y).cost.toInt ≤ (Cover.node rule type a b).cost) := by
  obtain ⟨x, hx, hxle⟩ := Reaches.exists_child h.supplies_left h.left (ihl _ _ h.left)
  obtain ⟨y, hy, hyle⟩ := Reaches.exists_child h.supplies_right h.right (ihr _ _ h.right)
  refine ⟨x, y, hx, hy, fun hcost hfits => ?_⟩
  obtain ⟨-, hxcovers⟩ := covers_of_child covers_of_mem_ofTree hx
  obtain ⟨-, hycovers⟩ := covers_of_child covers_of_mem_ofTree hy
  have hpos := hcost rule hrule
  -- a cover of an operand costs no more than a cover of the whole with it
  have hl : Affords set l rule.src1 := ⟨hcost, fun cover hcover => by
    have hfit := hfits cover b { h with left := hcover }
    have hb := h.right.cost_nonneg hcost
    simp only [Cover.cost] at hfit
    omega⟩
  have hr : Affords set r rule.src2 := ⟨hcost, fun cover hcover => by
    have hfit := hfits a cover { h with right := hcover }
    have ha := h.left.cost_nonneg hcost
    simp only [Cover.cost] at hfit
    omega⟩
  have hsum : (ofRule type rule x y).cost.toInt = rule.cost.toInt + x.cover.cost + y.cover.cost := by
    have hfit := hfits x.cover y.cover { h with left := hxcovers.tiles, right := hycovers.tiles }
    have hxpos := hxcovers.tiles.cost_nonneg hcost
    have hypos := hycovers.tiles.cost_nonneg hcost
    simp only [Cover.cost] at hfit
    rw [cost_ofRule hxcovers hycovers]
    exact Int64.toInt_ofInt_of_le (by simp only [ofRule, Cover.cost]; omega) hfit
  have hxle := hxle hl
  have hyle := hyle hr
  rw [hl.toInt_cost hxcovers] at hxle
  rw [hr.toInt_cost hycovers] at hyle
  rw [hsum, Cover.cost]
  omega

theorem operands_of_tiles (h : Tiles set (.node op type l r) c (.node rule type a b)) :
    rule ∈ set.forOp op ∧ rule.dst.compatible type = true ∧ Operands set l r rule a b := by
  cases h with
  | node hrule hdst hl hr ha hb => exact ⟨hrule, hdst, hl, hr, ha, hb⟩

/-- The rules of the operation give a choice too: a leaf rule follows only such a choice. -/
theorem exists_base_of_tiles (h : Tiles set (.node op type l r) rule.dst (.node rule type a b))
    (ihl : ∀ c cover, Tiles set l c cover → l.isAbsent = false → Reaches set l c cover.cost)
    (ihr : ∀ c cover, Tiles set r c cover → r.isAbsent = false → Reaches set r c cover.cost) :
    ∃ best, (base set op type l r).get? rule.dst = some best ∧ ((∀ rule ∈ set.rules, 0 ≤ rule.cost.toInt) →
      (∀ a b, Tiles set (.node op type l r) rule.dst (.node rule type a b) →
        (Cover.node rule type a b).cost < 2 ^ 63) →
      best.cost.toInt ≤ (Cover.node rule type a b).cost) := by
  obtain ⟨hrule, hdst, hoperands⟩ := operands_of_tiles h
  obtain ⟨x, y, hx, hy, hle⟩ := exists_choices_of_operands hoperands (List.mem_filter.mp hrule).1 ihl ihr type
  have hhas : Has (base set op type l r) rule.dst (ofRule type rule x y) := has_ofRules hrule hdst hx hy
  obtain ⟨best, hget, hbest⟩ := hhas
  refine ⟨best, hget, fun hcost hfits => Int.le_trans hbest.cost_le (hle hcost fun a' b' h => ?_)⟩
  exact hfits a' b' (.node hrule hdst h.supplies_left h.supplies_right h.left h.right)

/-- **For every cover of a tree, the table has a choice in the same class, which costs no more if costs fit.** -/
theorem reaches_of_tiles (t : Tree) :
    ∀ c cover, Tiles set t c cover → t.isAbsent = false → Reaches set t c cover.cost := by
  induction t with
  | absent => exact fun _ _ _ h => absurd h (by simp [Tree.isAbsent])
  | leaf o =>
    rintro _ _ (_ | ⟨hc, hrule⟩) _
    obtain ⟨a, ha, hle⟩ := within_ofOperand hc hrule
    exact ⟨a, ha, fun _ => hle⟩
  | node op type l r ihl ihr =>
    intro c cover h _
    cases h with
    | @node _ _ _ _ rule a b hrule hdst hl hr ha hb =>
      obtain ⟨best, hget, hle⟩ := exists_base_of_tiles (.node hrule hdst hl hr ha hb) ihl ihr
      have hhas : Has (base set op type l r) rule.dst best := ⟨best, hget, .refl best⟩
      obtain ⟨a', hget', hbest⟩ := hhas.ofTree
      exact ⟨a', hget', fun haffords =>
        Int.le_trans hbest.cost_le (hle haffords.nonneg fun _ _ h => haffords.lt _ h)⟩
    | @chain _ _ _ _ rule first a b hinner hreg hrule =>
      obtain ⟨best, hget, hle⟩ := exists_base_of_tiles hinner ihl ihr
      obtain ⟨hmem, hleaf⟩ := List.mem_filter.mp hrule
      have hsrc : rule.src1 = first.dst := by
        rw [Bool.and_eq_true, beq_iff_eq] at hleaf
        exact hleaf.2
      show Reaches set _ _ ((Cover.node first type a b).cost + rule.cost.toInt)
      by_cases hsame : rule.dst = rule.src1
      · -- the rule leads back to the class it started from, so what was there before is as good
        have hhas : Has (base set op type l r) first.dst best := ⟨best, hget, .refl best⟩
        obtain ⟨a', hget', hbest⟩ := hhas.ofTree
        rw [hsame, hsrc]
        refine ⟨a', hget', fun haffords => Int.le_trans hbest.cost_le ?_⟩
        have hpos := haffords.nonneg rule hmem
        have hle := hle haffords.nonneg fun _ _ h => haffords.lt _ h
        omega
      · obtain ⟨a', hget', hbest⟩ := has_chain (mem_of_get? hget) hreg hrule hsame
        refine ⟨a', hget', fun haffords => Int.le_trans hbest.cost_le ?_⟩
        have hle := hle haffords.nonneg fun a b h => by
          have hpos := haffords.nonneg rule hmem
          have hfit := haffords.lt _ (.chain h hreg hrule)
          simp only [Cover.cost] at hfit ⊢
          omega
        obtain ⟨first', x, y, heq, hcovers⟩ :=
          covers_of_mem_base covers_of_mem_ofTree covers_of_mem_ofTree (mem_of_get? hget)
        obtain ⟨hclass, rfl⟩ := Prod.mk.inj heq
        rw [hclass] at hreg hrule
        rw [haffords.toInt_cost_ofChain hcovers hreg hrule]
        omega

/-! ### The root -/

theorem exists_tilesRoot (he : e ∈ ofRoot set dst (.node op type l r)) :
    ∃ rule a b, TilesRoot set dst op l r rule a b ∧ e.1 = rule.dst ∧ e.2.index = rule.index ∧
      e.2.cover = .node rule type a b ∧ e.2.cost = .ofInt (Cover.node rule type a b).cost := by
  obtain ⟨rule, hrule, hdst, a, b, ha, hb, rfl⟩ := exists_of_mem_ofRules he
  obtain ⟨hl, ha⟩ := covers_of_child covers_of_mem_ofTree ha
  obtain ⟨hr, hb⟩ := covers_of_child covers_of_mem_ofTree hb
  exact ⟨rule, a.cover, b.cover, ⟨⟨hl, hr, ha.tiles, hb.tiles⟩, hrule, hdst⟩, rfl, rfl, rfl,
    cost_ofRule ha hb type rule⟩

/-- Every rule that covers the root is considered, with the best choices for its operands. -/
theorem exists_noWorse_of_tilesRoot (h : TilesRoot set dst op l r rule a b) (type : Ty) :
    ∃ e ∈ ofRoot set dst (.node op type l r), ∃ x, e.2.NoWorse x ∧ x.index = rule.index ∧
      ((∀ rule ∈ set.rules, 0 ≤ rule.cost.toInt) →
        (∀ a b, TilesRoot set dst op l r rule a b → (Cover.node rule type a b).cost < 2 ^ 63) →
        x.cost.toInt ≤ (Cover.node rule type a b).cost) := by
  obtain ⟨x, y, hx, hy, hle⟩ := exists_choices_of_operands h.toOperands (List.mem_filter.mp h.mem).1
    (reaches_of_tiles l) (reaches_of_tiles r) type
  have hhas : Has (ofRoot set dst (.node op type l r)) rule.dst (ofRule type rule x y) :=
    has_ofRules h.mem h.writes hx hy
  obtain ⟨best, hget, hbest⟩ := hhas
  exact ⟨(rule.dst, best), mem_of_get? hget, ofRule type rule x y, hbest, rfl,
    fun hcost hfits => hle hcost fun a' b' h' => hfits a' b' ⟨h', h.mem, h.writes⟩⟩

theorem exists_cheapest_of_mem (he : e ∈ cs) : ∃ best, cs.cheapest = some best := by
  cases cs with
  | nil => exact absurd he (by simp)
  | cons first rest => exact ⟨_, rfl⟩

/-- **Covering is optimal.**  A choice for the root is found exactly if the tree has a cover.  If no rule has a
negative cost and every cover costs less than the largest word, the choice is a cover, no cover costs less, and no
rule before its own covers the root at the same cost. -/
theorem cheapest_cover_optimal (set : RuleSet) (i : Instr) (op : Opcode) (type : Ty) (l r : Tree) :
    ((∃ e, (ofRoot set i.dst (.node op type l r)).cheapest = some e) ↔
      ∃ rule a b, TilesRoot set i.dst op l r rule a b) ∧
    ((∀ rule ∈ set.rules, 0 ≤ rule.cost) →
      (∀ rule a b, TilesRoot set i.dst op l r rule a b → (Cover.node rule type a b).cost < 2 ^ 63) →
      ∀ c e, (ofRoot set i.dst (.node op type l r)).cheapest = some (c, e) →
        ∃ rule a b, TilesRoot set i.dst op l r rule a b ∧ c = rule.dst ∧
          e.cover = .node rule type a b ∧ e.cost.toInt = e.cover.cost ∧
          ∀ rule' a' b', TilesRoot set i.dst op l r rule' a' b' →
            e.cover.cost ≤ (Cover.node rule' type a' b').cost ∧
            (e.cover.cost = (Cover.node rule' type a' b').cost → rule.index ≤ rule'.index)) := by
  refine ⟨⟨?_, ?_⟩, ?_⟩
  · intro ⟨e, he⟩
    obtain ⟨rule, a, b, htiles, -⟩ := exists_tilesRoot (mem_of_cheapest he).1
    exact ⟨rule, a, b, htiles⟩
  · intro ⟨rule, a, b, htiles⟩
    obtain ⟨e, he, -⟩ := exists_noWorse_of_tilesRoot htiles type
    exact exists_cheapest_of_mem he
  · intro hnonneg hfits c e he
    have hcost : ∀ rule ∈ set.rules, 0 ≤ rule.cost.toInt := fun rule hrule =>
      Int64.le_iff_toInt_le.mp (hnonneg rule hrule)
    obtain ⟨hmem, hleast⟩ := mem_of_cheapest he
    obtain ⟨rule, a, b, htiles, rfl, hindex, hcover, hsum⟩ := exists_tilesRoot hmem
    have hexact : e.cost.toInt = e.cover.cost := by
      have hpos := hcost rule (List.mem_filter.mp htiles.mem).1
      have ha := htiles.left.cost_nonneg hcost
      have hb := htiles.right.cost_nonneg hcost
      have hfit := hfits rule a b htiles
      rw [show e.cost = _ from hsum, show e.cover = _ from hcover,
        Int64.toInt_ofInt_of_le (by simp only [Cover.cost]; omega) hfit]
    refine ⟨rule, a, b, htiles, rfl, hcover, hexact, fun rule' a' b' htiles' => ?_⟩
    obtain ⟨e', he', x, hnoWorse, hx, hle⟩ := exists_noWorse_of_tilesRoot htiles' type
    have hle := hle hcost (hfits rule')
    have hbest := (hleast e' he').trans hnoWorse
    have hbestLe : e.cost.toInt ≤ x.cost.toInt := hbest.cost_le
    rw [← hexact]
    refine ⟨Int.le_trans hbestLe hle, fun hsame => ?_⟩
    rcases hbest with hlt | ⟨-, hbefore⟩
    · exact absurd (show e.cost.toInt < x.cost.toInt from hlt) (by omega)
    · rw [← hx, ← show e.index = rule.index from hindex]
      exact hbefore

/-! ### A sum of two widths

The sum of an `int` and a `long` can be taken in two ways at the same cost: the first operand is
widened, or a rule does both.
-/

/-- Sums of either width, and one that widens its first operand on the way. -/
def sums : RuleSet :=
  .ofPatterns
    [Table.leaf (.reg .signed .w32) (.reg .signed .w32) 0 [],
      Table.leaf (.reg .signed .w64) (.reg .signed .w64) 0 [],
      Table.leaf (.reg .signed .w64) (.reg .signed .w32) 1 [],
      Table.rule (.reg .signed .w32) .add (.reg .signed .w32) (.reg .signed .w32) 10 [],
      Table.rule (.reg .signed .w64) .add (.reg .signed .w64) (.reg .signed .w64) 10 [],
      Table.rule (.reg .signed .w64) .add (.reg .signed .w32) (.reg .signed .w64) 11 []]

/-- The sum of two `int`s. -/
def narrowSum : Tree := .node (.ir .add) .sint (.leaf (.vreg 27 .sint)) (.leaf (.vreg 28 .sint))

/-- A sum into a `long`. -/
def wideSum : Instr := .ir .add (Operand.vreg 30 .long) none none

theorem wideSum_cover_optimal :
    (∀ rule ∈ sums.rules, 0 ≤ rule.cost) ∧
    ∃ rule a b, TilesRoot sums wideSum.dst (.ir .add) narrowSum (.leaf (.vreg 29 .long)) rule a b ∧
      rule.index = 4 ∧ (Cover.node rule .long a b).cost = 21 ∧
      ∀ rule' a' b',
        TilesRoot sums wideSum.dst (.ir .add) narrowSum (.leaf (.vreg 29 .long)) rule' a' b' →
          21 ≤ (Cover.node rule' .long a' b').cost ∧
          (21 = (Cover.node rule' .long a' b').cost → 4 ≤ rule'.index) := by
  have hcost : ∀ rule ∈ sums.rules, 0 ≤ rule.cost := by decide
  have hfits : ∀ rule a b, TilesRoot sums wideSum.dst (.ir .add) narrowSum (.leaf (.vreg 29 .long)) rule a b →
      (Cover.node rule .long a b).cost < 2 ^ 63 := fun rule a b h => by
    have hle : ∀ rule ∈ sums.rules, rule.cost.toInt ≤ 11 := by decide
    have hrule := hle rule (List.mem_filter.mp h.mem).1
    have ha := h.left.cost_le (by decide) hle
    have hb := h.right.cost_le (by decide) hle
    simp only [narrowSum, Tree.size] at ha hb
    simp only [Cover.cost]
    omega
  refine ⟨hcost, ?_⟩
  obtain ⟨-, hbest⟩ := cheapest_cover_optimal sums wideSum (.ir .add) .long narrowSum
    (.leaf (.vreg 29 .long))
  obtain ⟨rule, a, b, htiles, -, hcover, hsum, hleast⟩ := hbest hcost hfits _ _ rfl
  obtain ⟨rfl, -, rfl, rfl⟩ := Cover.node.inj hcover
  exact ⟨_, _, _, htiles, rfl, rfl, hleast⟩

/-- Sums of two `int`s, from signed registers at a high cost and from unsigned ones at a low cost. -/
def dearSums : RuleSet :=
  .ofPatterns
    [Table.leaf (.reg .signed .w32) (.reg .signed .w32) 4611686018427387904 [],
      Table.leaf (.reg .unsigned .w32) (.reg .signed .w32) 0 [],
      Table.rule (.reg .signed .w32) .add (.reg .signed .w32) (.reg .signed .w32) 4611686018427387904 [],
      Table.rule (.reg .signed .w32) .add (.reg .unsigned .w32) (.reg .unsigned .w32) 1 []]

/-- A cost that does not fit a word is taken for a negative one, and preferred to a cost of one. -/
theorem dearSums_prefers_dear :
    (∀ rule ∈ dearSums.rules, 0 ≤ rule.cost) ∧
    (∃ e, (ofRoot dearSums (some (.vreg 29 .sint)) narrowSum).cheapest = some e ∧
      e.2.cover.cost = 3 * 2 ^ 62 ∧ e.2.cost.toInt = -2 ^ 62) ∧
    ∃ rule a b, TilesRoot dearSums (some (.vreg 29 .sint)) (.ir .add) (.leaf (.vreg 27 .sint))
      (.leaf (.vreg 28 .sint)) rule a b ∧ (Cover.node rule .sint a b).cost = 1 := by
  -- both operands are taken as unsigned registers
  have hrule : (⟨Table.leaf (.reg .unsigned .w32) (.reg .signed .w32) 0 [], 1⟩ : Rule) ∈
      dearSums.leavesFrom (.reg .signed .w32) := by decide
  refine ⟨by decide, ⟨_, rfl, rfl, rfl⟩,
    ⟨Table.rule (.reg .signed .w32) .add (.reg .unsigned .w32) (.reg .unsigned .w32) 1 [], 3⟩, _, _,
    ⟨⟨by decide, by decide, .leaf List.mem_cons_self hrule, .leaf List.mem_cons_self hrule⟩, by decide, by decide⟩,
    rfl⟩

end Choices

end Codegen
