/-
Signed and unsigned operations.

Nothing in selection looks at signedness: whether a comparison or a division goes by signed or by
unsigned instructions follows from what the rules cost and from their order.  `Tree.form` says which
form is taken for two operands of one integer type, and `select_orders` that the code of every function
has the comparisons and divisions of its trees in order, each in that form.

The unsigned form is taken when the type is unsigned and an operand is in a register.  Two operands that
both have to be loaded can be loaded as signed at the same cost, and a tie goes to the signed rule.  A
division whose result is not as wide as its operands is signed for the same reason.
-/
import Codegen.Proofs.Items
import Codegen.Proofs.Loading

namespace Codegen

open Choices RuleSet

/-! ### The form of an operation -/

/-- The width of an integer register that holds a value of a type. -/
def Ty.width? : Ty → Option IntWidth
  | .int w _ => some w
  | .pointer _ => some .w64
  | .func _ _ _ => some .w64
  | _ => none

variable {w : IntWidth} {s : Signedness} {type : Ty} {expected more : List (Option Signedness)}
  {rest : List Signedness}

theorem Ty.width?_of_mem_ofRegister (h : .reg s w ∈ OpClass.ofRegister type) : type.width? = some w := by
  unfold OpClass.ofRegister at h
  split at h <;> simp only [List.mem_cons, List.not_mem_nil, or_false, reduceCtorEq, false_or,
    OpClass.reg.injEq] at h
  · rw [h.2]; rfl
  · rcases h with h | h
    · unfold OpClass.pointerTo at h
      split at h <;> exact nomatch h
    · rw [h.2]; rfl
  · rw [h.2]; rfl

namespace Tree

/-- The form of a comparison or a division of two operands of one integer type, where `type` is that of
the result. -/
def form (op : IrOp) (type : Ty) (l r : Tree) : Option Signedness :=
  match l.integer?, r.integer? with
  | some (w, s), some (w', s') =>
    if w = w' ∧ s = s' then
      some (if s = .unsigned ∧ (l.inRegister || r.inRegister) = true ∧
        (op.isOrder = true ∨ type.width? = some w) then .unsigned else .signed)
    else none
  | _, _ => none

/-- The comparisons and divisions of a tree, operands first, each with its form if its operands are of one
integer type. -/
def orders : Tree → List (Option Signedness)
  | .absent => []
  | .leaf _ => []
  | .node (.ir op) type l r =>
    l.orders ++ r.orders ++ if op.isOrder || op.isDivision then [form op type l r] else []
  | .node _ _ l r => l.orders ++ r.orders

variable {op : IrOp} {l r : Tree} {form' : Signedness}

theorem form_eq_some (h : form op type l r = some form') :
    ∃ w s, l.integer? = some (w, s) ∧ r.integer? = some (w, s) ∧
      (form' = .unsigned ↔ s = .unsigned ∧ (l.inRegister = true ∨ r.inRegister = true) ∧
        (op.isOrder = true ∨ type.width? = some w)) := by
  unfold form at h
  split at h
  · rename_i w s w' s' hl hr
    obtain ⟨⟨rfl, rfl⟩, hform⟩ := Option.ite_none_right_eq_some.mp h
    refine ⟨w, s, hl, hr, ?_⟩
    rw [← Option.some.inj hform, ← Bool.or_eq_true]
    split
    · rename_i hall
      exact ⟨fun _ => hall, fun _ => rfl⟩
    · rename_i hall
      exact ⟨nofun, fun h => absurd h hall⟩
  · exact nomatch h

end Tree

/-- The instructions that depend on signedness go by what is expected: one of the form that is known, and
at most one where none is. -/
inductive Follows : List (Option Signedness) → List Signedness → Prop
  | nil : Follows [] []
  | known {s : Signedness} {expected : List (Option Signedness)} {orders : List Signedness}
      (h : Follows expected orders) : Follows (some s :: expected) (s :: orders)
  | free {group : List Signedness} {expected : List (Option Signedness)} {orders : List Signedness}
      (hgroup : group.length ≤ 1) (h : Follows expected orders) :
      Follows (none :: expected) (group ++ orders)

theorem Follows.append {orders : List Signedness} (h : Follows expected orders) (h' : Follows more rest) :
    Follows (expected ++ more) (orders ++ rest) := by
  induction h with
  | nil => exact h'
  | known _ ih => exact .known ih
  | free hgroup _ ih =>
    rw [List.append_assoc]
    exact .free hgroup ih

theorem Follows.eq_nil {orders : List Signedness} (h : Follows [] orders) : orders = [] := by
  cases h
  rfl

theorem follows_singleton {orders : List Signedness} {form : Option Signedness}
    (hlen : orders.length ≤ 1) (hform : ∀ s, form = some s → orders = [s]) :
    Follows [form] orders := by
  cases form with
  | none => simpa using Follows.free hlen .nil
  | some s => rw [hform s rfl]; exact .known .nil

/-! ### The rival of a rule in the wrong form -/

namespace Tree

variable {op : IrOp} {l r : Tree} {form' : Signedness} {imm : Bool} {ka kb : Int}

/-- Operands that meet a rule in the wrong form also meet one in the right form, which costs less, or no
more if it is the signed one. -/
theorem exists_rival (hform : form op type l r = some form') (hlsmall : l.Small) (hrsmall : r.Small)
    (hl : Within (ofTree x86 l) (.reg s w) ka)
    (hr : Within (ofTree x86 r) (Rule.second imm s w) kb)
    (hwidth : op.isOrder = true ∨ type.width? = some w) (hs : s ≠ form') :
    ∃ w' ka' kb', Within (ofTree x86 l) (.reg form' w') ka' ∧
      Within (ofTree x86 r) (Rule.second imm form' w') kb' ∧ (op.isOrder = true ∨ w' = w) ∧
      (ka' + kb' < ka + kb ∨ form' = .signed ∧ ka' + kb' ≤ ka + kb) := by
  obtain ⟨w₀, s₀, hli, hri, hiff⟩ := form_eq_some hform
  cases form' with
  | signed =>
    obtain rfl : s = .unsigned := by cases s <;> simp_all
    have hne : ∀ t : Tree, (t.inRegister = true → l.inRegister = true ∨ r.inRegister = true) →
        ¬ (s₀ = .unsigned ∧ t.inRegister = true ∧ w₀ = w) := by
      rintro t ht ⟨hs₀, hreg, rfl⟩
      exact nomatch hiff.mpr ⟨hs₀, ht hreg, hwidth⟩
    have hr' : Within (ofTree x86 r) (Rule.second imm .signed w) kb := by
      cases imm with
      | false => exact within_signed hri hrsmall hr (hne r .inr)
      | true => exact hr
    exact ⟨w, ka, kb, within_signed hli hlsmall hl (hne l .inl), hr', .inr rfl, .inr ⟨rfl, Int.le_refl _⟩⟩
  | unsigned =>
    obtain rfl : s = .signed := by cases s <;> simp_all
    obtain ⟨hs₀, hreg, hop⟩ := hiff.mp rfl
    have hown : op.isOrder = true ∨ w₀ = w := by
      rcases hwidth with h | h
      · exact .inl h
      · rcases hop with h' | h'
        · exact .inl h'
        · exact .inr (Option.some.inj (h'.symm.trans h))
    have hl' := within_unsigned hli hlsmall hs₀ hl
    cases imm with
    | false =>
      have hr' := within_unsigned hri hrsmall hs₀ hr
      refine ⟨w₀, _, _, hl', hr', hown, .inl ?_⟩
      rcases hreg with hreg | hreg
      · rw [if_pos hreg]; split <;> omega
      · rw [if_pos hreg]; split <;> omega
    | true =>
      -- an immediate is in no register, so the other operand is
      obtain ⟨hrreg, hown'⟩ := within_immediate hri hr
      have hlreg : l.inRegister = true := hreg.resolve_right (by simp [hrreg])
      have hr' := hown' (rank_le_of_within hli hlsmall hlreg hl)
      refine ⟨w₀, _, _, hl', hr', hown, .inl ?_⟩
      rw [if_pos hlreg]
      omega

end Tree

/-! ### Rules that are chosen -/

/-- The signednesses that the instructions of a cover are for. -/
def Cover.orders (c : Cover) : List Signedness := c.rules.flatMap Rule.orders

theorem Cover.orders_node (rule : Rule) (type : Ty) (left right : Cover) :
    (Cover.node rule type left right).orders = left.orders ++ right.orders ++ rule.orders := by
  simp [orders, rules]

variable {a : Choice} {c : OpClass} {t : Tree} {dst : Option Operand} {cover : Cover} {fold : Bool} {n : Int}
  {o : Operand} {code new : List Instr} {item : Item} {items : List Item} {pieces : List (List Instr)} {op : IrOp}

theorem Choices.mem_of_child (h : child t (ofTree x86 t) c = some a) (hc : c ≠ .none) :
    (c, a) ∈ ofTree x86 t := by
  unfold child at h
  split at h
  · simp [hc] at h
  · rw [if_neg (by simpa using hc)] at h
    exact mem_of_get? h

theorem Choices.within_of_child (h : child t (ofTree x86 t) c = some a) (hc : c ≠ .none) :
    Within (ofTree x86 t) c a.cost.toInt := by
  unfold child at h
  split at h
  · simp [hc] at h
  · rw [if_neg (by simpa using hc)] at h
    exact ⟨a, h, Int.le_refl _⟩

theorem Choices.child_of_within {k : Int} (h : Within (ofTree x86 t) c k) (hc : c ≠ .none) :
    ∃ a, child t (ofTree x86 t) c = some a ∧ a.cost.toInt ≤ k := by
  have ht : t.isAbsent = false := by
    cases t with
    | absent =>
      obtain ⟨a, ha, -⟩ := h
      exact nomatch ha
    | _ => rfl
  exact h.exists_child ht hc

theorem Rule.second_ne_none (imm : Bool) (s : Signedness) (w : IntWidth) : second imm s w ≠ .none := by
  cases imm <;> exact nofun

section

variable {l r : Tree} {rule rule' : Rule} {b a' b' : Choice} {form : Signedness} {imm : Bool} {k : Rule.Contest}

theorem sense_of_compares (h : rule ∈ x86.forOp (.ir op)) (hop : op.isOrder = true)
    (hsrc1 : rule.src1 = .reg s w) : rule.sense? = some ((op, none), s) := by
  simp [Rule.sense?, (mem_forOp h).2.1, hsrc1, hop]

theorem sense_of_divides (h : rule ∈ x86.forOp (.ir op)) (hop : op.isDivision = true)
    (hsrc1 : rule.src1 = .reg s w) : rule.sense? = some ((op, some w), s) := by
  simp [Rule.sense?, (mem_forOp h).2.1, hsrc1, hop, (IrOp.isBranch_of_isDivision hop).2]

theorem sense_of_jump (h : rule ∈ x86.forOp (.ir op)) (hop : op.isBranch = true) {c : Cond}
    (hsrc1 : rule.src1 = .flags c) (hc : c.order? = some s) : rule.sense? = some ((op, none), s) := by
  simp [Rule.sense?, (mem_forOp h).2.1, hsrc1, hop, hc]

/-- A chosen rule has no rival: one for the same class, in the same contest and of the same cost, whose
operands cost less, or no more if it is the signed one. -/
theorem Choices.Best.no_rival (hbest : Best x86 (.ir op) type l r rule a b)
    (hsmall : (Tree.node (.ir op) type l r).Small) (hrule' : rule' ∈ x86.forOp (.ir op)) (hdst : rule'.dst = rule.dst)
    (hcost : rule'.cost = rule.cost)
    (ha' : child l (ofTree x86 l) rule'.src1 = some a') (hb' : child r (ofTree x86 r) rule'.src2 = some b')
    (hsense : rule.sense? = some (k, s)) (hsense' : rule'.sense? = some (k, form)) (hs : s ≠ form)
    (hless : a'.cost.toInt + b'.cost.toInt < a.cost.toInt + b.cost.toInt ∨
      form = .signed ∧ a'.cost.toInt + b'.cost.toInt ≤ a.cost.toInt + b.cost.toInt) : False := by
  have hnoWorse := hbest.noWorse rule' hrule' hdst a' b' ha' hb'
  have hsum : ∀ {rule : Rule} {a b : Choice}, rule ∈ x86.forOp (.ir op) →
      child l (ofTree x86 l) rule.src1 = some a → child r (ofTree x86 r) rule.src2 = some b →
      (rule.cost + a.cost + b.cost).toInt = rule.cost.toInt + a.cost.toInt + b.cost.toInt :=
    fun hrule ha hb => toInt_cost_ofRule hsmall (covers_of_child covers_of_mem_ofTree ha).2
      (covers_of_child covers_of_mem_ofTree hb).2 (mem_forOp hrule).1
  have hsum' := hsum hrule' ha' hb'
  rw [hcost] at hsum'
  simp only [Choice.NoWorse, ofRule, hcost, hsum hbest.mem hbest.left hbest.right, hsum'] at hnoWorse
  rcases hless with hlt | ⟨rfl, hle⟩
  · omega
  · obtain rfl : s = .unsigned := by cases s <;> simp_all
    have hindex := Rule.index_lt_of_sense (mem_forOp hbest.mem).1 (mem_forOp hrule').1
      hsense hsense'
    omega

theorem orders_of_compares (hbest : Best x86 (.ir op) type l r rule a b)
    (hsmall : (Tree.node (.ir op) type l r).Small) (hop : op.isOrder = true)
    (hcompares : rule.Compares op s w imm) (hform : Tree.form op type l r = some form)
    (hdst : ∃ d w', rule.dst = .reg d w') : s = form := by
  by_contra hs
  have hl := within_of_child hbest.left (by rw [hcompares.src1]; exact nofun)
  have hr := within_of_child hbest.right (by rw [hcompares.src2]; exact Rule.second_ne_none imm s w)
  rw [hcompares.src1] at hl
  rw [hcompares.src2] at hr
  obtain ⟨w', ka, kb, hl', hr', -, hless⟩ :=
    Tree.exists_rival hform hsmall.of_node.1 hsmall.of_node.2 hl hr (.inl hop) hs
  obtain ⟨d, m, hdst⟩ := hdst
  obtain ⟨rule', hrule', hsrc1, hsrc2, hsame, hcost⟩ := (Rule.exists_compares hop form w' imm).2 d m
  obtain ⟨a', ha', hka⟩ := child_of_within hl' nofun
  obtain ⟨b', hb', hkb⟩ := child_of_within hr' (Rule.second_ne_none imm form w')
  rw [← hsrc1] at ha'
  rw [← hsrc2] at hb'
  refine hbest.no_rival hsmall hrule' (hsame.trans hdst.symm) (by rw [hcost, hcompares.cost, hdst]; rfl) ha' hb'
    (sense_of_compares hbest.mem hop hcompares.src1) (sense_of_compares hrule' hop hsrc1) hs ?_
  rcases hless with hlt | ⟨hsigned, hle⟩
  · exact .inl (by omega)
  · exact .inr ⟨hsigned, by omega⟩

theorem orders_of_divides (hbest : Best x86 (.ir op) type l r rule a b)
    (hsmall : (Tree.node (.ir op) type l r).Small) (hop : op.isDivision = true)
    (hdivides : rule.Divides s w) (hform : Tree.form op type l r = some form)
    (hwidth : type.width? = some w) : s = form := by
  by_contra hs
  have hl := within_of_child hbest.left (by rw [hdivides.src1]; exact nofun)
  have hr := within_of_child hbest.right (by rw [hdivides.src2]; exact nofun)
  rw [hdivides.src1] at hl
  rw [hdivides.src2] at hr
  have hr : Within (ofTree x86 r) (Rule.second false s w) b.cost.toInt := hr
  obtain ⟨w', ka, kb, hl', hr', hw, hless⟩ :=
    Tree.exists_rival hform hsmall.of_node.1 hsmall.of_node.2 hl hr (.inr hwidth) hs
  obtain rfl : w' = w := hw.resolve_left (by simp [(IrOp.isBranch_of_isDivision hop).2])
  obtain ⟨d, hdst⟩ := hdivides.dst
  obtain ⟨rule', hrule', hsrc1, hsrc2, hsame, hcost⟩ := Rule.exists_divides hop form d w'
  obtain ⟨a', ha', hka⟩ := child_of_within hl' nofun
  obtain ⟨b', hb', hkb⟩ := child_of_within hr' (Rule.second_ne_none false form w')
  rw [← hsrc1] at ha'
  rw [show Rule.second false form w' = .reg form w' from rfl, ← hsrc2] at hb'
  refine hbest.no_rival hsmall hrule' (by rw [hsame, hdst]) (by rw [hcost, hdivides.cost]) ha' hb'
    (sense_of_divides hbest.mem hop hdivides.src1) (sense_of_divides hrule' hop hsrc1) hs ?_
  rcases hless with hlt | ⟨hsigned, hle⟩
  · exact .inl (by omega)
  · exact .inr ⟨hsigned, by omega⟩

/-- Integers are not compared or divided as floats. -/
theorem form_eq_none_of_freg (hbest : Best x86 (.ir op) type l r rule a b)
    (hsrc1 : ∃ p, rule.src1 = .freg p) : Tree.form op type l r ≠ some form := by
  obtain ⟨p, hsrc1⟩ := hsrc1
  intro hform
  obtain ⟨w, s, hl, -, -⟩ := Tree.form_eq_some hform
  have hwithin := within_of_child hbest.left (by rw [hsrc1]; exact nofun)
  rw [hsrc1] at hwithin
  exact Tree.not_within_freg hl hwithin

/-- The rule chosen for an operation has the right form. -/
theorem follows_of_best (hbest : Best x86 (.ir op) type l r rule a b)
    (hsmall : (Tree.node (.ir op) type l r).Small) (hbranch : op.isBranch = false)
    (hflags : rule.dst.isFlags = false)
    (hwidth : ∀ d w, rule.dst = .reg d w → type.width? = some w) :
    Follows (if op.isOrder || op.isDivision then [Tree.form op type l r] else []) rule.orders := by
  by_cases hop : op.isOrder = true
  · rw [if_pos (by simp [hop])]
    rcases Rule.comparison_cases hbest.mem hop with ⟨s, w, imm, hcompares⟩ | hfloats
    · rcases hcompares.dst with ⟨hdst, -⟩ | ⟨hdst, horders⟩
      · rw [hdst] at hflags
        exact nomatch hflags
      · refine follows_singleton (by simp [horders]) fun form hform => ?_
        rw [horders, orders_of_compares hbest hsmall hop hcompares hform hdst]
    · refine follows_singleton ?_ fun form hform => absurd hform (form_eq_none_of_freg hbest hfloats.src1)
      rcases hfloats.dst with ⟨-, horders⟩ | ⟨-, horders⟩ <;> simp [horders]
  · by_cases hdivision : op.isDivision = true
    · rw [if_pos (by simp [hdivision])]
      rcases Rule.division_cases hbest.mem hdivision with ⟨s, w, hdivides⟩ | ⟨hsrc1, -, horders⟩
      · obtain ⟨d, hdst⟩ := hdivides.dst
        refine follows_singleton (by simp [hdivides.orders]) fun form hform => ?_
        rw [hdivides.orders, orders_of_divides hbest hsmall hdivision hdivides hform (hwidth d w hdst)]
      · exact follows_singleton (by simp [horders]) fun form hform =>
          absurd hform (form_eq_none_of_freg hbest hsrc1)
    · have hplain := (Rule.usual_of_forOp hbest.mem).plain hbranch (by simpa using hop) (by simpa using hdivision)
      rw [if_neg (by simp [hop, hdivision]), hplain.1]
      exact .nil

end

/-! ### Trees -/

section

variable {l r : Tree}

variable {b : Choice} {rule : Rule}

/-- The cover of an operand goes by the comparisons and divisions in it. -/
theorem follows_of_child (ih : ∀ e ∈ ofTree x86 t, e.1.isFlags = false → Follows t.orders e.2.cover.orders)
    (h : child t (ofTree x86 t) c = some a) (hc : c.isFlags = false) : Follows t.orders a.cover.orders := by
  by_cases hnone : c = .none
  · cases t with
    | absent =>
      subst hnone
      obtain rfl := Option.some.inj h
      exact .nil
    | _ => simp [child, Tree.isAbsent, hnone] at h
  · exact ih _ (mem_of_child h hnone) hc

/-- The cover of an operation that is no jump goes by the comparisons and divisions in its tree. -/
theorem follows_of_node (hbest : Best x86 (.ir op) type l r rule a b) (hsmall : (Tree.node (.ir op) type l r).Small)
    (hbranch : op.isBranch = false) (hflags : rule.dst.isFlags = false)
    (hwidth : ∀ d w, rule.dst = .reg d w → type.width? = some w)
    (ihl : ∀ e ∈ ofTree x86 l, e.1.isFlags = false → Follows l.orders e.2.cover.orders)
    (ihr : ∀ e ∈ ofTree x86 r, e.1.isFlags = false → Follows r.orders e.2.cover.orders) :
    Follows (Tree.node (.ir op) type l r).orders (ofRule type rule a b).cover.orders := by
  have husual := Rule.usual_of_forOp hbest.mem
  rw [ofRule, Cover.orders_node]
  have hl := follows_of_child ihl hbest.left (husual.src1 hbranch)
  have hr := follows_of_child ihr hbest.right husual.src2
  exact (hl.append hr).append (follows_of_best hbest hsmall hbranch hflags hwidth)

theorem Rule.orders_of_leavesFrom (h : rule ∈ x86.leavesFrom c) : rule.orders = [] :=
  ((Rule.usual_of_leavesFrom h).plain rfl rfl rfl).1

/-- An operation that has a choice is one of the generic ones, and none that is below the root a jump. -/
theorem exists_op_of_best {op : Opcode} (hbest : Best x86 op type l r rule a b) (hdst : rule.dst ≠ .none) :
    ∃ op', op = .ir op' ∧ op'.isBranch = false := by
  obtain ⟨hmem, hop, -⟩ := mem_forOp hbest.mem
  obtain ⟨op', hop', husual⟩ := Rule.usual_of_mem hmem
  obtain rfl : op = .ir op' := hop.symm.trans hop'
  by_contra hbranch
  exact hdst (Rule.jump_cases hbest.mem (by simpa using hbranch)).1

/-- **A cover of a tree that is no condition goes by the comparisons and divisions in the tree.** -/
theorem follows_of_mem_ofTree (ht : t.Small) :
    ∀ e ∈ ofTree x86 t, e.1.isFlags = false → Follows t.orders e.2.cover.orders := by
  induction t with
  | absent =>
    intro e he
    cases he
  | leaf o =>
    intro e he _
    obtain ⟨c, hc, rule, hrule, rfl⟩ := exists_of_mem_ofOperand he
    simp only [Cover.orders, Cover.rules, List.flatMap_cons, Rule.orders_of_leavesFrom hrule]
    exact .nil
  | node op type l r ihl ihr =>
    have hbase : ∀ e ∈ base x86 op type l r, e.1.isFlags = false →
        Follows (Tree.node op type l r).orders e.2.cover.orders := by
      intro e he hflags
      obtain ⟨hmem, hreg⟩ := Tree.isRegister_of_mem_base he hflags
      obtain ⟨rule, a, b, -, rfl, hbest⟩ := best_of_mem_ofRules he
      obtain ⟨op', rfl, hbranch⟩ := exists_op_of_best hbest fun hnone => by
        simp only [hnone] at hreg
        cases hreg
      refine follows_of_node hbest ht hbranch hflags (fun d w hdst => ?_) (ihl ht.of_node.1) (ihr ht.of_node.2)
      simp only [hdst] at hmem
      exact Ty.width?_of_mem_ofRegister hmem
    intro e he hflags
    rcases mem_ofTree_node he with he | ⟨b, hb, hreg, rule, hrule, -, rfl⟩
    · exact hbase e he hflags
    · have horders : (ofChain rule b.2).cover.orders = b.2.cover.orders := by
        simp [ofChain, Cover.orders, Cover.rules, Rule.orders_of_leavesFrom hrule]
      rw [horders]
      exact hbase b hb (OpClass.isFlags_of_isRegister hreg)

end

/-! ### Jumps -/

theorem IrOp.order?_cond (h : op.isOrder = true) (s : Signedness) : (op.cond s).order? = some s := by
  cases op with
  | lt | gt | le | ge => cases s <;> rfl
  | _ => exact nomatch h

theorem Tree.eq_leaf_of_label (h : (.label, a) ∈ ofTree x86 t) : ∃ o, t = .leaf o := by
  obtain ⟨c, k, ho, ⟨rfl, -, hreg⟩ | ⟨rule, hrule, hdst, -⟩⟩ := exists_origin h rfl
  · cases hreg
  · obtain ⟨hload, hsrc⟩ := isLoad_of_leavesFrom hrule
    simp only [Table.isLoad, ← hdst, beq_iff_eq] at hload
    rw [← hsrc, hload] at ho
    cases t with
    | absent => exact ho.elim
    | leaf o => exact ⟨o, rfl⟩
    | node op type l r => cases ho.1

theorem Tree.exists_node_of_flags {c : Cond} (h : (.flags c, a) ∈ ofTree x86 t) :
    ∃ op type l r rule x y, t = .node (.ir op) type l r ∧ op.isBranch = false ∧ type.isInteger = true ∧
      rule.dst = .flags c ∧ a = ofRule type rule x y ∧ Best x86 (.ir op) type l r rule x y := by
  rcases mem_ofTree_cases h with ⟨op, type, l, r, rfl, hbase⟩ | ⟨c', k, -, rule, hrule, hdst, -⟩
  · obtain ⟨rule, x, y, hcompatible, heq, hbest⟩ := best_of_mem_ofRules hbase
    obtain ⟨hdst, rfl⟩ := Prod.mk.inj heq
    obtain ⟨op', rfl, hbranch⟩ := exists_op_of_best hbest (by rw [← hdst]; exact nofun)
    rw [← hdst] at hcompatible
    exact ⟨op', type, l, r, rule, x, y, rfl, hbranch, hcompatible, hdst.symm, rfl, hbest⟩
  · have hload := (isLoad_of_leavesFrom hrule).1
    simp [Table.isLoad, ← hdst] at hload

section

variable {jump : IrOp} {jumpType : Ty} {l r target : Tree} {jumpRule rule : Rule} {b x y : Choice} {imm : Bool}

theorem orders_of_jump (hjump : jump.isBranch = true)
    (hbest : Best x86 (.ir jump) jumpType (.node (.ir op) type l r) target jumpRule (ofRule type rule x y) b)
    (hsmall : (Tree.node (.ir jump) jumpType (.node (.ir op) type l r) target).Small)
    (hop : op.isOrder = true) (htype : type.isInteger = true) (hinner : Best x86 (.ir op) type l r rule x y)
    {form : Signedness} (hcompares : rule.Compares op s w imm) (hdst : rule.dst = .flags (op.cond s))
    (hsrc1 : jumpRule.src1 = .flags (op.cond s)) (hsrc2 : jumpRule.src2 = .label)
    (hnone : jumpRule.dst = .none) (hone : jumpRule.cost = 1) (hform : Tree.form op type l r = some form) :
    s = form := by
  by_contra hs
  have hlower := hsmall.of_node.1
  have hl := within_of_child hinner.left (by rw [hcompares.src1]; exact nofun)
  have hr := within_of_child hinner.right (by rw [hcompares.src2]; exact Rule.second_ne_none imm s w)
  rw [hcompares.src1] at hl
  rw [hcompares.src2] at hr
  obtain ⟨w', ka, kb, hl', hr', -, hless⟩ :=
    Tree.exists_rival hform hlower.of_node.1 hlower.of_node.2 hl hr (.inl hop) hs
  -- the condition of the right form is there too
  obtain ⟨rule', hrule', hfirst, hsecond, hsame, hcost⟩ := (Rule.exists_compares hop form w' imm).1
  obtain ⟨x', hx', hka⟩ := child_of_within hl' nofun
  obtain ⟨y', hy', hkb⟩ := child_of_within hr' (Rule.second_ne_none imm form w')
  rw [← hfirst] at hx'
  rw [← hsecond] at hy'
  have haccepts : rule'.dst.compatible type = true := by rw [hsame]; exact htype
  have hbase : Within (base x86 (.ir op) type l r) rule'.dst (rule'.cost + x'.cost + y'.cost).toInt :=
    within_ofRules hrule' haccepts hx' hy'
  obtain ⟨a', ha', hcost'⟩ := child_of_within hbase.ofTree (by rw [hsame]; exact nofun)
  -- and so is a jump on it
  obtain ⟨jumpRule', hjumpRule', hjumpSrc1, hjumpSrc2, hjumpDst, hjumpCost⟩ :=
    Rule.exists_jump hjump (op.cond form)
  have hb := hbest.right
  rw [hsame, ← hjumpSrc1] at ha'
  rw [hsrc2, ← hjumpSrc2] at hb
  refine hbest.no_rival hsmall hjumpRule' (by rw [hjumpDst, hnone]) (by rw [hjumpCost, hone]) ha' hb
    (sense_of_jump hbest.mem hjump hsrc1 (IrOp.order?_cond hop s))
    (sense_of_jump hjumpRule' hjump hjumpSrc1 (IrOp.order?_cond hop form)) hs ?_
  have hequal : rule'.cost = rule.cost := by rw [hcost, hcompares.cost, hdst]; rfl
  have hsum := toInt_cost_ofRule hlower (covers_of_child covers_of_mem_ofTree hinner.left).2
    (covers_of_child covers_of_mem_ofTree hinner.right).2 (mem_forOp hinner.mem).1
  have hsum' := toInt_cost_ofRule hlower (covers_of_child covers_of_mem_ofTree hx').2
    (covers_of_child covers_of_mem_ofTree hy').2 (mem_forOp hrule').1
  rw [hequal] at hsum' hcost'
  simp only [ofRule]
  rcases hless with hlt | ⟨hsigned, hle⟩
  · exact .inl (by omega)
  · exact .inr ⟨hsigned, by omega⟩

theorem follows_of_jump (hjump : jump.isBranch = true)
    (hbest : Best x86 (.ir jump) jumpType l target jumpRule a b)
    (hsmall : (Tree.node (.ir jump) jumpType l target).Small) :
    Follows (Tree.node (.ir jump) jumpType l target).orders (ofRule jumpType jumpRule a b).cover.orders := by
  obtain ⟨hnone, hsrc2, hcases⟩ := Rule.jump_cases hbest.mem hjump
  have hright := hbest.right
  rw [hsrc2] at hright
  obtain ⟨o, rfl⟩ := Tree.eq_leaf_of_label (mem_of_child hright (by simp))
  have hb : b.cover.orders = [] := (follows_of_child (follows_of_mem_ofTree hsmall.of_node.2) hright rfl).eq_nil
  have howed : (jump.isOrder || jump.isDivision) = false := by
    cases jump with
    | jz | jnz => rfl
    | _ => cases hjump
  have htree : (Tree.node (.ir jump) jumpType l (.leaf o)).orders = l.orders := by
    simp [howed, Tree.orders]
  rw [htree, ofRule, Cover.orders_node, hb, List.append_nil]
  rcases hcases with ⟨c, hsrc1, hone, horders⟩ | ⟨hflags, horders⟩
  · have hleft := hbest.left
    rw [hsrc1] at hleft
    obtain ⟨op, type, l, r, rule, x, y, rfl, hbranch, htype, hdst, rfl, hinner⟩ :=
      Tree.exists_node_of_flags (mem_of_child hleft (by simp))
    have husual := Rule.usual_of_forOp hinner.mem
    obtain ⟨hlsmall, hrsmall⟩ := hsmall.of_node.1.of_node
    have hl := follows_of_child (follows_of_mem_ofTree hlsmall) hinner.left (husual.src1 hbranch)
    have hr := follows_of_child (follows_of_mem_ofTree hrsmall) hinner.right husual.src2
    rw [ofRule, Cover.orders_node, List.append_assoc (x.cover.orders ++ y.cover.orders)]
    refine (hl.append hr).append ?_
    rw [horders]
    by_cases hop : op.isOrder = true
    · rw [if_pos (by simp [hop])]
      rcases Rule.comparison_cases hinner.mem hop with ⟨s, w, imm, hcompares⟩ | hfloats
      · rcases hcompares.dst with ⟨hdst', horders'⟩ | ⟨⟨d, w', hdst'⟩, -⟩
        · obtain rfl : c = op.cond s := OpClass.flags.inj (hdst.symm.trans hdst')
          rw [horders', IrOp.order?_cond hop]
          refine follows_singleton (by simp) fun form hform => ?_
          rw [orders_of_jump hjump hbest hsmall hop htype hinner hcompares hdst hsrc1 hsrc2 hnone hone hform]
          rfl
        · cases hdst.symm.trans hdst'
      · rcases hfloats.dst with ⟨⟨c', s, hdst', hs⟩, horders'⟩ | ⟨⟨d, w', hdst'⟩, -⟩
        · rw [horders']
          exact follows_singleton (by simp) fun form hform =>
            absurd hform (form_eq_none_of_freg hinner hfloats.src1)
        · cases hdst.symm.trans hdst'
    · have hdivision : op.isDivision = false := by
        by_contra hdivision
        rcases Rule.division_cases hinner.mem (by simpa using hdivision) with ⟨s, w, hdivides⟩ | ⟨-, hsse, -⟩
        · obtain ⟨d, hdst'⟩ := hdivides.dst
          cases hdst.symm.trans hdst'
        · rw [hdst] at hsse
          cases hsse
      have hplain := husual.plain hbranch (by simpa using hop) hdivision
      have hc : c.order? = none := by simpa [hdst, OpClass.order?] using hplain.2
      rw [if_neg (by simp [hop, hdivision]), hplain.1, hc]
      exact .nil
  · rw [horders, List.append_nil]
    exact follows_of_child (follows_of_mem_ofTree hsmall.of_node.1) hbest.left hflags

end

/-! ### Roots -/

/-- Only registers are in the classes of registers, and nothing is a condition. -/
theorem OpClass.ofOperand_cases (h : c ∈ ofOperand o) :
    c ∈ ofRegister o.type ∨ c.isRegister = false ∧ c.isFlags = false := by
  obtain ⟨value, type, offset⟩ := o
  have hmemory : c ∈ ofMemory type → c.isRegister = false ∧ c.isFlags = false := by
    intro hc
    unfold ofMemory at hc
    split at hc <;> simp only [List.mem_cons, List.not_mem_nil, or_false] at hc
    all_goals first | (rw [hc]; exact ⟨rfl, rfl⟩) | (rcases hc with rfl | rfl <;> exact ⟨rfl, rfl⟩)
  cases value with
  | vreg v => exact .inl h
  | preg p => exact .inl h
  | slot n => exact .inr (hmemory h)
  | global x => exact .inr (hmemory h)
  | const n =>
    have hc : c ∈ ofConstant n type := h
    obtain ⟨s, w, rfl⟩ := exists_of_mem_ofConstant hc
    exact .inr ⟨rfl, rfl⟩
  | fconst x =>
    refine .inr ?_
    simp only [ofOperand] at h
    split at h <;> (rw [List.mem_singleton.mp h]; exact ⟨rfl, rfl⟩)
  | string n => exact .inr (by rw [List.mem_singleton.mp h]; exact ⟨rfl, rfl⟩)
  | label n => exact .inr (by rw [List.mem_singleton.mp h]; exact ⟨rfl, rfl⟩)
  | func x => exact .inr (by rw [List.mem_singleton.mp h]; exact ⟨rfl, rfl⟩)
  | none => cases h
  | param n => cases h

/-- A rule that may write the destination leaves no condition, and is as wide as it. -/
theorem Choices.writes_cases (h : writes dst c = true) :
    c.isFlags = false ∧ ∀ s w, c = .reg s w → ∃ d, dst = some d ∧ d.type.width? = some w := by
  cases dst with
  | none =>
    obtain rfl : c = .none := by simpa [writes] using h
    exact ⟨rfl, fun s w hc => absurd hc (by simp)⟩
  | some d =>
    have hmem : c ∈ OpClass.ofOperand d := by
      simp only [writes, Bool.and_eq_true, OpClass.holds, List.contains_iff_mem] at h
      exact h.2
    rcases OpClass.ofOperand_cases hmem with hreg | ⟨hreg, hflags⟩
    · have hregister := Selection.isRegister_of_mem_ofRegister hreg
      exact ⟨OpClass.isFlags_of_isRegister hregister,
        fun s w hc => ⟨d, rfl, Ty.width?_of_mem_ofRegister (hc ▸ hreg)⟩⟩
    · refine ⟨hflags, fun s w hc => ?_⟩
      rw [hc] at hreg
      cases hreg

/-- **The cover chosen for a tree goes by its comparisons and divisions.** -/
theorem follows_of_chosen (h : Selection.Chosen x86 dst t cover) (hsmall : t.Small)
    (htype : ∀ d, dst = some d → t.type = d.type) :
    Follows t.orders cover.orders := by
  obtain ⟨c, choice, hcheapest, rfl⟩ := h
  have hmem := (mem_of_cheapest hcheapest).1
  cases t with
  | absent => exact nomatch hmem
  | leaf o => exact nomatch hmem
  | node op type l r =>
    obtain ⟨rule, a, b, hwrites, heq, hbest⟩ := best_of_mem_ofRules hmem
    obtain ⟨rfl, rfl⟩ := Prod.mk.inj heq
    obtain ⟨hrule, hop, -⟩ := mem_forOp hbest.mem
    obtain ⟨op', hop', -⟩ := Rule.usual_of_mem hrule
    obtain rfl : op = .ir op' := hop.symm.trans hop'
    cases hbranch : op'.isBranch with
    | true => exact follows_of_jump hbranch hbest hsmall
    | false =>
      obtain ⟨hflags, hwidth⟩ := writes_cases hwrites
      refine follows_of_node hbest hsmall hbranch hflags (fun s w hdst => ?_)
        (follows_of_mem_ofTree hsmall.of_node.1) (follows_of_mem_ofTree hsmall.of_node.2)
      obtain ⟨d, hd, hw⟩ := hwidth s w hdst
      have hsame : type = d.type := htype d hd
      rw [hsame]
      exact hw

/-! ### Functions -/

/-- The signednesses that the instructions of code are for. -/
def ordersIn (code : List Instr) : List Signedness := code.filterMap (·.op.order?)

theorem ordersIn_append (code more : List Instr) : ordersIn (code ++ more) = ordersIn code ++ ordersIn more := by
  simp [ordersIn]

theorem ordersIn_of_opcodes {rules : List Rule} (h : Selection.opcodes code = Selection.opcodesOf rules) :
    ordersIn code = rules.flatMap Rule.orders := by
  have hnop : ∀ ops : List Opcode, (ops.filter (· != .ir .nop)).filterMap Opcode.order?
      = ops.filterMap Opcode.order? := by
    intro ops
    rw [List.filterMap_filter]
    congr 1
    funext op
    split
    · rfl
    · rename_i hop
      obtain rfl : op = .ir .nop := by simpa using hop
      rfl
  have hsame := congrArg (List.filterMap Opcode.order?) h
  rw [Selection.opcodes, Selection.opcodesOf, hnop, hnop, List.filterMap_map, List.filterMap_map,
    List.filterMap_flatMap] at hsame
  exact hsame

/-- The comparisons and divisions of an item, each with its form: those of its tree, or the one an
instruction of the machine is. -/
def Item.orders (fold : Bool) (item : Item) : List (Option Signedness) :=
  if item.merged then []
  else if Item.isSettled item.instr then (item.instr.op.order?.map some).toList
  else (Selection.prepare fold item.instr item.tree).orders

/-- A move out of a temporary depends on no signedness. -/
theorem orders_of_settles (h : Selection.Settles x86 dst cover) : cover.orders = [] := by
  obtain ⟨d, v, -, hchosen⟩ := h
  have hsmall : (Tree.ofInstr (.ir .move d (Operand.vreg v d.type) none)).Small := by
    show 1 + 1 + 0 < 2 ^ 55
    decide
  refine (follows_of_chosen hchosen hsmall fun d' hd' => ?_).eq_nil
  rw [← Option.some.inj hd']
  rfl

theorem Item.Rooted.type_prepare (h : item.Rooted) (fold : Bool) :
    ∀ d, item.instr.dst = some d → (Selection.prepare fold item.instr item.tree).type = d.type := by
  intro d hd
  obtain ⟨l, r, htree⟩ := h
  rw [Selection.type_prepare, htree, Tree.type, Tree.valueType, hd]

theorem Tree.Small.prepare (h : t.Small) (fold : Bool) (i : Instr) : (Selection.prepare fold i t).Small :=
  Nat.lt_of_le_of_lt (Selection.prunes_prepare fold i t).2 h

/-- The code for an item goes by its comparisons and divisions. -/
theorem follows_of_piece (hroot : item.Rooted) (hsmall : item.tree.Small) (h : Selection.Piece x86 fold n item new) :
    Follows (item.orders fold) (ordersIn new) := by
  unfold Item.orders
  cases h with
  | merged h =>
    rw [if_pos h]
    exact .nil
  | settled h hs =>
    rw [if_neg (by simp [h]), if_pos hs]
    have hop : ordersIn [item.instr.unlabelled] = item.instr.op.order?.toList := by
      simp only [ordersIn]
      cases horder : item.instr.op.order? <;> simp [Instr.unlabelled, horder]
    rw [hop]
    cases item.instr.op.order? with
    | none => exact .nil
    | some s => exact .known .nil
  | @selected h hs cover moves new hnew =>
    rw [if_neg (by simp [h]), if_neg (by simp [hs]), ordersIn_of_opcodes hnew.ops]
    have hmoves : moves.flatMap Cover.orders = [] := by
      rw [List.flatMap_eq_nil_iff]
      exact fun c hc => orders_of_settles (hnew.settles c hc)
    have horders : ((cover :: moves).flatMap Cover.rules).flatMap Rule.orders = cover.orders := by
      rw [List.flatMap_assoc]
      exact (congrArg (cover.orders ++ ·) hmoves).trans (List.append_nil _)
    rw [horders]
    exact follows_of_chosen hnew.chosen (hsmall.prepare fold item.instr) (hroot.type_prepare fold)

theorem follows_of_pieces (hitems : ∀ item ∈ items, item.Rooted ∧ item.tree.Small)
    (h : List.Forall₂ (Selection.Piece x86 fold n) items pieces) :
    Follows (items.flatMap (Item.orders fold)) (ordersIn pieces.flatten) := by
  induction h with
  | nil => exact .nil
  | cons hpiece _ ih =>
    rw [List.flatten_cons, ordersIn_append]
    obtain ⟨hroot, hsmall⟩ := hitems _ List.mem_cons_self
    exact (follows_of_piece hroot hsmall hpiece).append
      (ih fun item hitem => hitems item (List.mem_cons_of_mem _ hitem))

namespace Function

/-- The comparisons and divisions of a function, in order, each with its form. -/
def orders (f : Function) (options : SelectOptions) : List (Option Signedness) :=
  (f.items options).flatMap (Item.orders options.fold)

/--
**Comparisons and divisions are taken in the form that their operands ask for.**

Let a function be selected by the rules of the machine, with any options.  Then the instructions of the
code that depend on signedness are, in order, those for the comparisons and divisions of the trees of
the function, whether these end in a register or in a jump.  If the operands of one are integers of the
same type, its instruction is unsigned exactly if that type is, at least one of them is in a register
or computed on the spot, and, for a division, the result has the width of the type.

The trees are to be small enough for their costs to be words.
-/
theorem select_orders {f g : Function} {options : SelectOptions} {used : Array Nat}
    (hsmall : ∀ item ∈ f.items options, item.tree.size < 2 ^ 55)
    (h : (f.select RuleSet.x86 options).result = .ok (g, used)) :
    Follows (f.orders options) (ordersIn g.code) := by
  obtain ⟨pieces, hcode, hpieces⟩ := select_emits RuleSet.tidy_x86 h
  have hsame : ordersIn g.code = ordersIn pieces.flatten := by
    rw [← hcode, ordersIn, ordersIn, List.filterMap_map]
    rfl
  rw [hsame]
  exact follows_of_pieces (fun item hitem =>
    ⟨((f.renders_items options).2 item hitem).rooted, hsmall item hitem⟩) hpieces

theorem exists_of_toOption {ε α β : Type} {x : Except ε α} {observe : α → β} {b : β}
    (h : x.toOption.map observe = some b) : ∃ a, x = .ok a ∧ observe a = b := by
  obtain ⟨a, ha, hb⟩ := Option.map_eq_some_iff.mp h
  cases x with
  | error e => exact nomatch ha
  | ok a' =>
    obtain rfl := Option.some.inj ha
    exact ⟨a', rfl, hb⟩

/-- Two comparisons of unsigned integers: of two stack slots, and of a register with one of them. -/
def ranking : Function :=
  { Function.new "rank" .void [] with
    vregCount := 29
    stackSlots := 2
    code :=
      [.ir .lt (some (.vreg 27 .sint)) (some (.slot (-1) .uint)) (some (.slot (-2) .uint)),
       .ir .lt (some (.vreg 28 .sint)) (some (.vreg 29 .uint)) (some (.slot (-2) .uint))] }

set_option maxRecDepth 8000 in
theorem orders_select_ranking :
    (ranking.select x86 {}).result.toOption.map (fun p => ordersIn p.1.code)
      = some [.signed, .unsigned] := by
  decide +kernel

/-- The register makes the second comparison unsigned. -/
theorem ranking_orders : ranking.orders {} = [some .signed, some .unsigned] ∧
    (∀ item ∈ ranking.items {}, item.tree.size < 2 ^ 55) ∧
    ∃ g used, (ranking.select RuleSet.x86 {}).result = .ok (g, used) ∧
      Follows [some .signed, some .unsigned] (ordersIn g.code) := by
  have horders : ranking.orders {} = [some .signed, some .unsigned] := by decide
  obtain ⟨⟨g, used⟩, hselect, -⟩ := exists_of_toOption orders_select_ranking
  have hsmall : ∀ item ∈ ranking.items {}, item.tree.size < 2 ^ 55 := by decide
  refine ⟨horders, hsmall, g, used, hselect, ?_⟩
  rw [← horders]
  exact select_orders hsmall hselect

/-- Two unsigned integers in memory are compared as signed ones. -/
theorem ranking_slots_signed :
    (∃ i ∈ ranking.code, i.op = .ir .lt ∧ i.src1 = some (.slot (-1) .uint) ∧
      i.src2 = some (.slot (-2) .uint)) ∧
    ∃ g used, (ranking.select RuleSet.x86 {}).result = .ok (g, used) ∧
      (ordersIn g.code).head? = some .signed := by
  obtain ⟨⟨g, used⟩, hselect, horders⟩ := exists_of_toOption orders_select_ranking
  exact ⟨⟨_, List.mem_cons_self, rfl, rfl, rfl⟩, g, used, hselect, congrArg List.head? horders⟩

end Function

end Codegen
