/-
What the choices for a tree are.

`Tiles` says which covers a tree has, without a word about tables: every operation has a rule whose
operand classes are those of the covers of its operands, every leaf a leaf rule, and one leaf rule may
follow an operation.  Two facts are needed of the tables of choices.

  * A table holds only covers of its tree, with their costs as words.
  * What is offered to a table is never lost: from then on it has a choice for that class that is
    no worse, and so costs no more.
-/
import Codegen.Cover
import Mathlib.Tactic.Ring

namespace Codegen

/-- What the rules of a cover cost together. -/
def Cover.cost : Cover → Int
  | .absent => 0
  | .leaf rule _ => rule.cost.toInt
  | .node rule _ left right => rule.cost.toInt + left.cost + right.cost
  | .chain rule inner => inner.cost + rule.cost.toInt

/-- Is there an operand exactly if the rule asks for one? -/
def Tree.Supplies (t : Tree) (want : OpClass) : Prop := t.isAbsent = true ↔ want = .none

instance (t : Tree) (want : OpClass) : Decidable (t.Supplies want) :=
  inferInstanceAs (Decidable (t.isAbsent = true ↔ want = .none))

/-- A cover computes a tree below the root into a class: every operation has a rule of its own whose
result the type of the operation allows and whose operands come in the classes it asks for, every
leaf has a leaf rule from one of its classes, and one leaf rule may follow an operation whose result
is in a register. -/
inductive Tiles (set : RuleSet) : Tree → OpClass → Cover → Prop
  | absent : Tiles set .absent .none .absent
  | leaf {o : Operand} {c : OpClass} {rule : Rule} (hc : c ∈ OpClass.ofOperand o)
      (hrule : rule ∈ set.leavesFrom c) : Tiles set (.leaf o) rule.dst (.leaf rule o)
  | node {op : Opcode} {type : Ty} {l r : Tree} {rule : Rule} {a b : Cover}
      (hrule : rule ∈ set.forOp op) (hdst : rule.dst.compatible type = true)
      (hl : l.Supplies rule.src1) (hr : r.Supplies rule.src2)
      (ha : Tiles set l rule.src1 a) (hb : Tiles set r rule.src2 b) :
      Tiles set (.node op type l r) rule.dst (.node rule type a b)
  | chain {op : Opcode} {type : Ty} {l r : Tree} {rule first : Rule} {a b : Cover}
      (hinner : Tiles set (.node op type l r) first.dst (.node first type a b))
      (hreg : first.dst.isRegister = true) (hrule : rule ∈ set.leavesFrom first.dst) :
      Tiles set (.node op type l r) rule.dst (.chain rule (.node first type a b))

variable {c : OpClass} {set : RuleSet}

theorem Tiles.eq_absent {cover : Cover} (h : Tiles set .absent c cover) : c = .none ∧ cover = .absent := by
  cases h
  exact ⟨rfl, rfl⟩

theorem Tiles.compatible {op : Opcode} {type : Ty} {l r : Tree} {rule : Rule} {a b : Cover}
    (h : Tiles set (.node op type l r) c (.node rule type a b)) : c.compatible type = true := by
  cases h with
  | node _ hdst => exact hdst

/-- How many operations and operands a tree has. -/
def Tree.size : Tree → Nat
  | .absent => 0
  | .leaf _ => 1
  | .node _ _ l r => 1 + l.size + r.size

section cost

variable {t : Tree} {cover : Cover} {k : Int}

theorem Tiles.cost_nonneg (hcost : ∀ rule ∈ set.rules, 0 ≤ rule.cost.toInt) (h : Tiles set t c cover) :
    0 ≤ cover.cost := by
  induction h with
  | absent => exact Int.le_refl 0
  | leaf hc hrule => exact hcost _ (List.mem_filter.mp hrule).1
  | @node op type l r rule a b hrule hdst hl hr ha hb iha ihb =>
    have hpos := hcost rule (List.mem_filter.mp hrule).1
    show 0 ≤ rule.cost.toInt + a.cost + b.cost
    omega
  | @chain op type l r rule first a b hinner hreg hrule ih =>
    have hpos := hcost rule (List.mem_filter.mp hrule).1
    show 0 ≤ (Cover.node first type a b).cost + rule.cost.toInt
    omega

/-- A cover has at most two rules for each operation, its own and one that follows. -/
theorem Tiles.cost_le (hk : 0 ≤ k) (hcost : ∀ rule ∈ set.rules, rule.cost.toInt ≤ k) (h : Tiles set t c cover) :
    cover.cost ≤ k * (2 * t.size) := by
  suffices hall : (∀ rule type a b, cover = .node rule type a b → cover.cost + k ≤ k * (2 * t.size)) ∧
      cover.cost ≤ k * (2 * t.size) from hall.2
  induction h with
  | absent => exact ⟨by simp, by simp [Cover.cost, Tree.size]⟩
  | @leaf o c rule hc hrule =>
    refine ⟨by simp, ?_⟩
    have hle := hcost rule (List.mem_filter.mp hrule).1
    simp only [Cover.cost, Tree.size]
    omega
  | @node op type l r rule a b hrule hdst hl hr ha hb iha ihb =>
    have hle := hcost rule (List.mem_filter.mp hrule).1
    have hsplit : k * (2 * ((1 + l.size + r.size : Nat) : Int)) = 2 * k + k * (2 * l.size) + k * (2 * r.size) := by
      push_cast
      ring
    simp only [Cover.cost, Tree.size, hsplit]
    exact ⟨fun _ _ _ _ _ => by omega, by omega⟩
  | @chain op type l r rule first a b hinner hreg hrule ih =>
    refine ⟨by simp, ?_⟩
    have hle := hcost rule (List.mem_filter.mp hrule).1
    have hinner := ih.1 first type a b rfl
    show (Cover.node first type a b).cost + rule.cost.toInt ≤ _
    omega

end cost

/-- A choice covers a tree and leaves the value in a class; its cost is that of the cover, as a word. -/
structure Covers (set : RuleSet) (t : Tree) (c : OpClass) (a : Choice) : Prop where
  tiles : Tiles set t c a.cover
  cost : a.cost = .ofInt a.cover.cost

theorem Covers.toInt_cost {t : Tree} {a : Choice} (h : Covers set t c a) (hpos : 0 ≤ a.cover.cost)
    (hfits : a.cover.cost < 2 ^ 63) : a.cost.toInt = a.cover.cost := by
  rw [h.cost, Int64.toInt_ofInt_of_le (by omega) hfits]

theorem covers_absent (set : RuleSet) : Covers set .absent .none ⟨0, 0, .absent⟩ := ⟨.absent, rfl⟩

namespace Choice

/-- Cheaper, or as cheap and not later in the table. -/
def NoWorse (a b : Choice) : Prop :=
  a.cost.toInt < b.cost.toInt ∨ a.cost.toInt = b.cost.toInt ∧ a.index ≤ b.index

variable {a b c : Choice}

theorem NoWorse.refl (a : Choice) : a.NoWorse a := .inr ⟨rfl, Nat.le_refl _⟩

theorem NoWorse.trans (h : a.NoWorse b) (h' : b.NoWorse c) : a.NoWorse c := by
  unfold NoWorse at *
  omega

theorem NoWorse.cost_le (h : a.NoWorse b) : a.cost.toInt ≤ b.cost.toInt := by
  unfold NoWorse at h
  omega

theorem noWorse_best (new old : Choice) :
    (if new.better old then new else old).NoWorse new ∧
      (if new.better old then new else old).NoWorse old := by
  simp only [better, NoWorse, ← Int64.toInt_inj, Int64.lt_iff_toInt_lt]
  by_cases hsame : new.cost.toInt = old.cost.toInt
  · by_cases hindex : new.index < old.index
    · simp [hsame, hindex]
      omega
    · simp [hsame, hindex]
      omega
  · by_cases hless : new.cost.toInt < old.cost.toInt
    · simp [hsame, hless]
    · simp [hsame, hless]
      omega

end Choice

namespace Choices

/-! ### One offer -/

variable {a new b : Choice} {want : OpClass} {cs lc rc : Choices} {k k' : Int} {β : Type} {l r t : Tree} {op : Opcode}
  {type : Ty} {e : OpClass × Choice} {accepts : OpClass → Bool} {o : Operand} {rule : Rule} {dst : Option Operand}
  {step : Choices → β → Choices} {bs : List β}

theorem mem_of_get? (h : cs.get? c = some a) : (c, a) ∈ cs := by
  obtain ⟨⟨k, b⟩, hfind, rfl⟩ := Option.map_eq_some_iff.mp h
  have hk : k = c := by simpa using List.find?_some hfind
  rw [← hk]
  exact List.mem_of_find?_eq_some hfind

theorem mem_offer (h : e ∈ cs.offer c new) : e ∈ cs ∨ e = (c, new) := by
  induction cs with
  | nil => exact .inr (List.mem_singleton.mp h)
  | cons first rest ih =>
    obtain ⟨k, old⟩ := first
    rw [offer] at h
    by_cases hk : (k == c) = true
    · rw [if_pos hk] at h
      rw [beq_iff_eq] at hk
      rcases List.mem_cons.mp h with rfl | h
      · by_cases hb : new.better old = true
        · exact .inr (by simp [hb, hk])
        · exact .inl (by simp [hb])
      · exact .inl (List.mem_cons_of_mem _ h)
    · rw [if_neg hk] at h
      rcases List.mem_cons.mp h with rfl | h
      · exact .inl List.mem_cons_self
      · exact (ih h).imp_left (List.mem_cons_of_mem _)

theorem keys_offer (cs : Choices) (c : OpClass) (new : Choice) :
    (cs.offer c new).map (·.1) = if c ∈ cs.map (·.1) then cs.map (·.1) else cs.map (·.1) ++ [c] := by
  induction cs with
  | nil => simp [offer]
  | cons first rest ih =>
    obtain ⟨k, old⟩ := first
    rw [offer]
    by_cases hk : k = c
    · simp [hk]
    · rw [if_neg (by simpa using hk), List.map_cons, ih]
      by_cases hc : c ∈ rest.map (·.1)
      · have hmem : c ∈ ((k, old) :: rest).map (·.1) := List.mem_cons_of_mem _ hc
        rw [if_pos hc, if_pos hmem]
        rfl
      · have hmem : c ∉ ((k, old) :: rest).map (·.1) := fun h =>
          (List.mem_cons.mp h).elim (fun h => hk h.symm) hc
        rw [if_neg hc, if_neg hmem]
        rfl

theorem nodup_offer (h : (cs.map (·.1)).Nodup) (c : OpClass) (new : Choice) :
    ((cs.offer c new).map (·.1)).Nodup := by
  rw [keys_offer]
  split
  · exact h
  · rename_i hc
    refine List.nodup_append.mpr ⟨h, by simp, fun k hk c' hc' hkc => hc ?_⟩
    rwa [← List.mem_singleton.mp hc', ← hkc]

theorem get?_cons (k : OpClass) (a : Choice) (rest : Choices) (c : OpClass) :
    get? ((k, a) :: rest) c = if k = c then some a else get? rest c := by
  by_cases hk : k = c
  · simp [get?, hk]
  · simp [get?, hk]

theorem get?_of_mem (h : (cs.map (·.1)).Nodup) (he : e ∈ cs) : cs.get? e.1 = some e.2 := by
  induction cs with
  | nil => exact nomatch he
  | cons first rest ih =>
    obtain ⟨k, old⟩ := first
    rw [get?_cons]
    rw [List.map_cons, List.nodup_cons] at h
    rcases List.mem_cons.mp he with rfl | he
    · exact if_pos rfl
    · have hne : k ≠ e.1 := fun hk => h.1 (List.mem_map.mpr ⟨e, he, hk.symm⟩)
      rw [if_neg hne]
      exact ih h.2 he

/-- There is a choice for a class that is no worse than `a`. -/
def Has (cs : Choices) (c : OpClass) (a : Choice) : Prop := ∃ b, cs.get? c = some b ∧ b.NoWorse a

theorem has_offer_self (cs : Choices) (c : OpClass) (new : Choice) : Has (cs.offer c new) c new := by
  induction cs with
  | nil => exact ⟨new, by simp [offer, get?], .refl new⟩
  | cons first rest ih =>
    obtain ⟨k, old⟩ := first
    rw [offer]
    by_cases hk : k = c
    · rw [if_pos (by simp [hk])]
      exact ⟨_, by rw [get?_cons, if_pos hk], (Choice.noWorse_best new old).1⟩
    · rw [if_neg (by simp [hk])]
      unfold Has
      rw [get?_cons, if_neg hk]
      exact ih

theorem Has.offer (h : Has cs c a) (c' : OpClass) (new : Choice) : Has (cs.offer c' new) c a := by
  induction cs with
  | nil => obtain ⟨b, hb, -⟩ := h; simp [get?] at hb
  | cons first rest ih =>
    obtain ⟨k, old⟩ := first
    unfold Has at h ⊢
    rw [get?_cons] at h
    rw [Choices.offer]
    by_cases hk : k = c'
    · rw [if_pos (by simp [hk]), get?_cons]
      by_cases hc : k = c
      · rw [if_pos hc] at h ⊢
        obtain ⟨b, hb, hle⟩ := h
        obtain rfl := Option.some.inj hb
        exact ⟨_, rfl, (Choice.noWorse_best new old).2.trans hle⟩
      · rw [if_neg hc] at h ⊢
        exact h
    · rw [if_neg (by simp [hk]), get?_cons]
      by_cases hc : k = c
      · rw [if_pos hc] at h ⊢
        exact h
      · rw [if_neg hc] at h ⊢
        exact ih h

/-- There is a choice for a class that costs no more than `k`. -/
def Within (cs : Choices) (c : OpClass) (k : Int) : Prop := ∃ a, cs.get? c = some a ∧ a.cost.toInt ≤ k

theorem Within.mono (h : Within cs c k) (hk : k ≤ k') : Within cs c k' := by
  obtain ⟨a, ha, hcost⟩ := h
  exact ⟨a, ha, Int.le_trans hcost hk⟩

theorem Has.within (h : Has cs c a) : Within cs c a.cost.toInt := by
  obtain ⟨b, hb, hle⟩ := h
  exact ⟨b, hb, hle.cost_le⟩

/-! ### Many offers -/

/-- What holds of every choice stays true as long as it holds of what each step adds. -/
theorem forall_foldl {P : OpClass × Choice → Prop} (hstep : ∀ b ∈ bs, ∀ cs, (∀ e ∈ cs, P e) → ∀ e ∈ step cs b, P e)
    (cs : Choices) (h : ∀ e ∈ cs, P e) : ∀ e ∈ bs.foldl step cs, P e := by
  induction bs generalizing cs with
  | nil => exact h
  | cons b bs ih =>
    exact ih (fun b' hb' => hstep b' (List.mem_cons_of_mem _ hb')) _
      (hstep b List.mem_cons_self cs h)

/-- A choice that is there stays, or gives way to a better one. -/
theorem Has.foldl (hstep : ∀ cs b, Has cs c a → Has (step cs b) c a) (bs : List β) (h : Has cs c a) :
    Has (bs.foldl step cs) c a := by
  induction bs generalizing cs with
  | nil => exact h
  | cons b bs ih => exact ih (hstep cs b h)

theorem has_foldl {b : β} (hstep : ∀ cs b, Has cs c a → Has (step cs b) c a) (hb : b ∈ bs)
    (hadd : ∀ cs, Has (step cs b) c a) (cs : Choices) : Has (bs.foldl step cs) c a := by
  induction bs generalizing cs with
  | nil => simp at hb
  | cons b' bs ih =>
    rcases List.mem_cons.mp hb with rfl | hb
    · exact Has.foldl hstep bs (hadd cs)
    · exact ih hb (step cs b')

/-! ### Leaves -/

/-- The choices for an operand are leaf rules from its classes. -/
theorem exists_of_mem_ofOperand (h : e ∈ ofOperand set o) :
    ∃ c ∈ OpClass.ofOperand o, ∃ rule ∈ set.leavesFrom c, e = (rule.dst, ⟨rule.cost, rule.index, .leaf rule o⟩) := by
  suffices hall : ∀ e ∈ ofOperand set o, ∃ c ∈ OpClass.ofOperand o, ∃ rule ∈ set.leavesFrom c,
      e = (rule.dst, ⟨rule.cost, rule.index, .leaf rule o⟩) from hall e h
  refine forall_foldl (fun c hc cs hcs => ?_) [] (by simp)
  refine forall_foldl (fun rule hrule cs hcs e he => ?_) cs hcs
  rcases mem_offer he with he | rfl
  · exact hcs e he
  · exact ⟨c, hc, rule, hrule, rfl⟩

theorem Has.offerLeaves (h : Has cs c a) (o : Operand) (c' : OpClass) :
    Has (Choices.offerLeaves set o cs c') c a :=
  Has.foldl (fun _ r hcs => hcs.offer r.dst _) _ h

/-- Every leaf rule for a class of an operand is considered. -/
theorem within_ofOperand {r : Rule} (hc : c ∈ OpClass.ofOperand o) (hr : r ∈ set.leavesFrom c) :
    Within (ofOperand set o) r.dst r.cost.toInt := by
  suffices hhas : Has ((OpClass.ofOperand o).foldl (offerLeaves set o) []) r.dst
      ⟨r.cost, r.index, .leaf r o⟩ from hhas.within
  refine has_foldl (fun _ c' h => h.offerLeaves o c') hc (fun cs => ?_) []
  refine has_foldl (fun _ r' h => h.offer r'.dst _) hr (fun cs => ?_) cs
  exact has_offer_self cs r.dst ⟨r.cost, r.index, .leaf r o⟩

/-! ### Operations -/

/-- The choice of a rule, given those of its operands. -/
def ofRule (type : Ty) (rule : Rule) (a b : Choice) : Choice :=
  ⟨rule.cost + a.cost + b.cost, rule.index, .node rule type a.cover b.cover⟩

/-- The choices by the rules of an operation are made of choices for its operands. -/
theorem exists_of_mem_ofRules (h : e ∈ ofRules set op type l r lc rc accepts) :
    ∃ rule ∈ set.forOp op, accepts rule.dst = true ∧ ∃ a b, child l lc rule.src1 = some a ∧
      child r rc rule.src2 = some b ∧ e = (rule.dst, ofRule type rule a b) := by
  suffices hall : ∀ e ∈ ofRules set op type l r lc rc accepts,
      ∃ rule ∈ set.forOp op, accepts rule.dst = true ∧ ∃ a b, child l lc rule.src1 = some a ∧
        child r rc rule.src2 = some b ∧ e = (rule.dst, ofRule type rule a b) from hall e h
  refine forall_foldl (fun rule hrule cs hcs e he => ?_) [] (by simp)
  unfold offerRule at he
  cases haccepts : accepts rule.dst with
  | false => simp only [haccepts, Bool.not_false, if_true] at he; exact hcs e he
  | true =>
    simp only [haccepts, Bool.not_true, Bool.false_eq_true, if_false] at he
    cases ha : child l lc rule.src1 with
    | none => simp only [ha] at he; exact hcs e he
    | some a =>
      cases hb : child r rc rule.src2 with
      | none => simp only [ha, hb] at he; exact hcs e he
      | some b =>
        simp only [ha, hb] at he
        rcases mem_offer he with he | rfl
        · exact hcs e he
        · exact ⟨rule, hrule, haccepts, a, b, ha, hb, rfl⟩

theorem Has.offerRule (h : Has cs c a) (type : Ty) (l r : Tree) (lc rc : Choices) (accepts : OpClass → Bool)
    (rule : Rule) : Has (Choices.offerRule type l r lc rc accepts cs rule) c a := by
  unfold Choices.offerRule
  split
  · exact h
  · split
    · exact h
    · split
      · exact h
      · exact h.offer _ _

theorem has_ofRules (hrule : rule ∈ set.forOp op) (haccepts : accepts rule.dst = true)
    (ha : child l lc rule.src1 = some a) (hb : child r rc rule.src2 = some b) :
    Has (ofRules set op type l r lc rc accepts) rule.dst (ofRule type rule a b) := by
  refine has_foldl (fun _ _ h => h.offerRule type l r lc rc accepts _) hrule (fun cs => ?_) []
  have hoffer : offerRule type l r lc rc accepts cs rule =
      cs.offer rule.dst (ofRule type rule a b) := by
    simp [offerRule, haccepts, ha, hb, ofRule]
  rw [hoffer]
  exact has_offer_self cs rule.dst (ofRule type rule a b)

theorem within_ofRules (hrule : rule ∈ set.forOp op) (haccepts : accepts rule.dst = true)
    (ha : child l lc rule.src1 = some a) (hb : child r rc rule.src2 = some b) :
    Within (ofRules set op type l r lc rc accepts) rule.dst (rule.cost + a.cost + b.cost).toInt :=
  (has_ofRules hrule haccepts ha hb).within

theorem nodup_ofRules (op : Opcode) (type : Ty) (l r : Tree) (lc rc : Choices)
    (accepts : OpClass → Bool) : ((ofRules set op type l r lc rc accepts).map (·.1)).Nodup := by
  unfold ofRules
  suffices hall : ∀ cs : Choices, (cs.map (·.1)).Nodup →
      (((set.forOp op).foldl (offerRule type l r lc rc accepts) cs).map (·.1)).Nodup from hall [] (by simp)
  induction set.forOp op with
  | nil => exact fun cs h => h
  | cons rule rules ih =>
    intro cs h
    refine ih _ ?_
    unfold offerRule
    split
    · exact h
    · split
      · exact h
      · split
        · exact h
        · exact nodup_offer h _ _

/-- A rule for an operation, with choices for its operands, that no rule for the same class beats. -/
structure Best (set : RuleSet) (op : Opcode) (type : Ty) (l r : Tree) (rule : Rule) (a b : Choice) :
    Prop where
  mem : rule ∈ set.forOp op
  left : child l (ofTree set l) rule.src1 = some a
  right : child r (ofTree set r) rule.src2 = some b
  noWorse : ∀ rule' ∈ set.forOp op, rule'.dst = rule.dst → ∀ a' b',
    child l (ofTree set l) rule'.src1 = some a' → child r (ofTree set r) rule'.src2 = some b' →
      (ofRule type rule a b).NoWorse (ofRule type rule' a' b')

/-- **The choices by the rules of an operation are the best ones.** -/
theorem best_of_mem_ofRules (h : e ∈ ofRules set op type l r (ofTree set l) (ofTree set r) accepts) :
    ∃ rule a b, accepts rule.dst = true ∧ e = (rule.dst, ofRule type rule a b) ∧
      Best set op type l r rule a b := by
  obtain ⟨rule, hrule, hdst, a, b, ha, hb, rfl⟩ := exists_of_mem_ofRules h
  refine ⟨rule, a, b, hdst, rfl, hrule, ha, hb, fun rule' hrule' hsame a' b' ha' hb' => ?_⟩
  have hhas : Has (ofRules set op type l r (ofTree set l) (ofTree set r) accepts) rule'.dst
      (ofRule type rule' a' b') := has_ofRules hrule' (hsame ▸ hdst) ha' hb'
  obtain ⟨best, hget, hle⟩ := hhas
  rw [hsame, get?_of_mem (nodup_ofRules ..) h] at hget
  obtain rfl := Option.some.inj hget
  exact hle

theorem covers_of_child (hcs : ∀ e ∈ cs, Covers set t e.1 e.2) (h : child t cs want = some a) :
    t.Supplies want ∧ Covers set t want a := by
  unfold child at h
  cases t with
  | absent =>
    simp only [Tree.isAbsent, if_true] at h
    split at h
    · rename_i hwant
      obtain rfl := beq_iff_eq.mp hwant
      obtain rfl := Option.some.inj h
      exact ⟨⟨fun _ => rfl, fun _ => rfl⟩, covers_absent set⟩
    · simp at h
  | _ =>
    simp only [Tree.isAbsent, Bool.false_eq_true, if_false] at h
    split at h
    · simp at h
    · rename_i hwant
      refine ⟨⟨fun hc => ?_, fun hc => absurd hc (by simpa using hwant)⟩, hcs (want, a) (mem_of_get? h)⟩
      exact absurd hc (by simp [Tree.isAbsent])

theorem cost_ofRule {t' : Tree} {c' : OpClass} (ha : Covers set t c a) (hb : Covers set t' c' b) (type : Ty)
    (rule : Rule) : (ofRule type rule a b).cost = .ofInt (ofRule type rule a b).cover.cost := by
  show rule.cost + a.cost + b.cost = .ofInt (rule.cost.toInt + a.cover.cost + b.cover.cost)
  rw [ha.cost, hb.cost, Int64.ofInt_add, Int64.ofInt_add, Int64.ofInt_toInt]

theorem Within.exists_child (h : Within cs want k) (ht : t.isAbsent = false) (hwant : want ≠ .none) :
    ∃ a, child t cs want = some a ∧ a.cost.toInt ≤ k := by
  obtain ⟨a, ha, hcost⟩ := h
  exact ⟨a, by simp [child, ht, hwant, ha], hcost⟩

theorem child_absent (cs : Choices) : child .absent cs .none = some ⟨0, 0, .absent⟩ := rfl

/-- The choice of a leaf rule that follows a result. -/
def ofChain (rule : Rule) (a : Choice) : Choice := ⟨a.cost + rule.cost, rule.index, .chain rule a.cover⟩

theorem Has.offerChains (h : Has cs c a) (base : OpClass × Choice) :
    Has (Choices.offerChains set cs base) c a := by
  unfold Choices.offerChains
  split
  · refine Has.foldl (fun cs r hcs => ?_) _ h
    split
    · exact hcs
    · exact hcs.offer _ _
  · exact h

/-! ### Whole trees -/

/-- The choices for an operation by its own rules, below the root. -/
def base (set : RuleSet) (op : Opcode) (type : Ty) (l r : Tree) : Choices :=
  ofRules set op type l r (ofTree set l) (ofTree set r) (·.compatible type)

section

variable {b : OpClass × Choice}

/-- A choice for an operation is one by its own rules, or a leaf rule that follows one. -/
theorem mem_ofTree_node (h : e ∈ ofTree set (.node op type l r)) :
    e ∈ base set op type l r ∨ ∃ b ∈ base set op type l r, b.1.isRegister = true ∧
      ∃ rule ∈ set.leavesFrom b.1, rule.dst ≠ rule.src1 ∧ e = (rule.dst, ofChain rule b.2) := by
  suffices hall : ∀ e ∈ (base set op type l r).foldl (offerChains set) (base set op type l r),
      e ∈ base set op type l r ∨ ∃ b ∈ base set op type l r, b.1.isRegister = true ∧
        ∃ rule ∈ set.leavesFrom b.1, rule.dst ≠ rule.src1 ∧ e = (rule.dst, ofChain rule b.2) from
    hall e h
  refine forall_foldl (fun b hb cs hcs => ?_) _ fun e he => .inl he
  unfold offerChains
  split
  · rename_i hreg
    refine forall_foldl (fun rule hrule cs hcs e he => ?_) cs hcs
    split at he
    · exact hcs e he
    · rename_i hne
      rcases mem_offer he with he | rfl
      · exact hcs e he
      · exact .inr ⟨b, hb, hreg, rule, hrule, by simpa using hne, rfl⟩
  · exact hcs

/-- A choice by the rules of an operation covers it, if the choices for the operands cover these. -/
theorem covers_of_mem_base (hl : ∀ e ∈ ofTree set l, Covers set l e.1 e.2)
    (hr : ∀ e ∈ ofTree set r, Covers set r e.1 e.2) (he : e ∈ base set op type l r) :
    ∃ (rule : Rule) (a b : Choice), e = (rule.dst, ofRule type rule a b) ∧
      Covers set (.node op type l r) rule.dst (ofRule type rule a b) := by
  obtain ⟨rule, hrule, hdst, a, b, ha, hb, rfl⟩ := exists_of_mem_ofRules he
  obtain ⟨hsupplies, ha⟩ := covers_of_child hl ha
  obtain ⟨hsupplies', hb⟩ := covers_of_child hr hb
  exact ⟨rule, a, b, rfl, .node hrule hdst hsupplies hsupplies' ha.tiles hb.tiles, cost_ofRule ha hb type rule⟩

theorem covers_ofChain {first : Rule} {b : Choice}
    (h : Covers set (.node op type l r) first.dst (ofRule type first a b)) (hreg : first.dst.isRegister = true)
    (hrule : rule ∈ set.leavesFrom first.dst) :
    Covers set (.node op type l r) rule.dst (ofChain rule (ofRule type first a b)) := by
  refine ⟨.chain h.tiles hreg hrule, ?_⟩
  show (ofRule type first a b).cost + rule.cost = .ofInt ((ofRule type first a b).cover.cost + rule.cost.toInt)
  rw [h.cost, Int64.ofInt_add, Int64.ofInt_toInt]

/-- **The choices for a tree cover it.** -/
theorem covers_of_mem_ofTree : ∀ e ∈ ofTree set t, Covers set t e.1 e.2 := by
  induction t with
  | absent => simp [ofTree]
  | leaf o =>
    intro e he
    obtain ⟨c, hc, rule, hrule, rfl⟩ := exists_of_mem_ofOperand he
    exact ⟨.leaf hc hrule, (Int64.ofInt_toInt _).symm⟩
  | node op type l r ihl ihr =>
    intro e he
    rcases mem_ofTree_node he with he | ⟨inner, hinner, hreg, rule, hrule, -, rfl⟩
    · obtain ⟨rule, a, b, rfl, hcovers⟩ := covers_of_mem_base ihl ihr he
      exact hcovers
    · obtain ⟨first, a, b, rfl, hcovers⟩ := covers_of_mem_base ihl ihr hinner
      exact covers_ofChain hcovers hreg hrule

/-- Whatever the rules of an operation give is among the choices for its tree. -/
theorem Has.ofTree (h : Has (base set op type l r) c a) : Has (Choices.ofTree set (.node op type l r)) c a :=
  Has.foldl (fun _ b hcs => hcs.offerChains b) _ h

theorem Within.ofTree (h : Within (base set op type l r) c k) :
    Within (Choices.ofTree set (.node op type l r)) c k := by
  obtain ⟨a, ha, hcost⟩ := h
  have hhas : Has (base set op type l r) c a := ⟨a, ha, .refl a⟩
  exact hhas.ofTree.within.mono hcost

theorem has_chain (hb : b ∈ base set op type l r) (hreg : b.1.isRegister = true) (hrule : rule ∈ set.leavesFrom b.1)
    (hne : rule.dst ≠ rule.src1) : Has (Choices.ofTree set (.node op type l r)) rule.dst (ofChain rule b.2) := by
  refine has_foldl (fun _ b' hcs => hcs.offerChains b') hb (fun cs => ?_) _
  unfold offerChains
  rw [if_pos hreg]
  refine has_foldl (fun cs r' hcs => ?_) hrule (fun cs => ?_) cs
  · split
    · exact hcs
    · exact hcs.offer _ _
  · rw [if_neg (by simpa using hne)]
    exact has_offer_self cs rule.dst (ofChain rule b.2)

end

/-! ### The best choice -/

theorem foldl_better (rest : Choices) (first : OpClass × Choice) :
    let best := rest.foldl (fun best new => if new.2.better best.2 then new else best) first
    best ∈ first :: rest ∧ ∀ e ∈ first :: rest, best.2.NoWorse e.2 := by
  induction rest generalizing first with
  | nil => simp [Choice.NoWorse.refl]
  | cons new rest ih =>
    have hbest := Choice.noWorse_best new.2 first.2
    simp only [List.foldl_cons]
    by_cases hb : new.2.better first.2 = true
    · rw [if_pos hb] at hbest ⊢
      obtain ⟨hmem, hle⟩ := ih new
      refine ⟨List.mem_cons_of_mem _ hmem, fun e he => ?_⟩
      rcases List.mem_cons.mp he with rfl | he
      · exact (hle new List.mem_cons_self).trans hbest.2
      · exact hle e he
    · rw [if_neg hb] at hbest ⊢
      obtain ⟨hmem, hle⟩ := ih first
      refine ⟨?_, fun e he => ?_⟩
      · rcases List.mem_cons.mp hmem with h | h
        · exact List.mem_cons.mpr (.inl h)
        · exact List.mem_cons_of_mem _ (List.mem_cons_of_mem _ h)
      · rcases List.mem_cons.mp he with rfl | he
        · exact hle e List.mem_cons_self
        · rcases List.mem_cons.mp he with rfl | he
          · exact (hle first List.mem_cons_self).trans hbest.1
          · exact hle e (List.mem_cons_of_mem _ he)

theorem mem_of_cheapest (h : cs.cheapest = some e) : e ∈ cs ∧ ∀ e' ∈ cs, e.2.NoWorse e'.2 := by
  cases cs with
  | nil => exact nomatch h
  | cons first rest =>
    obtain rfl := Option.some.inj h
    exact foldl_better rest first

theorem exists_cheapest (h : Within cs c k) : ∃ e, cs.cheapest = some e ∧ e ∈ cs ∧ e.2.cost.toInt ≤ k := by
  obtain ⟨a, ha, hcost⟩ := h
  cases cs with
  | nil => simp [get?] at ha
  | cons first rest =>
    obtain ⟨hmem, hle⟩ := foldl_better rest first
    exact ⟨_, rfl, hmem, Int.le_trans (hle _ (mem_of_get? ha)).cost_le hcost⟩

/-- The choices for a root are made of covers of its operands. -/
theorem exists_of_mem_ofRoot (h : e ∈ ofRoot set dst (.node op type l r)) :
    ∃ rule ∈ set.forOp op, writes dst rule.dst = true ∧ ∃ a b, Covers set l rule.src1 a ∧
      Covers set r rule.src2 b ∧ e = (rule.dst, ofRule type rule a b) := by
  obtain ⟨rule, hrule, hdst, a, b, ha, hb, rfl⟩ := exists_of_mem_ofRules h
  exact ⟨rule, hrule, hdst, a, b, (covers_of_child covers_of_mem_ofTree ha).2,
    (covers_of_child covers_of_mem_ofTree hb).2, rfl⟩

end Choices

end Codegen
