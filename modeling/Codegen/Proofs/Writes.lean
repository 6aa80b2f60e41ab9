/-
What selected code writes.

Selection makes code for one item after another: none for one that is merged, the instruction itself for one
that is settled, and for any other the instructions of the rules that were applied.  `Made` keeps an item
together with its rules and its code.

The code of an item writes the destination, the registers that the rules fix, and registers handed out on the
way.  It writes every register that a rule fixes, and it writes the destination if that is a pseudo-register.
-/
import Codegen.Proofs.Inspection
import Codegen.Proofs.Items

namespace Codegen

open Selection

/-! ### The rules that are applied -/

variable {t : Tree} {cover : Cover} {c : OpClass} {set : RuleSet}

/-- The rules of a cover are leaf rules and rules for the operations of the tree. -/
def RulesFor (set : RuleSet) (t : Tree) (cover : Cover) : Prop :=
  ∀ r ∈ cover.rules, r ∈ set.rules ∧ (r.op = .ir .none ∨ r.op ∈ t.ops)

theorem RulesFor.node {op : Opcode} {l r : Tree} {rule : Rule} {a b : Cover} (hrule : rule ∈ set.forOp op)
    (ha : RulesFor set l a) (hb : RulesFor set r b) (type : Ty) :
    RulesFor set (.node op type l r) (.node rule type a b) := by
  intro r' hr'
  obtain ⟨hmem, hop, -⟩ := RuleSet.mem_forOp hrule
  rcases List.mem_append.mp hr' with hr' | hr'
  · rcases List.mem_append.mp hr' with hr' | hr'
    · exact (ha r' hr').imp_right (Or.imp_right fun h => List.mem_cons_of_mem _ (List.mem_append_left _ h))
    · exact (hb r' hr').imp_right (Or.imp_right fun h => List.mem_cons_of_mem _ (List.mem_append_right _ h))
  · obtain rfl := List.mem_singleton.mp hr'
    exact ⟨hmem, .inr (hop ▸ List.mem_cons_self)⟩

theorem Tiles.mem_rules (h : Tiles set t c cover) : RulesFor set t cover := by
  have hleaf : ∀ {c : OpClass} {r : Rule}, r ∈ set.leavesFrom c → r ∈ set.rules ∧ r.op = .ir .none := by
    intro c r hr
    simp only [RuleSet.leavesFrom, List.mem_filter, Bool.and_eq_true, Rule.isLeaf, beq_iff_eq] at hr
    exact ⟨hr.1, hr.2.1⟩
  induction h with
  | absent => exact fun r hr => (List.not_mem_nil hr).elim
  | leaf hc hr =>
    intro r' hr'
    obtain rfl := List.mem_singleton.mp hr'
    exact ⟨(hleaf hr).1, .inl (hleaf hr).2⟩
  | chain hinner hreg hrule ih =>
    intro r' hr'
    rcases List.mem_append.mp hr' with hr' | hr'
    · exact ih r' hr'
    · obtain rfl := List.mem_singleton.mp hr'
      exact ⟨(hleaf hrule).1, .inl (hleaf hrule).2⟩
  | node hrule hdst hl hr ha hb iha ihb => exact .node hrule iha ihb _

theorem Selection.Chosen.mem_rules {i : Instr} (h : Chosen set i.dst t cover) : RulesFor set t cover := by
  obtain ⟨op, type, l, r, rule, a, b, rfl, rfl, hrule, -, ha, hb⟩ := h.exists_node
  exact .node hrule ha.mem_rules hb.mem_rules type

/-! ### The code of an item -/

/-- The code made for an item, and the rules that were applied for it. -/
structure Made where
  item : Item
  rules : List Rule
  code : List Instr

namespace Made

/-- The instruction that code was made for. -/
def instr (m : Made) : Instr := m.item.instr

/-- The code and the rules are those that selection comes to for the item. -/
inductive Proper (set : RuleSet) (fold : Bool) (n : Int) : Made → Prop
  | merged {item : Item} (h : item.merged = true) : Proper set fold n ⟨item, [], []⟩
  | settled {item : Item} (h : item.merged = false) (hs : Item.isSettled item.instr = true) :
      Proper set fold n ⟨item, [], [item.instr.unlabelled]⟩
  | selected {item : Item} (h : item.merged = false) (hs : Item.isSettled item.instr = false) {cover : Cover}
      {moves : List Cover} {new : List Instr}
      (hnew : Emitted set n item.instr (prepare fold item.instr item.tree) cover moves new) :
      Proper set fold n ⟨item, (cover :: moves).flatMap Cover.rules, new⟩

variable {fold : Bool} {n v : Int} {m : Made} {j : Instr} {new : List Instr} {o : Operand} {r : Rule} {g : Reg}

theorem exists_of_piece {item : Item} (h : Piece set fold n item new) :
    ∃ m : Made, m.item = item ∧ m.code = new ∧ m.Proper set fold n := by
  cases h with
  | merged h => exact ⟨_, rfl, rfl, .merged h⟩
  | settled h hs => exact ⟨_, rfl, rfl, .settled h hs⟩
  | selected h hs hnew => exact ⟨_, rfl, rfl, .selected h hs hnew⟩

theorem exists_of_pieces {items : List Item} {pieces : List (List Instr)}
    (h : List.Forall₂ (Piece set fold n) items pieces) :
    ∃ made : List Made, made.map (·.item) = items ∧ made.flatMap (·.code) = pieces.flatten ∧
      ∀ m ∈ made, m.Proper set fold n := by
  induction h with
  | nil => exact ⟨[], rfl, rfl, fun _ hm => (List.not_mem_nil hm).elim⟩
  | cons hpiece _ ih =>
    obtain ⟨m, hitem, hcode, hproper⟩ := exists_of_piece hpiece
    obtain ⟨made, hitems, hcodes, hall⟩ := ih
    refine ⟨m :: made, by rw [List.map_cons, hitem, hitems], ?_, fun m' hm' => ?_⟩
    · rw [List.flatMap_cons, hcode, hcodes, List.flatten_cons]
    · rcases List.mem_cons.mp hm' with rfl | hm'
      · exact hproper
      · exact hall m' hm'

/-- The code goes to the destination, to what the rules fix, and to registers handed out on the way. -/
theorem Proper.targets (h : m.Proper set fold n) (hj : j ∈ m.code) (ho : j.dst = some o) :
    Target m.instr.dst m.rules n o := by
  cases h with
  | merged => exact (List.not_mem_nil hj).elim
  | settled =>
    rw [List.mem_singleton.mp hj] at ho
    exact .inl ho
  | selected _ _ hnew => exact hnew.targets j hj o ho

theorem Proper.writes (h : m.Proper set fold n) (hj : j ∈ m.code) (hv : j.defined? = some v) :
    m.instr.dst.bind (·.vregId?) = some v ∨
      (∃ r ∈ m.rules, ∃ g ∈ r.fixed, g.pseudo = v) ∨ n < v :=
  Target.of_defined? (fun _ ho => h.targets hj ho) hv

theorem Proper.fixes (h : m.Proper set fold n) (hr : r ∈ m.rules) (hg : g ∈ r.fixed) :
    ∃ j ∈ m.code, j.defined? = some g.pseudo := by
  cases h with
  | merged => exact (List.not_mem_nil hr).elim
  | settled => exact (List.not_mem_nil hr).elim
  | selected _ _ hnew => exact hnew.fixes r hr g hg

/-- The rules are leaf rules, moves, and rules for the operations of the tree. -/
theorem Proper.mem_rules (h : m.Proper set fold n) (hr : r ∈ m.rules) :
    r ∈ set.rules ∧ (r.op = .ir .none ∨ r.op = .ir .move ∨ r.op ∈ m.item.tree.ops) := by
  cases h with
  | merged => exact (List.not_mem_nil hr).elim
  | settled => exact (List.not_mem_nil hr).elim
  | selected _ _ hnew =>
    obtain ⟨cover, hcover, hrule⟩ := List.mem_flatMap.mp hr
    rcases List.mem_cons.mp hcover with rfl | hcover
    · obtain ⟨hmem, hop⟩ := hnew.chosen.mem_rules r hrule
      refine ⟨hmem, hop.imp_right fun hop => ?_⟩
      exact ((prunes_prepare _ _ _).1 _ hop).symm
    · obtain ⟨d, v, -, hchosen⟩ := hnew.settles cover hcover
      obtain ⟨hmem, hop⟩ := hchosen.mem_rules (i := .ir .move d (Operand.vreg v d.type) none) r hrule
      refine ⟨hmem, hop.imp_right fun hop => .inl ?_⟩
      simpa [Tree.ofInstr, Tree.ops, Item.ops_ofOperand, Instr.ir] using hop

theorem storesThroughDst_of_computes {op : Opcode} (h : op.computes = true) : op.storesThroughDst = false := by
  cases op with
  | ir op => cases op <;> simp_all [Opcode.computes, Opcode.storesThroughDst, Opcode.writesMemory]
  | machine op => simp [Opcode.computes, Opcode.isMachine] at h
  | unknown => rfl

/-- The code writes the destination if that is a pseudo-register. -/
theorem Proper.delivers (h : m.Proper set fold n) (hcomposed : m.item.Composed) (hmoved : m.item.Moved)
    (hv : m.instr.defined? = some v) (hpseudo : Reg.isPseudo v = true) :
    ∃ j ∈ m.code, j.defined? = some v := by
  cases h with
  | merged h =>
    obtain ⟨-, v', hv', hordinary⟩ := hmoved h
    obtain rfl : v = v' := Option.some.inj (hv.symm.trans hv')
    rw [hordinary] at hpseudo
    cases hpseudo
  | settled => exact ⟨_, List.mem_singleton_self _, hv⟩
  | @selected item _ _ _ _ _ hnew =>
    have hdst := Instr.dst_of_defined? hv
    have hne : v ≠ 0 := by
      rintro rfl
      cases hpseudo
    refine hnew.delivers ?_ v hdst hne
    -- all operations of the prepared tree deliver to the destination, the one at its root too
    have hroot : item.instr.op.storesThroughDst = false := by
      by_contra hstores
      have hnone : item.instr.defined? = none := by
        rw [Instr.defined?, if_pos (by simpa using hstores)]
      cases hnone.symm.trans hv
    obtain ⟨l, r, htree, hall⟩ := hcomposed
    have hops : ∀ op ∈ (prepare fold item.instr item.tree).ops, op.storesThroughDst = false := by
      intro op hop
      rcases (prunes_prepare _ _ _).1 _ hop with hop | rfl
      · rw [htree] at hop
        rcases List.mem_cons.mp hop with rfl | hop
        · exact hroot
        · exact storesThroughDst_of_computes (hall op hop)
      · rfl
    cases hprepared : prepare fold item.instr item.tree with
    | node op type l' r' => exact hops op (by rw [hprepared]; exact List.mem_cons_self)
    | _ => rfl

theorem Proper.code_of_marker (h : m.Proper RuleSet.x86 fold n) (hj : j ∈ m.code) (hop : j.op.isMarker = true)
    (hnop : j.op ≠ .ir .nop) : m.code = [m.instr.unlabelled] := by
  cases h with
  | merged => exact (List.not_mem_nil hj).elim
  | settled => rfl
  | selected h hs hnew =>
    have hmem : j.op ∈ opcodes _ := List.mem_filter.mpr ⟨List.mem_map_of_mem hj, by simpa using hnop⟩
    rw [hnew.ops] at hmem
    obtain ⟨mop, hmop, hop'⟩ := List.mem_map.mp (List.mem_filter.mp hmem).1
    obtain ⟨r, hr, hmop⟩ := List.mem_flatMap.mp hmop
    have hrule := (Proper.mem_rules (.selected h hs hnew) hr).1
    have hmachine := List.all_eq_true.mp (List.all_eq_true.mp RuleSet.machine_x86 r hrule) mop hmop
    rw [← hop'] at hop
    cases hmach : mop.op with
    | machine x => rw [hmach] at hop; exact nomatch hop
    | ir x => rw [hmach] at hmachine; exact nomatch hmachine
    | unknown x => rw [hmach] at hmachine; exact nomatch hmachine

end Made

namespace Function

/-- **The code of a selected function was made item by item.** -/
theorem select_made {f g : Function} {options : SelectOptions} {used : Array Nat}
    (h : (f.select RuleSet.x86 options).result = .ok (g, used)) :
    ∃ made : List Made, g.code.map Instr.unlabelled = made.flatMap (·.code) ∧
      made.map (·.item) = f.items options ∧
      ∀ m ∈ made, m.Proper RuleSet.x86 options.fold f.split.vregCount ∧ m.item.Composed ∧ m.item.Moved := by
  obtain ⟨pieces, hcode, hall⟩ := f.select_emits RuleSet.tidy_x86 h
  obtain ⟨made, hitems, hcodes, hproper⟩ := Made.exists_of_pieces hall
  refine ⟨made, hcode.trans hcodes.symm, hitems, fun m hm => ⟨hproper m hm, ?_, ?_⟩⟩
  · exact (f.renders_items options).2 _ (hitems ▸ List.mem_map_of_mem hm)
  · exact f.moved_items options _ (hitems ▸ List.mem_map_of_mem hm)

end Function

end Codegen
