/-
The items of a function.

Merging only marks items and rewrites trees below their roots.  So the items of a function, whatever the
options, are its instructions in order once results that go to memory have been split, and each item has
the operation and the type of its instruction at the root of its tree, with operations that only compute
below it.  Preparing the tree keeps the type and adds no operations but moves.
-/
import Codegen.Proofs.Emission
import Codegen.Proofs.Merge

namespace Codegen

/-! ### The operations of trees -/

/-- The operations of a tree, the root's first. -/
def Tree.ops : Tree → List Opcode
  | .absent => []
  | .leaf _ => []
  | .node op _ l r => op :: (l.ops ++ r.ops)

/-- Does the operation only compute a value? -/
def Opcode.computes (op : Opcode) : Bool :=
  !(op.isMarker || op.isJump || op.isMachine || op.writesMemory)

namespace Item

variable {i user : Instr} {f : Function} {options : SelectOptions} {t t' : Tree} {e : List Item}

theorem computes_of_isPure (h : isPure i = true) : i.op.computes = true := by
  simp only [isPure, Bool.and_eq_true, Bool.not_eq_true', Bool.or_eq_false_iff] at h
  obtain ⟨-, ⟨⟨⟨hmarker, hjump⟩, hmachine⟩, hmemory⟩, -⟩ := h
  simp [Opcode.computes, hmarker, hjump, hmachine, hmemory]

/-- The tree of an item has the operation and the type of its instruction at the root, and operations that
only compute below it. -/
def Composed (item : Item) : Prop :=
  ∃ l r, item.tree = .node item.instr.op (Tree.valueType item.instr) l r ∧
    ∀ op ∈ l.ops ++ r.ops, op.computes = true

theorem Composed.rooted {item : Item} (h : item.Composed) : item.Rooted := by
  obtain ⟨l, r, htree, -⟩ := h
  exact ⟨l, r, htree⟩

/-- All operations of a tree that may be merged only compute. -/
theorem Composed.computes {item : Item} (h : item.Composed) (hpure : isPure item.instr = true) :
    ∀ op ∈ item.tree.ops, op.computes = true := by
  obtain ⟨l, r, htree, hall⟩ := h
  intro op hop
  rw [htree] at hop
  rcases List.mem_cons.mp hop with rfl | hop
  · exact computes_of_isPure hpure
  · exact hall op hop

/-! ### Merging -/

section

variable {m : MergeInfo} {P : Item → Prop} {block : List Instr}

/-- What holds of each item that is added, given that it holds of those before it, holds of all the items of a
block, whether or not trees are merged. -/
theorem forall_itemsOf (options : SelectOptions)
    (hmark : ∀ {user v between d}, d.instr.defined? = some v → canMerge m user v between d = true → P d →
      P { d with merged := true })
    (hnew : ∀ {i t e e'}, i ∈ block → (∀ item ∈ e, P item) → Grafted m i (.ofInstr i) e t e' →
      P { instr := i, tree := t }) : ∀ item ∈ Selection.itemsOf options m block, P item := by
  intro item hitem
  unfold Selection.itemsOf at hitem
  split at hitem
  · exact forall_mergeBlock hmark hnew item hitem
  · obtain ⟨i, hi, rfl⟩ := List.mem_map.mp hitem
    exact hnew (e := []) hi (fun _ h => nomatch h) (.keep _ _)

end

/-- What merging knows of a function whose results go to registers first. -/
def infoOf (f : Function) (options : SelectOptions) : MergeInfo :=
  ⟨f.split.code, f.split.blocks, options.liveOut⟩

/-- **What holds of each item that is added, given that it holds of those before it, holds of all the items of
a function.** -/
theorem forall_items {P : Item → Prop} (hmark : ∀ {user v between d}, d.instr.defined? = some v →
      canMerge (infoOf f options) user v between d = true → P d → P { d with merged := true })
    (hnew : ∀ {i t e e'}, i ∈ f.split.code → (∀ item ∈ e, P item) →
      Grafted (infoOf f options) i (.ofInstr i) e t e' → P { instr := i, tree := t }) :
    ∀ item ∈ f.items options, P item := by
  intro item hitem
  obtain ⟨block, hblock, hmem⟩ := List.mem_flatMap.mp hitem
  refine forall_itemsOf options hmark (fun hi => hnew ?_) item hmem
  rw [← f.split.flatten_blocks]
  exact List.mem_flatten.mpr ⟨block, hblock, hi⟩

theorem Grafted.ops {m : MergeInfo} {e' : List Item} (h : Grafted m user t e t' e')
    (he : ∀ item ∈ e, item.Composed) : ∀ op ∈ t'.ops, op ∈ t.ops ∨ op.computes = true := by
  induction h with
  | keep => exact fun op hop => .inl hop
  | graft _ _ _ hmerge =>
    exact fun op hop => .inr ((he _ (by simp)).computes (movable_of_canMerge hmerge).pure op hop)
  | node hl _ ihl ihr =>
    intro op' hop
    have hkept := hl.forall_mem (P := Composed) (fun _ _ hd => hd) he
    rcases List.mem_cons.mp hop with rfl | hop
    · exact .inl List.mem_cons_self
    · rcases List.mem_append.mp hop with hop | hop
      · exact (ihl he op' hop).imp_left fun hmem => List.mem_cons_of_mem _ (List.mem_append_left _ hmem)
      · exact (ihr hkept op' hop).imp_left fun hmem => List.mem_cons_of_mem _ (List.mem_append_right _ hmem)

theorem ops_ofOperand (o : Option Operand) : (Tree.ofOperand o).ops = [] := by cases o <;> rfl

theorem composed_items (f : Function) (options : SelectOptions) : ∀ item ∈ f.items options, item.Composed := by
  refine forall_items (fun _ _ hd => hd) fun {i t e e'} _ he hgrafted => ?_
  obtain ⟨l, r, e₁, rfl, hl, hr⟩ := hgrafted.exists_node
  refine ⟨l, r, rfl, fun op hop => ?_⟩
  have hkept := hl.forall_mem (P := Composed) (fun _ _ hd => hd) he
  rcases List.mem_append.mp hop with hop | hop
  · simpa [ops_ofOperand] using hl.ops he op hop
  · simpa [ops_ofOperand] using hr.ops hkept op hop

/-- The items of code are its instructions, each at the root of its tree. -/
def Renders (items : List Item) (code : List Instr) : Prop :=
  items.map (·.instr) = code ∧ ∀ item ∈ items, item.Composed

/-- If the item is merged, it is no jump target and computes a register that is no pseudo-register. -/
def Moved (item : Item) : Prop :=
  item.merged = true → item.instr.label = 0 ∧ ∃ v, item.instr.defined? = some v ∧ Reg.isPseudo v = false

end Item

/-! ### Whole functions -/

/-- Only the computation of an ordinary register is merged. -/
theorem Function.moved_items (f : Function) (options : SelectOptions) :
    ∀ item ∈ f.items options, item.Moved := by
  refine Item.forall_items (fun {user v between d} hdef hmerge _ _ => ?_) fun _ _ _ => nofun
  simp only [Item.canMerge, Bool.and_eq_true, Bool.not_eq_true', beq_iff_eq] at hmerge
  exact ⟨by simp [hmerge], v, hdef, by simp [hmerge]⟩

/-- **The items of a function are its instructions.** -/
theorem Function.renders_items (f : Function) (options : SelectOptions) :
    Item.Renders (f.items options) f.split.code := by
  have hblock : ∀ info block, (Selection.itemsOf options info block).map (·.instr) = block := by
    intro info block
    unfold Selection.itemsOf
    split
    · exact Item.map_instr_mergeBlock info block
    · simp [Item.plainBlock, Function.comp_def]
  have hflat := f.split.flatten_blocks
  refine ⟨?_, Item.composed_items f options⟩
  rw [items, List.map_flatMap, ← hflat]
  simp only [hblock, List.flatMap_id']

/-! ### Preparing trees -/

namespace Tree

theorem type_simplifyRoot (dst : Option Operand) (t : Tree) : (t.simplifyRoot dst).type = t.type := by
  cases t with
  | absent => rfl
  | leaf o => rfl
  | node op type l r =>
    have hif : ∀ (l' r' : Tree) (x y : Bool),
        (if (x && l'.isNode && y) = true then l'.withType type else .node op type l' r').type = type := by
      intro l' r' x y
      split
      · rename_i h
        cases l' with
        | node op' type' l'' r'' => rfl
        | _ => simp [isNode] at h
      · rfl
    exact hif l.simplify r.simplify _ _

theorem type_foldRoot (dst : Option Operand) (t : Tree) : (t.foldRoot dst).type = t.type := by
  cases t with
  | absent => rfl
  | leaf o => rfl
  | node op type l r =>
    unfold foldRoot
    simp only
    split
    · rfl
    · split <;> rfl

/-- Nothing has been added to a tree. -/
structure Prunes (t' t : Tree) : Prop where
  ops : ∀ op ∈ t'.ops, op ∈ t.ops
  size : t'.size ≤ t.size

variable {l l' r r' t t' : Tree} {v : Int64}

theorem Prunes.refl (t : Tree) : Prunes t t := ⟨fun _ hop => hop, Nat.le_refl _⟩

theorem Prunes.withType (h : Prunes t' t) (type : Ty) : Prunes (t'.withType type) t := by
  obtain ⟨hops, hsize⟩ := h
  cases t' <;> exact ⟨hops, hsize⟩

theorem Prunes.left (h : Prunes t l) (op : Opcode) (type : Ty) (r : Tree) : Prunes t (.node op type l r) := by
  refine ⟨fun op' hop => List.mem_cons_of_mem _ (List.mem_append_left _ (h.ops op' hop)), ?_⟩
  have := h.size
  simp only [Tree.size]
  omega

theorem Prunes.node (hl : Prunes l' l) (hr : Prunes r' r) (op : Opcode) (type : Ty) :
    Prunes (.node op type l' r') (.node op type l r) := by
  refine ⟨fun op' hop => ?_, by simp only [Tree.size]; have := hl.size; have := hr.size; omega⟩
  rcases List.mem_cons.mp hop with rfl | hop
  · exact List.mem_cons_self
  · refine List.mem_cons_of_mem _ (List.mem_append.mpr ?_)
    exact (List.mem_append.mp hop).imp (hl.ops op') (hr.ops op')

theorem prunes_simplify (t : Tree) : Prunes t.simplify t := by
  induction t with
  | absent => exact .refl _
  | leaf o => exact .refl _
  | node op type l r ihl ihr =>
    unfold simplify
    dsimp only
    split
    · unfold unmoved
      split
      · exact (ihl.withType type).left op type r
      · exact ihl.left op type r
    · exact ihl.node ihr op type

theorem prunes_simplifyRoot (dst : Option Operand) (t : Tree) : Prunes (t.simplifyRoot dst) t := by
  cases t with
  | absent => exact .refl _
  | leaf o => exact .refl _
  | node op type l r =>
    have hif : ∀ c : Bool, Prunes (if c = true then l.simplify.withType type
        else .node op type l.simplify r.simplify) (.node op type l r) := by
      intro c
      split
      · exact ((prunes_simplify l).withType type).left op type r
      · exact (prunes_simplify l).node (prunes_simplify r) op type
    exact hif _

theorem prunes_fold (t : Tree) : Prunes t.fold t := by
  induction t with
  | absent => exact .refl _
  | leaf o => exact .refl _
  | node op type l r ihl ihr =>
    unfold fold
    dsimp only
    split
    · exact ⟨fun _ hop => absurd hop (by simp [ops]), by simp only [size]; omega⟩
    · exact ihl.node ihr op type

theorem size_of_evaluate {op : Opcode} {type : Ty} (h : evaluate op type l r = some v) : l.size = 1 := by
  unfold evaluate at h
  cases l with
  | leaf o => rfl
  | _ => simp [constant?] at h

/-- Only a root can become a move. -/
theorem prunes_foldRoot (dst : Option Operand) (t : Tree) :
    (∀ op ∈ (t.foldRoot dst).ops, op ∈ t.ops ∨ op = .ir .move) ∧ (t.foldRoot dst).size ≤ t.size := by
  cases t with
  | absent => exact ⟨fun op hop => .inl hop, Nat.le_refl _⟩
  | leaf o => exact ⟨fun op hop => .inl hop, Nat.le_refl _⟩
  | node op type l r =>
    have hkept := (prunes_fold l).node (prunes_fold r) op type
    unfold foldRoot
    dsimp only
    split
    · exact ⟨fun op' hop => .inl (hkept.ops op' hop), hkept.size⟩
    · split
      · next hvalue =>
        refine ⟨fun op' hop => .inr (by simpa [ops] using hop), ?_⟩
        have hl := (prunes_fold l).size
        rw [size_of_evaluate hvalue] at hl
        simp only [size]
        omega
      · exact ⟨fun op' hop => .inl (hkept.ops op' hop), hkept.size⟩

end Tree

theorem Selection.prunes_prepare (fold : Bool) (i : Instr) (t : Tree) :
    (∀ op ∈ (prepare fold i t).ops, op ∈ t.ops ∨ op = .ir .move) ∧ (prepare fold i t).size ≤ t.size := by
  have hsimple := Tree.prunes_simplifyRoot i.dst t
  unfold prepare
  cases fold with
  | false => exact ⟨fun op hop => .inl (hsimple.ops op hop), hsimple.size⟩
  | true =>
    obtain ⟨hops, hsize⟩ := Tree.prunes_foldRoot i.dst (t.simplifyRoot i.dst)
    exact ⟨fun op hop => (hops op hop).imp_left (hsimple.ops op), hsize.trans hsimple.size⟩

theorem Selection.type_prepare (fold : Bool) (i : Instr) (t : Tree) : (prepare fold i t).type = t.type := by
  unfold prepare
  cases fold with
  | false => exact Tree.type_simplifyRoot i.dst t
  | true => exact (Tree.type_foldRoot i.dst _).trans (Tree.type_simplifyRoot i.dst t)

end Codegen
