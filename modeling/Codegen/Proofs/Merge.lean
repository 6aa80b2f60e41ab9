/-
Merging trees changes nothing that anyone can see.

A tree that takes the place of a leaf is evaluated later than before, so two things have to
be shown each time: that leaving the computation out where it was changes nothing but the
register it wrote, and that it still gives the same value where it is now.  Both are matters of
what lies between.  The instructions between write none of the registers that the tree reads,
and leave memory alone if it reads memory; that is tested.  And they do not read the register
themselves, because its only use is the leaf.

That last point is where merging feeds on itself: what an item reads is no longer what its
instruction reads, since it may have taken in other trees.  So uses are counted.  Reads of
items not yet merged, reads still to come, and registers merged away never add up to more
uses of a register than the function has; and a register is merged away only when it has one.
-/
import Codegen.Proofs.Meaning
import Codegen.Proofs.StraightLine
import Codegen.Proofs.Lists
import Mathlib.Data.List.Flatten

namespace Codegen

variable {v : Int} {between older : List Item} {d : Item} {block : List Instr} {i user : Instr}

namespace Item

/-- The registers an item reads. -/
def reads (item : Item) : List Int := item.tree.reads ++ item.instr.pointer

/-- The registers read by the items that are not merged. -/
def openReads (items : List Item) : List Int := (items.filter (!·.merged)).flatMap reads

/-- The registers whose computations have become part of others. -/
def mergedAway (items : List Item) : List Int :=
  (items.filter (·.merged)).filterMap (·.instr.defined?)

theorem openReads_append (a b : List Item) : openReads (a ++ b) = openReads a ++ openReads b := by
  simp [openReads]

theorem mergedAway_append (a b : List Item) :
    mergedAway (a ++ b) = mergedAway a ++ mergedAway b := by
  simp [mergedAway]

variable {item : Item} {earlier : List Item} {m : MergeInfo}

theorem openReads_cons_open (h : item.merged = false) (items : List Item) :
    openReads (item :: items) = item.reads ++ openReads items := by
  simp [openReads, h]

theorem openReads_cons_merged (h : item.merged = true) (items : List Item) :
    openReads (item :: items) = openReads items := by
  simp [openReads, h]

theorem mergedAway_cons_open (h : item.merged = false) (items : List Item) :
    mergedAway (item :: items) = mergedAway items := by
  simp [mergedAway, h]

theorem mergedAway_cons_merged (h : item.merged = true) (hv : item.instr.defined? = some v)
    (items : List Item) : mergedAway (item :: items) = v :: mergedAway items := by
  simp [mergedAway, h, hv]

/-! ### What is known when a tree may move -/

theorem splitAtDef_eq_some (h : splitAtDef v earlier = some (between, d, older)) :
    earlier = between ++ d :: older ∧ d.instr.defined? = some v ∧
      ∀ item ∈ between, item.instr.defined? ≠ some v := by
  induction earlier generalizing between with
  | nil => simp [splitAtDef] at h
  | cons item rest ih =>
    unfold splitAtDef at h
    split at h
    · rename_i hdef
      obtain ⟨rfl, rfl, rfl⟩ : [] = between ∧ item = d ∧ rest = older := by simpa using h
      exact ⟨rfl, by simpa using hdef, by simp⟩
    · rename_i hdef
      obtain ⟨⟨between', d', older'⟩, hrest, heq⟩ := Option.map_eq_some_iff.mp h
      obtain ⟨rfl, rfl, rfl⟩ : item :: between' = between ∧ d' = d ∧ older' = older := by
        simpa using heq
      obtain ⟨rfl, hd, hbetween⟩ := ih hrest
      refine ⟨rfl, hd, ?_⟩
      intro item' hitem'
      rcases List.mem_cons.mp hitem' with rfl | hitem'
      · simpa using hdef
      · exact hbetween item' hitem'

/-- Why the tree of an item may move past others. -/
structure Movable (m : MergeInfo) (v : Int) (between : List Item) (d : Item) : Prop where
  ordinary : Reg.isPseudo v = false
  pure : isPure d.instr = true
  onceWritten : m.defCount v = 1
  onceRead : m.useCount v = 1
  inBlock : m.isLiveOut v = false
  /-- The tree reads no pseudo-registers. -/
  readsOrdinary : ∀ w ∈ d.tree.reads, Reg.isPseudo w = false
  /-- What lies between does not write what the tree reads. -/
  readsKept : ∀ item ∈ between, ∀ w ∈ d.tree.reads, item.instr.defined? ≠ some w
  memoryKept : d.tree.readsMemory = true → ∀ item ∈ between, changesMemory item.instr = false

theorem movable_of_canMerge (h : canMerge m user v between d = true) : Movable m v between d := by
  simp only [canMerge, Bool.and_eq_true, Bool.not_eq_true', beq_iff_eq, List.all_eq_true,
    mayPass] at h
  obtain ⟨⟨⟨⟨⟨⟨⟨⟨hord, -⟩, hpure⟩, hdef⟩, huse⟩, hlive⟩, hreads⟩, -⟩, hpass⟩ := h
  refine ⟨hord, hpure, hdef, huse, hlive, ?_, ?_, ?_⟩
  · intro w hw
    rw [List.any_eq_false] at hreads
    simpa using hreads w hw
  · intro item hitem w hw hdefw
    have := (hpass item hitem).1.2
    simp [writesOne, hdefw, hw] at this
  · intro hmem item hitem
    have := (hpass item hitem).2
    simpa [hmem] using this

/-! ### What merging does -/

section Grafting

variable {e e' : List Item} {P : Item → Prop}

theorem forall_mark (hmark : P d → P { d with merged := true }) (h : ∀ item ∈ between ++ d :: older, P item) :
    ∀ item ∈ between ++ { d with merged := true } :: older, P item := by
  intro item hitem
  rcases List.mem_append.mp hitem with hitem | hitem
  · exact h item (by simp [hitem])
  · rcases List.mem_cons.mp hitem with rfl | hitem
    · exact hmark (h d (by simp))
    · exact h item (by simp [hitem])

/-- What merging makes of a tree and of the items before it, latest first: trees of earlier items take the
place of leaves, and those items are marked. -/
inductive Grafted (m : MergeInfo) (user : Instr) : Tree → List Item → Tree → List Item → Prop
  | keep (t : Tree) (e : List Item) : Grafted m user t e t e
  | graft {o : Operand} {v : Int} {between older : List Item} {d : Item} (hv : o.vregId? = some v)
      (hdef : d.instr.defined? = some v) (hbetween : ∀ item ∈ between, item.instr.defined? ≠ some v)
      (hmerge : canMerge m user v between d = true) :
      Grafted m user (.leaf o) (between ++ d :: older) d.tree (between ++ { d with merged := true } :: older)
  | node {op : Opcode} {type : Ty} {l r l' r' : Tree} {e e₁ e₂ : List Item} (hl : Grafted m user l e l' e₁)
      (hr : Grafted m user r e₁ r' e₂) : Grafted m user (.node op type l r) e (.node op type l' r') e₂

theorem grafted_mergeTree (m : MergeInfo) (user : Instr) (t : Tree) (e : List Item) :
    Grafted m user t e (mergeTree m user t e).1 (mergeTree m user t e).2 := by
  induction t generalizing e with
  | absent => exact .keep _ _
  | leaf o =>
    unfold mergeTree
    split
    · exact .keep _ _
    · next v between d older hfind =>
      split
      · next hmerge =>
        obtain ⟨v', hv, hmap⟩ := Option.bind_eq_some_iff.mp hfind
        obtain ⟨split, hsplit, heq⟩ := Option.map_eq_some_iff.mp hmap
        obtain ⟨rfl, rfl⟩ := Prod.mk.inj heq
        obtain ⟨rfl, hdef, hbetween⟩ := splitAtDef_eq_some hsplit
        exact .graft hv hdef hbetween hmerge
      · exact .keep _ _
  | node op type l r ihl ihr => exact .node (ihl e) (ihr _)

variable {t t' l r : Tree} {op : Opcode} {type : Ty}

theorem Grafted.exists_node (h : Grafted m user (.node op type l r) e t e') :
    ∃ l' r' e₁, t = .node op type l' r' ∧ Grafted m user l e l' e₁ ∧ Grafted m user r e₁ r' e' := by
  cases h with
  | keep => exact ⟨l, r, e, rfl, .keep _ _, .keep _ _⟩
  | node hl hr => exact ⟨_, _, _, rfl, hl, hr⟩

theorem Grafted.map_instr (h : Grafted m user t e t' e') : e'.map (·.instr) = e.map (·.instr) := by
  induction h with
  | keep => rfl
  | graft => simp
  | node _ _ ihl ihr => exact ihr.trans ihl

/-- What holds of items, and of an item that is marked, still holds. -/
theorem Grafted.forall_mem (hmark : ∀ {user v between d}, d.instr.defined? = some v →
      canMerge m user v between d = true → P d → P { d with merged := true })
    (h : Grafted m user t e t' e') (he : ∀ item ∈ e, P item) : ∀ item ∈ e', P item := by
  induction h with
  | keep => exact he
  | graft _ hdef _ hmerge => exact forall_mark (hmark hdef hmerge) he
  | node _ _ ihl ihr => exact ihr (ihl he)

theorem exists_mergeStep (m : MergeInfo) (e : List Item) (i : Instr) :
    ∃ t e', mergeStep m e i = { instr := i, tree := t } :: e' ∧ Grafted m i (.ofInstr i) e t e' := by
  unfold mergeStep
  split
  · exact ⟨_, _, rfl, .keep _ _⟩
  · exact ⟨_, _, rfl, grafted_mergeTree m i _ e⟩

/-- **What holds of each item that is added, given that it holds of those before it, holds of all the items of
a block.** -/
theorem forall_mergeBlock (hmark : ∀ {user v between d}, d.instr.defined? = some v →
      canMerge m user v between d = true → P d → P { d with merged := true })
    (hnew : ∀ {i t e e'}, i ∈ block → (∀ item ∈ e, P item) → Grafted m i (.ofInstr i) e t e' →
      P { instr := i, tree := t }) : ∀ item ∈ mergeBlock m block, P item := by
  have hfold : ∀ (code : List Instr) (e : List Item), (∀ i ∈ code, i ∈ block) → (∀ item ∈ e, P item) →
      ∀ item ∈ code.foldl (mergeStep m) e, P item := by
    intro code
    induction code with
    | nil => exact fun e _ he => he
    | cons i rest ih =>
      intro e hcode he
      obtain ⟨t, e', hstep, hgrafted⟩ := exists_mergeStep m e i
      refine ih _ (fun j hj => hcode j (by simp [hj])) ?_
      rw [hstep]
      exact List.forall_mem_cons.mpr ⟨hnew (hcode i (by simp)) he hgrafted, hgrafted.forall_mem hmark he⟩
  intro item hitem
  exact hfold block [] (fun _ hi => hi) (fun _ h => nomatch h) item (List.mem_reverse.mp hitem)

theorem map_instr_mergeBlock (m : MergeInfo) (block : List Instr) :
    (mergeBlock m block).map (·.instr) = block := by
  have hfold : ∀ (code : List Instr) (e : List Item),
      (code.foldl (mergeStep m) e).map (·.instr) = code.reverse ++ e.map (·.instr) := by
    intro code
    induction code with
    | nil => exact fun e => rfl
    | cons i rest ih =>
      intro e
      obtain ⟨t, e', hstep, hgrafted⟩ := exists_mergeStep m e i
      rw [List.foldl_cons, ih, hstep, List.map_cons, hgrafted.map_instr]
      simp
  rw [mergeBlock, List.map_reverse, hfold]
  simp

end Grafting

end Item

/-! ### Running items -/

namespace Meaning.State

variable {M : Meaning} {s s' : M.State}

theorem runItems_append (s : M.State) (a b : List Item) :
    s.runItems (a ++ b) = (s.runItems a).runItems b := List.foldl_append

variable {item : Item} {vs : List Int}

theorem runItems_cons_open (h : item.merged = false) (items : List Item) :
    s.runItems (item :: items) = (s.stepItem item).runItems items := by
  simp [runItems, h]

theorem runItems_cons_merged (h : item.merged = true) (items : List Item) :
    s.runItems (item :: items) = s.runItems items := by
  simp [runItems, h]

theorem Agree.stepItem (h : Agree vs s s') (hvs : ∀ v ∈ vs, Reg.isPseudo v = false)
    (hreads : ∀ v ∈ item.reads, v ∉ vs) : Agree vs (s.stepItem item) (s'.stepItem item) := by
  unfold State.stepItem
  cases ht : item.tree with
  | node op type l r =>
    have hsub : ∀ v ∈ l.reads ++ r.reads, v ∉ vs := by
      intro v hv
      refine hreads v ?_
      rw [Item.reads, ht, Tree.reads_node]
      simp only [List.mem_append] at hv ⊢
      exact .inl hv
    dsimp only
    rw [h.eval (fun v hv => hsub v (by simp [hv])) op, h.eval (fun v hv => hsub v (by simp [hv])) op]
    exact h.perform hvs (fun v hv => hreads v (by simp [Item.reads, hv])) _ _
  | leaf o => exact h
  | absent => exact h

theorem Agree.runItems (hvs : ∀ v ∈ vs, Reg.isPseudo v = false) :
    ∀ {items : List Item} {s s' : M.State}, Agree vs s s' →
      (∀ v ∈ Item.openReads items, v ∉ vs) → Agree vs (s.runItems items) (s'.runItems items) := by
  intro items
  induction items with
  | nil => exact fun h _ => h
  | cons item rest ih =>
    intro s s' h hreads
    cases hm : item.merged with
    | true =>
      rw [Item.openReads_cons_merged hm] at hreads
      rw [runItems_cons_merged hm, runItems_cons_merged hm]
      exact ih h hreads
    | false =>
      rw [Item.openReads_cons_open hm] at hreads
      rw [runItems_cons_open hm, runItems_cons_open hm]
      exact ih (h.stepItem hvs fun v hv => hreads v (by simp [hv]))
        fun v hv => hreads v (by simp [hv])

theorem regs_stepItem (hv : Reg.isPseudo v = false) (hdef : item.instr.defined? ≠ some v) :
    (s.stepItem item).regs v = s.regs v := by
  unfold stepItem
  split
  · exact regs_perform hv hdef
  · rfl

theorem memory_stepItem (h : Item.changesMemory item.instr = false) :
    (s.stepItem item).memory = s.memory := by
  unfold stepItem
  split
  · exact memory_perform h
  · rfl

theorem regs_runItems (hv : Reg.isPseudo v = false) :
    ∀ {items : List Item} {s : M.State}, (∀ item ∈ items, item.instr.defined? ≠ some v) →
      (s.runItems items).regs v = s.regs v := by
  intro items
  induction items with
  | nil => exact fun _ => rfl
  | cons item rest ih =>
    intro s h
    have hrest : ∀ item ∈ rest, item.instr.defined? ≠ some v := fun i hi => h i (by simp [hi])
    cases hm : item.merged with
    | true =>
      rw [runItems_cons_merged hm]
      exact ih hrest
    | false =>
      rw [runItems_cons_open hm]
      exact (ih hrest).trans (regs_stepItem hv (h item (by simp)))

theorem memory_runItems : ∀ {items : List Item} {s : M.State},
    (∀ item ∈ items, Item.changesMemory item.instr = false) →
      (s.runItems items).memory = s.memory := by
  intro items
  induction items with
  | nil => exact fun _ => rfl
  | cons item rest ih =>
    intro s h
    have hrest : ∀ item ∈ rest, Item.changesMemory item.instr = false :=
      fun i hi => h i (by simp [hi])
    cases hm : item.merged with
    | true =>
      rw [runItems_cons_merged hm]
      exact ih hrest
    | false =>
      rw [runItems_cons_open hm]
      exact (ih hrest).trans (memory_stepItem (h item (by simp)))

end Meaning.State

namespace Item

/-! ### Uses are accounted for -/

/-- The operation of an item's instruction is at the root of its tree. -/
def Rooted (item : Item) : Prop :=
  ∃ l r, item.tree = .node item.instr.op (Tree.valueType item.instr) l r

/-- The items so far, latest first, with the registers still to be read. -/
structure Balanced (m : MergeInfo) (todo : List Int) (earlier : List Item) : Prop where
  rooted : ∀ item ∈ earlier, item.Rooted
  generic : ∀ item ∈ earlier, ∃ op, item.instr.op = .ir op
  /-- No register has more uses than the function has. -/
  counted : ∀ v, (todo ++ openReads earlier ++ mergedAway earlier).count v ≤ m.useCount v
  /-- What is merged away is an ordinary register that is written once and read once, in one block. -/
  chosen : ∀ v ∈ mergedAway earlier, Reg.isPseudo v = false ∧ m.defCount v = 1 ∧
    m.useCount v = 1 ∧ m.isLiveOut v = false

namespace Balanced

variable {m : MergeInfo} {todo todo' : List Int} {earlier : List Item} (h : Balanced m todo earlier)
include h

theorem ordinary : ∀ v ∈ mergedAway earlier, Reg.isPseudo v = false :=
  fun v hv => (h.chosen v hv).1

theorem not_mergedAway (hv : v ∈ todo ++ openReads earlier) : v ∉ mergedAway earlier := by
  intro hmem
  have huse := (h.chosen v hmem).2.2.1
  have hcount := h.counted v
  rw [List.count_append] at hcount
  have h1 := List.count_pos_iff.mpr hv
  have h2 := List.count_pos_iff.mpr hmem
  omega

/-- Only the counts of the reads to come matter. -/
theorem reorder (hle : ∀ v, todo'.count v ≤ todo.count v) : Balanced m todo' earlier := by
  refine ⟨h.rooted, h.generic, fun v => ?_, h.chosen⟩
  have := h.counted v
  have := hle v
  simp only [List.count_append] at *
  omega

end Balanced

end Item

/-! ### One tree moves -/

theorem Item.effect_of_isPure {op : IrOp} (hop : i.op = .ir op) (h : Item.isPure i = true) : op.effect = .pure := by
  simp only [Item.isPure, Bool.and_eq_true, hop] at h
  have heffect := h.2
  revert heffect
  cases op <;> simp [IrOp.effect, Opcode.isMarker, Opcode.isJump,
    Opcode.writesMemory]

namespace Meaning.State

variable {M : Meaning}

theorem deliver_of_defined (h : i.defined? = some v) (s : M.State) (x : M.Value) : s.deliver i.dst x = s.set v x := by
  unfold Instr.defined? at h
  split at h
  · cases h
  · obtain ⟨hbind, hv⟩ := Option.filter_eq_some_iff.mp h
    obtain ⟨o, ho, hid⟩ := Option.bind_eq_some_iff.mp hbind
    simp [deliver, ho, hid, bne_iff_ne.mp hv]

theorem stepItem_of_isPure (hroot : d.Rooted) (hop : ∃ op, d.instr.op = .ir op) (hpure : Item.isPure d.instr = true)
    (hd : d.instr.defined? = some v) (s : M.State) :
    ∃ x, s.stepItem d = s.set v x ∧ ∀ parent, s.eval parent d.tree = some x := by
  obtain ⟨l, r, ht⟩ := hroot
  obtain ⟨op, hop⟩ := hop
  have heff := Item.effect_of_isPure hop hpure
  refine ⟨s.value d.instr.op (Tree.valueType d.instr) (s.eval d.instr.op l) (s.eval d.instr.op r),
    ?_, fun parent => by rw [ht]; rfl⟩
  rw [← deliver_of_defined hd]
  unfold stepItem perform
  rw [ht, hop]
  dsimp only
  rw [heff]

end Meaning.State

namespace Item

variable {M : Meaning}

section Leaf

variable {m : MergeInfo} {todo : List Int} (h : Balanced m (todo ++ [v]) (between ++ d :: older))

include h

theorem not_read_of_leaf (hmov : Movable m v between d) :
    v ∉ todo ∧ v ∉ openReads (between ++ d :: older) := by
  have hcount := h.counted v
  rw [hmov.onceRead] at hcount
  simp only [List.count_append, List.count_singleton_self] at hcount
  refine ⟨fun hin => ?_, fun hin => ?_⟩
  · have := List.count_pos_iff.mpr hin
    omega
  · have := List.count_pos_iff.mpr hin
    rw [openReads_append, List.count_append] at this
    rw [openReads_append, List.count_append] at hcount
    omega

variable (hd : d.instr.defined? = some v)
include hd

/-- The register of the leaf is still computed by its item. -/
theorem merged_eq_false_of_leaf : d.merged = false := by
  cases hm : d.merged with
  | false => rfl
  | true =>
    refine absurd ?_ (h.not_mergedAway (v := v) (by simp))
    rw [mergedAway_append, mergedAway_cons_merged hm hd]
    simp

variable (hmov : Movable m v between d)
include hmov

/-- The leaf is traded for the register merged away, and the reads of the tree move with it. -/
theorem balanced_merge :
    Balanced m (todo ++ d.tree.reads) (between ++ { d with merged := true } :: older) := by
  have hopen := merged_eq_false_of_leaf h hd
  have haway : mergedAway ({ d with merged := true } :: older) = v :: mergedAway older := by
    simp [mergedAway, hd]
  refine ⟨forall_mark (fun hd => hd) h.rooted, forall_mark (P := fun item => ∃ op, item.instr.op = .ir op)
    (fun hd => hd) h.generic, fun w => ?_, fun w hw => ?_⟩
  · have hcount := h.counted w
    rw [openReads_append, openReads_cons_open hopen, mergedAway_append, mergedAway_cons_open hopen,
      reads] at hcount
    rw [openReads_append, openReads_cons_merged rfl, mergedAway_append, haway]
    simp only [List.count_append, List.count_cons] at hcount ⊢
    omega
  · rw [mergedAway_append, haway] at hw
    by_cases hwv : w = v
    · subst hwv
      exact ⟨hmov.ordinary, hmov.onceWritten, hmov.onceRead, hmov.inBlock⟩
    · refine h.chosen w ?_
      rw [mergedAway_append, mergedAway_cons_open hopen]
      simpa [hwv] using hw

variable (hbetween : ∀ item ∈ between, item.instr.defined? ≠ some v)
include hbetween

/-- Without the item everything is as before but for its register, and the tree still has the value
that the register had. -/
theorem agree_merge (s : M.State) :
    (s.runItems (between ++ d :: older).reverse).Agree [v]
        (s.runItems (between ++ { d with merged := true } :: older).reverse) ∧
      ∀ parent, (s.runItems (between ++ { d with merged := true } :: older).reverse).eval parent
        d.tree = some ((s.runItems (between ++ d :: older).reverse).regs v) := by
  have hopen := merged_eq_false_of_leaf h hd
  have hrev : ∀ d' : Item, (between ++ d' :: older).reverse
      = older.reverse ++ d' :: between.reverse := by simp
  rw [hrev, hrev, Meaning.State.runItems_append, Meaning.State.runItems_append,
    Meaning.State.runItems_cons_open hopen, Meaning.State.runItems_cons_merged rfl]
  obtain ⟨x, hstep, hx⟩ := Meaning.State.stepItem_of_isPure (h.rooted d (by simp))
    (h.generic d (by simp)) hmov.pure hd (s.runItems older.reverse)
  generalize s.runItems older.reverse = a at *
  rw [hstep]
  have hquiet : ∀ w ∈ openReads between.reverse, w ∉ [v] := by
    intro w hw hwv
    rw [List.mem_singleton] at hwv
    subst hwv
    refine (not_read_of_leaf h hmov).2 ?_
    rw [openReads_append, List.mem_append]
    refine .inl ?_
    simp only [openReads, List.mem_flatMap, List.mem_filter, List.mem_reverse] at hw ⊢
    exact hw
  refine ⟨Meaning.State.Agree.runItems (by simpa using hmov.ordinary)
    (Meaning.State.agree_set a v x) hquiet, fun parent => ?_⟩
  have hkeep : ((a.set v x).runItems between.reverse).regs v = x := by
    rw [Meaning.State.regs_runItems hmov.ordinary (by simpa using hbetween),
      Meaning.State.regs_set, if_pos rfl]
  rw [hkeep, ← hx parent]
  refine Meaning.State.eval_congr ?_ ?_
  · intro w hw
    refine Meaning.State.regs_runItems (hmov.readsOrdinary w hw) fun item hitem => ?_
    exact hmov.readsKept item (by simpa using hitem) w hw
  · intro hmem
    refine Meaning.State.memory_runItems fun item hitem => ?_
    exact hmov.memoryKept hmem item (by simpa using hitem)

end Leaf

/-! ### Trees take in others -/

/-- A tree and the items before it, after the tree has taken in some of them. -/
structure Took (m : MergeInfo) (todo : List Int) (t : Tree) (earlier : List Item) (t' : Tree)
    (earlier' : List Item) : Prop where
  balanced : Balanced m (todo ++ t'.reads) earlier'
  more : ∀ v ∈ mergedAway earlier, v ∈ mergedAway earlier'
  agree : ∀ (M : Meaning) (s : M.State), (s.runItems earlier.reverse).Agree (mergedAway earlier')
    (s.runItems earlier'.reverse)
  /-- The tree has the value that it had. -/
  value : ∀ (M : Meaning) (s : M.State) (parent : Opcode),
    (s.runItems earlier'.reverse).eval parent t' = (s.runItems earlier.reverse).eval parent t

variable {m : MergeInfo} {todo : List Int}

variable {earlier e₁ e₂ e₀ e e' : List Item} {t l' r' l r t' : Tree} {code : List Instr}

theorem took_nothing (h : Balanced m (todo ++ t.reads) earlier) : Took m todo t earlier t earlier :=
  ⟨h, fun _ hv => hv, fun _ _ => .refl _ _, fun _ _ _ => rfl⟩

theorem took_graft {o : Operand} (hid : o.vregId? = some v) (hd : d.instr.defined? = some v)
    (hbetween : ∀ item ∈ between, item.instr.defined? ≠ some v) (hmov : Movable m v between d)
    (h : Balanced m (todo ++ (Tree.leaf o).reads) (between ++ d :: older)) :
    Took m todo (.leaf o) (between ++ d :: older) d.tree (between ++ { d with merged := true } :: older) := by
  rw [Tree.reads_leaf, hid] at h
  have hopen := merged_eq_false_of_leaf h hd
  have hv : v ∈ mergedAway (between ++ { d with merged := true } :: older) := by
    simp [mergedAway, hd]
  refine ⟨balanced_merge h hd hmov, ?_, ?_, ?_⟩
  · intro u hu
    rw [mergedAway_append, mergedAway_cons_open hopen] at hu
    simp only [mergedAway, List.filter_append, List.filterMap_append, List.mem_append] at hu ⊢
    simp only [List.filter_cons, if_true, List.filterMap_cons, hd]
    tauto
  · intro M s
    refine (agree_merge h hd hmov hbetween s).1.mono fun u hu => ?_
    rw [List.mem_singleton.mp hu]
    exact hv
  · intro M s parent
    rw [(agree_merge h hd hmov hbetween s).2 parent]
    have hmemory : o.isMemory = false := by
      unfold Operand.vregId? at hid
      unfold Operand.isMemory
      split at hid
      · rename_i hval
        rw [hval]
      · cases hid
    simp [Meaning.State.eval, Meaning.State.source, Meaning.State.operand, hid, hmemory]

/-- First one tree, then another: what the first one took in stays. -/
theorem Took.both (hl : Took m (todo ++ r.reads) l e₀ l' e₁) (hr : Took m (todo ++ l'.reads) r e₁ r' e₂) :
    Balanced m (todo ++ (l'.reads ++ r'.reads)) e₂ ∧ (∀ v ∈ mergedAway e₀, v ∈ mergedAway e₂) ∧
      ∀ (M : Meaning) (s : M.State),
        (s.runItems e₀.reverse).Agree (mergedAway e₂) (s.runItems e₂.reverse) ∧
        ∀ op, (s.runItems e₂.reverse).eval op l' = (s.runItems e₀.reverse).eval op l ∧
          (s.runItems e₂.reverse).eval op r' = (s.runItems e₀.reverse).eval op r := by
  refine ⟨by simpa using hr.balanced, fun v hv => hr.more v (hl.more v hv),
    fun M s => ⟨?_, fun op => ⟨?_, ?_⟩⟩⟩
  · exact ((hl.agree M s).mono hr.more).trans (hr.agree M s)
  · rw [← hl.value M s op]
    refine (hr.agree M s).eval ?_ op
    intro v hv
    exact hr.balanced.not_mergedAway (by simp [hv])
  · rw [hr.value M s op]
    refine (hl.agree M s).eval ?_ op
    intro v hv
    exact hl.balanced.not_mergedAway (by simp [hv])

theorem Grafted.took (h : Grafted m user t e t' e') :
    ∀ todo, Balanced m (todo ++ t.reads) e → Took m todo t e t' e' := by
  induction h with
  | keep => exact fun _ => took_nothing
  | graft hv hdef hbetween hmerge => exact fun _ => took_graft hv hdef hbetween (movable_of_canMerge hmerge)
  | @node op type l r l' r' e e₁ e₂ _ _ ihl ihr =>
    intro todo h
    rw [Tree.reads_node] at h
    have hl := ihl (todo ++ r.reads) (h.reorder fun v => by simp only [List.count_append]; omega)
    have hr := ihr (todo ++ l'.reads) (hl.balanced.reorder fun v => by simp only [List.count_append]; omega)
    obtain ⟨hbal, hmore, hagree⟩ := hl.both hr
    refine ⟨by rw [Tree.reads_node]; exact hbal, hmore, fun M s => (hagree M s).1, fun M s parent => ?_⟩
    obtain ⟨hval, hvalr⟩ := (hagree M s).2 op
    simp only [Meaning.State.eval, Meaning.State.value, hval, hvalr, (hagree M s).1.memory]

/-! ### Blocks -/

/-- The items after one more instruction, compared with those before. -/
structure Extends (m : MergeInfo) (todo : List Int) (code : List Instr) (earlier later : List Item) :
    Prop where
  balanced : Balanced m todo later
  /-- Running the items is running the instructions, but for what is merged away. -/
  agree : ∀ (M : Meaning) (s₀ s : M.State),
    s.Agree (mergedAway earlier) (s₀.runItems earlier.reverse) →
      (s.run code).Agree (mergedAway later) (s₀.runItems later.reverse)

theorem eval_ofOperand (s : M.State) (op : Opcode) (o : Option Operand) :
    s.eval op (Tree.ofOperand o) = o.map (s.source op) := by
  cases o <;> rfl

/-- An instruction is added whose sources have taken in others. -/
theorem extends_of_took (hop : ∃ op, i.op = .ir op) (h : Balanced m (todo ++ i.used) earlier)
    (hl : Took m (todo ++ i.pointer ++ (Tree.ofOperand i.src2).reads) (Tree.ofOperand i.src1) earlier l' e₁)
    (hr : Took m (todo ++ i.pointer ++ l'.reads) (Tree.ofOperand i.src2) e₁ r' e₂) :
    Extends m todo [i] earlier
      ({ instr := i, tree := .node i.op (Tree.valueType i) l' r' } :: e₂) := by
  obtain ⟨hbal, hmore, hagree⟩ := hl.both hr
  refine ⟨⟨List.forall_mem_cons.mpr ⟨⟨l', r', rfl⟩, hbal.rooted⟩, List.forall_mem_cons.mpr ⟨hop, hbal.generic⟩,
    fun v => ?_, ?_⟩, fun M s₀ s hs => ?_⟩
  · have := hbal.counted v
    rw [openReads_cons_open rfl, mergedAway_cons_open rfl, reads, Tree.reads_node]
    simp only [List.count_append] at this ⊢
    omega
  · exact hbal.chosen
  · rw [List.reverse_cons, Meaning.State.runItems_append]
    obtain ⟨hstates, hvalues⟩ := hagree M s₀
    obtain ⟨hvl, hvr⟩ := hvalues i.op
    have hread : ∀ v ∈ i.used, v ∉ mergedAway earlier := fun v hv =>
      h.not_mergedAway (by simp [hv])
    rw [Instr.used_eq, Tree.ofInstr, Tree.reads_node] at hread
    -- The sources have the values that they have in the original code.
    have hsl : (s₀.runItems e₂.reverse).eval i.op l' = i.src1.map (s.source i.op) := by
      rw [hvl, ← eval_ofOperand]
      exact hs.eval (fun v hv => hread v (by simp [hv])) _
    have hsr : (s₀.runItems e₂.reverse).eval i.op r' = i.src2.map (s.source i.op) := by
      rw [hvr, ← eval_ofOperand]
      exact hs.eval (fun v hv => hread v (by simp [hv])) _
    show (s.perform i (i.src1.map (s.source i.op)) (i.src2.map (s.source i.op))).Agree _
      ((s₀.runItems e₂.reverse).perform i ((s₀.runItems e₂.reverse).eval i.op l')
        ((s₀.runItems e₂.reverse).eval i.op r'))
    rw [hsl, hsr]
    refine ((hs.mono hmore).trans hstates).perform hbal.ordinary (fun v hv => ?_) _ _
    exact hbal.not_mergedAway (by simp [hv])

theorem extends_mergeStep (hop : ∃ op, i.op = .ir op) (h : Balanced m (todo ++ i.used) earlier) :
    Extends m todo [i] earlier (mergeStep m earlier i) := by
  have hstart : Balanced m (todo ++ i.pointer ++ (Tree.ofOperand i.src2).reads ++
      (Tree.ofOperand i.src1).reads) earlier := by
    refine h.reorder fun v => ?_
    rw [Instr.used_eq, Tree.ofInstr, Tree.reads_node]
    simp only [List.count_append]
    omega
  obtain ⟨t, e', hstep, hgrafted⟩ := exists_mergeStep m earlier i
  obtain ⟨l', r', e₁, rfl, hl, hr⟩ := hgrafted.exists_node
  rw [hstep]
  have hleft := hl.took _ hstart
  refine extends_of_took hop h hleft (hr.took _ (hleft.balanced.reorder fun v => ?_))
  simp only [List.count_append]
  omega

theorem extends_foldl (hops : ∀ i ∈ code, ∃ op, i.op = .ir op) :
    ∀ (earlier : List Item), Balanced m (code.flatMap Instr.used) earlier →
      Extends m [] code earlier (code.foldl (mergeStep m) earlier) := by
  induction code with
  | nil =>
    intro earlier h
    exact ⟨h, fun M s₀ s hs => hs⟩
  | cons i rest ih =>
    intro earlier h
    have hone : Extends m (rest.flatMap Instr.used) [i] earlier (mergeStep m earlier i) := by
      refine extends_mergeStep (hops i (by simp)) (h.reorder fun v => ?_)
      simp only [List.flatMap_cons, List.count_append]
      omega
    have hmany := ih (fun j hj => hops j (by simp [hj])) _ hone.balanced
    exact ⟨hmany.balanced, fun M s₀ s hs => hmany.agree M s₀ _ (hone.agree M s₀ s hs)⟩

section Block

variable (hops : ∀ i ∈ block, ∃ op, i.op = .ir op) (hsub : block.Sublist m.code)

include hops hsub

theorem extends_mergeBlock : Extends m [] block [] (mergeBlock m block).reverse := by
  rw [mergeBlock, List.reverse_reverse]
  refine extends_foldl hops [] ⟨by simp, by simp, fun v => ?_, by simp [mergedAway]⟩
  simpa [openReads, mergedAway, MergeInfo.useCount] using (hsub.flatMap Instr.used).count_le v

theorem chosen_of_mergedAway (hv : v ∈ mergedAway (mergeBlock m block)) :
    Reg.isPseudo v = false ∧ m.defCount v = 1 ∧ m.useCount v = 1 ∧ m.isLiveOut v = false :=
  (extends_mergeBlock hops hsub).balanced.chosen v (by simpa [mergedAway] using hv)

theorem agree_mergeBlock (s : M.State) :
    (s.run block).Agree (mergedAway (mergeBlock m block)) (s.runItems (mergeBlock m block)) := by
  have hagree := (extends_mergeBlock hops hsub).agree M s s (.refl _ _)
  rw [List.reverse_reverse] at hagree
  exact hagree.mono fun v hv => by simpa [mergedAway] using hv

/-- No item that is left writes a register that was merged away. -/
theorem not_defined_of_mergedAway (hv : v ∈ mergedAway (mergeBlock m block)) :
    ∀ item ∈ mergeBlock m block, item.merged = false → item.instr.defined? ≠ some v := by
  intro item hitem hopen hdef
  obtain ⟨-, honce, -⟩ := chosen_of_mergedAway hops hsub hv
  have hle : (block.countP fun i => i.defined? == some v) ≤ 1 := by
    rw [← honce]
    exact hsub.countP_le
  have hsum := List.countP_eq_countP_filter_add (mergeBlock m block)
    (fun item => item.instr.defined? == some v) (·.merged)
  have hmerged : 0 < ((mergeBlock m block).filter (·.merged)).countP
      fun item => item.instr.defined? == some v := by
    obtain ⟨other, hother, hdef'⟩ := List.mem_filterMap.mp hv
    exact List.countP_pos_iff.mpr ⟨other, hother, by simp [hdef']⟩
  have hleft : 0 < ((mergeBlock m block).filter (!·.merged)).countP
      fun item => item.instr.defined? == some v :=
    List.countP_pos_iff.mpr ⟨item, by simp [hitem, hopen], by simp [hdef]⟩
  rw [← map_instr_mergeBlock m block, List.countP_map] at hle
  simp only [Function.comp_def] at hle
  omega

end Block

end Item

/-! ### Who writes registers -/

namespace Meaning.State

variable {M : Meaning} {z : M.Value} {dst : Option Operand}

theorem set_mem_deliver {x : M.Value} {s : M.State} (h : Deed.set v z ∈ (s.deliver dst x).trace) :
    Deed.set v z ∈ s.trace ∨ ∃ o, dst = some o ∧ o.vregId? = some v ∧ v ≠ 0 := by
  rcases deliver_cases M dst with ⟨o, w, ho, hid, hw, heq⟩ | ⟨o, -, -, heq⟩ | heq
  · rw [heq] at h
    rcases List.mem_append.mp h with h | h
    · exact .inl h
    · obtain ⟨rfl, -⟩ : v = w ∧ z = x := by simpa using h
      exact .inr ⟨o, ho, hid, hw⟩
  · rw [heq] at h
    rcases List.mem_append.mp h with h | h
    · exact .inl h
    · simp at h
  · rw [heq] at h
    exact .inl h

theorem set_mem_perform {x y : Option M.Value} {s : M.State} (h : Deed.set v z ∈ (s.perform i x y).trace) :
    Deed.set v z ∈ s.trace ∨ i.defined? = some v := by
  unfold perform at h
  cases hop : i.op with
  | ir op =>
    rw [hop] at h
    dsimp only at h
    cases heff : op.effect with
    | pure =>
      rw [heff] at h
      rcases set_mem_deliver h with h | ⟨o, ho, hid, hv⟩
      · exact .inl h
      · have hne : op ≠ .moveToPtr := by rintro rfl; cases heff
        exact .inr (Instr.defined?_of_result hop (by rw [if_neg hne]; exact ho) hid hv)
    | seen =>
      rw [heff] at h
      rcases set_mem_deliver h with h | ⟨o, ho, hid, hv⟩
      · exact .inl (by simpa [tell] using h)
      · exact .inr (Instr.defined?_of_result hop ho hid hv)
    | memory =>
      rw [heff] at h
      rcases set_mem_deliver h with h | ⟨o, ho, hid, hv⟩
      · exact .inl (by simpa [yield, tell] using h)
      · exact .inr (Instr.defined?_of_result hop ho hid hv)
  | machine op => exact .inl (by simpa [hop] using h)
  | unknown n => exact .inl (by simpa [hop] using h)

theorem set_mem_runItems : ∀ {items : List Item} {s : M.State},
    Deed.set v z ∈ (s.runItems items).trace →
      Deed.set v z ∈ s.trace ∨ ∃ item ∈ items, item.merged = false ∧ item.instr.defined? = some v := by
  intro items
  induction items with
  | nil => exact fun h => .inl h
  | cons item rest ih =>
    intro s h
    cases hm : item.merged with
    | true =>
      rw [runItems_cons_merged hm] at h
      rcases ih h with h | ⟨item', hmem, hopen, hdef⟩
      · exact .inl h
      · exact .inr ⟨item', by simp [hmem], hopen, hdef⟩
    | false =>
      rw [runItems_cons_open hm] at h
      rcases ih h with h | ⟨item', hmem, hopen, hdef⟩
      · unfold stepItem at h
        split at h
        · rcases set_mem_perform h with h | hdef
          · exact .inl h
          · exact .inr ⟨item, by simp, hm, hdef⟩
        · exact .inl h
      · exact .inr ⟨item', by simp [hmem], hopen, hdef⟩

end Meaning.State

/-! ### Functions -/

namespace Function

/-- What merging knows of a function by default. -/
def mergeInfo (f : Function) : MergeInfo := { code := f.code, blocks := f.blocks }

theorem block_sublist {f : Function} {k : Nat} (hk : f.blocks[k]? = some block) : block.Sublist f.code := by
  have hflat := f.flatten_blocks
  rw [← hflat]
  exact List.sublist_flatten_of_mem (List.mem_of_getElem? hk)

/-- A register that was merged away is not mentioned in another block. -/
theorem not_mentioned_of_mergedAway {f : Function} {k : Nat} (hops : ∀ i ∈ block, ∃ op, i.op = .ir op)
    (hk : f.blocks[k]? = some block) (hv : v ∈ Item.mergedAway (Item.mergeBlock f.mergeInfo block)) {j : Nat}
    {other : List Instr} (hjk : j ≠ k) (hj : f.blocks[j]? = some other) :
    ∀ i ∈ other, MergeInfo.mentions v i = false := by
  intro i hi
  obtain ⟨-, -, -, hlocal⟩ := Item.chosen_of_mergedAway hops (block_sublist hk) hv
  by_contra hmention
  rw [Bool.not_eq_false] at hmention
  have hhere : block.any (MergeInfo.mentions v) = true := by
    obtain ⟨item, hitem, hdef⟩ := List.mem_filterMap.mp hv
    refine List.any_eq_true.mpr ⟨item.instr, ?_, by simp [MergeInfo.mentions, hdef]⟩
    rw [← Item.map_instr_mergeBlock f.mergeInfo block]
    exact List.mem_map_of_mem (List.mem_filter.mp hitem).1
  have hthere : other.any (MergeInfo.mentions v) = true := List.any_eq_true.mpr ⟨i, hi, hmention⟩
  have := two_le_countP (p := fun b => b.any (MergeInfo.mentions v)) hjk hj hk hthere hhere
  have hfew : f.blocks.countP (fun b => b.any (MergeInfo.mentions v)) ≤ 1 := by
    simpa [MergeInfo.isLiveOut, mergeInfo] using hlocal
  omega

/--
**Merging trees preserves meaning.**

Let the items of a block be run in order without the merged ones, each with its tree
evaluated from the leaves up.  Whatever values, memory, operations and the outside are,
this does the same as the instructions one by one, in the same order and with the same
values, except that registers merged away are not written; it leaves the same memory and the
same values in all other registers.  And a register that is merged away is written once and
read once in the whole function, and no other block mentions it.
-/
theorem mergeBlock_preserves_meaning (f : Function) (hops : ∀ i ∈ f.code, ∃ op, i.op = .ir op)
    (k : Nat) (block : List Instr) (hk : f.blocks[k]? = some block) :
    let items := Item.mergeBlock f.mergeInfo block
    (∀ (M : Meaning) (regs : Int → M.Value) (memory : M.Memory),
      let s : M.State := { regs := regs, memory := memory }
      (s.runItems items).trace
          = (s.run block).trace.filter (Deed.spares (Item.mergedAway items)) ∧
        (s.runItems items).memory = (s.run block).memory ∧
        ∀ v, v ∉ Item.mergedAway items → (s.runItems items).regs v = (s.run block).regs v) ∧
    ∀ v ∈ Item.mergedAway items,
      f.mergeInfo.defCount v = 1 ∧ f.mergeInfo.useCount v = 1 ∧
        ∀ j other, j ≠ k → f.blocks[j]? = some other → ∀ i ∈ other, MergeInfo.mentions v i = false := by
  intro items
  have hsub : block.Sublist f.mergeInfo.code := block_sublist hk
  have hops' : ∀ i ∈ block, ∃ op, i.op = .ir op := fun i hi => hops i (hsub.subset hi)
  refine ⟨?_, ?_⟩
  · intro M regs memory s
    have hagree : (s.run block).Agree (Item.mergedAway items) (s.runItems items) :=
      Item.agree_mergeBlock hops' hsub s
    refine ⟨?_, hagree.memory, hagree.regs⟩
    rw [← hagree.trace, eq_comm, List.filter_eq_self]
    intro d hd
    cases d with
    | set v x =>
      have : v ∉ Item.mergedAway items := by
        intro hv
        rcases Meaning.State.set_mem_runItems hd with h | ⟨item, hitem, hopen, hdef⟩
        · simp [s] at h
        · exact Item.not_defined_of_mergedAway hops' hsub hv item hitem hopen hdef
      simp [Deed.spares, this]
    | store o x => rfl
    | shown op type pointer x y => rfl
  · intro v hv
    obtain ⟨-, hdef, huse, -⟩ := Item.chosen_of_mergedAway hops' hsub hv
    exact ⟨hdef, huse, fun j other hjk hj => not_mentioned_of_mergedAway hops' hk hv hjk hj⟩

/-- A load, past a store to a register it does not read, into a sum, and the sum into a store. -/
def cascading : Function :=
  { Function.new "cascade" .void [] with
    vregCount := 31
    code :=
      [.ir .indirect (some (.vreg 28 .long)) (some (.vreg 27 (.pointer .long))) none,
       .ir .move (some (.vreg 31 .long)) (some (.const 7 .long)) none,
       .ir .add (some (.vreg 29 .long)) (some (.vreg 28 .long)) (some (.vreg 31 .long)),
       .ir .moveToPtr (some (.vreg 27 (.pointer .long))) (some (.vreg 29 .long)) none,
       .ir .move (some (.vreg 30 .long)) (some (.slot (-1) .long)) none] }

/-- The merges follow one another, and the store sees the same value as before. -/
theorem cascading_preserves_meaning :
    (∀ i ∈ cascading.code, ∃ op, i.op = .ir op) ∧
    cascading.blocks[0]? = some cascading.code ∧
    Item.mergedAway (Item.mergeBlock cascading.mergeInfo cascading.code) = [28, 31, 29] ∧
    ∀ (M : Meaning) (regs : Int → M.Value) (memory : M.Memory),
      let s : M.State := { regs := regs, memory := memory }
      let items := Item.mergeBlock cascading.mergeInfo cascading.code
      (s.runItems items).trace
          = (s.run cascading.code).trace.filter (Deed.spares (Item.mergedAway items)) ∧
        (s.runItems items).memory = (s.run cascading.code).memory ∧
        (s.runItems items).regs 30 = (s.run cascading.code).regs 30 := by
  have hops : ∀ i ∈ cascading.code, ∃ op, i.op = .ir op := by
    intro i hi
    simp only [cascading, List.mem_cons, List.not_mem_nil, or_false] at hi
    rcases hi with rfl | rfl | rfl | rfl | rfl <;> exact ⟨_, rfl⟩
  have hblock : cascading.blocks[0]? = some cascading.code := rfl
  have haway : Item.mergedAway (Item.mergeBlock cascading.mergeInfo cascading.code)
      = [28, 31, 29] := by decide
  refine ⟨hops, hblock, haway, fun M regs memory => ?_⟩
  obtain ⟨htrace, hmemory, hregs⟩ :=
    (mergeBlock_preserves_meaning cascading hops 0 cascading.code hblock).1 M regs memory
  exact ⟨htrace, hmemory, hregs 30 (by rw [haway]; decide)⟩

end Function

end Codegen
