/-
Selecting straight-line code on words of one type.

A function is selected in three steps: results that go to memory are split off, trees are merged,
and each tree is covered and emitted.  Splitting keeps memory and the registers the function had;
merging keeps all but the registers it merges away, which no emitted instruction writes; and the
code emitted for a tree computes its word.  So the machine ends with the words that the generic code
ends with.
-/
import Codegen.Proofs.Items
import Codegen.Proofs.Root

namespace Codegen

open Machine Item Meaning

/-! ### Instructions on words -/

variable {d : Operand} {v m n : Int} {i : Instr} {item : Item} {t : Ty} {w : IntWidth} {μ : Machine.State}
  {M : Meaning}

namespace Instr.IsWord

theorem exists_dst (h : i.IsWord t n) :
    ∃ d, i.dst = some d ∧ d.IsWord t n ∧ d.isConst = false := by
  cases h with
  | unary label template hop hd hplace ha => exact ⟨_, rfl, hd, hplace⟩
  | binary label template hop hd hplace ha hb => exact ⟨_, rfl, hd, hplace⟩

theorem exists_op (h : i.IsWord t n) :
    ∃ op, i.op = .ir op ∧ (op.isUnaryWord = true ∨ op.isBinaryWord = true) := by
  cases h with
  | unary label template hop => exact ⟨_, rfl, .inl hop⟩
  | binary label template hop => exact ⟨_, rfl, .inr hop⟩

theorem mono (h : i.IsWord t n) (hm : n ≤ m) : i.IsWord t m := by
  cases h with
  | unary label template hop hd hplace ha =>
    exact .unary label template hop (hd.mono hm) hplace (ha.mono hm)
  | binary label template hop hd hplace ha hb =>
    exact .binary label template hop (hd.mono hm) hplace (ha.mono hm) (hb.mono hm)

/-- The register an instruction on words writes is that of its destination. -/
theorem defined?_eq (h : i.IsWord t n) (hd : i.dst = some d) (hv : d.vregId? = some v) :
    i.defined? = some v := by
  obtain ⟨op, hop, hword⟩ := h.exists_op
  obtain ⟨d', hd', hplace, -⟩ := h.exists_dst
  obtain rfl : d' = d := Option.some.inj (hd'.symm.trans hd)
  refine defined?_of_dst ?_ hd hv (Int.ne_of_gt (hplace.bounds hv).1)
  rw [hop]
  cases op <;> first | rfl | simp [IrOp.isUnaryWord, IrOp.isBinaryWord] at hword

/-- It is selected, and not left as it is. -/
theorem not_settled (h : i.IsWord t n) : isSettled i = false ∧ i.op ≠ .ir .none := by
  obtain ⟨op, hop, hword⟩ := h.exists_op
  refine ⟨?_, ?_⟩
  · rw [isSettled, hop]
    cases op <;> first | rfl | simp [IrOp.isUnaryWord, IrOp.isBinaryWord] at hword
  · rw [hop]
    rintro ⟨rfl⟩
    simp [IrOp.isUnaryWord, IrOp.isBinaryWord] at hword

end Instr.IsWord

/-- An instruction on words that stores only what it moves. -/
structure Instr.IsSplit (t : Ty) (n : Int) (i : Instr) : Prop where
  isWord : i.IsWord t n
  isMove : ∀ d, i.dst = some d → d.isMemory = true → i.op = .ir .move

/-- An instruction on words, with a tree of words for it. -/
structure Item.IsWord (t : Ty) (n : Int) (item : Item) : Prop where
  instr : item.instr.IsSplit t n
  tree : item.tree.IsWord t n
  rooted : item.Rooted

namespace Meaning.State

variable (e : (words w).State) {l r : Tree}

theorem perform_word (h : i.IsWord t n) (ht : (Tree.node i.op (Tree.valueType i) l r).IsWord t n) :
    e.perform i (e.eval i.op l) (e.eval i.op r)
      = e.deliver i.dst (e.word (.node i.op (Tree.valueType i) l r)) := by
  obtain ⟨op, hop, hword⟩ := h.exists_op
  have hvalue : e.value i.op (Tree.valueType i) (e.eval i.op l) (e.eval i.op r)
      = e.word (.node i.op (Tree.valueType i) l r) :=
    Option.some.inj (e.eval_word ht (show Opcode.ir .move ≠ .ir .addressOf by decide))
  have heffect : op.effect = .pure := by
    cases op <;> first | rfl | simp [IrOp.isUnaryWord, IrOp.isBinaryWord] at hword
  rw [← hvalue]
  unfold perform
  rw [hop]
  simp only [heffect]

theorem step_word (h : i.IsWord t n) : e.step i = e.deliver i.dst (e.word (.ofInstr i)) := by
  have hstep := e.perform_word h (Tree.isWord_ofInstr h)
  rwa [eval_ofOperand, eval_ofOperand] at hstep

theorem stepItem_word (h : item.IsWord t n) :
    e.stepItem item = e.deliver item.instr.dst (e.word item.tree) := by
  obtain ⟨l, r, htree⟩ := h.rooted
  have hword := h.tree
  unfold stepItem
  rw [htree] at hword ⊢
  exact e.perform_word h.instr.isWord hword

end Meaning.State

/-! ### Merging trees of words -/

namespace Item

variable {m : MergeInfo}

variable {e e' : List Item} {block : List Instr} {user : Instr} {tree' : Tree}

theorem Grafted.isWord {tree : Tree} (h : Grafted m user tree e tree' e') (htree : tree.IsWord t n)
    (he : ∀ item ∈ e, item.tree.IsWord t n) : tree'.IsWord t n := by
  induction h with
  | keep => exact htree
  | graft => exact he _ (by simp)
  | node hl hr ihl ihr =>
    have hkept := hl.forall_mem (P := fun item => item.tree.IsWord t n) (fun _ _ hd => hd) he
    cases htree with
    | unary hop hleft =>
      cases hr
      exact .unary hop (ihl hleft he)
    | binary hop hleft hright => exact .binary hop (ihl hleft he) (ihr hright hkept)

/-- **The items of code on words are such**, whether or not trees are merged. -/
theorem isWord_items {f : Function} (options : SelectOptions) (h : ∀ i ∈ f.split.code, i.IsSplit t n) :
    ∀ item ∈ f.items options, item.IsWord t n := by
  have htrees : ∀ item ∈ f.items options, item.tree.IsWord t n :=
    forall_items (fun _ _ hd => hd) fun hi he hgrafted =>
      hgrafted.isWord (Tree.isWord_ofInstr (h _ hi).isWord) he
  obtain ⟨hinstrs, hcomposed⟩ := f.renders_items options
  refine fun item hitem => ⟨h _ ?_, htrees item hitem, (hcomposed item hitem).rooted⟩
  rw [← hinstrs]
  exact List.mem_map_of_mem hitem

/-- Running the items is running the block but for what is merged away, which what is left does not write. -/
structure Arranged (block : List Instr) (items : List Item) : Prop where
  agree : ∀ (M : Meaning) (s : M.State), (s.run block).Agree (mergedAway items) (s.runItems items)
  unwritten : ∀ v ∈ mergedAway items, ∀ item ∈ items, item.merged = false →
    item.instr.defined? ≠ some v

theorem runItems_plainBlock (s : M.State) (block : List Instr) : s.runItems (plainBlock block) = s.run block := by
  induction block generalizing s with
  | nil => rfl
  | cons i rest ih =>
    have hstep : s.stepItem { instr := i, tree := .ofInstr i } = s.step i := by
      show s.perform i (s.eval i.op (.ofOperand i.src1)) (s.eval i.op (.ofOperand i.src2)) = _
      rw [eval_ofOperand, eval_ofOperand]
      rfl
    show ((s.stepItem { instr := i, tree := .ofInstr i }).runItems (plainBlock rest)) = _
    rw [hstep, ih]
    rfl

theorem arranged_itemsOf (options : SelectOptions) (hops : ∀ i ∈ block, ∃ op, i.op = .ir op)
    (hsub : block.Sublist m.code) : Arranged block (Selection.itemsOf options m block) := by
  unfold Selection.itemsOf
  split
  · exact ⟨fun _ s => agree_mergeBlock hops hsub s, fun v => not_defined_of_mergedAway hops hsub⟩
  · have hnone : mergedAway (plainBlock block) = [] := by
      simp [mergedAway, plainBlock, List.filterMap_eq_nil_iff]
    refine ⟨fun M s => ?_, by simp [hnone]⟩
    rw [runItems_plainBlock]
    exact .refl _ _

/-- The places that what is left writes. -/
def dsts (items : List Item) : List Operand :=
  (items.filter (!·.merged)).flatMap (·.instr.dst.toList)

end Item

/-! ### Selecting items -/

/-- A word put in its place, in the machine and in generic code. -/
theorem Machine.Stores.agreeUpTo {e : (words w).State} {μ' : State} {x : BitVec w.bits} (h : Stores w n μ d x μ')
    (hd : d.IsWord t n) (hplace : d.isConst = false) (he : e.AgreeUpTo n (μ.words w)) :
    (e.deliver (some d) x).AgreeUpTo n (μ'.words w) := by
  cases hd with
  | vreg v offset hpos hle =>
    have hdeliver : e.deliver (some ⟨.vreg v, t, offset⟩) x = e.set v.id x :=
      if_neg (Int.ne_of_gt hpos)
    rw [hdeliver]
    refine ⟨h.memory.trans he.memory, fun u hu hun => ?_⟩
    by_cases huv : u = v.id
    · exact (h.word u (by rw [huv]; rfl)).trans (if_pos huv).symm
    · refine Eq.trans ?_ (if_neg huv).symm
      show (μ'.regs u).setWidth w.bits = e.regs u
      rw [h.regs u hun (fun heq => huv (Option.some.inj heq).symm)]
      exact he.regs u hu hun
  | slot index offset =>
    refine ⟨?_, fun u hu hun => ?_⟩
    · have hmem : μ.memory = e.memory := he.memory
      exact h.memory.trans (by rw [hmem]; rfl)
    · show (μ'.regs u).setWidth w.bits = e.regs u
      rw [h.regs u hun nofun]
      exact he.regs u hu hun
  | const c offset => exact nomatch hplace

namespace Selection

variable {sign : Signedness}

/-- The code emitted does to the machine what the items do, and writes what they write. -/
structure Performs (w : IntWidth) (n₀ n : Int) (code : List Instr) (items : List Item) : Prop where
  writes : Writes (dsts items) n code
  run : ∀ (e : (words w).State) (μ : State), e.AgreeUpTo n₀ (μ.words w) →
    ∃ μ', μ.run? code = some μ' ∧ (e.runItems items).AgreeUpTo n₀ (μ'.words w)

variable {n₀ n₁ n' : Int} {items more : List Item} {code code' : List Instr} {fold : Bool}
  {pieces : List (List Instr)}

theorem Performs.append (h : Performs w n₀ n code items) (h' : Performs w n₀ n₁ code' more) (hn : n ≤ n₁) :
    Performs w n₀ n (code ++ code') (items ++ more) := by
  refine ⟨?_, fun e μ he => ?_⟩
  · have hdsts : dsts (items ++ more) = dsts items ++ dsts more := by simp [dsts]
    rw [hdsts]
    exact h.writes.append h'.writes hn
  · obtain ⟨μ₁, hstep, he₁⟩ := h.run e μ he
    obtain ⟨μ₂, hstep', he₂⟩ := h'.run _ μ₁ he₁
    refine ⟨μ₂, by rw [State.run?_append hstep, hstep'], ?_⟩
    rwa [State.runItems_append]

theorem wanted_prepare (h : item.IsWord (.int w sign) n) (hdst : item.instr.dst = some d) (fold : Bool) :
    Wanted w sign n item.instr d (prepare fold item.instr item.tree) ∧
      Tree.Root w sign n d item.tree (prepare fold item.instr item.tree) := by
  obtain ⟨l, r, htree⟩ := h.rooted
  obtain ⟨d', hd', hplace, hconst⟩ := h.instr.isWord.exists_dst
  obtain rfl : d' = d := Option.some.inj (hd'.symm.trans hdst)
  have hroot := root_prepare h.tree (by rw [htree]; rfl) fold hdst
  refine ⟨⟨hdst, hplace, hconst, hroot.isWord, hroot.isNode, hroot.movelessBelow, fun hmem => ?_⟩, hroot⟩
  refine hroot.isMove hmem ?_
  rw [htree, h.instr.isMove d' hdst hmem]
  rfl

theorem itemHasCover_of_isWord (h : item.IsWord (.int w sign) n) (fold : Bool) :
    ItemHasCover RuleSet.x86 fold item := by
  intro _ _
  obtain ⟨d, hdst, -⟩ := h.instr.isWord.exists_dst
  exact ⟨h.instr.isWord.not_settled.2, (wanted_prepare h hdst fold).1.hasCover⟩

theorem performs_itemCode (h : item.IsWord (.int w sign) n₀) (hn : n₀ ≤ n)
    (hcode : ItemCode RuleSet.x86 fold item n code n') : Performs w n₀ n code [item] := by
  cases hcode with
  | merged hmerged =>
    refine ⟨?_, fun e μ he => ⟨μ, rfl, ?_⟩⟩
    · have hdsts : dsts [item] = [] := by simp [dsts, hmerged]
      rw [hdsts]
      exact .nil n
    · rwa [State.runItems_cons_merged hmerged]
  | settled _ hsettled => exact nomatch hsettled.symm.trans h.instr.isWord.not_settled.1
  | selected hopen _ htree =>
    obtain ⟨d, hdst, hplace, hconst⟩ := h.instr.isWord.exists_dst
    obtain ⟨hwanted, hroot⟩ := wanted_prepare h hdst fold
    have hrealizes := realizes_treeCode hwanted hn htree
    refine ⟨?_, fun e μ he => ?_⟩
    · have hdsts : dsts [item] = [d] := by simp [dsts, hopen, hdst]
      rw [hdsts]
      exact hrealizes.writes
    · obtain ⟨μ', hstep, hstores⟩ := hrealizes.run μ
      refine ⟨μ', hstep, ?_⟩
      rw [hroot.word, he.word h.tree] at hstores
      rw [State.runItems_cons_open hopen]
      show (e.stepItem item).AgreeUpTo n₀ (μ'.words w)
      rw [e.stepItem_word h, hdst]
      exact hstores.agreeUpTo hplace hconst he

/-- **The code of items does what they do.** -/
theorem performs_itemsCode (h : ∀ item ∈ items, item.IsWord (.int w sign) n₀) (hn : n₀ ≤ n)
    (hcode : ItemsCode RuleSet.x86 fold items n pieces n') : Performs w n₀ n pieces.flatten items := by
  induction hcode with
  | nil n => exact ⟨.nil n, fun e μ he => ⟨μ, rfl, he⟩⟩
  | cons hitem _ ih =>
    exact (performs_itemCode (h _ (by simp)) hn hitem).append
      (ih (fun j hj => h j (by simp [hj])) (Int.le_trans hn hitem.count)) hitem.count

end Selection

/-! ### Splitting results off -/

namespace Instr

theorem IsWord.with_dst (h : i.IsWord t n) (hd : d.IsWord t n) (hplace : d.isConst = false) :
    Instr.IsWord t n { i with dst := some d } := by
  cases h with
  | unary label template hop _ _ ha => exact .unary label template hop hd hplace ha
  | binary label template hop _ _ ha hb => exact .binary label template hop hd hplace ha hb

theorem IsSplit.mono (h : i.IsSplit t n) (hm : n ≤ m) : i.IsSplit t m :=
  ⟨h.isWord.mono hm, h.isMove⟩

end Instr

namespace Meaning.State.AgreeUpTo

variable {e e' : (words w).State}

theorem deliver {s s' : M.State} (h : AgreeUpTo n s s') (dst : Option Operand) (x : M.Value) :
    AgreeUpTo n (s.deliver dst x) (s'.deliver dst x) := by
  cases dst with
  | none => exact h
  | some o =>
    simp only [State.deliver]
    cases o.vregId? with
    | some v =>
      by_cases hv : v = 0
      · simp only [if_pos hv]
        exact h
      · simp only [if_neg hv]
        refine ⟨h.memory, fun u hu hun => ?_⟩
        simp only [set]
        rw [h.regs u hu hun]
    | none =>
      by_cases hmem : o.isMemory = true
      · simp only [if_pos hmem]
        refine ⟨?_, h.regs⟩
        simp only [store]
        rw [h.memory]
      · simp only [if_neg hmem]
        exact h

theorem set_right (h : AgreeUpTo n e e') (hv : n < v) (x : BitVec w.bits) : AgreeUpTo n e (e'.set v x) := by
  refine ⟨h.memory, fun u hu hun => ?_⟩
  have hne : u ≠ v := by omega
  exact (if_neg hne).trans (h.regs u hu hun)

theorem step (h : AgreeUpTo n e e') (hi : i.IsWord t n) : AgreeUpTo n (e.step i) (e'.step i) := by
  rw [e.step_word hi, e'.step_word hi, h.word (Tree.isWord_ofInstr hi)]
  exact h.deliver i.dst _

end Meaning.State.AgreeUpTo

namespace Function

variable {sign : Signedness}

/-- Splitting leaves memory and the registers up to `m` what they are. -/
structure Splits (w : IntWidth) (sign : Signedness) (m n : Int) (code code' : List Instr) (n' : Int) :
    Prop where
  count : n ≤ n'
  isSplit : ∀ i ∈ code', i.IsSplit (.int w sign) n'
  run : ∀ e e' : (words w).State, e.AgreeUpTo m e' → (e.run code).AgreeUpTo m (e'.run code')

/-- A result that goes through a register ends where it was to go. -/
theorem run_through (e : (words w).State) (hv : 0 < v) (hfirst : Instr.IsWord t n { i with dst := some (.vreg v t) })
    (hmove : Instr.IsWord t n (.ir .move d (Operand.vreg v t) none)) :
    e.run [{ i with dst := some (.vreg v t) }, .ir .move d (Operand.vreg v t) none]
      = (e.set v (e.word (.ofInstr i))).deliver (some d) (e.word (.ofInstr i)) := by
  have hset : e.step { i with dst := some (.vreg v t) } = e.set v (e.word (.ofInstr i)) :=
    (e.step_word hfirst).trans (if_neg (Int.ne_of_gt hv))
  have hback : (e.set v (e.word (.ofInstr i))).step (.ir .move d (Operand.vreg v t) none)
      = (e.set v (e.word (.ofInstr i))).deliver (some d) (e.word (.ofInstr i)) :=
    (State.step_word _ hmove).trans (congrArg _ (if_pos rfl))
  rw [← hback, ← hset]
  rfl

theorem splits_splitMemoryDst (h : i.IsWord (.int w sign) m) (hm : 0 ≤ m) (hn : m ≤ n) :
    Splits w sign m n [i] (splitMemoryDst n i).1 (splitMemoryDst n i).2 := by
  obtain ⟨d, hd, hplace, hconst⟩ := h.exists_dst
  obtain ⟨op, hop, hword⟩ := h.exists_op
  have hmarker : i.op.isMarker = false := by
    rw [hop]
    cases op <;> first | rfl | simp [IrOp.isUnaryWord, IrOp.isBinaryWord] at hword
  unfold splitMemoryDst
  simp only [hd, hmarker, hplace.type_eq]
  split
  · rename_i hkeep
    refine ⟨Int.le_refl n, fun j hj => ?_, fun e e' he => he.step h⟩
    rw [List.mem_singleton.mp hj]
    refine ⟨h.mono hn, fun d' hd' hmem => ?_⟩
    obtain rfl : d = d' := Option.some.inj (hd.symm.trans hd')
    simpa [hmem, Ty.isAggregate, Ty.isLongDouble] using hkeep
  · -- The register for the result is one that the function did not have.
    have hn' : 0 < n + 1 := by omega
    have htmp : (Operand.vreg (n + 1) (.int w sign)).IsWord (.int w sign) (n + 1) :=
      .vreg { id := n + 1 } 0 hn' (Int.le_refl _)
    have hfirst : Instr.IsWord (.int w sign) (n + 1)
        { i with dst := some (.vreg (n + 1) (.int w sign)) } :=
      (h.mono (by omega)).with_dst htmp rfl
    have hmove : Instr.IsWord (.int w sign) (n + 1)
        (.ir .move d (Operand.vreg (n + 1) (.int w sign)) none) :=
      .unary 0 .empty rfl (hplace.mono (by omega)) hconst htmp
    refine ⟨by omega, fun j hj => ?_, fun e e' he => ?_⟩
    · rcases List.mem_cons.mp hj with rfl | hj
      · refine ⟨hfirst, fun d' hd' hmem => ?_⟩
        obtain rfl := Option.some.inj hd'
        cases hmem
      · rw [List.mem_singleton.mp hj]
        exact ⟨hmove, fun _ _ _ => rfl⟩
    · rw [run_through e' hn' hfirst hmove]
      show (e.step i).AgreeUpTo m _
      rw [e.step_word h, hd, ← he.word (Tree.isWord_ofInstr h)]
      exact (he.set_right (by omega) _).deliver (some d) _

theorem splitMemoryDsts_cons (n : Int) (i : Instr) (rest : List Instr) :
    (splitMemoryDsts n (i :: rest)).1
      = (splitMemoryDst n i).1 ++ (splitMemoryDsts (splitMemoryDst n i).2 rest).1 := rfl

variable {code block : List Instr}

theorem splits_splitMemoryDsts (h : ∀ i ∈ code, i.IsWord (.int w sign) m) (hm : 0 ≤ m) (hn : m ≤ n) :
    Splits w sign m n code (splitMemoryDsts n code).1 (splitMemoryDsts n code).2 := by
  induction code generalizing n with
  | nil => exact ⟨Int.le_refl n, (fun _ hi => nomatch hi), fun _ _ he => he⟩
  | cons i rest ih =>
    have hone := splits_splitMemoryDst (h i (by simp)) hm hn
    have hmany := ih (fun j hj => h j (by simp [hj])) (Int.le_trans hn hone.count)
    refine ⟨Int.le_trans hone.count hmany.count, fun j hj => ?_, fun e e' he => ?_⟩
    · rcases List.mem_append.mp hj with hj | hj
      · exact (hone.isSplit j hj).mono hmany.count
      · exact hmany.isSplit j hj
    · have hcode : e'.run (splitMemoryDsts n (i :: rest)).1
          = (e'.run (splitMemoryDst n i).1).run (splitMemoryDsts (splitMemoryDst n i).2 rest).1 :=
        List.foldl_append
      rw [hcode]
      exact hmany.run _ _ (hone.run e e' he)

theorem label_splitMemoryDst (n : Int) (i : Instr) :
    ∃ j rest, (splitMemoryDst n i).1 = j :: rest ∧ j.label = i.label ∧ ∀ k ∈ rest, k.label = 0 := by
  unfold splitMemoryDst
  split
  · split
    · exact ⟨i, [], rfl, rfl, by simp⟩
    · exact ⟨_, _, rfl, rfl, by simp [Instr.ir]⟩
  · exact ⟨i, [], rfl, rfl, by simp⟩

theorem label_splitMemoryDsts (h : ∀ i ∈ code, i.label = 0) (n : Int) :
    ∀ j ∈ (splitMemoryDsts n code).1, j.label = 0 := by
  induction code generalizing n with
  | nil => exact fun _ hj => nomatch hj
  | cons i rest ih =>
    obtain ⟨j, more, heq, hlabel, hmore⟩ := label_splitMemoryDst n i
    intro k hk
    rw [splitMemoryDsts_cons, heq] at hk
    rcases List.mem_append.mp hk with hk | hk
    · rcases List.mem_cons.mp hk with rfl | hk
      · rw [hlabel, h i (by simp)]
      · exact hmore k hk
    · exact ih (fun j hj => h j (by simp [hj])) _ k hk

/-- Only the first instruction has a label, if any has. -/
theorem label_tail_splitMemoryDsts (h : ∀ i ∈ code.tail, i.label = 0) (n : Int) :
    ∀ j ∈ (splitMemoryDsts n code).1.tail, j.label = 0 := by
  cases code with
  | nil => exact fun _ hj => nomatch hj
  | cons i rest =>
    obtain ⟨j, more, heq, -, hmore⟩ := label_splitMemoryDst n i
    intro k hk
    rw [splitMemoryDsts_cons, heq, List.cons_append, List.tail_cons] at hk
    rcases List.mem_append.mp hk with hk | hk
    · exact hmore k hk
    · exact label_splitMemoryDsts h _ k hk

/-! ### Selecting a function -/

theorem isChain_runsInto (h : ∀ i ∈ code, i.IsSplit (.int w sign) n)
    (hlabels : ∀ i ∈ code.tail, i.label = 0) : code.IsChain fun i j => Instr.runsInto i j = true := by
  induction code with
  | nil => exact .nil
  | cons i rest ih =>
    cases rest with
    | nil => exact .singleton i
    | cons j rest =>
      obtain ⟨op, hop, hword⟩ := (h i (by simp)).isWord.exists_op
      have hjump : i.op.isJump = false := by
        rw [hop]
        cases op <;> first | rfl | simp [IrOp.isUnaryWord, IrOp.isBinaryWord] at hword
      refine .cons_cons ?_ (ih (fun k hk => h k (by simp [hk])) fun k hk => ?_)
      · simp [Instr.runsInto, hjump, hlabels j (by simp)]
      · exact hlabels k (List.mem_cons_of_mem j hk)

open Selection

theorem arranged_items (f : Function) (options : SelectOptions)
    (h : ∀ i ∈ f.split.code, i.IsSplit (.int w sign) n) (hlabels : ∀ i ∈ f.split.code.tail, i.label = 0) :
    Arranged f.split.code (f.items options) := by
  by_cases hempty : f.split.code = []
  · have hblocks : f.split.blocks = [] := by rw [Function.blocks_eq_splitBy, hempty]; rfl
    have hitems : f.items options = [] := by rw [items, hblocks]; rfl
    rw [hitems, hempty]
    exact ⟨fun M s => .refl _ s, by simp [mergedAway]⟩
  · have hblocks : f.split.blocks = [f.split.code] :=
      f.split.blocks_eq_splitBy.trans (List.splitBy_of_isChain hempty (isChain_runsInto h hlabels))
    rw [items, hblocks, List.flatMap_singleton]
    refine arranged_itemsOf options (fun i hi => ?_) (.refl _)
    exact (h i hi).isWord.exists_op.imp fun _ hop => hop.1

/-- What is left writes no register that was merged away. -/
theorem not_mergedAway_of_mem_dsts {items : List Item} (h : Arranged block items)
    (hitems : ∀ item ∈ items, item.IsWord t n) (hd : d ∈ dsts items) (hv : d.vregId? = some v) :
    0 < v ∧ v ∉ mergedAway items := by
  obtain ⟨item, hitem, hdst⟩ := List.mem_flatMap.mp hd
  obtain ⟨hmem, hopen⟩ := List.mem_filter.mp hitem
  have hword := (hitems item hmem).instr.isWord
  obtain ⟨d', hd', hplace, -⟩ := hword.exists_dst
  rw [hd', Option.toList_some, List.mem_singleton] at hdst
  subst hdst
  refine ⟨(hplace.bounds hv).1, fun hmerged => ?_⟩
  exact h.unwritten v hmerged item hmem (by simpa using hopen) (hword.defined?_eq hd' hv)

/--
**Selection is right about words of one type.**

Let a function be straight-line code of moves, sums, differences, products, bitwise operations and
complements on registers, stack slots and constants, all of one integer type.  Whether or not trees
are merged and constants folded, and whatever is said to be live at the end, selection succeeds.
From every state of the machine the selected code runs to its end.  It leaves the memory that the
generic code leaves, computing modulo a power of two from the words that the machine held; and each
register of the function that it writes ends with the word that the generic code leaves there.
-/
theorem select_computes_words (f : Function) (w : IntWidth) (sign : Signedness)
    (hcount : 0 ≤ f.vregCount) (hwords : ∀ i ∈ f.code, i.IsWord (.int w sign) f.vregCount)
    (hlabels : ∀ i ∈ f.code.tail, i.label = 0) (options : SelectOptions) :
    ∃ g used,
      (∀ events, ∃ events', (f.select RuleSet.x86 options).run events = .ok (g, used) events') ∧
      ∀ μ : State, ∃ μ', μ.run? g.code = some μ' ∧
        μ'.memory = ((μ.words w).run f.code).memory ∧
        ∀ v, v ≤ f.vregCount → (∃ i ∈ g.code, i.defined? = some v) →
          (μ'.regs v).setWidth w.bits = ((μ.words w).run f.code).regs v := by
  have hsplits := splits_splitMemoryDsts hwords hcount (Int.le_refl f.vregCount)
  have harranged := arranged_items f options hsplits.isSplit (label_tail_splitMemoryDsts hlabels f.vregCount)
  have hisWord := Item.isWord_items options hsplits.isSplit
  obtain ⟨r, hgives, hlisted⟩ := select_gives f RuleSet.x86 options False
    (fun _ i hi => (hsplits.isSplit i hi).isWord.not_settled.2)
    fun _ item hitem => itemHasCover_of_isWord (hisWord item hitem) options.fold
  cases r with
  | error e => exact hlisted.elim
  | ok p =>
  obtain ⟨pieces, hcode, hitems⟩ := hlisted.code
  have hperforms := performs_itemsCode hisWord (Int.le_refl _) hitems
  refine ⟨p.1, p.2, hgives, fun μ => ?_⟩
  obtain ⟨μ', hstep, hagree⟩ := hperforms.run (μ.words w) μ (.refl _ _)
  have hmerged := harranged.agree _ (μ.words w)
  have hkept := hsplits.run (μ.words w) (μ.words w) (.refl _ _)
  refine ⟨μ', ?_, ?_, fun v hv hdef => ?_⟩
  · rw [← State.run?_unlabelled, hcode]
    exact hstep
  · exact (hagree.memory.trans hmerged.memory).trans hkept.memory
  · obtain ⟨i, hi, hdef⟩ := hdef
    have hmem : i.unlabelled ∈ pieces.flatten := hcode ▸ List.mem_map_of_mem hi
    have hle : f.vregCount ≤ (splitMemoryDsts f.vregCount f.code).2 := hsplits.count
    obtain ⟨d, hd, hdv⟩ := (hperforms.writes _ hmem v hdef).resolve_right (by omega)
    obtain ⟨hpos, haway⟩ := not_mergedAway_of_mem_dsts harranged hisWord hd hdv
    exact ((hagree.regs v hpos (Int.le_trans hv hle)).trans (hmerged.regs v haway)).trans
      (hkept.regs v hpos hv)

/-- A difference that overwrites what it takes away, and a sum that goes to memory. -/
def adjusting : Function :=
  { Function.new "adjust" .void [] with
    vregCount := 28
    code :=
      [.ir .sub (some (.vreg 28 (.int .w32 .signed))) (some (.vreg 27 (.int .w32 .signed)))
         (some (.vreg 28 (.int .w32 .signed))),
       .ir .add (some (.slot (-1) (.int .w32 .signed))) (some (.vreg 28 (.int .w32 .signed)))
         (some (.const 5 (.int .w32 .signed)))] }

/-- The sum is in memory. -/
theorem adjusting_computes_words :
    0 ≤ adjusting.vregCount ∧
    (∀ i ∈ adjusting.code, i.IsWord (.int .w32 .signed) adjusting.vregCount) ∧
    (∀ i ∈ adjusting.code.tail, i.label = 0) ∧
    ∃ g used,
      (∀ events, ∃ events',
        (adjusting.select RuleSet.x86 {}).run events = .ok (g, used) events') ∧
      ∀ μ : State, ∃ μ', μ.run? g.code = some μ' ∧
        μ'.memory = μ.memory.store .w32 (Operand.slot (-1) (.int .w32 .signed)).place
          ((μ.regs 27).setWidth IntWidth.w32.bits - (μ.regs 28).setWidth IntWidth.w32.bits + 5#_) := by
  have hcount : 0 ≤ adjusting.vregCount := by decide
  have hwords : ∀ i ∈ adjusting.code, i.IsWord (.int .w32 .signed) adjusting.vregCount := by
    intro i hi
    simp only [adjusting, List.mem_cons, List.not_mem_nil, or_false] at hi
    rcases hi with rfl | rfl
    · exact .binary 0 .empty rfl (.vreg { id := 28 } 0 (by decide) (by decide)) rfl
        (.vreg { id := 27 } 0 (by decide) (by decide)) (.vreg { id := 28 } 0 (by decide) (by decide))
    · exact .binary 0 .empty rfl (.slot (-1) 0) rfl (.vreg { id := 28 } 0 (by decide) (by decide))
        (.const 5 0)
  have hlabels : ∀ i ∈ adjusting.code.tail, i.label = 0 := by
    simp [adjusting, Instr.ir]
  obtain ⟨g, used, hselect, hrun⟩ :=
    select_computes_words adjusting .w32 .signed hcount hwords hlabels {}
  refine ⟨hcount, hwords, hlabels, g, used, hselect, fun μ => ?_⟩
  obtain ⟨μ', hstep, hmemory, -⟩ := hrun μ
  exact ⟨μ', hstep, hmemory⟩

end Function

end Codegen
