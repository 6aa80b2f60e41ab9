/-
Integer code is always selected.

Selection can fail only where a tree has no cover, and a tree of integers has one.  What is left
is that the trees of integer code stay trees of integers, whatever is done to them before they are
covered: results that go to memory are split off, trees are merged, moves are dropped, and constants
are folded.

Merging is the step that could go wrong.  It puts the tree that computes a register in the
place of a leaf that reads it, and the two must have one type.  They do if each register has one type
throughout; but splitting makes registers of its own, and nothing says that the function did not
use their numbers already.  It does not matter: such a register is written and read once by
the split alone, and a register that is merged has no other write and no other use.
-/
import Codegen.Proofs.Coverage
import Codegen.Proofs.Items
import Codegen.Proofs.Select

namespace Codegen

open Codegen.Tree

/-! ### Integer code -/

/-- An instruction on integers. -/
inductive Instr.IsInteger : Instr → Prop
  | unary {op : IrOp} {w a : IntWidth} {s sa : Signedness} {d x : Operand} (label : Int)
      (template : Template) (hop : op.takesOne w a = true) (hd : d.IsInteger w s)
      (hplace : d.isConst = false) (hx : x.IsInteger a sa) :
      IsInteger ⟨.ir op, label, some d, some x, none, template⟩
  | binary {op : IrOp} {w a b : IntWidth} {s sa sb : Signedness} {d x y : Operand} (label : Int)
      (template : Template) (hop : op.takesTwo w a b = true) (hd : d.IsInteger w s)
      (hplace : d.isConst = false) (hx : x.IsInteger a sa) (hy : y.IsInteger b sb) :
      IsInteger ⟨.ir op, label, some d, some x, some y, template⟩
  | jump {o : Operand} (label : Int) (template : Template) (ho : o.isLabel = true) :
      IsInteger ⟨.ir .jmp, label, none, some o, none, template⟩
  | branch {op : IrOp} {w : IntWidth} {s : Signedness} {x o : Operand} (label : Int) (template : Template)
      (hop : op.isBranch = true) (hx : x.IsInteger w s) (ho : o.isLabel = true) :
      IsInteger ⟨.ir op, label, none, some x, some o, template⟩
  | ret (label : Int) (template : Template) : IsInteger ⟨.ir .ret, label, none, none, none, template⟩
  | retWith {w : IntWidth} {s : Signedness} {x : Operand} (label : Int) (template : Template)
      (hx : x.IsInteger w s) : IsInteger ⟨.ir .ret, label, none, some x, none, template⟩

/-- Each virtual register has one type throughout. -/
def Function.OneTyped (f : Function) : Prop :=
  ∃ typeOf : Int → Ty, ∀ i ∈ f.code, ∀ o ∈ i.operands, ∀ v, o.vregId? = some v → o.type = typeOf v

/-- An instruction on integers that writes memory only if it is a move. -/
structure Instr.IsStored (i : Instr) : Prop where
  isInteger : i.IsInteger
  isMove : ∀ d, i.dst = some d → d.isMemory = true → i.op = .ir .move

/-! ### Preparing trees -/

variable {dst : Option Operand} {typeOf : Int → Ty} {i : Instr} {d : Operand} {events : Array Event} {v : Int}

namespace Tree

variable {w w' : IntWidth} {s s' : Signedness}

theorem eq_of_sameRepresentation (h : sameRepresentation (.int w s) (.int w' s') = true) :
    w = w' ∧ s = s' := by
  simpa [sameRepresentation, Ty.isMissing, Ty.isPointer, Ty.same] using h

variable {t l r : Tree} {op : Opcode} {v : Int64}

theorem isInteger_simplify (h : t.IsInteger w s) : t.simplify.IsInteger w s := by
  induction h with
  | leaf ho => exact .leaf ho
  | @unary op w a s sa l hop hl ih =>
    rw [simplify]
    split
    · rename_i hmove
      rw [Bool.and_eq_true, ih.type_eq] at hmove
      obtain ⟨rfl, rfl⟩ := eq_of_sameRepresentation hmove.2
      exact ih
    · exact .unary hop ih
  | @binary op w a b s sa sb l r hop hl hr ihl ihr =>
    have hne : (Opcode.ir op == .ir .move) = false := by
      cases op <;> first | rfl | cases hop
    rw [simplify, hne]
    exact .binary hop ihl ihr

theorem isInteger_constant (n : Int64) (w : IntWidth) (s : Signedness) :
    IsInteger w s (.leaf (.const (truncate n (.int w s)) (.int w s))) :=
  .leaf (.const _ 0 (truncate_truncate n w s))

/-- An operation that can be evaluated has a value in range. -/
theorem exists_of_evaluate {type : Ty} (h : evaluate op type l r = some v) : ∃ n, v = truncate n type := by
  unfold evaluate at h
  split at h
  · exact nomatch h
  · split at h
    · exact nomatch h
    · obtain ⟨n, -, rfl⟩ := Option.map_eq_some_iff.mp h
      exact ⟨n, rfl⟩

theorem isInteger_fold (h : t.IsInteger w s) : t.fold.IsInteger w s := by
  induction h with
  | leaf ho => exact .leaf ho
  | @unary op w a s sa l hop hl ih =>
    simp only [fold]
    cases hv : evaluate (.ir op) (.int w s) l.fold .absent with
    | none => exact .unary hop ih
    | some v =>
      obtain ⟨n, rfl⟩ := exists_of_evaluate hv
      exact isInteger_constant n w s
  | @binary op w a b s sa sb l r hop hl hr ihl ihr =>
    simp only [fold]
    cases hv : evaluate (.ir op) (.int w s) l.fold r.fold with
    | none => exact .binary hop ihl ihr
    | some v =>
      obtain ⟨n, rfl⟩ := exists_of_evaluate hv
      exact isInteger_constant n w s

theorem withType_of_isInteger (h : t.IsInteger w s) : t.withType (.int w s) = t := by
  cases h with
  | leaf ho => cases ho <;> rfl
  | unary => rfl
  | binary => rfl

theorem selectable_simplifyRoot (h : Selectable dst t) : Selectable dst (t.simplifyRoot dst) := by
  cases h with
  | @value d w s _ hd hplace ht hnode hmove =>
    cases ht with
    | leaf ho => cases hnode
    | @unary op _ a _ sa l hop hl =>
      have hsimple := isInteger_simplify hl
      simp only [simplifyRoot]
      split
      · -- the move of an operation to a register is the operation itself
        rename_i hdirect
        simp only [Bool.and_eq_true, Bool.not_eq_true', hsimple.type_eq] at hdirect
        obtain ⟨⟨⟨-, hsame⟩, hnode⟩, hreg⟩ := hdirect
        obtain ⟨rfl, rfl⟩ := eq_of_sameRepresentation hsame
        rw [withType_of_isInteger hsimple]
        exact .value hd hplace hsimple hnode fun hmem => absurd (hmem.symm.trans hreg) (by simp)
      · exact .value hd hplace (.unary hop hsimple) rfl hmove
    | @binary op _ a b _ sa sb l r hop hl hr =>
      have hne : (Opcode.ir op == .ir .move) = false := by
        cases op <;> first | rfl | cases hop
      simp only [simplifyRoot, hne]
      exact .value hd hplace (.binary hop (isInteger_simplify hl) (isInteger_simplify hr)) rfl hmove
  | jump type ho => exact .jump type ho
  | @branch op type w s l o hop hl ho =>
    have hne : (Opcode.ir op == .ir .move) = false := by
      cases op <;> first | rfl | cases hop
    simp only [simplifyRoot, hne]
    exact .branch type hop (isInteger_simplify hl) ho
  | ret type => exact .ret type
  | retWith type hl => exact .retWith type (isInteger_simplify hl)

theorem selectable_foldRoot (h : Selectable dst t) : Selectable dst (t.foldRoot dst) := by
  cases h with
  | @value d w s t hd hplace ht hnode hmove =>
    cases t with
    | absent => cases ht
    | leaf o => exact nomatch hnode
    | node op type l r =>
      obtain rfl : type = .int w s := ht.type_eq
      have hbelow : IsInteger w s (.node op (.int w s) l.fold r.fold) := by
        cases ht with
        | unary hop hl => exact .unary hop (isInteger_fold hl)
        | binary hop hl hr => exact .binary hop (isInteger_fold hl) (isInteger_fold hr)
      simp only [foldRoot]
      cases hv : evaluate op (.int w s) l.fold r.fold with
      | none => exact .value hd hplace hbelow rfl hmove
      | some v =>
        obtain ⟨n, rfl⟩ := exists_of_evaluate hv
        exact .value hd hplace (.unary rfl (isInteger_constant n w s)) rfl fun _ => rfl
  | jump type ho => exact .jump type ho
  | branch type hop hl ho => exact .branch type hop (isInteger_fold hl) ho
  | ret type => exact .ret type
  | retWith type hl => exact .retWith type (isInteger_fold hl)

end Tree

/-- Preparing the tree of an instruction keeps it one that can be covered. -/
theorem Selection.selectable_prepare {t : Tree} (fold : Bool) (h : t.Selectable i.dst) :
    (prepare fold i t).Selectable i.dst := by
  cases fold with
  | false => exact selectable_simplifyRoot h
  | true => exact selectable_foldRoot (selectable_simplifyRoot h)

/-! ### The types of registers -/

/-- A virtual register with its type. -/
def Operand.typedReg? (o : Operand) : Option (Int × Ty) := o.vregId?.map fun v => (v, o.type)

theorem Operand.typedReg?_eq {o : Operand} (h : o.vregId? = some v) : o.typedReg? = some (v, o.type) := by
  simp [typedReg?, h]

namespace Instr

/-- The registers that are read, with their types. -/
def typedUses (code : List Instr) : List (Int × Ty) :=
  code.flatMap fun i => i.sources.filterMap (·.typedReg?)

/-- The registers that are written, with their types. -/
def typedDefs (code : List Instr) : List (Int × Ty) := code.filterMap fun i => i.dst.bind (·.typedReg?)

theorem typedUses_append (code more : List Instr) :
    typedUses (code ++ more) = typedUses code ++ typedUses more := List.flatMap_append

theorem typedDefs_append (code more : List Instr) :
    typedDefs (code ++ more) = typedDefs code ++ typedDefs more := List.filterMap_append

/-- Integer code has no stores through pointers, and nothing that selection leaves as it is. -/
theorem IsInteger.plain (h : i.IsInteger) :
    i.op.storesThroughDst = false ∧ Item.isSettled i = false ∧ i.op ≠ .ir .none := by
  -- in each case the operations that are not among those of integer code are ruled out
  cases h with
  | @unary op _ _ _ _ _ _ label template hop =>
    refine ⟨?_, ?_, by rintro ⟨⟩; exact nomatch hop⟩ <;>
      cases op <;> first | rfl | exact nomatch hop
  | @binary op _ _ _ _ _ _ _ _ _ label template hop =>
    refine ⟨?_, ?_, by rintro ⟨⟩; exact nomatch hop⟩ <;>
      cases op <;> first | rfl | exact nomatch hop
  | jump => exact ⟨rfl, rfl, nofun⟩
  | @branch op _ _ _ _ label template hop =>
    refine ⟨?_, ?_, by rintro ⟨⟩; exact nomatch hop⟩ <;>
      cases op <;> first | rfl | exact nomatch hop
  | ret => exact ⟨rfl, rfl, nofun⟩
  | retWith => exact ⟨rfl, rfl, nofun⟩

variable {code more : List Instr}

theorem map_typedUses (h : ∀ i ∈ code, i.IsInteger) :
    (typedUses code).map (·.1) = code.flatMap used := by
  induction code with
  | nil => rfl
  | cons i rest ih =>
    have hsources : (i.sources.filterMap (·.typedReg?)).map (·.1) = i.used := by
      rw [used, (h i (by simp)).plain.1, List.map_filterMap]
      simp [Operand.typedReg?, Function.comp_def]
    rw [List.flatMap_cons, ← hsources, ← ih fun j hj => h j (by simp [hj]), ← List.map_append]
    rfl

theorem defined?_of_isInteger (h : i.IsInteger) (hv : v ≠ 0) :
    i.defined? = some v ↔ i.dst.bind (·.vregId?) = some v := by
  rw [defined?, h.plain.1]
  simp [hv]

theorem count_typedDefs (h : ∀ i ∈ code, i.IsInteger) (hv : v ≠ 0) :
    ((typedDefs code).map (·.1)).count v = code.countP fun i => i.defined? == some v := by
  rw [typedDefs, List.map_filterMap, List.count_filterMap]
  refine List.countP_congr fun i hi => ?_
  rw [beq_iff_eq, beq_iff_eq, defined?_of_isInteger (h i hi) hv]
  cases i.dst <;> simp [Operand.typedReg?]

theorem eq_of_count_eq_one {regs : List (Int × Ty)} (h : (regs.map (·.1)).count v = 1) {t u : Ty}
    (ht : (v, t) ∈ regs) (hu : (v, u) ∈ regs) : t = u := by
  have hlength : (regs.filter (·.1 == v)).length = 1 := by
    rw [← List.countP_eq_length_filter]
    simpa [List.count, Function.comp_def] using h
  obtain ⟨p, hp⟩ := List.length_eq_one_iff.mp hlength
  have hone : ∀ t, (v, t) ∈ regs → (v, t) = p := fun t ht => by
    have hmem : (v, t) ∈ regs.filter (·.1 == v) := List.mem_filter.mpr ⟨ht, by simp⟩
    rw [hp] at hmem
    exact List.mem_singleton.mp hmem
  exact congrArg Prod.snd ((hone t ht).trans (hone u hu).symm)

/-- A register has the type that a function gives it, or some instruction writes it and some
instruction reads it at one type. -/
def Paired (typeOf : Int → Ty) (code : List Instr) : Prop :=
  ∀ v, (∃ t, (v, t) ∈ typedDefs code ∧ (v, t) ∈ typedUses code) ∨
    ∀ t, (v, t) ∈ typedDefs code ++ typedUses code → t = typeOf v

theorem Paired.append (h : Paired typeOf code) (h' : Paired typeOf more) : Paired typeOf (code ++ more) := by
  intro v
  rw [typedDefs_append, typedUses_append]
  simp only [List.mem_append]
  rcases h v with ⟨t, hdef, huse⟩ | hcode
  · exact .inl ⟨t, .inl hdef, .inl huse⟩
  · rcases h' v with ⟨t, hdef, huse⟩ | hmore
    · exact .inl ⟨t, .inr hdef, .inr huse⟩
    · refine .inr fun t ht => ?_
      simp only [List.mem_append] at hcode hmore
      rcases ht with (ht | ht) | (ht | ht)
      · exact hcode t (.inl ht)
      · exact hmore t (.inl ht)
      · exact hcode t (.inr ht)
      · exact hmore t (.inr ht)

end Instr

/-- A register that may be merged is read at the type at which it is written. -/
def MergeInfo.Agrees (m : MergeInfo) : Prop :=
  ∀ v, v ≠ 0 → m.defCount v = 1 → m.useCount v = 1 → ∀ t u, (v, t) ∈ Instr.typedDefs m.code →
    (v, u) ∈ Instr.typedUses m.code → t = u

theorem MergeInfo.agrees_of_paired {m : MergeInfo} (h : ∀ i ∈ m.code, i.IsInteger)
    (hpaired : Instr.Paired typeOf m.code) : m.Agrees := by
  intro v hv hdef huse t u ht hu
  rcases hpaired v with ⟨t', hdef', huse'⟩ | hone
  · have hdefs : ((Instr.typedDefs m.code).map (·.1)).count v = 1 := (Instr.count_typedDefs h hv).trans hdef
    have huses : ((Instr.typedUses m.code).map (·.1)).count v = 1 := by
      rw [Instr.map_typedUses h]
      exact huse
    exact (Instr.eq_of_count_eq_one hdefs ht hdef').trans (Instr.eq_of_count_eq_one huses huse' hu)
  · exact (hone t (List.mem_append_left _ ht)).trans (hone u (List.mem_append_right _ hu)).symm

/-! ### Merging trees of integers -/

namespace Item

variable {m : MergeInfo}

/-- An item of integer code: its instruction is there, and its tree can be covered. -/
def IsInteger (m : MergeInfo) (item : Item) : Prop :=
  item.instr ∈ m.code ∧ item.tree.Selectable item.instr.dst

/-- The leaves of a tree that are registers are read in the code. -/
def Read (m : MergeInfo) (t : Tree) : Prop :=
  ∀ o ∈ t.leaves, ∀ v, o.vregId? = some v → (v, o.type) ∈ Instr.typedUses m.code

variable {user : Instr} {t t' : Tree} {e e' : List Item} {o : Operand} {s : Signedness} {w : IntWidth} {f : Function}
  {options : SelectOptions}

/-- What takes the place of a leaf has its type. -/
theorem isInteger_of_canMerge (hm : m.Agrees) (ho : o.IsInteger w s) (hv : o.vregId? = some v)
    (hread : Read m (.leaf o)) {between : List Item} {d : Item} (hd : d.IsInteger m)
    (hdef : d.instr.defined? = some v) (hmerge : canMerge m user v between d = true) : d.tree.IsInteger w s := by
  have hmovable := movable_of_canMerge hmerge
  obtain ⟨hbind, hne⟩ : d.instr.dst.bind (·.vregId?) = some v ∧ v ≠ 0 := by
    unfold Instr.defined? at hdef
    split at hdef
    · exact nomatch hdef
    · simpa using Option.filter_eq_some_iff.mp hdef
  obtain ⟨x, hdst, hx⟩ := Option.bind_eq_some_iff.mp hbind
  have hwritten : (v, x.type) ∈ Instr.typedDefs m.code :=
    List.mem_filterMap.mpr ⟨d.instr, hd.1, by rw [hdst]; exact Operand.typedReg?_eq hx⟩
  have htype : x.type = o.type :=
    hm v hne hmovable.onceWritten hmovable.onceRead _ _ hwritten (hread o (by simp [leaves]) v hv)
  have htree := hd.2
  rw [hdst] at htree
  cases htree with
  | value hx _ ht =>
    rw [hx.type_eq, ho.type_eq] at htype
    obtain ⟨rfl, rfl⟩ := Ty.int.inj htype
    exact ht

theorem Grafted.isInteger (hm : m.Agrees) (h : Grafted m user t e t' e') (ht : t.IsInteger w s)
    (hread : Read m t) (he : ∀ item ∈ e, item.IsInteger m) : t'.IsInteger w s := by
  induction h generalizing w s with
  | keep => exact ht
  | graft hv hdef _ hmerge =>
    cases ht with
    | leaf ho => exact isInteger_of_canMerge hm ho hv hread (he _ (by simp)) hdef hmerge
  | node hl hr ihl ihr =>
    have hkept := hl.forall_mem (P := IsInteger m) (fun _ _ hd => hd) he
    cases ht with
    | unary hop hleft =>
      cases hr
      exact .unary hop (ihl hleft (fun o ho => hread o (by simp [leaves, ho])) he)
    | binary hop hleft hright =>
      exact .binary hop (ihl hleft (fun o ho => hread o (by simp [leaves, ho])) he)
        (ihr hright (fun o ho => hread o (by simp [leaves, ho])) hkept)

theorem Grafted.label (h : Grafted m user (.leaf o) e t' e') (ho : o.isLabel = true) : t' = .leaf o := by
  cases h with
  | keep => rfl
  | graft hv =>
    unfold Operand.isLabel at ho
    unfold Operand.vregId? at hv
    split at ho
    · next hn =>
      rw [hn] at hv
      exact nomatch hv
    · exact nomatch ho

/-- Merging keeps a tree one that can be covered. -/
theorem Grafted.selectable (hm : m.Agrees) (hgrafted : Grafted m user t e t' e') (h : t.Selectable dst)
    (hread : Read m t) (he : ∀ item ∈ e, item.IsInteger m) : t'.Selectable dst := by
  have hleft : ∀ {op type l r}, t = .node op type l r → Read m l := fun ht o ho =>
    hread o (by simp [ht, leaves, ho])
  cases h with
  | value hd hplace ht hnode hmove =>
    have hmerged := hgrafted.isInteger hm ht hread he
    cases ht with
    | leaf => cases hnode
    | unary =>
      obtain ⟨l', r', e₁, rfl, -, -⟩ := hgrafted.exists_node
      exact .value hd hplace hmerged rfl hmove
    | binary =>
      obtain ⟨l', r', e₁, rfl, -, -⟩ := hgrafted.exists_node
      exact .value hd hplace hmerged rfl hmove
  | jump type ho =>
    obtain ⟨l', r', e₁, rfl, hl, hr⟩ := hgrafted.exists_node
    cases hr
    rw [hl.label ho]
    exact .jump type ho
  | branch type hop hinteger ho =>
    obtain ⟨l', r', e₁, rfl, hl, hr⟩ := hgrafted.exists_node
    rw [hr.label ho]
    exact .branch type hop (hl.isInteger hm hinteger (hleft rfl) he) ho
  | ret type =>
    obtain ⟨l', r', e₁, rfl, hl, hr⟩ := hgrafted.exists_node
    cases hl
    cases hr
    exact .ret type
  | retWith type hinteger =>
    obtain ⟨l', r', e₁, rfl, hl, hr⟩ := hgrafted.exists_node
    cases hr
    exact .retWith type (hl.isInteger hm hinteger (hleft rfl) he)

theorem selectable_ofInstr (h : i.IsStored) : (ofInstr i).Selectable i.dst := by
  obtain ⟨hinteger, hmove⟩ := h
  cases hinteger with
  | @unary op w a s sa d x label template hop hd hplace hx =>
    refine .value hd hplace ?_ rfl fun hmem => by simpa [ofInstr, isMove] using hmove d rfl hmem
    have htype : valueType ⟨.ir op, label, some d, some x, none, template⟩ = .int w s := hd.type_eq
    rw [ofInstr, htype]
    exact .unary hop (.leaf hx)
  | @binary op w a b s sa sb d x y label template hop hd hplace hx hy =>
    refine .value hd hplace ?_ rfl fun hmem => by simpa [ofInstr, isMove] using hmove d rfl hmem
    have htype : valueType ⟨.ir op, label, some d, some x, some y, template⟩ = .int w s := hd.type_eq
    rw [ofInstr, htype]
    exact .binary hop (.leaf hx) (.leaf hy)
  | jump label template ho => exact .jump _ ho
  | branch label template hop hx ho => exact .branch _ hop (.leaf hx) ho
  | ret label template => exact .ret _
  | retWith label template hx => exact .retWith _ (.leaf hx)

theorem read_ofInstr (h : i ∈ m.code) : Read m (.ofInstr i) := by
  intro o ho v hv
  refine List.mem_flatMap.mpr ⟨i, h, List.mem_filterMap.mpr ⟨o, ?_, Operand.typedReg?_eq hv⟩⟩
  cases hsrc1 : i.src1 <;> cases hsrc2 : i.src2 <;>
    simp_all [ofInstr, leaves, ofOperand, Instr.sources]

/-- **The items of integer code can be covered**, whether or not trees are merged. -/
theorem isInteger_items (hm : (infoOf f options).Agrees) (h : ∀ i ∈ f.split.code, i.IsStored) :
    ∀ item ∈ f.items options, item.IsInteger (infoOf f options) :=
  forall_items (fun _ _ hd => hd) fun hi he hgrafted =>
    ⟨hi, hgrafted.selectable hm (selectable_ofInstr (h _ hi)) (read_ofInstr hi) he⟩

end Item

/-! ### Splitting results off -/

theorem Instr.IsInteger.with_dst (h : i.IsInteger) (hd : i.dst = some d) :
    ∃ w s, d.IsInteger w s ∧ d.isConst = false ∧
      ∀ d' : Operand, d'.IsInteger w s → d'.isConst = false → Instr.IsInteger { i with dst := some d' } := by
  cases h with
  | unary label template hop hd' hplace hx =>
    obtain rfl := Option.some.inj hd
    exact ⟨_, _, hd', hplace, fun d' hd' hplace => .unary label template hop hd' hplace hx⟩
  | binary label template hop hd' hplace hx hy =>
    obtain rfl := Option.some.inj hd
    exact ⟨_, _, hd', hplace, fun d' hd' hplace => .binary label template hop hd' hplace hx hy⟩
  | jump => exact nomatch hd
  | branch => exact nomatch hd
  | ret => exact nomatch hd
  | retWith => exact nomatch hd

namespace Function

variable {o : Operand} {t : Ty} {code : List Instr}

theorem isStored_splitMemoryDst (h : i.IsInteger) (n : Int) :
    ∀ j ∈ (splitMemoryDst n i).1, j.IsStored := by
  unfold splitMemoryDst
  split
  · rename_i d hd
    obtain ⟨w, s, hinteger, hplace, hother⟩ := h.with_dst hd
    have hmarker : i.op.isMarker = false := (Bool.or_eq_false_iff.mp h.plain.2.1).1
    rw [hinteger.type_eq, hmarker]
    split
    · rename_i hkeep
      intro j hj
      rw [List.mem_singleton.mp hj]
      refine ⟨h, fun d' hd' hmem => ?_⟩
      obtain rfl := Option.some.inj (hd.symm.trans hd')
      simpa [hmem, Ty.isAggregate, Ty.isLongDouble] using hkeep
    · have htmp : (Operand.vreg (n + 1) (.int w s)).IsInteger w s := .vreg { id := n + 1 } 0
      intro j hj
      rcases List.mem_cons.mp hj with rfl | hj
      · exact ⟨hother _ htmp rfl, fun d' hd' hmem => by obtain rfl := Option.some.inj hd'; cases hmem⟩
      · rw [List.mem_singleton.mp hj]
        exact ⟨.unary 0 .empty rfl hinteger hplace htmp, fun _ _ _ => rfl⟩
  · rename_i hd
    intro j hj
    rw [List.mem_singleton.mp hj]
    exact ⟨h, fun d hd' => absurd (hd.symm.trans hd') (by simp)⟩

theorem isStored_splitMemoryDsts (h : ∀ i ∈ code, i.IsInteger) (n : Int) :
    ∀ j ∈ (splitMemoryDsts n code).1, j.IsStored := by
  induction code generalizing n with
  | nil => exact fun _ hj => nomatch hj
  | cons i rest ih =>
    intro j hj
    rcases List.mem_append.mp hj with hj | hj
    · exact isStored_splitMemoryDst (h i (by simp)) n j hj
    · exact ih (fun k hk => h k (by simp [hk])) _ j hj

theorem eq_typeOf (h : ∀ o ∈ i.operands, ∀ v, o.vregId? = some v → o.type = typeOf v) (ho : o ∈ i.operands)
    (ht : o.typedReg? = some (v, t)) : t = typeOf v := by
  obtain ⟨u, hu, heq⟩ := Option.map_eq_some_iff.mp ht
  obtain ⟨rfl, rfl⟩ := Prod.mk.inj heq
  exact h o ho u hu

theorem mem_operands_of_source (h : o ∈ i.sources) : o ∈ i.operands := by
  cases hdst : i.dst <;> simp_all [Instr.operands, Instr.sources]

theorem paired_singleton (h : ∀ o ∈ i.operands, ∀ v, o.vregId? = some v → o.type = typeOf v) :
    Instr.Paired typeOf [i] := by
  refine fun v => .inr fun t ht => ?_
  rcases List.mem_append.mp ht with ht | ht
  · simp only [Instr.typedDefs, List.mem_filterMap, List.mem_singleton, exists_eq_left] at ht
    obtain ⟨d, hd, ht⟩ := Option.bind_eq_some_iff.mp ht
    exact eq_typeOf h (by simp [Instr.operands, hd]) ht
  · simp only [Instr.typedUses, List.flatMap_cons, List.flatMap_nil, List.append_nil,
      List.mem_filterMap] at ht
    obtain ⟨o, ho, ht⟩ := ht
    exact eq_typeOf h (mem_operands_of_source ho) ht

theorem typedReg?_of_isMemory (h : o.isMemory = true) : o.typedReg? = none := by
  cases hv : o.value <;> simp_all [Operand.isMemory, Operand.typedReg?, Operand.vregId?]

theorem typedReg?_vreg (v : Int) (t : Ty) : (Operand.vreg v t).typedReg? = some (v, t) := rfl

/-- The register made for a result is written and read at the type of the result. -/
theorem paired_splitMemoryDst (h : ∀ o ∈ i.operands, ∀ v, o.vregId? = some v → o.type = typeOf v) (n : Int) :
    Instr.Paired typeOf (splitMemoryDst n i).1 := by
  unfold splitMemoryDst
  split
  · rename_i d hd
    split
    · exact paired_singleton h
    · rename_i hsplit
      have hmem : d.isMemory = true := by
        cases hmem : d.isMemory with
        | true => rfl
        | false => simp [hmem] at hsplit
      have hdefs : Instr.typedDefs [{ i with dst := some (.vreg (n + 1) d.type) },
          .ir .move d (Operand.vreg (n + 1) d.type) none] = [(n + 1, d.type)] := by
        simp [Instr.typedDefs, Instr.ir, typedReg?_of_isMemory hmem, typedReg?_vreg]
      have huses : Instr.typedUses [{ i with dst := some (.vreg (n + 1) d.type) },
          .ir .move d (Operand.vreg (n + 1) d.type) none]
            = i.sources.filterMap (·.typedReg?) ++ [(n + 1, d.type)] := by
        simp [Instr.typedUses, Instr.ir, Instr.sources, typedReg?_vreg]
      intro v
      rw [hdefs, huses]
      by_cases hv : v = n + 1
      · exact .inl ⟨d.type, by simp [hv], by simp [hv]⟩
      · refine .inr fun t ht => ?_
        have huse : (v, t) ∈ i.sources.filterMap (·.typedReg?) := by simpa [hv] using ht
        obtain ⟨o, ho, ht⟩ := List.mem_filterMap.mp huse
        exact eq_typeOf h (mem_operands_of_source ho) ht
  · exact paired_singleton h

theorem paired_splitMemoryDsts (h : ∀ i ∈ code, ∀ o ∈ i.operands, ∀ v, o.vregId? = some v → o.type = typeOf v)
    (n : Int) : Instr.Paired typeOf (splitMemoryDsts n code).1 := by
  induction code generalizing n with
  | nil => exact fun _ => .inr fun _ ht => nomatch ht
  | cons i rest ih =>
    exact (paired_splitMemoryDst (h i (by simp)) n).append (ih (fun j hj => h j (by simp [hj])) _)

end Function

/-! ### Selecting integer code -/

namespace Selection

variable {t : Tree} {m : MergeInfo} {item : Item}

/-- A result can be moved out of a temporary. -/
theorem selectable_move (h : t.Selectable (some d)) (n : Int) :
    (ofInstr (.ir .move d (Operand.vreg n d.type) none)).Selectable (some d) := by
  cases h with
  | @value _ w s _ hd hplace =>
    have htmp : (Operand.vreg n d.type).IsInteger w s := hd.type_eq ▸ .vreg { id := n } 0
    exact Item.selectable_ofInstr (i := .ir .move d (Operand.vreg n d.type) none)
      ⟨.unary 0 .empty rfl hd hplace htmp, fun _ _ _ => rfl⟩

/-- A tree that can be covered is selected, also where its result goes through a temporary. -/
theorem hasCover_of_selectable (h : t.Selectable dst) : HasCover RuleSet.x86 dst t := by
  refine ⟨?_, fun d hd v => ?_⟩
  · obtain ⟨c, best, hbest⟩ := h.exists_cheapest
    rw [hbest]
    rfl
  · obtain ⟨c, best, hbest⟩ := (selectable_move (hd ▸ h) v).exists_cheapest
    rw [hbest]
    rfl

theorem itemHasCover_of_isInteger (h : item.IsInteger m) (hcode : ∀ i ∈ m.code, i.IsInteger) (fold : Bool) :
    ItemHasCover RuleSet.x86 fold item := fun _ _ =>
  ⟨(hcode item.instr h.1).plain.2.2, hasCover_of_selectable (selectable_prepare fold h.2)⟩

end Selection

theorem Traced.result_of_run {α : Type} {x : Traced α} {a : α} (h : x.run #[] = .ok a events) :
    x.result = .ok a := by
  unfold result outcome
  rw [h]

/--
**The rule table covers all integer code.**

Let the instructions of a function be moves, arithmetic, bitwise operations, shifts, comparisons,
logical operations, jumps and returns on registers, stack slots, globals and constants in range, all
of integer types; let each register have one type; and let no operand of arithmetic, and no value that
is shifted, be wider than the result.  Then selection succeeds, whether or not trees are merged and
constants folded, and whatever is said to be live after each block.
-/
theorem Function.select_integer_code (f : Function) (hcode : ∀ i ∈ f.code, i.IsInteger)
    (htypes : f.OneTyped) (options : SelectOptions) :
    ∃ g used, (f.select RuleSet.x86 options).result = .ok (g, used) := by
  obtain ⟨typeOf, htypes⟩ := htypes
  have hstored : ∀ i ∈ f.split.code, i.IsStored := isStored_splitMemoryDsts hcode f.vregCount
  have hinteger := fun i hi => (hstored i hi).isInteger
  have hagrees : (Item.infoOf f options).Agrees :=
    MergeInfo.agrees_of_paired hinteger (paired_splitMemoryDsts htypes f.vregCount)
  have hitems := Item.isInteger_items hagrees hstored
  obtain ⟨r, hgives, hlisted⟩ := select_gives f RuleSet.x86 options False
    (fun _ i hi => (hinteger i hi).plain.2.2)
    fun _ item hitem => Selection.itemHasCover_of_isInteger (hitems item hitem) hinteger options.fold
  cases r with
  | error e => exact hlisted.elim
  | ok p =>
    obtain ⟨events, hrun⟩ := hgives #[]
    exact ⟨p.1, p.2, Traced.result_of_run hrun⟩

/-- A sum of a byte and a word is widened, multiplied and shifted into memory, all in one tree; the
byte is compared with one that does not fit in it. -/
def Function.blending : Function :=
  { Function.new "blend" .void [] with
    vregCount := 5
    code :=
      [.ir .add (some (.vreg 3 (.int .w32 .signed))) (some (.vreg 1 (.int .w8 .signed)))
         (some (.vreg 2 (.int .w16 .unsigned))),
       .ir .mul (some (.vreg 4 (.int .w64 .unsigned))) (some (.vreg 3 (.int .w32 .signed)))
         (some (.const 7 (.int .w8 .signed))),
       .ir .bshr (some (.slot (-1) (.int .w64 .unsigned))) (some (.vreg 4 (.int .w64 .unsigned)))
         (some (.const 3 (.int .w8 .unsigned))),
       .ir .lt (some (.vreg 5 (.int .w16 .signed))) (some (.vreg 1 (.int .w8 .signed)))
         (some (.const 200 (.int .w8 .unsigned))),
       .ir .jz none (some (.vreg 5 (.int .w16 .signed))) (some (.label 1)),
       { Instr.ir .ret none (some (.vreg 2 (.int .w16 .unsigned))) none with label := 1 }] }

theorem Function.blending_selected :
    (∀ i ∈ blending.code, i.IsInteger) ∧ blending.OneTyped ∧
      ∀ options, ∃ g used, (blending.select RuleSet.x86 options).result = .ok (g, used) := by
  have hcode : ∀ i ∈ blending.code, i.IsInteger := by
    intro i hi
    simp only [blending, List.mem_cons, List.not_mem_nil, or_false] at hi
    rcases hi with rfl | rfl | rfl | rfl | rfl | rfl
    · exact .binary 0 .empty rfl (.vreg { id := 3 } 0) rfl (.vreg { id := 1 } 0) (.vreg { id := 2 } 0)
    · exact .binary 0 .empty rfl (.vreg { id := 4 } 0) rfl (.vreg { id := 3 } 0) (.const 7 0 (by decide))
    · exact .binary 0 .empty rfl (.slot (-1) 0) rfl (.vreg { id := 4 } 0) (.const 3 0 (by decide))
    · exact .binary 0 .empty rfl (.vreg { id := 5 } 0) rfl (.vreg { id := 1 } 0) (.const 200 0 (by decide))
    · exact .branch 0 .empty rfl (.vreg { id := 5 } 0) rfl
    · exact .retWith 1 .empty (.vreg { id := 2 } 0)
  have htypes : blending.OneTyped := by
    let types : List Ty :=
      [.int .w8 .signed, .int .w16 .unsigned, .int .w32 .signed, .int .w64 .unsigned, .int .w16 .signed]
    refine ⟨fun v => types.getD (v.toNat - 1) .missing, fun i hi o ho v hv => ?_⟩
    simp only [blending, List.mem_cons, List.not_mem_nil, or_false] at hi
    rcases hi with rfl | rfl | rfl | rfl | rfl | rfl <;>
      simp [Instr.operands, Instr.ir] at ho <;>
      rcases ho with rfl | rfl | rfl <;> cases hv <;> rfl
  exact ⟨hcode, htypes, fun options => select_integer_code blending hcode htypes options⟩

end Codegen
