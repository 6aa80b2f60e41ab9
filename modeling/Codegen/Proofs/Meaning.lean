/-
What generic code does.

Values and memory are left open: a `Meaning` says how operands are read, what operations
compute and how the outside answers, and everything about it is arbitrary.  Memory may be
bytes in which slots and globals overlap in any way, values may be words or words that
remember the type they were computed at; what is shown for every meaning holds for each of
these.

What operations may do is not open.  Most compute a value from their sources, and only a
load through a pointer looks at memory for it.  The others are seen from outside: a jump, a
return, a push, a call, a store through a pointer.  To those of them that may touch memory the
outside answers with any new memory, and with any new values of the pseudo-registers; it knows
the memory, the pseudo-registers and all that was seen of the code so far, but not the ordinary
registers.

A trace records every deed in order: registers written, places in memory written, and what is
seen from outside.
-/
import Codegen.Tree.Merge
import Mathlib.Tactic.ByContra
import Mathlib.Tactic.Tauto

namespace Codegen

/-! ### What operations may do -/

/-- What an operation does besides giving a value. -/
inductive Effect
  /-- Nothing: it only computes. -/
  | pure
  /-- It is seen from outside, and leaves memory as it is. -/
  | seen
  /-- It is seen from outside, and memory may be anything afterwards. -/
  | memory
  deriving DecidableEq

/-- The effect of a generic operation. -/
def IrOp.effect : IrOp → Effect
  | .moveToPtr | .startCall | .arg | .call | .endCall | .vaStart | .vaArg => .memory
  | .nop | .argStackPadding | .callArgReg | .allocateStack | .releaseStack | .ret | .startLoop
  | .endLoop | .jmp | .jz | .jnz => .seen
  | _ => .pure

/-- Something the code does. -/
inductive Deed (Value : Type)
  | set (v : Int) (x : Value)
  | store (o : Operand) (x : Value)
  /-- An operation that is seen from outside, with its pointer and its sources. -/
  | shown (op : IrOp) (type : Ty) (pointer x y : Option Value)

variable {o : Operand} {v : Int} {vs : List Int} {i : Instr} {t : Tree} {op : IrOp}

namespace Deed

variable {Value : Type}

/-- Is this more than a write of a register? -/
def isShown : Deed Value → Bool
  | .set _ _ => false
  | _ => true

/-- Is this not a write of one of these registers? -/
def spares (vs : List Int) : Deed Value → Bool
  | .set v _ => !vs.contains v
  | _ => true

theorem spares_of_isShown {d : Deed Value} (h : d.isShown = true) : d.spares vs = true := by
  cases d <;> simp_all [isShown, spares]

/-- Leaving out writes of registers does not change what is seen from outside. -/
theorem filter_isShown_filter_spares (vs : List Int) (trace : List (Deed Value)) :
    (trace.filter (spares vs)).filter isShown = trace.filter isShown := by
  rw [List.filter_filter]
  refine List.filter_congr fun d _ => ?_
  cases h : d.isShown with
  | true => rw [spares_of_isShown h]; rfl
  | false => rfl

end Deed

/-- What the outside answers to an operation. -/
structure Answer (Value Memory : Type) where
  value : Value
  memory : Memory
  /-- The new values of the pseudo-registers. -/
  regs : Int → Value

/-- How the parts of code are to be read. -/
structure Meaning where
  Value : Type
  Memory : Type
  /-- The value of an operand that is neither a virtual register nor a place in memory. -/
  constant : Operand → Value
  /-- The address of a place in memory, its contents, and its contents replaced. -/
  address : Operand → Value
  read : Memory → Operand → Value
  write : Memory → Operand → Value → Memory
  /-- What is found through a pointer. -/
  load : Memory → Ty → Option Value → Option Value → Value
  compute : Opcode → Ty → Option Value → Option Value → Value
  /-- The answer to what has been shown, the latest last. -/
  answer : List (Deed Value) → Memory → (Int → Option Value) → Answer Value Memory

namespace Meaning

variable (M : Meaning)

/-- Code under way. -/
@[ext] structure State where
  regs : Int → M.Value
  memory : M.Memory
  trace : List (Deed M.Value) := []

namespace State

variable {M} (s : M.State)

/-- The value of an operand. -/
def operand (o : Operand) : M.Value :=
  match o.vregId? with
  | some v => s.regs v
  | none => if o.isMemory then M.read s.memory o else M.constant o

/-- The value of an operand as a source of an operation: only taking an address does not look at what
is there. -/
def source (op : Opcode) (o : Operand) : M.Value :=
  if op = .ir .addressOf ∧ o.isMemory = true then M.address o else s.operand o

/-- The value of an operation. -/
def value (op : Opcode) (type : Ty) (x y : Option M.Value) : M.Value :=
  if op = .ir .indirect then M.load s.memory type x y else M.compute op type x y

/-- The value of a tree as a source of an operation, operands first. -/
def eval (parent : Opcode) : Tree → Option M.Value
  | .absent => none
  | .leaf o => some (s.source parent o)
  | .node op type l r => some (s.value op type (eval op l) (eval op r))

/-- Write a register. -/
def set (v : Int) (x : M.Value) : M.State :=
  { regs := fun w => if w = v then x else s.regs w
    memory := s.memory
    trace := s.trace ++ [.set v x] }

/-- Write a place in memory. -/
def store (o : Operand) (x : M.Value) : M.State :=
  { s with memory := M.write s.memory o x, trace := s.trace ++ [.store o x] }

/-- Put a result where it belongs.  Number 0 names no register. -/
def deliver (dst : Option Operand) (x : M.Value) : M.State :=
  match dst with
  | none => s
  | some o =>
    match o.vregId? with
    | some v => if v = 0 then s else s.set v x
    | none => if o.isMemory then s.store o x else s

/-- What the outside sees of the registers. -/
def pseudos (v : Int) : Option M.Value := if Reg.isPseudo v then some (s.regs v) else none

/-- Show an operation to the outside. -/
def tell (d : Deed M.Value) : M.State := { s with trace := s.trace ++ [d] }

/-- The answer to what has been shown. -/
def answer : Answer M.Value M.Memory := M.answer (s.trace.filter Deed.isShown) s.memory s.pseudos

/-- Let the outside change memory and pseudo-registers. -/
def yield : M.State :=
  { s with
    regs := fun v => if Reg.isPseudo v then s.answer.regs v else s.regs v
    memory := s.answer.memory }

/-- Carry out an instruction whose sources have the given values. -/
def perform (i : Instr) (x y : Option M.Value) : M.State :=
  match i.op with
  | .ir op =>
    let pointer := if op = .moveToPtr then i.dst.map s.operand else none
    let shown := s.tell (.shown op (Tree.valueType i) pointer x y)
    let dst := if op = .moveToPtr then none else i.dst
    match op.effect with
    | .pure => s.deliver i.dst (s.value i.op (Tree.valueType i) x y)
    | .seen => shown.deliver dst shown.answer.value
    | .memory => shown.yield.deliver dst shown.answer.value
  | _ => s

/-- Execute an instruction. -/
def step (i : Instr) : M.State :=
  s.perform i (i.src1.map (s.source i.op)) (i.src2.map (s.source i.op))

/-- Execute instructions one by one. -/
def run (code : List Instr) : M.State := code.foldl step s

/-- Execute an instruction whose sources are the trees of an item. -/
def stepItem (item : Item) : M.State :=
  match item.tree with
  | .node op _ l r => s.perform item.instr (s.eval op l) (s.eval op r)
  | _ => s

/-- Execute the items that are not merged, one by one. -/
def runItems (items : List Item) : M.State :=
  items.foldl (fun s item => if item.merged then s else s.stepItem item) s

end State

end Meaning

/-! ### What a tree depends on -/

namespace Tree

theorem reads_leaf (o : Operand) : (Tree.leaf o).reads = o.vregId?.toList := by
  cases h : o.vregId? <;> simp [reads, leaves, h]

theorem reads_node (op : Opcode) (type : Ty) (l r : Tree) :
    (Tree.node op type l r).reads = l.reads ++ r.reads := by
  simp [reads, leaves]

theorem readsMemory_node (op : Opcode) (type : Ty) (l r : Tree) :
    (Tree.node op type l r).readsMemory = true ↔
      op = .ir .indirect ∨ l.readsMemory = true ∨ r.readsMemory = true := by
  simp only [readsMemory, leaves, loads, List.any_append, Bool.or_eq_true, beq_iff_eq]
  tauto

end Tree

namespace Meaning.State

variable {M : Meaning} {s s' : M.State} {op : Opcode}

theorem source_congr (hregs : ∀ v, o.vregId? = some v → s'.regs v = s.regs v)
    (hmem : o.isMemory = true → s'.memory = s.memory) : s'.source op o = s.source op o := by
  unfold source
  split
  · rfl
  · unfold operand
    cases hid : o.vregId? with
    | some v => exact hregs v hid
    | none =>
      dsimp only
      split
      · rename_i hmemory
        rw [hmem hmemory]
      · rfl

/-- The value of a tree depends on the registers it reads, and on memory only if it reads memory. -/
theorem eval_congr : ∀ {parent : Opcode}, (∀ v ∈ t.reads, s'.regs v = s.regs v) →
    (t.readsMemory = true → s'.memory = s.memory) → s'.eval parent t = s.eval parent t := by
  induction t with
  | absent => exact fun _ _ => rfl
  | leaf o =>
    intro parent hregs hmem
    unfold eval
    rw [source_congr]
    · intro v hv
      exact hregs v (by simp [Tree.reads_leaf, hv])
    · intro h
      exact hmem (by simp [Tree.readsMemory, Tree.leaves, h])
  | node op type l r ihl ihr =>
    intro parent hregs hmem
    rw [Tree.reads_node] at hregs
    rw [Tree.readsMemory_node] at hmem
    have hl : s'.eval op l = s.eval op l :=
      ihl (fun v hv => hregs v (by simp [hv])) (fun h => hmem (by simp [h]))
    have hr : s'.eval op r = s.eval op r :=
      ihr (fun v hv => hregs v (by simp [hv])) (fun h => hmem (by simp [h]))
    unfold eval value
    rw [hl, hr]
    split
    · rename_i hload
      rw [hmem (.inl hload)]
    · rfl

end Meaning.State

/-! ### What an instruction leaves alone -/

namespace Instr

/-- The register that a store through a pointer reads. -/
def pointer (i : Instr) : List Int :=
  if i.op.storesThroughDst then (i.dst.bind (·.vregId?)).toList else []

theorem used_eq (i : Instr) : i.used = (Tree.ofInstr i).reads ++ i.pointer := by
  have hsources : i.sources.filterMap (·.vregId?) = (Tree.ofInstr i).reads := by
    unfold Tree.ofInstr
    rw [Tree.reads_node]
    cases h1 : i.src1 with
    | none => cases h2 : i.src2 <;> simp [sources, Tree.ofOperand, Tree.reads, Tree.leaves, h1, h2]
    | some a =>
      cases h2 : i.src2 <;>
        simp [sources, Tree.ofOperand, Tree.reads, Tree.leaves, h1, h2, List.filterMap_cons]
      split <;> rfl
  unfold used pointer
  rw [hsources]

theorem defined?_of_dst (hop : i.op.storesThroughDst = false) (hdst : i.dst = some o) (hid : o.vregId? = some v)
    (hv : v ≠ 0) : i.defined? = some v := by
  simp [defined?, hop, hdst, hid, hv]

theorem dst_of_defined? (h : i.defined? = some v) : i.dst.bind (·.vregId?) = some v := by
  unfold defined? at h
  split at h
  · exact nomatch h
  · exact (Option.filter_eq_some_iff.mp h).1

end Instr

theorem IrOp.storesThroughDst_iff (op : IrOp) :
    Opcode.storesThroughDst (.ir op) = true ↔ op = .moveToPtr := by
  cases op <;> simp [Opcode.storesThroughDst]

/-- A result goes to the register that the instruction writes; a store through a pointer has none. -/
theorem Instr.defined?_of_result (hop : i.op = .ir op) (ho : (if op = .moveToPtr then none else i.dst) = some o)
    (hid : o.vregId? = some v) (hv : v ≠ 0) : i.defined? = some v := by
  split at ho
  · cases ho
  · rename_i hne
    refine Instr.defined?_of_dst ?_ ho hid hv
    rw [hop, Bool.eq_false_iff, ne_eq, IrOp.storesThroughDst_iff]
    exact hne

/-- The operations that may touch memory are known to be such. -/
theorem Item.changesMemory_of_effect (hop : i.op = .ir op) (h : op.effect = .memory) :
    Item.changesMemory i = true := by
  unfold changesMemory
  rw [hop]
  cases op <;> simp_all [IrOp.effect, Opcode.writesMemory]

namespace Meaning.State

variable {M : Meaning} {s s' : M.State} {dst : Option Operand} {y : Option M.Value}

theorem regs_set (s : M.State) (v : Int) (x : M.Value) (w : Int) :
    (s.set v x).regs w = if w = v then x else s.regs w := rfl

/-- A result goes to a register, to a place in memory, or nowhere. -/
theorem deliver_cases (M : Meaning) (dst : Option Operand) :
    (∃ o v, dst = some o ∧ o.vregId? = some v ∧ v ≠ 0 ∧
      ∀ (s : M.State) x, s.deliver dst x = s.set v x) ∨
    (∃ o, dst = some o ∧ o.isMemory = true ∧ ∀ (s : M.State) x, s.deliver dst x = s.store o x) ∨
    ∀ (s : M.State) x, s.deliver dst x = s := by
  cases dst with
  | none => exact .inr (.inr fun _ _ => rfl)
  | some o =>
    cases hid : o.vregId? with
    | some v =>
      by_cases hv : v = 0
      · exact .inr (.inr fun s x => by simp [deliver, hid, hv])
      · exact .inl ⟨o, v, rfl, hid, hv, fun s x => by simp [deliver, hid, hv]⟩
    | none =>
      by_cases hmem : o.isMemory = true
      · exact .inr (.inl ⟨o, rfl, hmem, fun s x => by simp [deliver, hid, hmem]⟩)
      · exact .inr (.inr fun s x => by simp [deliver, hid, hmem])

theorem regs_deliver {x : M.Value} (h : ∀ o, dst = some o → o.vregId? = some v → v = 0) :
    (s.deliver dst x).regs v = s.regs v := by
  rcases deliver_cases M dst with ⟨o, w, ho, hid, hw, heq⟩ | ⟨o, -, -, heq⟩ | heq
  · rw [heq, regs_set, if_neg]
    rintro rfl
    exact hw (h o ho hid)
  · rw [heq]
    rfl
  · rw [heq]

theorem memory_deliver {x : M.Value} (h : ∀ o, dst = some o → o.isMemory = false) :
    (s.deliver dst x).memory = s.memory := by
  rcases deliver_cases M dst with ⟨o, w, -, -, -, heq⟩ | ⟨o, ho, hmem, -⟩ | heq
  · rw [heq]
    rfl
  · rw [h o ho] at hmem
    cases hmem
  · rw [heq]

theorem regs_perform {x : Option M.Value} (hv : Reg.isPseudo v = false) (hdef : i.defined? ≠ some v) :
    (s.perform i x y).regs v = s.regs v := by
  unfold perform
  cases hop : i.op with
  | ir op =>
    have hdst : ∀ o, (if op = .moveToPtr then none else i.dst) = some o → o.vregId? = some v →
        v = 0 := by
      intro o ho hid
      by_contra h0
      exact hdef (Instr.defined?_of_result hop ho hid h0)
    dsimp only
    cases heff : op.effect with
    | pure =>
      refine regs_deliver ?_
      rw [if_neg (by rintro rfl; cases heff)] at hdst
      exact hdst
    | seen => exact regs_deliver hdst
    | memory =>
      refine (regs_deliver hdst).trans ?_
      simp [yield, hv, tell]
  | machine op => rfl
  | unknown n => rfl

/-- Memory changes only under an instruction that may change it. -/
theorem memory_perform {x : Option M.Value}
    (h : Item.changesMemory i = false) : (s.perform i x y).memory = s.memory := by
  have hdst : ∀ o, i.dst = some o → o.isMemory = false := by
    intro o ho
    simp only [Item.changesMemory, ho, Option.any_some, Bool.or_eq_false_iff] at h
    exact h.2
  unfold perform
  cases hop : i.op with
  | ir op =>
    dsimp only
    cases heff : op.effect with
    | pure => exact memory_deliver hdst
    | seen =>
      refine memory_deliver fun o ho => ?_
      split at ho
      · cases ho
      · exact hdst o ho
    | memory =>
      rw [Item.changesMemory_of_effect hop heff] at h
      cases h
  | machine op => rfl
  | unknown n => rfl

/-! ### Agreeing but for some registers -/

/-- Two states agree but for the registers `vs`, and so do their traces. -/
structure Agree (vs : List Int) (s s' : M.State) : Prop where
  regs : ∀ v, v ∉ vs → s'.regs v = s.regs v
  memory : s'.memory = s.memory
  trace : s'.trace.filter (Deed.spares vs) = s.trace.filter (Deed.spares vs)

namespace Agree

theorem refl (vs : List Int) (s : M.State) : Agree vs s s := ⟨fun _ _ => rfl, rfl, rfl⟩

theorem trans {s'' : M.State} (h : Agree vs s s') (h' : Agree vs s' s'') : Agree vs s s'' :=
  ⟨fun v hv => (h'.regs v hv).trans (h.regs v hv), h'.memory.trans h.memory,
    h'.trace.trans h.trace⟩

variable {ws : List Int}

theorem mono (hsub : ∀ v ∈ vs, v ∈ ws) (h : Agree vs s s') : Agree ws s s' := by
  refine ⟨fun v hv => h.regs v fun hin => hv (hsub v hin), h.memory, ?_⟩
  have hfewer : ∀ trace : List (Deed M.Value),
      trace.filter (Deed.spares ws) = (trace.filter (Deed.spares vs)).filter (Deed.spares ws) := by
    intro trace
    rw [List.filter_filter]
    refine List.filter_congr fun d _ => ?_
    cases d with
    | set v x =>
      by_cases hv : v ∈ vs
      · simp [Deed.spares, hv, hsub v hv]
      · simp [Deed.spares, hv]
    | store o x => rfl
    | shown op type pointer x y => rfl
  rw [hfewer s'.trace, hfewer s.trace, h.trace]

variable (h : Agree vs s s')
include h

theorem shown : s'.trace.filter Deed.isShown = s.trace.filter Deed.isShown := by
  rw [← Deed.filter_isShown_filter_spares vs, h.trace, Deed.filter_isShown_filter_spares]

theorem eval (ht : ∀ v ∈ t.reads, v ∉ vs) (parent : Opcode) : s'.eval parent t = s.eval parent t :=
  eval_congr (fun v hv => h.regs v (ht v hv)) fun _ => h.memory

theorem operand (ho : ∀ v, o.vregId? = some v → v ∉ vs) : s'.operand o = s.operand o := by
  have hsource : s'.source (.ir .nop) o = s.source (.ir .nop) o :=
    source_congr (fun v hv => h.regs v (ho v hv)) fun _ => h.memory
  simpa [source] using hsource

theorem tell (d : Deed M.Value) : Agree vs (s.tell d) (s'.tell d) :=
  ⟨h.regs, h.memory, by simp [State.tell, h.trace]⟩

theorem set (v : Int) (x : M.Value) : Agree vs (s.set v x) (s'.set v x) := by
  refine ⟨fun w hw => ?_, h.memory, by simp [State.set, h.trace]⟩
  rw [regs_set, regs_set, h.regs w hw]

theorem store (o : Operand) (x : M.Value) : Agree vs (s.store o x) (s'.store o x) :=
  ⟨h.regs, by simp [State.store, h.memory], by simp [State.store, h.trace]⟩

theorem deliver (dst : Option Operand) (x : M.Value) :
    Agree vs (s.deliver dst x) (s'.deliver dst x) := by
  rcases deliver_cases M dst with ⟨o, v, -, -, -, heq⟩ | ⟨o, -, -, heq⟩ | heq
  · rw [heq, heq]
    exact h.set v x
  · rw [heq, heq]
    exact h.store o x
  · rw [heq, heq]
    exact h

variable (hvs : ∀ v ∈ vs, Reg.isPseudo v = false)
include hvs

theorem answer : s'.answer = s.answer := by
  have hpseudos : s'.pseudos = s.pseudos := by
    funext v
    unfold pseudos
    split
    · rename_i hv
      rw [h.regs v fun hin => by rw [hvs v hin] at hv; cases hv]
    · rfl
  unfold State.answer
  rw [h.shown, h.memory, hpseudos]

theorem yield : Agree vs s.yield s'.yield := by
  refine ⟨fun v hv => ?_, ?_, h.trace⟩
  · simp only [State.yield, h.answer hvs, h.regs v hv]
  · simp only [State.yield, h.answer hvs]

theorem perform (hpointer : ∀ v ∈ i.pointer, v ∉ vs) (x y : Option M.Value) :
    Agree vs (s.perform i x y) (s'.perform i x y) := by
  unfold State.perform
  cases hop : i.op with
  | ir op =>
    have hptr : (if op = .moveToPtr then i.dst.map s'.operand else none)
        = if op = .moveToPtr then i.dst.map s.operand else none := by
      split
      · rename_i hmove
        cases hdst : i.dst with
        | none => rfl
        | some o =>
          rw [Option.map_some, Option.map_some, h.operand]
          intro v hv
          refine hpointer v ?_
          simp [Instr.pointer, hop, hmove, Opcode.storesThroughDst, hdst, hv]
      · rfl
    have hvalue : s'.value i.op (Tree.valueType i) x y = s.value i.op (Tree.valueType i) x y := by
      unfold State.value
      rw [h.memory]
    rw [hop] at hvalue
    dsimp only
    rw [hptr]
    cases heff : op.effect with
    | pure =>
      dsimp only
      rw [hvalue]
      exact h.deliver _ _
    | seen =>
      dsimp only
      rw [(h.tell _).answer hvs]
      exact (h.tell _).deliver _ _
    | memory =>
      dsimp only
      rw [(h.tell _).answer hvs]
      exact ((h.tell _).yield hvs).deliver _ _
  | machine op => exact h
  | unknown n => exact h

end Agree

/-- A state agrees with itself before a register was written, but for that register. -/
theorem agree_set (s : M.State) (v : Int) (x : M.Value) : Agree [v] (s.set v x) s := by
  refine ⟨fun w hw => ?_, rfl, ?_⟩
  · rw [regs_set, if_neg (by simpa using hw)]
  · simp [set, Deed.spares]

end Meaning.State

end Codegen
