/-
What the rules on words compute.

A rule is right about words of a width if its instructions, run on operands of the classes it
asks for, put the value of its operation into the destination and change nothing else.  Only the
low bits count: a source may be wider than the word, and so may the instruction.

The destination may be one of the sources, except where the rule reads that source after the
destination has been written.
-/
import Codegen.Proofs.Machine
import Codegen.Table.Basic

namespace Codegen

/-! ### The code of a rule -/

/-- The operand of an argument that is one of the rule's own. -/
def Arg.among (dst src1 src2 : Option Operand) : Arg → Option Operand
  | .dst => dst
  | .src1 => src1
  | .src2 => src2
  | _ => Option.none

/-- Is the argument one of the rule's own operands, or absent? -/
def Arg.isOwn : Arg → Bool
  | .none => true
  | .dst => true
  | .src1 => true
  | .src2 => true
  | _ => false

/-- The instruction for given operands. -/
def MicroOp.instr (dst src1 src2 : Option Operand) (m : MicroOp) : Instr :=
  { op := m.op
    dst := m.dst.among dst src1 src2
    src1 := m.v1.among dst src1 src2
    src2 := m.v2.among dst src1 src2
    template := m.template }

/-- Does the instruction write the rule's destination, and need no other register? -/
def MicroOp.isOwn (m : MicroOp) : Bool := m.dst == .dst && m.v1.isOwn && m.v2.isOwn

namespace Machine

/-- Is the operand of a class, for words of a width?  A class of narrower registers has none. -/
def Fits (w : IntWidth) : OpClass → Operand → Prop
  | .reg _ w', o => w.bits ≤ w'.bits ∧ o.vregId?.isSome = true
  | .mem _ w', o => w' = w ∧ ∃ index, o.value = .slot index
  | .const s w', o => ∃ n, o.value = .const n ∧
      (w = .w64 → s = .signed → w' = .w32 → OpClass.fitsSigned n .w32 = true)
  | _, _ => False

/-- Can an operand of the class carry a word? -/
def carries (w : IntWidth) : OpClass → Bool
  | .reg _ w' => w.bits ≤ w'.bits
  | .mem _ w' => w' = w
  | .const _ _ => true
  | _ => false

/-- Does a place in the frame or a register take a result of a class? -/
def Lands (w : IntWidth) : OpClass → Operand → Prop
  | .reg _ _, d => d.vregId?.isSome = true
  | .mem _ w', d => w' = w ∧ ∃ index, d.value = .slot index
  | _, _ => False

/-- If the operand is the destination, it is not read once that has been written. -/
def Spared (ops : List MicroOp) (d : Operand) (arg : Arg) (o : Operand) : Prop :=
  ∀ v, d.vregId? = some v → o.vregId? = some v → Rule.readsAfterWrite arg false ops = false

/-- The rule computes an operation on one word. -/
structure Transforms (w : IntWidth) (op : IrOp) (p : Pattern) : Prop where
  own : ∀ m ∈ p.ops, m.isOwn = true
  src2 : p.src2 = .none
  run : ∀ (μ : State) (d a : Operand), Lands w p.dst d → Fits w p.src1 a →
    Spared p.ops d .src1 a →
    ∃ μ', μ.run? (p.ops.map (MicroOp.instr (some d) (some a) none)) = some μ' ∧
      Delivers w μ d (op.word (μ.low w a) 0) μ'

/-- The rule computes an operation on two words. -/
structure Combines (w : IntWidth) (op : IrOp) (p : Pattern) : Prop where
  own : ∀ m ∈ p.ops, m.isOwn = true
  src1 : carries w p.src1 = true
  src2 : carries w p.src2 = true
  run : ∀ (μ : State) (d a b : Operand), Lands w p.dst d → Fits w p.src1 a → Fits w p.src2 b →
    Spared p.ops d .src1 a → Spared p.ops d .src2 b →
    ∃ μ', μ.run? (p.ops.map (MicroOp.instr (some d) (some a) (some b))) = some μ' ∧
      Delivers w μ d (op.word (μ.low w a) (μ.low w b)) μ'

/-! ### One instruction -/

/-- Can the operand be the source of an action? -/
def Feeds (a : Action) (immediate : Bool) (x : Operand) : Prop :=
  if immediate then
    ∃ n, x.value = .const n ∧ (a = .moveWide ∨ a.target ≠ .w64 ∨ OpClass.fitsSigned n .w32 = true)
  else x.isPlace = true ∧ a ≠ .moveWide

variable {d x o : Operand} {a : Action} {immediate im im' : Bool} {i j : Instr} {t t' : Template}
  {w w' : IntWidth} {μ μ' : State} {p : Pattern} {op : IrOp} {s : Signedness} {c : OpClass} {μ'' : Machine.State}
  {n : Nat}

theorem isPlace_of_vregId? (hd : d.vregId?.isSome = true) :
    d.isPlace = true ∧ d.isConst = false ∧ d.isMemory = false := by
  cases hv : d.value <;>
    simp_all [Operand.vregId?, Operand.isPlace, Operand.isConst, Operand.isMemory]

theorem Feeds.shown (h : Feeds a immediate x) :
    if immediate then x.isConst = true else x.isPlace = true := by
  unfold Feeds at h
  cases immediate with
  | true => obtain ⟨n, hn, -⟩ := h; simp [Operand.isConst, hn]
  | false => exact h.1

theorem Feeds.encodes (h : Feeds a immediate x) : a.encodes x = true := by
  unfold Feeds at h
  cases immediate with
  | true =>
    obtain ⟨n, hn, hfits⟩ := h
    simpa [Action.encodes, hn, or_assoc] using hfits
  | false =>
    have hplace := h.1
    cases hv : x.value <;> simp_all [Action.encodes, Operand.isPlace]

theorem Feeds.accepts (h : Feeds a immediate x) (hd : d.vregId?.isSome = true)
    (hnot : ∀ w, a ≠ .arithmetic .bnot w) : a.accepts x d = true := by
  have hwide : a = .moveWide → x.isConst = true := by
    intro ha
    have hshown := h.shown
    cases immediate with
    | true => exact hshown
    | false => exact absurd ha h.2
  unfold Action.accepts
  split <;> simp_all

theorem not_nop_of_isMachine {op : Opcode} (h : op.isMachine = true) : op ≠ .ir .nop := by
  rintro rfl
  simp [Opcode.isMachine] at h

theorem delivers_reg (h : Says t a immediate) (hnot : ∀ w, a ≠ .arithmetic .bnot w) (ht : i.template = t)
    (hop : i.op.isMachine = true) (hx : i.src1 = some x) (hd : i.dst = some d)
    (hreg : d.vregId?.isSome = true) (hfeeds : Feeds a immediate x) (hws : w.bits ≤ a.source.bits)
    (hwt : w.bits ≤ a.target.bits) (hmem : x.isMemory = true → a.source = w) :
    ∃ μ', μ.step? i = some μ' ∧ Delivers w μ d (a.word (μ.low w x) (μ.low w d)) μ' := by
  obtain ⟨hplace, hconst, hdmem⟩ := isPlace_of_vregId? hreg
  have hallow : a.allows x d = true := by
    simp [Action.allows, hconst, hdmem, hfeeds.accepts hreg hnot, hfeeds.encodes]
  exact h.delivers ht (not_nop_of_isMachine hop) hx hd hfeeds.shown hplace hallow hws hwt hmem (by simp [hdmem])

theorem delivers_slot (h : Says t (.move w) immediate) (ht : i.template = t) (hop : i.op.isMachine = true)
    (hx : i.src1 = some x) (hd : i.dst = some d) (hslot : ∃ index, d.value = .slot index)
    (hfeeds : Feeds (.move w) immediate x) (hmem : x.isMemory = false) :
    ∃ μ', μ.step? i = some μ' ∧ Delivers w μ d (μ.low w x) μ' := by
  obtain ⟨index, hv⟩ := hslot
  have hallow : (Action.move w).allows x d = true := by
    simp [Action.allows, Operand.isConst, hv, hmem, Action.accepts, hfeeds.encodes]
  exact h.delivers ht (not_nop_of_isMachine hop) hx hd hfeeds.shown (by simp [Operand.isPlace, hv]) hallow
    (Nat.le_refl _) (Nat.le_refl _) (by simp [hmem]) fun _ => rfl

/-- A place other than the one written has its value still. -/
theorem Delivers.low_eq {x : BitVec w.bits} (h : Delivers w μ d x μ') (hreg : d.vregId?.isSome = true)
    (hne : ∀ v, d.vregId? = some v → o.vregId? ≠ some v) (w' : IntWidth) :
    μ'.low w' o = μ.low w' o := by
  have hmem := h.memory
  rw [(isPlace_of_vregId? hreg).2.2] at hmem
  unfold State.low
  cases hv : o.value with
  | vreg u =>
    have hid : o.vregId? = some u.id := by simp [Operand.vregId?, hv]
    have hu : d.vregId? ≠ some u.id := fun hd => hne u.id hd hid
    simp [h.regs u.id hu]
  | slot index => simp [hmem]
  | _ => rfl

theorem Delivers.low_self {x : BitVec w.bits} (h : Delivers w μ d x μ') (hreg : d.vregId?.isSome = true) :
    μ'.low w d = x := by
  unfold State.low
  cases hv : d.value <;> simp only [Operand.vregId?, hv, Option.isSome, Bool.false_eq_true] at hreg
  exact h.word _ (by simp [Operand.vregId?, hv])

theorem Delivers.trans {y : BitVec w.bits} {x : BitVec w.bits} (h : Delivers w μ d x μ') (h' : Delivers w μ' d y μ'')
    (hreg : d.vregId?.isSome = true) : Delivers w μ d y μ'' := by
  have hmem := (isPlace_of_vregId? hreg).2.2
  refine ⟨h'.word, fun v hv => (h'.regs v hv).trans (h.regs v hv), ?_⟩
  have h1 := h.memory
  have h2 := h'.memory
  simp only [hmem, Bool.false_eq_true, if_false] at h1 h2 ⊢
  rw [h2, h1]

theorem run_arithmetic {y : Operand} (hop : op ≠ .bnot) (hi : Says i.template (.move w) im)
    (hj : Says j.template (.arithmetic op w') im') (hiop : i.op.isMachine = true)
    (hjop : j.op.isMachine = true) (hreg : d.vregId?.isSome = true) (hid : i.dst = some d)
    (hjd : j.dst = some d) (hix : i.src1 = some x) (hjy : j.src1 = some y) (hx : Feeds (.move w) im x)
    (hy : Feeds (.arithmetic op w') im' y) (hw : w.bits ≤ w'.bits) (hmem : y.isMemory = true → w' = w)
    (hne : ∀ v, d.vregId? = some v → y.vregId? ≠ some v) :
    ∃ μ', μ.run? [i, j] = some μ' ∧ Delivers w μ d (op.word (μ.low w x) (μ.low w y)) μ' := by
  obtain ⟨μ₁, hstep, h₁⟩ := delivers_reg (w := w) (μ := μ) hi nofun rfl hiop hix hid hreg hx
    (Nat.le_refl _) (Nat.le_refl _) fun _ => rfl
  obtain ⟨μ₂, hstep', h₂⟩ := delivers_reg (w := w) (μ := μ₁) hj (by simp [hop]) rfl hjop hjy hjd hreg
    hy hw hw hmem
  refine ⟨μ₂, ?_, ?_⟩
  · rw [show [i, j] = [i] ++ [j] from rfl,
      State.run?_append ((State.run?_singleton i).trans hstep), State.run?_singleton, hstep']
  · have hword := h₁.trans h₂ hreg
    rwa [h₁.low_eq hreg hne, h₁.low_self hreg] at hword

/-! ### Operands of a class -/

/-- Can operands of a class be the source of an action on words? -/
def reads (w : IntWidth) (a : Action) : Bool → OpClass → Bool
  | true, .const s w' => a = .moveWide || a.target ≠ .w64 || w = .w64 && s = .signed && w' = .w32
  | false, .reg _ _ => a ≠ .moveWide
  | false, .mem _ _ => a ≠ .moveWide && a.source = w
  | _, _ => false

theorem Fits.isMemory_eq (h : Fits w c o) : o.isMemory = c.isMemory := by
  cases c <;> simp only [Fits] at h
  case reg => exact (isPlace_of_vregId? h.2).2.2
  case mem => obtain ⟨-, index, hv⟩ := h; simp [Operand.isMemory, OpClass.isMemory, hv]
  case const => obtain ⟨n, hv, -⟩ := h; simp [Operand.isMemory, OpClass.isMemory, hv]

theorem Fits.feeds (h : Fits w c o) (hreads : reads w a immediate c = true) :
    Feeds a immediate o ∧ (o.isMemory = true → a.source = w) := by
  rw [h.isMemory_eq]
  cases immediate <;> cases c <;> simp only [reads, Bool.false_eq_true] at hreads
  case false.reg => exact ⟨⟨(isPlace_of_vregId? h.2).1, of_decide_eq_true hreads⟩, by simp [OpClass.isMemory]⟩
  case false.mem =>
    simp only [Bool.and_eq_true, decide_eq_true_eq] at hreads
    obtain ⟨-, index, hv⟩ := h
    exact ⟨⟨by simp [Operand.isPlace, hv], hreads.1⟩, fun _ => hreads.2⟩
  case true.const =>
    simp only [Bool.or_eq_true, Bool.and_eq_true, decide_eq_true_eq] at hreads
    obtain ⟨n, hn, hfits⟩ := h
    refine ⟨⟨n, hn, ?_⟩, by simp [OpClass.isMemory]⟩
    rcases hreads with (ha | ha) | ⟨⟨hw, hs⟩, hw'⟩
    · exact .inl ha
    · exact .inr (.inl ha)
    · exact .inr (.inr (hfits hw hs hw'))

theorem carries_reg (w : IntWidth) (s : Signedness) : carries w (.reg s w) = true :=
  decide_eq_true (Nat.le_refl _)

theorem carries_mem (w : IntWidth) (s : Signedness) : carries w (.mem s w) = true :=
  decide_eq_true rfl

/-! ### Rules that are right about words -/

/-- What a template says about its first source and its destination, and whether the source is an
immediate. -/
def saying? (t : Template) : Option (Action × Bool) :=
  match line? t with
  | some (a, [⟨immediate, .src1, selector⟩, ⟨false, .dst, target⟩]) =>
    if target = .width a.target ∧ (immediate = true ∨ selector = .width a.source) then some (a, immediate)
    else none
  | _ => none

theorem says_of_saying? (h : saying? t = some (a, immediate)) : Says t a immediate := by
  unfold saying? at h
  split at h
  · rename_i hline
    obtain ⟨⟨htarget, hsource⟩, heq⟩ := Option.ite_none_right_eq_some.mp h
    obtain ⟨rfl, rfl⟩ := Prod.mk.inj (Option.some.inj heq)
    exact ⟨_, htarget ▸ hline, fun himm => hsource.resolve_left (by simp [himm])⟩
  · cases h

/-- Does the target become what the source is? -/
def Action.copies : Action → Bool
  | .arithmetic _ _ => false
  | _ => true

/-- Is this a single move, widening, narrowing or load? -/
def isTransfer (w : IntWidth) (p : Pattern) : Bool :=
  match p.ops with
  | [⟨.machine _, .dst, .src1, .none, t⟩] =>
    (saying? t).any fun (a, immediate) =>
      a.copies && w.bits ≤ a.source.bits && w.bits ≤ a.target.bits && reads w a immediate p.src1 &&
        (!p.dst.isMemory || a = .move w && !p.src1.isMemory)
  | _ => false

theorem transforms_of_isTransfer (h : isTransfer w p = true) (hsrc2 : p.src2 = .none) :
    Transforms w .move p ∧ p.ops.length = 1 := by
  unfold isTransfer at h
  split at h
  · rename_i x t hops
    obtain ⟨⟨a, immediate⟩, hline, htest⟩ := (Option.any_eq_true _ _).mp h
    simp only [Bool.and_eq_true, Bool.or_eq_true, Bool.not_eq_true', decide_eq_true_eq] at htest
    obtain ⟨⟨⟨⟨hcopies, hws⟩, hwt⟩, hreads⟩, hdst⟩ := htest
    have hline := says_of_saying? hline
    have hword (x y : BitVec w.bits) : a.word x y = x := by cases a <;> first | rfl | cases hcopies
    refine ⟨⟨by simp [hops, MicroOp.isOwn, Arg.isOwn], hsrc2, fun μ d o hd ho _ => ?_⟩, by simp [hops]⟩
    obtain ⟨hfeeds, hmem⟩ := ho.feeds hreads
    rw [hops, List.map_singleton, State.run?_singleton]
    cases hc : p.dst <;> simp only [hc, Lands] at hd
    case reg =>
      have hnot : ∀ w, a ≠ .arithmetic .bnot w := by rintro w rfl; cases hcopies
      have h := delivers_reg (μ := μ) (i := MicroOp.instr (some d) (some o) none ⟨.machine x, .dst, .src1, .none, t⟩)
        hline hnot rfl rfl rfl rfl hd hfeeds hws hwt hmem
      rwa [hword] at h
    case mem =>
      obtain ⟨rfl, hsrc⟩ := hdst.resolve_left (by simp [hc, OpClass.isMemory])
      exact delivers_slot hline rfl rfl rfl rfl hd.2 hfeeds (ho.isMemory_eq.trans hsrc)
  · cases h

/-- Is one source moved to the destination and the other applied to it there? -/
def isCombination (w : IntWidth) (op : IrOp) (p : Pattern) : Bool :=
  match p.ops with
  | [⟨.machine .mov, .dst, x, .none, t⟩, ⟨.machine _, .dst, y, .dst, t'⟩] =>
    match saying? t, saying? t' with
    | some (a, im), some (.arithmetic op' w', im') =>
      a = .move w && op' = op && w.bits ≤ w'.bits &&
        (x = .src1 && y = .src2 && reads w a im p.src1 && reads w (.arithmetic op w') im' p.src2 ||
          op ≠ .sub && x = .src2 && y = .src1 && reads w a im p.src2 &&
            reads w (.arithmetic op w') im' p.src1)
    | _, _ => false
  | _ => false

theorem word_comm (hop : op.isBinaryWord = true) (hne : op ≠ .sub) (x y : BitVec n) :
    op.word x y = op.word y x := by
  cases op <;> first | exact absurd hop (by decide) | exact absurd rfl hne | skip
  case add => exact BitVec.add_comm x y
  case mul => exact BitVec.mul_comm x y
  case bor => exact BitVec.or_comm x y
  case band => exact BitVec.and_comm x y
  case xor => exact BitVec.xor_comm x y

theorem combines_of_isCombination (hop : op.isBinaryWord = true) (h : isCombination w op p = true)
    (hdst : p.dst = .reg s w) (hsrc1 : carries w p.src1 = true) (hsrc2 : carries w p.src2 = true) :
    Combines w op p := by
  have hbnot : op ≠ .bnot := by rintro rfl; cases hop
  unfold isCombination at h
  split at h
  · rename_i hops
    split at h
    · rename_i hline hline'
      simp only [Bool.and_eq_true, Bool.or_eq_true, decide_eq_true_eq] at h
      obtain ⟨⟨⟨rfl, rfl⟩, hw⟩, hsources⟩ := h
      have hline := says_of_saying? hline
      have hline' := says_of_saying? hline'
      -- the source that is applied is not the destination, because it is read after that is written
      rcases hsources with ⟨⟨⟨rfl, rfl⟩, hfirst⟩, hsecond⟩ | ⟨⟨⟨⟨hne, rfl⟩, rfl⟩, hfirst⟩, hsecond⟩
      · refine ⟨by simp [hops, MicroOp.isOwn, Arg.isOwn], hsrc1, hsrc2, fun μ d a b hd ha hb _ hspared => ?_⟩
        rw [hdst] at hd
        rw [hops] at hspared ⊢
        exact run_arithmetic hbnot hline hline' rfl rfl hd rfl rfl rfl rfl (ha.feeds hfirst).1
          (hb.feeds hsecond).1 hw (hb.feeds hsecond).2 fun v hdv hbv =>
            absurd (hspared v hdv hbv) (by simp [Rule.readsAfterWrite])
      · refine ⟨by simp [hops, MicroOp.isOwn, Arg.isOwn], hsrc1, hsrc2, fun μ d a b hd ha hb hspared _ => ?_⟩
        rw [hdst] at hd
        rw [hops] at hspared ⊢
        rw [word_comm hop hne]
        exact run_arithmetic hbnot hline hline' rfl rfl hd rfl rfl rfl rfl (hb.feeds hfirst).1
          (ha.feeds hsecond).1 hw (ha.feeds hsecond).2 fun v hdv hav =>
            absurd (hspared v hdv hav) (by simp [Rule.readsAfterWrite])
    · cases h
  · cases h

/-- Is the source moved to the destination and complemented there? -/
def isComplement (w : IntWidth) (p : Pattern) : Bool :=
  match p.ops with
  | [⟨.machine _, .dst, .src1, .none, t⟩, ⟨.machine _, .dst, .dst, .none, t'⟩] =>
    saying? t = some (.move w, false) && reads w (.move w) false p.src1 &&
      line? t' = some (.arithmetic .bnot w, [⟨false, .dst, .width w⟩])
  | _ => false

theorem transforms_of_isComplement (h : isComplement w p = true) (hdst : p.dst = .reg s w)
    (hsrc2 : p.src2 = .none) : Transforms w .bnot p := by
  unfold isComplement at h
  split at h
  · rename_i x t x' t' hops
    simp only [Bool.and_eq_true, decide_eq_true_eq] at h
    obtain ⟨⟨hline, hreads⟩, hnot⟩ := h
    refine ⟨by simp [hops, MicroOp.isOwn, Arg.isOwn], hsrc2, fun μ d a hd ha _ => ?_⟩
    rw [hdst] at hd
    rw [hops]
    obtain ⟨μ₁, hstep, h₁⟩ := delivers_reg (w := w) (μ := μ)
      (i := MicroOp.instr (some d) (some a) none ⟨.machine x, .dst, .src1, .none, t⟩) (says_of_saying? hline) nofun rfl
      rfl rfl rfl hd (ha.feeds hreads).1 (Nat.le_refl _) (Nat.le_refl _) fun _ => rfl
    obtain ⟨μ₂, hstep', h₂⟩ := delivers_complement (μ := μ₁)
      (i := MicroOp.instr (some d) (some a) none ⟨.machine x', .dst, .dst, .none, t'⟩) hnot nofun rfl hd
    refine ⟨μ₂, ?_, ?_⟩
    · rw [List.map_cons, List.map_singleton, ← List.singleton_append,
        State.run?_append ((State.run?_singleton _).trans hstep), State.run?_singleton, hstep']
    · have hword := h₁.trans h₂ hd
      rwa [h₁.low_self hd] at hword
  · cases h

end Machine

end Codegen
