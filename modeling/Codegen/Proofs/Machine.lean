/-
What selected code does.

A selected instruction means what its assembly says: mnemonic and operands are read off the
template, and the mnemonic gives the operation and its width.  Operands are shown the way the
template shows them, so a register shown at another width than the instruction's, an immediate
that is too long or a second operand in memory is no instruction at all, and running stops there.

Registers hold 64 bits.  Writing 32 of them clears the others, writing fewer keeps them.
-/
import Codegen.Proofs.Word
import Codegen.Render

namespace Codegen

/-- Is this a place a result can go to: a virtual register or a stack slot? -/
def Operand.isPlace (o : Operand) : Bool :=
  match o.value with
  | .vreg _ => true
  | .slot _ => true
  | _ => false

namespace Machine

open Template (Mark Selector Piece)

/-! ### Reading a template -/

/-- What a mnemonic says. -/
inductive Action
  | move (w : IntWidth)
  /-- The move of a full 64-bit number. -/
  | moveWide
  /-- The target becomes the result of an operation on it and the source. -/
  | arithmetic (op : IrOp) (w : IntWidth)
  | extend (s : Signedness) (source target : IntWidth)
  deriving DecidableEq

namespace Action

/-- The width of the source. -/
def source : Action → IntWidth
  | .move w => w
  | .moveWide => .w64
  | .arithmetic _ w => w
  | .extend _ source _ => source

/-- The width of the target. -/
def target : Action → IntWidth
  | .move w => w
  | .moveWide => .w64
  | .arithmetic _ w => w
  | .extend _ _ target => target

/-- The new value of the target, from the source and the old one. -/
def result : (act : Action) → BitVec act.source.bits → BitVec act.target.bits →
    BitVec act.target.bits
  | .move _, x, _ => x
  | .moveWide, x, _ => x
  | .arithmetic op _, x, y => op.word y x
  | .extend .signed _ _, x, _ => x.signExtend _
  | .extend .unsigned _ _, x, _ => x.setWidth _

/-- The letter of a width in mnemonics. -/
def letter (w : IntWidth) : String := String.singleton w.letter

/-- The mnemonics of one width.  Multiplication has no byte form. -/
def mnemonicsAt (w : IntWidth) : List (String × Action) :=
  [("mov", .move w), ("add", .arithmetic .add w), ("sub", .arithmetic .sub w),
      ("or", .arithmetic .bor w), ("and", .arithmetic .band w), ("xor", .arithmetic .xor w),
      ("not", .arithmetic .bnot w)].map (fun (name, act) => (name ++ letter w, act)) ++
    (if w = .w8 then [] else [("imul" ++ letter w, .arithmetic .mul w)])

/-- The mnemonics that widen.  From 32 bits there is only the signed one. -/
def wideningMnemonics : List (String × Action) :=
  IntWidth.all.flatMap fun f => (IntWidth.all.filter fun t => f.rank < t.rank).flatMap fun t =>
    ("movs" ++ letter f ++ letter t, Action.extend .signed f t) ::
      (if f = .w32 then [] else [("movz" ++ letter f ++ letter t, .extend .unsigned f t)])

/-- All mnemonics. -/
def mnemonics : List (String × Action) :=
  ("movabsq", .moveWide) :: IntWidth.all.flatMap mnemonicsAt ++ wideningMnemonics

/-- What a mnemonic says. -/
def ofMnemonic? (bytes : List UInt8) : Option Action :=
  (mnemonics.find? fun p => Utf8.encode p.1 == bytes).map (·.2)

end Action

/-- An operand as it stands in a template: with or without the sign of an immediate. -/
structure Shown where
  immediate : Bool
  mark : Mark
  selector : Selector
  deriving DecidableEq

/-- The mnemonic before a tab, and what comes after. -/
def splitMnemonic : List Piece → List UInt8 × List Piece
  | .byte 0x09 :: rest => ([], rest)
  | .byte b :: rest => (b :: (splitMnemonic rest).1, (splitMnemonic rest).2)
  | rest => ([], rest)

/-- The operands, separated by commas. -/
def shownOperands : List Piece → Option (List Shown)
  | [.operand m s] => some [⟨false, m, s⟩]
  | [.byte 0x24, .operand m s] => some [⟨true, m, s⟩]
  | .operand m s :: .byte 0x2c :: .byte 0x20 :: rest => (shownOperands rest).map (⟨false, m, s⟩ :: ·)
  | .byte 0x24 :: .operand m s :: .byte 0x2c :: .byte 0x20 :: rest =>
    (shownOperands rest).map (⟨true, m, s⟩ :: ·)
  | _ => none

/-- What a template says. -/
def line? (t : Template) : Option (Action × List Shown) :=
  let (mnemonic, rest) := splitMnemonic (Template.pieces 0 t.bytes)
  match Action.ofMnemonic? mnemonic, shownOperands rest with
  | some act, some operands => some (act, operands)
  | _, _ => none

namespace Shown

/-- Can an operand be shown like this in an instruction of a width? -/
def fits (s : Shown) (w : IntWidth) (o : Operand) : Bool :=
  match o.value with
  | .vreg _ => !s.immediate && !s.selector.isHalf && s.selector.widthOf o == w.bytes
  | .slot _ => !s.immediate && !s.selector.isHalf
  | .const _ => s.immediate
  | _ => false

/-- The operand of an instruction that is shown. -/
def operand? (s : Shown) (i : Instr) (w : IntWidth) : Option Operand :=
  (i.marked s.mark).filter (s.fits w)

end Shown

/-- Some targets are registers only, and the move of a full number has no other source. -/
def Action.accepts (source target : Operand) : Action → Bool
  | .moveWide => source.isConst && target.vregId?.isSome
  | .arithmetic .mul _ => target.vregId?.isSome
  | .arithmetic .bnot _ => false
  | .extend _ _ _ => target.vregId?.isSome
  | _ => true

/-- An immediate is no longer than 32 bits except in the move of a full number. -/
def Action.encodes (act : Action) (source : Operand) : Bool :=
  match source.value with
  | .const n => act == .moveWide || act.target != .w64 || OpClass.fitsSigned n .w32
  | _ => true

/-- Is there an instruction with these operands?  At most one of them is in memory. -/
def Action.allows (act : Action) (source target : Operand) : Bool :=
  !target.isConst && !(source.isMemory && target.isMemory) && act.accepts source target &&
    act.encodes source

/-! ### Running -/

/-- A register after its low bits were written. -/
def insertLow (w : IntWidth) (x : BitVec w.bits) (old : BitVec 64) : BitVec 64 :=
  match w with
  | .w8 => x.setWidth 64 ||| (old >>> 8) <<< 8
  | .w16 => x.setWidth 64 ||| (old >>> 16) <<< 16
  | .w32 => x.setWidth 64
  | .w64 => x

/-- The machine under way. -/
structure State where
  regs : Int → BitVec 64
  memory : Bytes

variable {d o : Operand} {k n m : Nat} {w : IntWidth} {a : Machine.Action} {i : Instr} {μ : Machine.State}
  {immediate : Bool}

namespace State

variable (μ : State)

/-- The low bits of an operand. -/
def low (w : IntWidth) (o : Operand) : BitVec w.bits :=
  match o.value with
  | .vreg v => (μ.regs v.id).setWidth w.bits
  | .slot _ => μ.memory.load w o.place
  | .const n => n.toBitVec.setWidth w.bits
  | _ => 0

/-- Write the low bits of an operand. -/
def put (w : IntWidth) (o : Operand) (x : BitVec w.bits) : State :=
  match o.value with
  | .vreg v => { μ with regs := fun u => if u = v.id then insertLow w x (μ.regs u) else μ.regs u }
  | .slot _ => { μ with memory := μ.memory.store w o.place x }
  | _ => μ

/-- Execute an action on a source and a target. -/
def act (a : Action) (source target : Operand) : Option State :=
  if a.allows source target then
    some (μ.put a.target target (a.result (μ.low a.source source) (μ.low a.target target)))
  else none

/-- Execute an instruction. -/
def step? (i : Instr) : Option State :=
  if i.op = .ir .nop then some μ
  else match line? i.template with
    | some (.arithmetic .bnot w, [target]) => do
      let d ← target.operand? i w
      if d.isConst then none else some (μ.put w d (~~~μ.low w d))
    | some (a, [source, target]) => do
      let x ← source.operand? i a.source
      let d ← target.operand? i a.target
      μ.act a x d
    | _ => none

/-- Execute instructions one by one. -/
def run? (code : List Instr) : Option State := code.foldlM step? μ

variable {μ} {code : List Instr} {μ' : Machine.State} {x : Operand}

theorem run?_append (h : μ.run? code = some μ') (more : List Instr) :
    μ.run? (code ++ more) = μ'.run? more := by
  have h' : code.foldlM step? μ = some μ' := h
  rw [run?, List.foldlM_append, h']
  rfl

theorem run?_singleton (i : Instr) : μ.run? [i] = μ.step? i := by
  cases h : μ.step? i <;> simp [run?, h]

/-- What an instruction with a source and a target does. -/
theorem step?_of_line {source target : Machine.Shown}
    (hop : i.op ≠ .ir .nop) (hline : line? i.template = some (a, [source, target]))
    (hx : source.operand? i a.source = some x) (hd : target.operand? i a.target = some d)
    (hallow : a.allows x d = true) :
    μ.step? i = some (μ.put a.target d (a.result (μ.low a.source x) (μ.low a.target d))) := by
  rw [step?, if_neg hop, hline]
  simp only [hx, hd, Option.bind_eq_bind, Option.bind_some, act, hallow, if_true]

end State

/-! ### What one instruction delivers -/

theorem setWidth_insertLow (h : k ≤ w.bits) (x : BitVec w.bits) (old : BitVec 64) :
    (insertLow w x old).setWidth k = x.setWidth k := by
  have hx : (x.setWidth 64).setWidth k = x.setWidth k :=
    BitVec.setWidth_setWidth_of_le x (Nat.le_trans h w.bits_le)
  have hold (b : Nat) (hb : k ≤ b) : ((old >>> b) <<< b).setWidth k = 0#k := by
    ext j hj
    simp [show j < b by omega]
  cases w with
  | w8 => rw [insertLow, BitVec.setWidth_or, hx, hold 8 h, BitVec.or_zero]
  | w16 => rw [insertLow, BitVec.setWidth_or, hx, hold 16 h, BitVec.or_zero]
  | w32 => exact hx
  | w64 => rfl

theorem setWidth_signExtend (hn : k ≤ n) (hm : k ≤ m) (x : BitVec n) :
    (x.signExtend m).setWidth k = x.setWidth k := by
  ext j hj
  simp [BitVec.getElem_signExtend, show j < n by omega, show j < m by omega]

/-- What an action does to words that are no wider than its operands. -/
def Action.word {k : Nat} : Action → BitVec k → BitVec k → BitVec k
  | .arithmetic op _, x, y => op.word y x
  | _, x, _ => x

theorem Action.setWidth_result {a : Action} (hsource : k ≤ a.source.bits) (htarget : k ≤ a.target.bits)
    (x : BitVec a.source.bits) (y : BitVec a.target.bits) :
    (a.result x y).setWidth k = a.word (x.setWidth k) (y.setWidth k) := by
  cases a with
  | move w => rfl
  | moveWide => rfl
  | arithmetic op w => exact IrOp.setWidth_word htarget op y x
  | extend s f t =>
    cases s with
    | signed => exact setWidth_signExtend hsource htarget x
    | unsigned => exact BitVec.setWidth_setWidth_of_le x htarget

/-- Going from one state to another, a word was put in a place and nothing else changed. -/
structure Delivers (w : IntWidth) (μ : State) (d : Operand) (x : BitVec w.bits) (μ' : State) :
    Prop where
  word : ∀ v, d.vregId? = some v → (μ'.regs v).setWidth w.bits = x
  regs : ∀ v, d.vregId? ≠ some v → μ'.regs v = μ.regs v
  memory : μ'.memory = if d.isMemory then μ.memory.store w d.place x else μ.memory

namespace State

variable {μ : State} {w' : IntWidth}

/-- Operands can be read at a wider width first, except in memory. -/
theorem setWidth_low (h : w.bits ≤ w'.bits) (ho : o.isMemory = true → w' = w) :
    (μ.low w' o).setWidth w.bits = μ.low w o := by
  unfold low
  cases hv : o.value with
  | vreg v => exact BitVec.setWidth_setWidth_of_le _ h
  | const n => exact BitVec.setWidth_setWidth_of_le _ h
  | slot index =>
    obtain rfl := ho (by simp [Operand.isMemory, hv])
    exact BitVec.setWidth_eq _
  | _ => exact BitVec.setWidth_zero ..

theorem delivers_put (hd : d.isPlace = true) (h : w.bits ≤ w'.bits) (hmem : d.isMemory = true → w' = w)
    (x : BitVec w'.bits) : Delivers w μ d (x.setWidth w.bits) (μ.put w' d x) := by
  unfold put
  cases hv : d.value <;> simp only [Operand.isPlace, hv, Bool.false_eq_true] at hd
  case vreg v =>
    have hid : d.vregId? = some v.id := by simp [Operand.vregId?, hv]
    have hm : d.isMemory = false := by simp [Operand.isMemory, hv]
    refine ⟨?_, ?_, by simp [hm]⟩
    · intro u hu
      obtain rfl : v.id = u := by simpa [hid] using hu
      simpa using setWidth_insertLow h x (μ.regs v.id)
    · intro u hu
      have hne : u ≠ v.id := by rintro rfl; exact hu hid
      simp [hne]
  case slot index =>
    have hid : d.vregId? = none := by simp [Operand.vregId?, hv]
    have hm : d.isMemory = true := by simp [Operand.isMemory, hv]
    obtain rfl := hmem hm
    exact ⟨by simp [hid], fun _ _ => rfl, by simp [hm]⟩

end State

theorem Shown.fits_place (ho : o.isPlace = true) (mark : Mark) (w : IntWidth) :
    fits ⟨false, mark, .width w⟩ w o = true := by
  cases hv : o.value <;> simp_all [Operand.isPlace, fits, Selector.isHalf, Selector.widthOf]

theorem Shown.fits_const (ho : o.isConst = true) (mark : Mark) (selector : Selector) (w : IntWidth) :
    fits ⟨true, mark, selector⟩ w o = true := by
  cases hv : o.value <;> simp_all [Operand.isConst, fits]

/-- The template is that of an instruction from the first source to the destination, both shown at
the widths of an action. -/
def Says (t : Template) (a : Action) (immediate : Bool) : Prop :=
  ∃ selector, line? t = some (a, [⟨immediate, .src1, selector⟩, ⟨false, .dst, .width a.target⟩]) ∧
    (immediate = false → selector = .width a.source)

/-- What such an instruction delivers. -/
theorem Says.delivers {t : Template} (h : Says t a immediate) {x : Operand} (ht : i.template = t)
    (hop : i.op ≠ .ir .nop) (hx : i.src1 = some x) (hd : i.dst = some d)
    (hsource : if immediate then x.isConst = true else x.isPlace = true) (hplace : d.isPlace = true)
    (hallow : a.allows x d = true) (hws : w.bits ≤ a.source.bits) (hwt : w.bits ≤ a.target.bits)
    (hxmem : x.isMemory = true → a.source = w) (hdmem : d.isMemory = true → a.target = w) :
    ∃ μ', μ.step? i = some μ' ∧ Delivers w μ d (a.word (μ.low w x) (μ.low w d)) μ' := by
  obtain ⟨selector, hline, hselector⟩ := h
  have hxshown : Shown.operand? ⟨immediate, .src1, selector⟩ i a.source = some x := by
    have hfits : Shown.fits ⟨immediate, .src1, selector⟩ a.source x = true := by
      cases immediate with
      | true => exact Shown.fits_const hsource .src1 selector a.source
      | false => rw [hselector rfl]; exact Shown.fits_place hsource .src1 a.source
    simp [Shown.operand?, Instr.marked, hx, hfits]
  have hdshown : Shown.operand? ⟨false, .dst, .width a.target⟩ i a.target = some d := by
    have hfits := Shown.fits_place hplace .dst a.target
    simp [Shown.operand?, Instr.marked, hd, hfits]
  refine ⟨_, State.step?_of_line hop (ht ▸ hline) hxshown hdshown hallow, ?_⟩
  have hput := State.delivers_put (μ := μ) hplace hwt hdmem
    (a.result (μ.low a.source x) (μ.low a.target d))
  rw [Action.setWidth_result hws hwt, State.setWidth_low hws hxmem, State.setWidth_low hwt hdmem]
    at hput
  exact hput

/-- What an instruction that complements a register delivers. -/
theorem delivers_complement (hline : line? i.template = some (.arithmetic .bnot w, [⟨false, .dst, .width w⟩]))
    (hop : i.op ≠ .ir .nop) (hd : i.dst = some d) (hreg : d.vregId?.isSome = true) :
    ∃ μ', μ.step? i = some μ' ∧ Delivers w μ d (~~~μ.low w d) μ' := by
  have hkind : d.isPlace = true ∧ d.isConst = false ∧ d.isMemory = false := by
    cases hv : d.value <;>
      simp_all [Operand.vregId?, Operand.isPlace, Operand.isConst, Operand.isMemory]
  have hfits := Shown.fits_place hkind.1 .dst w
  have hshown : Shown.operand? ⟨false, .dst, .width w⟩ i w = some d := by
    simp [Shown.operand?, Instr.marked, hd, hfits]
  refine ⟨μ.put w d (~~~μ.low w d), ?_, ?_⟩
  · rw [State.step?, if_neg hop, hline]
    simp [hshown, hkind.2.1]
  · have hput := State.delivers_put (μ := μ) hkind.1 (Nat.le_refl w.bits) (fun _ => rfl)
      (~~~μ.low w d)
    rwa [BitVec.setWidth_eq] at hput

end Machine
end Codegen
