/-
Generic code on words of one integer type.

Values are bit vectors of the width of the type and memory is an array of bytes, so that two
places of a frame may overlap in any way.  Generic operations are those of arithmetic modulo a
power of two; which of its two representatives a word stands for, signed or unsigned, does not
show in any of them.

Also here: what it means for an operand, an instruction or a tree to be about words of one type.
-/
import Codegen.Frame
import Codegen.Proofs.Meaning

namespace Codegen

/-- The number of bits of a width. -/
def IntWidth.bits : IntWidth → Nat
  | .w8 => 8
  | .w16 => 16
  | .w32 => 32
  | .w64 => 64

theorem IntWidth.bits_le (w : IntWidth) : w.bits ≤ 64 := by cases w <;> decide

/-! ### Bytes -/

/-- Memory, by address. -/
abbrev Bytes := Int → BitVec 8

namespace Bytes

variable (m : Bytes)

/-- The number in the `n` bytes from an address on, lowest byte first. -/
def number (a : Int) : Nat → Nat
  | 0 => 0
  | n + 1 => (m a).toNat + 256 * number (a + 1) n

/-- The word at an address. -/
def load (w : IntWidth) (a : Int) : BitVec w.bits := BitVec.ofNat _ (m.number a (w.bits / 8))

/-- Put a word at an address. -/
def store (w : IntWidth) (a : Int) (x : BitVec w.bits) : Bytes := fun b =>
  if a ≤ b ∧ b < a + (w.bits / 8 : Nat) then x.extractLsb' (8 * (b - a).toNat) 8 else m b

end Bytes

/-- The distance of a stack slot from the frame base. -/
def Operand.place (o : Operand) : Int :=
  match o.value with
  | .slot index => (Frame.slotOffset index + o.offset).toInt
  | _ => 0

/-! ### Words -/

namespace IrOp

/-- Does the operation take two words to one? -/
def isBinaryWord : IrOp → Bool
  | .add | .sub | .mul | .bor | .band | .xor => true
  | _ => false

/-- Does the operation take one word to one? -/
def isUnaryWord : IrOp → Bool
  | .move | .bnot => true
  | _ => false

/-- The operation on words of any width; one on a single word ignores the second. -/
def word {n : Nat} : IrOp → BitVec n → BitVec n → BitVec n
  | .move, x, _ => x
  | .bnot, x, _ => ~~~x
  | .add, x, y => x + y
  | .sub, x, y => x - y
  | .mul, x, y => x * y
  | .bor, x, y => x ||| y
  | .band, x, y => x &&& y
  | .xor, x, y => x ^^^ y
  | _, _, _ => 0#n

variable {k n : Nat}

theorem setWidth_neg (h : k ≤ n) (x : BitVec n) : (-x).setWidth k = -x.setWidth k := by
  have hone : (1#n).setWidth k = 1#k := BitVec.eq_of_toNat_eq
    (by simpa using Nat.mod_mod_of_dvd 1 (Nat.pow_dvd_pow 2 h))
  rw [BitVec.neg_eq_not_add, BitVec.neg_eq_not_add, BitVec.setWidth_add _ _ h,
    BitVec.setWidth_not h, hone]

/-- The low bits of a result are the result for the low bits. -/
theorem setWidth_word (h : k ≤ n) (op : IrOp) (x y : BitVec n) :
    (op.word x y).setWidth k = op.word (x.setWidth k) (y.setWidth k) := by
  cases op <;> simp only [word, BitVec.setWidth_zero]
  case bnot => exact BitVec.setWidth_not h
  case add => exact BitVec.setWidth_add _ _ h
  case sub =>
    rw [BitVec.sub_eq_add_neg, BitVec.setWidth_add _ _ h, setWidth_neg h, ← BitVec.sub_eq_add_neg]
  case mul => exact BitVec.setWidth_mul _ _ h
  case bor => exact BitVec.setWidth_or
  case band => exact BitVec.setWidth_and
  case xor => exact BitVec.setWidth_xor

end IrOp

/-- An operation on words; nothing else computes one. -/
def Opcode.word {n : Nat} : Opcode → BitVec n → BitVec n → BitVec n
  | .ir op, x, y => op.word x y
  | _, _, _ => 0#n

/-- Words of a width in memory made of bytes. -/
def Meaning.words (w : IntWidth) : Meaning where
  Value := BitVec w.bits
  Memory := Bytes
  constant o := match o.value with
    | .const n => n.toBitVec.setWidth w.bits
    | _ => 0
  address _ := 0
  read m o := m.load w o.place
  write m o x := m.store w o.place x
  load _ _ _ _ := 0
  compute op _ x y := op.word (x.getD 0) (y.getD 0)
  answer _ m _ := ⟨0, m, fun _ => 0⟩

/-! ### Code about words -/

/-- A word of a type: a virtual register with a number up to `n`, a stack slot or a constant. -/
inductive Operand.IsWord (t : Ty) (n : Int) : Operand → Prop
  | vreg (v : VReg) (offset : Int64) (hpos : 0 < v.id) (hle : v.id ≤ n) : IsWord t n ⟨.vreg v, t, offset⟩
  | slot (index : Int) (offset : Int64) : IsWord t n ⟨.slot index, t, offset⟩
  | const (c : Int64) (offset : Int64) : IsWord t n ⟨.const c, t, offset⟩

namespace Operand.IsWord

variable {t : Ty} {n m v : Int} {o : Operand}

theorem type_eq (h : o.IsWord t n) : o.type = t := by cases h <;> rfl

theorem mono (h : o.IsWord t n) (hm : n ≤ m) : o.IsWord t m := by
  cases h with
  | vreg v offset hpos hle => exact .vreg v offset hpos (Int.le_trans hle hm)
  | slot index offset => exact .slot index offset
  | const c offset => exact .const c offset

theorem bounds (h : o.IsWord t n) (hv : o.vregId? = some v) : 0 < v ∧ v ≤ n := by
  cases h with
  | vreg u offset hpos hle =>
    obtain rfl : u.id = v := Option.some.inj hv
    exact ⟨hpos, hle⟩
  | slot => exact nomatch hv
  | const => exact nomatch hv

end Operand.IsWord

/-- An operation on words of a type, with a result that goes to a register or to a stack slot. -/
inductive Instr.IsWord (t : Ty) (n : Int) : Instr → Prop
  | unary {op : IrOp} {d a : Operand} (label : Int) (template : Template)
      (hop : op.isUnaryWord = true) (hd : d.IsWord t n) (hplace : d.isConst = false)
      (ha : a.IsWord t n) : IsWord t n ⟨.ir op, label, some d, some a, none, template⟩
  | binary {op : IrOp} {d a b : Operand} (label : Int) (template : Template)
      (hop : op.isBinaryWord = true) (hd : d.IsWord t n) (hplace : d.isConst = false)
      (ha : a.IsWord t n) (hb : b.IsWord t n) :
      IsWord t n ⟨.ir op, label, some d, some a, some b, template⟩

variable {t : Ty} {tree : Tree} {n : Int}

namespace Tree

/-- Operations on words of a type, and words at the leaves. -/
inductive IsWord (t : Ty) (n : Int) : Tree → Prop
  | leaf {o : Operand} (ho : o.IsWord t n) : IsWord t n (.leaf o)
  | unary {op : IrOp} {l : Tree} (hop : op.isUnaryWord = true) (hl : IsWord t n l) :
      IsWord t n (.node (.ir op) t l .absent)
  | binary {op : IrOp} {l r : Tree} (hop : op.isBinaryWord = true) (hl : IsWord t n l)
      (hr : IsWord t n r) : IsWord t n (.node (.ir op) t l r)

/-- Is no operation in the tree a move? -/
def moveless : Tree → Bool
  | .node op _ l r => op != .ir .move && l.moveless && r.moveless
  | _ => true

/-- Is no operation below the root a move? -/
def movelessBelow : Tree → Bool
  | .node _ _ l r => l.moveless && r.moveless
  | _ => true

variable {i : Instr}

theorem isWord_ofInstr (h : i.IsWord t n) : (Tree.ofInstr i).IsWord t n := by
  cases h with
  | unary label template hop hd hplace ha =>
    cases hd <;> exact .unary hop (.leaf ha)
  | binary label template hop hd hplace ha hb =>
    cases hd <;> exact .binary hop (.leaf ha) (.leaf hb)

theorem IsWord.type_eq (h : tree.IsWord t n) : tree.type = t := by
  cases h with
  | leaf ho => cases ho <;> rfl
  | unary => rfl
  | binary => rfl

end Tree

namespace Meaning.State

variable {w : IntWidth} (e : (Meaning.words w).State) {op : IrOp} {parent : Opcode}

/-- The word a tree computes. -/
def word : Tree → BitVec w.bits
  | .absent => 0
  | .leaf o => e.operand o
  | .node op _ l r => op.word (word l) (word r)

theorem value_word (hop : op.isUnaryWord = true ∨ op.isBinaryWord = true) (type : Ty)
    (x y : Option (BitVec w.bits)) : e.value (.ir op) type x y = op.word (x.getD 0) (y.getD 0) := by
  have hne : Opcode.ir op ≠ .ir .indirect := by
    rintro ⟨rfl⟩
    simp [IrOp.isUnaryWord, IrOp.isBinaryWord] at hop
  exact if_neg hne

theorem eval_word (h : tree.IsWord t n) (hparent : parent ≠ .ir .addressOf) :
    e.eval parent tree = some (e.word tree) := by
  induction h generalizing parent with
  | @leaf o ho =>
    show some (e.source parent o) = some (e.operand o)
    rw [source, if_neg (by simp [hparent])]
  | @unary op l hop _ ihl =>
    have hne : Opcode.ir op ≠ .ir .addressOf := by rintro ⟨rfl⟩; simp [IrOp.isUnaryWord] at hop
    have hvalue := e.value_word (.inl hop) t (some (e.word l)) none
    rw [eval, ihl hne]
    exact congrArg some hvalue
  | @binary op l r hop _ _ ihl ihr =>
    have hne : Opcode.ir op ≠ .ir .addressOf := by rintro ⟨rfl⟩; simp [IrOp.isBinaryWord] at hop
    have hvalue := e.value_word (.inr hop) t (some (e.word l)) (some (e.word r))
    rw [eval, ihl hne, ihr hne]
    exact congrArg some hvalue

end Meaning.State

/-! ### Agreeing up to a register -/

namespace Meaning.State

/-- Two states agree on memory, and on the registers up to a number. -/
structure AgreeUpTo {M : Meaning} (n : Int) (s s' : M.State) : Prop where
  memory : s'.memory = s.memory
  regs : ∀ v, 0 < v → v ≤ n → s'.regs v = s.regs v

namespace AgreeUpTo

variable {w : IntWidth} {e e' : (Meaning.words w).State} {o : Operand}

theorem refl (n : Int) (e : (Meaning.words w).State) : AgreeUpTo n e e := ⟨rfl, fun _ _ _ => rfl⟩

theorem operand (h : AgreeUpTo n e e') (ho : o.IsWord t n) : e'.operand o = e.operand o := by
  cases ho with
  | vreg v offset hpos hle => exact h.regs v.id hpos hle
  | slot index offset =>
    show (Meaning.words w).read e'.memory _ = (Meaning.words w).read e.memory _
    rw [h.memory]
  | const c offset => rfl

theorem word (h : AgreeUpTo n e e') (ht : tree.IsWord t n) : e'.word tree = e.word tree := by
  induction ht with
  | leaf ho => exact h.operand ho
  | @unary op l hop _ ihl =>
    show (Opcode.ir op).word (e'.word l) 0 = (Opcode.ir op).word (e.word l) 0
    rw [ihl]
  | @binary op l r hop _ _ ihl ihr =>
    show (Opcode.ir op).word (e'.word l) (e'.word r) = (Opcode.ir op).word (e.word l) (e.word r)
    rw [ihl, ihr]

end AgreeUpTo

end Meaning.State

end Codegen
