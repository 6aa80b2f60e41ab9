/-
Simplifying and folding trees of words.

Both passes take trees of words to trees of words with the same value, and after them no move
is left below the root.  Folding computes in 64 bits and brings every number into the range of
its type; only the low bits of the numbers count, and on those it is exact.
-/
import Codegen.Proofs.Word
import Codegen.Select

namespace Codegen

/-! ### Words and the numbers that represent them -/

/-- The word of a constant: its low bits, as many as the width has. -/
def IntWidth.low (w : IntWidth) (x : Int64) : BitVec w.bits := x.toBitVec.setWidth w.bits

/-- The number that represents a word. -/
def Signedness.number (s : Signedness) {n : Nat} (b : BitVec n) : Int64 :=
  .ofBitVec (match s with
    | .signed => b.signExtend 64
    | .unsigned => b.setWidth 64)

variable {k : Nat} {d : Operand} {w : IntWidth} {s : Signedness} {n : Int} {t : Tree} {i : Instr}

theorem sshiftRight_shiftLeft_eq_signExtend (x : BitVec 64) (hpos : 0 < k) (hk : k ≤ 64) :
    (x <<< (64 - k)).sshiftRight (64 - k) = (x.setWidth k).signExtend 64 := by
  apply BitVec.eq_of_getLsbD_eq
  intro i hi
  have hmsb : (x <<< (64 - k)).msb = x.getLsbD (k - 1) := by
    rw [BitVec.msb_eq_getLsbD_last, BitVec.getLsbD_shiftLeft]
    simp [show ¬ 63 < 64 - k by omega, show 63 - (64 - k) = k - 1 by omega]
  have hmsb' : (x.setWidth k).msb = x.getLsbD (k - 1) := by
    rw [BitVec.msb_eq_getLsbD_last, BitVec.getLsbD_setWidth]
    simp [show k - 1 < k by omega]
  rw [BitVec.getLsbD_sshiftRight, BitVec.getLsbD_signExtend, hmsb, hmsb', BitVec.getLsbD_shiftLeft,
    BitVec.getLsbD_setWidth]
  by_cases hik : i < k
  · simp [hi, hik, show 64 - k + i < 64 by omega, show ¬ 64 ≤ i by omega]
  · simp [hi, hik, show ¬ 64 - k + i < 64 by omega]

theorem shiftRight_shiftLeft_eq_setWidth (x : BitVec 64) (hk : k ≤ 64) :
    (x <<< (64 - k)) >>> (64 - k) = (x.setWidth k).setWidth 64 := by
  apply BitVec.eq_of_getLsbD_eq
  intro i hi
  rw [BitVec.getLsbD_ushiftRight, BitVec.getLsbD_shiftLeft, BitVec.getLsbD_setWidth,
    BitVec.getLsbD_setWidth]
  by_cases hik : i < k
  · simp [hi, hik, show 64 - k + i < 64 by omega]
  · simp [hik, show ¬ 64 - k + i < 64 by omega]

/-- **Wrapping a number gives the number that represents its word.** -/
theorem truncate_eq_number (x : Int64) (w : IntWidth) (s : Signedness) :
    truncate x (.int w s) = s.number (w.low x) := by
  apply Int64.toBitVec_inj.mp
  cases s with
  | signed =>
    have h := sshiftRight_shiftLeft_eq_signExtend x.toBitVec (k := w.bits) (by cases w <;> decide) w.bits_le
    cases w with
    | w64 => exact (BitVec.signExtend_eq x.toBitVec).symm
    | _ =>
      simpa [truncate, Ty.size, IntWidth.bytes, Ty.isUnsigned, IntWidth.bits, Signedness.number,
        IntWidth.low] using h
  | unsigned =>
    have h := shiftRight_shiftLeft_eq_setWidth x.toBitVec w.bits_le
    cases w with
    | w64 => exact (BitVec.setWidth_eq x.toBitVec).symm
    | _ =>
      simpa [truncate, Ty.size, IntWidth.bytes, Ty.isUnsigned, IntWidth.bits, Signedness.number,
        IntWidth.low] using h

section

theorem toBitVec_number_signed (x : BitVec w.bits) :
    (Signedness.signed.number x).toBitVec = x.signExtend 64 := rfl

theorem toBitVec_number_unsigned (x : BitVec w.bits) :
    (Signedness.unsigned.number x).toBitVec = x.setWidth 64 := rfl

theorem toInt_number_signed (x : BitVec w.bits) :
    (Signedness.signed.number x).toBitVec.toInt = x.toInt :=
  BitVec.toInt_signExtend_of_le w.bits_le

theorem toNat_number_unsigned (x : BitVec w.bits) :
    (Signedness.unsigned.number x).toBitVec.toNat = x.toNat :=
  BitVec.toNat_setWidth_of_le w.bits_le

/-- A word is the low bits of the number that represents it. -/
theorem setWidth_number (s : Signedness) (x : BitVec w.bits) :
    (s.number x).toBitVec.setWidth w.bits = x := by
  cases s with
  | signed =>
    apply BitVec.eq_of_getLsbD_eq
    intro i hi
    have := w.bits_le
    rw [toBitVec_number_signed, BitVec.getLsbD_setWidth, BitVec.getLsbD_signExtend]
    simp [hi, show i < 64 by omega]
  | unsigned =>
    rw [toBitVec_number_unsigned, BitVec.setWidth_setWidth_of_le _ w.bits_le]
    exact BitVec.setWidth_eq x

theorem low_number (s : Signedness) (x : BitVec w.bits) : w.low (s.number x) = x :=
  setWidth_number s x

/-- The number of a word is in the range of its type. -/
theorem truncate_number (x : BitVec w.bits) : truncate (s.number x) (.int w s) = s.number x := by
  rw [truncate_eq_number, low_number]

theorem setWidth_truncate (x : Int64) (w : IntWidth) (s : Signedness) :
    (truncate x (.int w s)).toBitVec.setWidth w.bits = x.toBitVec.setWidth w.bits := by
  rw [truncate_eq_number, setWidth_number]
  rfl

theorem truncate_truncate (x : Int64) (w : IntWidth) (s : Signedness) :
    truncate (truncate x (.int w s)) (.int w s) = truncate x (.int w s) := by
  rw [truncate_eq_number x, truncate_number]

end

namespace Constant

variable {op : IrOp}

theorem toBitVec_unary (hop : op.isUnaryWord = true) (x : Int64) (y : BitVec 64) :
    ∃ z, unary (.ir op) x = some z ∧ z.toBitVec = op.word x.toBitVec y := by
  cases op <;> simp_all [IrOp.isUnaryWord, unary, IrOp.word]

theorem toBitVec_binary (hop : op.isBinaryWord = true) (t : Ty) (x y : Int64) :
    ∃ z, binary (.ir op) t x y = some z ∧ z.toBitVec = op.word x.toBitVec y.toBitVec := by
  cases op <;> simp_all [IrOp.isBinaryWord, binary, IrOp.word]

end Constant

namespace Tree

variable {a b c : Tree}

/-- The second is a tree of words with the value of the first. -/
structure Means (w : IntWidth) (s : Signedness) (n : Int) (before after : Tree) : Prop where
  isWord : after.IsWord (.int w s) n
  word : ∀ e : (Meaning.words w).State, e.word after = e.word before

theorem Means.trans (h : Means w s n a b) (h' : Means w s n b c) : Means w s n a c :=
  ⟨h'.isWord, fun e => (h'.word e).trans (h.word e)⟩

variable {l r l' : Tree} {op : Opcode} {v x : Int64}

/-- A pass may be carried out on the operands of an operation. -/
theorem Means.node (pass : Tree → Tree) (h : (Tree.node op (.int w s) l r).IsWord (.int w s) n)
    (hl : l.IsWord (.int w s) n → Means w s n l (pass l))
    (hr : r.IsWord (.int w s) n → Means w s n r (pass r)) (habsent : pass .absent = .absent) :
    Means w s n (.node op (.int w s) l r) (.node op (.int w s) (pass l) (pass r)) := by
  cases h with
  | unary hop hword =>
    rw [habsent]
    exact ⟨.unary hop (hl hword).isWord, fun e => by simp [Meaning.State.word, (hl hword).word e]⟩
  | binary hop hword hword' =>
    exact ⟨.binary hop (hl hword).isWord (hr hword').isWord,
      fun e => by simp [Meaning.State.word, (hl hword).word e, (hr hword').word e]⟩

/-! ### Removing moves -/

theorem sameRepresentation_self (w : IntWidth) (s : Signedness) :
    sameRepresentation (.int w s) (.int w s) = true := by
  simp [sameRepresentation, Ty.isMissing, Ty.isPointer, Ty.same]

theorem unmoved_int (w : IntWidth) (s : Signedness) (t : Tree) : unmoved (.int w s) t = t := rfl

theorem withType_int (h : t.IsWord (.int w s) n) : t.withType (.int w s) = t := by
  cases h with
  | leaf ho => cases ho <;> rfl
  | unary => rfl
  | binary => rfl

theorem means_operand_of_move (h : (Tree.node (.ir .move) (.int w s) l r).IsWord (.int w s) n)
    (hl : l.IsWord (.int w s) n → Means w s n l l') : Means w s n (.node (.ir .move) (.int w s) l r) l' := by
  cases h with
  | unary _ hword => exact ⟨(hl hword).isWord, (hl hword).word⟩
  | binary hop => simp [IrOp.isBinaryWord] at hop

theorem means_simplify (h : t.IsWord (.int w s) n) : Means w s n t t.simplify := by
  induction t with
  | absent => cases h
  | leaf o => exact ⟨h, fun _ => rfl⟩
  | node op type l r ihl ihr =>
    obtain rfl : type = .int w s := h.type_eq
    rw [simplify]
    by_cases hc : (op == .ir .move && sameRepresentation (.int w s) l.simplify.type) = true
    · rw [if_pos hc, unmoved_int]
      simp only [Bool.and_eq_true, beq_iff_eq] at hc
      rw [hc.1] at h ⊢
      exact means_operand_of_move h ihl
    · rw [if_neg hc]
      exact Means.node simplify h ihl ihr rfl

theorem moveless_simplify (h : t.IsWord (.int w s) n) : t.simplify.moveless = true := by
  induction h with
  | leaf ho => rfl
  | @unary op l hop hl ih =>
    have htype := (means_simplify hl).isWord.type_eq
    by_cases hmove : op = .move
    · simpa [simplify, hmove, htype, sameRepresentation_self, unmoved_int] using ih
    · simp [simplify, moveless, hmove, ih]
  | @binary op l r hop _ _ ihl ihr =>
    have hne : op ≠ .move := by rintro rfl; simp [IrOp.isBinaryWord] at hop
    simp [simplify, moveless, hne, ihl, ihr]

theorem movelessBelow_of_moveless (h : t.moveless = true) : t.movelessBelow = true := by
  cases t <;> simp_all [moveless, movelessBelow]

/-- Is the root a move? -/
def isMove : Tree → Bool
  | .node op _ _ _ => op == .ir .move
  | _ => false

/-- What covering needs to know of a tree whose value goes to `d`: only a move goes to memory. -/
structure Root (w : IntWidth) (s : Signedness) (n : Int) (d : Operand) (before after : Tree) : Prop
    extends Means w s n before after where
  isNode : after.isNode = true
  movelessBelow : after.movelessBelow = true
  isMove : d.isMemory = true → before.isMove = true → after.isMove = true

theorem root_simplifyRoot (h : t.IsWord (.int w s) n) (hnode : t.isNode = true) (d : Operand) :
    Root w s n d t (t.simplifyRoot (some d)) := by
  cases t with
  | absent => cases h
  | leaf o => simp [isNode] at hnode
  | node op type l r =>
    obtain rfl : type = .int w s := h.type_eq
    have hbelow : l.simplify.moveless = true ∧ r.simplify.moveless = true := by
      cases h with
      | unary _ hl => exact ⟨moveless_simplify hl, rfl⟩
      | binary _ hl hr => exact ⟨moveless_simplify hl, moveless_simplify hr⟩
    simp only [simplifyRoot]
    by_cases hc : (op == .ir .move && sameRepresentation (.int w s) l.simplify.type &&
        l.simplify.isNode && !d.isMemory) = true
    · rw [if_pos hc]
      simp only [Bool.and_eq_true, beq_iff_eq, Bool.not_eq_true'] at hc
      obtain ⟨⟨⟨rfl, -⟩, hl⟩, hreg⟩ := hc
      have hmeans := means_operand_of_move h means_simplify
      rw [withType_int hmeans.isWord]
      exact ⟨hmeans, hl, movelessBelow_of_moveless hbelow.1, fun hmem => by simp [hreg] at hmem⟩
    · rw [if_neg hc]
      exact ⟨Means.node simplify h means_simplify means_simplify rfl, rfl,
        by simp [movelessBelow, hbelow], fun _ hmove => hmove⟩

/-! ### Folding -/

theorem constant?_word (h : t.IsWord (.int w s) n) {type : Ty} (hx : t.constant? = some (x, type)) :
    type = .int w s ∧
      ∀ e : (Meaning.words w).State, e.word t = x.toBitVec.setWidth w.bits := by
  cases h with
  | leaf ho =>
    cases ho <;> simp only [constant?, Option.some.injEq, Prod.mk.injEq, reduceCtorEq] at hx
    obtain ⟨rfl, rfl⟩ := hx
    exact ⟨rfl, fun _ => rfl⟩
  | unary => simp [constant?] at hx
  | binary => simp [constant?] at hx

theorem ranged_int (x : Int64) (w : IntWidth) (s : Signedness) (other : Ty) :
    ranged x (.int w s) other = (truncate x (.int w s), .int w s) := rfl

/-- Evaluating an operation gives the word the operation computes. -/
theorem evaluate_word (h : (Tree.node op (.int w s) l r).IsWord (.int w s) n)
    (hv : evaluate op (.int w s) l r = some v) (e : (Meaning.words w).State) :
    v.toBitVec.setWidth w.bits = e.word (.node op (.int w s) l r) := by
  simp only [evaluate, Ty.isInteger, Bool.not_true, Bool.false_eq_true, if_false] at hv
  cases hl : l.constant? with
  | none => simp [hl] at hv
  | some p =>
    obtain ⟨x, tx⟩ := p
    simp only [hl] at hv
    cases h with
    | @unary op l hop hword =>
      obtain ⟨rfl, hwl⟩ := constant?_word hword hl
      obtain ⟨z, hz, hbits⟩ := Constant.toBitVec_unary hop (truncate x (.int w s)) 0
      simp only [ranged_int, isAbsent, if_true, hz, Option.map_some, Option.some.injEq] at hv
      rw [← hv, setWidth_truncate, hbits, IrOp.setWidth_word w.bits_le, setWidth_truncate,
        ← hwl e]
      simp [Meaning.State.word, Opcode.word]
    | @binary op l r hop hword hword' =>
      obtain ⟨rfl, hwl⟩ := constant?_word hword hl
      have habsent : r.isAbsent = false := by cases r <;> first | rfl | cases hword'
      simp only [habsent, Bool.false_eq_true, if_false] at hv
      cases hr : r.constant? with
      | none => simp [hr] at hv
      | some q =>
        obtain ⟨y, ty⟩ := q
        obtain ⟨rfl, hwr⟩ := constant?_word hword' hr
        obtain ⟨z, hz, hbits⟩ := Constant.toBitVec_binary hop (.int w s)
          (truncate x (.int w s)) (truncate y (.int w s))
        simp only [hr, ranged_int, hz, Option.map_some, Option.some.injEq] at hv
        rw [← hv, setWidth_truncate, hbits, IrOp.setWidth_word w.bits_le, setWidth_truncate,
          setWidth_truncate, ← hwl e, ← hwr e]
        rfl

theorem means_constant (h : (Tree.node op (.int w s) l r).IsWord (.int w s) n)
    (hv : evaluate op (.int w s) l r = some v) :
    Means w s n (.node op (.int w s) l r) (.leaf (.const v (.int w s))) :=
  ⟨.leaf (.const v 0), fun e => evaluate_word h hv e⟩

theorem means_fold (h : t.IsWord (.int w s) n) : Means w s n t t.fold := by
  induction t with
  | absent => cases h
  | leaf o => exact ⟨h, fun _ => rfl⟩
  | node op type l r ihl ihr =>
    obtain rfl : type = .int w s := h.type_eq
    have hnode := Means.node fold h ihl ihr rfl
    simp only [fold]
    cases hv : evaluate op (.int w s) l.fold r.fold with
    | none => exact hnode
    | some v => exact hnode.trans (means_constant hnode.isWord hv)

theorem moveless_fold (h : t.moveless = true) : t.fold.moveless = true := by
  induction t with
  | absent => rfl
  | leaf o => rfl
  | node op type l r ihl ihr =>
    simp only [moveless, Bool.and_eq_true] at h
    simp only [fold]
    cases evaluate op type l.fold r.fold with
    | none => simp [moveless, h.1.1, ihl h.1.2, ihr h.2]
    | some v => rfl

theorem root_foldRoot (h : t.IsWord (.int w s) n) (hnode : t.isNode = true)
    (hbelow : t.movelessBelow = true) (d : Operand) : Root w s n d t (t.foldRoot (some d)) := by
  cases t with
  | absent => cases h
  | leaf o => simp [isNode] at hnode
  | node op type l r =>
    obtain rfl : type = .int w s := h.type_eq
    simp only [movelessBelow, Bool.and_eq_true] at hbelow
    have hfold := Means.node fold h means_fold means_fold rfl
    simp only [foldRoot, Option.isNone_some, Bool.false_eq_true, if_false]
    cases hv : evaluate op (.int w s) l.fold r.fold with
    | none =>
      exact ⟨hfold, rfl, by simp [movelessBelow, moveless_fold hbelow.1, moveless_fold hbelow.2],
        fun _ hmove => hmove⟩
    | some v =>
      have hconst := hfold.trans (means_constant hfold.isWord hv)
      exact ⟨⟨.unary rfl hconst.isWord, hconst.word⟩, rfl, rfl, fun _ _ => rfl⟩

end Tree

/-- **Preparing a tree of words for covering keeps its value**, and leaves no move below the root. -/
theorem Selection.root_prepare (h : t.IsWord (.int w s) n) (hnode : t.isNode = true) (fold : Bool)
    (hd : i.dst = some d) : Tree.Root w s n d t (prepare fold i t) := by
  have hsimple := Tree.root_simplifyRoot h hnode d
  rw [prepare, hd]
  cases fold with
  | false => exact hsimple
  | true =>
    have hfold := Tree.root_foldRoot hsimple.isWord hsimple.isNode hsimple.movelessBelow d
    exact ⟨hsimple.toMeans.trans hfold.toMeans, hfold.isNode, hfold.movelessBelow,
      fun hmem hmove => hfold.isMove hmem (hsimple.isMove hmem hmove)⟩

end Codegen
