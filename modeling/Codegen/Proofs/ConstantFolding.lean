/-
Folding constants is arithmetic on words.

Constants are 64-bit numbers, and folding computes with those.  A constant of a type stands for the
word of its low bits, and what folding computes is what the operation gives on these words, in the
order, the quotient and the shift of the type's signedness.  The result is again the number that
represents its word, so a tree of constants, folded from its leaves to its root, is the value of the
tree in word arithmetic, unless it divides by zero somewhere.
-/
import Codegen.Proofs.Fold
import Codegen.Proofs.Inspection

namespace Codegen

open Constant Signedness

/-! ### The order of words and of numbers -/

namespace Signedness

/-- The order of words. -/
def below (s : Signedness) {n : Nat} (x y : BitVec n) : Bool :=
  match s with
  | .signed => x.slt y
  | .unsigned => x.ult y

def atMost (s : Signedness) {n : Nat} (x y : BitVec n) : Bool :=
  match s with
  | .signed => x.sle y
  | .unsigned => x.ule y

/-- The quotient of words, toward zero. -/
def quotient (s : Signedness) {n : Nat} (x y : BitVec n) : BitVec n :=
  match s with
  | .signed => x.sdiv y
  | .unsigned => x / y

/-- The remainder that goes with the quotient. -/
def residue (s : Signedness) {n : Nat} (x y : BitVec n) : BitVec n :=
  match s with
  | .signed => x.srem y
  | .unsigned => x % y

variable {n : Nat}

theorem atMost_eq_or (s : Signedness) (x y : BitVec n) : s.atMost x y = (s.below x y || x == y) := by
  rw [Bool.eq_iff_iff, Bool.or_eq_true, beq_iff_eq]
  cases s with
  | signed =>
    simp only [atMost, below, BitVec.sle_eq_decide, BitVec.slt_eq_decide, decide_eq_true_iff,
      ← BitVec.toInt_inj]
    omega
  | unsigned =>
    simp only [atMost, below, BitVec.ule_eq_decide, BitVec.ult_eq_decide, decide_eq_true_iff,
      ← BitVec.toNat_inj]
    omega

theorem atMost_eq_not (s : Signedness) (x y : BitVec n) : s.atMost y x = !s.below x y := by
  rw [Bool.eq_iff_iff, Bool.not_eq_true', Bool.eq_false_iff]
  cases s with
  | signed =>
    simp only [atMost, below, BitVec.sle_eq_decide, BitVec.slt_eq_decide, decide_eq_true_iff, ne_eq]
    omega
  | unsigned =>
    simp only [atMost, below, BitVec.ule_eq_decide, BitVec.ult_eq_decide, decide_eq_true_iff, ne_eq]
    omega

/-- What is at least as large, and not equal, is larger. -/
theorem below_eq_and (s : Signedness) (x y : BitVec n) : s.below y x = (!s.below x y && x != y) := by
  rw [← atMost_eq_not, atMost_eq_or, Bool.eq_iff_iff]
  have hirrefl : s.below x x = false := by cases s <;> simp [below, BitVec.slt_eq_decide, BitVec.ult_eq_decide]
  by_cases hxy : x = y
  · simp [← hxy, hirrefl]
  · simp [hxy, Ne.symm hxy]

end Signedness

section

variable {w : IntWidth} {s : Signedness} {x y : BitVec w.bits} {k n : Nat}

theorem number_inj : s.number x = s.number y ↔ x = y := by
  refine ⟨fun h => ?_, fun h => h ▸ rfl⟩
  rw [← low_number s x, h, low_number]

theorem number_eq_zero : s.number x = 0 ↔ x = 0 := by
  have hzero : s.number (0 : BitVec w.bits) = 0 := by
    cases s <;> cases w <;> decide
  rw [← hzero, number_inj]

theorem less_number : less (s == .unsigned) (s.number x) (s.number y) = s.below x y := by
  cases s with
  | signed =>
    show decide ((signed.number x) < signed.number y) = x.slt y
    rw [Bool.eq_iff_iff, decide_eq_true_iff, Int64.lt_iff_toBitVec_slt, BitVec.slt_eq_decide,
      BitVec.slt_eq_decide, toInt_number_signed, toInt_number_signed]
  | unsigned =>
    show decide ((unsigned.number x).toUInt64 < (unsigned.number y).toUInt64) = x.ult y
    rw [Bool.eq_iff_iff, decide_eq_true_iff, UInt64.lt_iff_toBitVec_lt, Int64.toBitVec_toUInt64,
      Int64.toBitVec_toUInt64, BitVec.lt_def, toNat_number_unsigned, toNat_number_unsigned,
      BitVec.ult_iff_lt, BitVec.lt_def]

/-! ### Quotients -/

theorem toInt_setWidth_eq_bmod (h : k ≤ n) (z : BitVec n) : (z.setWidth k).toInt = z.toInt.bmod (2 ^ k) := by
  have hdvd : 2 ^ k ∣ 2 ^ n := Nat.pow_dvd_pow 2 h
  rw [BitVec.toInt_setWidth, BitVec.toInt_eq_toNat_bmod, Int.bmod_bmod_of_dvd hdvd]

theorem low_divide : w.low (divide (s == .unsigned) (s.number x) (s.number y)) = s.quotient x y := by
  cases s with
  | signed =>
    apply BitVec.eq_of_toInt_eq
    show ((signed.number x / signed.number y).toBitVec.setWidth w.bits).toInt
      = (x.sdiv y).toInt
    have hdvd : 2 ^ w.bits ∣ 2 ^ 64 := Nat.pow_dvd_pow 2 w.bits_le
    rw [Int64.toBitVec_div, toInt_setWidth_eq_bmod w.bits_le, BitVec.toInt_sdiv,
      toInt_number_signed, toInt_number_signed, Int.bmod_bmod_of_dvd hdvd, BitVec.toInt_sdiv]
  | unsigned =>
    apply BitVec.eq_of_toNat_eq
    show (((unsigned.number x).toUInt64 / (unsigned.number y).toUInt64
      ).toInt64.toBitVec.setWidth w.bits).toNat = (x / y).toNat
    have hlt : x.toNat / y.toNat < 2 ^ w.bits := Nat.lt_of_le_of_lt (Nat.div_le_self _ _) x.isLt
    rw [UInt64.toBitVec_toInt64, UInt64.toBitVec_div, Int64.toBitVec_toUInt64, Int64.toBitVec_toUInt64,
      BitVec.toNat_setWidth, BitVec.toNat_udiv, toNat_number_unsigned, toNat_number_unsigned,
      BitVec.toNat_udiv, Nat.mod_eq_of_lt hlt]

theorem low_remainder : w.low (remainder (s == .unsigned) (s.number x) (s.number y)) = s.residue x y := by
  cases s with
  | signed =>
    apply BitVec.eq_of_toInt_eq
    show ((signed.number x % signed.number y).toBitVec.setWidth w.bits).toInt
      = (x.srem y).toInt
    rw [Int64.toBitVec_mod, toInt_setWidth_eq_bmod w.bits_le, BitVec.toInt_srem, toInt_number_signed,
      toInt_number_signed, ← BitVec.toInt_srem, BitVec.toInt_bmod_cancel]
  | unsigned =>
    apply BitVec.eq_of_toNat_eq
    show (((unsigned.number x).toUInt64 % (unsigned.number y).toUInt64
      ).toInt64.toBitVec.setWidth w.bits).toNat = (x % y).toNat
    have hlt : x.toNat % y.toNat < 2 ^ w.bits := Nat.lt_of_le_of_lt (Nat.mod_le _ _) x.isLt
    rw [UInt64.toBitVec_toInt64, UInt64.toBitVec_mod, Int64.toBitVec_toUInt64, Int64.toBitVec_toUInt64,
      BitVec.toNat_setWidth, BitVec.toNat_umod, toNat_number_unsigned, toNat_number_unsigned,
      BitVec.toNat_umod, Nat.mod_eq_of_lt hlt]

/-! ### Shifts -/

/-- A count below the width is the same in either representation. -/
theorem toNat_number_of_lt (s : Signedness) (hy : y.toNat < w.bits) :
    (s.number y).toBitVec.toNat = y.toNat := by
  cases s with
  | signed =>
    have hmsb : y.msb = false := by
      rw [BitVec.msb_eq_false_iff_two_mul_lt]
      cases w <;> simp only [IntWidth.bits] at hy ⊢ <;> omega
    rw [toBitVec_number_signed, BitVec.signExtend_eq_setWidth_of_msb_false hmsb,
      BitVec.toNat_setWidth_of_le w.bits_le]
  | unsigned => exact toNat_number_unsigned y

theorem toNat_count (s : Signedness) (hy : y.toNat < w.bits) :
    (count (s.number y)).toBitVec.toNat = y.toNat := by
  have hbits := w.bits_le
  show ((s.number y).toBitVec &&& 63).toNat = y.toNat
  rw [BitVec.toNat_and, toNat_number_of_lt s hy, show (63 : BitVec 64).toNat = 2 ^ 6 - 1 from rfl,
    Nat.and_two_pow_sub_one_eq_mod]
  omega

/-- Shifting by a count below 64 shifts by all of it. -/
theorem smod_count {c : BitVec 64} (hc : c.toNat < 64) : c.smod 64 = c := by
  have hc' : c.msb = false := by
    rw [BitVec.msb_eq_false_iff_two_mul_lt]
    omega
  rw [BitVec.smod_eq, hc', show (64 : BitVec 64).msb = false from rfl]
  apply BitVec.eq_of_toNat_eq
  show (c % 64).toNat = _
  rw [BitVec.toNat_umod]
  exact Nat.mod_eq_of_lt hc

theorem low_shiftLeft (hy : y.toNat < w.bits) :
    w.low (s.number x <<< count (s.number y)) = x <<< y := by
  have hcount := toNat_count s hy
  have hbits := w.bits_le
  show ((s.number x <<< count (s.number y)).toBitVec).setWidth w.bits = _
  rw [Int64.toBitVec_shiftLeft, smod_count (by omega), BitVec.shiftLeft_eq', hcount,
    BitVec.setWidth_shiftLeft_of_le w.bits_le, setWidth_number]
  rfl

theorem low_shiftRight (hy : y.toNat < w.bits) :
    w.low (shiftRight (.int w s) (s.number x) (s.number y)) = x >>> y := by
  have hcount := toNat_count s hy
  have hbits := w.bits_le
  have hwidth : IntWidth.ofBytes w.bytes = w := by cases w <;> rfl
  have htrunc : truncate (s.number x) (.intOfSize (Ty.size (.int w s)) .unsigned)
      = unsigned.number x := by
    show truncate (s.number x) (.int (.ofBytes w.bytes) .unsigned) = _
    rw [hwidth, truncate_eq_number, low_number]
  have hmod : ((count (s.number y)).toUInt64.toBitVec % 64).toNat = y.toNat := by
    rw [BitVec.toNat_umod, Int64.toBitVec_toUInt64, hcount]
    exact Nat.mod_eq_of_lt (by show _ < 64; omega)
  apply BitVec.eq_of_toNat_eq
  show (((shiftRight (.int w s) (s.number x) (s.number y))).toBitVec.setWidth w.bits).toNat = _
  have hlt : x.toNat >>> y.toNat < 2 ^ w.bits :=
    Nat.lt_of_le_of_lt (Nat.shiftRight_le _ _) x.isLt
  rw [shiftRight, htrunc, UInt64.toBitVec_toInt64, UInt64.toBitVec_shiftRight,
    BitVec.toNat_setWidth, BitVec.ushiftRight_eq', BitVec.toNat_ushiftRight, hmod,
    Int64.toBitVec_toUInt64, toNat_number_unsigned, Nat.mod_eq_of_lt hlt]
  exact (BitVec.toNat_ushiftRight _ _).symm

theorem low_signedShiftRight (hy : y.toNat < w.bits) :
    w.low (signed.number x >>> count (signed.number y))
      = x.sshiftRight' y := by
  have hcount := toNat_count .signed hy
  have hbits := w.bits_le
  apply BitVec.eq_of_toInt_eq
  show ((signed.number x >>> count (signed.number y)).toBitVec.setWidth
    w.bits).toInt = _
  rw [Int64.toBitVec_shiftRight, smod_count (by omega), BitVec.sshiftRight_eq', hcount,
    toInt_setWidth_eq_bmod w.bits_le, BitVec.toInt_sshiftRight, toInt_number_signed,
    BitVec.sshiftRight_eq', ← BitVec.toInt_sshiftRight, BitVec.toInt_bmod_cancel]

end

/-! ### Operations on words -/

/-- What an operation on words gives: a word of the same width, or a truth value. -/
inductive Outcome (n : Nat)
  | word (b : BitVec n)
  | truth (b : Bool)
  deriving DecidableEq, Repr

namespace Outcome

/-- The constant that represents an outcome. -/
def number {n : Nat} (s : Signedness) : Outcome n → Int64
  | .word b => s.number b
  | .truth b => ofBool b

/-- An outcome as a word of a width. -/
def bits {n : Nat} (w : IntWidth) : Outcome n → BitVec w.bits
  | .word b => b.setWidth w.bits
  | .truth b => if b then 1 else 0

end Outcome

namespace IrOp

/-- Does the operation on constants give a word? -/
def givesWord : IrOp → Bool
  | .add | .sub | .mul | .div | .mod | .bor | .band | .xor | .bnot | .bshl | .bshr | .ashr => true
  | _ => false

/-- Does the operation on constants give a truth value? -/
def givesTruth : IrOp → Bool
  | .lnot | .land | .lor | .eq | .ne | .lt | .gt | .le | .ge => true
  | _ => false

/-- Is there one operand only? -/
def isUnary : IrOp → Bool
  | .bnot | .lnot => true
  | _ => false

/-- The operation on words, of which one that takes a single word ignores the second.  Nothing is divided
by zero. -/
def outcome {n : Nat} (op : IrOp) (s : Signedness) (x y : BitVec n) : Option (Outcome n) :=
  match op with
  | .add => some (.word (x + y))
  | .sub => some (.word (x - y))
  | .mul => some (.word (x * y))
  | .div => if y = 0 then Option.none else some (.word (s.quotient x y))
  | .mod => if y = 0 then Option.none else some (.word (s.residue x y))
  | .bor => some (.word (x ||| y))
  | .band => some (.word (x &&& y))
  | .xor => some (.word (x ^^^ y))
  | .bnot => some (.word (~~~x))
  | .bshl => some (.word (x <<< y))
  | .bshr => some (.word (x >>> y))
  | .ashr => some (.word (x.sshiftRight' y))
  | .lnot => some (.truth (x == 0))
  | .land => some (.truth (x != 0 && y != 0))
  | .lor => some (.truth (x != 0 || y != 0))
  | .eq => some (.truth (x == y))
  | .ne => some (.truth (x != y))
  | .lt => some (.truth (s.below x y))
  | .gt => some (.truth (s.below y x))
  | .le => some (.truth (s.atMost x y))
  | .ge => some (.truth (s.atMost y x))
  | _ => Option.none

variable {n : Nat} {op : IrOp} {s : Signedness} {x y : BitVec n}

/-- Nothing is refused but a division by zero. -/
theorem outcome_eq_none_iff (hop : op.givesWord = true ∨ op.givesTruth = true) (s : Signedness)
    (x y : BitVec n) : op.outcome s x y = Option.none ↔ op.isDivision = true ∧ y = 0 := by
  cases op <;> simp_all [givesWord, givesTruth, outcome, isDivision]

theorem givesWord_of_outcome {b : BitVec n} (h : op.outcome s x y = some (.word b)) : op.givesWord = true := by
  cases op <;> simp_all [outcome, givesWord]

theorem outcome_of_isBinaryWord (hop : op.isBinaryWord = true) : op.outcome s x y = some (.word (op.word x y)) := by
  cases op <;> simp_all [isBinaryWord, outcome, word]

/-- An operation on constants of one integer type whose result is of another: a word is of the type of
the operands, a truth value of any, and shifting right with the sign is for numbers that have one. -/
structure Folds (op : IrOp) (w : IntWidth) (s : Signedness) (w' : IntWidth) (s' : Signedness) : Prop where
  known : op.givesWord = true ∨ op.givesTruth = true
  typed : op.givesWord = true → w' = w ∧ s' = s
  signed : op = .ashr → s = .signed

end IrOp

namespace Constant

variable {w : IntWidth} {s : Signedness} {x y : BitVec w.bits} {op : IrOp}

theorem less_eq_below :
    less (Ty.isUnsigned (.int w s)) (s.number x) (s.number y) = s.below x y := by
  cases s with
  | signed => exact less_number
  | unsigned => exact less_number

/-- An operation on numbers in range has the low bits of the operation on their words. -/
theorem low_binary (hop : op.givesWord = true) (hunary : op.isUnary = false)
    (hsigned : op = .ashr → s = .signed) (hcount : op.isShift = true → y.toNat < w.bits) :
    (binary (.ir op) (.int w s) (s.number x) (s.number y)).map (fun v => Outcome.word (w.low v))
      = op.outcome s x y := by
  have hunsigned : Ty.isUnsigned (.int w s) = (s == .unsigned) := by cases s <;> rfl
  by_cases hword : op.isBinaryWord = true
  · obtain ⟨z, hz, hbits⟩ := toBitVec_binary hword (.int w s) (s.number x) (s.number y)
    have hlow : w.low z = op.word x y := by
      rw [IntWidth.low, hbits, IrOp.setWidth_word w.bits_le, setWidth_number, setWidth_number]
    rw [hz, IrOp.outcome_of_isBinaryWord hword, ← hlow]
    rfl
  cases op <;> simp only [IrOp.givesWord, IrOp.isUnary, IrOp.isBinaryWord, Bool.false_eq_true,
    reduceCtorEq, not_true_eq_false] at hop hunary hword
  case div | mod =>
    by_cases hy : y = 0
    · simp only [binary, IrOp.outcome, if_pos hy, if_pos (number_eq_zero.mpr hy), Option.map_none]
    · simp only [binary, IrOp.outcome, if_neg hy, if_neg (mt number_eq_zero.mp hy), hunsigned,
        Option.map_some, low_divide, low_remainder]
  case bshl => simp [binary, IrOp.outcome, low_shiftLeft (hcount rfl)]
  case bshr => simp [binary, IrOp.outcome, low_shiftRight (hcount rfl)]
  case ashr =>
    obtain rfl := hsigned rfl
    simp [binary, IrOp.outcome, low_signedShiftRight (hcount rfl)]

/-- A question about numbers in range is one about their words. -/
theorem binary_eq_truth (hop : op.givesTruth = true) (hunary : op.isUnary = false) (s' : Signedness) :
    binary (.ir op) (.int w s) (s.number x) (s.number y) = (op.outcome s x y).map (Outcome.number s') := by
  have hzero : ∀ z : BitVec w.bits, (s.number z == 0) = (z == 0) := by
    intro z
    rw [Bool.eq_iff_iff, beq_iff_eq, beq_iff_eq, number_eq_zero]
  have heq : (s.number x == s.number y) = (x == y) := by
    rw [Bool.eq_iff_iff, beq_iff_eq, beq_iff_eq, number_inj]
  cases op <;> simp only [IrOp.givesTruth, IrOp.isUnary, Bool.false_eq_true, reduceCtorEq] at hop hunary
  case gt => simp only [binary, IrOp.outcome, less_eq_below, below_eq_and s x y, bne, heq,
    Option.map_some, Outcome.number]
  case ge => simp only [binary, IrOp.outcome, less_eq_below, atMost_eq_not, Option.map_some,
    Outcome.number]
  all_goals
    simp only [binary, IrOp.outcome, less_eq_below, atMost_eq_or, bne, hzero, heq, Option.map_some,
      Outcome.number]

end Constant

namespace Tree

variable {w w' : IntWidth} {s s' : Signedness} {op : IrOp} {o : Outcome w.bits}

/-- The second operand of an operation, of which one that takes a single operand has none. -/
def second (op : IrOp) (r : Tree) : Tree := if op.isUnary then .absent else r

theorem truncate_truth (b : Bool) :
    truncate (ofBool b) (.int w' s') = ofBool b := by
  cases b <;> cases w' <;> cases s' <;> decide

/-- An outcome stands for itself in the range of its type. -/
theorem truncate_outcome {x y : BitVec w.bits} (hop : op.Folds w s w' s') (ho : op.outcome s x y = some o) :
    truncate (o.number s') (.int w' s') = o.number s' := by
  cases o with
  | truth b => exact truncate_truth b
  | word b =>
    obtain ⟨rfl, rfl⟩ := hop.typed (IrOp.givesWord_of_outcome ho)
    exact truncate_number _

theorem evaluate_unary (op : Opcode) (x : Int64) :
    evaluate op (.int w' s') (.leaf (.const x (.int w s))) .absent
      = (unary op (s.number (w.low x))).map fun v => truncate v (.int w' s') := by
  rw [← truncate_eq_number]
  rfl

theorem evaluate_binary (op : Opcode) (x y : Int64) :
    evaluate op (.int w' s') (.leaf (.const x (.int w s))) (.leaf (.const y (.int w s)))
      = (binary op (.int w s) (s.number (w.low x)) (s.number (w.low y))).map fun v =>
          truncate v (.int w' s') := by
  rw [← truncate_eq_number, ← truncate_eq_number]
  rfl

/-- **Folding one operation on constants is the operation on their words.** -/
theorem evaluate_eq_outcome (hop : op.Folds w s w' s') (x y : Int64)
    (hcount : op.isShift = true → (w.low y).toNat < w.bits) :
    evaluate (.ir op) (.int w' s') (.leaf (.const x (.int w s))) (second op (.leaf (.const y (.int w s))))
      = (op.outcome s (w.low x) (w.low y)).map (Outcome.number s') := by
  by_cases hunary : op.isUnary = true
  · rw [second, if_pos hunary, evaluate_unary]
    cases op <;> simp only [IrOp.isUnary, Bool.false_eq_true] at hunary
    case bnot =>
      obtain ⟨rfl, rfl⟩ := hop.typed rfl
      have hlow : w'.low (~~~s'.number (w'.low x)) = ~~~w'.low x := by
        rw [IntWidth.low, Int64.toBitVec_not, BitVec.setWidth_not w'.bits_le, setWidth_number]
      simp only [unary, IrOp.outcome, Option.map_some, truncate_eq_number, hlow, Outcome.number]
    case lnot =>
      have hzero : (s.number (w.low x) == 0) = (w.low x == 0) := by
        rw [Bool.eq_iff_iff, beq_iff_eq, beq_iff_eq, number_eq_zero]
      simp only [unary, IrOp.outcome, Option.map_some, truncate_truth, hzero, Outcome.number]
  · rw [second, if_neg hunary, evaluate_binary]
    rw [Bool.not_eq_true] at hunary
    cases hop.known with
    | inl hword =>
      obtain ⟨rfl, rfl⟩ := hop.typed hword
      rw [← low_binary hword hunary hop.signed hcount, Option.map_map]
      exact congrArg (Option.map · _) (funext fun v => truncate_eq_number v w' s')
    | inr htruth =>
      rw [binary_eq_truth htruth hunary s', Option.map_map]
      refine Option.map_congr fun o ho => ?_
      exact truncate_outcome hop ho

/-! ### Trees of constants -/

/-- The value of a tree of constants in word arithmetic, if it never divides by zero. -/
def value (w : IntWidth) : Tree → Option (BitVec w.bits)
  | .leaf o => (constant? (.leaf o)).map fun c => w.low c.1
  | .node (.ir op) _ l r =>
    match l.type with
    | .int wl sl =>
      (l.value wl).bind fun x => (if op.isUnary then some 0 else r.value wl).bind fun y =>
        (op.outcome sl x y).map (Outcome.bits w)
    | _ => none
  | _ => none

/-- The trees of constants of an integer type: operations on constants of one type, with counts below
the width. -/
inductive IsConstant : IntWidth → Signedness → Tree → Prop
  | leaf (w : IntWidth) (s : Signedness) (x : Int64) : IsConstant w s (.leaf (.const x (.int w s)))
  | unary {w w' : IntWidth} {s s' : Signedness} {op : IrOp} {l : Tree} (hop : op.Folds w s w' s')
      (hunary : op.isUnary = true) (hl : IsConstant w s l) :
      IsConstant w' s' (.node (.ir op) (.int w' s') l .absent)
  | binary {w w' : IntWidth} {s s' : Signedness} {op : IrOp} {l r : Tree} (hop : op.Folds w s w' s')
      (hbinary : op.isUnary = false) (hl : IsConstant w s l) (hr : IsConstant w s r)
      (hcount : op.isShift = true → ∀ y, r.value w = some y → y.toNat < w.bits) :
      IsConstant w' s' (.node (.ir op) (.int w' s') l r)

variable {t l r : Tree} {type : Ty} {v : Int64}

theorem IsConstant.type_eq (h : IsConstant w s t) : t.type = .int w s := by
  cases h <;> rfl

theorem value_node (op : IrOp) (w' : IntWidth) (type : Ty) (r : Tree) (hl : l.type = .int w s) :
    value w' (.node (.ir op) type l r) = (l.value w).bind fun x =>
      (if op.isUnary then some 0 else r.value w).bind fun y =>
        (op.outcome s x y).map (Outcome.bits w') := by
  rw [value, hl]

/-- The word of the constant that represents an outcome. -/
theorem low_outcome {x y : BitVec w.bits} (hop : op.Folds w s w' s') (ho : op.outcome s x y = some o) :
    w'.low (o.number s') = o.bits w' := by
  cases o with
  | truth b => cases b <;> cases w' <;> rfl
  | word b =>
    obtain ⟨rfl, rfl⟩ := hop.typed (IrOp.givesWord_of_outcome ho)
    exact (low_number s' b).trans (BitVec.setWidth_eq b).symm

/-- What folding makes of a tree of constants: a constant in range that has the value of the tree, or
something that is not constant if the tree has no value.  A constant that stands alone is left as it is. -/
inductive Folded (w : IntWidth) (s : Signedness) (t : Tree) : Prop
  | constant (v : Int64) (hfold : t.fold = .leaf (.const v (.int w s))) (hvalue : t.value w = some (w.low v))
      (hrange : t.isNode = true → v = s.number (w.low v))
  | stuck (hfold : t.fold.constant? = none) (hpresent : t.fold.isAbsent = false) (hvalue : t.value w = none)

theorem folded_node_of_evaluate_none (ht : t = .node (.ir op) (.int w' s') l r)
    (hnone : evaluate (.ir op) (.int w' s') l.fold r.fold = none) (hvalue : t.value w' = none) :
    Folded w' s' t := by
  have hfold : t.fold = .node (.ir op) (.int w' s') l.fold r.fold := by rw [ht, fold, hnone]
  exact .stuck (by rw [hfold]; rfl) (by rw [hfold]; rfl) hvalue

theorem folded_node {x y : Int64} (hop : op.Folds w s w' s') (hl : l.fold = .leaf (.const x (.int w s)))
    (hr : r.fold = second op (.leaf (.const y (.int w s))))
    (hcount : op.isShift = true → (w.low y).toNat < w.bits)
    (hvalue : value w' (.node (.ir op) (.int w' s') l r)
      = (op.outcome s (w.low x) (w.low y)).map (Outcome.bits w')) :
    Folded w' s' (.node (.ir op) (.int w' s') l r) := by
  have heval := evaluate_eq_outcome hop x y hcount
  rw [← hl, ← hr] at heval
  cases ho : op.outcome s (w.low x) (w.low y) with
  | none =>
    rw [ho] at heval hvalue
    exact folded_node_of_evaluate_none rfl heval hvalue
  | some o =>
    rw [ho] at heval hvalue
    refine .constant (o.number s') ?_ ?_ fun _ => ?_
    · rw [fold, heval]
      rfl
    · rw [hvalue, low_outcome hop ho]
      rfl
    · rw [← truncate_eq_number, truncate_outcome hop ho]

theorem evaluate_left_stuck {op : Opcode} (hl : l.constant? = none) : evaluate op type l r = none := by
  rw [evaluate, hl]
  split <;> rfl

theorem evaluate_right_stuck {op : Opcode} (hr : r.constant? = none) (hpresent : r.isAbsent = false) :
    evaluate op type l r = none := by
  rw [evaluate, hr, hpresent]
  split
  · rfl
  · split <;> rfl

/-- **Folding a tree of constants is evaluating it in word arithmetic.** -/
theorem IsConstant.folded (h : IsConstant w s t) : Folded w s t := by
  induction h with
  | leaf w s x => exact .constant x rfl rfl (by simp [isNode])
  | @unary w w' s s' op l hop hunary hl ih =>
    have hvalue := value_node op w' (.int w' s') .absent hl.type_eq
    cases ih with
    | constant x hx hxvalue _ =>
      refine folded_node hop (y := 0) hx (by rw [second, if_pos hunary]; rfl) ?_ ?_
      · cases op <;> simp_all [IrOp.isUnary, IrOp.isShift]
      · have hzero : w.low 0 = 0 := BitVec.setWidth_zero _ _
        rw [hvalue, hxvalue, if_pos hunary, hzero]
        rfl
    | stuck hx hpresent hxvalue =>
      refine folded_node_of_evaluate_none rfl (evaluate_left_stuck hx) ?_
      rw [hvalue, hxvalue]
      rfl
  | @binary w w' s s' op l r hop hbinary hl hr hcount ihl ihr =>
    have hvalue := value_node op w' (.int w' s') r hl.type_eq
    have hop' : ¬ op.isUnary = true := by simp [hbinary]
    rw [if_neg hop'] at hvalue
    cases ihl with
    | stuck hx hpresent hxvalue =>
      refine folded_node_of_evaluate_none rfl (evaluate_left_stuck hx) ?_
      rw [hvalue, hxvalue]
      rfl
    | constant x hx hxvalue _ =>
      cases ihr with
      | stuck hy hpresent hyvalue =>
        refine folded_node_of_evaluate_none rfl (evaluate_right_stuck hy hpresent) ?_
        rw [hvalue, hxvalue, hyvalue]
        rfl
      | constant y hy hyvalue _ =>
        refine folded_node hop (y := y) hx (by rw [second, if_neg hop', hy])
          (fun hshift => hcount hshift _ hyvalue) ?_
        rw [hvalue, hxvalue, hyvalue]
        rfl

/-- Folding from the root on gives what folding below it gives, as a move to the destination. -/
theorem foldRoot_of_fold (hnode : t.isNode = true) (hfold : t.fold = .leaf (.const v type)) (d : Operand) :
    t.foldRoot (some d) = .node (.ir .move) type (.leaf (.const v type)) .absent := by
  cases t with
  | absent => simp [isNode] at hnode
  | leaf o => simp [isNode] at hnode
  | node op ty l r =>
    cases heval : evaluate op ty l.fold r.fold with
    | none => simp [fold, heval] at hfold
    | some u =>
      simp only [fold, heval, leaf.injEq, Operand.const, Operand.mk.injEq, Value.const.injEq] at hfold
      obtain ⟨rfl, rfl, -⟩ := hfold
      simp [foldRoot, heval]

/-- An operation that is not folded stays at the root. -/
theorem fold_of_stuck (hnode : t.isNode = true) (hfold : t.fold.constant? = none) :
    t.fold.isNode = true ∧ ∀ d : Operand, t.foldRoot (some d) = t.fold := by
  cases t with
  | absent => simp [isNode] at hnode
  | leaf o => simp [isNode] at hnode
  | node op ty l r =>
    cases heval : evaluate op ty l.fold r.fold with
    | some u => simp [fold, heval, constant?, Operand.const] at hfold
    | none => simp [fold, foldRoot, heval, isNode]

/-- **Folding is exact arithmetic on words.**  An operation on constants folds to the constant that
represents what it gives on their words, in the range of the result type, and is refused only where
it divides by zero.  A whole tree of constants folds to the constant that represents its value in word
arithmetic, and is left with an operation at its root if it has none. -/
theorem folding_exact :
    (∀ (op : IrOp) (w w' : IntWidth) (s s' : Signedness) (x y : Int64), op.Folds w s w' s' →
      (op.isShift = true → (w.low y).toNat < w.bits) →
      evaluate (.ir op) (.int w' s') (.leaf (.const x (.int w s)))
          (second op (.leaf (.const y (.int w s))))
        = (op.outcome s (w.low x) (w.low y)).map (Outcome.number s') ∧
      (op.outcome s (w.low x) (w.low y) = none ↔ op.isDivision = true ∧ w.low y = 0) ∧
      ∀ o, op.outcome s (w.low x) (w.low y) = some o →
        truncate (o.number s') (.int w' s') = o.number s' ∧ w'.low (o.number s') = o.bits w') ∧
    ∀ (w : IntWidth) (s : Signedness) (t : Tree), IsConstant w s t → t.isNode = true →
      (∀ b, t.value w = some b →
        t.fold = .leaf (.const (s.number b) (.int w s)) ∧
        ∀ d, t.foldRoot (some d)
          = .node (.ir .move) (.int w s) (.leaf (.const (s.number b) (.int w s))) .absent) ∧
      (t.value w = none → t.fold.isNode = true ∧ ∀ d, t.foldRoot (some d) = t.fold) := by
  constructor
  · intro op w w' s s' x y hop hcount
    refine ⟨evaluate_eq_outcome hop x y hcount, IrOp.outcome_eq_none_iff hop.known s _ _, fun o ho => ?_⟩
    exact ⟨truncate_outcome hop ho, low_outcome hop ho⟩
  · intro w s t ht hnode
    cases ht.folded with
    | constant v hfold hvalue hrange =>
      refine ⟨fun b hb => ?_, fun hnone => by simp [hvalue] at hnone⟩
      have hv : v = s.number b := by
        rw [hrange hnode, show w.low v = b from Option.some.inj (hvalue.symm.trans hb)]
      rw [← hv]
      exact ⟨hfold, foldRoot_of_fold hnode hfold⟩
    | stuck hfold _ hvalue =>
      refine ⟨fun b hb => by simp [hvalue] at hb, fun _ => ?_⟩
      exact fold_of_stuck hnode hfold

end Tree

end Codegen
