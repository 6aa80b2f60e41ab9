/-
Rounding up, and the alignments there are.

Sizes and offsets are words, and as long as nothing wraps they add up and round up like numbers.
An alignment is zero or a power of two up to sixteen.
-/
import Codegen.Ty.Layout
import Mathlib.Algebra.Ring.Int.Defs
import Mathlib.Algebra.GroupWithZero.Nat

namespace Codegen

/-! ### Words that count bytes -/

section

variable {x y : Int64}

theorem toInt_add_of_nonneg (hx : 0 ≤ x.toInt) (hy : 0 ≤ y.toInt) (h : x.toInt + y.toInt < 2 ^ 63) :
    (x + y).toInt = x.toInt + y.toInt := by
  rw [Int64.toInt_add]
  exact Int.bmod_eq_of_le_mul_two (by omega) (by omega)

theorem toInt_sub_of_le (hy : 0 ≤ y.toInt) (h : y.toInt ≤ x.toInt) :
    (x - y).toInt = x.toInt - y.toInt := by
  have := x.toInt_lt
  rw [Int64.toInt_sub]
  exact Int.bmod_eq_of_le_mul_two (by omega) (by omega)

theorem toInt_div_eight (h : 0 ≤ x.toInt) : (x / 8).toInt = x.toInt / 8 := by
  have := x.toInt_lt
  rw [Int64.toInt_div, show (8 : Int64).toInt = 8 from rfl, Int.tdiv_eq_ediv_of_nonneg h]
  exact Int.bmod_eq_of_le (by omega) (by omega)

theorem toInt_eightbytes (h : 0 ≤ x.toInt) (hfit : x.toInt + 7 < 2 ^ 63) :
    ((x + 7) / 8).toInt = (x.toInt + 7) / 8 := by
  have hsum : (x + 7).toInt = x.toInt + 7 := toInt_add_of_nonneg h (by decide) hfit
  rw [toInt_div_eight (by omega), hsum]

theorem toInt_min (x y : Int64) : (min x y).toInt = min x.toInt y.toInt := by
  show (if x ≤ y then x else y).toInt = _
  split
  · next h => exact (Int.min_eq_left (Int64.le_iff_toInt_le.mp h)).symm
  · next h =>
    have h := Int.not_le.mp fun hle => h (Int64.le_iff_toInt_le.mpr hle)
    exact (Int.min_eq_right (Int.le_of_lt h)).symm

theorem toInt_max (x y : Int64) : (max x y).toInt = max x.toInt y.toInt := by
  show (if x ≤ y then y else x).toInt = _
  split
  · next h => exact (Int.max_eq_right (Int64.le_iff_toInt_le.mp h)).symm
  · next h =>
    have h := Int.not_le.mp fun hle => h (Int64.le_iff_toInt_le.mpr hle)
    exact (Int.max_eq_left (Int.le_of_lt h)).symm

theorem toBitVec_of_nonneg (h : 0 ≤ x.toInt) : x.toBitVec = BitVec.ofNat 64 x.toInt.toNat := by
  rw [← Int64.toInt_toBitVec] at h ⊢
  have hlt := x.toBitVec.isLt
  have hcond := x.toBitVec.toInt_eq_toNat_cond
  apply BitVec.eq_of_toNat_eq
  rw [BitVec.toNat_ofNat]
  split at hcond <;> omega

theorem toBitVec_eight_mul (i : Nat) : (Int64.ofNat i * 8).toBitVec = BitVec.ofNat 64 (8 * i) := by
  rw [Int64.toBitVec_mul, Nat.mul_comm, BitVec.ofNat_mul]
  rfl

theorem toNat_toBitVec_of_nonneg (h : 0 ≤ x.toInt) : x.toBitVec.toNat = x.toInt.toNat := by
  have := x.toInt_lt
  rw [toBitVec_of_nonneg h, BitVec.toNat_ofNat]
  omega

end

/-! ### Rounding up -/

theorem toNat_and_not_mask (x : BitVec 64) (k : Nat) :
    (x &&& ~~~(BitVec.ofNat 64 (2 ^ k - 1))).toNat = x.toNat / 2 ^ k * 2 ^ k := by
  have hshift : x &&& ~~~(BitVec.ofNat 64 (2 ^ k - 1)) = (x >>> k) <<< k := by
    apply BitVec.eq_of_getLsbD_eq
    intro i hi
    rw [BitVec.getLsbD_and, BitVec.getLsbD_not, BitVec.getLsbD_ofNat, BitVec.getLsbD_shiftLeft,
      BitVec.getLsbD_ushiftRight, Nat.testBit_two_pow_sub_one]
    by_cases h : i < k
    · simp [h, hi]
    · simp [h, hi, show k + (i - k) = i by omega]
  have hle : x.toNat / 2 ^ k * 2 ^ k ≤ x.toNat := Nat.div_mul_le_self _ _
  have hlt := x.isLt
  rw [hshift, BitVec.toNat_shiftLeft, BitVec.toNat_ushiftRight, Nat.shiftLeft_eq,
    Nat.shiftRight_eq_div_pow]
  omega

variable {n b : Int64} {k : Nat}

theorem toInt_alignUp {a : Int64} (ha : a.toInt = 2 ^ k) (hn : 0 ≤ n.toInt) (hfit : n.toInt + a.toInt ≤ 2 ^ 63) :
    (alignUp n a).toInt = (n.toInt + (a.toInt - 1)) / a.toInt * a.toInt := by
  have hapos : 0 < a.toInt := by rw [ha]; exact Int.pow_pos (by decide)
  have halt := a.toInt_lt
  unfold alignUp
  split
  · next hle =>
      have hone : a.toInt = 1 := by
        have := Int64.le_iff_toInt_le.mp hle
        have h1 : (1 : Int64).toInt = 1 := rfl
        omega
      rw [hone]
      omega
  · have hmask : (a - 1).toBitVec = BitVec.ofNat 64 (2 ^ k - 1) := by
      have hsub : (a - 1).toInt = a.toInt - 1 := toInt_sub_of_le (by decide) (show 1 ≤ _ by omega)
      rw [toBitVec_of_nonneg (by omega), hsub, ha]
      congr 1
      have : (2 : Int) ^ k = ((2 ^ k : Nat) : Int) := by push_cast; rfl
      omega
    have hsum : (n + a - 1).toInt = n.toInt + (a.toInt - 1) := by
      have hassoc : n + a - 1 = n + (a - 1) := by
        apply Int64.toBitVec_inj.mp
        simp [BitVec.sub_eq_add_neg, BitVec.add_assoc]
      have hsub : (a - 1).toInt = a.toInt - 1 := toInt_sub_of_le (by decide) (show 1 ≤ _ by omega)
      rw [hassoc, toInt_add_of_nonneg hn (by omega) (by omega), hsub]
    have hnat : ((n + a - 1) &&& ~~~(a - 1)).toBitVec.toNat
        = (n.toInt + (a.toInt - 1)).toNat / 2 ^ k * 2 ^ k := by
      rw [Int64.toBitVec_and, Int64.toBitVec_not, hmask, toNat_and_not_mask,
        toNat_toBitVec_of_nonneg (by omega), hsum]
    have hle : (n.toInt + (a.toInt - 1)).toNat / 2 ^ k * 2 ^ k ≤ (n.toInt + (a.toInt - 1)).toNat :=
      Nat.div_mul_le_self _ _
    rw [← Int64.toInt_toBitVec, BitVec.toInt_eq_toNat_cond, hnat, if_pos (by omega)]
    push_cast
    rw [Int.toNat_of_nonneg (by omega), ha]

theorem toInt_alignUp_eight (hn : 0 ≤ n.toInt) (hfit : n.toInt + 8 ≤ 2 ^ 63) :
    (alignUp n 8).toInt = (n.toInt + 7) / 8 * 8 := toInt_alignUp (k := 3) rfl hn hfit

theorem toInt_alignUp_sixteen (hn : 0 ≤ n.toInt) (hfit : n.toInt + 16 ≤ 2 ^ 63) :
    (alignUp n 16).toInt = (n.toInt + 15) / 16 * 16 := toInt_alignUp (k := 4) rfl hn hfit

/-! ### Alignments -/

/-- The alignments there are. -/
def IsAlignment (a : Int64) : Prop := a = 0 ∨ a = 1 ∨ a = 2 ∨ a = 4 ∨ a = 8 ∨ a = 16

instance (a : Int64) : Decidable (IsAlignment a) := by unfold IsAlignment; infer_instance

theorem isAlignment_max {a : Int64} (ha : IsAlignment a) (hb : IsAlignment b) : IsAlignment (max a b) := by
  rcases ha with rfl | rfl | rfl | rfl | rfl | rfl <;>
    rcases hb with rfl | rfl | rfl | rfl | rfl | rfl <;> decide

/-- Round up to a multiple; to a multiple of one, for nothing. -/
def roundUp (n a : Nat) : Nat := if a ≤ 1 then n else (n + (a - 1)) / a * a

theorem roundUp_of_lt {a : Nat} (ha : 1 < a) (n : Nat) : roundUp n a = (n + (a - 1)) / a * a :=
  if_neg (Nat.not_le.mpr ha)

theorem le_roundUp (n a : Nat) : n ≤ roundUp n a := by
  by_cases ha : 1 < a
  · have hsplit := Nat.div_add_mod (n + (a - 1)) a
    have hmod := Nat.mod_lt (n + (a - 1)) (show 0 < a by omega)
    rw [Nat.mul_comm] at hsplit
    rw [roundUp_of_lt ha]
    omega
  · exact Nat.le_of_eq (if_pos (Nat.not_lt.mp ha)).symm

theorem dvd_roundUp {a : Nat} (ha : 1 < a) (n : Nat) : a ∣ roundUp n a := by
  rw [roundUp_of_lt ha]
  exact Nat.dvd_mul_left _ _

/-- Offsets are rounded up like numbers while they are words. -/
theorem toInt_alignUp_eq_roundUp {a : Int64} (ha : IsAlignment a) (hn : n.toInt = k)
    (hfit : roundUp k a.toInt.toNat < 2 ^ 63) : (alignUp n a).toInt = roundUp k a.toInt.toNat := by
  have hpower : ∀ (w j : Nat), a.toInt = w → (w : Int) = 2 ^ j → (w = 2 ∨ w = 4 ∨ w = 8 ∨ w = 16) →
      (alignUp n a).toInt = roundUp k a.toInt.toNat := by
    intro w j hw hj hcases
    rw [hw, Int.toNat_natCast, roundUp_of_lt (by omega)] at hfit ⊢
    have hroom : n.toInt + a.toInt ≤ 2 ^ 63 := by
      rcases hcases with rfl | rfl | rfl | rfl <;> omega
    rw [toInt_alignUp (hw.trans hj) (by omega) hroom, hw]
    rcases hcases with rfl | rfl | rfl | rfl <;> omega
  rcases ha with rfl | rfl | rfl | rfl | rfl | rfl
  · exact hn
  · exact hn
  · exact hpower 2 1 rfl rfl (by omega)
  · exact hpower 4 2 rfl rfl (by omega)
  · exact hpower 8 3 rfl rfl (by omega)
  · exact hpower 16 4 rfl rfl (by omega)

namespace Ty

mutual

theorem isAlignment_align : (t : Ty) → IsAlignment t.align
  | .missing => by decide
  | .void => by decide
  | .int w _ => by
    show IsAlignment w.bytes
    cases w <;> decide
  | .float k => by
    show IsAlignment k.bytes
    cases k <;> decide
  | .pointer _ => show IsAlignment 8 by decide
  | .func _ _ _ => show IsAlignment 8 by decide
  | .array element _ => isAlignment_align element
  | .struct _ members packed => by
    rw [align]
    split
    · decide
    · exact isAlignment_alignAll members 1 (by decide)
  | .union _ members => by
    rw [align]
    exact isAlignment_alignAll members 1 (by decide)

theorem isAlignment_alignAll : (ts : List Ty) → (least : Int64) → IsAlignment least →
    IsAlignment (alignAll ts least)
  | [], _, h => by rw [alignAll]; exact h
  | t :: ts, least, h => by
    rw [alignAll]
    exact isAlignment_alignAll ts _ (isAlignment_max h (isAlignment_align t))

end

/-- What goes to the stack is aligned to eight or to sixteen bytes. -/
theorem max_eight_align (t : Ty) :
    (t.align ≤ 8 ∧ max 8 t.align = 8) ∨ (t.align = 16 ∧ max 8 t.align = 16) := by
  rcases isAlignment_align t with h | h | h | h | h | h <;> rw [h] <;> decide

end Ty

end Codegen
