/-
Bytes in a 64-bit address space.

Addresses wrap, so a run of bytes is told by how far an address is from its start: `Within`.
Words are taken apart and put together byte by byte, lowest byte first; `byteOf_load` and
`byteOf_fit` say what each byte of a result is, and everything else about loads and stores
follows from these two.
-/
import Codegen.Proofs.Word
import Mathlib.Algebra.Ring.Int.Defs
import Mathlib.Algebra.GroupWithZero.Nat

namespace Codegen

/-! ### The bytes of a word -/

/-- A byte of a word, counted from the lowest. -/
def byteOf (x : BitVec 64) (i : Nat) : BitVec 8 := x.extractLsb' (8 * i) 8

theorem getLsbD_byteOf (x : BitVec 64) (i j : Nat) :
    (byteOf x i).getLsbD j = (decide (j < 8) && x.getLsbD (8 * i + j)) := by
  simp [byteOf, BitVec.getLsbD_extractLsb']

variable {x y : BitVec 64}

theorem eq_of_byteOf (h : ∀ i < 8, byteOf x i = byteOf y i) : x = y := by
  apply BitVec.eq_of_getLsbD_eq
  intro k hk
  have hbyte := congrArg (·.getLsbD (k % 8)) (h (k / 8) (by omega))
  have hmod : k % 8 < 8 := Nat.mod_lt _ (by decide)
  simpa only [getLsbD_byteOf, hmod, decide_true, Bool.true_and, Nat.div_add_mod] using hbyte

namespace Ty

/-- How many bytes are moved when a value of the type is: those of a scalar, else eight. -/
def span (t : Ty) : Nat := (Operand.mk .none t 0).width.toInt.toNat

@[simp] theorem span_int (w : IntWidth) (s : Signedness) : (Ty.int w s).span = w.bits / 8 := by
  cases w <;> rfl

@[simp] theorem span_pointer (t : Ty) : (Ty.pointer t).span = 8 := rfl

/-- A word cut to the width of a type, and widened again the way the type says. -/
def fit (t : Ty) (x : BitVec 64) : BitVec 64 :=
  match t with
  | .int w .signed => (x.setWidth w.bits).signExtend 64
  | .int w .unsigned => (x.setWidth w.bits).setWidth 64
  | .float .single => (x.setWidth 32).setWidth 64
  | _ => x

@[simp] theorem fit_pointer (t : Ty) (x : BitVec 64) : (Ty.pointer t).fit x = x := rfl
@[simp] theorem fit_double (x : BitVec 64) : Ty.double.fit x = x := rfl
@[simp] theorem fit_ulong (x : BitVec 64) : Ty.ulong.fit x = x := by simp [fit, IntWidth.bits]
@[simp] theorem fit_long (x : BitVec 64) : Ty.long.fit x = x := by simp [fit, IntWidth.bits]

variable {i : Nat}

theorem byteOf_fit (t : Ty) (x : BitVec 64) (hi : i < t.span) (h8 : i < 8) :
    byteOf (t.fit x) i = byteOf x i := by
  apply BitVec.eq_of_getLsbD_eq
  intro j hj
  rw [getLsbD_byteOf, getLsbD_byteOf]
  have hk : 8 * i + j < 64 := by omega
  cases t with
  | int w s =>
    have hw : 8 * i + j < w.bits := by
      have : w.bits % 8 = 0 := by cases w <;> rfl
      rw [span_int] at hi
      omega
    have hx : x.getLsbD (8 * i + j) = (x.setWidth w.bits).getLsbD (8 * i + j) := by simp [hw]
    cases s with
    | signed => rw [fit, BitVec.getLsbD_signExtend, hx]; simp [hw, hk]
    | unsigned => simp [fit, hw, hk]
  | float k =>
    cases k with
    | single =>
      have hi : i < 4 := hi
      have h32 : 8 * i + j < 32 := by omega
      simp [fit, h32, hk]
    | double => rfl
    | extended => rfl
  | _ => rfl

end Ty

/-! ### Runs of bytes -/

theorem add_ofNat_add (a : BitVec 64) (k i : Nat) :
    a + BitVec.ofNat 64 k + BitVec.ofNat 64 i = a + BitVec.ofNat 64 (k + i) := by
  rw [BitVec.add_assoc, BitVec.ofNat_add]

/-- Memory, by address. -/
abbrev Memory := BitVec 64 → BitVec 8

namespace Memory

/-- Is the address among the `n` bytes from `a` on? -/
def Within (a : BitVec 64) (n : Nat) (p : BitVec 64) : Prop := (p - a).toNat < n

instance (a : BitVec 64) (n : Nat) (p : BitVec 64) : Decidable (Within a n p) :=
  inferInstanceAs (Decidable (_ < _))

variable {i n k d n' e k' : Nat} {a p b : BitVec 64}

theorem toNat_add_sub (a : BitVec 64) (hi : i < 2 ^ 64) : (a + BitVec.ofNat 64 i - a).toNat = i := by
  rw [BitVec.add_comm, BitVec.add_sub_cancel, BitVec.toNat_ofNat, Nat.mod_eq_of_lt hi]

theorem Within.exists_add (h : Within a n p) : ∃ i < n, i < 2 ^ 64 ∧ p = a + BitVec.ofNat 64 i := by
  refine ⟨(p - a).toNat, h, (p - a).isLt, ?_⟩
  rw [BitVec.ofNat_toNat, BitVec.setWidth_eq, BitVec.add_comm, BitVec.sub_add_cancel]

theorem within_add_iff (a : BitVec 64) (h64 : i < 2 ^ 64) : Within a n (a + BitVec.ofNat 64 i) ↔ i < n := by
  rw [Within, toNat_add_sub a h64]

theorem within_add (a : BitVec 64) (hi : i < n) (h64 : i < 2 ^ 64) : Within a n (a + BitVec.ofNat 64 i) :=
  (within_add_iff a h64).mpr hi

theorem Within.mono (h : Within a n p) (hnk : n ≤ k) :
    Within a k p := Nat.lt_of_lt_of_le h hnk

theorem Within.of_part (h : Within (a + BitVec.ofNat 64 d) n p) (hk : d + n ≤ k) : Within a k p := by
  obtain ⟨i, hi, -, rfl⟩ := h.exists_add
  have hle := Nat.mod_le (d + i) (2 ^ 64)
  rw [add_ofNat_add, Within, BitVec.add_comm, BitVec.add_sub_cancel, BitVec.toNat_ofNat]
  omega

theorem Within.split (h : Within a (n + k) p) : Within a n p ∨ Within (a + BitVec.ofNat 64 n) k p := by
  obtain ⟨i, hi, h64, rfl⟩ := h.exists_add
  by_cases hn : i < n
  · exact .inl (within_add a hn h64)
  · have hsum : i = n + (i - n) := by omega
    rw [hsum, ← add_ofNat_add]
    exact .inr (within_add _ (by omega) (by omega))

/-- Two runs of bytes have no address in common. -/
def Apart (a : BitVec 64) (n : Nat) (b : BitVec 64) (k : Nat) : Prop :=
  ∀ p, Within a n p → ¬ Within b k p

theorem Apart.symm (h : Apart a n b k) : Apart b k a n :=
  fun p hb ha => h p ha hb

/-- Parts of runs without a common address have none. -/
theorem Apart.parts (h : Apart a n b k) (hn : d + n' ≤ n) (hk : e + k' ≤ k) :
    Apart (a + BitVec.ofNat 64 d) n' (b + BitVec.ofNat 64 e) k' :=
  fun p ha hb => h p (ha.of_part hn) (hb.of_part hk)

theorem apart_add (a : BitVec 64) (h : n + k ≤ 2 ^ 64) : Apart a n (a + BitVec.ofNat 64 n) k := by
  intro p ha hb
  obtain ⟨i, hi, -, rfl⟩ := hb.exists_add
  rw [add_ofNat_add, within_add_iff a (by omega)] at ha
  omega

theorem apart_of_le (h : a.toNat + n ≤ b.toNat) (hb : b.toNat + k ≤ 2 ^ 64) : Apart a n b k := by
  intro p ha hb'
  obtain ⟨i, hi, -, rfl⟩ := ha.exists_add
  obtain ⟨j, hj, -, heq⟩ := hb'.exists_add
  have hnat := congrArg BitVec.toNat heq
  rw [BitVec.toNat_add, BitVec.toNat_add, BitVec.toNat_ofNat, BitVec.toNat_ofNat] at hnat
  omega

/-! ### Loads and stores -/

variable (m : Memory) {m' : Memory}

/-- The word of the `n` bytes from `a` on. -/
def load (a : BitVec 64) : Nat → BitVec 64
  | 0 => 0
  | n + 1 => load (a + 1#64) n <<< 8 ||| (m a).setWidth 64

/-- Put the low `n` bytes of a word at `a`. -/
def store (a : BitVec 64) (n : Nat) (x : BitVec 64) : Memory := fun p =>
  if Within a n p then byteOf x (p - a).toNat else m p

/-- Put the `n` bytes from `b` on at `a`. -/
def copy (a b : BitVec 64) (n : Nat) : Memory := fun p =>
  if Within a n p then m (b + (p - a)) else m p

theorem byteOf_load (a : BitVec 64) (hn : n ≤ 8) (hi : i < n) :
    byteOf (m.load a n) i = m (a + BitVec.ofNat 64 i) := by
  induction n generalizing a i with
  | zero => omega
  | succ n ih =>
    apply BitVec.eq_of_getLsbD_eq
    intro j hj
    rw [getLsbD_byteOf, load, BitVec.getLsbD_or, BitVec.getLsbD_shiftLeft,
      BitVec.getLsbD_setWidth]
    cases i with
    | zero => simp [hj, show j < 64 by omega]
    | succ i =>
      have hrec := congrArg (·.getLsbD j) (ih (a + 1#64) (i := i) (by omega) (by omega))
      rw [getLsbD_byteOf, add_ofNat_add, Nat.add_comm 1] at hrec
      have hpast : (m a).getLsbD (8 * (i + 1) + j) = false :=
        BitVec.getLsbD_of_ge _ _ (by omega)
      rw [← hrec, hpast]
      simp [hj, show 8 * (i + 1) + j < 64 by omega, show ¬ 8 * (i + 1) + j < 8 by omega,
        show 8 * (i + 1) + j - 8 = 8 * i + j by omega]

theorem byteOf_load_of_le (a : BitVec 64) (hi : n ≤ i) : byteOf (m.load a n) i = 0 := by
  induction n generalizing a i with
  | zero => simp [load, byteOf]
  | succ n ih =>
    obtain ⟨i, rfl⟩ : ∃ k, i = k + 1 := ⟨i - 1, by omega⟩
    apply BitVec.eq_of_getLsbD_eq
    intro j hj
    have hrec := congrArg (·.getLsbD j) (ih (a + 1#64) (i := i) (by omega))
    rw [getLsbD_byteOf] at hrec
    have hpast : (m a).getLsbD (8 * (i + 1) + j) = false :=
      BitVec.getLsbD_of_ge _ _ (by omega)
    rw [getLsbD_byteOf, load, BitVec.getLsbD_or, BitVec.getLsbD_shiftLeft,
      BitVec.getLsbD_setWidth, hpast]
    simp only [hj, decide_true, Bool.true_and, BitVec.ofNat_eq_ofNat, BitVec.getLsbD_zero] at hrec
    simp [hrec, show 8 * (i + 1) + j - 8 = 8 * i + j by omega]

theorem load_congr {m m' : Memory} (hn : n ≤ 8)
    (h : ∀ i < n, m' (a + BitVec.ofNat 64 i) = m (a + BitVec.ofNat 64 i)) :
    m'.load a n = m.load a n := by
  apply eq_of_byteOf
  intro i _
  by_cases hi : i < n
  · rw [byteOf_load _ _ hn hi, byteOf_load _ _ hn hi, h i hi]
  · rw [byteOf_load_of_le _ _ (by omega), byteOf_load_of_le _ _ (by omega)]

theorem store_apply (a : BitVec 64) (x : BitVec 64) (hi : i < n) (h64 : i < 2 ^ 64) :
    m.store a n x (a + BitVec.ofNat 64 i) = byteOf x i := by
  rw [store, if_pos (within_add a hi h64), toNat_add_sub a h64]

theorem store_of_not_within (x : BitVec 64) (h : ¬ Within a n p) :
    m.store a n x p = m p := if_neg h

/-- The memory after a store has the bytes of the word in the run, and all others as before. -/
theorem store_eq (hrun : ∀ i < n, i < 2 ^ 64 → byteOf x i = m' (a + BitVec.ofNat 64 i))
    (hother : ∀ q, ¬ Within a n q → m q = m' q) : m.store a n x = m' := by
  funext q
  by_cases hq : Within a n q
  · obtain ⟨i, hi, h64, rfl⟩ := hq.exists_add
    rw [store_apply _ _ _ hi h64, hrun i hi h64]
  · rw [store_of_not_within _ _ hq, hother q hq]

theorem load_store_apart (x : BitVec 64) (hk : k ≤ 8) (h : Apart a n b k) :
    (m.store a n x).load b k = m.load b k :=
  load_congr hk fun i hi => m.store_of_not_within x fun ha =>
    h _ ha (within_add b hi (by omega))

/-- What was stored is found again, if it is no wider than what is looked at. -/
theorem load_store_same (a : BitVec 64) (hn : n ≤ 8) (hx : ∀ i, n ≤ i → i < 8 → byteOf x i = 0) :
    (m.store a n x).load a n = x := by
  apply eq_of_byteOf
  intro i hi8
  by_cases hi : i < n
  · rw [byteOf_load _ _ hn hi, store_apply _ _ _ hi (by omega)]
  · rw [byteOf_load_of_le _ _ (by omega), hx i (by omega) hi8]

theorem copy_apply (a b : BitVec 64) (hi : i < n) (h64 : i < 2 ^ 64) :
    m.copy a b n (a + BitVec.ofNat 64 i) = m (b + BitVec.ofNat 64 i) := by
  rw [copy, if_pos (within_add a hi h64), BitVec.add_comm a, BitVec.add_sub_cancel]

theorem copy_of_not_within (h : ¬ Within a n p) :
    m.copy a b n p = m p := if_neg h

@[simp] theorem copy_zero (a b : BitVec 64) : m.copy a b 0 = m := by
  funext p
  exact m.copy_of_not_within (Nat.not_lt_zero _)

end Memory

end Codegen
