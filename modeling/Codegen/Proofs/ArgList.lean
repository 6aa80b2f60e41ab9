/-
The record of an argument list.

At run time the record keeps two numbers and a pointer: how far one has read in the saved integer
and vector registers, and where the next stack argument is.  `Record` says that they are those of
an `Allocation`, the one that placed the arguments read so far.  Checking that registers are left
and moving on are followed here for both files at once.
-/
import Codegen.Proofs.Copying
import Codegen.Proofs.Placing

namespace Codegen

variable {n k : Nat}

namespace Memory

variable {i j : Nat}

theorem apart_offsets (a : BitVec 64) (h : i + n ≤ j ∨ j + k ≤ i) (hi : i + n ≤ 2 ^ 64) (hj : j + k ≤ 2 ^ 64) :
    Apart (a + BitVec.ofNat 64 i) n (a + BitVec.ofNat 64 j) k := by
  have forward : ∀ {i n j k : Nat}, i + n ≤ j → j + k ≤ 2 ^ 64 →
      Apart (a + BitVec.ofNat 64 i) n (a + BitVec.ofNat 64 j) k := by
    intro i n j k hle hj
    have hsplit : a + BitVec.ofNat 64 j = a + BitVec.ofNat 64 i + BitVec.ofNat 64 (j - i) := by
      rw [BitVec.add_assoc, ← BitVec.ofNat_add, show i + (j - i) = j by omega]
    rw [hsplit]
    intro p hp hq
    exact apart_add (a + BitVec.ofNat 64 i) (n := j - i) (k := k) (by omega) p (hp.mono (by omega)) hq
  rcases h with h | h
  · exact forward h hj
  · exact (forward h hi).symm

/-- A small number is found again in four bytes. -/
theorem load_store_uint (m : Memory) (a : BitVec 64) (hn : n < 2 ^ 32) :
    (m.store a 4 (BitVec.ofNat 64 n)).load a 4 = BitVec.ofNat 64 n := by
  refine load_store_same _ _ (by decide) fun i hi _ => BitVec.eq_of_getLsbD_eq fun j hj => ?_
  have hbit : n.testBit (8 * i + j) = false :=
    Nat.testBit_lt_two_pow (Nat.lt_of_lt_of_le hn (Nat.pow_le_pow_right (by decide) (by omega)))
  rw [getLsbD_byteOf, BitVec.getLsbD_ofNat, hbit]
  simp

end Memory

namespace Ty

theorem fit_uint_ofNat (h : n < 2 ^ 32) : uint.fit (BitVec.ofNat 64 n) = BitVec.ofNat 64 n := by
  apply BitVec.eq_of_toNat_eq
  simp only [fit, IntWidth.bits, BitVec.toNat_setWidth, BitVec.toNat_ofNat]
  omega

end Ty

namespace Lowering

/-! ### Register files at run time -/

/-- The file of a class. -/
def fileOf (c : Eightbyte) : SavedFile :=
  match c with
  | .sse => .sse
  | _ => .int

/-- Where the save area keeps a register of the class's file. -/
def savedAt (c : Eightbyte) (n : Nat) : Nat :=
  match c with
  | .sse => sseSaveStart + 16 * n
  | _ => 8 * n

theorem savedAt_add (c : Eightbyte) (n k : Nat) :
    savedAt c (n + k) = savedAt c n + k * (fileOf c).step.toInt.toNat := by
  have hsse : SavedFile.sse.step.toInt.toNat = 16 := rfl
  have hint : SavedFile.int.step.toInt.toNat = 8 := rfl
  cases c <;> simp only [savedAt, fileOf, hsse, hint] <;> omega

variable {c : Eightbyte}

/-- The saved registers are inside the save area. -/
theorem savedAt_lt (h : n < c.capacity) : savedAt c n + 8 ≤ 176 := by
  cases c <;> simp only [savedAt, Eightbyte.capacity, sseSaveStart] at h ⊢ <;> omega

theorem savedAt_le (h : n ≤ c.capacity) : savedAt c n ≤ 176 := by
  cases c <;> simp only [savedAt, Eightbyte.capacity, sseSaveStart] at h ⊢ <;> omega

theorem savedAt_lt_iff : savedAt c n < savedAt c k ↔ n < k := by
  cases c <;> simp only [savedAt] <;> omega

/-- Every register has eight bytes of its own. -/
theorem savedAt_step (h : n < k) : savedAt c n + 8 ≤ savedAt c k := by
  cases c <;> simp only [savedAt] <;> omega

/-- The field of the record that counts a file. -/
def fieldAt (c : Eightbyte) : Nat :=
  match c with
  | .sse => 4
  | _ => 0

theorem toBitVec_field (c : Eightbyte) : (fileOf c).field.toBitVec = BitVec.ofNat 64 (fieldAt c) := by
  cases c <;> rfl

theorem limit_eq (c : Eightbyte) (hk : k = 1 ∨ k = 2) :
    Ty.uint.fit ((fileOf c).limit - (fileOf c).step * (Int64.ofNat k - 1)).toBitVec
      = BitVec.ofNat 64 (savedAt c (c.capacity + 1 - k)) := by
  rcases hk with rfl | rfl <;> cases c <;> decide

theorem advance_eq (c : Eightbyte) (hk : k = 1 ∨ k = 2) :
    Ty.uint.fit (Int64.ofNat k * (fileOf c).step).toBitVec
      = BitVec.ofNat 64 (k * (fileOf c).step.toInt.toNat) := by
  rcases hk with rfl | rfl <;> cases c <;> decide

/-! ### The record -/

/-- The places that reading arguments is about: the record, the saved registers and the arguments on
the stack, with the number of their bytes. -/
structure Places where
  list : BitVec 64
  area : BitVec 64
  base : BitVec 64
  size : Nat

/-- The bytes of the save area. -/
def areaBytes : Nat := 176

/-- The bytes of the record. -/
def recordSize : Nat := 24

/-- The record is that of an allocation. -/
structure Record (pl : Places) (a : Allocation) (m : Memory) : Prop where
  read : ∀ c, m.load (pl.list + BitVec.ofNat 64 (fieldAt c)) 4 = BitVec.ofNat 64 (savedAt c (a.taken c))
  overflow : m.load (pl.list + BitVec.ofNat 64 8) 8 = pl.base + a.offset.toBitVec
  save : m.load (pl.list + BitVec.ofNat 64 16) 8 = pl.area

variable {pl : Places} {a b : Allocation} {m : Memory}

theorem Record.congr (h : Record pl a m) (m' : Memory)
    (hm : ∀ p, Memory.Within pl.list recordSize p → m' p = m p) : Record pl a m' := by
  have hload : ∀ i n, i + n ≤ recordSize → n ≤ 8 → m'.load (pl.list + BitVec.ofNat 64 i) n
      = m.load (pl.list + BitVec.ofNat 64 i) n := by
    intro i n hle hn
    refine Memory.load_congr hn fun j hj => hm _ ?_
    exact (Memory.within_add _ hj (by omega)).of_part hle
  refine ⟨fun c => ?_, ?_, ?_⟩
  · rw [hload _ _ (by cases c <;> decide) (by decide)]; exact h.read c
  · rw [hload _ _ (by decide) (by decide)]; exact h.overflow
  · rw [hload _ _ (by decide) (by decide)]; exact h.save

/-- The record after more registers of a file were read. -/
theorem Record.store_read (h : Record pl a m) (c : Eightbyte) (hoffset : b.offset = a.offset)
    (hle : b.taken c ≤ c.capacity)
    (htaken : ∀ d, fieldAt d ≠ fieldAt c → b.taken d = a.taken d) :
    Record pl b (m.store (pl.list + BitVec.ofNat 64 (fieldAt c)) 4
      (BitVec.ofNat 64 (savedAt c (b.taken c)))) := by
  have hfield : fieldAt c = 0 ∨ fieldAt c = 4 := by cases c <;> decide
  have hother : ∀ i n, 8 ≤ i → i + n ≤ 24 → n ≤ 8 →
      (m.store (pl.list + BitVec.ofNat 64 (fieldAt c)) 4
        (BitVec.ofNat 64 (savedAt c (b.taken c)))).load (pl.list + BitVec.ofNat 64 i) n
      = m.load (pl.list + BitVec.ofNat 64 i) n := by
    intro i n hi hle' hn
    exact Memory.load_store_apart _ _ hn (Memory.apart_offsets _ (by omega) (by omega) (by omega))
  refine ⟨fun d => ?_, ?_, ?_⟩
  · by_cases hd : fieldAt d = fieldAt c
    · have hsame : savedAt d (b.taken d) = savedAt c (b.taken c) := by
        revert hd
        cases c <;> cases d <;> first | (intro h; exact absurd h (by decide)) | (intro _; rfl)
      have hsmall := savedAt_le hle
      rw [hd, hsame]
      exact Memory.load_store_uint _ _ (by omega)
    · have hfield' : fieldAt d = 0 ∨ fieldAt d = 4 := by cases d <;> decide
      rw [htaken d hd, Memory.load_store_apart _ _ (by decide)
        (Memory.apart_offsets _ (by omega) (by omega) (by omega))]
      exact h.read d
  · rw [hoffset, hother 8 8 (by decide) (by decide) (by decide)]; exact h.overflow
  · rw [hother 16 8 (by decide) (by decide) (by decide)]; exact h.save

/-- The record after a stack argument was read. -/
theorem Record.store_overflow (h : Record pl a m) (htaken : ∀ c, b.taken c = a.taken c) :
    Record pl b (m.store (pl.list + BitVec.ofNat 64 8) 8 (pl.base + b.offset.toBitVec)) := by
  refine ⟨fun c => ?_, ?_, ?_⟩
  · have hfield : fieldAt c = 0 ∨ fieldAt c = 4 := by cases c <;> decide
    rw [htaken c, Memory.load_store_apart _ _ (by decide)
      (Memory.apart_offsets _ (by omega) (by omega) (by omega))]
    exact h.read c
  · exact Memory.load_store_same _ _ (by decide) fun i hi hi8 => absurd hi (by omega)
  · rw [Memory.load_store_apart _ _ (by decide)
      (Memory.apart_offsets _ (by omega) (by omega) (by omega))]
    exact h.save

/-! ### Checking and moving on -/

section

variable {env : Addresses} {s : Lowering} {w : World} {list : Operand} {overflow low : Int} {P : Instr → Prop}

theorem emits_checkSaved (hP : Permissive low P) (list : Operand) (f : SavedFile) (count : Int64) (overflow : Int) :
    EmitsFrom low P (checkSaved list f count overflow) fun _ => True :=
  emits_bind (emits_compute_of (hP.ops .move (by decide)) _ _ _) fun _ _ =>
    emits_bind (emits_compute_of (hP.ops .lt (by decide)) _ _ _) fun _ _ =>
      emits_bind (emits_emit ((hP.ops .jz (by decide)).silent _ _)) fun _ _ => emits_pure trivial

theorem emits_advanceSaved (hP : Permissive low P) (hlist : Writable P list) (f : SavedFile) (count : Int64)
    (read : Operand) : EmitsFrom low P (advanceSaved list f count read) fun _ => True :=
  emits_bind (emits_compute_of (hP.ops .add (by decide)) _ _ _) fun _ _ => emits_move hlist _ _ _

/-- A fresh register holds how far one has read; nothing else has changed. -/
structure Checked (s : Lowering) (w : World) (n : Nat) (r : Operand) (s' : Lowering) (w' : World) :
    Prop where
  memory : w'.memory = w.memory
  regs : w.Agrees s.fn.vregCount w'
  operand : ∃ id, s.fn.vregCount < id ∧ id ≤ s'.fn.vregCount ∧ r = .vreg id .uint ∧
    w'.regs id = BitVec.ofNat 64 n

/-- Read how far one has read, and compare it with the limit. -/
def compareSaved (list : Operand) (f : SavedFile) (count : Int64) : Build (Operand × Operand) := do
  let read ← compute .move .uint (list.shifted f.field .uint) none
  let fits ← compute .lt .sint read (Operand.const (f.limit - f.step * (count - 1)) .uint)
  return (read, fits)

theorem checkSaved_eq (list : Operand) (f : SavedFile) (count : Int64) (overflow : Int) :
    checkSaved list f count overflow = (do
      let r ← compareSaved list f count
      emit .jz none r.2 (Operand.label overflow)
      return r.1) := rfl

theorem runs_compareSaved (hlist : env.of? list = some pl.list) (hrecord : Record pl a w.memory)
    (hle : a.taken c ≤ c.capacity) (hk : k = 1 ∨ k = 2) :
    Runs env (compareSaved list (fileOf c) (Int64.ofNat k)) s w fun r s' w' =>
      Checked s w (savedAt c (a.taken c)) r.1 s' w' ∧ (∀ n, r.2.value ≠ .label n) ∧
        w'.value? env r.2 = some (if a.taken c + k ≤ c.capacity then 1 else 0) := by
  have hsmall := savedAt_le hle
  have hread : w.value? env (list.shifted (fileOf c).field .uint)
      = some (BitVec.ofNat 64 (savedAt c (a.taken c))) := by
    rw [World.value?_shifted hlist _ (by decide), toBitVec_field, show Ty.uint.span = 4 from rfl,
      hrecord.read c, Ty.fit_uint_ofNat (by omega)]
  refine runs_bind (runs_compute_move (by decide) hread) ?_
  rintro _ s₁ _ - ⟨rfl, hfn, -, rfl⟩
  have hcount : s₁.fn.vregCount = s.fn.vregCount + 1 := by rw [hfn]
  rw [Ty.fit_uint_ofNat (by omega)]
  have hfirst : (w.set (s.fn.vregCount + 1) (BitVec.ofNat 64 (savedAt c (a.taken c)))).value? env
      (.vreg (s.fn.vregCount + 1) .uint) = some (BitVec.ofNat 64 (savedAt c (a.taken c))) := by
    rw [World.value?_vreg _ (by decide), World.regs_set_self, Ty.fit_uint_ofNat (by omega)]
  have hlimit : (w.set (s.fn.vregCount + 1) (BitVec.ofNat 64 (savedAt c (a.taken c)))).value? env
      (.const ((fileOf c).limit - (fileOf c).step * (Int64.ofNat k - 1)) .uint)
      = some (BitVec.ofNat 64 (savedAt c (c.capacity + 1 - k))) := by
    rw [World.value?_const _ (by decide), limit_eq c hk]
  refine runs_bind (runs_compute_binary .lt (by decide) hfirst hlimit rfl) ?_
  rintro _ s₂ _ - ⟨rfl, hfn₂, -, rfl⟩
  refine runs_pure ⟨⟨rfl, ?_,
    ⟨s.fn.vregCount + 1, by omega, by rw [hfn₂]; show _ ≤ s₁.fn.vregCount + 1; omega, rfl, ?_⟩⟩,
    fun n => by simp [Operand.vreg], ?_⟩
  · exact ((World.Agrees.refl _ _).set (by omega) _).set (by omega) _
  · rw [World.regs_set_of_ne _ (by omega), World.regs_set_self]
  · have hbound : savedAt c (c.capacity + 1 - k) < 2 ^ 64 := by
      have := savedAt_le (c := c) (n := c.capacity + 1 - k) (by omega)
      omega
    have hiff : (BitVec.ofNat 64 (savedAt c (a.taken c))).ult
        (BitVec.ofNat 64 (savedAt c (c.capacity + 1 - k))) = decide (a.taken c + k ≤ c.capacity) := by
      rw [BitVec.ult, BitVec.toNat_ofNat, BitVec.toNat_ofNat, Nat.mod_eq_of_lt (by omega),
        Nat.mod_eq_of_lt hbound, decide_eq_decide, savedAt_lt_iff]
      omega
    rw [World.value?_vreg _ (by decide), World.regs_set_self, show Ty.isUnsigned _ = true from rfl,
      if_pos rfl, hiff]
    by_cases hfits : a.taken c + k ≤ c.capacity
    · simp only [hfits, decide_true, if_true]
      decide
    · simp only [hfits, decide_false, if_false, Bool.false_eq_true]
      decide

theorem runs_checkSaved (hlist : env.of? list = some pl.list) (hrecord : Record pl a w.memory)
    (hk : k = 1 ∨ k = 2) (hfits : a.taken c + k ≤ c.capacity) :
    Runs env (checkSaved list (fileOf c) (Int64.ofNat k) overflow) s w
      (Checked s w (savedAt c (a.taken c))) := by
  rw [checkSaved_eq]
  refine runs_bind (runs_compareSaved hlist hrecord (by omega) hk) ?_
  rintro ⟨read, fits⟩ s₁ w₁ - ⟨hchecked, -, hvalue⟩
  rw [if_pos hfits] at hvalue
  refine runs_bind (Q := fun _ s₂ w₂ => s₂.fn = s₁.fn ∧ w₂ = w₁)
    (runs_jz hvalue (by decide) fun s₂ hfn _ => ⟨hfn, rfl⟩) ?_
  rintro _ s₂ _ - ⟨hfn, rfl⟩
  exact runs_pure ⟨hchecked.memory, hchecked.regs, by rw [hfn]; exact hchecked.operand⟩

theorem escapes_checkSaved (hlist : env.of? list = some pl.list) (hrecord : Record pl a w.memory)
    (hle : a.taken c ≤ c.capacity) (hk : k = 1 ∨ k = 2) (hfull : ¬ a.taken c + k ≤ c.capacity) :
    Escapes env (checkSaved list (fileOf c) (Int64.ofNat k) overflow) s w overflow fun w' =>
      w'.memory = w.memory := by
  rw [checkSaved_eq]
  refine escapes_bind_right (runs_compareSaved hlist hrecord hle hk)
    (fun _ => appends_of fun _ => emits_bind (emits_emit rfl) fun _ _ => emits_pure trivial) ?_
  rintro ⟨read, fits⟩ s₁ w₁ - ⟨hchecked, hlabel, hvalue⟩
  rw [if_neg hfull] at hvalue
  exact escapes_bind_left (escapes_jz hvalue hlabel hchecked.memory) fun _ =>
    appends_of fun _ => emits_pure trivial

theorem runs_advanceSaved {id : Int} (hlist : env.of? list = some pl.list) (hk : k = 1 ∨ k = 2)
    (hread : w.regs id = BitVec.ofNat 64 (savedAt c n)) (hfits : n + k ≤ c.capacity) :
    Runs env (advanceSaved list (fileOf c) (Int64.ofNat k) (.vreg id .uint)) s w fun _ s' w' =>
      w'.memory = w.memory.store (pl.list + BitVec.ofNat 64 (fieldAt c)) 4
        (BitVec.ofNat 64 (savedAt c (n + k))) ∧ w.Agrees s.fn.vregCount w' ∧
        s.fn.vregCount ≤ s'.fn.vregCount := by
  have hsmall := savedAt_le hfits
  have hsum := savedAt_add c n k
  have hvalue : w.value? env (.vreg id .uint) = some (BitVec.ofNat 64 (savedAt c n)) := by
    rw [World.value?_vreg _ (by decide), hread, Ty.fit_uint_ofNat (by omega)]
  have hstep : w.value? env (.const (Int64.ofNat k * (fileOf c).step) .uint)
      = some (BitVec.ofNat 64 (k * (fileOf c).step.toInt.toNat)) := by
    rw [World.value?_const _ (by decide), advance_eq c hk]
  refine runs_bind (runs_compute_binary .add (by decide) hvalue hstep rfl) ?_
  rintro _ s₁ _ hadv ⟨rfl, -, -, rfl⟩
  have hnext : IrOp.word .add (BitVec.ofNat 64 (savedAt c n))
      (BitVec.ofNat 64 (k * (fileOf c).step.toInt.toNat)) = BitVec.ofNat 64 (savedAt c (n + k)) := by
    rw [hsum]
    exact (BitVec.ofNat_add _ _).symm
  rw [hnext, Ty.fit_uint_ofNat (by omega)]
  refine (runs_move hlist _ (by decide) (World.value?_vreg _ (by decide))).mono ?_
  rintro _ s₂ _ hadv₂ ⟨-, -, rfl⟩
  refine ⟨?_, ((World.Agrees.refl _ _).set (by omega) _).store _ _ _,
    Int.le_trans hadv.vregs hadv₂.vregs⟩
  rw [World.memory_store, World.memory_set, World.regs_set_self, Ty.fit_uint_ofNat (by omega),
    toBitVec_field]
  rfl

end

end Lowering

end Codegen
