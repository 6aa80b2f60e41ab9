/-
Reading variable arguments.

A caller has placed arguments with one `Allocation`; `Passed` says that registers and stack bytes
hold them accordingly.  Reading the next one with the record of an allocation gives the bytes of
the argument that is placed next, and leaves the record of the allocation after it.  So the record
goes through the same states at run time as the allocation did when the call was compiled,
whatever mixture of integers, floats and aggregates is read.
-/
import Codegen.Proofs.ArgList

namespace Codegen

open World Memory Allocation

/-! ### Arguments and their destinations -/

/-- A value that is passed: its type and its bytes. -/
structure Argument where
  type : Ty
  byte : Nat → BitVec 8

namespace Argument

variable (x : Argument)

/-- The number of bytes. -/
def size : Nat := x.type.size.toInt.toNat

/-- The location holds its part of the argument, for stack arguments from `base` on. -/
def At (w : World) (base : BitVec 64) (l : Location) : Prop :=
  match l.place, l.window with
  | .stack offset _, _ =>
    ∀ i < x.size, w.memory (base + offset.toBitVec + BitVec.ofNat 64 i) = x.byte i
  | place, none =>
    ∀ i < x.size, byteOf (w.regs (Lowering.argRegister place).pseudo) i = x.byte i
  | place, some win =>
    ∀ i < win.size.toInt.toNat,
      byteOf (w.regs (Lowering.argRegister place).pseudo) i = x.byte (win.offset.toInt.toNat + i)

end Argument

/-- The arguments are where placing them one after another says. -/
def Passed (w : World) (base : BitVec 64) : Allocation → List Argument → Prop
  | _, [] => True
  | a, x :: xs =>
    (∀ l ∈ (a.add x.type).1.locations, x.At w base l) ∧ Passed w base (a.add x.type).2 xs

/-- The operand holds all bytes of the argument. -/
def Operand.Holds (env : Addresses) (w : World) (d : Operand) (x : Argument) : Prop :=
  match d.value with
  | .vreg v => ∀ i < x.size, byteOf (w.regs v.id) i = x.byte i
  | _ => ∃ p, env.of? d = some p ∧ ∀ i < x.size, w.memory (p + BitVec.ofNat 64 i) = x.byte i

namespace Lowering

namespace Places

variable (pl : Places) {env : Addresses} {x : Argument} {d : Operand} {p : BitVec 64}

/-- The bytes that reading arguments depends on. -/
def Source (p : BitVec 64) : Prop :=
  Within pl.area areaBytes p ∨ Within pl.base pl.size p

/-- The operand is in memory, and apart from all that reading arguments depends on. -/
structure InMemory (env : Addresses) (x : Argument) (d : Operand) (p : BitVec 64) : Prop where
  address : env.of? d = some p
  type : d.type = x.type
  list : Apart p x.size pl.list recordSize
  area : Apart p x.size pl.area areaBytes
  base : Apart p x.size pl.base pl.size

theorem InMemory.not_within {pl : Places} (h : pl.InMemory env x d p) {q : BitVec 64} (hq : pl.Source q) :
    ¬ Within p x.size q := by
  rcases hq with hq | hq
  · exact fun hp => h.area q hp hq
  · exact fun hp => h.base q hp hq

/-- The operand can receive the argument: a register with a number up to `n`, or memory. -/
inductive Receives (env : Addresses) (n : Int) (x : Argument) : Operand → Prop
  | register {v : VReg} {offset : Int64} {c : Eightbyte} (hv : v.id ≤ n)
      (hx : x.type.InOneRegister c) : Receives env n x ⟨.vreg v, x.type, offset⟩
  | memory {d : Operand} {p : BitVec 64} (h : pl.InMemory env x d p) : Receives env n x d

end Places

/-- The arguments passed can still be read: those in registers of the files from `first` to `last` in
the save area, those on the stack where they were. -/
structure Sources (pl : Places) (first last : Allocation) (w : World) (m : Memory) : Prop where
  register : ∀ c n, first.taken c ≤ n → n < last.taken c → ∀ j < 8,
    m (pl.area + BitVec.ofNat 64 (savedAt c n) + BitVec.ofNat 64 j)
      = byteOf (w.regs (argRegister (c.seat n)).pseudo) j
  stack : ∀ j < pl.size,
    m (pl.base + BitVec.ofNat 64 j) = w.memory (pl.base + BitVec.ofNat 64 j)

/-- What stays the same while arguments are read. -/
structure Reader (env : Addresses) (list : Operand) (pl : Places) (first last : Allocation) : Prop where
  list : env.of? list = some pl.list
  area : Apart pl.list recordSize pl.area areaBytes
  base : Apart pl.list recordSize pl.base pl.size
  aligned : pl.base.toNat % 16 = 0
  size : pl.size ≤ 2 ^ 63
  last_le : ∀ c, last.taken c ≤ c.capacity

/-- The arguments that an allocation has placed were read. -/
structure Cursor (pl : Places) (first last : Allocation) (w : World) (a : Allocation) (m : Memory) :
    Prop where
  record : Record pl a m
  sources : Sources pl first last w m

/-- The argument is among those that were passed: placing it comes after `first` and before `last`. -/
structure Next (pl : Places) (first last : Allocation) (w : World) (a : Allocation) (x : Argument) :
    Prop where
  inBounds : a.InBounds
  size_nonneg : 0 ≤ x.type.size.toInt
  first_le : ∀ c, first.taken c ≤ a.taken c
  le_last : ∀ c, (a.add x.type).2.taken c ≤ last.taken c
  offset_le : (a.add x.type).2.offset.toInt ≤ pl.size
  fit : a.offset.toInt + room x.type ≤ 2 ^ 63 - 1
  at_location : ∀ l ∈ (a.add x.type).1.locations, x.At w pl.base l

section

variable {env : Addresses} {list d : Operand} {pl : Places} {first last a : Allocation} {w₀ w : World}
  {x : Argument} {s : Lowering} {n : Int}

variable {m m' m₂ : Memory} {p b : BitVec 64} {id base : Int} {t : Ty} {c : Eightbyte} {o : Int64} {i k : Nat}
  {w' w₁ w₂ : World}

theorem Sources.congr (h : Sources pl first last w₀ m) (hlast : ∀ c, last.taken c ≤ c.capacity)
    (hsize : pl.size ≤ 2 ^ 63) (hm : ∀ p, pl.Source p → m' p = m p) : Sources pl first last w₀ m' := by
  refine ⟨fun c k hfirst hk j hj => ?_, fun j hj => ?_⟩
  · rw [hm _ (.inl ?_)]
    · exact h.register c k hfirst hk j hj
    · have hbound := savedAt_lt (Nat.lt_of_lt_of_le hk (hlast c))
      exact (within_add _ hj (by omega)).of_part (by rw [areaBytes]; omega)
  · rw [hm _ (.inr (within_add _ hj (by omega)))]
    exact h.stack j hj

/-- Only the record was written. -/
def OnlyRecord (pl : Places) (m m' : Memory) : Prop := ∀ p, ¬ Within pl.list recordSize p → m' p = m p

theorem onlyRecord_store (m : Memory) (h : i + k ≤ recordSize) (y : BitVec 64) :
    OnlyRecord pl m (m.store (pl.list + BitVec.ofNat 64 i) k y) :=
  fun _ hp => m.store_of_not_within y fun hq => hp (hq.of_part h)

theorem Reader.source_not_record (hr : Reader env list pl first last) (hp : pl.Source p) :
    ¬ Within pl.list recordSize p := by
  rcases hp with hp | hp
  · exact fun hq => hr.area p hq hp
  · exact fun hq => hr.base p hq hp

/-- The sources are still there after something apart from them and then the record were written. -/
theorem Reader.sources (hr : Reader env list pl first last) (h : Sources pl first last w₀ m) (m₁ : Memory)
    (hm : ∀ p, pl.Source p → m₁ p = m p) (hrecord : OnlyRecord pl m₁ m₂) : Sources pl first last w₀ m₂ :=
  h.congr hr.last_le hr.size fun p hp =>
    (hrecord p (hr.source_not_record hp)).trans (hm p hp)

/-- The argument was delivered to its destination, and stays there while only the record is written. -/
structure Delivered (env : Addresses) (pl : Places) (n : Int) (x : Argument) (d : Operand) (m : Memory)
    (w' : World) : Prop where
  record : ∀ p, Within pl.list recordSize p → w'.memory p = m p
  source : ∀ p, pl.Source p → w'.memory p = m p
  holds : ∀ w'', w'.Agrees n w'' → OnlyRecord pl w'.memory w''.memory → d.Holds env w'' x

theorem Places.InMemory.holds (h : pl.InMemory env x d p)
    (hbytes : ∀ i < x.size, w.memory (p + BitVec.ofNat 64 i) = x.byte i) : d.Holds env w x := by
  have hd := h.address
  obtain ⟨value, type, offset⟩ := d
  cases value <;> first | exact ⟨p, hd, hbytes⟩ | exact nomatch hd

/-- A copy of the argument's bytes to a destination in memory. -/
theorem Places.InMemory.delivered {q : BitVec 64} (h : pl.InMemory env x d p)
    (hmem : w'.memory = w.memory.copy p q x.size)
    (hbytes : ∀ i < x.size, w.memory (q + BitVec.ofNat 64 i) = x.byte i) :
    Delivered env pl n x d w.memory w' := by
  have hsize : x.size < 2 ^ 64 := by
    have := x.type.size.toInt_lt
    unfold Argument.size
    omega
  refine ⟨fun b hb => ?_, fun b hb => ?_, fun w'' _ honly => h.holds fun i hi => ?_⟩
  · rw [hmem, copy_of_not_within _ fun hq => h.list b hq hb]
  · rw [hmem, copy_of_not_within _ (h.not_within hb)]
  · rw [honly _ (h.list _ (within_add p hi (by omega))), hmem,
      copy_apply _ _ _ hi (by omega)]
    exact hbytes i hi

/-- A word was put into a destination: no other register has changed. -/
structure Put (env : Addresses) (pl : Places) (n : Int) (x : Argument) (d : Operand) (w w' : World) :
    Prop extends Delivered env pl n x d w.memory w' where
  regs : ∀ v, n < v → w'.regs v = w.regs v

theorem Places.Receives.put (h : pl.Receives env n x d) (hspan : x.type.span ≤ 8)
    (hsize : x.size = x.type.span) {y : BitVec 64} (hy : ∀ i < x.size, byteOf y i = x.byte i)
    (w : World) : ∃ w', w.put? env d y = some w' ∧ Put env pl n x d w w' := by
  cases h with
  | @register v offset _ hv _ =>
    refine ⟨w.set v.id (x.type.fit y), if_neg (Nat.not_lt.mpr hspan), ⟨fun _ _ => rfl, fun _ _ => rfl,
      fun w'' hagrees _ i hi => ?_⟩, fun u hu => w.regs_set_of_ne (by omega) _⟩
    rw [hagrees v.id hv, regs_set_self, Ty.byteOf_fit _ _ (by omega) (by omega)]
    exact hy i hi
  | @memory _ p hmem =>
    have hput : w.put? env d y = some (w.store p x.type.span y) := by
      rw [put?_memory hmem.address (by rw [hmem.type]; exact hspan), hmem.type]
    refine ⟨w.store p x.type.span y, hput, ⟨fun q hq => ?_, fun q hq => ?_, fun w'' _ honly =>
      hmem.holds fun i hi => ?_⟩, fun _ _ => rfl⟩
    · exact w.memory.store_of_not_within y fun hp => hmem.list q (hsize ▸ hp) hq
    · exact w.memory.store_of_not_within y fun hp => hmem.not_within hq (hsize ▸ hp)
    · rw [honly _ (hmem.list _ (within_add p hi (by omega))), memory_store,
        store_apply _ _ _ (by omega) (by omega)]
      exact hy i hi

/-! ### Scalars -/

/-- Where a register is saved: the save area, and how far one has read. -/
def savedAddress (t : Ty) (base : Operand) (read : Option Operand) : Build Operand := do
  let wide ← compute .move .ulong read none
  compute .add (.pointer t) base wide

/-- Read a scalar from the saved registers, or jump to `overflow`. -/
def savedScalar (list dst : Operand) (f : SavedFile) (overflow : Int) : Build Unit := do
  let read ← checkSaved list f (Int64.ofNat 1) overflow
  let base ← compute .move bytePointer (list.shifted saveAreaField bytePointer) none
  let address ← savedAddress dst.type base read
  emit .indirect dst address none
  advanceSaved list f (Int64.ofNat 1) read

/-- Read a scalar from the stack. -/
def stackScalar (list dst : Operand) : Build Unit := do
  let pointer := Ty.pointer dst.type
  let p ← compute .move pointer (list.shifted overflowField pointer) none
  emit .indirect dst p none
  let next ← compute .add pointer p (Operand.const (alignUp dst.type.size 8) .long)
  move (list.shifted overflowField pointer) next

theorem readScalar_eq (list dst : Operand) :
    readScalar list dst = orElse (savedScalar list dst (if dst.type.isSse then .sse else .int))
      (stackScalar list dst) := rfl

section

variable {low : Int} {P : Instr → Prop} (hP : Permissive low P)

include hP

theorem emits_savedAddress (t : Ty) (base : Operand) (read : Option Operand) :
    EmitsFrom low P (savedAddress t base read) fun _ => True :=
  emits_bind (emits_compute_of (hP.ops .move (by decide)) _ _ _) fun _ _ =>
    emits_compute_of (hP.ops .add (by decide)) _ _ _

variable {dst : Operand} (hlist : Writable P list) (hdst : ∀ a b, P (.ir .indirect dst a b))

include hlist hdst

theorem emits_afterCheck (f : SavedFile) (read : Operand) :
    EmitsFrom low P (do
      let base ← compute .move bytePointer (list.shifted saveAreaField bytePointer) none
      let address ← savedAddress dst.type base read
      emit .indirect dst address none
      advanceSaved list f (Int64.ofNat 1) read) fun _ => True :=
  emits_bind (emits_compute_of (hP.ops .move (by decide)) _ _ _) fun _ _ =>
    emits_bind (emits_savedAddress hP _ _ _) fun _ _ => emits_bind (emits_emit (hdst _ _)) fun _ _ =>
      emits_advanceSaved hP hlist _ _ _

theorem emits_savedScalar (f : SavedFile) (overflow : Int) :
    EmitsFrom low P (savedScalar list dst f overflow) fun _ => True :=
  emits_bind (emits_checkSaved hP _ _ _ _) fun _ _ => emits_afterCheck hP hlist hdst _ _

theorem emits_stackScalar : EmitsFrom low P (stackScalar list dst) fun _ => True :=
  emits_bind (emits_compute_of (hP.ops .move (by decide)) _ _ _) fun _ _ =>
    emits_bind (emits_emit (hdst _ _)) fun _ _ =>
      emits_bind (emits_compute_of (hP.ops .add (by decide)) _ _ _) fun _ _ => emits_move hlist _ _ _

theorem emits_readScalar (htarget : ∀ n, P (.target n)) : EmitsFrom low P (readScalar list dst) fun _ => True := by
  rw [readScalar_eq]
  exact emits_orElse hP htarget (emits_savedScalar hP hlist hdst _) (emits_stackScalar hP hlist hdst)

end

/-- What reading an argument leaves: the cursor past it, and the argument in its destination. -/
structure Fetched (env : Addresses) (pl : Places) (first last : Allocation) (w₀ : World)
    (a : Allocation) (x : Argument) (d : Operand) (w' : World) : Prop where
  cursor : Cursor pl first last w₀ (a.add x.type).2 w'.memory
  holds : d.Holds env w' x

/-- The record moves on past an argument that was delivered from the stack. -/
theorem Reader.fetched_overflow (hr : Reader env list pl first last) (hcursor : Cursor pl first last w₀ a m)
    (h : Delivered env pl n x d m w₁) (htaken : ∀ c, (a.add x.type).2.taken c = a.taken c)
    (hagrees : w₁.Agrees n w₂) (hmem : w₂.memory = w₁.memory.store (pl.list + BitVec.ofNat 64 8) 8
      (pl.base + (a.add x.type).2.offset.toBitVec)) : Fetched env pl first last w₀ a x d w₂ := by
  have honly : OnlyRecord pl w₁.memory w₂.memory := by
    rw [hmem]
    exact onlyRecord_store _ (by decide) _
  refine ⟨⟨?_, hr.sources hcursor.sources w₁.memory h.source honly⟩, h.holds w₂ hagrees honly⟩
  rw [hmem]
  exact (hcursor.record.congr w₁.memory h.record).store_overflow htaken

theorem runs_advanceOverflow {k : Int64} (hr : Reader env list pl first last) :
    Runs env (do
      let next ← compute .add (.pointer t) (Operand.vreg id (.pointer t)) (Operand.const k .long)
      move (list.shifted overflowField (.pointer t)) next) s w fun _ _ w' =>
      w.Agrees s.fn.vregCount w' ∧
        w'.memory = w.memory.store (pl.list + BitVec.ofNat 64 8) 8 (w.regs id + k.toBitVec) := by
  refine runs_bind (runs_compute_binary .add (by simp) (value?_vreg id (by simp))
    (value?_const k (by decide)) rfl) ?_
  rintro _ s₁ _ - ⟨rfl, -, -, rfl⟩
  refine (runs_move hr.list _ (by simp) (value?_vreg _ (by simp))).mono ?_
  rintro _ s₂ _ - ⟨-, -, rfl⟩
  refine ⟨((Agrees.refl _ _).set (by omega) _).store _ _ _, ?_⟩
  rw [regs_set_self]
  simp only [Ty.fit_long]
  rfl

theorem runs_savedAddress {read : Int} (hbase : w.regs base = pl.area)
    (hread : w.regs read = BitVec.ofNat 64 (savedAt c k)) (hk : k ≤ c.capacity) (hle : base ≤ s.fn.vregCount) :
    Runs env (savedAddress t (.vreg base bytePointer) (Operand.vreg read .uint)) s w fun r s' w' =>
      r = .vreg (s.fn.vregCount + 2) (.pointer t) ∧ s'.fn.vregCount = s.fn.vregCount + 2 ∧
        w'.memory = w.memory ∧ w.Agrees s.fn.vregCount w' ∧
        w'.regs (s.fn.vregCount + 2) = pl.area + BitVec.ofNat 64 (savedAt c k) := by
  have hsmall := savedAt_le hk
  refine runs_bind (runs_compute_move (by decide) (value?_vreg read (by decide))) ?_
  rintro _ s₁ _ - ⟨rfl, hfn₁, -, rfl⟩
  have hcount₁ : s₁.fn.vregCount = s.fn.vregCount + 1 := by rw [hfn₁]
  have htwo : s₁.fn.vregCount + 1 = s.fn.vregCount + 2 := by omega
  refine (runs_compute_binary .add (by simp) (value?_vreg base (by simp))
    (value?_vreg _ (by decide)) rfl).mono ?_
  rintro _ s₂ _ - ⟨rfl, hfn₂, -, rfl⟩
  rw [htwo]
  refine ⟨rfl, by rw [hfn₂]; exact htwo, rfl,
    ((Agrees.refl _ _).set (by omega) _).set (by omega) _, ?_⟩
  rw [regs_set_self, regs_set_self, regs_set_of_ne _ (by omega), hbase, hread,
    Ty.fit_uint_ofNat (by omega)]
  rfl

theorem Places.Receives.type_eq (hd : pl.Receives env n x d) : d.type = x.type := by
  cases hd with
  | register => rfl
  | memory h => exact h.type

/-- A load through a pointer puts the bytes of an argument into its destination. -/
theorem runs_fetch (hd : pl.Receives env n x d) (hspan : x.type.span ≤ 8) (hsize : x.size = x.type.span)
    (hp : w.regs id = p) (hbytes : ∀ i < x.size, w.memory (p + BitVec.ofNat 64 i) = x.byte i) :
    Runs env (emit .indirect d (Operand.vreg id (.pointer t)) none) s w fun _ s' w' =>
      s'.fn = s.fn ∧ Put env pl n x d w w' := by
  have hload : ∀ i < x.size, byteOf (w.memory.load p x.type.span) i = x.byte i := by
    intro i hi
    rw [byteOf_load _ _ hspan (by omega)]
    exact hbytes i hi
  obtain ⟨w', hput, put⟩ := hd.put hspan hsize hload w
  refine runs_emit (by decide) (by decide) ?_ fun s' hfn _ => ⟨hfn, put⟩
  rw [Instr.effect?_indirect (value?_vreg _ (by simp)), hp, hd.type_eq]
  exact hput

/-- The register of an argument is saved, and its bytes are those of the argument. -/
theorem runs_savedScalar {overflow : Int} (hr : Reader env list pl first last)
    (hcursor : Cursor pl first last w₀ a w.memory) (hnext : Next pl first last w₀ a x)
    (hd : pl.Receives env n x d) (hn : n ≤ s.fn.vregCount) (hspan : x.type.span ≤ 8)
    (hsize : x.size = x.type.span) (hfree : a.taken c < c.capacity)
    (hlocations : (a.add x.type).1.locations = [⟨c.seat (a.taken c), none⟩])
    (htaken : ∀ e, (a.add x.type).2.taken e = a.taken e + e.inFile [c])
    (hoffset : (a.add x.type).2.offset = a.offset) :
    Runs env (savedScalar list d (fileOf c) overflow) s w fun _ _ w' =>
      Fetched env pl first last w₀ a x d w' := by
  have hself : (a.add x.type).2.taken c = a.taken c + 1 := by
    rw [htaken, Eightbyte.inFile_singleton_self]
  -- how far one has read, and the address of the register there
  refine runs_bind (runs_checkSaved hr.list hcursor.record (.inl rfl) hfree) ?_
  rintro _ s₁ w₁ hadv₁ ⟨hmem₁, hregs₁, id, hid, hid', rfl, hread⟩
  have hbase : w₁.value? env (list.shifted saveAreaField bytePointer) = some pl.area := by
    rw [value?_shifted hr.list _ (by simp), hmem₁]
    exact congrArg some hcursor.record.save
  refine runs_bind (runs_compute_move (by simp) hbase) ?_
  rintro _ s₂ _ hadv₂ ⟨rfl, hfn₂, -, rfl⟩
  have hcount₂ : s₂.fn.vregCount = s₁.fn.vregCount + 1 := by rw [hfn₂]
  have hread₂ : (w₁.set (s₁.fn.vregCount + 1) pl.area).regs id
      = BitVec.ofNat 64 (savedAt c (a.taken c)) := by
    rw [regs_set_of_ne _ (by omega), hread]
  refine runs_bind (runs_savedAddress (regs_set_self _ _ _) hread₂ (Nat.le_of_lt hfree)
    (Int.le_of_eq hcount₂.symm)) ?_
  rintro _ s₃ w₃ hadv₃ ⟨rfl, hcount₃, hmem₃, hagrees₃, haddress⟩
  -- the bytes found there
  have hmem : w₃.memory = w.memory := hmem₃.trans hmem₁
  have hbytes : ∀ i < x.size, w₃.memory (pl.area + BitVec.ofNat 64 (savedAt c (a.taken c))
      + BitVec.ofNat 64 i) = x.byte i := by
    intro i hi
    have hat := hnext.at_location _ (by rw [hlocations]; exact List.mem_singleton.mpr rfl)
    have hlast := hnext.le_last c
    rw [hmem, hcursor.sources.register c _ (hnext.first_le c) (by omega) i (by omega)]
    cases c <;> exact hat i hi
  refine runs_bind (runs_fetch hd hspan hsize haddress hbytes) fun _ s₄ w₄ _ ⟨hfn₄, put⟩ => ?_
  -- the record moves on
  have hread₄ : w₄.regs id = BitVec.ofNat 64 (savedAt c (a.taken c)) := by
    rw [put.regs id (by omega), hagrees₃ id (by omega)]
    exact hread₂
  refine (runs_advanceSaved hr.list (.inl rfl) hread₄ hfree).mono ?_
  rintro _ s₅ w₅ - ⟨hmem₅, hagrees₅, -⟩
  have honly : OnlyRecord pl w₄.memory w₅.memory := by
    rw [hmem₅]
    exact onlyRecord_store _ (by cases c <;> decide) _
  refine ⟨⟨?_, hr.sources hcursor.sources w₄.memory (fun p hp => ?_) honly⟩, ?_⟩
  · have hrecord := hcursor.record.congr w₄.memory fun p hp => by rw [put.record p hp, hmem]
    have hfiles : ∀ e, fieldAt e ≠ fieldAt c → (a.add x.type).2.taken e = a.taken e := by
      intro e he
      rw [htaken e]
      revert he
      cases c <;> cases e <;> first | (intro _; rfl) | (intro h; exact absurd rfl h)
    have hstored := hrecord.store_read c hoffset (by omega) hfiles
    rw [hself] at hstored
    rw [hmem₅]
    exact hstored
  · rw [put.source p hp, hmem]
  · exact put.holds w₅ (hagrees₅.mono (by rw [hfn₄]; omega)) honly

/-- The argument is on the stack. -/
structure OnStack (a : Allocation) (x : Argument) : Prop where
  taken : ∀ c, (a.add x.type).2.taken c = a.taken c
  locations : (a.add x.type).1.locations = [⟨.stack (a.start x.type) (a.start x.type - a.offset), none⟩]
  offset : (a.add x.type).2.offset = a.start x.type + alignUp x.type.size 8

namespace OnStack

/-- An argument on the stack is inside the stack arguments. -/
theorem bounds (h : OnStack a x) (hnext : Next pl first last w₀ a x) :
    0 ≤ (a.start x.type).toInt ∧ (a.start x.type).toInt.toNat + x.size ≤ pl.size := by
  have hnonneg := hnext.inBounds.nonneg
  have hfit := hnext.fit
  have hle := hnext.offset_le
  have hsize := hnext.size_nonneg
  unfold room at hfit
  obtain ⟨hge, hbound, -⟩ := start_bounds hnext.inBounds (by omega) x.type
  have hround := toInt_alignUp_eight hsize (by omega)
  rw [h.offset, toInt_add_of_nonneg (by omega) (by omega) (by omega)] at hle
  unfold Argument.size
  omega

theorem toBitVec_start (h : OnStack a x) (hnext : Next pl first last w₀ a x) :
    (a.start x.type).toBitVec = BitVec.ofNat 64 (a.start x.type).toInt.toNat :=
  toBitVec_of_nonneg (h.bounds hnext).1

/-- Its bytes, where the pointer to the stack arguments is after it was aligned. -/
theorem bytes (h : OnStack a x) (hnext : Next pl first last w₀ a x) (hsources : Sources pl first last w₀ m) :
    ∀ i < x.size, m (pl.base + (a.start x.type).toBitVec + BitVec.ofNat 64 i) = x.byte i := by
  intro i hi
  have hbound := (h.bounds hnext).2
  have hat := hnext.at_location _ (by rw [h.locations]; exact List.mem_singleton.mpr rfl)
  have hsum : pl.base + (a.start x.type).toBitVec + BitVec.ofNat 64 i
      = pl.base + BitVec.ofNat 64 ((a.start x.type).toInt.toNat + i) := by
    rw [h.toBitVec_start hnext, BitVec.add_assoc, ← BitVec.ofNat_add]
  rw [hsum, hsources.stack _ (by omega), ← hsum]
  exact hat i hi

/-- A destination in memory is apart from it. -/
theorem apart (h : OnStack a x) (hnext : Next pl first last w₀ a x) (hd : pl.InMemory env x d p) :
    Apart p x.size (pl.base + (a.start x.type).toBitVec) x.size := by
  have happart : Apart (p + BitVec.ofNat 64 0) x.size
      (pl.base + BitVec.ofNat 64 (a.start x.type).toInt.toNat) x.size :=
    hd.base.parts (by omega) (h.bounds hnext).2
  rw [← h.toBitVec_start hnext] at happart
  simpa using happart

end OnStack

theorem runs_stackScalar (hr : Reader env list pl first last)
    (hcursor : Cursor pl first last w₀ a w.memory) (hnext : Next pl first last w₀ a x)
    (hd : pl.Receives env n x d) (hn : n ≤ s.fn.vregCount) (hspan : x.type.span ≤ 8)
    (hsize : x.size = x.type.span) (halign : x.type.align ≤ 8) (hstack : OnStack a x) :
    Runs env (stackScalar list d) s w fun _ _ w' => Fetched env pl first last w₀ a x d w' := by
  have hstart : a.start x.type = a.offset := by
    have hfit := hnext.fit
    unfold room at hfit
    exact start_of_align_le hnext.inBounds (by omega) halign
  have hpointer : w.value? env (list.shifted overflowField (.pointer d.type))
      = some (pl.base + a.offset.toBitVec) := by
    rw [value?_shifted hr.list _ (by simp)]
    exact congrArg some hcursor.record.overflow
  refine runs_bind (runs_compute_move (by simp) hpointer) ?_
  rintro _ s₁ _ hadv₁ ⟨rfl, hfn₁, -, rfl⟩
  rw [Ty.fit_pointer]
  have hbytes := hstack.bytes hnext hcursor.sources
  rw [hstart] at hbytes
  refine runs_bind (runs_fetch hd hspan hsize (regs_set_self _ _ _) hbytes)
    fun _ s₂ w₂ _ ⟨hfn₂, put⟩ => ?_
  have hcount₂ : s₂.fn.vregCount = s.fn.vregCount + 1 := by rw [hfn₂, hfn₁]
  refine (runs_advanceOverflow hr).mono fun _ _ w₃ _ ⟨hagrees, hmem⟩ => ?_
  refine hr.fetched_overflow hcursor put.toDelivered hstack.taken (hagrees.mono (by omega)) ?_
  rw [hmem, put.regs _ (by omega), regs_set_self, hstack.offset, hstart, hd.type_eq,
    Int64.toBitVec_add, BitVec.add_assoc]

theorem file_eq (h : t.InOneRegister c) :
    (if t.isSse then SavedFile.sse else SavedFile.int) = fileOf c := by
  rw [h.isSse]
  cases c <;> rfl

/-- **Reading a scalar gives the argument passed next.** -/
theorem runs_readScalar (hs : s.Numbered 2) (hr : Reader env list pl first last)
    (hcursor : Cursor pl first last w₀ a w.memory) (hnext : Next pl first last w₀ a x)
    (hd : pl.Receives env n x d) (hn : n ≤ s.fn.vregCount) (hx : x.type.InOneRegister c) :
    RunsWith env 2 (readScalar list d) s w fun _ _ w' => Fetched env pl first last w₀ a x d w' := by
  have hbounds := hnext.inBounds
  have hsaved : ∀ n, Appends (savedScalar list d (fileOf c) n) := fun _ => appends_of fun _ =>
    emits_savedScalar (permissive_unlabelled _) (writable_unlabelled _) (fun _ _ => rfl) _ _
  have hstack : Appends (stackScalar list d) := appends_of fun _ =>
    emits_stackScalar (permissive_unlabelled _) (writable_unlabelled _) fun _ _ => rfl
  rw [readScalar_eq, hd.type_eq, file_eq hx]
  rcases add_cases hbounds x.type with
    ⟨cs, hwanted, hfits, hlocations, htaken, hoffset⟩ | ⟨hfull, htaken, hplace⟩
  · obtain rfl : [c] = cs := Option.some.inj (hx.wanted.symm.trans hwanted)
    have hregisters : a.registers x.type [c] = [⟨c.seat (a.taken c), none⟩] := by
      rw [registers, hx.notAggregate]
      rfl
    rw [hregisters] at hlocations
    exact runs_orElse_main hs hsaved hstack
      (runs_savedScalar hr hcursor hnext hd hn hx.span_le hx.size
        ((fits_singleton hbounds).mp hfits) hlocations htaken hoffset)
  · have hfree : ¬ a.taken c + 1 ≤ c.capacity := fun h =>
      hfull _ hx.wanted ((fits_singleton hbounds).mpr h)
    rcases hplace with ⟨hagg, -⟩ | ⟨-, hlocations, hoffset⟩
    · rw [hx.notAggregate] at hagg
      cases hagg
    · refine runs_orElse_other hs hsaved hstack
        (escapes_bind_left (escapes_checkSaved hr.list hcursor.record (hbounds.taken_le c) (.inl rfl) hfree)
          fun _ => appends_of fun _ =>
            emits_afterCheck (permissive_unlabelled _) (writable_unlabelled _) (fun _ _ => rfl) _ _)
        fun s' w' hcount hmem => ?_
      exact runs_stackScalar hr (by rw [hmem]; exact hcursor) hnext hd (Int.le_trans hn hcount)
          hx.span_le hx.size hx.align_le ⟨htaken, hlocations, hoffset⟩

/-! ### Long doubles -/

/-- Rounding a pointer up rounds the offset up. -/
theorem and_mask_add (hb : b.toNat % 16 = 0) (ho : 0 ≤ o.toInt) (hfit : o.toInt + 16 ≤ 2 ^ 63) :
    (b + o.toBitVec + BitVec.ofNat 64 15) &&& (-16 : Int64).toBitVec = b + (alignUp o 16).toBitVec := by
  have hmask : (-16 : Int64).toBitVec = ~~~(BitVec.ofNat 64 (2 ^ 4 - 1)) := by decide
  have hround := toInt_alignUp_sixteen ho hfit
  apply BitVec.eq_of_toNat_eq
  rw [hmask, toNat_and_not_mask, BitVec.toNat_add, BitVec.toNat_add, BitVec.toNat_add,
    BitVec.toNat_ofNat, toNat_toBitVec_of_nonneg ho, toNat_toBitVec_of_nonneg (by omega)]
  omega

theorem emits_alignPointer {low : Int} {P : Instr → Prop} (hP : Permissive low P) (t : Ty) (p : Operand) :
    EmitsFrom low P (alignPointer t p) fun _ => True :=
  emits_bind (emits_compute_of (hP.ops .add (by decide)) _ _ _) fun _ _ =>
    emits_compute_of (hP.ops .band (by decide)) _ _ _

theorem runs_alignPointer (hr : Reader env list pl first last) (ho : 0 ≤ o.toInt)
    (hfit : o.toInt + 16 ≤ 2 ^ 63) (hid : w.regs id = pl.base + o.toBitVec) :
    Runs env (alignPointer (.pointer t) (.vreg id (.pointer t))) s w fun r s' w' =>
      ∃ id', s.fn.vregCount < id' ∧ id' ≤ s'.fn.vregCount ∧ r = .vreg id' (.pointer t) ∧
        w'.regs id' = pl.base + (alignUp o 16).toBitVec ∧ w'.memory = w.memory ∧
        w.Agrees s.fn.vregCount w' := by
  refine runs_bind (runs_compute_binary .add (by simp) (value?_vreg id (by simp))
    (value?_const 15 (by decide)) rfl) ?_
  rintro _ s₁ _ hadv₁ ⟨rfl, -, -, rfl⟩
  refine (runs_compute_binary .band (by simp) (value?_vreg _ (by simp))
    (value?_const (-16) (by decide)) rfl).mono ?_
  rintro _ s₂ _ - ⟨rfl, hfn₂, -, rfl⟩
  have hcount₂ : s₂.fn.vregCount = s₁.fn.vregCount + 1 := by rw [hfn₂]
  have hvregs := hadv₁.vregs
  refine ⟨_, by omega, Int.le_of_eq hcount₂.symm, rfl, ?_, rfl,
    ((Agrees.refl _ _).set (by omega) _).set (by omega) _⟩
  rw [regs_set_self, regs_set_self, hid, ← and_mask_add hr.aligned ho hfit]
  rfl

theorem runs_overflow (hr : Reader env list pl first last) (hcursor : Cursor pl first last w₀ a w.memory) :
    Runs env (compute .move (.pointer t) (list.shifted overflowField (.pointer t)) none) s w
      (Computed s w (.pointer t) (pl.base + a.offset.toBitVec)) := by
  refine runs_compute_move (by simp) ?_
  rw [value?_shifted hr.list _ (by simp)]
  exact congrArg some hcursor.record.overflow

/-- Copy a word from where a pointer points. -/
def copyWord (dst p : Operand) (o : Int64) : Build Unit := do
  let v ← compute .indirect .ulong p none
  move (dst.shifted o .ulong) v

theorem runs_copyWord (hd : env.of? d = some p) (o : Int64) :
    Runs env (copyWord d (.vreg id (.pointer t)) o) s w fun _ _ w' =>
      w.Agrees s.fn.vregCount w' ∧
        w'.memory = w.memory.store (p + o.toBitVec) 8 (w.memory.load (w.regs id) 8) := by
  refine runs_bind (runs_compute_indirect (by decide) (value?_vreg id (by simp))) ?_
  rintro _ s₁ _ - ⟨rfl, -, -, rfl⟩
  refine (runs_move hd o (by decide) (value?_vreg _ (by decide))).mono ?_
  rintro _ s₂ _ - ⟨-, -, rfl⟩
  refine ⟨((Agrees.refl _ _).set (by omega) _).store _ _ _, ?_⟩
  rw [regs_set_self]
  rfl

theorem readHalves_eq (list dst : Operand) :
    readHalves list dst = (do
      let word := Ty.pointer .ulong
      let p ← compute .move word (list.shifted overflowField word) none
      let aligned ← alignPointer word p
      copyWord dst aligned 0
      let highAddress ← compute .add word aligned (Operand.const 8 .long)
      copyWord dst highAddress 8
      let next ← compute .add word aligned (Operand.const 16 .long)
      move (list.shifted overflowField word) next) := rfl

theorem onStack_longDouble (ha : a.InBounds) (hx : x.type = .longDouble) : OnStack a x := by
  rcases add_cases ha x.type with ⟨cs, hwanted, -⟩ | ⟨-, htaken, hplace⟩
  · rw [hx] at hwanted
    exact nomatch hwanted
  · rcases hplace with ⟨hagg, -⟩ | ⟨-, hlocations, hoffset⟩
    · rw [hx] at hagg
      exact nomatch hagg
    · exact ⟨htaken, hlocations, hoffset⟩

/-- **Reading a long double gives the argument passed next.** -/
theorem runs_readHalves (hr : Reader env list pl first last) (hcursor : Cursor pl first last w₀ a w.memory)
    (hnext : Next pl first last w₀ a x) (hd : pl.InMemory env x d p) (hx : x.type = .longDouble) :
    Runs env (readHalves list d) s w fun _ _ w' => Fetched env pl first last w₀ a x d w' := by
  have hbounds := hnext.inBounds
  have hsize : x.size = 16 := by rw [Argument.size, hx]; rfl
  have hfit : a.offset.toInt + 16 ≤ 2 ^ 63 := by
    have := hnext.fit
    unfold room at this
    omega
  have hstack := onStack_longDouble hbounds hx
  have hstart : a.start x.type = alignUp a.offset 16 := by rw [hx]; rfl
  have happart := hstack.apart hnext hd
  rw [hsize] at happart
  rw [readHalves_eq]
  -- the aligned pointer
  refine runs_bind (runs_overflow hr hcursor) ?_
  rintro _ s₁ _ hadv₁ ⟨rfl, hfn₁, -, rfl⟩
  refine runs_bind (runs_alignPointer hr hbounds.nonneg hfit (regs_set_self _ _ _)) ?_
  rintro _ s₂ w₂ hadv₂ ⟨id, hid, hid', rfl, haddress, hmem₂, -⟩
  rw [← hstart] at haddress
  -- the low half
  refine runs_bind (runs_copyWord hd.address 0) ?_
  rintro _ s₃ w₃ hadv₃ ⟨hagrees₃, hmem₃⟩
  have hvregs₃ := hadv₃.vregs
  have hlow : w₃.memory = w.memory.copy p (pl.base + (a.start x.type).toBitVec) 8 := by
    have hcopy := w.memory.store_load_copy (k := 0) happart (by decide) (b := 8) (by decide) (by decide)
    rw [hmem₃, hmem₂, haddress]
    simpa using hcopy
  -- the high half
  refine runs_bind (runs_compute_binary .add (by simp) (value?_vreg id (by simp))
    (value?_const 8 (by decide)) rfl) ?_
  rintro _ s₄ _ hadv₄ ⟨rfl, hfn₄, -, rfl⟩
  refine runs_bind (runs_copyWord hd.address 8) ?_
  rintro _ s₅ w₅ hadv₅ ⟨hagrees₅, hmem₅⟩
  have hhigh : w₅.memory = w.memory.copy p (pl.base + (a.start x.type).toBitVec) x.size := by
    have hcopy := w.memory.store_load_copy (k := 8) happart (by decide) (b := 8) (by decide) (by decide)
    rw [hmem₅, memory_set, regs_set_self, hagrees₃ id hid', haddress, hlow, hsize]
    exact hcopy
  -- the record moves on
  refine (runs_advanceOverflow hr).mono fun _ _ w₆ _ h₆ => ?_
  obtain ⟨hagrees₆, hmem₆⟩ := h₆
  have hcount : s₄.fn.vregCount = s₃.fn.vregCount + 1 := by rw [hfn₄]
  refine hr.fetched_overflow hcursor (hd.delivered hhigh (hstack.bytes hnext hcursor.sources))
    hstack.taken hagrees₆ ?_
  rw [hmem₆, hagrees₅ id (by omega), regs_set_of_ne _ (by omega), hagrees₃ id hid', haddress,
    hstack.offset, Int64.toBitVec_add, hx, ← BitVec.add_assoc]
  rfl

end

end Lowering

end Codegen
