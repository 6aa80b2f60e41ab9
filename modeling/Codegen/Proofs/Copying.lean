/-
Copying aggregates, executed.

The chunks of a size follow one another from its first byte to its last, so copying them one by
one through a pointer copies the whole run and touches nothing else.
-/
import Codegen.Proofs.Building

namespace Codegen

open Chunk World

/-! ### Chunks -/

namespace Chunk

/-- The number of bytes in a chunk. -/
def bytes (c : Chunk) : Nat := c.width.bits / 8

@[simp] theorem bytes_w8 (p : Nat) : bytes ⟨p, .w8⟩ = 1 := by simp [bytes, IntWidth.bits]
@[simp] theorem bytes_w16 (p : Nat) : bytes ⟨p, .w16⟩ = 2 := by simp [bytes, IntWidth.bits]
@[simp] theorem bytes_w32 (p : Nat) : bytes ⟨p, .w32⟩ = 4 := by simp [bytes, IntWidth.bits]
@[simp] theorem bytes_w64 (p : Nat) : bytes ⟨p, .w64⟩ = 8 := by simp [bytes, IntWidth.bits]

theorem bytes_le (c : Chunk) : c.bytes ≤ 8 := by
  unfold bytes
  have := c.width.bits_le
  omega

@[simp] theorem span_type (c : Chunk) : c.type.span = c.bytes := Ty.span_int _ _

theorem toBitVec_offset (c : Chunk) : c.offset.toBitVec = BitVec.ofNat 64 c.pos := rfl

/-- Of a word that is stored in a chunk, only the part that a chunk holds counts. -/
theorem store_fit (m : Memory) (a : BitVec 64) (c : Chunk) (x : BitVec 64) :
    m.store a c.bytes (c.type.fit x) = m.store a c.bytes x := by
  have hle := c.bytes_le
  refine m.store_eq (fun i hi h64 => ?_) fun q hq => (m.store_of_not_within x hq).symm
  rw [m.store_apply a x hi h64, Ty.byteOf_fit _ _ (by rwa [span_type]) (by omega)]

/-- Chunks follow one another from one byte to another. -/
def Consecutive : Nat → List Chunk → Nat → Prop
  | start, [], stop => start = stop
  | start, c :: rest, stop => c.pos = start ∧ Consecutive (start + c.bytes) rest stop

variable {a b b' : Nat} {l l' : List Chunk} {c : Chunk}

theorem consecutive_singleton :
    Consecutive a [c] b ↔ c.pos = a ∧ a + c.bytes = b := Iff.rfl

theorem consecutive_append : Consecutive a (l ++ l') b ↔ ∃ k, Consecutive a l k ∧ Consecutive k l' b := by
  induction l generalizing a with
  | nil => simp [Consecutive]
  | cons c rest ih => simp [Consecutive, ih, and_assoc]

theorem Consecutive.le (h : Consecutive a l b) : a ≤ b := by
  induction l generalizing a with
  | nil => exact Nat.le_of_eq h
  | cons c rest ih => exact Nat.le_trans (Nat.le_add_right _ _) (ih h.2)

theorem Consecutive.unique (h : Consecutive a l b) (h' : Consecutive a l b') : b = b' := by
  induction l generalizing a with
  | nil => exact Eq.trans (Eq.symm h) h'
  | cons c rest ih => exact ih h.2 h'.2

theorem Consecutive.end_le (h : Consecutive a l b) (hc : c ∈ l) : c.pos + c.bytes ≤ b := by
  obtain ⟨before, after, rfl⟩ := List.append_of_mem hc
  obtain ⟨k, -, rfl, hrest⟩ := consecutive_append.mp h
  exact hrest.le

theorem consecutive_planFrom (pos n : Nat) : Consecutive pos (planFrom pos n) (pos + n) := by
  fun_induction planFrom pos n with
  | case1 pos n ih => exact ⟨rfl, by rw [bytes_w64]; convert ih using 1; omega⟩
  | case2 pos n hn ih => exact ⟨rfl, by rw [bytes_w32]; convert ih using 1; omega⟩
  | case3 pos n hn hn' ih => exact ⟨rfl, by rw [bytes_w16]; convert ih using 1; omega⟩
  | case4 pos n hn hn' hn'' ih => exact ⟨rfl, by rw [bytes_w8]; convert ih using 1; omega⟩
  | case5 pos => rfl

/-- **The chunks of a run cover it without a gap.** -/
theorem consecutive_plan (n : Nat) : Consecutive 0 (plan n) n := by
  have h := consecutive_planFrom 0 n
  rwa [Nat.zero_add] at h

end Chunk

namespace Memory

variable (m : Memory) {d p : BitVec 64} {k b : Nat}

/-- Copying a few bytes more, through a word. -/
theorem store_load_copy {n : Nat} (happart : Apart d n p n) (hn : n ≤ 2 ^ 64) (hk : k + b ≤ n) (hb : b ≤ 8) :
    (m.copy d p k).store (d + BitVec.ofNat 64 k) b
      ((m.copy d p k).load (p + BitVec.ofNat 64 k) b) = m.copy d p (k + b) := by
  refine store_eq _ (fun i hi _ => ?_) fun q hq => ?_
  · have hsource : ¬ Within d k (p + BitVec.ofNat 64 (k + i)) :=
      fun h => happart _ (h.mono (by omega)) (within_add p (by omega) (by omega))
    rw [byteOf_load _ _ hb hi, add_ofNat_add, copy_of_not_within _ hsource, add_ofNat_add,
      copy_apply _ _ _ (by omega) (by omega)]
  · -- copied before, and not touched now
    by_cases hk : Within d k q
    · obtain ⟨i, hi, h64, rfl⟩ := hk.exists_add
      rw [copy_apply _ _ _ hi h64, copy_apply _ _ _ (by omega) h64]
    · rw [copy_of_not_within _ hk, copy_of_not_within _ fun h => h.split.elim hk hq]

end Memory

namespace Lowering

variable {env : Addresses} {s : Lowering} {w : World} {dst : Operand}

/-! ### Through a pointer -/

section

variable {low : Int} {P : Instr → Prop} (hP : Permissive low P)

include hP

theorem emits_chunkPointer (ptr : Operand) (c : Chunk) :
    EmitsFrom low P (chunkPointer ptr c) fun _ => True := by
  unfold chunkPointer
  split
  · exact emits_pure trivial
  · exact emits_compute_of (hP.ops .add (by decide)) _ _ _

theorem emits_copyToPointer (ptr src : Operand) (size : Int64) :
    EmitsFrom low P (copyToPointer ptr src size) fun _ => True :=
  emits_forM fun c _ => emits_bind (emits_compute_of (hP.ops .move (by decide)) _ _ _) fun _ _ =>
    emits_bind (emits_chunkPointer hP ptr c) fun _ _ => emits_emit (hP.through _ _ _)

theorem emits_copyFromPointer (hdst : Writable P dst) (ptr : Operand) (size : Int64) :
    EmitsFrom low P (copyFromPointer dst ptr size) fun _ => True :=
  emits_forM fun c _ => emits_bind (emits_chunkPointer hP ptr c) fun _ _ =>
    emits_bind (emits_compute_of (hP.ops .indirect (by decide)) _ _ _) fun _ _ => emits_move hdst _ _ _

end

variable {id u low : Int} {t : Ty} {d p : BitVec 64} {mem : Operand} {w' : World} {P : Instr → Prop} {size : Int64}

/-- The registers once there is a pointer to a chunk, and how many are taken then. -/
def pointed (n id : Int) (c : Chunk) (regs : Int → BitVec 64) : Int → BitVec 64 :=
  if c.pos = 0 then regs else Function.update regs (n + 1) (regs id + BitVec.ofNat 64 c.pos)

def pointedCount (n : Int) (c : Chunk) : Int := if c.pos = 0 then n else n + 1

theorem pointed_of_le {n : Int}
    (c : Chunk) (regs : Int → BitVec 64) (hu : u ≤ n) : pointed n id c regs u = regs u := by
  unfold pointed
  split
  · rfl
  · exact Function.update_of_ne (by omega) _ _

theorem le_pointedCount (n : Int) (c : Chunk) : n ≤ pointedCount n c := by
  unfold pointedCount
  split <;> omega

theorem runs_chunkPointer (c : Chunk) :
    Runs env (chunkPointer (.vreg id (.pointer t)) c) s w fun r s' w' =>
      s'.fn.vregCount = pointedCount s.fn.vregCount c ∧ w' = ⟨pointed s.fn.vregCount id c w.regs, w.memory⟩ ∧
        w'.value? env r = some (w.regs id + BitVec.ofNat 64 c.pos) := by
  unfold chunkPointer pointed pointedCount
  split
  · next h0 => exact runs_pure ⟨rfl, rfl, by simp [Operand.withType, value?, Operand.vreg, h0]⟩
  · refine (runs_compute_binary .add (by simp) (value?_vreg id (by simp))
      (value?_const c.offset (by decide)) rfl).mono ?_
    rintro _ s' _ - ⟨rfl, hfn, -, rfl⟩
    have hsum : (Ty.pointer c.type).fit
        (IrOp.word .add ((Ty.pointer t).fit (w.regs id)) (Ty.long.fit c.offset.toBitVec))
        = w.regs id + BitVec.ofNat 64 c.pos := by simp [IrOp.word, toBitVec_offset]
    rw [value?_vreg _ (by simp), regs_set_self, hsum, hfn]
    exact ⟨rfl, rfl, by simp⟩

/-- One chunk was copied from `p` to `d`, and the registers after it are made of those before it and of the
chunk alone. -/
structure CopiedChunk (d p : BitVec 64) (c : Chunk) (g : (Int → BitVec 64) → BitVec 64 → Int → BitVec 64)
    (w w' : World) : Prop where
  memory : w'.memory = w.memory.store (d + BitVec.ofNat 64 c.pos) c.bytes
    (w.memory.load (p + BitVec.ofNat 64 c.pos) c.bytes)
  regs : w'.regs = g w.regs (w.memory.load (p + BitVec.ofNat 64 c.pos) c.bytes)

/-- From the state the step copies one chunk, with fresh registers, in any world. -/
def CopiesChunk (env : Addresses) (dst src : World → BitVec 64) (c : Chunk) (b : Build Unit) (s : Lowering) : Prop :=
  ∃ g, (∀ regs x, ∀ u ≤ s.fn.vregCount, g regs x u = regs u) ∧
    ∀ w, Runs env b s w fun _ _ => CopiedChunk (dst w) (src w) c g w

theorem copies_chunkFromPointer (hdst : env.of? dst = some d) (c : Chunk) (s : Lowering) :
    CopiesChunk env (fun _ => d) (·.regs id) c (chunkFromPointer dst (.vreg id (.pointer t)) c) s := by
  have hspan : c.type.span ≤ 8 := by rw [span_type]; exact c.bytes_le
  have hcount := le_pointedCount s.fn.vregCount c
  refine ⟨fun regs x => Function.update (pointed s.fn.vregCount id c regs) (pointedCount s.fn.vregCount c + 1)
    (c.type.fit x), fun regs x u hu => ?_, fun w => ?_⟩
  · exact (Function.update_of_ne (by omega) _ _).trans (pointed_of_le c regs hu)
  · refine runs_bind (runs_chunkPointer c) ?_
    rintro r s₁ _ - ⟨hcount₁, rfl, hr⟩
    refine runs_bind (runs_compute_indirect hspan hr) ?_
    rintro _ s₂ _ - ⟨rfl, -, -, rfl⟩
    refine (runs_move hdst c.offset hspan (value?_vreg _ hspan)).mono ?_
    rintro _ s₃ _ - ⟨-, -, rfl⟩
    refine ⟨?_, by rw [regs_store, span_type, hcount₁]; rfl⟩
    rw [memory_store, memory_set, regs_set_self, toBitVec_offset, span_type,
      store_fit, store_fit]

theorem copies_chunkToPointer {src : Operand} (hsrc : env.of? src = some p) (c : Chunk) (hid : id ≤ s.fn.vregCount) :
    CopiesChunk env (·.regs id) (fun _ => p) c (chunkToPointer (.vreg id (.pointer t)) src c) s := by
  have hspan : c.type.span ≤ 8 := by rw [span_type]; exact c.bytes_le
  refine ⟨fun regs x => pointed (s.fn.vregCount + 1) id c (Function.update regs (s.fn.vregCount + 1)
    (c.type.fit (c.type.fit x))), fun regs x u hu => ?_, fun w => ?_⟩
  · exact (pointed_of_le c _ (by omega)).trans (Function.update_of_ne (by omega) _ _)
  · refine runs_bind (runs_compute_move hspan (value?_shifted hsrc c.offset hspan)) ?_
    rintro _ s₁ _ - ⟨rfl, hfn, -, rfl⟩
    refine runs_bind (runs_chunkPointer c) ?_
    rintro r s₂ _ - ⟨-, rfl, hr⟩
    have hcount : s₁.fn.vregCount = s.fn.vregCount + 1 := by rw [hfn]
    rw [regs_set_of_ne _ (by omega)] at hr
    rw [hcount, toBitVec_offset, span_type] at hr ⊢
    refine runs_emit (by decide) (by decide) (Instr.effect?_moveToPtr hr (value?_vreg _ hspan)) fun _ _ _ => ?_
    refine ⟨?_, rfl⟩
    change w.memory.store (w.regs id + BitVec.ofNat 64 c.pos) c.type.span (c.type.fit (pointed _ _ _ _ _)) = _
    rw [span_type, pointed_of_le c _ (Int.le_refl _), regs_set_self, store_fit, store_fit,
      store_fit]

/-- Steps that copy the chunks of a run one by one copy the run, and touch nothing else.  Another world with the
same registers and the same bytes to be copied ends with the same registers. -/
theorem runs_chunks {f : Chunk → Build Unit} {dst src : World → BitVec 64} {v : World}
    (hf : ∀ c s', s.fn.vregCount ≤ s'.fn.vregCount → CopiesChunk env dst src c (f c) s')
    (hdst : ∀ w', w.Agrees s.fn.vregCount w' → dst w' = d) (hsrc : ∀ w', w.Agrees s.fn.vregCount w' → src w' = p)
    (happart : Memory.Apart d size.toInt.toNat p size.toInt.toNat) (hregs : v.regs = w.regs)
    (hbytes : ∀ q, Memory.Within p size.toInt.toNat q → v.memory q = w.memory q) :
    Runs env ((ofSize size).forM f) s w fun _ s' w' =>
      w'.memory = w.memory.copy d p size.toInt.toNat ∧ w.Agrees s.fn.vregCount w' ∧
        s.fn.vregCount ≤ s'.fn.vregCount ∧ ∃ v', v'.regs = w'.regs ∧
          ∀ code, s'.code <+: code → Executes env code (s.out.size, v) (s'.out.size, v') := by
  have hn : size.toInt.toNat ≤ 2 ^ 64 := by have := Int64.toInt_lt size; omega
  have hplan : Consecutive 0 (ofSize size) size.toInt.toNat := consecutive_plan _
  refine (runs_forM (I := fun done s' w' => ∃ k, Consecutive 0 done k ∧
    w'.memory = w.memory.copy d p k ∧ w.Agrees s.fn.vregCount w' ∧ s.fn.vregCount ≤ s'.fn.vregCount ∧
    ∃ v', v'.memory = v.memory.copy d p k ∧ v'.regs = w'.regs ∧
      ∀ code, s'.code <+: code → Executes env code (s.out.size, v) (s'.out.size, v')) (ofSize size) ?_
    ⟨0, rfl, by simp, .refl _ _, Int.le_refl _, v, by simp, hregs, fun _ _ => .refl⟩).mono ?_
  · rintro done c todo s₁ w₁ hsplit ⟨k, hdone, hmem, hagrees, hcount, v₁, hmemv, hregs₁, hreach⟩
    obtain ⟨k', hdone', hpos, hrest⟩ := consecutive_append.mp (hsplit ▸ hplan)
    obtain rfl : k = k' := Consecutive.unique hdone hdone'
    have hend := hrest.le
    -- the chunk to be copied is as it was at the start, and the same in both worlds
    have hload : ∀ m : Memory, (m.copy d p k).load (p + BitVec.ofNat 64 k) c.bytes
        = m.load (p + BitVec.ofNat 64 k) c.bytes := fun m =>
      Memory.load_congr c.bytes_le fun i hi => m.copy_of_not_within fun h => happart _ (h.mono (by omega))
        ((Memory.within_add _ hi (by omega)).of_part hend)
    have hsame : v.memory.load (p + BitVec.ofNat 64 k) c.bytes = w.memory.load (p + BitVec.ofNat 64 k) c.bytes :=
      Memory.load_congr c.bytes_le fun i hi => hbytes _ ((Memory.within_add _ hi (by omega)).of_part hend)
    have hagreesv : w.Agrees s.fn.vregCount v₁ := fun u hu => (congrFun hregs₁ u).trans (hagrees u hu)
    obtain ⟨g, hg, hruns⟩ := hf c s₁ hcount
    obtain ⟨u, s₂, w₂, hrun, hadv, hreach₂, hmem₂, hregs₂⟩ := hruns w₁
    obtain ⟨_, _, v₂, hrun', -, hreach₂', hmemv₂, hregsv₂⟩ := hruns v₁
    obtain ⟨rfl, rfl⟩ := Prod.mk.inj (hrun.symm.trans hrun')
    rw [hdst _ hagrees, hsrc _ hagrees, hpos, hmem] at hmem₂
    rw [hdst _ hagreesv, hsrc _ hagreesv, hpos, hmemv] at hmemv₂
    rw [hsrc _ hagrees, hpos, hmem, hload] at hregs₂
    rw [hsrc _ hagreesv, hpos, hmemv, hload, hsame, hregs₁] at hregsv₂
    refine ⟨u, s₂, w₂, hrun, hadv, hreach₂, k + c.bytes, consecutive_append.mpr ⟨k, hdone, hpos, rfl⟩, ?_,
      hagrees.trans fun r hr => ?_, Int.le_trans hcount hadv.vregs, v₂, ?_, hregsv₂.trans hregs₂.symm,
      fun code hcode => ?_⟩
    · rw [hmem₂, w.memory.store_load_copy happart hn hend c.bytes_le]
    · rw [hregs₂, hg _ _ r (Int.le_trans hr hcount)]
    · rw [hmemv₂, v.memory.store_load_copy happart hn hend c.bytes_le]
    · exact (hreach code (hadv.prefix_code.trans hcode)).trans (hreach₂' code hcode)
  · rintro _ s' w' - ⟨k, hk, hmem, hagrees, hcount, v', -, hregs', hreach⟩
    obtain rfl := Consecutive.unique hk hplan
    exact ⟨hmem, hagrees, hcount, v', hregs', hreach⟩

/-- **Copying through a pointer copies the run, and touches nothing else.** -/
theorem runs_copyFromPointer (hdst : env.of? dst = some d) (hid : id ≤ s.fn.vregCount)
    (happart : Memory.Apart d size.toInt.toNat (w.regs id) size.toInt.toNat) :
    Runs env (copyFromPointer dst (.vreg id (.pointer t)) size) s w fun _ s' w' =>
      w'.memory = w.memory.copy d (w.regs id) size.toInt.toNat ∧ w.Agrees s.fn.vregCount w' ∧
        s.fn.vregCount ≤ s'.fn.vregCount := by
  refine (runs_chunks (fun c s' _ => copies_chunkFromPointer hdst c s') (fun _ _ => rfl) (fun w' h => h id hid)
    happart rfl fun _ _ => rfl).mono fun _ _ _ _ h => ⟨h.1, h.2.1, h.2.2.1⟩

/-- The step leaves a state, and executing the code it emits leads from two worlds to two that are as wanted. -/
def RunsBoth (env : Addresses) (b : Build Unit) (s : Lowering) (w v : World) (Q : World → World → Prop) : Prop :=
  Runs env b s w fun _ s' w' => ∃ v', Q w' v' ∧
    ∀ code, s'.code <+: code → Executes env code (s.out.size, v) (s'.out.size, v')

/-- The bytes from `p` on were copied to `d`, no other byte changed and no register that was taken. -/
structure Copied (d p : BitVec 64) (n : Nat) (s : Lowering) (w w' : World) : Prop where
  bytes : ∀ i < n, w'.memory (d + BitVec.ofNat 64 i) = w.memory (p + BitVec.ofNat 64 i)
  others : ∀ q, ¬ Memory.Within d n q → w'.memory q = w.memory q
  regs : ∀ v ≤ s.fn.vregCount, w'.regs v = w.regs v

theorem copied_of_copy {n : Nat} (hn : n ≤ 2 ^ 64) (hmem : w'.memory = w.memory.copy d p n)
    (hregs : w.Agrees s.fn.vregCount w') : Copied d p n s w w' := by
  refine ⟨fun i hi => ?_, fun q hq => ?_, hregs⟩ <;> rw [hmem]
  · exact w.memory.copy_apply d p hi (by omega)
  · exact w.memory.copy_of_not_within hq

/-- **Block copies copy exactly the object**, to where a pointer points and from there.  Nothing is read but the
bytes to be copied: from another world with the same registers and the same bytes there, the registers end up the
same, the fresh ones too. -/
theorem blocks_copied (size : Int64) {o : Operand} {a : BitVec 64} (ho : env.of? o = some a)
    (hid : id ≤ s.fn.vregCount)
    (happart : Memory.Apart a size.toInt.toNat (w.regs id) size.toInt.toNat) (v : World) (hregs : v.regs = w.regs) :
    ((∀ q, Memory.Within a size.toInt.toNat q → v.memory q = w.memory q) →
      RunsBoth env (copyToPointer (.vreg id (.pointer t)) o size) s w v fun w' v' =>
        Copied (w.regs id) a size.toInt.toNat s w w' ∧ v'.regs = w'.regs) ∧
    ((∀ q, Memory.Within (w.regs id) size.toInt.toNat q → v.memory q = w.memory q) →
      RunsBoth env (copyFromPointer o (.vreg id (.pointer t)) size) s w v fun w' v' =>
        Copied a (w.regs id) size.toInt.toNat s w w' ∧ v'.regs = w'.regs) := by
  have hn : size.toInt.toNat ≤ 2 ^ 64 := by have := Int64.toInt_lt size; omega
  constructor
  · intro hbytes
    refine (runs_chunks (fun c s' hcount => copies_chunkToPointer ho c (Int.le_trans hid hcount))
      (fun w' h => h id hid) (fun _ _ => rfl) happart.symm hregs hbytes).mono ?_
    rintro _ s' w' - ⟨hmem, hagrees, -, v', hregs', hreach⟩
    exact ⟨v', ⟨copied_of_copy hn hmem hagrees, hregs'⟩, hreach⟩
  · intro hbytes
    refine (runs_chunks (fun c s' _ => copies_chunkFromPointer ho c s') (fun _ _ => rfl)
      (fun w' h => h id hid) happart hregs hbytes).mono ?_
    rintro _ s' w' - ⟨hmem, hagrees, -, v', hregs', hreach⟩
    exact ⟨v', ⟨copied_of_copy hn hmem hagrees, hregs'⟩, hreach⟩

/-- A world in which every byte is known by its address. -/
def numberedBytes : World := ⟨fun _ => 128, fun q => q.setWidth 8⟩

/-- Seven bytes, in chunks of four, two and one. -/
theorem blocks_copied_seven :
    RunsBoth ⟨0, fun _ => 64⟩ (copyToPointer (.vreg 1 (.pointer .char)) (.global "x" .char) 7)
      { fn := .new "f" .void [] } numberedBytes numberedBytes fun w' v' =>
        Copied 128 64 7 { fn := .new "f" .void [] } numberedBytes w' ∧ v'.regs = w'.regs := by
  have ho : Addresses.of? ⟨0, fun _ => 64⟩ (.global "x" .char) = some 64 := by decide
  have hid : (1 : Int) ≤ Function.vregCount (.new "f" .void []) := by decide
  have happart : Memory.Apart 64 7 (numberedBytes.regs 1) 7 := Memory.apart_of_le (by decide) (by decide)
  exact (blocks_copied 7 ho hid happart numberedBytes rfl).1 fun _ _ => rfl

/-! ### Out of registers -/

/-- The operations that carry eightbytes. -/
def carryingOps : List IrOp := [.move, .movePregClass, .bshl, .bshr, .bor]

theorem emits_loadChunks_of (hP : ∀ op ∈ carryingOps, ∀ id t a b, low < id → P (.ir op (Operand.vreg id t) a b))
    (mem : Operand) (start : Int64) (chunks : List Chunk) :
    EmitsFrom low P (loadChunks mem start chunks) fun _ => True := by
  refine emits_foldlM trivial fun c _ acc _ => ?_
  refine emits_bind (Q := fun _ => True)
    (emits_bind (emits_compute_fresh (hP .move (by decide)) _ _ _) fun v _ => ?_) fun v _ => ?_
  · split
    · exact emits_pure trivial
    · exact emits_compute_fresh (hP .bshl (by decide)) _ _ _
  · cases acc with
    | none => exact emits_pure trivial
    | some x =>
      exact emits_bind (emits_compute_fresh (hP .bor (by decide)) _ _ _) fun _ _ => emits_pure trivial

section

variable (hP : ∀ op ∈ carryingOps, Permits low P op) (hmem : Writable P mem)

include hP hmem

theorem emits_storeChunks_of (start : Int64) (v : Operand) (chunks : List Chunk) :
    EmitsFrom low P (storeChunks mem start v chunks) fun _ => True := by
  induction chunks generalizing v with
  | nil => exact emits_pure trivial
  | cons c rest ih =>
    refine emits_bind (emits_move hmem _ _ _) fun _ _ => ?_
    split
    · exact emits_pure trivial
    · exact emits_bind (emits_compute_of (hP .bshr (by decide)) _ _ _) fun v _ => ih v

theorem emits_storeEightbytes_of (p : Placement) (register : Place → Reg) :
    EmitsFrom low P (storeEightbytes mem p register) fun _ => True := by
  refine emits_forM fun l _ => ?_
  cases l.window with
  | none => exact emits_pure trivial
  | some w =>
    show EmitsFrom low P (storeEightbyte mem l.place (register l.place) w) _
    unfold storeEightbyte
    cases carriage l.place w with
    | twoFloats =>
      exact emits_bind (emits_compute_of (hP .movePregClass (by decide)) _ _ _) fun v _ =>
        emits_storeChunks_of hP hmem _ v _
    | double => exact emits_move hmem _ _ _
    | float => exact emits_move hmem _ _ _
    | bytes => exact emits_storeChunks_of hP hmem _ _ _

end

theorem Permissive.carrying (hP : Permissive low P) : ∀ op ∈ carryingOps, Permits low P op := by
  intro op hop
  refine hP.ops op ?_
  rintro rfl
  exact absurd hop (by decide)

end Lowering

end Codegen
