/-
One eightbyte, in and out of a register.

Loading puts chunks together with shifts, storing takes them apart with shifts; byte by byte the
register holds what memory holds.  How many bytes that is depends on how the eightbyte travels:
all of them, except that one that travels as a float takes four along.

Also here: which bytes of memory an instruction can look at or change, read off its operands.
-/
import Codegen.Proofs.Copying

namespace Codegen

open World Chunk

/-! ### Words and their bytes -/

theorem byteOf_ushiftRight (x : BitVec 64) (b i : Nat) :
    byteOf (x >>> (8 * b)) i = byteOf x (b + i) := by
  apply BitVec.eq_of_getLsbD_eq
  intro j hj
  rw [getLsbD_byteOf, getLsbD_byteOf, BitVec.getLsbD_ushiftRight,
    show 8 * b + (8 * i + j) = 8 * (b + i) + j by omega]

variable {k n i j : Nat} {a b x y : BitVec 64} {env : Addresses} {t : Ty} {op : IrOp} {w' : World} {c : Chunk}
  {o : Operand} {win : Window}

theorem byteOf_shiftLeft_of_lt (x : BitVec 64) (hi : i < k) : byteOf (x <<< (8 * k)) i = 0#8 := by
  apply BitVec.eq_of_getLsbD_eq
  intro j hj
  rw [getLsbD_byteOf]
  simp [show 8 * i + j < 8 * k by omega]

theorem byteOf_shiftLeft_of_le (x : BitVec 64) (hi : k ≤ i) (h8 : i < 8) :
    byteOf (x <<< (8 * k)) i = byteOf x (i - k) := by
  apply BitVec.eq_of_getLsbD_eq
  intro j hj
  rw [getLsbD_byteOf, getLsbD_byteOf, BitVec.getLsbD_shiftLeft]
  simp [show ¬ 8 * i + j < 8 * k by omega, show 8 * i + j < 64 by omega,
    show 8 * i + j - 8 * k = 8 * (i - k) + j by omega]

theorem byteOf_or (x y : BitVec 64) (i : Nat) : byteOf (x ||| y) i = byteOf x i ||| byteOf y i := by
  apply BitVec.eq_of_getLsbD_eq
  intro j hj
  rw [getLsbD_byteOf, BitVec.getLsbD_or, BitVec.getLsbD_or, getLsbD_byteOf, getLsbD_byteOf]
  cases decide (j < 8) <;> simp

namespace Memory

variable (m : Memory) {b : Nat}

theorem load_add (a : BitVec 64) (h : k + b ≤ 8) :
    m.load a (k + b) = m.load a k ||| m.load (a + BitVec.ofNat 64 k) b <<< (8 * k) := by
  apply eq_of_byteOf
  intro i hi
  rw [byteOf_or]
  by_cases hk : i < k
  · rw [byteOf_load _ _ h (by omega), byteOf_load _ _ (by omega) hk, byteOf_shiftLeft_of_lt _ hk,
      BitVec.or_zero]
  · rw [show byteOf (m.load a k) i = 0#8 from byteOf_load_of_le _ _ (by omega),
      byteOf_shiftLeft_of_le _ (by omega) hi, BitVec.zero_or]
    by_cases hb : i < k + b
    · rw [byteOf_load _ _ h hb, byteOf_load _ _ (by omega) (by omega), add_ofNat_add,
        show k + (i - k) = i by omega]
    · rw [byteOf_load_of_le _ _ (by omega), byteOf_load_of_le _ _ (by omega)]

theorem store_add (a : BitVec 64) (h : k + b ≤ 8) (x : BitVec 64) :
    (m.store a k x).store (a + BitVec.ofNat 64 k) b (x >>> (8 * k)) = m.store a (k + b) x := by
  refine store_eq _ (fun i hi _ => ?_) fun q hq => ?_
  · rw [byteOf_ushiftRight, add_ofNat_add, store_apply _ _ _ (by omega) (by omega)]
  · by_cases hk : Within a k q
    · obtain ⟨i, hi, h64, rfl⟩ := hk.exists_add
      rw [store_apply _ _ _ hi h64, store_apply _ _ _ (by omega) h64]
    · rw [store_of_not_within _ _ hk, store_of_not_within _ _ fun h => h.split.elim hk hq]

theorem store_congr (a : BitVec 64) (h : ∀ i < n, byteOf x i = byteOf y i) : m.store a n x = m.store a n y := by
  refine store_eq _ (fun i hi h64 => ?_) fun q hq => (store_of_not_within _ _ hq).symm
  rw [store_apply _ _ _ hi h64, h i hi]

end Memory

/-- What was loaded at an unsigned type is not cut any further. -/
theorem Ty.fit_unsigned_load (m : Memory) (a : BitVec 64) (w : IntWidth) :
    (Ty.int w .unsigned).fit (m.load a (w.bits / 8)) = m.load a (w.bits / 8) := by
  have hbits : w.bits % 8 = 0 ∧ w.bits ≤ 64 := by cases w <;> decide
  apply eq_of_byteOf
  intro i hi
  by_cases hlt : i < w.bits / 8
  · exact Ty.byteOf_fit _ _ (by rw [Ty.span_int]; exact hlt) hi
  · rw [Memory.byteOf_load_of_le _ _ (by omega)]
    apply BitVec.eq_of_getLsbD_eq
    intro j hj
    rw [getLsbD_byteOf]
    simp [Ty.fit, show ¬ 8 * i + j < w.bits by omega]

theorem Chunk.bytes_pos (c : Chunk) : 0 < c.bytes := by
  obtain ⟨pos, width⟩ := c
  cases width <;> simp

namespace Lowering

variable {s : Lowering} {w : World}

/-! ### Loading chunks -/

/-- A register that was handed out holds a word, and nothing else in use has changed. -/
structure Holding (s : Lowering) (w : World) (x : BitVec 64) (r : Operand) (s' : Lowering) (w' : World) :
    Prop where
  operand : ∃ id, r = .vreg id .ulong ∧ id ≤ s'.fn.vregCount ∧ w'.regs id = x
  memory : w'.memory = w.memory
  regs : w.Agrees s.fn.vregCount w'

variable {w₁ w₂ : World} {s' s₁ s₂ : Lowering} {r' r : Operand}

theorem Computed.holding (h : Computed s w t x r s' w') (ht : t = .ulong) : Holding s w x r s' w' := by
  subst ht
  refine ⟨⟨s.fn.vregCount + 1, h.operand, Int.le_of_eq (by rw [h.fn]), ?_⟩, ?_, ?_⟩
  · rw [h.world, regs_set_self, Ty.fit_ulong]
  · rw [h.world, memory_set]
  · rw [h.world]
    exact (Agrees.refl _ _).set (by omega) _

theorem Holding.trans (h : Holding s w x r s₁ w₁) (hvregs : s.fn.vregCount ≤ s₁.fn.vregCount)
    (h' : Holding s₁ w₁ y r' s₂ w₂) : Holding s w y r' s₂ w₂ :=
  ⟨h'.operand, h'.memory.trans h.memory, h.regs.trans (h'.regs.mono hvregs)⟩

theorem toNat_shift : ∀ p < 8, (Ty.sint.fit (Int64.ofNat p * 8).toBitVec).toNat = 8 * p := by decide

variable {mem : Operand} {acc : Option Operand} {chunks : List Chunk} {d : BitVec 64}

theorem runs_loadChunk (hmem : env.of? mem = some a) (start : Int64) (hpos : c.pos < 8) :
    Runs env (loadChunk mem start c) s w (Holding s w
      (w.memory.load (a + start.toBitVec + BitVec.ofNat 64 c.pos) c.bytes <<< (8 * c.pos))) := by
  have hspan : c.type.span ≤ 8 := by rw [span_type]; exact c.bytes_le
  have hvalue : w.value? env (mem.shifted (start + c.offset) c.type)
      = some (w.memory.load (a + start.toBitVec + BitVec.ofNat 64 c.pos) c.bytes) := by
    rw [value?_shifted hmem _ hspan, Int64.toBitVec_add, ← BitVec.add_assoc,
      span_type]
    exact congrArg some (Ty.fit_unsigned_load _ _ c.width)
  refine runs_bind (runs_compute_move (by decide) hvalue) fun r s₁ w₁ hadv hr => ?_
  have hholding := hr.holding rfl
  obtain ⟨id, rfl, hid, hx⟩ := hholding.operand
  split
  · next hzero =>
    rw [show 8 * c.pos = 0 by rw [hzero], BitVec.shiftLeft_zero]
    exact runs_pure hholding
  · refine (runs_compute_binary .bshl (by decide) (value?_vreg id (by decide))
      (value?_const _ (by decide)) rfl).mono fun r₂ s₂ w₂ _ hr₂ => ?_
    have hshift : (Ty.sint.fit (c.offset * 8).toBitVec).toNat = 8 * c.pos := toNat_shift c.pos hpos
    rw [hx, hshift] at hr₂
    exact hholding.trans hadv.vregs (hr₂.holding rfl)

/-- The bytes from `a` on that were read so far. -/
def Assembled (s : Lowering) (w : World) (a : BitVec 64) (k : Nat) (acc : Option Operand) : Prop :=
  (k = 0 ∧ acc = none) ∨
    ∃ id, acc = some (.vreg id .ulong) ∧ id ≤ s.fn.vregCount ∧ w.regs id = w.memory.load a k

theorem runs_loadMore (hmem : env.of? mem = some a) (start : Int64) (hpos : c.pos = k) (hk : k < 8)
    (hc : k + c.bytes ≤ 8) (hacc : Assembled s w (a + start.toBitVec) k acc) :
    Runs env (loadMore mem start acc c) s w fun r s' w' =>
      Assembled s' w' (a + start.toBitVec) (k + c.bytes) r ∧ w'.memory = w.memory ∧
        w.Agrees s.fn.vregCount w' := by
  refine runs_bind (runs_loadChunk hmem start (by omega)) fun r s₁ w₁ hadv hr => ?_
  obtain ⟨id, rfl, hid, hx⟩ := hr.operand
  rw [hpos, ← hr.memory] at hx
  rcases hacc with ⟨rfl, rfl⟩ | ⟨v, rfl, hv, hgathered⟩
  · refine runs_pure ⟨.inr ⟨id, rfl, hid, ?_⟩, hr.memory, hr.regs⟩
    rw [hx]
    simp
  · refine runs_bind (runs_compute_binary .bor (by decide) (value?_vreg v (by decide))
      (value?_vreg id (by decide)) rfl) fun r₂ s₂ w₂ hadv₂ hr₂ => ?_
    have hholding := hr₂.holding rfl
    obtain ⟨id₂, rfl, hid₂, hx₂⟩ := hholding.operand
    refine runs_pure ⟨.inr ⟨id₂, rfl, hid₂, ?_⟩, hholding.memory.trans hr.memory,
      hr.regs.trans (hholding.regs.mono hadv.vregs)⟩
    rw [hx₂, hx, hr.regs v hv, hgathered, hholding.memory, ← hr.memory,
      Memory.load_add _ _ hc]
    rfl

/-- **Chunks that follow one another are gathered into one word.** -/
theorem runs_gather (hmem : env.of? mem = some a) (start : Int64) (hchunks : Consecutive k chunks n)
    (hn : n ≤ 8) (hpositive : ∀ c ∈ chunks, 0 < c.bytes) (hacc : Assembled s w (a + start.toBitVec) k acc) :
    Runs env (chunks.foldlM (loadMore mem start) acc) s w fun r s' w' =>
      Assembled s' w' (a + start.toBitVec) n r ∧ w'.memory = w.memory ∧ w.Agrees s.fn.vregCount w' := by
  induction chunks generalizing s w k acc with
  | nil =>
    obtain rfl : k = n := hchunks
    exact runs_pure ⟨hacc, rfl, .refl _ _⟩
  | cons c rest ih =>
    obtain ⟨hpos, hrest⟩ := hchunks
    have hend := hrest.le
    have hbytes := hpositive c (by simp)
    refine runs_bind (runs_loadMore hmem start hpos (by omega) (by omega) hacc) ?_
    intro r s₁ w₁ hadv h
    obtain ⟨hgathered, hmemory, hagrees⟩ := h
    refine (ih hrest (fun d hd => hpositive d (by simp [hd])) hgathered).mono fun r' s₂ w₂ _ h' => ?_
    obtain ⟨hgathered', hmemory', hagrees'⟩ := h'
    exact ⟨hgathered', hmemory'.trans hmemory, hagrees.trans (hagrees'.mono hadv.vregs)⟩

theorem runs_loadChunks (hmem : env.of? mem = some a) (start : Int64) (hn : n ≤ 8) (hpositive : 0 < n) :
    Runs env (loadChunks mem start (plan n)) s w fun r s' w' =>
      ∃ v, r = some v ∧ Holding s w (w.memory.load (a + start.toBitVec) n) v s' w' := by
  refine (runs_gather hmem start (consecutive_plan n) hn (fun c _ => bytes_pos c)
    (.inl ⟨rfl, rfl⟩)).mono fun r s' w' _ h => ?_
  obtain ⟨⟨rfl, -⟩ | ⟨id, rfl, hid, hx⟩, hmemory, hagrees⟩ := h
  · exact absurd hpositive (Nat.lt_irrefl 0)
  · exact ⟨_, rfl, ⟨id, rfl, hid, by rw [hx, hmemory]⟩, hmemory, hagrees⟩

/-! ### Storing chunks -/

theorem toNat_bits (c : Chunk) : (Ty.sint.fit c.bits.toBitVec).toNat = 8 * c.bytes := by
  have hwidth : ∀ w : IntWidth, (Ty.sint.fit (w.bytes * 8).toBitVec).toNat = 8 * (w.bits / 8) := by
    intro w
    cases w <;> decide
  exact hwidth c.width

/-- **Storing chunks one by one stores the word.** -/
theorem runs_storeChunks_memory (hmem : env.of? mem = some d) (start : Int64) (hchunks : Consecutive k chunks n)
    (hn : n ≤ 8) (id : Int) :
    Runs env (storeChunks mem start (.vreg id .ulong) chunks) s w fun _ _ w' =>
      w'.memory = w.memory.store (d + start.toBitVec + BitVec.ofNat 64 k) (n - k) (w.regs id) ∧
        w.Agrees s.fn.vregCount w' := by
  induction chunks generalizing s w k id with
  | nil =>
    obtain rfl : k = n := hchunks
    rw [Nat.sub_self]
    exact runs_pure ⟨rfl, .refl _ _⟩
  | cons c rest ih =>
    obtain ⟨hpos, hrest⟩ := hchunks
    have hend := hrest.le
    have hspan : c.type.span ≤ 8 := by rw [span_type]; exact c.bytes_le
    refine runs_bind (runs_move hmem (start + c.offset) hspan (value?_vreg id (by decide))) ?_
    rintro - s₁ w₁ hadv ⟨hfn, -, hw₁⟩
    have hstored : w₁.memory
        = w.memory.store (d + start.toBitVec + BitVec.ofNat 64 k) c.bytes (w.regs id) := by
      rw [hw₁, memory_store, span_type, Ty.fit_ulong, Int64.toBitVec_add,
        toBitVec_offset, hpos, BitVec.add_assoc]
    have hagrees : w.Agrees s.fn.vregCount w₁ := by
      rw [hw₁]
      exact (Agrees.refl _ _).store _ _ _
    have hregs : w₁.regs = w.regs := by rw [hw₁, regs_store]
    split
    · next hempty =>
      obtain rfl : rest = [] := List.isEmpty_iff.mp hempty
      obtain rfl : k + c.bytes = n := hrest
      rw [Nat.add_sub_cancel_left]
      exact runs_pure ⟨hstored, hagrees⟩
    · refine runs_bind (runs_compute_binary .bshr (by decide) (value?_vreg id (by decide))
        (value?_const c.bits (by decide)) rfl) fun r s₂ w₂ hadv₂ hr => ?_
      have hholding := hr.holding rfl
      obtain ⟨id₂, rfl, hid₂, hx⟩ := hholding.operand
      rw [Ty.fit_ulong, toNat_bits, hregs] at hx
      refine (ih hrest id₂).mono fun _ _ w' _ h => ?_
      obtain ⟨hmemory, hagrees'⟩ := h
      have hcount : s.fn.vregCount ≤ s₂.fn.vregCount := Int.le_trans hadv.vregs hadv₂.vregs
      refine ⟨?_, hagrees.trans ((hholding.regs.mono hadv.vregs).trans (hagrees'.mono hcount))⟩
      rw [hmemory, hx, hholding.memory, hstored, ← add_ofNat_add,
        Memory.store_add _ _ (by omega), show c.bytes + (n - (k + c.bytes)) = n - k by omega]

/-! ### One eightbyte -/

/-- How many bytes of an eightbyte travel. -/
def carried (place : Place) (win : Window) : Nat :=
  match carriage place win with
  | .float => 4
  | _ => win.size.toInt.toNat

/-- The ways to travel, with what is known in each. -/
theorem carriage_cases (place : Place) (win : Window) :
    ((carriage place win = .twoFloats ∨ carriage place win = .double) ∧ win.size.toInt.toNat = 8 ∧
        carried place win = 8) ∨
      (carriage place win = .float ∧ carried place win = 4) ∨
      (carriage place win = .bytes ∧ carried place win = win.size.toInt.toNat) := by
  have hfull : win.size = 8 → win.size.toInt.toNat = 8 := fun h => by rw [h]; rfl
  cases hc : carriage place win with
  | bytes => exact .inr (.inr ⟨rfl, by simp [carried, hc]⟩)
  | float => exact .inr (.inl ⟨rfl, by simp [carried, hc]⟩)
  | _ =>
    have hsize : win.size = 8 := by
      cases place with
      | sse n =>
        by_contra hne
        simp [carriage, hne] at hc
      | _ => exact nomatch hc
    exact .inl ⟨by simp, hfull hsize, by simp [carried, hc, hfull hsize]⟩

/-- A register holds the bytes of an eightbyte, and no other one in use has changed. -/
structure Filled (s : Lowering) (w : World) (a : BitVec 64) (r : Int) (n : Nat) (w' : World) : Prop where
  memory : w'.memory = w.memory
  regs : ∀ v ≤ s.fn.vregCount, v ≠ r → w'.regs v = w.regs v
  bytes : ∀ i < n, byteOf (w'.regs r) i = w.memory (a + BitVec.ofNat 64 i)

theorem Filled.set {r : Int} (hmemory : w₁.memory = w.memory) (hregs : w.Agrees s.fn.vregCount w₁) (hn : n ≤ k)
    (hk : k ≤ 8) (hx : ∀ i < k, byteOf x i = byteOf (w.memory.load a k) i) :
    Filled s w a r n (w₁.set r x) := by
  refine ⟨hmemory, fun v hv hne => (w₁.regs_set_of_ne hne x).trans (hregs v hv), fun i hi => ?_⟩
  rw [regs_set_self, hx i (by omega), Memory.byteOf_load _ _ hk (by omega)]

/-- **Loading an eightbyte fills its register with the bytes that travel.** -/
theorem runs_loadEightbyte (hmem : env.of? mem = some a) (place : Place) (r : Reg) (hpositive : 0 < win.size.toInt)
    (hsize : win.size.toInt ≤ 8) :
    Runs env (loadEightbyte mem place r win) s w fun _ _ w' =>
      Filled s w (a + win.offset.toBitVec) r.pseudo (carried place win) w' := by
  -- a word that was gathered is moved into the register
  have hgathered : ∀ (op : IrOp) (t : Ty) (n : Nat), (op = .move ∨ op = .movePregClass) →
      (∀ x, t.fit x = x) → t.span ≤ 8 → 0 < n → n ≤ 8 → carried place win ≤ n →
      Runs env (do
        let v ← loadChunks mem win.offset (plan n)
        emit op (pseudo r t) v none
        return pseudo r t) s w fun _ _ w' =>
          Filled s w (a + win.offset.toBitVec) r.pseudo (carried place win) w' := by
    intro op t n hop ht hspan hn hn8 hcarried
    refine runs_bind (runs_loadChunks hmem win.offset hn8 hn) fun v s₁ w₁ _ hv => ?_
    obtain ⟨v, rfl, hholding⟩ := hv
    obtain ⟨id, rfl, -, hx⟩ := hholding.operand
    have heffect : (Instr.ir op (pseudo r t) (some (.vreg id .ulong)) none).effect? env w₁
        = some (w₁.set r.pseudo (w₁.regs id)) := by
      have hput : w₁.put? env (pseudo r t) (w₁.regs id) = some (w₁.set r.pseudo (w₁.regs id)) := by
        rw [pseudo, put?_vreg _ hspan, ht]
      have hvalue : w₁.value? env (.vreg id .ulong) = some (w₁.regs id) := by
        rw [value?_vreg _ (by decide), Ty.fit_ulong]
      rcases hop with rfl | rfl
      · exact (Instr.effect?_move hvalue).trans hput
      · exact (Instr.effect?_movePregClass hvalue).trans hput
    refine runs_bind (Q := fun _ _ w' => Filled s w (a + win.offset.toBitVec) r.pseudo (carried place win) w')
      (runs_emit (by rcases hop with rfl | rfl <;> decide) (by rcases hop with rfl | rfl <;> decide) heffect
        fun _ _ _ => ?_) fun _ _ _ _ h => runs_pure h
    exact .set hholding.memory hholding.regs hcarried hn8 fun i _ => by rw [hx]
  -- a scalar is moved straight into it
  have hscalar : ∀ t : Ty, t.span ≤ 8 → carried place win ≤ t.span →
      Runs env (do
        move (pseudo r t) (mem.shifted win.offset t)
        return pseudo r t) s w fun _ _ w' =>
          Filled s w (a + win.offset.toBitVec) r.pseudo (carried place win) w' := by
    intro t hspan hcarried
    refine runs_bind (Q := fun _ _ w' => Filled s w (a + win.offset.toBitVec) r.pseudo (carried place win) w')
      (runs_emit (by decide) (by decide)
        ((Instr.effect?_move (value?_shifted hmem win.offset hspan)).trans (put?_vreg _ hspan _))
        fun _ _ _ => ?_) fun _ _ _ _ h => runs_pure h
    refine .set rfl (.refl _ _) hcarried hspan fun i hi => ?_
    rw [Ty.byteOf_fit _ _ hi (by omega), Ty.byteOf_fit _ _ hi (by omega)]
  unfold loadEightbyte
  rcases carriage_cases place win with ⟨hc | hc, -, hcarried⟩ | ⟨hc, hcarried⟩ | ⟨hc, hcarried⟩ <;> rw [hc]
  · exact hgathered .movePregClass .double 8 (.inr rfl) Ty.fit_double (by decide) (by decide) (by decide)
      (Nat.le_of_eq hcarried)
  · exact hscalar .double (by decide) (Nat.le_of_eq hcarried)
  · exact hscalar .single (by decide) (Nat.le_of_eq hcarried)
  · exact hgathered .move .ulong win.size.toInt.toNat (.inl rfl) Ty.fit_ulong (by decide) (by omega) (by omega)
      (Nat.le_of_eq hcarried)

/-- **Storing an eightbyte stores the bytes that travelled.** -/
theorem runs_storeEightbyte_memory (hmem : env.of? mem = some d) (place : Place) (r : Reg)
    (hsize : win.size.toInt ≤ 8) :
    Runs env (storeEightbyte mem place r win) s w fun _ _ w' =>
      w'.memory = w.memory.store (d + win.offset.toBitVec) (carried place win) (w.regs r.pseudo) ∧
        w.Agrees s.fn.vregCount w' := by
  have hscalar : ∀ t : Ty, t.span ≤ 8 → t.span = carried place win →
      Runs env (move (mem.shifted win.offset t) (pseudo r t)) s w fun _ _ w' =>
        w'.memory = w.memory.store (d + win.offset.toBitVec) (carried place win) (w.regs r.pseudo) ∧
          w.Agrees s.fn.vregCount w' := by
    intro t hspan hcarried
    refine (runs_move hmem win.offset hspan (value?_vreg _ hspan)).mono ?_
    rintro _ s' _ - ⟨-, -, rfl⟩
    refine ⟨?_, (Agrees.refl _ _).store _ _ _⟩
    rw [← hcarried]
    exact Memory.store_congr _ _ fun i hi => Ty.byteOf_fit _ _ hi (by omega)
  have hzero : d + win.offset.toBitVec + BitVec.ofNat 64 0 = d + win.offset.toBitVec := by simp
  unfold storeEightbyte
  rcases carriage_cases place win with ⟨hc | hc, -, hcarried⟩ | ⟨hc, hcarried⟩ | ⟨hc, hcarried⟩ <;> rw [hc]
  · refine runs_bind (runs_compute_movePregClass (by decide) (value?_vreg _ (by decide)))
      fun v s₁ w₁ hadv hv => ?_
    have hholding := hv.holding rfl
    obtain ⟨id, rfl, -, hx⟩ := hholding.operand
    refine (runs_storeChunks_memory hmem win.offset
      (show Consecutive 0 halves 8 from ⟨rfl, rfl, rfl⟩) (Nat.le_refl _) id).mono
      fun _ _ w' _ h => ?_
    obtain ⟨hmemory, hagrees⟩ := h
    refine ⟨?_, hholding.regs.trans (hagrees.mono hadv.vregs)⟩
    rw [hmemory, hx, hholding.memory, hzero, hcarried, Ty.fit_double]
  · exact hscalar .double (by decide) hcarried.symm
  · exact hscalar .single (by decide) hcarried.symm
  · refine (runs_storeChunks_memory hmem win.offset (consecutive_plan win.size.toInt.toNat)
      (by omega) r.pseudo).mono fun _ _ w' _ h => ?_
    obtain ⟨hmemory, hagrees⟩ := h
    refine ⟨?_, hagrees⟩
    rw [hmemory, hzero, hcarried, Nat.sub_zero]

/-- **Storing the registers of an aggregate writes no byte outside its eightbytes.** -/
theorem runs_storeEightbytes (hmem : env.of? mem = some d) {p : Placement} (register : Place → Reg)
    (hwindows : ∀ l ∈ p.locations, ∀ win, l.window = some win → win.size.toInt ≤ 8 ∧
      ∃ i, win.offset.toBitVec = BitVec.ofNat 64 (8 * i) ∧ 8 * i + 8 ≤ k) :
    Runs env (storeEightbytes mem p register) s w fun _ _ w' => w.Confined s.fn.vregCount d k w' := by
  refine (runs_forM (I := fun _ s' w' => w.Confined s.fn.vregCount d k w' ∧
    s.fn.vregCount ≤ s'.fn.vregCount) p.locations ?_ ⟨.refl _ _ _ _, Int.le_refl _⟩).mono
    fun _ _ _ _ h => h.1
  rintro done l todo s₁ w₁ hsplit ⟨hconfined, hcount⟩
  split
  · next win hwin =>
      obtain ⟨hsize, i, hoffset, hk⟩ := hwindows l (by rw [hsplit]; simp) win hwin
      have hcarried : 8 * i + carried l.place win ≤ k := by
        rcases carriage_cases l.place win with ⟨-, -, h⟩ | ⟨-, h⟩ | ⟨-, h⟩ <;> omega
      refine (runs_storeEightbyte_memory hmem l.place (register l.place) hsize).mono ?_
      rintro - s₂ w₂ hadv ⟨hmemory, hagrees⟩
      rw [hoffset] at hmemory
      have hstep : w₁.Confined s₁.fn.vregCount d k w₂ := ⟨hagrees, fun q hq => by
        rw [hmemory, Memory.store_of_not_within _ _ fun h => hq (h.of_part hcarried)]⟩
      exact ⟨hconfined.trans (hstep.mono hcount), Int.le_trans hcount hadv.vregs⟩
  · exact runs_pure ⟨hconfined, hcount⟩

end Lowering

/-! ### Which bytes are touched -/

/-- If the operand is in memory, its bytes are among the `n` from `a` on. -/
def Operand.LiesIn (env : Addresses) (a : BitVec 64) (n : Nat) (o : Operand) : Prop :=
  ∀ p, env.of? o = some p → ∃ d, p = a + BitVec.ofNat 64 d ∧ d + o.type.span ≤ n

/-- The instruction follows no pointer, the memory it reads is among the `n` bytes from `a` on, and the
memory it writes is among the `k` bytes from `b` on. -/
structure Instr.Stays (env : Addresses) (a : BitVec 64) (n : Nat) (b : BitVec 64) (k : Nat) (i : Instr) :
    Prop where
  indirect : i.op ≠ .ir .indirect
  moveToPtr : i.op ≠ .ir .moveToPtr
  sources : ∀ o, i.src1 = some o ∨ i.src2 = some o → o.LiesIn env a n
  dst : ∀ o, i.dst = some o → o.LiesIn env b k

theorem Operand.LiesIn.vreg {id : Int} :
    (Operand.vreg id t).LiesIn env a n := fun _ h => nomatch h

theorem Operand.LiesIn.const {x : Int64} :
    (Operand.const x t).LiesIn env a n := fun _ h => nomatch h

theorem Operand.LiesIn.shifted {d : Int64} (h : env.of? o = some a) (hd : d.toBitVec = BitVec.ofNat 64 j)
    (hj : j + t.span ≤ n) : (o.shifted d t).LiesIn env a n := by
  intro p hp
  rw [Addresses.of?_shifted h] at hp
  exact ⟨j, by rw [← Option.some.inj hp, hd], hj⟩

namespace World

variable {w v : World}

/-- Only the bytes that an operand lies in matter for its value. -/
theorem value?_congr (ho : o.LiesIn env a n) (hregs : v.regs = w.regs)
    (hmemory : ∀ q, Memory.Within a n q → v.memory q = w.memory q) : v.value? env o = w.value? env o := by
  unfold value?
  by_cases hwide : 8 < o.type.span
  · rw [if_pos hwide, if_pos hwide]
  · have hload : ∀ p, env.of? o = some p →
        v.memory.load p o.type.span = w.memory.load p o.type.span := by
      intro p hp
      obtain ⟨d, rfl, hd⟩ := ho p hp
      exact Memory.load_congr (by omega) fun i hi =>
        hmemory _ ((Memory.within_add _ hi (by omega)).of_part hd)
    have hmap : (env.of? o).map (fun p => o.type.fit (v.memory.load p o.type.span))
        = (env.of? o).map fun p => o.type.fit (w.memory.load p o.type.span) :=
      Option.map_congr fun p hp => by rw [hload p hp]
    rw [if_neg hwide, if_neg hwide, hregs, hmap]

/-- The worlds after the same word was put in both: registers as before alike, and memory changed alike,
only where the operand lies. -/
structure ChangedAlike (b : BitVec 64) (k : Nat) (w v w' v' : World) : Prop where
  regs : v'.regs = w'.regs
  outside : ∀ q, ¬ Memory.Within b k q → w'.memory q = w.memory q
  memory : ∀ q, v'.memory q = w'.memory q ∨ (v'.memory q = v.memory q ∧ w'.memory q = w.memory q)

theorem put?_congr (ho : o.LiesIn env b k) (hregs : v.regs = w.regs) (h : w.put? env o x = some w') :
    ∃ v', v.put? env o x = some v' ∧ ChangedAlike b k w v w' v' := by
  unfold put? at h ⊢
  by_cases hwide : 8 < o.type.span
  · rw [if_pos hwide] at h
    exact nomatch h
  · rw [if_neg hwide] at h ⊢
    have hmap : ∀ {w' : World}, (env.of? o).map (fun p => w.store p o.type.span x) = some w' →
        ∃ v', (env.of? o).map (fun p => v.store p o.type.span x) = some v' ∧
          ChangedAlike b k w v w' v' := by
      intro w' h
      obtain ⟨p, hp, rfl⟩ := Option.map_eq_some_iff.mp h
      obtain ⟨d, rfl, hd⟩ := ho p hp
      refine ⟨v.store (b + BitVec.ofNat 64 d) o.type.span x, by rw [hp]; rfl, hregs, fun q hq => ?_,
        fun q => ?_⟩
      · exact Memory.store_of_not_within _ _ fun hin => hq (hin.of_part hd)
      · by_cases hq : Memory.Within (b + BitVec.ofNat 64 d) o.type.span q
        · exact .inl (by simp only [memory_store, Memory.store, if_pos hq])
        · exact .inr ⟨Memory.store_of_not_within _ _ hq, Memory.store_of_not_within _ _ hq⟩
    obtain ⟨value, type, offset⟩ := o
    cases value with
    | vreg u =>
      obtain rfl := Option.some.inj h
      refine ⟨_, rfl, ?_, fun _ _ => rfl, fun _ => .inr ⟨rfl, rfl⟩⟩
      simp only [set, hregs]
    | _ => exact hmap h

end World

/-- What the instruction does is decided by the registers and the `n` bytes from `a` on, and of memory it
changes nothing but the `k` bytes from `b` on. -/
def Instr.Touches (env : Addresses) (a : BitVec 64) (n : Nat) (b : BitVec 64) (k : Nat) (i : Instr) : Prop :=
  ∀ w v w' : World, v.regs = w.regs → (∀ q, Memory.Within a n q → v.memory q = w.memory q) →
    i.effect? env w = some w' → ∃ v', i.effect? env v = some v' ∧ ChangedAlike b k w v w' v'

/-- **An instruction touches no bytes but those that its operands lie in.** -/
theorem Instr.Stays.touches {i : Instr} (hi : i.Stays env a n b k) : i.Touches env a n b k := by
  intro w v w' hregs hmemory h
  have hvalue : ∀ o, i.src1 = some o ∨ i.src2 = some o → v.value? env o = w.value? env o :=
    fun o ho => value?_congr (hi.sources o ho) hregs hmemory
  have hput : ∀ {d x}, i.dst = some d → w.put? env d x = some w' →
      ∃ v', v.put? env d x = some v' ∧ ChangedAlike b k w v w' v' :=
    fun hd hx => put?_congr (hi.dst _ hd) hregs hx
  have hindirect := hi.indirect
  have hmoveToPtr := hi.moveToPtr
  obtain ⟨op, label, dst, src1, src2, template⟩ := i
  unfold Instr.effect? at h ⊢
  dsimp only at h hvalue hput hindirect hmoveToPtr ⊢
  split at h
  · cases h
    exact ⟨v, rfl, hregs, fun _ _ => rfl, fun _ => .inr ⟨rfl, rfl⟩⟩
  · obtain ⟨x, hx, hw'⟩ := Option.bind_eq_some_iff.mp h
    rw [hvalue _ (.inl rfl), hx]
    exact hput rfl hw'
  · obtain ⟨x, hx, hw'⟩ := Option.bind_eq_some_iff.mp h
    rw [hvalue _ (.inl rfl), hx]
    exact hput rfl hw'
  · obtain ⟨x, hx, hw'⟩ := Option.bind_eq_some_iff.mp h
    rw [hx]
    exact hput rfl hw'
  · exact absurd rfl hindirect
  · exact absurd rfl hmoveToPtr
  · obtain ⟨x, hx, h⟩ := Option.bind_eq_some_iff.mp h
    obtain ⟨y, hy, h⟩ := Option.bind_eq_some_iff.mp h
    obtain ⟨z, hz, hw'⟩ := Option.bind_eq_some_iff.mp h
    rw [hvalue _ (.inl rfl), hx, Option.bind_some, hvalue _ (.inr rfl), hy, Option.bind_some, hz]
    exact hput rfl hw'
  · exact nomatch h

variable {d : Operand}

theorem Instr.stays_ir {x y : Option Operand} (hop : op ≠ .indirect ∧ op ≠ .moveToPtr) (hd : d.LiesIn env b k)
    (hx : ∀ o, x = some o → o.LiesIn env a n) (hy : ∀ o, y = some o → o.LiesIn env a n) :
    (Instr.ir op d x y).Stays env a n b k where
  indirect h := hop.1 (Opcode.ir.inj h)
  moveToPtr h := hop.2 (Opcode.ir.inj h)
  sources o ho := ho.elim (hx o) (hy o)
  dst _ ho := Option.some.inj ho ▸ hd

theorem Instr.stays_unary {x : Operand} (hop : op ≠ .indirect ∧ op ≠ .moveToPtr) (hd : d.LiesIn env b k)
    (hx : x.LiesIn env a n) : (Instr.ir op d x none).Stays env a n b k :=
  stays_ir hop hd (fun _ h => Option.some.inj h ▸ hx) fun _ h => nomatch h

theorem Instr.stays_binary {x y : Operand} (hop : op ≠ .indirect ∧ op ≠ .moveToPtr) (hd : d.LiesIn env b k)
    (hx : x.LiesIn env a n) (hy : y.LiesIn env a n) : (Instr.ir op d x y).Stays env a n b k :=
  stays_ir hop hd (fun _ h => Option.some.inj h ▸ hx) fun _ h => Option.some.inj h ▸ hy

namespace Lowering

/-! ### The bytes of an eightbyte are the only ones touched -/

section

variable {mem : Operand} {start : Int64} {m : Nat} {low : Int} {chunks : List Chunk}

/-- A chunk of a part lies where the part does. -/
theorem liesIn_chunk (hmem : env.of? mem = some a) (hstart : start.toBitVec = BitVec.ofNat 64 j)
    (hc : j + (c.pos + c.bytes) ≤ n) : (mem.shifted (start + c.offset) c.type).LiesIn env a n := by
  refine Operand.LiesIn.shifted (j := j + c.pos) hmem ?_ (by rw [span_type]; omega)
  rw [Int64.toBitVec_add, toBitVec_offset, hstart, BitVec.ofNat_add]

theorem emits_loadChunk (hmem : env.of? mem = some a) (hstart : start.toBitVec = BitVec.ofNat 64 j)
    (hc : j + (c.pos + c.bytes) ≤ n) :
    EmitsFrom low (Instr.Stays env a n b k) (loadChunk mem start c) fun r => ∃ id, r = .vreg id .ulong := by
  refine emits_bind (emits_compute fun _ _ =>
    Instr.stays_unary (by decide) .vreg (liesIn_chunk hmem hstart hc)) fun r hr => ?_
  split
  · exact emits_pure hr
  · obtain ⟨id, rfl⟩ := hr
    exact emits_compute fun _ _ => Instr.stays_binary (by decide) .vreg .vreg .const

/-- Loading chunks looks at nothing outside the run that they cut up. -/
theorem emits_loadChunks (hmem : env.of? mem = some a) (hstart : start.toBitVec = BitVec.ofNat 64 j)
    (hchunks : Consecutive 0 chunks m) (hm : j + m ≤ n) :
    EmitsFrom low (Instr.Stays env a n b k) (loadChunks mem start chunks)
      fun r => ∀ o, r = some o → ∃ id, o = .vreg id .ulong := by
  refine emits_foldlM (fun o h => nomatch h) fun c hc acc hacc => ?_
  have hend := hchunks.end_le hc
  refine emits_bind (emits_loadChunk hmem hstart (by omega)) fun v hv => ?_
  cases acc with
  | none => exact emits_pure fun o ho => Option.some.inj ho ▸ hv
  | some x =>
    obtain ⟨id, rfl⟩ := hv
    obtain ⟨id', rfl⟩ := hacc x rfl
    refine emits_bind (emits_compute fun _ _ => Instr.stays_binary (by decide) .vreg .vreg .vreg)
      fun r hr => ?_
    exact emits_pure fun o ho => Option.some.inj ho ▸ hr

/-- **Loading an eightbyte looks at no byte but those that travel.** -/
theorem emits_loadEightbyte (hmem : env.of? mem = some a) (place : Place) (r : Reg)
    (hstart : win.offset.toBitVec = BitVec.ofNat 64 j) (hn : j + carried place win ≤ n) :
    EmitsFrom low (Instr.Stays env a n b k) (loadEightbyte mem place r win) fun _ => True := by
  have hgathered : ∀ (op : IrOp) (t : Ty) (m : Nat), op ≠ .indirect ∧ op ≠ .moveToPtr → j + m ≤ n →
      EmitsFrom low (Instr.Stays env a n b k) (do
        let v ← loadChunks mem win.offset (plan m)
        emit op (pseudo r t) v none
        return pseudo r t) fun _ => True := by
    intro op t m hop hm
    refine emits_bind (emits_loadChunks hmem hstart (consecutive_plan m) hm) fun v hv => ?_
    refine emits_bind (emits_emit (Instr.stays_ir hop .vreg (fun o ho => ?_) fun o ho => nomatch ho))
      fun _ _ => emits_pure trivial
    obtain ⟨id, rfl⟩ := hv o ho
    exact .vreg
  have hscalar : ∀ t : Ty, j + t.span ≤ n → EmitsFrom low (Instr.Stays env a n b k) (do
      move (pseudo r t) (mem.shifted win.offset t)
      return pseudo r t) fun _ => True := by
    intro t ht
    exact emits_bind (emits_emit (Instr.stays_unary (by decide) .vreg (.shifted hmem hstart ht)))
      fun _ _ => emits_pure trivial
  unfold loadEightbyte
  rcases carriage_cases place win with ⟨hc | hc, -, hcarried⟩ | ⟨hc, hcarried⟩ | ⟨hc, hcarried⟩ <;>
    rw [hc] <;> rw [hcarried] at hn
  · exact hgathered .movePregClass .double 8 (by decide) hn
  · exact hscalar .double hn
  · exact hscalar .single hn
  · exact hgathered .move .ulong _ (by decide) hn

/-- Storing chunks changes nothing outside the run that they cut up. -/
theorem emits_storeChunks (hmem : env.of? mem = some b) (hstart : start.toBitVec = BitVec.ofNat 64 j)
    (hk : ∀ c ∈ chunks, j + (c.pos + c.bytes) ≤ k) (id : Int) :
    EmitsFrom low (Instr.Stays env a n b k) (storeChunks mem start (.vreg id .ulong) chunks) fun _ => True := by
  induction chunks generalizing id with
  | nil => exact emits_pure trivial
  | cons c rest ih =>
    refine emits_bind (emits_emit (Instr.stays_unary (by decide)
      (liesIn_chunk hmem hstart (hk c (by simp))) .vreg)) fun _ _ => ?_
    split
    · exact emits_pure trivial
    · refine emits_bind (emits_compute fun _ _ => Instr.stays_binary (by decide) .vreg .vreg .const)
        fun r hr => ?_
      obtain ⟨id', rfl⟩ := hr
      exact ih (fun d hd => hk d (by simp [hd])) id'

/-- **Storing an eightbyte changes no byte but those that travel.** -/
theorem emits_storeEightbyte (hmem : env.of? mem = some b) (place : Place) (r : Reg)
    (hstart : win.offset.toBitVec = BitVec.ofNat 64 j) (hk : j + carried place win ≤ k) :
    EmitsFrom low (Instr.Stays env a n b k) (storeEightbyte mem place r win) fun _ => True := by
  have hchunks : ∀ {chunks : List Chunk} {m : Nat}, Consecutive 0 chunks m → j + m ≤ k →
      ∀ c ∈ chunks, j + (c.pos + c.bytes) ≤ k := by
    intro chunks m hchunks hm c hc
    have hend := hchunks.end_le hc
    omega
  unfold storeEightbyte
  rcases carriage_cases place win with ⟨hc | hc, -, hcarried⟩ | ⟨hc, hcarried⟩ | ⟨hc, hcarried⟩ <;>
    rw [hc] <;> rw [hcarried] at hk
  · have hhalves : Consecutive 0 halves 8 := ⟨rfl, rfl, rfl⟩
    refine emits_bind (emits_compute fun _ _ => Instr.stays_unary (by decide) .vreg .vreg) fun v hv => ?_
    obtain ⟨id, rfl⟩ := hv
    exact emits_storeChunks hmem hstart (hchunks hhalves hk) id
  · exact emits_emit (Instr.stays_unary (by decide) (.shifted hmem hstart hk) .vreg)
  · exact emits_emit (Instr.stays_unary (by decide) (.shifted hmem hstart hk) .vreg)
  · exact emits_storeChunks hmem hstart (hchunks (consecutive_plan _) hk) _

end

end Lowering

end Codegen
