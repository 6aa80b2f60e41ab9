/-
Reading aggregates.

An aggregate comes in up to two registers, of one file or of both, or on the stack.  From
registers it is copied eightbyte by eightbyte out of the save area, each from where its own
register was saved; it is taken from the stack as soon as one of the files has not enough left,
and then neither file moves on.
-/
import Codegen.Proofs.VarArgs

namespace Codegen

namespace Lowering

open Allocation

section

variable {env : Addresses} {list d dst : Operand} {pl : Places} {first last a b : Allocation} {w₀ w : World}
  {x : Argument} {s : Lowering} {low id : Int} {P : Instr → Prop}

/-! ### Aggregates on the stack -/

/-- A pointer, aligned for a type. -/
def pointerFor (t : Ty) (p : Operand) : Build Operand :=
  if t.align > 8 then alignPointer bytePointer p else pure p

theorem readOverflow_eq (list dst : Operand) :
    readOverflow list dst = (do
      let p ← compute .move bytePointer (list.shifted overflowField bytePointer) none
      let p ← pointerFor dst.type p
      copyFromPointer dst p dst.type.size
      let next ← compute .add bytePointer p (Operand.const (alignUp dst.type.size 8) .long)
      move (list.shifted overflowField bytePointer) next) := by
  unfold readOverflow pointerFor
  refine bind_congr fun p => ?_
  split <;> rfl

theorem emits_readOverflow (hP : Permissive low P) (hlist : Writable P list) (hdst : Writable P dst) :
    EmitsFrom low P (readOverflow list dst) fun _ => True := by
  rw [readOverflow_eq]
  refine emits_bind (emits_compute_of (hP.ops .move (by decide)) _ _ _) fun p _ => ?_
  refine emits_bind (Q := fun _ => True) ?_ fun p _ => ?_
  · unfold pointerFor
    split
    · exact emits_alignPointer hP _ _
    · exact emits_pure trivial
  · exact emits_bind (emits_copyFromPointer hP hdst _ _) fun _ _ =>
      emits_bind (emits_compute_of (hP.ops .add (by decide)) _ _ _) fun _ _ => emits_move hlist _ _ _

theorem runs_pointerFor (hr : Reader env list pl first last) (ha : a.InBounds) (hfit : a.offset.toInt + 16 ≤ 2 ^ 63)
    (hid : w.regs id = pl.base + a.offset.toBitVec) (hle : id ≤ s.fn.vregCount) (t : Ty) :
    Runs env (pointerFor t (.vreg id bytePointer)) s w fun r s' w' =>
      ∃ id', id' ≤ s'.fn.vregCount ∧ r = .vreg id' bytePointer ∧
        w'.regs id' = pl.base + (a.start t).toBitVec ∧ w'.memory = w.memory := by
  unfold pointerFor
  rcases t.max_eight_align with ⟨halign, -⟩ | ⟨halign, hmax⟩
  · rw [if_neg (Int64.not_lt.mpr halign)]
    exact runs_pure ⟨id, hle, rfl, by rw [hid, start_of_align_le ha hfit halign], rfl⟩
  · rw [if_pos (by rw [halign]; decide)]
    refine (runs_alignPointer hr ha.nonneg hfit hid).mono ?_
    rintro _ s₂ w₂ - ⟨id', -, hid', rfl, haddress, hmem, -⟩
    exact ⟨id', hid', rfl, by rw [haddress, start, hmax], hmem⟩

variable {p : BitVec 64} {c : Eightbyte} {k i used : Nat} {r : Option Operand} {overflow n n' base : Int} {w' : World}
  {cs : List Eightbyte}

theorem runs_readOverflow (hr : Reader env list pl first last)
    (hcursor : Cursor pl first last w₀ a w.memory) (hnext : Next pl first last w₀ a x)
    (hd : pl.InMemory env x d p) (hstack : OnStack a x) :
    Runs env (readOverflow list d) s w fun _ _ w' => Fetched env pl first last w₀ a x d w' := by
  have hbounds := hnext.inBounds
  have hfit : a.offset.toInt + 16 ≤ 2 ^ 63 := by
    have := hnext.fit
    unfold room at this
    omega
  have happart := hstack.apart hnext hd
  rw [readOverflow_eq, hd.type]
  refine runs_bind (runs_overflow hr hcursor) ?_
  rintro _ s₁ _ hadv₁ ⟨rfl, hfn₁, -, rfl⟩
  have hcount₁ : s₁.fn.vregCount = s.fn.vregCount + 1 := by rw [hfn₁]
  refine runs_bind (runs_pointerFor hr hbounds hfit (World.regs_set_self _ _ _)
    (Int.le_of_eq hcount₁.symm) x.type) ?_
  rintro _ s₂ w₂ hadv₂ ⟨id, hid, rfl, haddress, hmem₂⟩
  rw [← haddress] at happart
  refine runs_bind (runs_copyFromPointer hd.address hid happart)
    fun _ s₃ w₃ hadv₃ ⟨hmem₃, hagrees₃, hcount₃⟩ => ?_
  rw [haddress, hmem₂] at hmem₃
  refine (runs_advanceOverflow hr).mono fun _ _ w₄ _ ⟨hagrees₄, hmem₄⟩ => ?_
  refine hr.fetched_overflow hcursor (hd.delivered hmem₃ (hstack.bytes hnext hcursor.sources))
    hstack.taken hagrees₄ ?_
  rw [hmem₄, hagrees₃ id hid, haddress, hstack.offset, Int64.toBitVec_add, ← BitVec.add_assoc]

/-! ### Aggregates in registers -/

/-- How far one has read in the class's file. -/
def Cursors.read (cursors : Cursors) (c : Eightbyte) : Option Operand :=
  match c with
  | .sse => cursors.sse
  | _ => cursors.int

/-- The count that belongs to the class's file. -/
def countOf (c : Eightbyte) (ints sses : Nat) : Nat :=
  match c with
  | .sse => sses
  | _ => ints

theorem countOf_add (c e : Eightbyte) (ints sses : Nat) :
    countOf c (ints + Eightbyte.integer.inFile [e]) (sses + Eightbyte.sse.inFile [e])
      = countOf c ints sses + c.inFile [e] := by cases c <;> rfl

/-- The address of a register further on in a file. -/
def furtherOn (f : SavedFile) (used : Nat) (address : Operand) : Build Operand :=
  if used = 0 then pure address
  else compute .add bytePointer address (Operand.const (Int64.ofNat used * f.step) .long)

theorem furtherOn_bind (f : SavedFile) (used : Nat) (address : Operand) (k : Operand → Build Unit) :
    furtherOn f used address >>= k = if used = 0 then pure address >>= k
      else compute .add bytePointer address (Operand.const (Int64.ofNat used * f.step) .long) >>= k := by
  unfold furtherOn
  split <;> rfl

/-- Copy the `i`-th eightbyte from where its register was saved. -/
def copyEightbyte (dst base : Operand) (read : Option Operand) (f : SavedFile) (i used : Nat) :
    Build Unit := do
  let address ← savedAddress .char base read
  let address ← furtherOn f used address
  copyFromPointer (dst.shifted (Int64.ofNat i * 8) dst.type) address
    (min (dst.type.size - Int64.ofNat i * 8) 8)

theorem copySaved_cons (dst base : Operand) (cursors : Cursors) (i ints sses : Nat) (c : Eightbyte)
    (rest : List Eightbyte) :
    copySaved dst base cursors i ints sses (c :: rest) = (do
      copyEightbyte dst base (cursors.read c) (fileOf c) i (countOf c ints sses)
      copySaved dst base cursors (i + 1) (ints + Eightbyte.integer.inFile [c])
        (sses + Eightbyte.sse.inFile [c]) rest) := by
  cases c <;>
  · simp only [copyEightbyte, bind_assoc]
    simp only [furtherOn_bind]
    rfl

theorem emits_copySaved (hP : Permissive low P) (hdst : Writable P dst) (base : Operand) (cursors : Cursors)
    (i ints sses : Nat) (classes : List Eightbyte) :
    EmitsFrom low P (copySaved dst base cursors i ints sses classes) fun _ => True := by
  induction classes generalizing i ints sses with
  | nil => exact emits_pure trivial
  | cons c rest ih =>
    rw [copySaved_cons]
    refine emits_bind (Q := fun _ => True) ?_ fun _ _ => ih _ _ _
    refine emits_bind (emits_savedAddress hP _ _ _) fun _ _ => emits_bind (Q := fun _ => True) ?_ fun _ _ =>
      emits_copyFromPointer hP (show Writable P (dst.shifted _ _) from hdst) _ _
    unfold furtherOn
    split
    · exact emits_pure trivial
    · exact emits_compute_of (hP.ops .add (by decide)) _ _ _

theorem runs_furtherOn (hid : w.regs id = pl.area + BitVec.ofNat 64 (savedAt c k)) (hle : id ≤ s.fn.vregCount) :
    Runs env (furtherOn (fileOf c) used (.vreg id bytePointer)) s w fun r s' w' =>
      ∃ id', id' ≤ s'.fn.vregCount ∧ r = .vreg id' bytePointer ∧
        w'.regs id' = pl.area + BitVec.ofNat 64 (savedAt c (k + used)) ∧ w'.memory = w.memory ∧
        w.Agrees s.fn.vregCount w' := by
  unfold furtherOn
  by_cases hused : used = 0
  · rw [hused]
    exact runs_pure ⟨id, hle, rfl, hid, rfl, .refl _ _⟩
  · rw [if_neg hused]
    refine (runs_compute_binary .add (by simp) (World.value?_vreg id (by simp))
      (World.value?_const _ (by decide)) rfl).mono ?_
    rintro _ s₁ _ - ⟨rfl, hfn, -, rfl⟩
    refine ⟨s.fn.vregCount + 1, Int.le_of_eq (by rw [hfn]), rfl, ?_, rfl,
      (World.Agrees.refl _ _).set (by omega) _⟩
    have hstep : (Int64.ofNat used * (fileOf c).step).toBitVec
        = BitVec.ofNat 64 (used * (fileOf c).step.toInt.toNat) := by
      rw [BitVec.ofNat_mul]
      cases c <;> rfl
    rw [World.regs_set_self, hid, Ty.fit_long, hstep, savedAt_add]
    exact (BitVec.add_assoc _ _ _).trans (congrArg _ (BitVec.ofNat_add _ _).symm)

/-- One eightbyte is copied from where its register was saved. -/
theorem runs_copyEightbyte {read : Int} (hd : pl.InMemory env x d p) (hbase : w.regs base = pl.area)
    (hread : w.regs read = BitVec.ofNat 64 (savedAt c k)) (hk : k + used < c.capacity) (hle : base ≤ s.fn.vregCount)
    (hi : 8 * i < x.size) :
    Runs env (copyEightbyte d (.vreg base bytePointer) (some (.vreg read .uint)) (fileOf c) i used)
      s w fun _ s' w' =>
        w'.memory = w.memory.copy (p + BitVec.ofNat 64 (8 * i))
          (pl.area + BitVec.ofNat 64 (savedAt c (k + used))) (min (x.size - 8 * i) 8) ∧
        w.Agrees s.fn.vregCount w' ∧ s.fn.vregCount ≤ s'.fn.vregCount := by
  have hwindow : (min (d.type.size - Int64.ofNat i * 8) 8).toInt.toNat = min (x.size - 8 * i) 8 := by
    rw [hd.type]
    exact (toNat_window [] hi).2
  have hsaved := savedAt_lt hk
  have happart : Memory.Apart (p + BitVec.ofNat 64 (8 * i)) (min (x.size - 8 * i) 8)
      (pl.area + BitVec.ofNat 64 (savedAt c (k + used))) (min (x.size - 8 * i) 8) :=
    hd.area.parts (by omega) (by rw [areaBytes]; omega)
  have hdst : env.of? (d.shifted (Int64.ofNat i * 8) d.type) = some (p + BitVec.ofNat 64 (8 * i)) := by
    rw [Addresses.of?_shifted hd.address, toBitVec_eight_mul]
  refine runs_bind (runs_savedAddress hbase hread (by omega) hle) ?_
  rintro _ s₁ w₁ - ⟨rfl, hcount₁, hmem₁, hagrees₁, haddress₁⟩
  refine runs_bind (runs_furtherOn haddress₁ (Int.le_of_eq hcount₁.symm)) ?_
  rintro _ s₂ w₂ hadv₂ ⟨id, hid, rfl, haddress₂, hmem₂, hagrees₂⟩
  rw [← haddress₂, ← hwindow] at happart
  refine (runs_copyFromPointer hdst hid happart).mono fun _ s₃ w₃ hadv₃ h₃ => ?_
  obtain ⟨hmem₃, hagrees₃, hcount₃⟩ := h₃
  have hvregs₂ := hadv₂.vregs
  refine ⟨?_, ?_, by omega⟩
  · rw [hmem₃, haddress₂, hmem₂, hmem₁, hwindow]
  · exact (hagrees₁.trans (hagrees₂.mono (by omega))).trans (hagrees₃.mono (by omega))

/-- The bytes of the argument from the `i`-th eightbyte on are in its destination, and nothing else has
changed. -/
structure Gathered (x : Argument) (p : BitVec 64) (i : Nat) (n : Int) (w w' : World) : Prop where
  bytes : ∀ j, 8 * i ≤ j → j < x.size → w'.memory (p + BitVec.ofNat 64 j) = x.byte j
  before : ∀ j, j < 8 * i → j < x.size → w'.memory (p + BitVec.ofNat 64 j)
    = w.memory (p + BitVec.ofNat 64 j)
  confined : w.Confined n p x.size w'

/-- The eightbytes are copied one after another, each from its own register. -/
theorem runs_copySaved {cursors : Cursors} {members : List Nat} (hr : Reader env list pl first last)
    (hd : pl.InMemory env x d p) (cs : List Eightbyte) :
    ∀ (i ints sses : Nat) (b : Allocation) (s : Lowering) (w : World), w.regs base = pl.area →
      base ≤ s.fn.vregCount →
      (∀ c ∈ cs, ∃ id ≤ s.fn.vregCount, cursors.read c = some (.vreg id .uint) ∧
        w.regs id = BitVec.ofNat 64 (savedAt c (a.taken c))) →
      (∀ c, b.taken c = a.taken c + countOf c ints sses) → b.Fits cs →
      (∀ c, first.taken c ≤ b.taken c) → (∀ c, b.taken c + c.inFile cs ≤ last.taken c) →
      Sources pl first last w₀ w.memory →
      (∀ l ∈ seats x.type.size members i cs b, x.At w₀ pl.base l) →
      (∀ j, j < i + cs.length ↔ 8 * j < x.size) →
      Runs env (copySaved d (.vreg base bytePointer) cursors i ints sses cs) s w fun _ _ w' =>
        Gathered x p i s.fn.vregCount w w' := by
  have hsize : x.size < 2 ^ 64 := by
    have := x.type.size.toInt_lt
    unfold Argument.size
    omega
  induction cs with
  | nil =>
    intro i ints sses b s w _ _ _ _ _ _ _ _ _ hcount
    have hend : x.size ≤ 8 * i := Nat.not_lt.mp fun h => absurd ((hcount i).mpr h) (by simp)
    exact runs_pure ⟨fun j hj hlt => absurd hlt (by omega), fun _ _ _ => rfl, .refl _ _ _ _⟩
  | cons c cs ih =>
    intro i ints sses b s w hbase hle hread htaken hfits hfirst hlast hsources hat hcount
    obtain ⟨id, hid, hcursor, hid'⟩ := hread c (by simp)
    have hpart : 8 * i < x.size := (hcount i).mp (by simp)
    have hfree : b.taken c < c.capacity := by
      have := hfits c
      rw [Eightbyte.inFile_cons, Eightbyte.inFile_singleton_self] at this
      omega
    have hself := htaken c
    rw [copySaved_cons, hcursor]
    refine runs_bind (runs_copyEightbyte hd hbase hid' (by omega) hle hpart) ?_
    rintro _ s₁ w₁ - ⟨hmem, hagrees, hcount₁⟩
    rw [← hself] at hmem
    -- only bytes of the destination have changed
    have hother : ∀ q, ¬ Memory.Within (p + BitVec.ofNat 64 (8 * i)) (min (x.size - 8 * i) 8) q →
        w₁.memory q = w.memory q := fun q hq => by rw [hmem, Memory.copy_of_not_within _ hq]
    have hconfined : w.Confined s.fn.vregCount p x.size w₁ :=
      ⟨hagrees, fun q hq => hother q fun h => hq (h.of_part (by omega))⟩
    have hsources₁ : Sources pl first last w₀ w₁.memory :=
      hsources.congr hr.last_le hr.size fun q hq => hconfined.memory q (hd.not_within hq)
    have hfirst₁ : ∀ e, first.taken e ≤ (b.take c).taken e := fun e => by
      rw [taken_take]
      exact Nat.le_trans (hfirst e) (Nat.le_add_right _ _)
    have hlast₁ : ∀ e, (b.take c).taken e + e.inFile cs ≤ last.taken e := fun e => by
      rw [taken_take, Nat.add_assoc, ← Eightbyte.inFile_cons]
      exact hlast e
    have htaken₁ : ∀ e, (b.take c).taken e = a.taken e
        + countOf e (ints + Eightbyte.integer.inFile [c]) (sses + Eightbyte.sse.inFile [c]) := fun e => by
      rw [taken_take, htaken e, countOf_add, Nat.add_assoc]
    refine (ih (i + 1) _ _ (b.take c) s₁ w₁ ((hagrees base hle).trans hbase) (Int.le_trans hle hcount₁)
      (fun e he => ?_) htaken₁ (fits_cons.mp hfits) hfirst₁ hlast₁ hsources₁
      (fun l hl => hat l (List.mem_cons_of_mem _ hl)) fun j => ?_).mono fun _ _ w₂ _ g => ?_
    · obtain ⟨id, hid, hcursor, hid'⟩ := hread e (List.mem_cons_of_mem _ he)
      exact ⟨id, Int.le_trans hid hcount₁, hcursor, (hagrees id hid).trans hid'⟩
    · rw [← hcount j, List.length_cons]
      omega
    · refine ⟨fun j hj hlt => ?_, fun j hj hlt => ?_, hconfined.trans (g.confined.mono hcount₁)⟩
      · by_cases hnext : 8 * (i + 1) ≤ j
        · exact g.bytes j hnext hlt
        · -- a byte of this eightbyte
          obtain ⟨k, rfl⟩ : ∃ k, j = 8 * i + k := ⟨j - 8 * i, by omega⟩
          have hseat := hat _ (by rw [seats]; exact List.mem_cons_self)
          obtain ⟨hoffset, hwindow⟩ := toNat_window members hpart
          have hlast := hlast c
          rw [Eightbyte.inFile_cons, Eightbyte.inFile_singleton_self] at hlast
          rw [g.before _ (by omega) hlt, hmem, BitVec.ofNat_add, ← BitVec.add_assoc,
            Memory.copy_apply _ _ _ (by omega) (by omega),
            hsources.register c _ (hfirst c) (by omega) k (by omega), ← hoffset]
          have hk : k < min (x.type.size.toInt.toNat - 8 * i) 8 := by
            unfold Argument.size at hlt
            omega
          rw [← hwindow] at hk
          cases c <;> exact hseat k hk
      · rw [g.before j (by omega) hlt]
        exact hother _ (Memory.apart_add p (by omega) _ (Memory.within_add p hj (by omega)))

/-! ### Both files -/

theorem readSaved_eq (list dst : Operand) (cs : List Eightbyte) (overflow : Int) :
    readSaved list dst cs overflow = (do
      let intRead ← checkFile list (fileOf .integer) (Eightbyte.integer.inFile cs) overflow
      let sseRead ← checkFile list (fileOf .sse) (Eightbyte.sse.inFile cs) overflow
      let base ← compute .move bytePointer (list.shifted saveAreaField bytePointer) none
      copySaved dst base ⟨intRead, sseRead⟩ 0 0 0 cs
      advanceFile list (fileOf .integer) (Eightbyte.integer.inFile cs) intRead
      advanceFile list (fileOf .sse) (Eightbyte.sse.inFile cs) sseRead) := rfl

section

variable (hP : Permissive low P)

include hP

theorem emits_checkFile (list : Operand) (f : SavedFile) (count : Nat) (overflow : Int) :
    EmitsFrom low P (checkFile list f count overflow) fun _ => True := by
  unfold checkFile
  split
  · exact emits_pure trivial
  · exact emits_bind (emits_checkSaved hP _ _ _ _) fun _ _ => emits_pure trivial

variable (hlist : Writable P list) (hdst : Writable P dst)

include hlist hdst

theorem emits_afterChecks (cs : List Eightbyte) (intRead sseRead : Option Operand) :
    EmitsFrom low P (do
      let base ← compute .move bytePointer (list.shifted saveAreaField bytePointer) none
      copySaved dst base ⟨intRead, sseRead⟩ 0 0 0 cs
      advanceFile list (fileOf .integer) (Eightbyte.integer.inFile cs) intRead
      advanceFile list (fileOf .sse) (Eightbyte.sse.inFile cs) sseRead) fun _ => True := by
  have hadvance : ∀ f count read, EmitsFrom low P (advanceFile list f count read) fun _ => True := by
    intro f count read
    cases read with
    | none => exact emits_pure trivial
    | some o => exact emits_advanceSaved hP hlist _ _ _
  refine emits_bind (emits_compute_of (hP.ops .move (by decide)) _ _ _) fun _ _ => ?_
  refine emits_bind (emits_copySaved hP hdst _ _ _ _ _ _) fun _ _ => ?_
  exact emits_bind (hadvance _ _ _) fun _ _ => hadvance _ _ _

theorem emits_readSaved (cs : List Eightbyte) (overflow : Int) :
    EmitsFrom low P (readSaved list dst cs overflow) fun _ => True := by
  exact emits_bind (emits_checkFile hP _ _ _ _) fun _ _ => emits_bind (emits_checkFile hP _ _ _ _) fun _ _ =>
    emits_afterChecks hP hlist hdst _ _ _

end

/-- The operand holds how far one has read, if it is needed. -/
def ReadSoFar (n : Int) (k i : Nat) (r : Option Operand) (w : World) : Prop :=
  if k = 0 then r = none
  else ∃ id ≤ n, r = some (.vreg id .uint) ∧ w.regs id = BitVec.ofNat 64 i

theorem ReadSoFar.exists_vreg (h : ReadSoFar n k i r w) (hk : k ≠ 0) :
    ∃ id ≤ n, r = some (.vreg id .uint) ∧ w.regs id = BitVec.ofNat 64 i := by
  rwa [ReadSoFar, if_neg hk] at h

theorem ReadSoFar.agrees (h : ReadSoFar n k i r w) (hw : w.Agrees n w') (hn : n ≤ n') :
    ReadSoFar n' k i r w' := by
  unfold ReadSoFar at h ⊢
  split
  · next hk => rwa [if_pos hk] at h
  · next hk =>
    rw [if_neg hk] at h
    obtain ⟨id, hid, hr, hvalue⟩ := h
    exact ⟨id, Int.le_trans hid hn, hr, (hw id hid).trans hvalue⟩

theorem runs_checkFile (hr : Reader env list pl first last) (hrecord : Record pl a w.memory) (hk : k ≤ 2)
    (hfits : a.taken c + k ≤ c.capacity) :
    Runs env (checkFile list (fileOf c) k overflow) s w fun r s' w' =>
      ReadSoFar s'.fn.vregCount k (savedAt c (a.taken c)) r w' ∧ w'.memory = w.memory ∧
        w.Agrees s.fn.vregCount w' := by
  unfold checkFile ReadSoFar
  by_cases hzero : k = 0
  · simp only [if_pos hzero]
    exact runs_pure ⟨rfl, rfl, .refl _ _⟩
  · simp only [if_neg hzero]
    refine runs_bind (runs_checkSaved hr.list hrecord (by omega) hfits) fun r s₁ w₁ _ h => ?_
    obtain ⟨id, -, hid, rfl, hvalue⟩ := h.operand
    exact runs_pure ⟨⟨id, hid, rfl, hvalue⟩, h.memory, h.regs⟩

theorem escapes_checkFile (hr : Reader env list pl first last) (hrecord : Record pl a w.memory) (hk : k ≤ 2)
    (hle : a.taken c ≤ c.capacity) (hfull : ¬ a.taken c + k ≤ c.capacity) :
    Escapes env (checkFile list (fileOf c) k overflow) s w overflow fun w' => w'.memory = w.memory := by
  unfold checkFile
  rw [if_neg (by omega)]
  exact escapes_bind_left (escapes_checkSaved hr.list hrecord hle (by omega) hfull) fun _ =>
    appends_of fun _ => emits_pure trivial

theorem runs_advanceFile (hr : Reader env list pl first last) (hrecord : Record pl a w.memory) (hk : k ≤ 2)
    (hread : ReadSoFar s.fn.vregCount k (savedAt c (a.taken c)) r w) (hfits : a.taken c + k ≤ c.capacity)
    (hself : b.taken c = a.taken c + k) (hother : ∀ e, fieldAt e ≠ fieldAt c → b.taken e = a.taken e)
    (hoffset : b.offset = a.offset) :
    Runs env (advanceFile list (fileOf c) k r) s w fun _ _ w' =>
      Record pl b w'.memory ∧ OnlyRecord pl w.memory w'.memory ∧ w.Agrees s.fn.vregCount w' := by
  unfold ReadSoFar at hread
  by_cases hzero : k = 0
  · rw [if_pos hzero] at hread
    subst hread hzero
    have htaken : ∀ e, b.taken e = a.taken e := fun e => by
      by_cases he : fieldAt e = fieldAt c
      · revert he hself
        cases c <;> cases e <;> first | (intro _ h; exact absurd h (by decide)) | (intro h _; exact h)
      · exact hother e he
    exact runs_pure ⟨⟨fun e => by rw [htaken e]; exact hrecord.read e,
      by rw [hoffset]; exact hrecord.overflow, hrecord.save⟩, fun _ _ => rfl, .refl _ _⟩
  · rw [if_neg hzero] at hread
    obtain ⟨id, hid, rfl, hvalue⟩ := hread
    refine (runs_advanceSaved hr.list (by omega) hvalue hfits).mono ?_
    rintro _ s₁ w₁ - ⟨hmem, hagrees, -⟩
    rw [← hself] at hmem
    rw [hmem]
    exact ⟨hrecord.store_read c hoffset (by omega) hother, onlyRecord_store _ (by cases c <;> decide) _,
      hagrees⟩

theorem runs_readSaved (hr : Reader env list pl first last) (hcursor : Cursor pl first last w₀ a w.memory)
    (hnext : Next pl first last w₀ a x) (hd : pl.InMemory env x d p) (hagg : x.type.isAggregate = true)
    (hcs : Eightbyte.classify x.type = some cs) (hfits : a.Fits cs)
    (hlocations : (a.add x.type).1.locations = a.registers x.type cs)
    (htaken : ∀ c, (a.add x.type).2.taken c = a.taken c + c.inFile cs) (hoffset : (a.add x.type).2.offset = a.offset) :
    Runs env (readSaved list d cs overflow) s w fun _ _ w' => Fetched env pl first last w₀ a x d w' := by
  obtain ⟨hlength, hpos, hle⟩ := Eightbyte.length_of_classify hcs hnext.size_nonneg
  have hfew : ∀ c : Eightbyte, c.inFile cs ≤ 2 := fun c =>
    Nat.le_trans (c.inFile_le_length cs) (by omega)
  rw [readSaved_eq]
  -- enough registers of both files are left
  refine runs_bind (runs_checkFile hr hcursor.record (hfew _) (hfits _)) ?_
  rintro intRead s₁ w₁ - ⟨hint, hmem₁, hagrees₁⟩
  rw [← hmem₁] at hcursor
  refine runs_bind (runs_checkFile hr hcursor.record (hfew _) (hfits _)) ?_
  rintro sseRead s₂ w₂ hadv₂ ⟨hsse, hmem₂, hagrees₂⟩
  rw [← hmem₂] at hcursor
  have hint := hint.agrees hagrees₂ hadv₂.vregs
  have hbase : w₂.value? env (list.shifted saveAreaField bytePointer) = some pl.area := by
    rw [World.value?_shifted hr.list _ (by simp)]
    exact congrArg some hcursor.record.save
  refine runs_bind (runs_compute_move (by simp) hbase) ?_
  rintro _ s₃ _ hadv₃ ⟨rfl, hfn₃, -, rfl⟩
  have hcount₃ : s₃.fn.vregCount = s₂.fn.vregCount + 1 := by rw [hfn₃]
  have hagrees₃ : w₂.Agrees s₂.fn.vregCount (w₂.set (s₂.fn.vregCount + 1) pl.area) :=
    (World.Agrees.refl _ _).set (by omega) _
  have hint := hint.agrees hagrees₃ hadv₃.vregs
  have hsse := hsse.agrees hagrees₃ hadv₃.vregs
  -- the eightbytes
  have hread : ∀ c ∈ cs, ∃ id ≤ s₃.fn.vregCount,
      (Cursors.mk intRead sseRead).read c = some (.vreg id .uint) ∧
        (w₂.set (s₂.fn.vregCount + 1) pl.area).regs id = BitVec.ofNat 64 (savedAt c (a.taken c)) := by
    intro c hc
    have hne : c.inFile cs ≠ 0 := Eightbyte.inFile_ne_zero hc
    cases c with
    | sse => exact hsse.exists_vreg hne
    | _ => exact hint.exists_vreg hne
  have hat : ∀ l ∈ seats x.type.size (Eightbyte.memberCounts x.type) 0 cs a,
      x.At w₀ pl.base l := by
    intro l hl
    refine hnext.at_location l ?_
    rw [hlocations, registers, if_pos hagg]
    exact hl
  refine runs_bind (runs_copySaved hr hd cs 0 0 0 a s₃ _ (World.regs_set_self _ _ _)
    (Int.le_of_eq hcount₃.symm) hread (fun c => by cases c <;> rfl) hfits hnext.first_le
    (fun c => by rw [← htaken c]; exact hnext.le_last c) hcursor.sources hat
    fun j => by unfold Argument.size; omega) fun _ s₄ w₄ hadv₄ g => ?_
  have hint := hint.agrees g.confined.regs hadv₄.vregs
  have hsse := hsse.agrees g.confined.regs hadv₄.vregs
  have hrecord₄ : Record pl a w₄.memory :=
    hcursor.record.congr w₄.memory fun q hq => g.confined.memory q fun h => hd.list q h hq
  -- the record moves on, in one file after the other
  refine runs_bind (runs_advanceFile (b := { a with intRegs := a.intRegs + Eightbyte.integer.inFile cs })
    hr hrecord₄ (hfew _) hint (hfits _) rfl (fun e he => ?_) rfl) fun _ s₅ w₅ hadv₅ h₅ => ?_
  · cases e <;> first | rfl | exact absurd rfl he
  obtain ⟨hrecord₅, honly₅, hagrees₅⟩ := h₅
  refine (runs_advanceFile hr hrecord₅ (hfew .sse) (hsse.agrees hagrees₅ hadv₅.vregs) (hfits .sse)
    (htaken .sse) (fun e he => ?_) hoffset).mono fun _ s₆ w₆ _ h₆ => ?_
  · rw [htaken e]
    cases e <;> first | rfl | exact absurd rfl he
  obtain ⟨hrecord₆, honly₆, -⟩ := h₆
  have honly : OnlyRecord pl w₄.memory w₆.memory := fun q hq => (honly₆ q hq).trans (honly₅ q hq)
  refine ⟨⟨hrecord₆, hr.sources hcursor.sources w₄.memory
    (fun q hq => g.confined.memory q (hd.not_within hq)) honly⟩, hd.holds fun j hj => ?_⟩
  have hsize : x.size ≤ 16 := by unfold Argument.size; omega
  rw [honly _ fun h => hd.list _ (Memory.within_add p hj (by omega)) h]
  exact g.bytes j (Nat.zero_le _) hj

/-- One of the files has not enough registers left. -/
theorem escapes_readSaved (hr : Reader env list pl first last) (hrecord : Record pl a w.memory)
    (ha : a.InBounds) (hfew : cs.length ≤ 2) (hfull : ¬ a.Fits cs) :
    Escapes env (readSaved list d cs overflow) s w overflow fun w' => w'.memory = w.memory := by
  have hfew : ∀ c : Eightbyte, c.inFile cs ≤ 2 := fun c => Nat.le_trans (c.inFile_le_length cs) hfew
  rw [readSaved_eq]
  by_cases hint : a.taken .integer + Eightbyte.integer.inFile cs ≤ Eightbyte.integer.capacity
  · have hsse : ¬ a.taken .sse + Eightbyte.sse.inFile cs ≤ Eightbyte.sse.capacity := fun hsse =>
      hfull fun c => by cases c <;> first | exact hint | exact hsse
    refine escapes_bind_right (runs_checkFile hr hrecord (hfew _) hint) (fun _ => appends_of fun low => ?_) ?_
    · exact emits_bind (emits_checkFile (permissive_unlabelled low) _ _ _ _) fun _ _ =>
        emits_afterChecks (permissive_unlabelled low) (writable_unlabelled _) (writable_unlabelled _) _ _ _
    rintro intRead s₁ w₁ - ⟨-, hmem₁, -⟩
    rw [← hmem₁] at hrecord ⊢
    exact escapes_bind_left (escapes_checkFile hr hrecord (hfew _) (ha.taken_le _) hsse) fun _ => appends_of
      fun low => emits_afterChecks (permissive_unlabelled low) (writable_unlabelled _) (writable_unlabelled _) _ _ _
  · refine escapes_bind_left (escapes_checkFile hr hrecord (hfew _) (ha.taken_le _) hint) fun _ =>
      appends_of fun low => emits_bind (emits_checkFile (permissive_unlabelled low) _ _ _ _) fun _ _ => ?_
    exact emits_afterChecks (permissive_unlabelled low) (writable_unlabelled _) (writable_unlabelled _) _ _ _

/-- Read an aggregate: from registers of the classes given, or else from the stack. -/
def fetchAggregate (list dst : Operand) : Option (List Eightbyte) → Build Unit
  | none => readOverflow list dst
  | some cs => orElse (readSaved list dst cs) (readOverflow list dst)

theorem emits_fetchAggregate (hP : Permissive low P) (hlist : Writable P list) (hdst : Writable P dst)
    (htarget : ∀ n, P (.target n)) (classes : Option (List Eightbyte)) :
    EmitsFrom low P (fetchAggregate list dst classes) fun _ => True := by
  cases classes with
  | none => exact emits_readOverflow hP hlist hdst
  | some cs => exact emits_orElse hP htarget (emits_readSaved hP hlist hdst cs) (emits_readOverflow hP hlist hdst)

/-- **Reading an aggregate gives the argument passed next.** -/
theorem runs_fetchAggregate (hs : s.Numbered 2) (hr : Reader env list pl first last)
    (hcursor : Cursor pl first last w₀ a w.memory) (hnext : Next pl first last w₀ a x)
    (hd : pl.InMemory env x d p) (hagg : x.type.isAggregate = true) (hpos : 0 < x.type.size.toInt) :
    RunsWith env 2 (fetchAggregate list d (Eightbyte.classify x.type)) s w fun _ _ w' =>
      Fetched env pl first last w₀ a x d w' := by
  have hbounds := hnext.inBounds
  have hwanted : wanted x.type = Eightbyte.classify x.type := if_pos hagg
  have hnonempty : x.type.size ≠ 0 := fun h => by rw [h] at hpos; exact absurd hpos (by decide)
  have hsaved : ∀ cs n, Appends (readSaved list d cs n) := fun _ _ => appends_of fun low =>
    emits_readSaved (permissive_unlabelled low) (writable_unlabelled _) (writable_unlabelled _) _ _
  have hoverflow : Appends (readOverflow list d) := appends_of fun low =>
    emits_readOverflow (permissive_unlabelled low) (writable_unlabelled _) (writable_unlabelled _)
  rcases add_cases hbounds x.type with
    ⟨cs, hcs, hfits, hlocations, htaken, hoffset⟩ | ⟨hfull, htaken, hplace⟩
  · rw [hwanted] at hcs
    rw [hcs]
    exact runs_orElse_main hs (hsaved cs) hoverflow
      (runs_readSaved hr hcursor hnext hd hagg hcs hfits hlocations htaken hoffset)
  · obtain ⟨-, hempty, -⟩ | ⟨-, hlocations, hoffset⟩ := hplace
    · exact absurd hempty hnonempty
    have hstack : OnStack a x := ⟨htaken, hlocations, hoffset⟩
    rw [hwanted] at hfull
    cases hcs : Eightbyte.classify x.type with
    | none => exact (runs_readOverflow hr hcursor hnext hd hstack).weaken (Nat.zero_le _)
    | some cs =>
      obtain ⟨hlength, -, hle⟩ := Eightbyte.length_of_classify hcs hnext.size_nonneg
      refine runs_orElse_other hs (hsaved cs) hoverflow
        (escapes_readSaved hr hcursor.record hbounds (by omega) (hfull cs hcs)) fun s' w' _ hmem => ?_
      exact runs_readOverflow hr (by rw [hmem]; exact hcursor) hnext hd hstack

end

end Lowering

end Codegen
