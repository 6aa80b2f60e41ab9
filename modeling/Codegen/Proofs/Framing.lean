/-
Entering and leaving a frame.

The code around the body of a function is executed on the physical registers and on memory, each
instruction by what its template says.  The prologue leaves the caller's frame base where the new one
points and the callee-saved registers below the reserved bytes, the first one pushed at the highest
address: `Stacked`.  The epilogue finds both again through the frame base alone, so the body may have
moved the stack pointer anywhere.

The reserved bytes are counted in 64 bits.  A frame whose count overflowed to a negative number
reserves nothing and still looks for the pushed registers that far away, above the frame base.
-/
import Codegen.Proofs.Labels
import Codegen.Proofs.Memory
import Mathlib.Tactic.IntervalCases

namespace Codegen

open Memory

/-- The contents of the physical registers and of memory. -/
@[ext] structure Processor where
  regs : Reg → BitVec 64
  memory : Memory

namespace Processor

/-! ### Executing the code of a frame -/

/-- What an instruction of a prologue or an epilogue does. -/
inductive Verb
  | push
  | pop
  | move
  | subtract
  /-- The target becomes an address at a distance from the frame base. -/
  | address
  | leave
  deriving DecidableEq

/-- The templates of these instructions. -/
def verbs : List (String × Verb) :=
  [("pushq\t%v1q", .push), ("popq\t%vdq", .pop), ("movq\t%v1q, %vdq", .move),
    ("subq\t$%v1q, %vdq", .subtract), ("leaq\t%v1(%%rbp), %vdq", .address), ("leave", .leave)]

/-- What a template says. -/
def verb? (t : Template) : Option Verb :=
  (verbs.find? fun d => Template.ofString d.1 == t).map (·.2)

variable (σ : Processor)

/-- Write a register. -/
def set (r : Reg) (x : BitVec 64) : Processor := { σ with regs := Function.update σ.regs r x }

/-- Put a word on the stack. -/
def push (x : BitVec 64) : Processor :=
  { (σ.set .rsp (σ.regs .rsp - 8#64)) with memory := σ.memory.store (σ.regs .rsp - 8#64) 8 x }

/-- Take a word off the stack. -/
def pop (r : Reg) : Processor :=
  (σ.set .rsp (σ.regs .rsp + 8#64)).set r (σ.memory.load (σ.regs .rsp) 8)

/-- Execute an instruction. -/
def step? (i : Instr) : Option Processor :=
  match verb? i.template, i.dst.map Operand.value, i.src1.map Operand.value with
  | some .push, _, some (.preg r) => some (σ.push (σ.regs r))
  | some .pop, some (.preg r), _ => some (σ.pop r)
  | some .move, some (.preg d), some (.preg s) => some (σ.set d (σ.regs s))
  | some .subtract, some (.preg d), some (.const n) => some (σ.set d (σ.regs d - n.toBitVec))
  | some .address, some (.preg d), some (.const n) => some (σ.set d (σ.regs .rbp + n.toBitVec))
  | some .leave, _, _ => some ((σ.set .rsp (σ.regs .rbp)).pop .rbp)
  | _, _, _ => none

/-- Execute instructions one by one. -/
def run? (code : List Instr) : Option Processor := code.foldlM step? σ

variable {σ}

@[simp] theorem memory_set (r : Reg) (x : BitVec 64) : (σ.set r x).memory = σ.memory := rfl
@[simp] theorem regs_set (σ : Processor) (r : Reg) (x : BitVec 64) : (σ.set r x).regs r = x := by simp [set]
@[simp] theorem regs_pop (r : Reg) : (σ.pop r).regs r = σ.memory.load (σ.regs .rsp) 8 := by simp [pop]

variable {q r : Reg} {a : BitVec 64} {m m' : Memory} {rs : List Reg} {value value' : Reg → BitVec 64} {σ' : Processor}
  {i : Instr} {code : List Instr}

theorem regs_set_of_ne (h : q ≠ r) (x : BitVec 64) : (σ.set r x).regs q = σ.regs q :=
  Function.update_of_ne h _ _

theorem regs_pop_of_ne (h : q ≠ r) (hsp : q ≠ .rsp) : (σ.pop r).regs q = σ.regs q := by
  rw [pop, regs_set_of_ne h, regs_set_of_ne hsp]

theorem regs_push_of_ne (h : q ≠ .rsp) (x : BitVec 64) : (σ.push x).regs q = σ.regs q :=
  regs_set_of_ne h _

@[simp] theorem rsp_push (x : BitVec 64) : (σ.push x).regs .rsp = σ.regs .rsp - 8#64 :=
  σ.regs_set .rsp _

theorem rsp_pop (h : r ≠ .rsp) : (σ.pop r).regs .rsp = σ.regs .rsp + 8#64 := by
  rw [pop, regs_set_of_ne h.symm, regs_set]

theorem run?_cons (h : σ.step? i = some σ') (code : List Instr) : σ.run? (i :: code) = σ'.run? code := by
  rw [run?, List.foldlM_cons, h]
  rfl

theorem run?_append (h : σ.run? code = some σ') (more : List Instr) :
    σ.run? (code ++ more) = σ'.run? more := by
  rw [run?, List.foldlM_append, show code.foldlM step? σ = some σ' from h]
  rfl

theorem step?_push (r : Reg) : σ.step? (Frame.push r) = some (σ.push (σ.regs r)) := rfl

theorem step?_pop (r : Reg) : σ.step? (Frame.pop r) = some (σ.pop r) := rfl

/-! ### Registers on the stack -/

/-- The words of some registers lie from an address on, that of the first one highest. -/
def Stacked (m : Memory) (a : BitVec 64) (value : Reg → BitVec 64) : List Reg → Prop
  | [] => True
  | r :: rest => m.load (a + BitVec.ofNat 64 (8 * rest.length)) 8 = value r ∧ Stacked m a value rest

theorem Stacked.congr (h : Stacked m a value rs) (hlen : 8 * rs.length < 2 ^ 64)
    (hsame : ∀ p, Within a (8 * rs.length) p → m' p = m p) : Stacked m' a value rs := by
  induction rs with
  | nil => trivial
  | cons r rest ih =>
    rw [List.length_cons] at hlen hsame
    refine ⟨?_, ih h.2 (by omega) fun p hp => hsame p (hp.mono (by omega))⟩
    rw [← h.1]
    refine load_congr (Nat.le_refl 8) fun i hi => hsame _ ?_
    exact Within.of_part (within_add _ hi (by omega)) (by omega)

theorem Stacked.of_values (h : Stacked m a value rs) (hvalue : ∀ r ∈ rs, value r = value' r) :
    Stacked m a value' rs := by
  induction rs with
  | nil => trivial
  | cons r rest ih =>
    exact ⟨h.1.trans (hvalue r List.mem_cons_self), ih h.2 fun q hq => hvalue q (List.mem_cons_of_mem _ hq)⟩

theorem Stacked.unique (h : Stacked m a value rs) (h' : Stacked m a value' rs) :
    ∀ r ∈ rs, value r = value' r := by
  induction rs with
  | nil => exact nofun
  | cons r rest ih =>
    intro q hq
    rcases List.mem_cons.mp hq with rfl | hq
    · exact h.1.symm.trans h'.1
    · exact ih h.2 h'.2 q hq

theorem load_store_word (m : Memory) (a x : BitVec 64) : (m.store a 8 x).load a 8 = x :=
  m.load_store_same a (Nat.le_refl 8) fun _ h h' => absurd h' (by omega)

theorem sub_words (a : BitVec 64) (n : Nat) :
    a - 8#64 - BitVec.ofNat 64 (8 * n) = a - BitVec.ofNat 64 (8 * (n + 1)) := by
  rw [BitVec.sub_sub, ← BitVec.ofNat_add, Nat.mul_add, Nat.add_comm]

theorem exists_pushes (hsp : Reg.rsp ∉ rs) (hlen : 8 * rs.length < 2 ^ 64) (σ : Processor) :
    ∃ σ', σ.run? (rs.map Frame.push) = some σ' ∧ (∀ r, r ≠ .rsp → σ'.regs r = σ.regs r) ∧
      σ'.regs .rsp = σ.regs .rsp - BitVec.ofNat 64 (8 * rs.length) ∧
      Stacked σ'.memory (σ'.regs .rsp) σ.regs rs ∧
      ∀ p, ¬ Within (σ'.regs .rsp) (8 * rs.length) p → σ'.memory p = σ.memory p := by
  induction rs generalizing σ with
  | nil => exact ⟨σ, rfl, fun _ _ => rfl, by simp, trivial, fun _ _ => rfl⟩
  | cons r rest ih =>
    rw [List.length_cons] at hlen
    obtain ⟨σ', hrun, hregs, hrsp, hstacked, hmem⟩ :=
      ih (fun h => hsp (List.mem_cons_of_mem _ h)) (by omega) (σ.push (σ.regs r))
    have htop : σ'.regs .rsp + BitVec.ofNat 64 (8 * rest.length) = σ.regs .rsp - 8#64 := by
      rw [hrsp, rsp_push, BitVec.sub_add_cancel]
    refine ⟨σ', ?_, fun q hq => (hregs q hq).trans (regs_push_of_ne hq _), ?_, ⟨?_, ?_⟩, fun p hp => ?_⟩
    · rw [List.map_cons, run?_cons (step?_push r), hrun]
    · rw [hrsp, rsp_push, sub_words, List.length_cons]
    · -- the pushes after this one stay below it
      have hapart := apart_add (σ'.regs .rsp) (n := 8 * rest.length) (k := 8) (by omega)
      rw [htop] at hapart ⊢
      have hsame : σ'.memory.load (σ.regs .rsp - 8#64) 8
          = (σ.push (σ.regs r)).memory.load (σ.regs .rsp - 8#64) 8 :=
        load_congr (Nat.le_refl 8) fun i hi =>
          hmem _ fun hin => hapart _ hin (within_add _ hi (by omega))
      rw [hsame]
      exact load_store_word _ _ _
    · exact hstacked.of_values fun q hq =>
        regs_push_of_ne (fun h => hsp (by rw [← h]; exact List.mem_cons_of_mem _ hq)) _
    · rw [List.length_cons] at hp
      have hout : ¬ Within (σ.regs .rsp - 8#64) 8 p := by
        rw [← htop]
        exact fun hin => hp (hin.of_part (by omega))
      rw [hmem p fun hin => hp (hin.mono (by omega))]
      exact σ.memory.store_of_not_within _ hout

theorem exists_pops (hsp : Reg.rsp ∉ rs) (hnodup : rs.Nodup) (σ : Processor) :
    ∃ σ', σ.run? (rs.reverse.map Frame.pop) = some σ' ∧ σ'.memory = σ.memory ∧
      σ'.regs .rsp = σ.regs .rsp + BitVec.ofNat 64 (8 * rs.length) ∧
      Stacked σ.memory (σ.regs .rsp) σ'.regs rs ∧ ∀ r ∉ rs, r ≠ .rsp → σ'.regs r = σ.regs r := by
  induction rs with
  | nil => exact ⟨σ, rfl, rfl, by simp, trivial, fun _ _ _ => rfl⟩
  | cons r rest ih =>
    obtain ⟨hr, hnodup⟩ := List.nodup_cons.mp hnodup
    have hne : r ≠ .rsp := fun heq => hsp (heq ▸ List.mem_cons_self)
    have hrest : Reg.rsp ∉ rest := fun h => hsp (List.mem_cons_of_mem _ h)
    obtain ⟨σ', hrun, hmem, hrsp, hstacked, hout⟩ := ih hrest hnodup
    refine ⟨σ'.pop r, ?_, hmem, ?_, ⟨?_, ?_⟩, fun q hq hqsp => ?_⟩
    · rw [List.reverse_cons, List.map_append, run?_append hrun]
      exact run?_cons (step?_pop r) []
    · rw [rsp_pop hne, hrsp, BitVec.add_assoc, List.length_cons, Nat.mul_add, BitVec.ofNat_add]
    · rw [regs_pop, hmem, hrsp]
    · refine hstacked.of_values fun q hq => (regs_pop_of_ne ?_ ?_).symm
      · exact fun h => hr (h ▸ hq)
      · exact fun h => hrest (h ▸ hq)
    · rw [List.mem_cons, not_or] at hq
      rw [regs_pop_of_ne hq.1 hqsp]
      exact hout q hq.2 hqsp

end Processor

/-! ### The frame of a function -/

namespace Frame

open Processor

variable {f frame : Frame} {n : Nat}

theorem saved_cases (h : f.calleeSaved.Sublist Reg.calleeSaved) :
    f.calleeSaved.Nodup ∧ f.calleeSaved.length ≤ 5 ∧ Reg.rsp ∉ f.calleeSaved ∧ Reg.rbp ∉ f.calleeSaved :=
  ⟨h.nodup (by decide), h.length_le, fun hin => absurd (h.subset hin) (by decide),
    fun hin => absurd (h.subset hin) (by decide)⟩

/-- The number of bytes that the pushed registers take. -/
def savedSize (f : Frame) : Nat := 8 * f.calleeSaved.length

/-- The number of bytes by which the prologue lowers the stack pointer for locals. -/
def reserved (f : Frame) : BitVec 64 := if f.allocSize > 0 then f.allocSize.toBitVec else 0#64

theorem reserved_of_nonneg (h : 0 ≤ f.allocSize) : f.reserved = f.allocSize.toBitVec := by
  unfold reserved
  split
  · rfl
  · next hpos =>
    have hzero : f.allocSize = 0 := Int64.le_antisymm (Int64.not_lt.mp hpos) h
    rw [hzero]
    rfl

theorem toNat_reserved_lt (f : Frame) : f.reserved.toNat < 2 ^ 63 := by
  unfold reserved
  split
  · next hpos =>
    have h : 0 < f.allocSize.toBitVec.toInt := Int64.lt_iff_toInt_lt.mp hpos
    rw [BitVec.toInt_eq_toNat_cond] at h
    omega
  · decide

/-- Bytes that end at a distance below an address have none in common with those from it on. -/
theorem apart_below (b d : BitVec 64) (hn : n ≤ 40) (hd : d.toNat < 2 ^ 63) :
    Apart (b - d - BitVec.ofNat 64 n) n b 16 := by
  intro p hlow hhigh
  unfold Within at hlow hhigh
  have hsplit : p - (b - d - BitVec.ofNat 64 n) = (p - b) + (d + BitVec.ofNat 64 n) := by
    rw [BitVec.sub_sub]
    bv_omega
  rw [hsplit, BitVec.toNat_add, BitVec.toNat_add, BitVec.toNat_ofNat] at hlow
  omega

theorem exists_reserve (f : Frame) (σ : Processor) :
    ∃ σ', σ.run? (if f.allocSize > 0 then
          [machine .stack (reg .rsp) (Operand.const f.allocSize .long) "subq\t$%v1q, %vdq"] else []) = some σ' ∧
      σ'.regs .rsp = σ.regs .rsp - f.reserved ∧ (∀ r, r ≠ .rsp → σ'.regs r = σ.regs r) ∧
      σ'.memory = σ.memory := by
  unfold reserved
  split
  · refine ⟨σ.set .rsp (σ.regs .rsp - f.allocSize.toBitVec), rfl, by simp, ?_, rfl⟩
    exact fun r hr => regs_set_of_ne hr _
  · exact ⟨σ, rfl, by simp, fun _ _ => rfl, rfl⟩

theorem exists_prologue (h : f.calleeSaved.Sublist Reg.calleeSaved) (σ : Processor) :
    ∃ σ', σ.run? f.prologue = some σ' ∧ σ'.regs .rbp = σ.regs .rsp - 8#64 ∧
      σ'.memory.load (σ'.regs .rbp) 8 = σ.regs .rbp ∧
      Stacked σ'.memory (σ'.regs .rbp - f.reserved - BitVec.ofNat 64 f.savedSize) σ.regs f.calleeSaved ∧
      ∀ p, ¬ Within (σ'.regs .rbp) 8 p →
        ¬ Within (σ'.regs .rbp - f.reserved - BitVec.ofNat 64 f.savedSize) f.savedSize p →
        σ'.memory p = σ.memory p := by
  obtain ⟨-, hlen, hsp, hbp⟩ := saved_cases h
  let σ₁ := σ.push (σ.regs .rbp)
  let σ₂ := σ₁.set .rbp (σ₁.regs .rsp)
  obtain ⟨σ₃, hreserve, hrsp₃, hregs₃, hmem₃⟩ := f.exists_reserve σ₂
  obtain ⟨σ', hpush, hregs, hrsp, hstacked, hmem⟩ := exists_pushes hsp (by omega) σ₃
  have hbase : σ'.regs .rbp = σ.regs .rsp - 8#64 := by
    rw [hregs _ (by decide), hregs₃ _ (by decide), regs_set]
    exact rsp_push _
  have hlow : σ'.regs .rsp = σ'.regs .rbp - f.reserved - BitVec.ofNat 64 f.savedSize := by
    rw [hrsp, hrsp₃, hbase, savedSize, regs_set_of_ne (by decide)]
    exact congrArg (· - f.reserved - _) (rsp_push _)
  rw [hlow] at hstacked hmem
  refine ⟨σ', ?_, hbase, ?_, hstacked.of_values fun r hr => ?_, fun p hp hout => ?_⟩
  · have hmove : σ₁.step? (machine .mov (reg .rbp) (reg .rsp) "movq\t%v1q, %vdq") = some σ₂ := rfl
    rw [prologue, List.append_assoc, List.cons_append, run?_cons (step?_push .rbp), List.cons_append,
      run?_cons hmove, List.nil_append, run?_append hreserve, hpush]
  · -- the reserved bytes and the pushed registers are below the frame base
    have hsize : f.savedSize ≤ 40 := by unfold savedSize; omega
    have hsame : σ'.memory.load (σ'.regs .rbp) 8 = σ₃.memory.load (σ'.regs .rbp) 8 :=
      load_congr (Nat.le_refl 8) fun i hi => hmem _ fun hin =>
        apart_below _ _ hsize f.toNat_reserved_lt _ hin (within_add _ (by omega) (by omega))
    rw [hsame, hmem₃, hbase]
    exact load_store_word _ _ _
  · have hne : r ≠ .rsp ∧ r ≠ .rbp := ⟨fun heq => hsp (heq ▸ hr), fun heq => hbp (heq ▸ hr)⟩
    rw [hregs₃ r hne.1, regs_set_of_ne hne.2]
    exact regs_push_of_ne hne.1 _
  · rw [hmem p hout, hmem₃]
    rw [hbase] at hp
    exact σ.memory.store_of_not_within _ hp

/-- The stack pointer is put where the pushed registers are, if there are any. -/
theorem exists_lea (f : Frame) (σ : Processor) :
    ∃ σ', σ.run? (if f.calleeSaved.isEmpty then []
        else [machine .lea (reg .rsp)
          (Operand.const (-(f.allocSize + Int64.ofNat f.calleeSaved.length * slotSize)) .long)
          "leaq\t%v1(%%rbp), %vdq"]) = some σ' ∧
      σ'.memory = σ.memory ∧ σ'.regs .rbp = σ.regs .rbp ∧
      (f.calleeSaved ≠ [] →
        σ'.regs .rsp = σ.regs .rbp - f.allocSize.toBitVec - BitVec.ofNat 64 f.savedSize) := by
  split
  · next hempty => exact ⟨σ, rfl, rfl, rfl, fun h => absurd (List.isEmpty_iff.mp hempty) h⟩
  · refine ⟨_, rfl, rfl, regs_set_of_ne (by decide) _, fun _ => ?_⟩
    have hsize : (Int64.ofNat f.calleeSaved.length * slotSize).toBitVec = BitVec.ofNat 64 f.savedSize := by
      rw [savedSize, Nat.mul_comm, BitVec.ofNat_mul]
      rfl
    rw [regs_set, Int64.toBitVec_neg, Int64.toBitVec_add, hsize, ← BitVec.sub_eq_add_neg, BitVec.sub_sub]

theorem exists_epilogue (h : f.calleeSaved.Sublist Reg.calleeSaved) (σ : Processor) :
    ∃ σ', σ.run? f.epilogue = some σ' ∧ σ'.memory = σ.memory ∧ σ'.regs .rsp = σ.regs .rbp + 8#64 ∧
      σ'.regs .rbp = σ.memory.load (σ.regs .rbp) 8 ∧
      Stacked σ.memory (σ.regs .rbp - f.allocSize.toBitVec - BitVec.ofNat 64 f.savedSize) σ'.regs
        f.calleeSaved := by
  obtain ⟨hnodup, hlen, hsp, hbp⟩ := saved_cases h
  obtain ⟨σ₁, hlea, hmem₁, hbase₁, hrsp₁⟩ := f.exists_lea σ
  obtain ⟨σ₂, hpops, hmem₂, -, hstacked, hregs₂⟩ := exists_pops hsp hnodup σ₁
  have hbase : σ₂.regs .rbp = σ.regs .rbp := (hregs₂ _ hbp (by decide)).trans hbase₁
  refine ⟨(σ₂.set .rsp (σ₂.regs .rbp)).pop .rbp, ?_, hmem₂.trans hmem₁, ?_, ?_, ?_⟩
  · rw [epilogue, List.append_assoc, run?_append hlea, run?_append hpops]
    rfl
  · rw [rsp_pop (by decide), regs_set, hbase]
  · rw [regs_pop, regs_set, memory_set, hmem₂, hmem₁, hbase]
  · cases hsaved : f.calleeSaved with
    | nil => trivial
    | cons r rest =>
      rw [← hsaved]
      rw [hmem₁, hrsp₁ (by simp [hsaved])] at hstacked
      refine hstacked.of_values fun q hq => ?_
      have hne : q ≠ .rsp ∧ q ≠ .rbp := ⟨fun heq => hsp (heq ▸ hq), fun heq => hbp (heq ▸ hq)⟩
      rw [regs_pop_of_ne hne.2 hne.1, regs_set_of_ne hne.1]

/-! ### Undoing -/

/-- The body leaves alone what the epilogue relies on: the frame base, the caller's frame base and the
return address at it, and the bytes just below the reserved ones. -/
structure Spares (f : Frame) (σ σ' : Processor) : Prop where
  base : σ'.regs .rbp = σ.regs .rbp
  link : ∀ p, Within (σ.regs .rbp) 16 p → σ'.memory p = σ.memory p
  saved : ∀ p, Within (σ.regs .rbp - f.allocSize.toBitVec - BitVec.ofNat 64 f.savedSize)
    f.savedSize p → σ'.memory p = σ.memory p

/-- Stack pointer, frame base, return address and callee-saved registers are as on entry. -/
structure Restores (f : Frame) (σ σ' : Processor) : Prop where
  stack : σ'.regs .rsp = σ.regs .rsp
  base : σ'.regs .rbp = σ.regs .rbp
  address : ∀ p, Within (σ.regs .rsp) 8 p → σ'.memory p = σ.memory p
  saved : ∀ r ∈ f.calleeSaved, σ'.regs r = σ.regs r

/-- Whatever the body does otherwise, the epilogue undoes the prologue. -/
def Undone (f : Frame) : Prop :=
  ∀ σ : Processor, ∃ σ₁, σ.run? f.prologue = some σ₁ ∧
    ∀ σ₂, f.Spares σ₁ σ₂ → ∃ σ₃, σ₂.run? f.epilogue = some σ₃ ∧ f.Restores σ σ₃

theorem undone_of_nonneg (h : f.calleeSaved.Sublist Reg.calleeSaved)
    (hsize : 0 ≤ f.allocSize ∨ f.calleeSaved = []) : f.Undone := by
  obtain ⟨-, hlen, -, -⟩ := saved_cases h
  have hsaved : f.savedSize ≤ 40 := by unfold savedSize; omega
  intro σ
  obtain ⟨σ₁, hprologue, hbase, hlink, hstacked, hmem⟩ := exists_prologue h σ
  refine ⟨σ₁, hprologue, fun σ₂ hspares => ?_⟩
  obtain ⟨σ₃, hepilogue, hmem₃, hrsp, hrbp, hpopped⟩ := exists_epilogue h σ₂
  have htop : σ₁.regs .rbp + 8#64 = σ.regs .rsp := by rw [hbase, BitVec.sub_add_cancel]
  refine ⟨σ₃, hepilogue, ?_, ?_, fun p hp => ?_, ?_⟩
  · rw [hrsp, hspares.base, htop]
  · rw [hrbp, hspares.base, ← hlink]
    exact load_congr (Nat.le_refl 8) fun i hi =>
      hspares.link _ (within_add _ (by omega) (by omega))
  · have hhigh : Within (σ₁.regs .rbp) 16 p := by
      rw [← htop] at hp
      exact hp.of_part (d := 8) (Nat.le_refl 16)
    rw [hmem₃, hspares.link p hhigh]
    refine hmem p (fun hin => ?_) fun hin => apart_below _ _ hsaved f.toNat_reserved_lt p hin hhigh
    rw [← htop] at hp
    exact apart_add (σ₁.regs .rbp) (n := 8) (k := 8) (by omega) p hin hp
  · rcases hsize with hsize | hempty
    · rw [reserved_of_nonneg hsize] at hstacked
      rw [hspares.base] at hpopped
      exact hpopped.unique (hstacked.congr (by omega) hspares.saved)
    · rw [hempty]
      exact nofun

theorem toNat_neg_of_neg {n : Int64} (h : n < 0) : 1 ≤ (-n.toBitVec).toNat ∧ (-n.toBitVec).toNat ≤ 2 ^ 63 := by
  have hneg : n.toBitVec.toInt < 0 := Int64.lt_iff_toInt_lt.mp h
  rw [BitVec.toInt_eq_toNat_cond] at hneg
  rw [BitVec.toNat_neg]
  omega

/-- A frame whose size overflowed looks for the first register above the frame base.  If all registers
are zero but the frame base, and that and memory have no zero byte, it finds another value there. -/
theorem nonneg_of_undone (h : f.calleeSaved.Sublist Reg.calleeSaved) (hundone : f.Undone) :
    0 ≤ f.allocSize ∨ f.calleeSaved = [] := by
  by_contra hnot
  rw [not_or, Int64.not_le] at hnot
  obtain ⟨hneg, hsome⟩ := hnot
  obtain ⟨r, rest, hcons⟩ := List.exists_cons_of_ne_nil hsome
  obtain ⟨-, hlen, -, hbp⟩ := saved_cases h
  let σ : Processor := ⟨fun q => if q = .rbp then BitVec.allOnes 64 else 0, fun _ => 0xff#8⟩
  obtain ⟨σ₁, hprologue, hundo⟩ := hundone σ
  obtain ⟨σ₁', hprologue', -, hlink, -, hmem⟩ := exists_prologue h σ
  obtain rfl : σ₁ = σ₁' := Option.some.inj (hprologue.symm.trans hprologue')
  obtain ⟨σ₃, hepilogue, hrestores⟩ := hundo σ₁ ⟨rfl, fun _ _ => rfl, fun _ _ => rfl⟩
  obtain ⟨σ₃', hepilogue', -, -, -, hpopped⟩ := exists_epilogue h σ₁
  obtain rfl : σ₃ = σ₃' := Option.some.inj (hepilogue.symm.trans hepilogue')
  obtain ⟨hk1, hk63⟩ := toNat_neg_of_neg hneg
  set b := σ₁.regs .rbp
  set k := -f.allocSize.toBitVec with hk
  -- the last byte of the first register is read just below the end of the overflowed size
  have hread : byteOf (σ₃.regs r) 7 = σ₁.memory (b + (k - 1#64)) := by
    have hload := hcons ▸ hpopped
    rw [← hload.1, byteOf_load _ _ (Nat.le_refl 8) (by omega), savedSize, hcons, List.length_cons]
    congr 1
    rw [Nat.mul_add, BitVec.ofNat_add, hk]
    bv_omega
  have hones : σ₁.memory (b + (k - 1#64)) = 0xff#8 := by
    by_cases hin : Within b 8 (b + (k - 1#64))
    · obtain ⟨i, hi, -, hp⟩ := hin.exists_add
      rw [hp, ← σ₁.memory.byteOf_load b (Nat.le_refl 8) hi, hlink]
      interval_cases i <;> decide
    · refine hmem _ hin fun hlow => ?_
      rw [reserved, if_neg (by rw [gt_iff_lt, Int64.not_lt]; exact Int64.le_of_lt hneg)] at hlow
      unfold Within at hlow
      have hdist : b + (k - 1#64) - (b - 0#64 - BitVec.ofNat 64 f.savedSize)
          = (k - 1#64) + BitVec.ofNat 64 f.savedSize := by bv_omega
      have hsaved : f.savedSize ≤ 40 := by unfold savedSize; omega
      have hsub : (k - 1#64).toNat = k.toNat - 1 := by bv_omega
      rw [hdist, BitVec.toNat_add, BitVec.toNat_ofNat, hsub] at hlow
      omega
  have hzero : σ₃.regs r = 0 := by
    have hr : r ≠ .rbp := fun heq => hbp (heq ▸ hcons ▸ List.mem_cons_self)
    rw [hrestores.saved r (hcons ▸ List.mem_cons_self)]
    exact if_neg hr
  rw [hzero, hones] at hread
  exact absurd hread (by decide)

theorem undone_iff (h : f.calleeSaved.Sublist Reg.calleeSaved) :
    f.Undone ↔ 0 ≤ f.allocSize ∨ f.calleeSaved = [] := ⟨nonneg_of_undone h, undone_of_nonneg h⟩

/-! ### Framing a function -/

theorem calleeSaved_ofFunction {f : Function} (h : ofFunction f = .ok frame) :
    frame.calleeSaved = usedCalleeSaved f.code := by
  unfold ofFunction at h
  cases hextent : f.code.foldlM addInstr {} with
  | error e =>
    rw [hextent] at h
    exact nomatch h
  | ok e =>
    rw [hextent] at h
    rw [← Except.ok.inj h]

theorem mem_calleeSaved (r : Reg) : r ∈ Reg.calleeSaved ↔ r.isCalleeSaved = true := by
  cases r with
  | gpr n => revert n; decide
  | xmm n => simp [Reg.calleeSaved, Reg.isCalleeSaved]
  | unknown code => simp [Reg.calleeSaved, Reg.isCalleeSaved]

/-- Is some operand of the function located in the register? -/
def UsesRegister (f : Function) (r : Reg) : Prop := ∃ i ∈ f.code, ∃ o ∈ i.operands, o.location = r

theorem mem_usedCalleeSaved (f : Function) (r : Reg) :
    r ∈ usedCalleeSaved f.code ↔ r.isCalleeSaved = true ∧ UsesRegister f r := by
  simp only [usedCalleeSaved, List.mem_filter, mem_calleeSaved, List.contains_eq_mem, decide_eq_true_eq,
    List.mem_map, List.mem_flatMap, UsesRegister]
  refine and_congr_right fun _ => ⟨?_, ?_⟩
  · rintro ⟨o, ⟨i, hi, ho⟩, hloc⟩
    exact ⟨i, hi, o, ho, hloc⟩
  · rintro ⟨i, hi, o, ho, hloc⟩
    exact ⟨o, ⟨i, hi, ho⟩, hloc⟩

/-- What stands for an instruction in a frame: itself, but for a return, which comes right behind a whole
epilogue.  The first instruction of that takes its label. -/
inductive Framed (f : Frame) : Instr → List Instr → Prop
  | other {i : Instr} (h : i.op ≠ .machine .ret) : Framed f i [i]
  | ret {i first : Instr} {rest : List Instr} (h : i.op = .machine .ret) (hepilogue : f.epilogue = first :: rest) :
      Framed f i ({ first with label := i.label } :: rest ++ [{ i with label := 0 }])

theorem framed_leave (f : Frame) (i : Instr) : f.Framed i (f.leave i) := by
  unfold leave
  split
  · next h =>
    obtain ⟨first, rest, hcons⟩ := List.exists_cons_of_ne_nil f.epilogue_ne_nil
    have hlabel : first.label = 0 := f.label_epilogue first (by rw [hcons]; exact List.mem_cons_self)
    have hmoved : labelled i.label f.epilogue = { first with label := i.label } :: rest := by
      rw [hcons, labelled]
      split
      · next hzero => rw [hzero, ← hlabel]
      · rfl
    rw [hmoved]
    exact .ret (beq_iff_eq.mp h) hcons
  · next h => exact .other fun hop => h (beq_iff_eq.mpr hop)

/-- **A frame is undone exactly.**  Around any body that spares what the epilogue relies on, the stack
pointer, the frame base and the callee-saved registers come back as they were, unless the size of the
frame overflowed and there are registers to restore.  Those are the callee-saved registers that an
operand is located in, each once.  Framing puts the prologue in front of the code and an epilogue before
each return. -/
theorem frame_undone {f : Function} {frame : Frame} (h : ofFunction f = .ok frame) :
    (frame.Undone ↔ 0 ≤ frame.allocSize ∨ frame.calleeSaved = []) ∧
      (frame.calleeSaved.Nodup ∧
        ∀ r, r ∈ frame.calleeSaved ↔ r.isCalleeSaved = true ∧ UsesRegister f r) ∧
      ∃ pieces, f.addFrame.result = .ok (frame, { f with code := frame.prologue ++ pieces.flatten }) ∧
        List.Forall₂ frame.Framed f.code pieces := by
  have hsaved := calleeSaved_ofFunction h
  have hsub : frame.calleeSaved.Sublist Reg.calleeSaved := hsaved ▸ List.filter_sublist
  refine ⟨undone_iff hsub, ⟨(saved_cases hsub).1, fun r => hsaved ▸ mem_usedCalleeSaved f r⟩,
    f.code.map frame.leave, ?_, ?_⟩
  · rw [← List.flatMap_def]
    unfold Function.addFrame
    rw [h]
    rfl
  · exact List.forall₂_map_right_iff.mpr (List.forall₂_same.mpr fun i _ => frame.framed_leave i)

/-- A function that calls another, keeps two values in callee-saved registers and returns from two places. -/
def visiting : Function :=
  { name := "visiting", params := [], addressTaken := [], result := .long, stackSlots := 3
    code :=
      [machine .mov (reg .rbx) (reg .rdi) "movq\t%v1q, %vdq",
        machine .mov (reg .r12) (reg .rbx) "movq\t%v1q, %vdq",
        { machine .call none (some ⟨.func "g", .missing, 0⟩) "call\t%v1" with label := 1 },
        { machine .ret none none "ret" with label := 2 },
        machine .ret none none "ret"] }

/-- Its frame. -/
def visitingFrame : Frame :=
  { localSize := 24, incomingSize := 0, padding := 8, calleeSaved := [.rbx, .r12], leaf := false }

theorem visiting_frame_undone : ofFunction visiting = .ok visitingFrame ∧ visitingFrame.Undone ∧
    (∀ r, r ∈ [Reg.rbx, .r12] ↔ r.isCalleeSaved = true ∧ UsesRegister visiting r) ∧
    ∃ pieces, visiting.addFrame.result
        = .ok (visitingFrame, { visiting with code := visitingFrame.prologue ++ pieces.flatten }) ∧
      List.Forall₂ visitingFrame.Framed visiting.code pieces := by
  have hframe : ofFunction visiting = .ok visitingFrame := rfl
  obtain ⟨hundone, ⟨-, hsaved⟩, hpieces⟩ := frame_undone hframe
  exact ⟨hframe, hundone.mpr (.inl (by decide)), hsaved, hpieces⟩

/-- A function with as many local slots as can be counted in bytes, which calls another and keeps a value in a
callee-saved register. -/
def sprawling : Function :=
  { name := "sprawling", params := [], addressTaken := [], result := .long, stackSlots := 1152921504606846975
    code :=
      [machine .mov (reg .rbx) (reg .rdi) "movq\t%v1q, %vdq",
        machine .call none (some ⟨.func "g", .missing, 0⟩) "call\t%v1",
        machine .ret none none "ret"] }

/-- Its local slots and the pushed register take all of 2⁶³ bytes, and the padding overflows. -/
theorem sprawling_not_undone : ∃ frame, ofFunction sprawling = .ok frame ∧ ¬ frame.Undone := by
  refine ⟨⟨9223372036854775800, 0, 16, [.rbx], false⟩, rfl, ?_⟩
  rw [undone_iff (by decide)]
  decide

end Frame

end Codegen
