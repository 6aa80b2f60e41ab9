/-
Spill code, executed.

A spilled register lives in a stack slot.  Executing an instruction on it directly reads the slot
where a source is wanted and writes the slot where the result goes; spill code does the same by
way of the scratch registers.  What instructions compute is a parameter: any function of the
operation, the template, what is seen of the operands and the rest of the machine will do, as
long as it does not look at the scratch registers and takes the moves of spill code for moves.

Both executions are compared off the scratch registers.  The loads change nothing there and leave
in the scratch registers what the slots hold, so the rewritten instruction sees what the original
one sees (`seen_reloaded`), and its result reaches the slot through the store (`step_store`).
-/
import Codegen.Proofs.Execution
import Codegen.Proofs.Machine
import Codegen.Proofs.Traced
import Codegen.Spill

namespace Codegen

namespace Reg

/-- Is this a register for a spilled first source? -/
def isFirstScratch (r : Reg) : Bool := r == intScratch.1 || r == sseScratch.1

/-- Is this a register for a spilled second source? -/
def isSecondScratch (r : Reg) : Bool := r == intScratch.2 || r == sseScratch.2

/-- Is this one of the registers kept for spill code? -/
def isScratch (r : Reg) : Bool := r.isFirstScratch || r.isSecondScratch

variable {r : Reg}

theorem isScratch_of_first (h : r.isFirstScratch = true) : r.isScratch = true := by
  rw [isScratch, h, Bool.true_or]

theorem isScratch_of_second (h : r.isSecondScratch = true) : r.isScratch = true := by
  rw [isScratch, h, Bool.or_true]

theorem isSecondScratch_of_first (h : r.isFirstScratch = true) : r.isSecondScratch = false := by
  simp only [isFirstScratch, Bool.or_eq_true, beq_iff_eq] at h
  rcases h with rfl | rfl <;> rfl

end Reg

/-- The address of a stack slot. -/
def Addresses.slot (env : Addresses) (index : Int) : BitVec 64 :=
  env.frame + (Frame.slotOffset index).toBitVec

/-! ### Where a register lives -/

/-- Where a register is: in a physical register, nowhere yet, or in a stack slot. -/
inductive Residence
  | phys (r : Reg)
  | virt (id : Int)
  | slot (id index : Int)
  deriving DecidableEq

variable {v u : VReg} {o : Operand}

namespace Operand

/-- The virtual register that an operand is. -/
def vreg? (o : Operand) : Option VReg :=
  match o.value with
  | .vreg v => some v
  | _ => none

/-- The home of an operand that is a register. -/
def home? (o : Operand) : Option Residence :=
  match o.value with
  | .preg r => some (.phys r)
  | .vreg v =>
    some (if v.spilled then .slot v.id v.slot else if v.reg = .none then .virt v.id else .phys v.reg)
  | _ => none

/-- The register file that an operand belongs in; a physical register is in its own. -/
def file (o : Operand) : RegClass :=
  match o.value with
  | .preg r => r.cls
  | _ => o.cls

/-- The width at which spill code moves an operand. -/
def word (o : Operand) : IntWidth :=
  if o.file == .sse then (if o.width = 4 then .w32 else .w64) else .ofBytes o.width

variable {r : Reg} {index : Int}

theorem location_of_home? (h : o.home? = some (.phys r)) : o.location = r := by
  obtain ⟨value, type, offset⟩ := o
  cases value with
  | preg s =>
    cases h
    rfl
  | vreg v =>
    simp only [home?] at h
    split at h
    · exact nomatch h
    · next hspilled =>
      split at h <;> cases h
      simp [location, hspilled]
  | _ => exact nomatch h

theorem spilled?_eq_some (h : o.spilled? = some v) : o.value = .vreg v ∧ v.spilled = true := by
  obtain ⟨value, type, offset⟩ := o
  cases value with
  | vreg u =>
    simp only [spilled?] at h
    split at h <;> cases h
    exact ⟨rfl, ‹_›⟩
  | _ => exact nomatch h

theorem home?_of_spilled (h : o.spilled? = some v) : o.home? = some (.slot v.id v.slot) := by
  obtain ⟨hvalue, hspilled⟩ := spilled?_eq_some h
  rw [home?, hvalue]
  simp [hspilled]

/-- Only a spilled register lives in a slot. -/
theorem exists_of_home?_slot {id : Int} (h : o.home? = some (.slot id index)) :
    ∃ v, o.spilled? = some v ∧ v.id = id := by
  obtain ⟨value, type, offset⟩ := o
  cases value with
  | vreg v =>
    simp only [home?] at h
    split at h
    · next hspilled =>
      cases h
      exact ⟨v, if_pos hspilled, rfl⟩
    · split at h <;> exact nomatch h
  | _ => exact nomatch h

theorem vregId?_of_spilled (h : o.spilled? = some v) : o.vregId? = some v.id := by
  rw [vregId?, (spilled?_eq_some h).1]

/-- A register class read off a type never changes the width. -/
theorem word_of_value (h : o.value = .vreg v) (hv : Reg.isPseudo v.id = false) : o.word = .ofBytes o.width := by
  obtain ⟨value, type, offset⟩ := o
  obtain rfl : value = .vreg v := h
  have hfile : (Operand.mk (.vreg v) type offset).file = if type.isSse then .sse else .int := by
    simp [file, cls, hv]
  rw [word, hfile]
  cases type with
  | float k => cases k <;> rfl
  | _ => rfl

/-- Operands of one register that are equally wide are moved at one width. -/
theorem word_eq_of_id {a b : Operand} (ha : a.value = .vreg v) (hb : b.value = .vreg u) (hid : v.id = u.id)
    (hwidth : a.width = b.width) : a.word = b.word := by
  by_cases hv : Reg.isPseudo v.id = true
  · have hfile : a.file = b.file := by
      rw [file, file]
      simp only [cls, ha, hb, ← hid, hv, if_true]
    rw [word, word, hfile, hwidth]
  · have hv : Reg.isPseudo v.id = false := by simpa using hv
    rw [word_of_value ha hv, word_of_value hb (hid ▸ hv), hwidth]

end Operand

namespace Spilling

/-! ### Executing -/

/-- The registers, memory, and whatever else instructions depend on. -/
@[ext] structure State (ρ : Type) where
  phys : Reg → BitVec 64
  /-- Virtual registers without a location. -/
  virt : Int → BitVec 64
  memory : Memory
  rest : ρ

/-- What an instruction sees of an operand: a register's contents at its width, or the operand as it
stands. -/
inductive Seen
  | word (w : IntWidth) (x : BitVec 64)
  | operand (o : Operand)

/-- What instructions compute: from the operation, the template, what is seen of the destination and
the sources, and the machine, a word for the destination and the machine afterwards. -/
abbrev Semantics (ρ : Type) :=
  Opcode → Template → Option Seen → Option Seen → Option Seen → State ρ → BitVec 64 × State ρ

section

variable {ρ : Type} (env : Addresses)

namespace State

variable (μ : State ρ)

/-- The contents of a home, cut to a width. -/
def read (h : Residence) (w : IntWidth) : BitVec 64 :=
  (Ty.int w .unsigned).fit <| match h with
    | .phys r => μ.phys r
    | .virt id => μ.virt id
    | .slot _ index => μ.memory.load (env.slot index) (w.bits / 8)

/-- Write a word of a width to a home. -/
def write (h : Residence) (w : IntWidth) (x : BitVec 64) : State ρ :=
  match h with
  | .phys r =>
    { μ with phys := Function.update μ.phys r (Machine.insertLow w (x.setWidth _) (μ.phys r)) }
  | .virt id =>
    { μ with virt := Function.update μ.virt id (Machine.insertLow w (x.setWidth _) (μ.virt id)) }
  | .slot _ index => { μ with memory := μ.memory.store (env.slot index) (w.bits / 8) x }

/-- What is seen of an operand. -/
def seen (o : Operand) : Seen :=
  match o.home? with
  | some h => .word o.word (μ.read env h o.word)
  | none => .operand o

/-- What is left to see of a destination whose contents are not looked at. -/
def unseen (o : Operand) : Seen :=
  match o.home? with
  | some _ => .word o.word 0
  | none => .operand o

/-- Write the destination of an instruction, if it is a register. -/
def put (o : Option Operand) (x : BitVec 64) : State ρ :=
  match o with
  | none => μ
  | some o =>
    match o.home? with
    | some h => μ.write env h o.word x
    | none => μ

/-- The machine as instructions get to see it: without the scratch registers. -/
def cleared : State ρ := { μ with phys := fun r => if r.isScratch then 0 else μ.phys r }

/-- The scratch registers of this machine, and everything else of another. -/
def scratchWith (ν : State ρ) : State ρ :=
  { ν with phys := fun r => if r.isScratch then μ.phys r else ν.phys r }

end State

/-- Is the destination register among the sources? -/
def updatesDst (i : Instr) : Bool :=
  i.dst.any fun d => d.home?.isSome && i.sources.any fun s => s.home? == d.home?

/-- What is seen of the destination: its contents only if it is a pointer or among the sources. -/
def seenDst (i : Instr) (μ : State ρ) : Option Seen :=
  i.dst.map fun d => if i.op.storesThroughDst || updatesDst i then μ.seen env d else State.unseen d

variable (sem : Semantics ρ)

/-- What an instruction computes in a machine. -/
def computed (i : Instr) (μ : State ρ) : BitVec 64 × State ρ :=
  sem i.op i.template (seenDst env i μ) (i.src1.map (μ.seen env)) (i.src2.map (μ.seen env)) μ.cleared

/-- Execute an instruction, with spilled registers read from and written to their slots.  A store
through the destination writes nothing to it. -/
def step (i : Instr) (μ : State ρ) : State ρ :=
  let r := computed env sem i μ
  if i.op.storesThroughDst then μ.scratchWith r.2 else (μ.scratchWith r.2).put env i.dst r.1

/-- Execute instructions one by one. -/
def exec (code : List Instr) (μ : State ρ) : State ρ := code.foldl (fun μ i => step env sem i μ) μ

/-- The moves of spill code are moves: a load gives the contents of the slot, a store changes the slot
and nothing else. -/
structure Moves : Prop where
  load : ∀ (o : Operand) (v : VReg) (d : Option Seen) (μ : State ρ), o.spilled? = some v →
    sem (.machine .mov) o.moveTemplate d (some (.operand (.slot v.slot o.type))) none μ
      = (μ.memory.load (env.slot v.slot) (o.word.bits / 8), μ)
  store : ∀ (o : Operand) (v : VReg) (w : IntWidth) (x : BitVec 64) (μ : State ρ), o.spilled? = some v →
    (sem (.machine .mov) o.moveTemplate (some (.operand (.slot v.slot o.type))) (some (.word w x)) none
      μ).2 = { μ with memory := μ.memory.store (env.slot v.slot) (o.word.bits / 8) x }

/-! ### Machines that differ in some registers -/

/-- The machines are the same but for some physical registers. -/
structure Alike (S : Reg → Bool) (μ ν : State ρ) : Prop where
  phys : ∀ r, S r = false → ν.phys r = μ.phys r
  virt : ν.virt = μ.virt
  memory : ν.memory = μ.memory
  rest : ν.rest = μ.rest

variable {env sem} {S T : Reg → Bool} {μ ν κ : State ρ}

namespace Alike

theorem refl (S : Reg → Bool) (μ : State ρ) : Alike S μ μ := ⟨fun _ _ => rfl, rfl, rfl, rfl⟩

theorem trans (h : Alike S μ ν) (h' : Alike S ν κ) : Alike S μ κ :=
  ⟨fun r hr => (h'.phys r hr).trans (h.phys r hr), h'.virt.trans h.virt, h'.memory.trans h.memory,
    h'.rest.trans h.rest⟩

theorem mono (h : Alike S μ ν) (hST : ∀ r, S r = true → T r = true) : Alike T μ ν := by
  refine ⟨fun r hr => h.phys r ?_, h.virt, h.memory, h.rest⟩
  by_contra hS
  rw [hST r (by simpa using hS)] at hr
  exact nomatch hr

theorem write (h : Alike S μ ν) (home : Residence) (w : IntWidth) (x : BitVec 64) :
    Alike S (μ.write env home w x) (ν.write env home w x) := by
  cases home with
  | phys s =>
    refine ⟨fun r hr => ?_, h.virt, h.memory, h.rest⟩
    by_cases hrs : r = s
    · subst hrs
      simp [State.write, h.phys r hr]
    · simp [State.write, Function.update_of_ne hrs, h.phys r hr]
  | virt id => exact ⟨h.phys, by simp [State.write, h.virt], h.memory, h.rest⟩
  | slot id index => exact ⟨h.phys, h.virt, by simp [State.write, h.memory], h.rest⟩

theorem put (h : Alike S μ ν) (o : Option Operand) (x : BitVec 64) :
    Alike S (μ.put env o x) (ν.put env o x) := by
  cases o with
  | none => exact h
  | some o =>
    simp only [State.put]
    split
    · exact h.write _ _ _
    · exact h

variable {home : Residence}

theorem read_eq (h : Alike S μ ν) (hhome : ∀ r, home = .phys r → S r = false) (w : IntWidth) :
    ν.read env home w = μ.read env home w := by
  cases home with
  | phys r => simp only [State.read, h.phys r (hhome r rfl)]
  | virt id => simp only [State.read, h.virt]
  | slot id index => simp only [State.read, h.memory]

theorem seen_eq (h : Alike S μ ν) (ho : ∀ r, o.home? = some (.phys r) → S r = false) :
    ν.seen env o = μ.seen env o := by
  simp only [State.seen]
  split
  · next home hhome => rw [h.read_eq fun r hr => ho r (hr ▸ hhome)]
  · rfl

theorem cleared_eq (h : Alike Reg.isScratch μ ν) : ν.cleared = μ.cleared := by
  apply State.ext
  · funext r
    by_cases hr : r.isScratch = true
    · simp only [State.cleared, if_pos hr]
    · simp only [State.cleared, h.phys r (by simpa using hr)]
  · exact h.virt
  · exact h.memory
  · exact h.rest

end Alike

theorem alike_scratchWith (μ ν κ : State ρ) : Alike Reg.isScratch (μ.scratchWith κ) (ν.scratchWith κ) :=
  ⟨fun r hr => by simp [State.scratchWith, hr], rfl, rfl, rfl⟩

variable {r sse int : Reg} {j i : Instr} {o : Option Operand} {a reg : Operand} {s : Spilling}
  {scratch : Operand → Operand} {t : Ty}

theorem alike_write_phys (hr : S r = true) (w : IntWidth) (x : BitVec 64) :
    Alike S μ (μ.write env (.phys r) w x) := by
  refine ⟨fun s hs => ?_, rfl, rfl, rfl⟩
  have hne : s ≠ r := fun h => by rw [h, hr] at hs; exact nomatch hs
  exact Function.update_of_ne hne _ _

theorem scratchWith_cleared (μ : State ρ) : μ.scratchWith μ.cleared = μ := by
  apply State.ext
  · funext r
    by_cases hr : r.isScratch = true
    · simp only [State.scratchWith, if_pos hr]
    · simp only [State.scratchWith, State.cleared, if_neg hr]
  · rfl
  · rfl
  · rfl

theorem read_write_phys (r : Reg) (w : IntWidth) (x : BitVec 64) :
    (μ.write env (.phys r) w x).read env (.phys r) w = (Ty.int w .unsigned).fit x := by
  simp only [State.read, State.write, Function.update_self, Ty.fit]
  rw [Machine.setWidth_insertLow (Nat.le_refl _), BitVec.setWidth_eq]

theorem step_of_store (hop : i.op.storesThroughDst = true) (μ : State ρ) :
    step env sem i μ = μ.scratchWith (computed env sem i μ).2 := by
  simp only [step, hop, if_true]

theorem step_of_write (hop : i.op.storesThroughDst = false) (μ : State ρ) :
    step env sem i μ = (μ.scratchWith (computed env sem i μ).2).put env i.dst (computed env sem i μ).1 := by
  simp only [step, hop, Bool.false_eq_true, if_false]

theorem exec_append (code more : List Instr) (μ : State ρ) :
    exec env sem (code ++ more) μ = exec env sem more (exec env sem code μ) :=
  List.foldl_append

/-- Instructions with the same operation and template that see the same compute the same. -/
theorem computed_eq (h : Alike Reg.isScratch μ ν) (hop : j.op = i.op) (htemplate : j.template = i.template)
    (hdst : seenDst env j ν = seenDst env i μ) (hsrc1 : j.src1.map (ν.seen env) = i.src1.map (μ.seen env))
    (hsrc2 : j.src2.map (ν.seen env) = i.src2.map (μ.seen env)) :
    computed env sem j ν = computed env sem i μ := by
  rw [computed, computed, hop, htemplate, hdst, hsrc1, hsrc2, h.cleared_eq]

/-- Instructions that compute the same do the same to machines that differ only in scratch registers. -/
theorem alike_step (hop : j.op = i.op) (hdst : i.op.storesThroughDst = false → j.dst = i.dst)
    (h : computed env sem j ν = computed env sem i μ) :
    Alike Reg.isScratch (step env sem i μ) (step env sem j ν) := by
  cases hstores : i.op.storesThroughDst with
  | true =>
    rw [step_of_store hstores, step_of_store (hop ▸ hstores), h]
    exact alike_scratchWith _ _ _
  | false =>
    rw [step_of_write hstores, step_of_write (hop ▸ hstores), h, hdst hstores]
    exact (alike_scratchWith _ _ _).put _ _

theorem map_seen_eq (h : ∀ a, o = some a → ν.seen env a = μ.seen env a) :
    o.map (ν.seen env) = o.map (μ.seen env) := by
  cases o with
  | none => rfl
  | some a => exact congrArg some (h a rfl)

/-- An instruction that names no scratch register does the same to machines that differ only there. -/
theorem Alike.step (h : Alike Reg.isScratch μ ν) (hi : ∀ o ∈ i.operands, o.location.isScratch = false) :
    Alike Reg.isScratch (step env sem i μ) (Spilling.step env sem i ν) := by
  have hseen : ∀ o ∈ i.operands, ν.seen env o = μ.seen env o := fun o ho =>
    h.seen_eq fun r hr => Operand.location_of_home? hr ▸ hi o ho
  have hdst : seenDst env i ν = seenDst env i μ := by
    simp only [seenDst]
    cases hd : i.dst with
    | none => rfl
    | some d => rw [Option.map_some, Option.map_some, hseen d (by simp [Instr.operands, hd])]
  exact alike_step rfl (fun _ => rfl) (computed_eq h rfl rfl hdst
    (map_seen_eq fun a ha => hseen a (by simp [Instr.operands, ha]))
    (map_seen_eq fun a ha => hseen a (by simp [Instr.operands, ha])))

/-! ### Loads and stores -/

/-- The operand chosen to stand for a spilled one is a register of a kind, in its file. -/
def Stands (S : Reg → Bool) (scratch : Operand → Operand) : Prop :=
  ∀ o, ∃ r, scratch o = .preg r o.type ∧ S r = true ∧ ((r.cls == .sse) = (o.cls == .sse))

/-- One register of the kind in each file will do. -/
theorem stands_of_files (hsse : S sse = true ∧ sse.cls = .sse) (hint : S int = true ∧ int.cls = .int) :
    Stands S fun o => .preg (if o.cls == .sse then sse else int) o.type := by
  intro o
  refine ⟨_, rfl, ?_⟩
  by_cases ho : o.cls = .sse
  · simp [ho, hsse]
  · simp [ho, hint]

theorem stands_first : Stands Reg.isFirstScratch (·.firstScratch) := stands_of_files (by decide) (by decide)

theorem stands_second : Stands Reg.isSecondScratch (·.secondScratch) := stands_of_files (by decide) (by decide)

theorem word_preg {o : Operand} (ho : o.spilled? = some v) (hr : (r.cls == .sse) = (o.cls == .sse)) :
    (Operand.preg r o.type).word = o.word := by
  have hfile : o.file = o.cls := by rw [Operand.file, (Operand.spilled?_eq_some ho).1]
  simp only [Operand.word, hfile, ← hr]
  rfl

theorem step_reload (hsem : Moves env sem) {o : Operand} (ho : o.spilled? = some v)
    (hr : (r.cls == .sse) = (o.cls == .sse)) (μ : State ρ) :
    step env sem (.reload o v (.preg r o.type)) μ
      = μ.write env (.phys r) o.word (μ.memory.load (env.slot v.slot) (o.word.bits / 8)) := by
  have hcomputed : computed env sem (.reload o v (.preg r o.type)) μ
      = (μ.memory.load (env.slot v.slot) (o.word.bits / 8), μ.cleared) := hsem.load o v _ _ ho
  have hput : ∀ x, μ.put env (some (.preg r o.type)) x = μ.write env (.phys r) o.word x := by
    intro x
    rw [← word_preg ho hr]
    rfl
  simp only [step, hcomputed, scratchWith_cleared]
  exact hput _

/-- Only the low bytes of a word are stored. -/
theorem store_fit (m : Memory) (a : BitVec 64) (w : IntWidth) (x : BitVec 64) :
    m.store a (w.bits / 8) ((Ty.int w .unsigned).fit x) = m.store a (w.bits / 8) x := by
  funext p
  by_cases hp : Memory.Within a (w.bits / 8) p
  · have hlt : (p - a).toNat < w.bits / 8 := hp
    have hbits := w.bits_le
    simp only [Memory.store, if_pos hp]
    exact Ty.byteOf_fit _ _ (by rw [Ty.span_int]; exact hlt) (by omega)
  · simp only [Memory.store, if_neg hp]

/-- A store after the register was written does what writing the slot does. -/
theorem step_store (hsem : Moves env sem) {o : Operand} (ho : o.spilled? = some v) (hr : r.isScratch = true)
    (hword : (Operand.preg r t).word = o.word) (h : Alike Reg.isScratch μ ν) (x : BitVec 64) :
    Alike Reg.isScratch (μ.write env (.slot v.id v.slot) o.word x)
      (step env sem (.store o v (some (.preg r t))) (ν.write env (.phys r) o.word x)) := by
  have hν : Alike Reg.isScratch μ (ν.write env (.phys r) o.word x) := h.trans (alike_write_phys hr _ _)
  generalize hκ : ν.write env (.phys r) o.word x = κ at hν
  have hread : κ.read env (.phys r) (Operand.preg r t).word = (Ty.int o.word .unsigned).fit x := by
    rw [← hκ, hword]
    exact read_write_phys r o.word x
  have hcomputed : (computed env sem (.store o v (some (.preg r t))) κ).2
      = { κ.cleared with
          memory := κ.memory.store (env.slot v.slot) (o.word.bits / 8) x } := by
    rw [← store_fit, ← hread]
    exact hsem.store o v _ _ _ ho
  have hstep : step env sem (.store o v (some (.preg r t))) κ
      = κ.scratchWith (computed env sem (.store o v (some (.preg r t))) κ).2 := rfl
  rw [hstep, hcomputed]
  refine ⟨fun s hs => ?_, hν.virt, ?_, hν.rest⟩
  · simp only [State.scratchWith, State.cleared, hs]
    exact hν.phys s hs
  · simp only [State.scratchWith, State.write, hν.memory]

/-! ### Sources -/

/-- What stands for a source: a scratch register if it is spilled, else itself. -/
def replaced (scratch : Operand → Operand) (o : Option Operand) : Option Operand :=
  ((source scratch o).map (·.1)).or o

/-- The load of a source, if it is spilled. -/
def loadOf (scratch : Operand → Operand) (o : Option Operand) : List Instr :=
  ((source scratch o).map (·.2)).toList

theorem source_some {o : Operand} (h : o.spilled? = some v) :
    source scratch (some o) = some (scratch o, .reload o v (scratch o)) := by
  simp [source, h]

theorem source_none (h : ∀ a, o = some a → a.spilled? = none) : source scratch o = none := by
  cases o with
  | none => rfl
  | some a => simp [source, h a rfl]

theorem replaced_some {o : Operand} (h : o.spilled? = some v) :
    replaced scratch (some o) = some (scratch o) := by
  rw [replaced, source_some h]
  rfl

theorem loadOf_some {o : Operand} (h : o.spilled? = some v) :
    loadOf scratch (some o) = [.reload o v (scratch o)] := by
  rw [loadOf, source_some h]
  rfl

theorem replaced_of_source (h : source scratch o = none) : replaced scratch o = o := by
  rw [replaced, h]
  rfl

/-- A source is spilled, or nothing is done about it. -/
theorem source_cases (scratch : Operand → Operand) (o : Option Operand) :
    (∃ a v, o = some a ∧ a.spilled? = some v ∧ replaced scratch o = some (scratch a) ∧
        loadOf scratch o = [.reload a v (scratch a)]) ∨
      ((∀ a, o = some a → a.spilled? = none) ∧ replaced scratch o = o ∧ loadOf scratch o = []) := by
  by_cases h : ∀ a, o = some a → a.spilled? = none
  · refine .inr ⟨h, replaced_of_source (source_none h), ?_⟩
    rw [loadOf, source_none h]
    rfl
  · push Not at h
    obtain ⟨a, rfl, ha⟩ := h
    obtain ⟨v, hv⟩ := Option.ne_none_iff_exists'.mp ha
    exact .inl ⟨a, v, rfl, hv, replaced_some hv, loadOf_some hv⟩

/-- What stands for a source is not spilled, and in a register of its kind or where it was. -/
theorem of_mem_replaced (hS : Stands S scratch) (ha : replaced scratch o = some a) :
    a.spilled? = none ∧ ((∃ r, a.home? = some (.phys r) ∧ S r = true) ∨ o = some a) := by
  rcases source_cases scratch o with ⟨b, v, -, -, hb, -⟩ | ⟨hnone, hsame, -⟩
  · obtain ⟨r, hr, hSr, -⟩ := hS b
    rw [hb, hr] at ha
    cases ha
    exact ⟨rfl, .inl ⟨r, rfl, hSr⟩⟩
  · rw [hsame] at ha
    exact ⟨hnone a ha, .inr ha⟩

/-- **After its load a source is seen as it was in its slot**, and only registers of its kind have
changed. -/
theorem seen_reloaded (hsem : Moves env sem) (hS : Stands S scratch) (o : Option Operand) (μ : State ρ) :
    Alike S μ (exec env sem (loadOf scratch o) μ) ∧
      (replaced scratch o).map ((exec env sem (loadOf scratch o) μ).seen env) = o.map (μ.seen env) := by
  rcases source_cases scratch o with ⟨a, v, rfl, hv, hreplaced, hload⟩ | ⟨-, hsame, hload⟩
  · obtain ⟨r, hr, hSr, hcls⟩ := hS a
    have hexec : exec env sem (loadOf scratch (some a)) μ
        = μ.write env (.phys r) a.word (μ.memory.load (env.slot v.slot) (a.word.bits / 8)) := by
      rw [hload, hr]
      exact step_reload hsem hv hcls μ
    refine ⟨hexec ▸ alike_write_phys hSr _ _, ?_⟩
    rw [hexec, hreplaced, hr, Option.map_some, Option.map_some]
    simp only [State.seen, Operand.home?_of_spilled hv]
    rw [show (Operand.preg r a.type).home? = some (.phys r) from rfl]
    simp only [word_preg hv hcls, read_write_phys]
    rfl
  · rw [hsame, hload]
    exact ⟨.refl S μ, rfl⟩

/-! ### Operands that agree -/

/-- All operands of a virtual register agree on where it is and how wide it is, and none is in a
scratch register. -/
structure Settled (operands : List Operand) : Prop where
  agree : ∀ a ∈ operands, ∀ b ∈ operands, ∀ v ∈ a.vreg?, ∀ u ∈ b.vreg?, v.id = u.id →
    v.reg = u.reg ∧ v.spilled = u.spilled ∧ v.slot = u.slot ∧ a.width = b.width
  free : ∀ o ∈ operands, o.location.isScratch = false

instance (operands : List Operand) : Decidable (Settled operands) :=
  decidable_of_iff ((∀ a ∈ operands, ∀ b ∈ operands, ∀ v ∈ a.vreg?, ∀ u ∈ b.vreg?, v.id = u.id →
    v.reg = u.reg ∧ v.spilled = u.spilled ∧ v.slot = u.slot ∧ a.width = b.width) ∧
      ∀ o ∈ operands, o.location.isScratch = false) ⟨fun h => ⟨h.1, h.2⟩, fun h => ⟨h.1, h.2⟩⟩

variable {operands more : List Operand} {d b : Operand} {dst : Option Operand} {pieces : List Spilling}

theorem Settled.mono (h : Settled more) (hsub : ∀ o ∈ operands, o ∈ more) : Settled operands :=
  ⟨fun a ha b hb => h.agree a (hsub a ha) b (hsub b hb), fun o ho => h.free o (hsub o ho)⟩

/-- No operand lives in a scratch register. -/
theorem Settled.home_free (h : Settled operands) (hd : d ∈ operands) (hr : d.home? = some (.phys r)) :
    r.isScratch = false :=
  Operand.location_of_home? hr ▸ h.free d hd

/-- An operand of the same virtual register as a spilled one is spilled to the same slot. -/
theorem Settled.of_sameVReg (h : Settled operands) (hd : d ∈ operands) (hv : d.spilled? = some v)
    (ho : ∀ a, o = some a → a ∈ operands) (hsame : d.sameVReg o = true) :
    ∃ a u, o = some a ∧ a.spilled? = some u ∧ u.id = v.id ∧ u.slot = v.slot ∧ a.word = d.word := by
  obtain ⟨hvalue, hspilled⟩ := Operand.spilled?_eq_some hv
  simp only [Operand.sameVReg, Operand.vregId?_of_spilled hv] at hsame
  cases o with
  | none => cases hsame
  | some a =>
    have ha := ho a rfl
    obtain ⟨value, type, offset⟩ := a
    cases value with
    | vreg u =>
      have hid : v.id = u.id := by simpa [Operand.vregId?] using hsame
      obtain ⟨-, hspilled', hslot, hwidth⟩ :=
        h.agree _ hd _ ha v (by simp [Operand.vreg?, hvalue]) u rfl hid
      refine ⟨_, u, rfl, if_pos (hspilled' ▸ hspilled), hid.symm, hslot.symm, ?_⟩
      exact (Operand.word_eq_of_id hvalue rfl hid hwidth).symm
    | _ => cases hsame

theorem seen_eq_of_slot (ha : a.spilled? = some u) (hb : b.spilled? = some v) (hid : u.id = v.id)
    (hslot : u.slot = v.slot) (hword : a.word = b.word) (μ : State ρ) : μ.seen env a = μ.seen env b := by
  simp only [State.seen, Operand.home?_of_spilled ha, Operand.home?_of_spilled hb, hid, hslot, hword]

/-! ### One instruction -/

/-- The loads of the sources. -/
def sourceLoads (i : Instr) : List Instr :=
  loadOf (·.firstScratch) i.src1 ++ loadOf (·.secondScratch) i.src2

/-- The instruction with another destination, and its sources replaced. -/
def withScratch (i : Instr) (dst : Option Operand) : Instr :=
  { i with
    dst := dst
    src1 := replaced (·.firstScratch) i.src1
    src2 := replaced (·.secondScratch) i.src2 }

/-- The register that receives the result for a spilled destination: that of the source it also is, or
the second one, which is free then. -/
inductive Receives (i : Instr) (d : Operand) : Option Operand → Prop
  | first (hsame : d.sameVReg i.src1 = true) : Receives i d ((source (·.firstScratch) i.src1).map (·.1))
  | second (hsame : d.sameVReg i.src2 = true) : Receives i d ((source (·.secondScratch) i.src2).map (·.1))
  | neither (hfirst : d.sameVReg i.src1 = false) (hsecond : d.sameVReg i.src2 = false)
      (hfree : source (·.secondScratch) i.src2 = none) : Receives i d (some d.secondScratch)

/-- What becomes of an instruction, labels apart. -/
inductive Rewritten (i : Instr) : Spilling → Prop
  | plain (hdst : ∀ d, i.dst = some d → d.spilled? = none) :
      Rewritten i ⟨sourceLoads i, withScratch i i.dst, []⟩
  | pointer {d : Operand} {v : VReg} (hd : i.dst = some d) (hv : d.spilled? = some v)
      (hop : i.op.storesThroughDst = true) (hfree : source (·.secondScratch) i.src2 = none) :
      Rewritten i ⟨sourceLoads i ++ [.reload d v d.secondScratch], withScratch i (some d.secondScratch), []⟩
  | result {d : Operand} {v : VReg} {reg : Option Operand} (hd : i.dst = some d) (hv : d.spilled? = some v)
      (hop : i.op.storesThroughDst = false) (hreg : Receives i d reg) :
      Rewritten i ⟨sourceLoads i, withScratch i reg, [.store d v reg]⟩

theorem filterMap_loads (first second : Option (Operand × Instr)) :
    [first, second].filterMap (·.map (·.2)) = (first.map (·.2)).toList ++ (second.map (·.2)).toList := by
  cases first <;> cases second <;> rfl

theorem mem_operands : a ∈ i.operands ↔ i.dst = some a ∨ i.src1 = some a ∨ i.src2 = some a := by
  simp [Instr.operands, eq_comm]

theorem mem_sources : a ∈ i.sources ↔ i.src1 = some a ∨ i.src2 = some a := by
  simp [Instr.sources, eq_comm]

theorem mem_operands_of_sources (h : a ∈ i.sources) : a ∈ i.operands :=
  mem_operands.mpr (.inr (mem_sources.mp h))

theorem mem_operands_src1 (h : i.src1 = some a) : a ∈ i.operands :=
  mem_operands.mpr (.inr (.inl h))

theorem mem_operands_src2 (h : i.src2 = some a) : a ∈ i.operands :=
  mem_operands.mpr (.inr (.inr h))

theorem mem_operands_dst (h : i.dst = some d) : d ∈ i.operands := mem_operands.mpr (.inl h)

/-- The register that replaces a source of the same virtual register. -/
theorem map_source_of_sameVReg (hi : Settled i.operands) (hd : i.dst = some d) (hv : d.spilled? = some v)
    (ho : ∀ a, o = some a → a ∈ i.operands) (hsame : d.sameVReg o = true) (scratch : Operand → Operand) :
    ∃ reg, (source scratch o).map (·.1) = some reg ∧ replaced scratch o = some reg := by
  obtain ⟨a, u, rfl, hu, -⟩ := hi.of_sameVReg (mem_operands_dst hd) hv ho hsame
  refine ⟨scratch a, ?_, replaced_some hu⟩
  rw [source_some hu]
  rfl

theorem rewritten_of_withDst (hd : i.dst = some d) (hv : d.spilled? = some v)
    (h : withDst i d v (source (·.firstScratch) i.src1) (source (·.secondScratch) i.src2) = .ok s) :
    Rewritten i { s with instr := withScratch i s.instr.dst } ∧
      s.instr = { i with dst := s.instr.dst } := by
  simp only [withDst, filterMap_loads] at h
  split at h
  · next hop =>
    split at h
    · exact nomatch h
    · next hfree =>
      cases h
      exact ⟨.pointer hd hv hop (by simpa using hfree), rfl⟩
  · next hop =>
    have hop : i.op.storesThroughDst = false := by simpa using hop
    split at h
    · next hfirst =>
      cases h
      exact ⟨.result hd hv hop (.first hfirst), rfl⟩
    · next hfirst =>
      split at h
      · next hsecond =>
        cases h
        exact ⟨.result hd hv hop (.second hsecond), rfl⟩
      · next hsecond =>
        split at h
        · exact nomatch h
        · next hfree =>
          cases h
          exact ⟨.result hd hv hop (.neither (by simpa using hfirst) (by simpa using hsecond)
            (by simpa using hfree)), rfl⟩

/-- **What spill code makes of an instruction is one of three things.** -/
theorem rewritten_of_ofInstr (h : ofInstr i = .ok s) :
    ∃ s', Rewritten i s' ∧ s = s'.moveLabel := by
  by_cases hplain : ∀ d, i.dst = some d → d.spilled? = none
  · have hbind : (i.dst.bind fun d => d.spilled?.map fun v => (d, v)) = none := by
      cases hd : i.dst with
      | none => rfl
      | some d => simp [hplain d hd]
    simp only [ofInstr, hbind, filterMap_loads] at h
    cases h
    exact ⟨_, .plain hplain, rfl⟩
  · push Not at hplain
    obtain ⟨d, hd, hne⟩ := hplain
    obtain ⟨v, hv⟩ := Option.ne_none_iff_exists'.mp hne
    have hbind : (i.dst.bind fun d => d.spilled?.map fun v => (d, v)) = some (d, v) := by
      simp [hd, hv]
    simp only [ofInstr, hbind] at h
    cases hdst : withDst i d v (source (·.firstScratch) i.src1) (source (·.secondScratch) i.src2) with
    | error cause => rw [hdst] at h; exact nomatch h
    | ok t =>
      rw [hdst] at h
      cases h
      obtain ⟨hrewritten, hinstr⟩ := rewritten_of_withDst hd hv hdst
      refine ⟨_, hrewritten, ?_⟩
      rw [hinstr]
      rfl

/-! ### What the rewritten instruction sees -/

/-- The sources are seen as before the loads, which changed scratch registers only. -/
structure Loaded (env : Addresses) (i : Instr) (μ ν : State ρ) : Prop where
  alike : Alike Reg.isScratch μ ν
  src1 : (replaced (·.firstScratch) i.src1).map (ν.seen env) = i.src1.map (μ.seen env)
  src2 : (replaced (·.secondScratch) i.src2).map (ν.seen env) = i.src2.map (μ.seen env)

/-- A load into a second scratch register does not change what stands for the first source. -/
theorem not_second_of_replaced (hi : Settled i.operands) (ha : replaced (·.firstScratch) i.src1 = some a)
    (hr : a.home? = some (.phys r)) : r.isSecondScratch = false := by
  obtain ⟨-, ⟨q, hq, hfirst⟩ | hsame⟩ := of_mem_replaced stands_first ha
  · rw [hq] at hr
    cases hr
    exact Reg.isSecondScratch_of_first hfirst
  · have hfree := hi.home_free (mem_operands_src1 hsame) hr
    by_contra h
    rw [Reg.isScratch_of_second (by simpa using h)] at hfree
    exact nomatch hfree

/-- **Once the sources are loaded they are seen as they were.** -/
theorem loaded_sourceLoads (hsem : Moves env sem) (hi : Settled i.operands) (μ : State ρ) :
    Loaded env i μ (exec env sem (sourceLoads i) μ) := by
  obtain ⟨halike₁, hseen₁⟩ := seen_reloaded hsem stands_first i.src1 μ
  rw [sourceLoads, exec_append]
  generalize exec env sem (loadOf (·.firstScratch) i.src1) μ = ν at halike₁ hseen₁ ⊢
  obtain ⟨halike₂, hseen₂⟩ := seen_reloaded hsem stands_second i.src2 ν
  have hν : Alike Reg.isScratch μ ν := halike₁.mono fun _ => Reg.isScratch_of_first
  refine ⟨hν.trans (halike₂.mono fun _ => Reg.isScratch_of_second), ?_, ?_⟩
  · rw [← hseen₁]
    exact map_seen_eq fun a ha => halike₂.seen_eq fun r => not_second_of_replaced hi ha
  · rw [hseen₂]
    exact map_seen_eq fun a ha => hν.seen_eq fun r => hi.home_free (mem_operands_src2 ha)

/-- The pointer is loaded last, and what was seen before is still seen. -/
theorem loaded_pointer (hsem : Moves env sem) (hi : Settled i.operands) (hd : i.dst = some d)
    (hv : d.spilled? = some v) (hfree : source (·.secondScratch) i.src2 = none) (h : Loaded env i μ ν) :
    Loaded env i μ (step env sem (.reload d v d.secondScratch) ν) ∧
      (step env sem (.reload d v d.secondScratch) ν).seen env d.secondScratch = μ.seen env d := by
  obtain ⟨halike, hseen⟩ := seen_reloaded hsem stands_second (some d) ν
  rw [loadOf_some hv, replaced_some hv] at hseen
  rw [loadOf_some hv] at halike
  have hexec : exec env sem [.reload d v d.secondScratch] ν
      = step env sem (.reload d v d.secondScratch) ν := rfl
  rw [hexec] at hseen halike
  refine ⟨⟨h.alike.trans (halike.mono fun _ => Reg.isScratch_of_second), ?_, ?_⟩, ?_⟩
  · rw [← h.src1]
    exact map_seen_eq fun a ha => halike.seen_eq fun r => not_second_of_replaced hi ha
  · rw [← h.src2, replaced_of_source hfree]
    exact map_seen_eq fun a ha => halike.seen_eq fun r hr =>
      (Bool.or_eq_false_iff.mp (hi.home_free (mem_operands_src2 ha) hr)).2
  · rw [Option.some.inj hseen]
    exact h.alike.seen_eq fun r => hi.home_free (mem_operands_dst hd)

theorem any_sources (i : Instr) (p : Operand → Bool) :
    i.sources.any p = (i.src1.any p || i.src2.any p) := by
  cases h₁ : i.src1 <;> cases h₂ : i.src2 <;> simp [Instr.sources, h₁, h₂]

/-- Replacing a source makes it no other register's equal. -/
theorem any_home_replaced (hS : Stands S scratch) (o : Option Operand)
    (hslot : ∀ id index, d.home? ≠ some (.slot id index))
    (hfree : ∀ r, d.home? = some (.phys r) → S r = false) :
    (replaced scratch o).any (fun a => a.home? == d.home?) = o.any (fun a => a.home? == d.home?) := by
  rcases source_cases scratch o with ⟨a, u, rfl, hu, hreplaced, -⟩ | ⟨-, hsame, -⟩
  · obtain ⟨r, hr, hSr, -⟩ := hS a
    have hleft : (Operand.preg r a.type).home? ≠ d.home? := by
      intro heq
      have := hfree r heq.symm
      rw [hSr] at this
      exact nomatch this
    have hright : a.home? ≠ d.home? := by
      rw [Operand.home?_of_spilled hu]
      exact fun heq => hslot _ _ heq.symm
    rw [hreplaced, hr, Option.any_some, Option.any_some, beq_eq_false_iff_ne.mpr hleft,
      beq_eq_false_iff_ne.mpr hright]
  · rw [hsame]

/-- A destination that is not spilled is seen as before. -/
theorem seenDst_plain (hi : Settled i.operands) (hdst : ∀ d, i.dst = some d → d.spilled? = none)
    (h : Loaded env i μ ν) : seenDst env (withScratch i i.dst) ν = seenDst env i μ := by
  cases hd : i.dst with
  | none => simp [seenDst, withScratch, hd]
  | some d =>
    have hslot : ∀ id index, d.home? ≠ some (.slot id index) := by
      intro id index hhome
      obtain ⟨v, hv, -⟩ := Operand.exists_of_home?_slot hhome
      rw [hdst d hd] at hv
      exact nomatch hv
    have hfree := fun r => hi.home_free (r := r) (mem_operands_dst hd)
    have hupdates : updatesDst (withScratch i (some d)) = updatesDst i := by
      simp only [updatesDst, withScratch, hd, Option.any_some, any_sources]
      rw [any_home_replaced stands_first _ hslot, any_home_replaced stands_second _ hslot]
      · intro r hr
        exact (Bool.or_eq_false_iff.mp (hfree r hr)).2
      · intro r hr
        exact (Bool.or_eq_false_iff.mp (hfree r hr)).1
    have hseen : ν.seen env d = μ.seen env d := h.alike.seen_eq hfree
    simp only [seenDst, hupdates, hd]
    simp only [withScratch, Option.map_some, hseen]

/-- A destination among the sources of the instruction is looked at. -/
theorem updatesDst_of_mem (hd : j.dst = some d) (hsome : d.home?.isSome = true) (ha : a ∈ j.sources)
    (hhome : a.home? = d.home?) : updatesDst j = true := by
  have hany : (j.sources.any fun s => s.home? == d.home?) = true :=
    List.any_eq_true.mpr ⟨a, ha, by simp [hhome]⟩
  simp [updatesDst, hd, hsome, hany]

/-- The register that receives the result: a scratch register as wide as the destination, seen as the
destination was. -/
structure Serves (env : Addresses) (i : Instr) (d reg : Operand) (μ ν : State ρ) : Prop where
  preg : ∃ r t, reg = .preg r t ∧ r.isScratch = true ∧ reg.word = d.word
  seen : seenDst env (withScratch i (some reg)) ν = seenDst env i μ

/-- A source that is the destination too stands in its register for both. -/
theorem serves_source (hi : Settled i.operands) (hd : i.dst = some d) (hv : d.spilled? = some v)
    (hS : Stands S scratch) (hscratch : ∀ r, S r = true → r.isScratch = true) (ho : ∀ a, o = some a → a ∈ i.sources)
    (hsame : d.sameVReg o = true) (hreg : replaced scratch o = some reg)
    (hmem : reg ∈ (withScratch i (some reg)).sources)
    (hseen : (replaced scratch o).map (ν.seen env) = o.map (μ.seen env)) : Serves env i d reg μ ν := by
  obtain ⟨a, u, rfl, hu, hid, hslot, hword⟩ :=
    hi.of_sameVReg (mem_operands_dst hd) hv (fun a ha => mem_operands_of_sources (ho a ha)) hsame
  obtain ⟨r, hr, hSr, hcls⟩ := hS a
  have hpreg : reg = .preg r a.type := by
    rw [← hr]
    exact Option.some.inj (hreg.symm.trans (replaced_some hu))
  refine ⟨⟨r, a.type, hpreg, hscratch r hSr, by rw [hpreg, word_preg hu hcls, hword]⟩, ?_⟩
  have hupdates : updatesDst (withScratch i (some reg)) = true :=
    updatesDst_of_mem rfl (by rw [hpreg]; rfl) hmem rfl
  have hupdates' : updatesDst i = true := by
    refine updatesDst_of_mem hd (by rw [Operand.home?_of_spilled hv]; rfl) (ho a rfl) ?_
    rw [Operand.home?_of_spilled hu, Operand.home?_of_spilled hv, hid, hslot]
  rw [hreg] at hseen
  have hboth : ν.seen env reg = μ.seen env d :=
    (Option.some.inj hseen).trans (seen_eq_of_slot hu hv hid hslot hword μ)
  simp only [seenDst, hupdates, hupdates', hd]
  simp only [withScratch, Option.map_some, Bool.or_true, if_true, hboth]

/-- A spilled destination that is none of the sources is not looked at. -/
theorem updatesDst_eq_false (hd : i.dst = some d) (hv : d.spilled? = some v)
    (hfirst : d.sameVReg i.src1 = false) (hsecond : d.sameVReg i.src2 = false) : updatesDst i = false := by
  have hother : ∀ o : Option Operand, d.sameVReg o = false →
      o.any (fun a => a.home? == d.home?) = false := by
    intro o ho
    cases o with
    | none => rfl
    | some a =>
      rw [Option.any_some, beq_eq_false_iff_ne, Operand.home?_of_spilled hv]
      intro hhome
      obtain ⟨u, hu, hid⟩ := Operand.exists_of_home?_slot hhome
      simp [Operand.sameVReg, Operand.vregId?_of_spilled hv, Operand.vregId?_of_spilled hu, hid] at ho
  simp only [updatesDst, hd, any_sources, Option.any_some, hother _ hfirst, hother _ hsecond, Bool.or_self,
    Bool.and_false]

/-- The second scratch register, if no source is in it, is not looked at either. -/
theorem updatesDst_second_eq_false (hi : Settled i.operands)
    (hfree : source (·.secondScratch) i.src2 = none) :
    updatesDst (withScratch i (some d.secondScratch)) = false := by
  obtain ⟨r, hr, hSr, -⟩ := stands_second d
  have hhome : d.secondScratch.home? = some (.phys r) := congrArg Operand.home? hr
  have h₁ : (replaced (·.firstScratch) i.src1).any (fun a => a.home? == some (.phys r)) = false := by
    refine (Option.any_eq_false _ _).mpr fun a ha => beq_eq_false_iff_ne.mpr fun hphys => ?_
    rw [not_second_of_replaced hi ha hphys] at hSr
    exact nomatch hSr
  have h₂ : (replaced (·.secondScratch) i.src2).any (fun a => a.home? == some (.phys r)) = false := by
    rw [replaced_of_source hfree]
    refine (Option.any_eq_false _ _).mpr fun a ha => beq_eq_false_iff_ne.mpr fun hphys => ?_
    have := hi.home_free (mem_operands_src2 ha) hphys
    rw [Reg.isScratch_of_second hSr] at this
    exact nomatch this
  simp only [updatesDst, any_sources, withScratch, Option.any_some, hhome, h₁, h₂, Bool.or_false,
    Bool.and_false]

theorem Receives.serves (h : Receives i d dst) (hi : Settled i.operands) (hd : i.dst = some d)
    (hv : d.spilled? = some v) (hop : i.op.storesThroughDst = false) (hloaded : Loaded env i μ ν) :
    ∃ reg, dst = some reg ∧ Serves env i d reg μ ν := by
  cases h with
  | first hsame =>
    obtain ⟨reg, hmap, hreg⟩ := map_source_of_sameVReg hi hd hv (fun _ => mem_operands_src1) hsame (·.firstScratch)
    exact ⟨reg, hmap, serves_source hi hd hv stands_first (fun _ => Reg.isScratch_of_first)
      (fun a ha => mem_sources.mpr (.inl ha)) hsame hreg (mem_sources.mpr (.inl hreg)) hloaded.src1⟩
  | second hsame =>
    obtain ⟨reg, hmap, hreg⟩ := map_source_of_sameVReg hi hd hv (fun _ => mem_operands_src2) hsame (·.secondScratch)
    exact ⟨reg, hmap, serves_source hi hd hv stands_second (fun _ => Reg.isScratch_of_second)
      (fun a ha => mem_sources.mpr (.inr ha)) hsame hreg (mem_sources.mpr (.inr hreg)) hloaded.src2⟩
  | neither hfirst hsecond hfree =>
    obtain ⟨r, hr, hSr, hcls⟩ := stands_second d
    have hword : d.secondScratch.word = d.word := (congrArg Operand.word hr).trans (word_preg hv hcls)
    refine ⟨_, rfl, ⟨r, d.type, hr, Reg.isScratch_of_second hSr, hword⟩, ?_⟩
    have hunseen : State.unseen d.secondScratch = State.unseen d := by
      simp only [State.unseen, Operand.home?_of_spilled hv, ← hword]
      rfl
    simp only [seenDst, updatesDst_second_eq_false hi hfree, updatesDst_eq_false hd hv hfirst hsecond, hd]
    simp only [withScratch, Option.map_some, hop, Bool.or_self, Bool.false_eq_true, if_false, hunseen]

/-- **Executing what an instruction was rewritten to does what the instruction does to its slots
directly.** -/
theorem exec_rewritten (hsem : Moves env sem) (hi : Settled i.operands) (h : Rewritten i s) (μ : State ρ) :
    Alike Reg.isScratch (step env sem i μ) (exec env sem s.code μ) := by
  have hloaded := loaded_sourceLoads hsem hi μ
  cases h with
  | plain hdst =>
    rw [code, exec_append]
    generalize exec env sem (sourceLoads i) μ = ν at hloaded
    have hcomputed : computed env sem (withScratch i i.dst) ν = computed env sem i μ :=
      computed_eq hloaded.alike rfl rfl (seenDst_plain hi hdst hloaded) hloaded.src1 hloaded.src2
    exact alike_step rfl (fun _ => rfl) hcomputed
  | pointer hd hv hop hfree =>
    rename_i d v
    rw [code, exec_append, exec_append]
    generalize exec env sem (sourceLoads i) μ = ν at hloaded
    obtain ⟨hpointer, hseen⟩ := loaded_pointer hsem hi hd hv hfree hloaded
    show Alike _ _ (step env sem (withScratch i (some d.secondScratch))
      (step env sem (.reload d v d.secondScratch) ν))
    generalize step env sem (.reload d v d.secondScratch) ν = κ at hpointer hseen
    have hdst : seenDst env (withScratch i (some d.secondScratch)) κ = seenDst env i μ := by
      simp only [seenDst, withScratch, hd, hop, Bool.true_or, if_true, Option.map_some, hseen]
    have hcomputed : computed env sem (withScratch i (some d.secondScratch)) κ = computed env sem i μ :=
      computed_eq hpointer.alike rfl rfl hdst hpointer.src1 hpointer.src2
    exact alike_step rfl (fun hwrites => nomatch hop.symm.trans hwrites) hcomputed
  | result hd hv hop hreg =>
    rename_i d v reg
    rw [code, exec_append]
    generalize exec env sem (sourceLoads i) μ = ν at hloaded
    obtain ⟨_, rfl, ⟨r, t, rfl, hr, hword⟩, hdst⟩ := hreg.serves hi hd hv hop hloaded
    have hcomputed : computed env sem (withScratch i (some (.preg r t))) ν = computed env sem i μ :=
      computed_eq hloaded.alike rfl rfl hdst hloaded.src1 hloaded.src2
    show Alike _ _ (step env sem (.store d v (some (.preg r t)))
      (step env sem (withScratch i (some (.preg r t))) ν))
    have hleft : step env sem i μ = (μ.scratchWith (computed env sem i μ).2).write env
        (.slot v.id v.slot) d.word (computed env sem i μ).1 := by
      rw [step_of_write hop, hd]
      simp only [State.put, Operand.home?_of_spilled hv]
    have hright : step env sem (withScratch i (some (.preg r t))) ν
        = (ν.scratchWith (computed env sem i μ).2).write env (.phys r) d.word (computed env sem i μ).1 := by
      rw [step_of_write (i := withScratch i (some (.preg r t))) hop, hcomputed, ← hword]
      rfl
    rw [hleft, hright]
    exact step_store hsem hv hr hword (alike_scratchWith _ _ _) _

/-! ### Nothing is left spilled -/

theorem not_spilled_preg (r : Reg) (t : Ty) : (Operand.preg r t).spilled? = none := rfl

theorem not_spilled_slot (index : Int) (t : Ty) : (Operand.slot index t).spilled? = none := rfl

theorem not_spilled_loadOf (hS : Stands S scratch) (hj : j ∈ loadOf scratch o) :
    ∀ a ∈ j.operands, a.spilled? = none := by
  rcases source_cases scratch o with ⟨a, v, -, -, -, hload⟩ | ⟨-, -, hload⟩
  · rw [hload, List.mem_singleton] at hj
    obtain ⟨r, hr, -⟩ := hS a
    subst hj
    rw [hr]
    intro b hb
    rcases mem_operands.mp hb with h | h | h
    · exact Option.some.inj h ▸ not_spilled_preg r _
    · exact Option.some.inj h ▸ not_spilled_slot _ _
    · exact nomatch h
  · rw [hload] at hj
    exact nomatch hj

theorem not_spilled_sourceLoads (hj : j ∈ sourceLoads i) : ∀ a ∈ j.operands, a.spilled? = none := by
  rcases List.mem_append.mp hj with hj | hj
  · exact not_spilled_loadOf stands_first hj
  · exact not_spilled_loadOf stands_second hj

theorem not_spilled_withScratch (hdst : ∀ d, dst = some d → d.spilled? = none) :
    ∀ a ∈ (withScratch i dst).operands, a.spilled? = none := by
  intro a ha
  rcases mem_operands.mp ha with ha | ha | ha
  · exact hdst a ha
  · exact (of_mem_replaced stands_first ha).1
  · exact (of_mem_replaced stands_second ha).1

theorem not_spilled_source (hS : Stands S scratch) (h : (source scratch o).map (·.1) = some a) :
    a.spilled? = none :=
  (of_mem_replaced (o := o) hS (by rw [replaced, h]; rfl)).1

theorem Receives.not_spilled (h : Receives i d dst) : ∀ a, dst = some a → a.spilled? = none := by
  intro a ha
  cases h with
  | first => exact not_spilled_source stands_first ha
  | second => exact not_spilled_source stands_second ha
  | neither => exact Option.some.inj ha ▸ rfl

theorem Rewritten.not_spilled (h : Rewritten i s) :
    ∀ j ∈ s.code, ∀ a ∈ j.operands, a.spilled? = none := by
  intro j hj
  cases h with
  | plain hdst =>
    simp only [code, List.mem_append, List.mem_singleton] at hj
    rcases hj with hj | rfl
    · exact not_spilled_sourceLoads hj
    · exact not_spilled_withScratch hdst
  | pointer hd hv hop hfree =>
    simp only [code, List.mem_append, List.mem_singleton] at hj
    rcases hj with (hj | rfl) | rfl
    · exact not_spilled_sourceLoads hj
    · exact not_spilled_loadOf (o := i.dst) stands_second (by simp [hd, loadOf, source_some hv])
    · exact not_spilled_withScratch (by rintro _ ⟨⟩; rfl)
  | result hd hv hop hreg =>
    simp only [code, List.mem_append, List.mem_cons, List.not_mem_nil, or_false] at hj
    rcases hj with hj | rfl | rfl
    · exact not_spilled_sourceLoads hj
    · exact not_spilled_withScratch hreg.not_spilled
    · intro a ha
      rcases mem_operands.mp ha with h | h | h
      · exact Option.some.inj h ▸ not_spilled_slot _ _
      · exact hreg.not_spilled a h
      · exact nomatch h

/-! ### Labels -/

theorem code_moveLabel (s : Spilling) :
    List.Forall₂ (fun j k => ∃ label, k = { j with label := label }) s.code s.moveLabel.code := by
  have hsame : ∀ l : List Instr, List.Forall₂ (fun j k => ∃ label, k = { j with label := label }) l l :=
    fun l => List.forall₂_same.mpr fun j _ => ⟨j.label, rfl⟩
  obtain ⟨loads, instr, stores⟩ := s
  cases loads with
  | nil => exact hsame _
  | cons load rest =>
    simp only [moveLabel]
    split
    · exact hsame _
    · refine .cons ⟨_, rfl⟩ (List.rel_append (hsame rest) (.cons ⟨_, rfl⟩ (hsame stores)))

theorem exec_moveLabel (s : Spilling) (μ : State ρ) :
    exec env sem s.moveLabel.code μ = exec env sem s.code μ := by
  have hcode := code_moveLabel s
  generalize s.code = l at hcode ⊢
  generalize s.moveLabel.code = l' at hcode ⊢
  induction hcode generalizing μ with
  | nil => rfl
  | cons hjk _ ih =>
    obtain ⟨label, rfl⟩ := hjk
    exact ih _

theorem not_spilled_moveLabel (h : ∀ j ∈ s.code, ∀ a ∈ j.operands, a.spilled? = none) :
    ∀ j ∈ s.moveLabel.code, ∀ a ∈ j.operands, a.spilled? = none := by
  intro k hk
  obtain ⟨j, hj, label, rfl⟩ := exists_of_forall₂ (code_moveLabel s).flip hk
  exact h j hj

theorem length_code (s : Spilling) : s.code.length = s.added + 1 := by
  simp only [code, added, List.length_append, List.length_cons]
  omega

/-! ### A whole function -/

/-- The code of one instruction before the code of the rest. -/
theorem meets_addCode {x : Traced (List Instr × Nat)} {P Q : List Instr × Nat → Prop}
    {fail : Failure → Prop} (h : Traced.Meets x P fail)
    (hpost : ∀ r, P r → Q (s.code ++ r.1, s.added + r.2)) :
    Traced.Meets (do
      let (code, added) ← x
      return (s.code ++ code, s.added + added)) Q fail :=
  Traced.meets_bind h fun r hr => Traced.meets_pure (hpost r hr)

/-- Instructions are taken one by one, and the instructions added are counted. -/
theorem meets_addTo (name : String) (code : List Instr) :
    Traced.Meets (addTo name code) (fun r => ∃ pieces, List.Forall₂ (fun i s => ofInstr i = .ok s) code pieces ∧
      r.1 = pieces.flatMap Spilling.code ∧ r.1.length = code.length + r.2) (fun _ => True) := by
  induction code with
  | nil => exact Traced.meets_pure ⟨[], .nil, rfl, rfl⟩
  | cons i rest ih =>
    rw [addTo]
    cases hi : ofInstr i with
    | error cause => exact Traced.meets_throw trivial
    | ok s =>
      have hrest := meets_addCode (s := s) (Q := fun r => ∃ pieces,
          List.Forall₂ (fun i s => ofInstr i = .ok s) (i :: rest) pieces ∧
            r.1 = pieces.flatMap Spilling.code ∧ r.1.length = (i :: rest).length + r.2) ih fun r hr => by
        obtain ⟨pieces, hpieces, hcode, hlength⟩ := hr
        refine ⟨s :: pieces, .cons hi hpieces, ?_, ?_⟩
        · rw [hcode]
          rfl
        · rw [List.length_append, length_code, List.length_cons]
          omega
      dsimp only
      split
      · exact Traced.meets_bind (Traced.meets_note _ _) fun _ _ => hrest
      · exact hrest

/-- **Pieces that do what their instructions do, one after the other, do what the code does.** -/
theorem exec_pieces {code : List Instr} (hfree : ∀ i ∈ code, ∀ o ∈ i.operands, o.location.isScratch = false)
    (h : List.Forall₂ (fun i s => ∀ μ, Alike Reg.isScratch (step env sem i μ) (exec env sem s.code μ))
      code pieces) (hμ : Alike Reg.isScratch μ ν) :
    Alike Reg.isScratch (exec env sem code μ) (exec env sem (pieces.flatMap Spilling.code) ν) := by
  induction h generalizing μ ν with
  | nil => exact hμ
  | @cons i s code pieces hpiece _ ih =>
    rw [List.flatMap_cons, exec_append]
    have hstep : Alike Reg.isScratch (step env sem i μ) (step env sem i ν) := hμ.step (hfree i (by simp))
    exact ih (fun j hj => hfree j (by simp [hj])) (hstep.trans (hpiece ν))

end

end Spilling

namespace Function

open Spilling

/-- **Spill code simulates registers that live in memory.**  Whatever instructions compute, adding spill
code to code whose operands are settled leaves no spilled operand and counts what it adds; and each
piece of the new code does to the other registers, to memory and to the rest of the machine what its
instruction does when it works on the slots, so the whole code does too. -/
theorem addSpillCode_simulates (f g : Function) (added : Nat) (events events' : Array Event)
    (hf : Settled (f.code.flatMap Instr.operands))
    (hrun : f.addSpillCode.run events = .ok (added, g) events') :
    (∀ i ∈ g.code, ∀ o ∈ i.operands, o.spilled? = none) ∧
      g.code.length = f.code.length + added ∧
      ∃ pieces : List Spilling, g.code = pieces.flatMap Spilling.code ∧
        ∀ (ρ : Type) (env : Addresses) (sem : Semantics ρ), Moves env sem →
          List.Forall₂ (fun i s => ∀ μ,
            Alike Reg.isScratch (step env sem i μ) (exec env sem s.code μ)) f.code pieces ∧
          ∀ μ, Alike Reg.isScratch (exec env sem f.code μ) (exec env sem g.code μ) := by
  have hmeets : Traced.Meets f.addSpillCode (fun r => ∃ pieces,
      List.Forall₂ (fun i s => ofInstr i = .ok s) f.code pieces ∧
        r.2.code = pieces.flatMap Spilling.code ∧ r.2.code.length = f.code.length + r.1) (fun _ => True) :=
    Traced.meets_bind (meets_addTo f.name f.code) fun r hr => Traced.meets_pure hr
  obtain ⟨pieces, hpieces, hcode, hlength⟩ := hmeets.of_ok hrun
  have hsettled : ∀ i ∈ f.code, Settled i.operands := fun i hi =>
    hf.mono fun o ho => List.mem_flatMap.mpr ⟨i, hi, ho⟩
  refine ⟨fun j hj => ?_, hlength, pieces, hcode, fun ρ env sem hsem => ?_⟩
  · rw [hcode] at hj
    obtain ⟨s, hs, hj⟩ := List.mem_flatMap.mp hj
    obtain ⟨i, hi, his⟩ := exists_of_forall₂ hpieces.flip hs
    obtain ⟨s', hs', rfl⟩ := rewritten_of_ofInstr his
    exact not_spilled_moveLabel hs'.not_spilled j hj
  · have hsteps : List.Forall₂ (fun i s => ∀ μ,
        Alike Reg.isScratch (step env sem i μ) (exec env sem s.code μ)) f.code pieces := by
      refine ((List.forall₂_and_left _ _).mpr ⟨hsettled, hpieces⟩).imp fun i s h μ => ?_
      obtain ⟨hi, his⟩ := h
      obtain ⟨s', hs', rfl⟩ := rewritten_of_ofInstr his
      rw [exec_moveLabel]
      exact exec_rewritten hsem hi hs' μ
    refine ⟨hsteps, fun μ => ?_⟩
    rw [hcode]
    exact exec_pieces (fun i hi => (hsettled i hi).free) hsteps (.refl _ μ)

/-- The moves of spill code, with their widths. -/
def moveWords : List (Template × IntWidth) :=
  IntWidth.all.map (fun w =>
      ((Template.ofString "mov%s\t%v1, %vd").expand (UInt8.ofNat w.letter.toNat), w)) ++
    [(Template.ofString "movss\t%v1, %vd", .w32), (Template.ofString "movsd\t%v1, %vd", .w64)]

/-- The width that a move of spill code has. -/
def moveWord? (t : Template) : Option IntWidth := moveWords.lookup t

theorem moveWord?_moveTemplate (h : o.spilled? = some v) : moveWord? o.moveTemplate = some o.word := by
  have hfile : o.file = o.cls := by rw [Operand.file, (Operand.spilled?_eq_some h).1]
  rw [Operand.moveTemplate, Operand.word, hfile]
  by_cases hsse : (o.cls == .sse) = true
  · rw [if_pos hsse, if_pos hsse]
    by_cases hwidth : o.width = 4
    · rw [if_pos hwidth, if_pos hwidth]
      decide
    · rw [if_neg hwidth, if_neg hwidth]
      decide
  · rw [if_neg hsse, if_neg hsse]
    cases IntWidth.ofBytes o.width <;> decide

/-- A machine that moves, and otherwise adds its sources. -/
def adding (env : Addresses) : Semantics Unit := fun op t d a b μ =>
  match op, moveWord? t, d, a, b with
  | .machine .mov, some w, _, some (.operand ⟨.slot index, _, _⟩), none =>
    (μ.memory.load (env.slot index) (w.bits / 8), μ)
  | .machine .mov, some w, some (.operand ⟨.slot index, _, _⟩), some (.word _ x), none =>
    (x, { μ with memory := μ.memory.store (env.slot index) (w.bits / 8) x })
  | _, _, _, some (.word _ x), some (.word _ y) => (x + y, μ)
  | _, _, _, _, _ => (0, μ)

theorem moves_adding (env : Addresses) : Moves env (adding env) := by
  refine ⟨fun o v d μ h => ?_, fun o v w x μ h => ?_⟩
  all_goals simp only [adding, moveWord?_moveTemplate h, Operand.slot]

/-- A sum of two spilled registers that replaces the second, and a store of the first through a spilled
pointer. -/
def crowded : Function :=
  let register (id slot : Int) (t : Ty) : Operand := ⟨.vreg ⟨id, .none, slot, true, 0, 0⟩, t, 0⟩
  { name := "crowded", params := [], addressTaken := [], result := .void
    code :=
      [{ op := .machine .add, dst := some (register 28 (-2) .long), src1 := some (register 27 (-1) .long)
         src2 := some (register 28 (-2) .long), template := .ofString "addq\t%v1q, %vdq" },
        { op := .machine .movToInd, dst := some (register 29 (-3) (.pointer .long))
          src1 := some (register 27 (-1) .long), template := .ofString "movq\t%v1q, (%vdq)" }] }

/-- Two loads and a store, and then two loads, make five instructions. -/
theorem addSpillCode_simulates_crowded :
    Settled (crowded.code.flatMap Instr.operands) ∧
      ∃ g events, crowded.addSpillCode.run #[] = .ok (5, g) events ∧ g.code.length = 7 ∧
        ∀ env μ, Alike Reg.isScratch (exec env (adding env) crowded.code μ)
          (exec env (adding env) g.code μ) := by
  have hsettled : Settled (crowded.code.flatMap Instr.operands) := by decide
  obtain ⟨g, events, hrun⟩ : ∃ g events, crowded.addSpillCode.run #[] = .ok (5, g) events := ⟨_, _, rfl⟩
  obtain ⟨-, hlength, _, -, hexec⟩ := addSpillCode_simulates crowded g 5 #[] events hsettled hrun
  exact ⟨hsettled, g, events, hrun, hlength, fun env => (hexec Unit env _ (moves_adding env)).2⟩

end Function

end Codegen
