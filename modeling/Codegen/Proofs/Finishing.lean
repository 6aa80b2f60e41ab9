/-
What becomes of selected code.

Allocation puts every virtual register in its home, drops the moves from a home to itself, and leaves the
rest to spill code.  So each instruction becomes a stretch of code of its own, and the stretches stand in the
order of the instructions.

Spill code works in scratch registers.  Any other physical register is written only where an instruction
writes a virtual register that lives there, and the instruction is no move to itself.
-/
import Codegen.Proofs.Assignment
import Codegen.Proofs.Spill

namespace Codegen

open Traced

/-! ### One instruction -/

/-- The code that spill code makes of an instruction. -/
def Spilling.codeOf (i : Instr) : List Instr :=
  match ofInstr i with
  | .ok s => s.code
  | .error _ => []

variable {pieces : List Spilling}

theorem Spilling.flatMap_codeOf {code : List Instr}
    (h : List.Forall₂ (fun i s => ofInstr i = .ok s) code pieces) :
    pieces.flatMap Spilling.code = code.flatMap codeOf := by
  induction h with
  | nil => rfl
  | cons hi _ ih => rw [List.flatMap_cons, List.flatMap_cons, ih, codeOf, hi]

/-- What is left of an instruction when moves of a home to itself are dropped. -/
def Instr.kept (i : Instr) : List Instr := if i.isSelfMove then i.remains else [i]

namespace Assignment

/-- An operand in its home, if it has one. -/
def place (a : Assignment) (o : Operand) : Operand :=
  match o.value with
  | .vreg v =>
    match a.home? v.id with
    | some h => { o with value := .vreg (h.settle v) }
    | none => o
  | _ => o

/-- An instruction with its operands in their homes. -/
def settled (a : Assignment) (i : Instr) : Instr := i.mapOperands a.place

/-- The code that an instruction ends as. -/
def finish (a : Assignment) (i : Instr) : List Instr := (a.settled i).kept.flatMap Spilling.codeOf

variable {a : Assignment}

theorem meets_settlePlace (i : Instr) (o : Option Operand) :
    Meets (demand i (a.settlePlace o)) (fun o' => o' = o.map a.place) fun _ => True := by
  cases o with
  | none => exact meets_pure rfl
  | some o =>
    obtain ⟨value, type, offset⟩ := o
    cases value with
    | vreg v =>
      cases hhome : a.home? v.id with
      | none =>
        simp only [settlePlace, settleOperand, hhome]
        exact meets_throw trivial
      | some home =>
        simp only [settlePlace, settleOperand, hhome]
        exact meets_pure (by simp [place, hhome])
    | _ => exact meets_pure rfl

theorem meets_settleInstr (i : Instr) :
    Meets (a.settleInstr i) (fun j => j = a.settled i) fun _ => True := by
  refine meets_bind (meets_settlePlace _ _) fun dst hdst => ?_
  refine meets_bind (meets_settlePlace _ _) fun src1 hsrc1 => ?_
  refine meets_bind (meets_settlePlace _ _) fun src2 hsrc2 => ?_
  exact meets_pure (by rw [hdst, hsrc1, hsrc2]; rfl)

end Assignment

/-! ### Whole functions -/

namespace Function

theorem meets_dropSelfMoves (name : String) (code : List Instr) :
    Meets (dropSelfMoves name code) (fun r => r.1 = code.flatMap Instr.kept) fun _ => True := by
  induction code with
  | nil => exact meets_pure rfl
  | cons i code ih =>
    rw [dropSelfMoves]
    split
    · next hself =>
      refine meets_bind (meets_note _ _) fun _ _ => meets_bind ih fun r hr => ?_
      exact meets_pure (by rw [List.flatMap_cons, Instr.kept, if_pos hself, hr])
    · next hself =>
      refine meets_bind ih fun r hr => ?_
      exact meets_pure (by rw [List.flatMap_cons, Instr.kept, if_neg hself, hr]; rfl)

theorem meets_allocate_code (f : Function) (x : Analysis) (o : AllocateOptions) :
    Meets (f.allocate x o) (fun r => r.2.code = (f.code.map r.1.settled).flatMap Instr.kept)
      fun _ => True := by
  refine meets_bind (meets_trivial _) fun _ _ => meets_bind (meets_trivial _) fun s _ => ?_
  refine meets_bind (meets_mapM _ fun i _ => Assignment.meets_settleInstr i) fun code hcode => ?_
  refine meets_bind (meets_dropSelfMoves f.name code) fun r hr => ?_
  have hmap : code = f.code.map (Assignment.ofColoring (f.colorProblem x o) s).settled := by
    rw [← List.forall₂_eq_eq_eq, List.forall₂_map_right_iff]
    exact hcode.flip
  exact meets_pure (hr.trans (congrArg _ hmap))

variable {n : Nat} {g k out : Function} {x : Analysis} {o : AllocateOptions}

theorem addSpillCode_code {f : Function} (h : f.addSpillCode.result = .ok (n, g)) :
    g.code = f.code.flatMap Spilling.codeOf ∧ ∀ i ∈ f.code, ∃ s, Spilling.ofInstr i = .ok s := by
  have hmeets : Meets f.addSpillCode (fun r => ∃ pieces,
      List.Forall₂ (fun i s => Spilling.ofInstr i = .ok s) f.code pieces ∧
        r.2.code = pieces.flatMap Spilling.code) (fun _ => True) :=
    meets_bind (Spilling.meets_addTo f.name f.code) fun r ⟨pieces, hpieces, hcode, _⟩ =>
      meets_pure ⟨pieces, hpieces, hcode⟩
  obtain ⟨pieces, hpieces, hcode⟩ := hmeets.of_result h
  refine ⟨hcode.trans (Spilling.flatMap_codeOf hpieces), fun i hi => ?_⟩
  obtain ⟨s, -, hs⟩ := exists_of_forall₂ hpieces hi
  exact ⟨s, hs⟩

/-- **Code is finished instruction by instruction.** -/
theorem finish_code {h : Function} {a : Assignment} (halloc : (h.allocate x o).result = .ok (a, k))
    (hspill : k.addSpillCode.result = .ok (n, out)) :
    out.code = h.code.flatMap a.finish ∧
      ∀ i ∈ h.code, ∀ j ∈ (a.settled i).kept, ∃ s, Spilling.ofInstr j = .ok s := by
  have hcode : k.code = (h.code.map a.settled).flatMap Instr.kept := (h.meets_allocate_code x o).of_result halloc
  obtain ⟨hout, hall⟩ := addSpillCode_code hspill
  refine ⟨?_, fun i hi j hj => hall j ?_⟩
  · rw [hout, hcode, List.flatMap_map, List.flatMap_assoc]
    rfl
  · rw [hcode]
    exact List.mem_flatMap.mpr ⟨_, List.mem_map_of_mem hi, hj⟩

end Function

/-! ### Writing a physical register -/

/-- Does the instruction write the physical register? -/
def Instr.overwrites (i : Instr) (r : Reg) : Bool :=
  !i.op.storesThroughDst && i.dst.any fun d => d.home? == some (.phys r)

namespace Spilling

variable {r : Reg}

/-- The instruction goes to a scratch register, to a slot, or nowhere. -/
def Aside (j : Instr) : Prop :=
  ∀ d, j.dst = some d → (∃ x : Reg, x.isScratch = true ∧ d.home? = some (.phys x)) ∨ d.home? = none

variable {j i : Instr} {s : Spilling} {d o : Operand} {dst : Option Operand}

theorem Aside.overwrites (h : Aside j) (hr : r.isScratch = false) : j.overwrites r = false := by
  unfold Instr.overwrites
  cases hd : j.dst with
  | none => simp
  | some d =>
    rcases h d hd with ⟨x, hx, hhome⟩ | hhome
    · have hne : x ≠ r := by
        rintro rfl
        rw [hx] at hr
        exact nomatch hr
      simp [hhome, hne]
    · simp [hhome]

theorem aside_first (h : j.dst = some o.firstScratch) : Aside j := by
  intro d hd
  obtain ⟨x, hx, hS, -⟩ := stands_first o
  rw [← Option.some.inj (h.symm.trans hd), show o.firstScratch = _ from hx]
  exact .inl ⟨x, Reg.isScratch_of_first hS, rfl⟩

theorem aside_second (h : j.dst = some o.secondScratch) : Aside j := by
  intro d hd
  obtain ⟨x, hx, hS, -⟩ := stands_second o
  rw [← Option.some.inj (h.symm.trans hd), show o.secondScratch = _ from hx]
  exact .inl ⟨x, Reg.isScratch_of_second hS, rfl⟩

theorem aside_nowhere (h : j.dst = none) : Aside j := fun _ hd => nomatch h.symm.trans hd

theorem aside_store (o : Operand) (v : VReg) (reg : Option Operand) : Aside (.store o v reg) := by
  intro d hd
  rw [← Option.some.inj hd]
  exact .inr rfl

theorem aside_sourceLoads (hj : j ∈ sourceLoads i) : Aside j := by
  rcases List.mem_append.mp hj with hj | hj
  · rcases source_cases (·.firstScratch) i.src1 with ⟨o, v, -, -, -, hload⟩ | ⟨-, -, hload⟩
    · rw [hload] at hj
      exact aside_first (o := o) (by rw [List.mem_singleton.mp hj]; rfl)
    · rw [hload] at hj
      exact (List.not_mem_nil hj).elim
  · rcases source_cases (·.secondScratch) i.src2 with ⟨o, v, -, -, -, hload⟩ | ⟨-, -, hload⟩
    · rw [hload] at hj
      exact aside_second (o := o) (by rw [List.mem_singleton.mp hj]; rfl)
    · rw [hload] at hj
      exact (List.not_mem_nil hj).elim

/-- What replaces a destination that is also a source is a scratch register. -/
theorem aside_source {scratch : Operand → Operand}
    (hscratch : ∀ (o : Operand) (j : Instr), j.dst = some (scratch o) → Aside j) {o : Option Operand}
    (h : j.dst = (source scratch o).map (·.1)) : Aside j := by
  cases hsource : source scratch o with
  | none =>
    rw [hsource] at h
    exact aside_nowhere h
  | some p =>
    rw [hsource] at h
    obtain ⟨x, -, hx⟩ := Option.bind_eq_some_iff.mp hsource
    obtain ⟨v, -, rfl⟩ := Option.map_eq_some_iff.mp hx
    exact hscratch x j h

theorem Receives.aside (h : Receives i d dst) (hj : j.dst = dst) : Aside j := by
  cases h with
  | first => exact aside_source (fun _ _ => aside_first) hj
  | second => exact aside_source (fun _ _ => aside_second) hj
  | neither => exact aside_second hj

theorem any_overwrites_moveLabel (s : Spilling) (r : Reg) :
    s.moveLabel.code.any (·.overwrites r) = s.code.any (·.overwrites r) := by
  obtain ⟨loads, instr, stores⟩ := s
  cases loads with
  | nil => rfl
  | cons load rest =>
    unfold moveLabel
    dsimp only
    split
    · rfl
    · simp only [code, List.cons_append, List.any_cons, List.any_append]
      rfl

theorem Rewritten.any_overwrites (h : Rewritten i s) (hr : r.isScratch = false) :
    s.code.any (·.overwrites r) = i.overwrites r := by
  have hloads : (sourceLoads i).any (·.overwrites r) = false :=
    List.any_eq_false.mpr fun j hj => by simp [(aside_sourceLoads hj).overwrites hr]
  have hspilled : ∀ {d v}, i.dst = some d → d.spilled? = some v → i.overwrites r = false := fun hd hv => by
    simp [Instr.overwrites, hd, Operand.home?_of_spilled hv]
  cases h with
  | plain =>
    rw [code, List.any_append, hloads, List.any_cons, List.any_nil, Bool.or_false, Bool.false_or]
    rfl
  | @pointer d v hd hv =>
    have hload : (Instr.reload d v d.secondScratch).overwrites r = false := (aside_second rfl).overwrites hr
    have hinstr : (withScratch i (some d.secondScratch)).overwrites r = false := (aside_second rfl).overwrites hr
    simp [code, hloads, hspilled hd hv, hload, hinstr]
  | @result d v reg hd hv _ hreg =>
    have hinstr : (withScratch i reg).overwrites r = false := (hreg.aside rfl).overwrites hr
    simp [code, hloads, hspilled hd hv, hinstr, (aside_store d v reg).overwrites hr]

/-- **Spill code writes a physical register only where the instruction does**, scratch registers apart. -/
theorem any_overwrites_codeOf (h : ∃ s, ofInstr i = .ok s) (hr : r.isScratch = false) :
    (codeOf i).any (·.overwrites r) = i.overwrites r := by
  obtain ⟨s, h⟩ := h
  obtain ⟨s', hs, rfl⟩ := rewritten_of_ofInstr h
  rw [codeOf, h, any_overwrites_moveLabel, hs.any_overwrites hr]

theorem exists_op_codeOf (h : ∃ s, ofInstr i = .ok s) : ∃ j ∈ codeOf i, j.op = i.op := by
  obtain ⟨s, h⟩ := h
  obtain ⟨s', hs, rfl⟩ := rewritten_of_ofInstr h
  obtain ⟨j, hj, label, rfl⟩ := exists_of_forall₂ (code_moveLabel s') (a := s'.instr) (by simp [code])
  refine ⟨_, by rw [codeOf, h]; exact hj, ?_⟩
  cases hs <;> rfl

end Spilling

namespace Assignment

variable {a : Assignment} {r : Reg}

theorem overwrites_remains (i : Instr) (r : Reg) : i.remains.any (·.overwrites r) = false := by
  unfold Instr.remains
  split <;> rfl

variable {i : Instr}

/-- An instruction in its home writes where its destination lives. -/
theorem overwrites_settled {v : Int} (hdst : i.dst.bind (·.vregId?) = some v)
    (hhome : (a.home? v).isSome = true) (hr : r ≠ .none) : (a.settled i).overwrites r = true ↔
      i.op.storesThroughDst = false ∧ a.home? v = some (.register r) := by
  obtain ⟨⟨value, type, offset⟩, hd, hid⟩ := Option.bind_eq_some_iff.mp hdst
  obtain ⟨home, hhome⟩ := Option.isSome_iff_exists.mp hhome
  cases value with
  | vreg w =>
    obtain rfl : w.id = v := Option.some.inj hid
    cases home with
    | register x =>
      by_cases hx : x = .none
      · subst hx
        simp [Instr.overwrites, settled, Instr.mapOperands, hd, place, hhome, Home.settle, Operand.home?, hr.symm]
      · simp [Instr.overwrites, settled, Instr.mapOperands, hd, place, hhome, Home.settle, Operand.home?, hx]
    | slot index =>
      simp [Instr.overwrites, settled, Instr.mapOperands, hd, place, hhome, Home.settle, Operand.home?]
  | _ => cases hid

theorem overwrites_settled_of_none (hdst : i.dst = none) : (a.settled i).overwrites r = false := by
  simp [Instr.overwrites, settled, Instr.mapOperands, hdst]

/-- **The code of an instruction writes a physical register if its destination lives there and it is no move to
itself.** -/
theorem any_overwrites_finish (hr : r.isScratch = false)
    (hall : ∀ j ∈ (a.settled i).kept, ∃ s, Spilling.ofInstr j = .ok s) :
    (a.finish i).any (·.overwrites r) = true ↔
      (a.settled i).isSelfMove = false ∧ (a.settled i).overwrites r = true := by
  cases hself : (a.settled i).isSelfMove with
  | true =>
    have hkept : (a.settled i).kept = (a.settled i).remains := by rw [Instr.kept, if_pos hself]
    rw [hkept] at hall
    have hfalse : (a.finish i).any (·.overwrites r) = false := by
      rw [finish, hkept]
      refine List.any_eq_false.mpr fun j hj => ?_
      obtain ⟨k, hk, hj⟩ := List.mem_flatMap.mp hj
      have hcode := Spilling.any_overwrites_codeOf (hall k hk) hr
      rw [Bool.eq_false_iff.mpr (List.any_eq_false.mp (overwrites_remains (a.settled i) r) k hk)] at hcode
      exact List.any_eq_false.mp hcode j hj
    rw [hfalse]
    simp
  | false =>
    have hkept : (a.settled i).kept = [a.settled i] := by rw [Instr.kept, if_neg (by simp [hself])]
    rw [hkept] at hall
    rw [finish, hkept, List.flatMap_cons, List.flatMap_nil, List.append_nil,
      Spilling.any_overwrites_codeOf (hall _ (by simp)) hr]
    simp

theorem exists_op_finish (hself : (a.settled i).isSelfMove = false)
    (hall : ∀ j ∈ (a.settled i).kept, ∃ s, Spilling.ofInstr j = .ok s) : ∃ j ∈ a.finish i, j.op = i.op := by
  have hkept : (a.settled i).kept = [a.settled i] := by rw [Instr.kept, if_neg (by simp [hself])]
  rw [hkept] at hall
  obtain ⟨j, hj, hop⟩ := Spilling.exists_op_codeOf (hall (a.settled i) (by simp))
  exact ⟨j, by simpa [finish, hkept] using hj, hop⟩

end Assignment

end Codegen
