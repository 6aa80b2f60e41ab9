/-
The labels of code.

A label names the instruction that jumps lead to, so the labels of a function have to come through
every pass in the order in which they stand.  What a pass does to the instruction at a label differs:
selection lets the first machine instruction of a tree take the label over, allocation leaves an empty
instruction where a labelled move was, spill code hands the label to the first load, and a frame hands
the label of a return to the code that undoes the frame.  All of them keep `labelsOf` as it is.
-/
import Codegen.Proofs.Finishing
import Codegen.Proofs.Items
import Codegen.Proofs.Select
import Codegen.Render

namespace Codegen

open Traced

theorem labelsOf_flatMap (f : Instr → List Instr) (h : ∀ i, labelsOf (f i) = labelsOf [i]) (code : List Instr) :
    labelsOf (code.flatMap f) = labelsOf code := by
  induction code with
  | nil => rfl
  | cons i code ih => rw [List.flatMap_cons, labelsOf_append, h, ih, ← labelsOf_cons]

/-- The labels of the code of a function, in order. -/
def Function.labels (f : Function) : List Int := labelsOf f.code

/-! ### Selection -/

namespace Item

theorem labelsOf_left {items : List Item} (h : ∀ item ∈ items, item.Moved) :
    labelsOf (Selection.left items) = labelsOf (items.map (·.instr)) := by
  induction items with
  | nil => rfl
  | cons item items ih =>
    rw [List.map_cons, labelsOf_cons, ← ih fun item' hmem => h item' (by simp [hmem])]
    cases hmerged : item.merged with
    | true => simp [Selection.left, hmerged, labelsOf_of_zero (h item (by simp) hmerged).1]
    | false =>
      have hleft : Selection.left (item :: items) = item.instr :: Selection.left items := by
        simp [Selection.left, hmerged]
      rw [hleft, labelsOf_cons]

end Item

namespace Function

/-- What stores a result comes after the instruction that computes it, and is no jump target. -/
theorem labelsOf_splitMemoryDsts (n : Int) (code : List Instr) :
    labelsOf (splitMemoryDsts n code).1 = labelsOf code := by
  induction code generalizing n with
  | nil => rfl
  | cons i code ih =>
    obtain ⟨j, rest, hsplit, hlabel, hrest⟩ := label_splitMemoryDst n i
    rw [splitMemoryDsts_cons, labelsOf_append, ih, hsplit, labelsOf_cons, labelsOf_eq_nil hrest,
      List.append_nil, labelsOf_congr hlabel, ← labelsOf_cons]

/-- **Selection keeps the labels.** -/
theorem meets_select_labels (f : Function) (set : RuleSet) (options : SelectOptions) :
    Meets (f.select set options) (fun r => r.1.labels = f.labels) fun _ => True := by
  refine (meets_select_listed f set options).mono (fun r hr => ?_) fun _ h => h
  rw [Function.labels, hr.labels, Item.labelsOf_left (f.moved_items options), (f.renders_items options).1]
  exact labelsOf_splitMemoryDsts _ _

/-! ### Allocation -/

theorem labelsOf_remains (i : Instr) : labelsOf i.remains = labelsOf [i] := by
  unfold Instr.remains
  split
  · next h => rw [labelsOf_of_zero h]; rfl
  · exact labelsOf_congr rfl

theorem labelsOf_kept (i : Instr) : labelsOf i.kept = labelsOf [i] := by
  unfold Instr.kept
  split
  · exact labelsOf_remains i
  · rfl

/-- **Allocation keeps the labels, those of the moves that it removes too.** -/
theorem meets_allocate_labels (f : Function) (a : Analysis) (options : AllocateOptions) :
    Meets (f.allocate a options) (fun r => r.2.labels = f.labels) fun _ => True := by
  refine (f.meets_allocate_code a options).mono (fun r hr => ?_) fun _ h => h
  rw [Function.labels, hr, List.flatMap_map]
  exact labelsOf_flatMap (fun i => (r.1.settled i).kept) (fun i => (labelsOf_kept _).trans (labelsOf_congr rfl)) f.code

end Function

/-! ### Spill code -/

namespace Spilling

theorem labelsOf_code_moveLabel {s : Spilling} (hloads : ∀ i ∈ s.loads, i.label = 0)
    (hstores : ∀ i ∈ s.stores, i.label = 0) : labelsOf s.moveLabel.code = labelsOf [s.instr] := by
  have hcode : ∀ (loads : List Instr) (i : Instr), labelsOf (loads ++ i :: s.stores)
      = labelsOf loads ++ labelsOf [i] := fun loads i => by
    rw [labelsOf_append, labelsOf_cons i, labelsOf_eq_nil hstores, List.append_nil]
  unfold moveLabel
  split
  · next hnil =>
    rw [code, hcode, hnil]
    rfl
  · next load rest hcons =>
    rw [hcons] at hloads
    have hrest : ∀ i ∈ rest, i.label = 0 := fun i hi => hloads i (by simp [hi])
    split
    · rw [code, hcode, hcons, labelsOf_eq_nil hloads]
      rfl
    · show labelsOf ({ load with label := s.instr.label } :: rest ++ { s.instr with label := 0 } :: s.stores) = _
      rw [hcode, labelsOf_cons, labelsOf_eq_nil hrest, labelsOf_of_zero (i := { s.instr with label := 0 }) rfl,
        List.append_nil, List.append_nil]
      exact labelsOf_congr rfl

variable {scratch : Operand → Operand} {o : Option Operand} {j : Instr} {s : Spilling} {pieces : List Spilling}

theorem label_loadOf (hj : j ∈ loadOf scratch o) : j.label = 0 := by
  rcases source_cases scratch o with ⟨a, v, -, -, -, hload⟩ | ⟨-, -, hload⟩
  · rw [hload] at hj
    rw [List.mem_singleton.mp hj]
    rfl
  · rw [hload] at hj
    exact (List.not_mem_nil hj).elim

/-- **An instruction with its spill code has the label of the instruction.** -/
theorem labelsOf_ofInstr {i : Instr} (h : ofInstr i = .ok s) : labelsOf s.code = labelsOf [i] := by
  have hloads : ∀ j ∈ sourceLoads i, j.label = 0 := fun j hj =>
    (List.mem_append.mp hj).elim label_loadOf label_loadOf
  obtain ⟨s', hs, rfl⟩ := rewritten_of_ofInstr h
  cases hs with
  | plain => exact (labelsOf_code_moveLabel hloads (by simp)).trans (labelsOf_congr rfl)
  | pointer =>
    refine (labelsOf_code_moveLabel (fun j hj => ?_) (by simp)).trans (labelsOf_congr rfl)
    rcases List.mem_append.mp hj with hj | hj
    · exact hloads j hj
    · rw [List.mem_singleton.mp hj]
      rfl
  | result =>
    refine (labelsOf_code_moveLabel hloads fun j hj => ?_).trans (labelsOf_congr rfl)
    rw [List.mem_singleton.mp hj]
    rfl

theorem labelsOf_pieces {code : List Instr} (h : List.Forall₂ (fun i s => ofInstr i = .ok s) code pieces) :
    labelsOf (pieces.flatMap Spilling.code) = labelsOf code := by
  induction h with
  | nil => rfl
  | cons hi _ ih => rw [List.flatMap_cons, labelsOf_append, labelsOf_ofInstr hi, ih, ← labelsOf_cons]

end Spilling

/-- **Spill code keeps the labels.** -/
theorem Function.meets_addSpillCode_labels (f : Function) :
    Meets f.addSpillCode (fun r => r.2.labels = f.labels) fun _ => True :=
  meets_bind (Spilling.meets_addTo f.name f.code) fun _ ⟨_, hpieces, hcode, _⟩ =>
    meets_pure ((congrArg labelsOf hcode).trans (Spilling.labelsOf_pieces hpieces))

/-! ### Frames -/

namespace Frame

theorem label_prologue (f : Frame) : ∀ i ∈ f.prologue, i.label = 0 := by
  intro i hi
  simp only [prologue, List.mem_append, List.mem_cons, List.not_mem_nil, or_false, List.mem_map] at hi
  rcases hi with ((rfl | rfl) | hi) | ⟨r, -, rfl⟩
  · rfl
  · rfl
  · split at hi
    · rw [List.mem_singleton.mp hi]
      rfl
    · exact (List.not_mem_nil hi).elim
  · rfl

theorem label_epilogue (f : Frame) : ∀ i ∈ f.epilogue, i.label = 0 := by
  intro i hi
  simp only [epilogue, List.mem_append, List.mem_cons, List.not_mem_nil, or_false, List.mem_map] at hi
  rcases hi with (hi | ⟨r, -, rfl⟩) | rfl
  · split at hi
    · exact (List.not_mem_nil hi).elim
    · rw [List.mem_singleton.mp hi]
      rfl
  · rfl
  · rfl

/-- There is always something to undo, so a label has somewhere to go. -/
theorem epilogue_ne_nil (f : Frame) : f.epilogue ≠ [] := by simp [epilogue]

theorem labelsOf_leave (f : Frame) (i : Instr) : labelsOf (f.leave i) = labelsOf [i] := by
  unfold leave
  split
  · obtain ⟨j, rest, hcons⟩ := List.exists_cons_of_ne_nil f.epilogue_ne_nil
    have hlabel := f.label_epilogue
    rw [hcons] at hlabel ⊢
    rw [labelsOf_append, labelsOf_of_zero (i := { i with label := 0 }) rfl, List.append_nil, labelled]
    split
    · next hzero => rw [labelsOf_eq_nil hlabel, labelsOf_of_zero hzero]
    · have hrest : ∀ k ∈ rest, k.label = 0 := fun k hk => hlabel k (by simp [hk])
      rw [labelsOf_cons, labelsOf_eq_nil hrest, List.append_nil]
      exact labelsOf_congr rfl
  · rfl

theorem labelsOf_wrap (f : Frame) (code : List Instr) : labelsOf (f.wrap code) = labelsOf code := by
  rw [wrap, labelsOf_append, labelsOf_eq_nil f.label_prologue, List.nil_append, labelsOf_flatMap _ f.labelsOf_leave]

end Frame

/-- **The frame keeps the labels.** -/
theorem Function.meets_addFrame_labels (f : Function) :
    Meets f.addFrame (fun r => r.2.labels = f.labels) fun _ => True :=
  meets_bind (meets_trivial _) fun frame _ => meets_bind (meets_note _ _) fun _ _ =>
      meets_pure (frame.labelsOf_wrap f.code)

/-! ### Assembly -/

/-- The name that a line defines. -/
def AsmLine.label? : AsmLine → Option String
  | .label name => some name
  | _ => none

/-- The names that the lines of a function define, in order. -/
def AsmFunction.labels (f : AsmFunction) : List String := f.code.filterMap (·.label?)

/-- A line for the label of an instruction, and no other. -/
theorem Instr.labels_assemble {name : String} {i : Instr} {lines : List AsmLine} (h : i.assemble name = .ok lines) :
    lines.filterMap (·.label?) = (labelsOf [i]).map (Function.labelName name) := by
  have hlabel : (if i.label = 0 then [] else [AsmLine.label (Function.labelName name i.label)]).filterMap
      (·.label?) = (labelsOf [i]).map (Function.labelName name) := by
    split
    · next hzero => rw [labelsOf_of_zero hzero]; rfl
    · next hne => simp [labelsOf, hne, AsmLine.label?]
  unfold assemble at h
  dsimp only at h
  split at h
  · split at h
    · obtain rfl := Except.ok.inj h
      exact hlabel
    · cases h
  · cases hrender : i.render name with
    | error e => rw [hrender] at h; cases h
    | ok text =>
      rw [hrender] at h
      obtain rfl := Except.ok.inj h
      rw [List.filterMap_append, hlabel]
      exact List.append_nil _

theorem labels_mapM_assemble {name : String} {code : List Instr} {lines : List (List AsmLine)}
    (h : code.mapM (Instr.assemble name) = .ok lines) :
    lines.flatten.filterMap (·.label?) = (labelsOf code).map (Function.labelName name) := by
  induction code generalizing lines with
  | nil =>
    obtain rfl := Except.ok.inj h
    rfl
  | cons i code ih =>
    rw [List.mapM_cons] at h
    cases hi : i.assemble name with
    | error e => rw [hi] at h; exact nomatch h
    | ok first =>
      cases hrest : code.mapM (Instr.assemble name) with
      | error e => rw [hi, hrest] at h; exact nomatch h
      | ok rest =>
        rw [hi, hrest] at h
        obtain rfl := Except.ok.inj h
        rw [List.flatten_cons, List.filterMap_append, Instr.labels_assemble hi, ih hrest, ← List.map_append,
          ← labelsOf_cons]

/-- **Assembly defines one name for each label, in order.** -/
theorem Function.labels_assemble {f : Function} {frame : Option Frame} {a : AsmFunction}
    (h : f.assemble frame = .ok a) : a.labels = f.labels.map (labelName f.name) := by
  unfold assemble at h
  split at h
  · exact nomatch h
  · next lines hlines =>
    obtain rfl := Except.ok.inj h
    exact labels_mapM_assemble hlines

end Codegen
