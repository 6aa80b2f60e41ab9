/-
The parts of lowered code.

Lowered code is plain instructions, calls and returns of aggregates, one after another.  Plain instructions
have nothing to do with the registers of the convention.  A call loads them, marks them and calls; a return
loads them and returns.  So whatever writes such a register before a call or a return is one of its own loads.

The labels of lowered code are the old ones, in their order, and those that were handed out for it.

`Grown` says this of the code that a step of lowering adds: the former if the operands it was given are no
registers of the convention themselves, the latter in any case.
-/
import Codegen.Proofs.CallCode

namespace Codegen

namespace Lowering

/-- A part of lowered code: one plain instruction, what loads and marks the registers of a call with the call,
or what loads the registers of a return with the return. -/
inductive Part
  | plain (i : Instr)
  | call (loads : List Instr) (regs : List Operand) (callee : Operand)
  | ret (loads : List Instr)

namespace Part

/-- The instructions of a part. -/
def code : Part → List Instr
  | plain i => [i]
  | call loads regs callee => loads ++ regs.map marker ++ [.ir .call none callee none]
  | ret loads => loads ++ [.ir .ret none none none]

/-- A plain instruction stays out of the way, and loads write every register once; those of a call are the ones
it marks. -/
def Sound (low : Int) : Part → Prop
  | plain i => Tame low i
  | call loads regs _ => Fills low (idsOf regs) loads ∧ (reservedWrites low loads).Nodup
  | ret loads => (∃ ids, Fills low ids loads) ∧ (reservedWrites low loads).Nodup

end Part

/-- The code is parts of lowered code. -/
def InParts (low : Int) (code : List Instr) : Prop :=
  ∃ parts : List Part, code = parts.flatMap (·.code) ∧ ∀ p ∈ parts, p.Sound low

variable {low : Int} {more : List Instr}

theorem InParts.append {code : List Instr} (h : InParts low code) (h' : InParts low more) :
    InParts low (code ++ more) := by
  obtain ⟨parts, rfl, hsound⟩ := h
  obtain ⟨parts', rfl, hsound'⟩ := h'
  exact ⟨parts ++ parts', List.flatMap_append.symm, fun p hp => (List.mem_append.mp hp).elim (hsound p) (hsound' p)⟩

theorem flatMap_plain (code : List Instr) : (code.map Part.plain).flatMap (·.code) = code := by
  rw [List.flatMap_map]
  exact List.flatMap_singleton' code

theorem inParts_of_tame {code : List Instr} (h : ∀ i ∈ code, Tame low i) : InParts low code := by
  refine ⟨code.map .plain, (flatMap_plain code).symm, fun p hp => ?_⟩
  obtain ⟨i, hi, rfl⟩ := List.mem_map.mp hp
  exact h i hi

/-- A step has added parts of lowered code, if its operands are clean, and kept the old labels. -/
structure Grown (low : Int) (clean : Prop) (old : List Int) (s s' : Lowering) : Prop where
  entry : s'.entry = s.entry
  vregs : s.fn.vregCount ≤ s'.fn.vregCount
  out : ∃ new, s'.code = s.code ++ new ∧ (clean → InParts low new) ∧
    Labelled s.fn.labelCount s'.fn.labelCount old (labelsOf new)

section grown

variable {clean : Prop} {old old' : List Int} {s s' s'' : Lowering}

theorem Grown.trans (h : Grown low clean old s s') (h' : Grown low clean old' s' s'') :
    Grown low clean (old ++ old') s s'' := by
  obtain ⟨new, hnew, hparts, hlabels⟩ := h.out
  obtain ⟨more, hmore, hparts', hlabels'⟩ := h'.out
  refine ⟨h'.entry.trans h.entry, Int.le_trans h.vregs h'.vregs, new ++ more,
    by rw [hmore, hnew, List.append_assoc], fun hc => (hparts hc).append (hparts' hc), ?_⟩
  rw [labelsOf_append]
  exact hlabels.append hlabels'

theorem Grown.mono {clean' : Prop} (h : Grown low clean old s s') (hclean : clean' → clean) :
    Grown low clean' old s s' := by
  obtain ⟨new, hnew, hparts, hlabels⟩ := h.out
  exact ⟨h.entry, h.vregs, new, hnew, fun hc => hparts (hclean hc), hlabels⟩

theorem grown_of_written (h : Written (fun i => clean → Tame low i) s s') : Grown low clean [] s s' := by
  obtain ⟨new, hnew, hall, hlabels⟩ := h.out
  exact ⟨h.entry, h.vregs, new, hnew, fun hclean => inParts_of_tame fun i hi => hall i hi hclean, hlabels⟩

/-- If the step returns, it has added parts. -/
def Grows {α : Type} (low : Int) (clean : Prop) (old : List Int) (x : LowerM α) : Prop :=
  ∀ s, low ≤ s.fn.vregCount → Yields x s (fun _ s' => Grown low clean old s s') fun _ => True

variable {α β : Type} {x : LowerM α} {f : α → LowerM β}

theorem grows_bind (hx : Grows low clean old x) (hf : ∀ a, Grows low clean old' (f a)) :
    Grows low clean (old ++ old') (x >>= f) :=
  fun s hs => yields_bind (hx s hs) fun a s₁ h =>
    (hf a s₁ (Int.le_trans hs h.vregs)).mono fun _ _ h' => h.trans h'

theorem grows_bind_nil (hx : Grows low clean [] x) (hf : ∀ a, Grows low clean old (f a)) :
    Grows low clean old (x >>= f) := grows_bind hx hf

theorem grows_of_leaves (h : Leaves low (fun i => clean → Tame low i) x) : Grows low clean [] x :=
  fun s hs => (h s hs).mono fun _ _ h' => grown_of_written h'

theorem grows_of_tame (h : Leaves low (Tame low) x) : Grows low clean [] x :=
  grows_of_leaves fun s hs => (h s hs).mono fun _ _ h' => h'.mono fun _ hi _ => hi

theorem grows_get_bind {f : Lowering → LowerM β} (hf : ∀ s, Grows low clean old (f s)) :
    Grows low clean old (get >>= f) := grows_bind_nil (grows_of_leaves leaves_get) hf

theorem grows_unless {c : Prop} [Decidable c] {cause : LowerError} (hx : ¬ c → Grows low clean old x) :
    Grows low clean old (if c then refuse cause >>= fun _ : PUnit => x else x) :=
  fun s hs => yields_unless fun hc => hx hc s hs

theorem grows_append {i : Instr} (h : clean → Tame low i) :
    Grows low clean (labelsOf [i]) (liftM (append i)) := fun s _ =>
  yields_lift ⟨rfl, Int.le_refl _, [i], Array.toList_push,
    fun hc => inParts_of_tame (by simpa using h hc), labelled_old _ _⟩

/-- The label of an instruction that becomes several is set in front of them. -/
theorem grows_label_bind {l : Int} {x : LowerM Unit} (hx : Grows low clean [] x) :
    Grows low clean (labelsOf [.target l]) (do
      if l != 0 then label l
      x : LowerM Unit) := by
  by_cases h : l = 0
  · rw [if_neg (by simp [h]), labelsOf_of_zero h]
    exact hx
  · rw [if_pos (by simp [h]), ← List.append_nil (labelsOf _)]
    exact grows_bind (grows_append (i := .target l) fun _ => tame_target low l) fun _ => hx

theorem grows_return {b : Build α} {Q : α → List Int → Prop} (hb : Fetches low b Q)
    (hnodup : ∀ a ids, Q a ids → (ids.filter (reserved low)).Nodup) :
    Grows low clean [] (do
      let _ ← liftM b
      liftM (emit .ret none none none) : LowerM Unit) := by
  intro s hs
  obtain ⟨ids, hq, hloads⟩ := hb s hs
  refine yields_bind (yields_lift (Q := fun _ s₁ => Loads low ids s s₁) hloads) fun _ s₁ h₁ => ?_
  have hwritten := h₁.written.trans (Extends.push s₁ (i := .ir .ret none none none) trivial rfl).toWritten
  obtain ⟨all, hall, -, hlabels⟩ := hwritten.out
  obtain ⟨new, hcode, hfills⟩ := h₁.fills
  have hend : ((emit .ret none none none).run s₁).2.code = s.code ++ (new ++ [.ir .ret none none none]) := by
    rw [code_emit, hcode, List.append_assoc]
  obtain rfl : all = _ := List.append_cancel_left (hall.symm.trans hend)
  refine yields_lift ⟨hwritten.entry, hwritten.vregs, _, hend,
    fun _ => ⟨[.ret new], by simp [Part.code], fun p hp => ?_⟩, hlabels⟩
  rw [List.mem_singleton.mp hp]
  exact ⟨⟨ids, hfills⟩, by rw [hfills.writes]; exact hnodup _ ids hq⟩

end grown

/-! ### Instructions of the body -/

section body

variable {clean : Prop} {i i' : Instr} {homes : List Operand} {d callee o o' : Operand} {result : Ty}
  {loads : List Instr} {s : Lowering}

theorem grows_lowerAggregateReturn (src : Operand) (t : Ty) :
    Grows low clean [] (lowerAggregateReturn src t) := by
  refine grows_unless fun _ => grows_get_bind fun s => ?_
  split
  · next hidden _ =>
    refine grows_bind_nil (grows_of_tame (leaves_lift (emits_copyToPointer (permissive_tame low) hidden src t.size)))
      fun _ => ?_
    refine grows_return (fetches_emit (by decide) .rax hidden.type (some hidden) none) ?_
    rintro - _ rfl
    exact (List.nodup_singleton _).filter _
  · split
    · next p hp =>
      refine grows_return (fetches_loadEightbytes src p resultRegister) ?_
      rintro regs _ ⟨rfl, hsub⟩
      exact (hsub.filter _).nodup (nodup_resultIds low hp)
    · exact grows_of_tame (leaves_append rfl (tame_silent (by decide) none none))

/-- The operands of the instruction are no reserved registers. -/
def Clean (low : Int) (i : Instr) : Prop := ∀ o ∈ i.operands, Unreserved low o

theorem Clean.dst (h : Clean low i) (hd : i.dst = some d) : Unreserved low d :=
  h d (by simp [Instr.operands, hd])

theorem Clean.tame (h : Clean low i) : Tame low i := by
  refine ⟨fun v hv => ?_, fun _ v hv => ?_⟩
  · obtain ⟨d, hd, hv⟩ := Option.bind_eq_some_iff.mp (Instr.dst_of_defined? hv)
    exact h.dst hd v hv
  · obtain ⟨o, ho, hv⟩ := Option.bind_eq_some_iff.mp hv
    exact h o (by simp [Instr.operands, ho]) v hv

theorem grows_lowerReturn (hlabel : i.label = 0) (hi : clean → Clean low i) :
    Grows low clean [] (lowerReturn i) := by
  have happend : Grows low clean [] (liftM (append i)) :=
    grows_of_leaves (leaves_append hlabel fun h => (hi h).tame)
  refine grows_get_bind fun s => ?_
  split
  · dsimp only
    split
    · exact grows_lowerAggregateReturn _ _
    · exact happend
  · exact happend

theorem tame_releases (total : Int64) : ∀ i ∈ releases total, Tame low i := by
  unfold releases
  split
  · intro i hi
    rw [List.mem_singleton.mp hi]
    exact tame_silent (by decide) _ none
  · exact fun _ hi => (List.not_mem_nil hi).elim

theorem CallCode.inParts {args : List Operand} {code pushes rest : List Instr} {regs : List Operand}
    (h : CallCode low callee args result code pushes loads regs rest) (hrest : ∀ i ∈ rest, Tame low i) :
    InParts low code := by
  have hpushes : ∀ i ∈ pushes, Tame low i := by
    intro i hi
    obtain ⟨hop, hdst⟩ := h.isPush i hi
    refine tame_of_dst ?_ fun d hd => nomatch hdst.symm.trans hd
    rcases hop with hop | hop <;> rw [hop] <;> decide
  have hafter : ∀ i ∈ releases (stackArea result (args.map (·.type))) ++ rest, Tame low i := fun i hi =>
    (List.mem_append.mp hi).elim (tame_releases _ i) (hrest i)
  have hcall : InParts low (Part.call loads regs callee).code :=
    ⟨[.call loads regs callee], by simp, by simpa using ⟨h.fills, h.nodup⟩⟩
  have hcode : code = pushes ++ (Part.call loads regs callee).code ++
      (releases (stackArea result (args.map (·.type))) ++ rest) := by
    rw [h.code]
    simp [Part.code]
  rw [hcode]
  exact ((inParts_of_tame hpushes).append hcall).append (inParts_of_tame hafter)

theorem grows_lowerCall (hi : clean → Clean low i) : Grows low clean [] (lowerCall i) := by
  refine grows_get_bind fun s => grows_unless fun _ => ?_
  split
  · exact grows_of_leaves (leaves_throw _)
  · next callee _ =>
    intro s hs
    refine (yields_lowerCallTo callee _ i.dst hs).mono ?_
    rintro - s' ⟨hwritten, new, pushes, loads, regs, rest, hcode, hcall, htame, -⟩
    obtain ⟨all, hall, -, hlabels⟩ := hwritten.out
    obtain rfl := List.append_cancel_left (hall.symm.trans hcode)
    exact ⟨hwritten.entry, hwritten.vregs, _, hcode,
      fun hclean => hcall.inParts (htame fun d hd => (hi hclean).dst hd), hlabels⟩

theorem grows_lowerVaArg (hi : clean → Clean low i) : Grows low clean [] (lowerVaArg i) := by
  have hpermissive : Permissive low fun j => clean → Tame low j :=
    ⟨fun op hop => ⟨fun id t a b hid _ => ((permissive_tame low).ops op hop).fresh id t a b hid,
      fun d a b hd _ => ((permissive_tame low).ops op hop).memory d a b hd,
      fun a b _ => ((permissive_tame low).ops op hop).silent a b⟩,
      fun d a b _ => (permissive_tame low).through d a b⟩
  exact grows_of_leaves (leaves_lowerVaArg hpermissive (fun n _ => tame_target low n) fun d hd a b hclean =>
    tame_ir (by decide) ((hi hclean).dst hd) a b)

theorem grows_lowerExpanded (hlabel : i.label = 0) (hi : clean → Clean low i) :
    Grows low clean [] (lowerExpanded i) := by
  unfold lowerExpanded
  split
  · exact grows_lowerReturn hlabel hi
  · exact grows_lowerCall hi
  · exact grows_of_tame (leaves_lowerVaStart (permissive_tame low) i)
  · exact grows_lowerVaArg hi

theorem grows_collectArg (i : Instr) (v : Operand) :
    Grows low clean (labelsOf [i]) (collectArg i v) := by
  unfold collectArg
  split
  · refine grows_bind_nil (fun s _ => yields_modify _ ⟨rfl, Int.le_refl _, [], (List.append_nil _).symm,
      fun _ => inParts_of_tame (by simp), labelled_old _ []⟩) fun _ => ?_
    exact grows_label_bind (grows_of_leaves (leaves_pure ()))
  · exact fun _ _ => yields_refuse _

/-- The homes of the parameters are no reserved registers. -/
def CleanHomes (low : Int) (s : Lowering) : Prop := ∀ home ∈ s.entry.homes, Unreserved low home

/-- The instruction with its parameters replaced by their homes. -/
structure Replaces (homes : List Operand) (i i' : Instr) : Prop where
  label : i'.label = i.label
  op : i'.op = i.op
  dst : Option.Rel (fun o o' => replaceParam homes o = .ok o') i.dst i'.dst
  src1 : Option.Rel (fun o o' => replaceParam homes o = .ok o') i.src1 i'.src1
  src2 : Option.Rel (fun o o' => replaceParam homes o = .ok o') i.src2 i'.src2

theorem yields_replaceIn (o : Option Operand) (s : Lowering) :
    Yields (replaceIn o) s (fun o' s' => s' = s ∧
      Option.Rel (fun o o' => replaceParam s.entry.homes o = .ok o') o o') fun _ => True := by
  cases o with
  | none => exact yields_pure ⟨rfl, .none⟩
  | some o =>
    refine yields_bind_get ?_
    cases hreplace : replaceParam s.entry.homes o with
    | error cause => exact yields_refuse cause
    | ok o' => exact yields_pure ⟨rfl, .some hreplace⟩

theorem yields_replaceParams (i : Instr) (s : Lowering) :
    Yields (replaceParams i) s (fun i' s' => s' = s ∧ Replaces s.entry.homes i i') fun _ => True := by
  refine yields_bind (yields_replaceIn i.dst s) ?_
  rintro dst s ⟨rfl, hdst⟩
  refine yields_bind (yields_replaceIn i.src1 s) ?_
  rintro src1 s ⟨rfl, hsrc1⟩
  refine yields_bind (yields_replaceIn i.src2 s) ?_
  rintro src2 s ⟨rfl, hsrc2⟩
  exact yields_pure ⟨rfl, rfl, rfl, hdst, hsrc1, hsrc2⟩

theorem unreserved_of_replaceParam (hhomes : ∀ home ∈ homes, Unreserved low home)
    (h : replaceParam homes o = .ok o') (ho : Unreserved low o) : Unreserved low o' := by
  unfold replaceParam at h
  split at h
  · split at h
    · exact nomatch h
    · next home hhome =>
      split at hhome
      · exact nomatch hhome
      · obtain rfl := Except.ok.inj h
        exact fun v hv => hhomes home (List.mem_of_getElem? hhome) v hv
  · obtain rfl := Except.ok.inj h
    exact ho

theorem clean_of_replaces (h : Replaces homes i i') (hhomes : ∀ home ∈ homes, Unreserved low home)
    (hi : Clean low i) : Clean low i' := by
  have hone : ∀ {o o' : Option Operand}, Option.Rel (fun o o' => replaceParam homes o = .ok o') o o' →
      o ∈ [i.dst, i.src1, i.src2] → ∀ x, o' = some x → Unreserved low x := by
    rintro _ _ (hreplace | _) hmem x ⟨⟩
    exact unreserved_of_replaceParam hhomes hreplace (hi _ (by simpa [Instr.operands] using hmem))
  intro o ho
  have hmem : i'.dst = some o ∨ i'.src1 = some o ∨ i'.src2 = some o := by
    simpa [Instr.operands, eq_comm] using ho
  rcases hmem with hmem | hmem | hmem
  · exact hone h.dst (by simp) o hmem
  · exact hone h.src1 (by simp) o hmem
  · exact hone h.src2 (by simp) o hmem

/-- **An instruction of the body adds parts of lowered code, and keeps its label.** -/
theorem yields_lowerInstr (i : Instr) (hs : low ≤ s.fn.vregCount) :
    Yields (lowerInstr i) s (fun _ s' => Grown low (CleanHomes low s ∧ Clean low i) (labelsOf [i]) s s')
      fun _ => True := by
  refine yields_bind (yields_replaceParams i s) ?_
  rintro i' s ⟨rfl, hreplaces⟩
  rw [labelsOf_congr hreplaces.label.symm]
  have hi' : CleanHomes low s → Clean low i → Clean low i' := clean_of_replaces hreplaces
  have hexpanded : Grows low (CleanHomes low s ∧ Clean low i) (labelsOf [i']) (do
      if i'.label != 0 then label i'.label
      lowerExpanded { i' with label := 0 } : LowerM Unit) :=
    grows_label_bind (grows_lowerExpanded rfl fun h => hi' h.1 h.2)
  exact lowerReplaced_cases (P := Grows low _ (labelsOf [i'])) i' (grows_collectArg i') hexpanded
    (grows_append fun h => (hi' h.1 h.2).tame) s hs

/-- **The body adds parts of lowered code, and keeps its labels.** -/
theorem yields_lowerCode (code : List Instr) (hs : low ≤ s.fn.vregCount) :
    Yields (code.forM lowerInstr) s (fun _ s' => Grown low (CleanHomes low s ∧ ∀ i ∈ code, Clean low i)
      (labelsOf code) s s') fun _ => True := by
  induction code generalizing s with
  | nil => exact yields_pure (grown_of_written (.refl s))
  | cons i code ih =>
    show Yields (lowerInstr i >>= fun _ => code.forM lowerInstr) s _ _
    refine yields_bind (yields_lowerInstr i hs) fun _ s₁ h₁ => ?_
    refine (ih (Int.le_trans hs h₁.vregs)).mono fun _ s₂ h₂ => ?_
    rw [labelsOf_cons]
    refine (h₁.mono fun h => ⟨h.1, h.2 i (by simp)⟩).trans
      (h₂.mono fun h => ⟨?_, fun j hj => h.2 j (by simp [hj])⟩)
    unfold CleanHomes
    rw [h₁.entry]
    exact h.1

end body

end Lowering

end Codegen
