/-
Where a function finds its parameters.

The entry places the parameters one after another and gives each of them a home.  A parameter that
came on the stack is at home in the slot it came in, or in a register that the entry fills from that
slot.  The body is lowered after the entry: it only adds code and leaves the homes alone, so what
holds of them after the entry holds of them in the whole function.

No home is a register of the convention, and so a whole function is lowered to parts.
-/
import Codegen.Proofs.Parts

namespace Codegen

namespace Lowering

/-! ### The homes of the parameters -/

/-- The function finds a value of type `t` at a stack index: the slot there is its home, or a register is
that the entry fills from the slot. -/
def FoundAt (code : List Instr) (home : Operand) (t : Ty) (index : Int) : Prop :=
  home = .slot index t ∨
    (∃ v, home.value = .vreg v) ∧ Instr.ir .move home (Operand.slot index t) none ∈ code

/-- If the parameter came on the stack, the function finds it at the stack index of its offset. -/
def Finds (code : List Instr) (home : Operand) (p : Placement) : Prop :=
  ∀ offset, p.stackOffset? = some offset → FoundAt code home p.type (incomingIndex offset)

variable {home : Operand} {p : Placement} {code' : List Instr} {low : Int}

theorem Finds.mono {code : List Instr} (h : Finds code home p) (hcode : code ⊆ code') :
    Finds code' home p := by
  intro offset hoffset
  exact (h offset hoffset).imp_right fun ⟨hv, hmem⟩ => ⟨hv, hcode hmem⟩

theorem unreserved_of_lt {id : Int} (h : low < id) (t : Ty) : Unreserved low (.vreg id t) := by
  intro v hv
  obtain rfl : id = v := Option.some.inj hv
  exact reserved_of_lt h

section homes

variable {s s' : Lowering} {P : Instr → Prop} {params' params : Allocation} {homes' homes : List Operand}

theorem stackHome_run (t : Ty) (addressTaken : Bool) (offset : Int64) (hs : low ≤ s.fn.vregCount) :
    let r := (stackHome t addressTaken offset).run s
    Unreserved low r.1 ∧ Written (Tame low) s r.2 ∧ FoundAt r.2.code r.1 t (incomingIndex offset) := by
  unfold stackHome
  dsimp only
  split
  · exact ⟨unreserved_of_isMemory low rfl, .refl s, .inl rfl⟩
  · have hlt : low < s.fn.vregCount + 1 := by omega
    have hhome := unreserved_of_lt hlt t
    have hfresh := (emits_freshReg (P := Tame low) t s hs).2
    refine ⟨hhome, (hfresh.trans (.push _ ?_ rfl)).toWritten,
      .inr ⟨⟨_, rfl⟩, Array.mem_toList_iff.mpr Array.mem_push_self⟩⟩
    refine tame_of_dst nofun fun d hd => ?_
    obtain rfl := Option.some.inj hd
    exact hhome

theorem registerHome_run (t : Ty) (addressTaken : Bool) (place : Place) (hs : low ≤ s.fn.vregCount) :
    let r := (registerHome t addressTaken place).run s
    Unreserved low r.1 ∧ Written (Tame low) s r.2 := by
  have hmove : ∀ home s', Unreserved low home → Written (Tame low) s s' →
      Written (Tame low) s ((move home (pseudo (argRegister place) t)).run s').2 := fun home s' hhome h =>
    h.trans (Extends.push s' (tame_ir (by decide) hhome _ none) rfl).toWritten
  cases addressTaken with
  | false =>
    obtain ⟨⟨id, hid, hlt⟩, hfresh⟩ := emits_freshReg (P := Tame low) t s hs
    have hhome : Unreserved low ((freshReg t).run s).1 := hid ▸ unreserved_of_lt hlt t
    exact ⟨hhome, hmove _ _ hhome hfresh.toWritten⟩
  | true =>
    have hhome := unreserved_of_isMemory low (show ((freshSlot t).run s).1.isMemory = true from rfl)
    exact ⟨hhome, hmove _ _ hhome (written_freshSlot t s)⟩

theorem aggregateHome_run (t : Ty) (p : Placement) (hs : low ≤ s.fn.vregCount) :
    let r := (aggregateHome t p).run s
    Unreserved low r.1 ∧ Written (Tame low) s r.2 := by
  have hslot : ((freshSlot t).run s).1.isMemory = true := rfl
  have hcarrying := (permissive_tame low).carrying
  have hstore := emits_storeEightbytes_of hcarrying ((hcarrying .move (by decide)).writable hslot) p argRegister
  exact ⟨unreserved_of_isMemory low hslot,
    (written_freshSlot t s).trans (hstore ((freshSlot t).run s).2 hs).2.toWritten⟩

theorem yields_paramHome (p : Placement) (addressTaken : Bool) (hs : low ≤ s.fn.vregCount) :
    Yields (paramHome p.type addressTaken p) s (fun home s' => Unreserved low home ∧ Written (Tame low) s s' ∧
      Finds s'.code home p) fun _ => True := by
  unfold paramHome
  cases hoffset : p.stackOffset? with
  | some offset =>
    obtain ⟨hclean, hwritten, hfound⟩ := stackHome_run p.type addressTaken offset hs
    refine yields_lift ⟨hclean, hwritten, fun offset' h => ?_⟩
    obtain rfl : offset = offset' := Option.some.inj (hoffset.symm.trans h)
    exact hfound
  | none =>
    have hnowhere : ∀ code home, Finds code home p := fun _ _ offset h => by
      rw [hoffset] at h
      exact nomatch h
    have hbuild : ∀ {b : Build Operand}, Unreserved low (b.run s).1 ∧ Written (Tame low) s (b.run s).2 →
        Yields (liftM b) s (fun home s' => Unreserved low home ∧ Written (Tame low) s s' ∧
          Finds s'.code home p) fun _ => True := fun h => yields_lift ⟨h.1, h.2, hnowhere _ _⟩
    dsimp only
    split
    · exact hbuild ⟨unreserved_of_isMemory low rfl, written_freshSlot _ s⟩
    · split
      · exact hbuild (aggregateHome_run _ _ hs)
      · split
        · exact yields_throw trivial
        · exact hbuild (registerHome_run _ _ _ hs)

/-- The entry has gone from one state to another: it placed parameters, gave them homes and added code. -/
structure Enters (low : Int) (params : Allocation) (homes : List Operand) (s s' : Lowering) : Prop where
  clean : ∀ home ∈ homes, Unreserved low home
  params : s'.entry.params = params
  homes : s'.entry.homes = s.entry.homes ++ homes
  written : Written (Tame low) s { s' with entry := s.entry }

theorem Enters.le (h : Enters low params homes s s') (hs : low ≤ s.fn.vregCount) :
    low ≤ s'.fn.vregCount := Int.le_trans hs h.written.vregs

theorem Written.withEntry (h : Written P s s') (e : Entry) :
    Written P { s with entry := e } { s' with entry := e } := ⟨rfl, h.args, h.fn, h.vregs, h.out⟩

theorem enters_nothing (s : Lowering) : Enters low s.entry.params [] s s :=
  ⟨by simp, rfl, (List.append_nil _).symm, .refl s⟩

theorem Written.subset (h : Written P s s') : s.code ⊆ s'.code := by
  obtain ⟨new, hnew, -⟩ := h.out
  rw [hnew]
  exact List.subset_append_left _ _

theorem Enters.trans {s'' : Lowering} (h : Enters low params homes s s') (h' : Enters low params' homes' s' s'') :
    Enters low params' (homes ++ homes') s s'' := by
  refine ⟨fun home hhome => ?_, h'.params, by rw [h'.homes, h.homes, List.append_assoc],
    h.written.trans (h'.written.withEntry s.entry)⟩
  exact (List.mem_append.mp hhome).elim (h.clean home) (h'.clean home)

theorem yields_lowerParam (index : Nat) (t : Ty) (addressTaken : Bool) (hs : low ≤ s.fn.vregCount) :
    Yields (lowerParam index t addressTaken) s (fun _ s' => ∃ home,
      Enters low (s.entry.params.add t).2 [home] s s' ∧ Finds s'.code home (s.entry.params.add t).1)
      fun _ => True := by
  refine yields_bind_require (yields_bind_get (yields_bind_modify ?_))
  refine yields_bind (yields_paramHome (s.entry.params.add t).1 addressTaken hs) ?_
  rintro home s₂ ⟨hclean, hwritten, hfinds⟩
  refine yields_bind_modify (yields_note _ ⟨home, ⟨by simpa using hclean, ?_, ?_, hwritten.withEntry s.entry⟩, hfinds⟩)
  · exact congrArg Entry.params hwritten.entry
  · exact congrArg (·.homes ++ [home]) hwritten.entry

/-- **Every parameter that came on the stack is found where it came.** -/
theorem yields_lowerParams (index : Nat) (l : List (Ty × Bool)) (hs : low ≤ s.fn.vregCount) :
    Yields (lowerParams index l) s (fun _ s' => ∃ homes,
      Enters low (s.entry.params.addAll (l.map (·.1))).2 homes s s' ∧
        List.Forall₂ (Finds s'.code) homes (s.entry.params.addAll (l.map (·.1))).1) fun _ => True := by
  induction l generalizing index s with
  | nil =>
    exact yields_pure ⟨[], enters_nothing s, .nil⟩
  | cons x rest ih =>
    obtain ⟨t, addressTaken⟩ := x
    refine yields_bind (yields_lowerParam index t addressTaken hs) ?_
    rintro - s₁ ⟨home, henters, hfinds⟩
    refine (ih (index + 1) (henters.le hs)).mono ?_
    rintro - s₂ ⟨homes, henters', hfinds'⟩
    rw [henters.params] at henters' hfinds'
    exact ⟨home :: homes, henters.trans henters', .cons (hfinds.mono henters'.written.subset) hfinds'⟩

theorem yields_lowerHidden (hs : low ≤ s.fn.vregCount) :
    Yields lowerHidden s (fun _ s' => Enters low (if Placement.resultInMemory s.fn.result
      then s.entry.params.reserve.2 else s.entry.params) [] s s') fun _ => True := by
  refine yields_bind_get (yields_bind_require ?_)
  split
  · refine yields_bind_get (yields_bind
      (yields_lift (Q := fun hidden s₁ => Unreserved low hidden ∧ Written (Tame low) s s₁) ?_) ?_)
    · obtain ⟨⟨id, hid, hlt⟩, hfresh⟩ := emits_freshReg (P := Tame low) (.pointer s.fn.result) s hs
      rw [hid]
      exact ⟨unreserved_of_lt hlt _, hfresh.toWritten⟩
    rintro hidden s₁ ⟨hhidden, h₁⟩
    have hmove : Leaves low (Tame low) (liftM (move hidden
        (pseudo (argRegister (.int s.entry.params.reserve.1)) (.pointer s.fn.result)))) :=
      leaves_append rfl (tame_ir (by decide) hhidden _ _)
    refine yields_bind (hmove.yields hs h₁) fun _ s₂ h₂ => ?_
    exact yields_modify _ ⟨by simp, rfl, (congrArg (·.homes) h₂.entry).trans (List.append_nil _).symm,
      h₂.withEntry s.entry⟩
  · exact yields_pure (enters_nothing s)

theorem emits_saveRegisters (a : Allocation) {area : Operand} (harea : Writable (Tame low) area) :
    EmitsFrom low (Tame low) (saveRegisters a area) fun _ => True := by
  rw [saveRegisters_eq]
  refine emits_bind (emits_saveFile harea _ _) fun _ _ s hs => ⟨trivial, ?_⟩
  exact extends_body (emits_saveFile harea _ _ (s.atBody _) hs).2 (fun _ => tame_silent (by decide) _ _)
    (tame_target low)

theorem lowerVariadic_run (hs : low ≤ s.fn.vregCount) :
    let s' := (lowerVariadic.run s).2
    s'.entry.homes = s.entry.homes ∧ Written (Tame low) s { s' with entry := s.entry } := by
  have h₁ := written_freshSlot (P := Tame low) (.array .char saveAreaSize) s
  have harea : Writable (Tame low) ((freshSlot (.array .char saveAreaSize)).run s).1 :=
    ((permissive_tame low).ops .move (by decide)).writable rfl
  have h₂ := h₁.trans (emits_saveRegisters s.entry.params harea ((freshSlot _).run s).2 hs).2.toWritten
  exact ⟨congrArg (·.homes) h₂.entry, h₂.withEntry s.entry⟩

/-- What the entry leaves: every parameter that came on the stack is found where it came, and no register of
the convention is a home or was written. -/
structure AfterEntry (low : Int) (s s' : Lowering) : Prop where
  finds : List.Forall₂ (Finds s'.code) s'.entry.homes (placements s.fn.result s.fn.params)
  clean : CleanHomes low s'
  written : Written (Tame low) s { s' with entry := s.entry }

/-- **After the entry every parameter that came on the stack is found where it came.** -/
theorem yields_lowerEntry (hs : low ≤ s.fn.vregCount) (hparams : s.entry.params = .arguments)
    (hhomes : s.entry.homes = []) (hmarks : s.fn.params.length ≤ s.fn.addressTaken.length) :
    Yields lowerEntry s (fun _ s' => AfterEntry low s s') fun _ => True := by
  refine yields_bind (yields_lowerHidden hs) fun _ s₁ h₁ => ?_
  refine yields_bind_get (yields_bind (yields_lowerParams 0 _ (h₁.le hs)) ?_)
  rintro - s₂ ⟨homes, h₂, hfinds⟩
  have hfirst : s₁.entry.params = firstOf s.fn.result := by
    rw [h₁.params, hparams]
    rfl
  have htypes : (s₁.fn.params.zip s₁.fn.addressTaken).map (·.1) = s.fn.params := by
    rw [show s₁.fn = _ from h₁.written.fn]
    exact List.map_fst_zip hmarks
  rw [hfirst, htypes] at hfinds
  have h := h₁.trans h₂
  have hfinal : s₂.entry.homes = homes := by rw [h.homes, hhomes]; rfl
  have hclean : ∀ home ∈ s₂.entry.homes, Unreserved low home := by
    rw [hfinal]
    exact h.clean
  rw [← hfinal] at hfinds
  refine yields_bind (yields_modify (Q := fun _ s₃ => AfterEntry low s s₃) _ ⟨hfinds, hclean, h.written⟩) ?_
  intro _ s₃ h₃
  split
  · obtain ⟨hsame, hwritten⟩ := lowerVariadic_run (s := s₃) (Int.le_trans hs h₃.written.vregs)
    refine yields_lift ⟨?_, ?_, h₃.written.trans (hwritten.withEntry s.entry)⟩
    · rw [hsame]
      exact h₃.finds.imp fun _ _ hf => hf.mono hwritten.subset
    · unfold CleanHomes
      rw [hsame]
      exact h₃.clean
  · exact yields_pure h₃

/-- **The body is lowered to parts after the entry.**  It keeps its labels, and the others that there are were handed
out for it. -/
theorem yields_lowerBody (hs : low ≤ s.fn.vregCount) (hparams : s.entry.params = .arguments)
    (hhomes : s.entry.homes = []) (hmarks : s.fn.params.length ≤ s.fn.addressTaken.length)
    (hstart : s.code = []) :
    Yields lowerBody s (fun _ s' =>
      List.Forall₂ (Finds s'.code) s'.entry.homes (placements s.fn.result s.fn.params) ∧
      s.fn.vregCount ≤ s'.fn.vregCount ∧
      ((∀ i ∈ s.fn.code, Clean low i) → InParts low s'.code) ∧
      Labelled s.fn.labelCount s'.fn.labelCount (labelsOf s.fn.code) (labelsOf s'.code)) fun _ => True := by
  refine yields_bind (yields_lowerEntry hs hparams hhomes hmarks) fun _ s₁ h₁ => ?_
  refine yields_bind_get ?_
  rw [show s₁.fn.code = s.fn.code from congrArg (·.code) h₁.written.fn]
  refine (yields_lowerCode s.fn.code (s := s₁) (Int.le_trans hs h₁.written.vregs)).mono fun _ s' h => ?_
  obtain ⟨entry, hentry, htame, hlabels⟩ := h₁.written.out
  obtain ⟨body, hbody, hparts, hlabels'⟩ := h.out
  have hcode : s'.code = entry ++ body := by
    rw [hbody, show s₁.code = _ from hentry, hstart]
    rfl
  refine ⟨?_, Int.le_trans h₁.written.vregs h.vregs, fun hclean => ?_, ?_⟩
  · rw [h.entry]
    refine h₁.finds.imp fun _ _ hf => hf.mono ?_
    rw [hbody]
    exact List.subset_append_left _ _
  · rw [hcode]
    exact (inParts_of_tame htame).append (hparts ⟨h₁.clean, hclean⟩)
  · rw [hcode, labelsOf_append]
    exact hlabels.append hlabels'

end homes

end Lowering

open Lowering

namespace Function

/-- What holds when lowering returns. -/
theorem meets_lower (f : Function) :
    Traced.Meets f.lower (fun r => List.Forall₂ (Finds r.2.code) r.1.homes (placements f.result f.params) ∧
      f.vregCount ≤ r.2.vregCount ∧ ((∀ i ∈ f.code, Clean f.vregCount i) → InParts f.vregCount r.2.code) ∧
      Labelled f.labelCount r.2.labelCount (labelsOf f.code) (labelsOf r.2.code)) fun _ => True := by
  have hbody := yields_lowerBody (s := f.lowering) (Int.le_refl _) rfl rfl (length_markAddressTaken f) rfl
  unfold Function.lower
  split
  · exact Traced.meets_throw trivial
  · exact Traced.meets_bind hbody fun r hr => Traced.meets_pure hr

variable {e : Entry} {f g : Function}

/-- **A function finds the parameters that came on the stack where they came.** -/
theorem finds_of_lower (h : f.lower.result = .ok (e, g)) :
    List.Forall₂ (Finds g.code) e.homes (placements f.result f.params) := (f.meets_lower.of_result h).1

/-- **A function is lowered to parts.** -/
theorem parts_of_lower (h : f.lower.result = .ok (e, g)) (hclean : ∀ i ∈ f.code, Clean f.vregCount i) :
    ∃ parts : List Part, g.code = parts.flatMap (·.code) ∧ ∀ p ∈ parts, p.Sound f.vregCount :=
  (f.meets_lower.of_result h).2.2.1 hclean

theorem vregCount_le_of_lower (h : f.lower.result = .ok (e, g)) :
    f.vregCount ≤ g.vregCount := (f.meets_lower.of_result h).2.1

end Function

end Codegen
