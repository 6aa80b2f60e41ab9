/-
What colouring guarantees.

A colouring under way is described by the ordinary registers that have been decided
so far.  `Sound` is what holds of it: the pseudo-registers have their own colours,
every other colour lies within the budget of its class, registers of one class that
interfere have different colours, and a register was spilled only when its rivals had
every colour of the budget.

Nothing in it depends on the order in which registers are taken, so costs, tiers and
hints play no part beyond saying that every register of a class comes up once.  A
hint is harmless because the colour it proposes, wherever it comes from, is taken only
if no rival has it.
-/
import Codegen.Coloring
import Codegen.Proofs.Graph
import Codegen.Proofs.Traced
import Codegen.Proofs.Lists
import Mathlib.Data.List.Nodup
import Mathlib.Data.List.Perm.Subperm

namespace Codegen

open Traced Colors ColorProblem

/-! ### The register files -/

variable {k : Nat} {u : Int} {info : RegInfo} {c : RegClass}

namespace Reg

variable {v : Int} {r : Reg}

theorem isPseudo_iff : isPseudo v = true ↔ 1 ≤ v ∧ v ≤ 26 := by
  simp only [isPseudo, Bool.and_eq_true, decide_eq_true_eq]
  exact Iff.rfl

theorem isPseudo_eq_false (h : 26 < v) : isPseudo v = false := by
  rw [Bool.eq_false_iff, ne_eq, isPseudo_iff]
  omega

theorem nodup_allocatable (c : RegClass) : (allocatable c).Nodup := by
  cases c <;> decide

theorem cls_of_mem_allocatable (hc : c ≠ .none) (h : r ∈ allocatable c) : r.cls = c := by
  cases c with
  | none => exact absurd rfl hc
  | int =>
    have : ∀ r ∈ allocatable .int, r.cls = .int := by decide
    exact this r h
  | sse =>
    have : ∀ r ∈ allocatable .sse, r.cls = .sse := by decide
    exact this r h

/-- A statement about the pseudo-registers is one about 26 numbers. -/
theorem forall_pseudo {P : Int → Prop} (h : ∀ i : Fin 26, P ((i.val : Int) + 1)) (hv : isPseudo v = true) :
    P v := by
  obtain ⟨hlo, hhi⟩ := isPseudo_iff.mp hv
  have := h ⟨(v - 1).toNat, by omega⟩
  rwa [show (((⟨(v - 1).toNat, by omega⟩ : Fin 26).val : Nat) : Int) + 1 = v by
    show (((v - 1).toNat : Nat) : Int) + 1 = v
    omega] at this

theorem cls_ofPseudo_ne_none (hv : isPseudo v = true) : (ofPseudo v).cls ≠ .none :=
  forall_pseudo (P := fun v => (ofPseudo v).cls ≠ .none) (by decide) hv

theorem ofPseudo_inj (hu : isPseudo u = true) (hv : isPseudo v = true) (h : ofPseudo u = ofPseudo v) :
    u = v := by
  have key : ∀ i j : Fin 26, ofPseudo ((i.val : Int) + 1) = ofPseudo ((j.val : Int) + 1) →
      ((i.val : Int) + 1) = (j.val : Int) + 1 := by decide
  exact forall_pseudo (P := fun u => ofPseudo u = ofPseudo v → u = v)
    (fun i => forall_pseudo (P := fun v => ofPseudo ((i.val : Int) + 1) = ofPseudo v →
      ((i.val : Int) + 1) = v) (fun j => key i j) hv) hu h

end Reg

namespace Colors

theorem get?_cons (cs : Colors) (v u : Int) (c : Nat) :
    get? ((v, c) :: cs) u = if u = v then some c else get? cs u := by
  unfold get?
  rw [List.lookup_cons]
  by_cases h : u = v
  · simp [h]
  · rw [if_neg h, beq_eq_false_iff_ne.mpr h]

variable {v : Int} {c : Nat}

/-- The colour a pseudo-register starts with is that of its own register. -/
theorem fixed_pseudo (hv : Reg.isPseudo v = true) :
    (fixed.get? v).bind (fun c => (Reg.allocatable (Reg.ofPseudo v).cls)[c]?)
      = some (Reg.ofPseudo v) :=
  Reg.forall_pseudo (P := fun v => (fixed.get? v).bind
    (fun c => (Reg.allocatable (Reg.ofPseudo v).cls)[c]?) = some (Reg.ofPseudo v)) (by decide) hv

theorem isPseudo_of_fixed (h : fixed.get? v = some c) : Reg.isPseudo v = true := by
  have key : ∀ e ∈ fixed, Reg.isPseudo e.1 = true := by decide
  obtain ⟨l₁, l₂, hl, -⟩ := List.lookup_eq_some_iff.mp h
  exact key (v, c) (by rw [hl]; simp)

end Colors

/-! ### What the operands say

The facts about a register are gathered operand by operand, and the class is the one of
the first operand that names it, which is also the class that live-range analysis gives
the register.
-/

namespace RegInfo

@[simp] theorem vreg_update (info : RegInfo) (v : VReg) : (info.update v).vreg = info.vreg := rfl

@[simp] theorem cls_update (info : RegInfo) (v : VReg) : (info.update v).cls = info.cls := rfl

/-- The class that some facts give a register. -/
def classIn (infos : List RegInfo) (v : Int) : Option RegClass :=
  (infos.find? (·.vreg = v)).map (·.cls)

theorem classIn_addVReg (o : Operand) (w : VReg) (v : Int) :
    ∀ infos, classIn (addVReg o w infos) v
      = (classIn infos v).or (if w.id = v then some o.cls else none) := by
  intro infos
  induction infos with
  | nil =>
    by_cases h : w.id = v <;> simp [addVReg, classIn, h]
  | cons info rest ih =>
    unfold addVReg
    by_cases hw : info.vreg = w.id
    · rw [if_pos hw]
      by_cases hv : info.vreg = v
      · simp [classIn, hv]
      · have hne : w.id ≠ v := fun hc => hv (hw.trans hc)
        simp [classIn, hv, hne]
    · rw [if_neg hw]
      by_cases hv : info.vreg = v
      · simp [classIn, hv]
      · simpa [classIn, hv] using ih

theorem classIn_addOperand (infos : List RegInfo) (o : Operand) (v : Int) :
    classIn (addOperand infos o) v
      = (classIn infos v).or (if o.vregId? = some v then some o.cls else none) := by
  cases hval : o.value with
  | vreg w => simp [addOperand, Operand.vregId?, hval, classIn_addVReg]
  | _ => simp [addOperand, Operand.vregId?, hval]

/-- The class of a register is that of the first operand that names it. -/
theorem classIn_ofCode (code : List Instr) (v : Int) :
    classIn (ofCode code) v
      = ((code.flatMap Instr.operands).find? (·.vregId? == some v)).map (·.cls) := by
  have key : ∀ (os : List Operand) (infos : List RegInfo),
      classIn (os.foldl addOperand infos) v
        = (classIn infos v).or ((os.find? (·.vregId? == some v)).map (·.cls)) := by
    intro os
    induction os with
    | nil => intro infos; simp
    | cons o rest ih =>
      intro infos
      rw [List.foldl_cons, ih, classIn_addOperand, Option.or_assoc]
      by_cases h : o.vregId? = some v <;> simp [h]
  rw [ofCode, key]
  simp [classIn]

end RegInfo

namespace ColorProblem

variable {p : ColorProblem}

/-! ### Every register of a class comes up once -/

/-- The registers of a class in the order of colouring. -/
def order (p : ColorProblem) (c : RegClass) : List Int :=
  (p.tiers c).constrained ++ (p.tiers c).preferred ++ (p.tiers c).free

theorem byCost_perm (p : ColorProblem) (vs : List Int) : (p.byCost vs).Perm vs :=
  List.mergeSort_perm vs _

theorem order_perm (p : ColorProblem) (c : RegClass) : (p.order c).Perm (p.members c) := by
  unfold order tiers
  have h1 := partition_perm (p.isConstrained c) (p.members c)
  have h2 := partition_perm (fun v => Decidable.decide (p.hint v ≠ 0))
    ((p.members c).partition (p.isConstrained c)).2
  refine (List.Perm.append (List.Perm.append (p.byCost_perm _) (p.byCost_perm _))
    (p.byCost_perm _)).trans ?_
  rw [List.append_assoc]
  exact (List.Perm.append_left _ h2).trans h1

variable {v : Int} {cs : Colors}

theorem mem_members : v ∈ p.members c ↔ 26 < v ∧ v ≤ p.vregCount ∧ p.classOf v = c := by
  unfold members
  simp only [List.mem_filter, List.mem_map, List.mem_range, beq_iff_eq, Reg.pseudoCount]
  constructor
  · rintro ⟨⟨n, hn, rfl⟩, hc⟩
    exact ⟨by push_cast; omega, by push_cast at hn ⊢; omega, hc⟩
  · rintro ⟨hlo, hhi, hc⟩
    exact ⟨⟨(v - 27).toNat, by push_cast; omega, by push_cast; omega⟩, hc⟩

theorem mem_order : v ∈ p.order c ↔ 26 < v ∧ v ≤ p.vregCount ∧ p.classOf v = c := by
  rw [(p.order_perm c).mem_iff, mem_members]

theorem nodup_order (p : ColorProblem) (c : RegClass) : (p.order c).Nodup := by
  rw [(p.order_perm c).nodup_iff]
  unfold members
  refine List.Nodup.filter _ (List.Nodup.map ?_ List.nodup_range)
  intro m n h
  simpa using h

/-! ### Classes and rivals -/

theorem classOf_pseudo (hv : Reg.isPseudo v = true) : p.classOf v = (Reg.ofPseudo v).cls := by
  unfold classOf
  rw [if_pos hv]

theorem classOf_ordinary (hv : 26 < v) : p.classOf v = (RegInfo.classIn p.infos v).getD .none := by
  unfold classOf RegInfo.classIn info?
  rw [if_neg (by rw [Reg.isPseudo_eq_false hv]; simp)]
  cases p.infos.find? (·.vreg = v) <;> rfl

theorem exists_info (hv : 26 < v) (hc : p.classOf v ≠ .none) : ∃ info, p.info? v = some info := by
  rw [classOf_ordinary hv] at hc
  unfold RegInfo.classIn at hc
  unfold info?
  cases h : p.infos.find? (·.vreg = v) with
  | none => rw [h] at hc; exact absurd rfl hc
  | some info => exact ⟨info, rfl⟩

theorem vreg_of_info (h : p.info? v = some info) : info.vreg = v := by
  simpa using List.find?_some h

theorem mem_rivals : u ∈ p.rivals v c ↔ 0 ≤ u ∧ p.analysis.graph.interferes v u = true ∧ p.classOf u = c := by
  unfold rivals
  simp [Graph.mem_neighbors, and_assoc]

/-! ### Taken colours -/

theorem mem_taken : k ∈ p.taken cs c v ↔ k < p.budget c ∧ ∃ u ∈ p.rivals v c, cs.get? u = some k := by
  unfold taken
  rw [List.mem_eraseDups]
  simp [List.mem_filterMap, and_comm]

/-- As many different colours as the budget has are all of them. -/
theorem taken_all (h : p.budget c ≤ (p.taken cs c v).length) (hk : k < p.budget c) : k ∈ p.taken cs c v := by
  have hnodup : (p.taken cs c v).Nodup := nodup_eraseDups _
  have hsub : p.taken cs c v ⊆ List.range (p.budget c) := by
    intro j hj
    exact List.mem_range.mpr (mem_taken.mp hj).1
  have hperm := (hnodup.subperm hsub).perm_of_length_le (by simpa using h)
  exact hperm.mem_iff.mpr (List.mem_range.mpr hk)

theorem exists_free (h : (p.taken cs c v).length < p.budget c) :
    ∃ k ∈ List.range (p.budget c), k ∉ p.taken cs c v := by
  by_contra hall
  push Not at hall
  have hsub : List.range (p.budget c) ⊆ p.taken cs c v := fun k hk => hall k hk
  have := (List.nodup_range.subperm hsub).length_le
  rw [List.length_range] at this
  omega

/-! ### What a decision means -/

/-- What each decision says about the colours of the rivals. -/
theorem decide_cases (cs : Colors) (c : RegClass) (v : Int) :
    (p.decide cs c v = .spill ∧ ∀ k < p.budget c, ∃ u ∈ p.rivals v c, cs.get? u = some k) ∨
      ∃ k, k < p.budget c ∧ (∀ u ∈ p.rivals v c, cs.get? u ≠ some k) ∧
        ((∃ h, p.decide cs c v = .hinted h k) ∨ p.decide cs c v = .lowest k) := by
  unfold decide
  by_cases hfull : p.budget c ≤ (p.taken cs c v).length
  · left
    simp only [hfull, if_true]
    exact ⟨trivial, fun k hk => (mem_taken.mp (taken_all hfull hk)).2⟩
  · right
    simp only [hfull, if_false]
    have free : ∀ k, k < p.budget c → k ∉ p.taken cs c v →
        ∀ u ∈ p.rivals v c, cs.get? u ≠ some k :=
      fun k hk hnot u hu hget => hnot (mem_taken.mpr ⟨hk, u, hu, hget⟩)
    cases hh : p.hinted? cs c v with
    | some hint =>
      obtain ⟨h, k⟩ := hint
      have hk : k < p.budget c ∧ k ∉ p.taken cs c v := by
        unfold hinted? at hh
        simp only at hh
        split at hh
        · simp at hh
        · split at hh
          · split at hh
            · rename_i hcond
              simp only [Option.some.injEq, Prod.mk.injEq] at hh
              obtain ⟨-, rfl⟩ := hh
              simpa using hcond
            · simp at hh
          · simp at hh
      exact ⟨k, hk.1, free k hk.1 hk.2, Or.inl ⟨h, rfl⟩⟩
    | none =>
      cases hf : (List.range (p.budget c)).find? (!(p.taken cs c v).contains ·) with
      | some k =>
        have hlt := List.mem_range.mp (List.mem_of_find?_eq_some hf)
        have hnot : k ∉ p.taken cs c v := by simpa using List.find?_some hf
        exact ⟨k, hlt, free k hlt hnot, Or.inr rfl⟩
      | none =>
        -- There is a colour left, so the search for one cannot come back empty.
        obtain ⟨k, hk, hnot⟩ := exists_free (Nat.lt_of_not_le hfull)
        have := List.find?_eq_none.mp hf k hk
        simp [hnot] at this

end ColorProblem

namespace Coloring

variable {p : ColorProblem} {done : List Int} {s : Coloring}

/-! ### The invariant -/

/-- What holds of a colouring in which exactly the ordinary registers `done` have been decided. -/
structure Sound (p : ColorProblem) (done : List Int) (s : Coloring) : Prop where
  /-- The pseudo-registers keep the colours they started with. -/
  pseudo : ∀ v, Reg.isPseudo v = true → s.colors.get? v = fixed.get? v
  /-- Every other colour is within the budget. -/
  within : ∀ v k, s.colors.get? v = some k →
    Reg.isPseudo v = true ∨ (v ∈ done ∧ k < p.budget (p.classOf v))
  /-- Registers of one class that interfere have different colours. -/
  proper : ∀ u v k, u ≠ v → p.analysis.graph.interferes u v = true → p.classOf u = p.classOf v →
    s.colors.get? u = some k → s.colors.get? v ≠ some k
  /-- A spilled register has no colour, and its rivals have all of the budget. -/
  full : ∀ e ∈ s.spilled, e.1 ∈ done ∧ s.colors.get? e.1 = none ∧
    ∀ k < p.budget (p.classOf e.1), ∃ u ∈ p.rivals e.1 (p.classOf e.1), s.colors.get? u = some k
  /-- What has been decided has a colour or a slot. -/
  decided : ∀ v ∈ done, (∃ k, s.colors.get? v = some k) ∨ ∃ slot, (v, slot) ∈ s.spilled

theorem sound_start (p : ColorProblem) (f : Function) :
    Sound p [] { colors := .fixed, function := f } := by
  refine ⟨fun _ _ => rfl, ?_, ?_, ?_, ?_⟩
  · intro v k h
    exact Or.inl (isPseudo_of_fixed h)
  · intro u v k hne _ hcls hu hv
    have hpu := isPseudo_of_fixed hu
    have hpv := isPseudo_of_fixed hv
    have hru := fixed_pseudo hpu
    have hrv := fixed_pseudo hpv
    rw [classOf_pseudo hpu, classOf_pseudo hpv] at hcls
    rw [hu, Option.bind_some] at hru
    rw [hv, Option.bind_some, ← hcls, hru] at hrv
    exact hne (Reg.ofPseudo_inj hpu hpv (Option.some.inj hrv))
  · intro e he
    simp at he
  · intro v hv
    simp at hv

variable {v : Int} {fail : Failure → Prop}

theorem Sound.nonneg_of_color (hs : Sound p done s) (hdone : ∀ v ∈ done, 26 < v)
    (h : s.colors.get? v = some k) : 0 ≤ v := by
  rcases hs.within v k h with hp | ⟨hmem, -⟩
  · have := Reg.isPseudo_iff.mp hp
    omega
  · have := hdone v hmem
    omega

theorem Sound.uncolored (hs : Sound p done s) (hv : 26 < v) (hnew : v ∉ done) :
    s.colors.get? v = none := by
  cases h : s.colors.get? v with
  | none => rfl
  | some j =>
    rcases hs.within v j h with hp | ⟨hmem, -⟩
    · rw [Reg.isPseudo_eq_false hv] at hp
      simp at hp
    · exact absurd hmem hnew

/-! ### One register -/

/-- Giving a register a colour that no rival has keeps the invariant. -/
theorem Sound.color (hs : Sound p done s) (hdone : ∀ v ∈ done, 26 < v) (hv : 26 < v) (hnew : v ∉ done)
    (hk : k < p.budget (p.classOf v)) (hfree : ∀ u ∈ p.rivals v (p.classOf v), s.colors.get? u ≠ some k) :
    Sound p (done ++ [v]) { s with colors := (v, k) :: s.colors } := by
  have hnone := hs.uncolored hv hnew
  have hrival : ∀ u, u ≠ v → p.analysis.graph.interferes v u = true → p.classOf u = p.classOf v →
      s.colors.get? u ≠ some k := by
    intro u _ hint hcls hget
    exact hfree u (mem_rivals.mpr ⟨hs.nonneg_of_color hdone hget, hint, hcls⟩) hget
  have hold : ∀ u j, s.colors.get? u = some j → get? ((v, k) :: s.colors) u = some j := by
    intro u j hu
    rw [get?_cons, if_neg]
    · exact hu
    · rintro rfl
      rw [hnone] at hu
      simp at hu
  refine ⟨?_, ?_, ?_, ?_, ?_⟩
  · intro u hu
    rw [get?_cons, if_neg]
    · exact hs.pseudo u hu
    · rintro rfl
      rw [Reg.isPseudo_eq_false hv] at hu
      simp at hu
  · intro u j hu
    rw [get?_cons] at hu
    by_cases huv : u = v
    · rw [if_pos huv] at hu
      subst huv
      obtain rfl := Option.some.inj hu
      exact Or.inr ⟨by simp, hk⟩
    · rw [if_neg huv] at hu
      rcases hs.within u j hu with hp | ⟨hmem, hj⟩
      · exact Or.inl hp
      · exact Or.inr ⟨by simp [hmem], hj⟩
  · intro u w j hne hint hcls hu hw
    rw [get?_cons] at hu hw
    by_cases huv : u = v
    · rw [if_pos huv] at hu
      obtain rfl := Option.some.inj hu
      subst huv
      rw [if_neg hne.symm] at hw
      exact hrival w hne.symm hint hcls.symm hw
    · rw [if_neg huv] at hu
      by_cases hwv : w = v
      · rw [if_pos hwv] at hw
        obtain rfl := Option.some.inj hw
        subst hwv
        exact hrival u hne (by rw [Graph.interferes_comm]; exact hint) hcls hu
      · rw [if_neg hwv] at hw
        exact hs.proper u w j hne hint hcls hu hw
  · intro e he
    obtain ⟨hmem, hget, hall⟩ := hs.full e he
    refine ⟨by simp [hmem], ?_, ?_⟩
    · rw [get?_cons, if_neg]
      · exact hget
      · intro hev
        exact hnew (hev ▸ hmem)
    · intro j hj
      obtain ⟨u, hu, hget'⟩ := hall j hj
      exact ⟨u, hu, hold u j hget'⟩
  · intro u hu
    rcases List.mem_append.mp hu with hu | hu
    · rcases hs.decided u hu with ⟨j, hj⟩ | hsp
      · exact Or.inl ⟨j, hold u j hj⟩
      · exact Or.inr hsp
    · rw [List.mem_singleton] at hu
      subst hu
      exact Or.inl ⟨k, by rw [get?_cons, if_pos rfl]⟩

/-- Spilling a register whose rivals have every colour keeps the invariant. -/
theorem Sound.spill (hs : Sound p done s) (hv : 26 < v) (hnew : v ∉ done)
    (hall : ∀ k < p.budget (p.classOf v), ∃ u ∈ p.rivals v (p.classOf v), s.colors.get? u = some k)
    (hinfo : info.vreg = v) : Sound p (done ++ [v]) (s.spill info).2 := by
  have hcolors : (s.spill info).2.colors = s.colors := rfl
  have hspilled : (s.spill info).2.spilled = (v, (s.spill info).1) :: s.spilled := by
    rw [← hinfo]
    rfl
  have hnone := hs.uncolored hv hnew
  refine ⟨?_, ?_, ?_, ?_, ?_⟩
  · rw [hcolors]
    exact hs.pseudo
  · intro u j hu
    rw [hcolors] at hu
    rcases hs.within u j hu with hp | ⟨hmem, hj⟩
    · exact Or.inl hp
    · exact Or.inr ⟨by simp [hmem], hj⟩
  · rw [hcolors]
    exact hs.proper
  · rw [hcolors, hspilled]
    intro e he
    rcases List.mem_cons.mp he with rfl | he
    · exact ⟨by simp, hnone, hall⟩
    · obtain ⟨hmem, hrest⟩ := hs.full e he
      exact ⟨by simp [hmem], hrest⟩
  · rw [hcolors, hspilled]
    intro u hu
    rcases List.mem_append.mp hu with hu | hu
    · rcases hs.decided u hu with hk | ⟨slot, hslot⟩
      · exact Or.inl hk
      · exact Or.inr ⟨slot, by simp [hslot]⟩
    · rw [List.mem_singleton] at hu
      subst hu
      exact Or.inr ⟨_, List.mem_cons_self⟩

/-- The only way in which colouring can fail is that a register to be spilled has a type without a
size. -/
theorem step_sound (hfail : ∀ info ∈ p.infos, canSpill info = false → fail (.fault .missingType))
    (hs : Sound p done s) (hdone : ∀ v ∈ done, 26 < v) (hv : 26 < v) (hnew : v ∉ done)
    (hcls : p.classOf v ≠ .none) : Meets (step p (p.classOf v) s v) (Sound p (done ++ [v])) fail := by
  unfold step
  rcases p.decide_cases s.colors (p.classOf v) v with ⟨hd, hall⟩ | ⟨k, hk, hfree, hd⟩
  · rw [hd]
    obtain ⟨info, hinfo⟩ := exists_info hv hcls
    simp only [carryOut, hinfo]
    refine meets_bind (meets_require (fun _ => trivial) ?_ :
      Meets _ (fun _ => True) fail) fun _ _ => ?_
    · exact hfail info (List.mem_of_find?_eq_some hinfo)
    · refine meets_bind (meets_note _ _) fun _ _ => ?_
      exact meets_pure (hs.spill hv hnew hall (vreg_of_info hinfo))
  · have hcol := hs.color hdone hv hnew hk hfree
    rcases hd with ⟨h, hd⟩ | hd
    · rw [hd]
      exact meets_bind (meets_note _ _) fun _ _ => meets_pure hcol
    · rw [hd]
      exact meets_pure hcol

/-! ### All registers -/

/-- Colouring a class decides its registers, whatever the order among them. -/
theorem colorClass_sound (hfail : ∀ info ∈ p.infos, canSpill info = false → fail (.fault .missingType))
    (hs : Sound p done s) (hc : c ≠ .none) (hdone : ∀ v ∈ done, 26 < v ∧ p.classOf v ≠ c) :
    Meets (colorClass p s c) (Sound p (done ++ p.order c)) fail := by
  unfold colorClass
  refine meets_bind (meets_note _ _) fun _ _ => ?_
  refine meets_foldlM (I := fun before s => Sound p (done ++ before) s) (p.order c) ?_ s
    (by simpa using hs)
  intro before v todo s' hsplit hs'
  have hmem : ∀ u, u ∈ before ++ v :: todo → 26 < u ∧ p.classOf u = c := by
    intro u hu
    rw [← hsplit, mem_order] at hu
    exact ⟨hu.1, hu.2.2⟩
  have hnodup : (before ++ v :: todo).Nodup := hsplit ▸ p.nodup_order c
  obtain ⟨hv, hvc⟩ := hmem v (by simp)
  rw [← List.append_assoc, ← hvc]
  refine step_sound hfail hs' ?_ hv ?_ (hvc ▸ hc)
  · intro u hu
    rcases List.mem_append.mp hu with hu | hu
    · exact (hdone u hu).1
    · exact (hmem u (by simp [hu])).1
  · intro hin
    rcases List.mem_append.mp hin with hin | hin
    · exact (hdone v hin).2 hvc
    · have := List.nodup_append.mp hnodup
      exact this.2.2 v hin v (by simp) rfl

/-- **Colouring a function keeps the invariant and decides every register of the two classes.** -/
theorem color_sound (hfail : ∀ info ∈ p.infos, canSpill info = false → fail (.fault .missingType))
    (f : Function) : Meets (color p f) (Sound p (p.order .int ++ p.order .sse)) fail := by
  unfold color
  refine meets_bind (colorClass_sound hfail (sound_start p f) (c := .int) (by decide)
    (by intro v hv; simp at hv)) fun s hs => ?_
  rw [List.nil_append] at hs
  refine colorClass_sound hfail hs (c := .sse) (by decide) ?_
  intro v hv
  obtain ⟨h26, -, hcls⟩ := mem_order.mp hv
  exact ⟨h26, by rw [hcls]; decide⟩

end Coloring

end Codegen
