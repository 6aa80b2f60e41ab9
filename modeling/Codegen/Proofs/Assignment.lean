/-
Homes of registers.

The invariant of colouring speaks of colours, which mean different registers in the
two classes.  Here it is read as a statement about homes: a colour within the budget is
one of the first allocatable registers of the class, the two register files have no
register in common, and a position in a list without repetitions is its element.

`Function.allocate` then checks every operand of the code for a home, so once it returns
every register the code names has one.
-/
import Codegen.Assignment
import Codegen.Proofs.Coloring

namespace Codegen

open ColorProblem

/-! ### Reading homes off a colouring -/

/-- The colouring problem of a function. -/
def Function.colorProblem (f : Function) (a : Analysis) (options : AllocateOptions) :
    ColorProblem :=
  ⟨f.vregCount, RegInfo.ofCode f.code, a, options⟩

variable {v : Int}

namespace Assignment

variable {p : ColorProblem} {s : Coloring} {r : Reg} {slot : Int} {k n : Nat} {c : RegClass} {a : Assignment}

theorem home?_of_color (hk : s.colors.get? v = some k) (hr : (Reg.allocatable (p.classOf v))[k]? = some r) :
    (ofColoring p s).home? v = some (.register r) := by
  have h := lookup_filterMap_of_some
    (fun v k => (Reg.allocatable (p.classOf v))[k]?.map Home.register) (c := Home.register r)
    (by rw [hr]; rfl) s.colors hk
  simp only [Option.map_map] at h
  unfold home? ofColoring
  rw [List.lookup_append]
  exact Option.or_eq_some_iff.mpr (Or.inl h)

theorem home?_of_uncolored (hk : s.colors.get? v = none) :
    (ofColoring p s).home? v = (s.spilled.lookup v).map Home.slot := by
  have h := lookup_filterMap_of_none
    (fun v k => (Reg.allocatable (p.classOf v))[k]?.map Home.register) hk
  simp only [Option.map_map] at h
  unfold home? ofColoring
  rw [List.lookup_append, ← lookup_map_snd]
  exact Option.or_eq_right_of_none h

/-! ### What the homes of a function satisfy -/

/-- What is known of the homes that a colouring gives. -/
structure Safe (p : ColorProblem) (a : Assignment) : Prop where
  /-- A pseudo-register lives in its own register. -/
  fixed : ∀ v, Reg.isPseudo v = true → a.home? v = some (.register (Reg.ofPseudo v))
  /-- Registers that interfere do not share one. -/
  apart : ∀ u v r, u ≠ v → p.analysis.graph.interferes u v = true →
    a.home? u = some (.register r) → a.home? v ≠ some (.register r)
  /-- An ordinary register lives in one of the registers of the budget. -/
  within : ∀ v r, 26 < v → a.home? v = some (.register r) →
    r ∈ (Reg.allocatable (p.classOf v)).take (p.budget (p.classOf v))
  /-- A register in memory has rivals in all registers of the budget. -/
  full : ∀ v slot, a.home? v = some (.slot slot) →
    ∀ r ∈ (Reg.allocatable (p.classOf v)).take (p.budget (p.classOf v)),
      ∃ u ∈ p.rivals v (p.classOf v), a.home? u = some (.register r)
  /-- Only ordinary registers are in memory. -/
  ordinary : ∀ v slot, a.home? v = some (.slot slot) → 26 < v
  /-- The registers in memory are listed. -/
  listed : ∀ v, v ∈ a.spilled ↔ ∃ slot, a.home? v = some (.slot slot)
  /-- The ordinary registers with a home are those of the two classes. -/
  housed : ∀ v, 26 < v → ((a.home? v).isSome = true ↔ v ≤ p.vregCount ∧ p.classOf v ≠ .none)

theorem budget_le {o : AllocateOptions} (h : o.allows c = true) :
    o.budget c ≤ (Reg.allocatable c).length := by
  unfold AllocateOptions.allows at h
  simp only [Bool.and_eq_true, decide_eq_true_eq] at h
  unfold AllocateOptions.budget
  split
  · exact Nat.le_refl _
  · omega

theorem mem_take_allocatable :
    r ∈ (Reg.allocatable c).take n ↔ ∃ k < n, (Reg.allocatable c)[k]? = some r := by
  rw [List.mem_iff_getElem?]
  constructor
  · rintro ⟨k, hk⟩
    rw [List.getElem?_take] at hk
    split at hk
    · rename_i hlt
      exact ⟨k, hlt, hk⟩
    · simp at hk
  · rintro ⟨k, hlt, hk⟩
    exact ⟨k, by rw [List.getElem?_take, if_pos hlt]; exact hk⟩

section colored

variable (hs : Coloring.Sound p (p.order .int ++ p.order .sse) s)
  (hint : p.options.allows .int = true) (hsse : p.options.allows .sse = true)

/-- What has been decided is an ordinary register of one of the two classes. -/
theorem classOf_of_decided (h : v ∈ p.order .int ++ p.order .sse) :
    26 < v ∧ (p.classOf v = .int ∨ p.classOf v = .sse) := by
  rcases List.mem_append.mp h with h | h
  · obtain ⟨hv, -, hc⟩ := mem_order.mp h
    exact ⟨hv, Or.inl hc⟩
  · obtain ⟨hv, -, hc⟩ := mem_order.mp h
    exact ⟨hv, Or.inr hc⟩

include hs hint hsse

theorem exists_register (hk : s.colors.get? v = some k) :
    p.classOf v ≠ .none ∧ ∃ r, (Reg.allocatable (p.classOf v))[k]? = some r := by
  rcases hs.within v k hk with hp | ⟨hmem, hlt⟩
  · have hfix := Colors.fixed_pseudo hp
    rw [← hs.pseudo v hp, hk, Option.bind_some] at hfix
    rw [classOf_pseudo hp]
    exact ⟨Reg.cls_ofPseudo_ne_none hp, _, hfix⟩
  · have hle : p.budget (p.classOf v) ≤ (Reg.allocatable (p.classOf v)).length := by
      rcases (classOf_of_decided hmem).2 with hc | hc
      · rw [hc]; exact budget_le hint
      · rw [hc]; exact budget_le hsse
    refine ⟨?_, _, List.getElem?_eq_getElem (Nat.lt_of_lt_of_le hlt hle)⟩
    rcases (classOf_of_decided hmem).2 with hc | hc <;> rw [hc] <;> decide

theorem color_of_home (h : (ofColoring p s).home? v = some (.register r)) :
    ∃ k, s.colors.get? v = some k ∧ (Reg.allocatable (p.classOf v))[k]? = some r ∧
      r.cls = p.classOf v := by
  cases hk : s.colors.get? v with
  | none =>
    rw [home?_of_uncolored hk] at h
    obtain ⟨slot, -, hslot⟩ := Option.map_eq_some_iff.mp h
    exact absurd hslot (by simp)
  | some k =>
    obtain ⟨hne, r', hr'⟩ := exists_register hs hint hsse hk
    have hh := home?_of_color hk hr'
    rw [hh] at h
    obtain rfl : r' = r := by simpa using h
    exact ⟨k, rfl, hr', Reg.cls_of_mem_allocatable hne (List.mem_of_getElem? hr')⟩

theorem spilled_of_home (h : (ofColoring p s).home? v = some (.slot slot)) : (v, slot) ∈ s.spilled := by
  cases hk : s.colors.get? v with
  | none =>
    rw [home?_of_uncolored hk] at h
    obtain ⟨slot', hl, hslot⟩ := Option.map_eq_some_iff.mp h
    obtain rfl : slot' = slot := by simpa using hslot
    obtain ⟨l₁, l₂, hl, -⟩ := List.lookup_eq_some_iff.mp hl
    rw [hl]
    simp
  | some k =>
    obtain ⟨-, r', hr'⟩ := exists_register hs hint hsse hk
    rw [home?_of_color hk hr'] at h
    simp at h

omit hint hsse in
theorem home_of_spilled (h : (v, slot) ∈ s.spilled) :
    ∃ slot', (ofColoring p s).home? v = some (.slot slot') := by
  rw [home?_of_uncolored (hs.full _ h).2.1]
  cases hl : s.spilled.lookup v with
  | none =>
    have := List.lookup_eq_none_iff.mp hl _ h
    simp at this
  | some slot' => exact ⟨slot', rfl⟩

/-- **The homes of a sound colouring are safe.** -/
theorem safe_ofColoring : Safe p (ofColoring p s) := by
  refine ⟨?_, ?_, ?_, ?_, ?_, ?_, ?_⟩
  · intro v hv
    have hfix := Colors.fixed_pseudo hv
    obtain ⟨k, hk, hr⟩ := Option.bind_eq_some_iff.mp hfix
    rw [← hs.pseudo v hv] at hk
    exact home?_of_color hk (by rw [classOf_pseudo hv]; exact hr)
  · intro u v r hne hinter hu hv
    obtain ⟨k, hk, hr, hcls⟩ := color_of_home hs hint hsse hu
    obtain ⟨k', hk', hr', hcls'⟩ := color_of_home hs hint hsse hv
    have hsame : p.classOf u = p.classOf v := hcls.symm.trans hcls'
    rw [← hsame] at hr'
    -- One register has one position, so the two have one colour.
    have hkk : k = k' := (List.getElem?_inj (List.getElem?_eq_some_iff.mp hr).1
      (Reg.nodup_allocatable _)).mp (hr.trans hr'.symm)
    subst hkk
    exact hs.proper u v k hne hinter hsame hk hk'
  · intro v r hv h
    obtain ⟨k, hk, hr, -⟩ := color_of_home hs hint hsse h
    rcases hs.within v k hk with hp | ⟨-, hlt⟩
    · rw [Reg.isPseudo_eq_false hv] at hp
      simp at hp
    · exact mem_take_allocatable.mpr ⟨k, hlt, hr⟩
  · intro v slot h r hr
    obtain ⟨-, -, hall⟩ := hs.full _ (spilled_of_home hs hint hsse h)
    obtain ⟨k, hlt, hr⟩ := mem_take_allocatable.mp hr
    obtain ⟨u, hu, hk⟩ := hall k hlt
    refine ⟨u, hu, home?_of_color hk ?_⟩
    rw [(mem_rivals.mp hu).2.2]
    exact hr
  · intro v slot h
    exact (classOf_of_decided (hs.full _ (spilled_of_home hs hint hsse h)).1).1
  · intro v
    have hlist : (ofColoring p s).spilled = (s.spilled.map (·.1)).reverse := rfl
    rw [hlist, List.mem_reverse, List.mem_map]
    constructor
    · rintro ⟨⟨v', slot⟩, he, rfl⟩
      exact home_of_spilled hs he
    · rintro ⟨slot, h⟩
      exact ⟨(v, slot), spilled_of_home hs hint hsse h, rfl⟩
  · intro v hv
    have hdecided : v ∈ p.order .int ++ p.order .sse ↔ v ≤ p.vregCount ∧ p.classOf v ≠ .none := by
      rw [List.mem_append, mem_order, mem_order]
      cases p.classOf v <;> simp [hv]
    rw [← hdecided]
    constructor
    · intro h
      obtain ⟨home, hhome⟩ := Option.isSome_iff_exists.mp h
      cases home with
      | register r =>
        obtain ⟨k, hk, -⟩ := color_of_home hs hint hsse hhome
        rcases hs.within v k hk with hp | ⟨hmem, -⟩
        · rw [Reg.isPseudo_eq_false hv] at hp
          simp at hp
        · exact hmem
      | slot slot => exact (hs.full _ (spilled_of_home hs hint hsse hhome)).1
    · intro hmem
      rcases hs.decided v hmem with ⟨k, hk⟩ | ⟨slot, hslot⟩
      · obtain ⟨-, r, hr⟩ := exists_register hs hint hsse hk
        rw [home?_of_color hk hr]
        rfl
      · obtain ⟨slot', h⟩ := home_of_spilled hs hslot
        rw [h]
        rfl

end colored

/-- The register of the machine that a virtual register is in. -/
def held (a : Assignment) (v : Int) : Option Reg :=
  match a.home? v with
  | some (.register r) => some r
  | _ => none

/-- A register in memory has at least as many rivals as its class has colours: each register of the
budget is the home of another one. -/
theorem Safe.budget_le_rivals (h : Safe p a) (hv : a.home? v = some (.slot slot))
    (hint : p.options.allows .int = true) (hsse : p.options.allows .sse = true) :
    p.budget (p.classOf v) ≤ (p.rivals v (p.classOf v)).length := by
  have hle : p.budget (p.classOf v) ≤ (Reg.allocatable (p.classOf v)).length := by
    cases hc : p.classOf v with
    | none =>
      have := (h.housed v (h.ordinary v slot hv)).mp (by rw [hv]; rfl)
      exact absurd hc this.2
    | int => exact budget_le hint
    | sse => exact budget_le hsse
  have hsub : (Reg.allocatable (p.classOf v)).take (p.budget (p.classOf v))
      ⊆ (p.rivals v (p.classOf v)).filterMap a.held := by
    intro r hr
    obtain ⟨u, hu, hhome⟩ := h.full v slot hv r hr
    exact List.mem_filterMap.mpr ⟨u, hu, by simp [held, hhome]⟩
  have hnodup := (Reg.nodup_allocatable (p.classOf v)).sublist
    (List.take_sublist (p.budget (p.classOf v)) _)
  calc p.budget (p.classOf v)
      = ((Reg.allocatable (p.classOf v)).take (p.budget (p.classOf v))).length := by
        rw [List.length_take, Nat.min_eq_left hle]
    _ ≤ ((p.rivals v (p.classOf v)).filterMap a.held).length := (hnodup.subperm hsub).length_le
    _ ≤ (p.rivals v (p.classOf v)).length := List.length_filterMap_le _ _

/-! ### Settling the code -/

section settle

variable {fail : Failure → Prop} {o o' : Option Operand}

/-- Every register named in this place has a home. -/
def Housed (a : Assignment) (o : Option Operand) : Prop :=
  ∀ x, o = some x → ∀ v, x.vregId? = some v → (a.home? v).isSome = true

theorem housed_of_settlePlace (h : a.settlePlace o = .ok o') : a.Housed o := by
  rintro x rfl v hv
  obtain ⟨w, hw⟩ : ∃ w, x.value = .vreg w ∧ w.id = v := by
    unfold Operand.vregId? at hv
    split at hv
    · rename_i w hw
      exact ⟨w, hw, Option.some.inj hv⟩
    · simp at hv
  cases hh : a.home? v with
  | none => simp [settlePlace, settleOperand, hw.1, hw.2, hh, Except.map] at h
  | some _ => rfl

theorem missing_of_settlePlace (h : a.settlePlace o = .error v) :
    ∃ x, o = some x ∧ x.vregId? = some v ∧ a.home? v = none := by
  cases o with
  | none => simp [settlePlace] at h
  | some x =>
    refine ⟨x, rfl, ?_⟩
    simp only [settlePlace, settleOperand] at h
    cases hval : x.value with
    | vreg w =>
      cases hh : a.home? w.id with
      | none =>
        simp only [hval, hh, Except.map, Except.error.injEq] at h
        subst h
        exact ⟨by simp [Operand.vregId?, hval], hh⟩
      | some home => simp [hval, hh, Except.map] at h
    | _ => simp [hval, Except.map] at h

theorem demand_settlePlace (i : Instr) (hfail : ∀ x v, o = some x → x.vregId? = some v → a.home? v = none →
      ∀ j, fail (.internal .regalloc (.noLocation v) j)) :
    Traced.Meets (demand i (a.settlePlace o)) (fun _ => a.Housed o) fail := by
  cases h : a.settlePlace o with
  | ok o' => exact Traced.meets_pure (housed_of_settlePlace h)
  | error v =>
    obtain ⟨x, hx, hv, hnone⟩ := missing_of_settlePlace h
    exact Traced.meets_throw (hfail x v hx hv hnone _)

theorem settleInstr_housed {i : Instr}
    (hfail : ∀ x ∈ i.operands, ∀ v, x.vregId? = some v → a.home? v = none →
      ∀ j, fail (.internal .regalloc (.noLocation v) j)) :
    Traced.Meets (a.settleInstr i)
      (fun _ => ∀ x ∈ i.operands, ∀ v, x.vregId? = some v → (a.home? v).isSome = true) fail := by
  have hplace : ∀ o, o ∈ [i.dst, i.src1, i.src2] → ∀ x v, o = some x → x.vregId? = some v →
      a.home? v = none → ∀ j, fail (.internal .regalloc (.noLocation v) j) := by
    intro o ho x v hx
    refine hfail x ?_ v
    exact List.mem_filterMap.mpr ⟨o, ho, hx⟩
  unfold settleInstr
  refine Traced.meets_bind (demand_settlePlace _ (hplace i.dst (by simp))) fun _ hdst => ?_
  refine Traced.meets_bind (demand_settlePlace _ (hplace i.src1 (by simp))) fun _ hsrc1 => ?_
  refine Traced.meets_bind (demand_settlePlace _ (hplace i.src2 (by simp))) fun _ hsrc2 => ?_
  refine Traced.meets_pure ?_
  intro x hx
  obtain ⟨o, ho, hox⟩ := List.mem_filterMap.mp hx
  simp only [List.mem_cons, List.not_mem_nil, or_false] at ho
  rcases ho with rfl | rfl | rfl
  · exact hdst x hox
  · exact hsrc1 x hox
  · exact hsrc2 x hox

end settle

end Assignment

namespace Function

variable {fail : Failure → Prop} {a : Analysis} {o : AllocateOptions}

/-- Does an operand of the code name a register? -/
def Names (f : Function) (v : Int) : Prop :=
  ∃ i ∈ f.code, ∃ x ∈ i.operands, x.vregId? = some v

theorem dropSelfMoves_returns (name : String) (code : List Instr) :
    Traced.Meets (dropSelfMoves name code) (fun _ => True) fail := by
  induction code with
  | nil => exact Traced.meets_pure trivial
  | cons i rest ih =>
    unfold dropSelfMoves
    split
    · refine Traced.meets_bind (Traced.meets_note _ _) fun _ _ => ?_
      exact Traced.meets_bind ih fun _ _ => Traced.meets_pure trivial
    · exact Traced.meets_bind ih fun _ _ => Traced.meets_pure trivial

/-- What allocation guarantees, and the ways in which it can fail. -/
theorem allocate_safe (f : Function) (a : Analysis) (o : AllocateOptions)
    (hcheck : ∀ e, f.checkBudget a o = .error e → fail e)
    (hspill : ∀ info ∈ RegInfo.ofCode f.code, Coloring.canSpill info = false →
      fail (.fault .missingType))
    (hplace : ∀ h : Assignment, h.Safe (f.colorProblem a o) → ∀ v, f.Names v → h.home? v = none →
      ∀ j, fail (.internal .regalloc (.noLocation v) j)) :
    Traced.Meets (f.allocate a o)
      (fun r => (o.allows .int = true ∧ o.allows .sse = true) ∧ r.1.Safe (f.colorProblem a o) ∧
        ∀ v, f.Names v → (r.1.home? v).isSome = true)
      fail := by
  unfold allocate
  have hbudget : Traced.Meets (Traced.ofExcept (f.checkBudget a o))
      (fun _ => f.checkBudget a o = .ok ()) fail := Traced.meets_ofExcept (fun _ h => h) hcheck
  refine Traced.meets_bind hbudget fun _ hok => ?_
  have hallows : o.allows .int = true ∧ o.allows .sse = true := by
    unfold checkBudget at hok
    split at hok
    · simp at hok
    · split at hok
      · simp at hok
      · rename_i hint hsse
        exact ⟨by simpa using hint, by simpa using hsse⟩
  refine Traced.meets_bind (Coloring.color_sound (p := f.colorProblem a o) hspill f) fun s hs => ?_
  have hsafe : (Assignment.ofColoring (f.colorProblem a o) s).Safe (f.colorProblem a o) :=
    Assignment.safe_ofColoring hs hallows.1 hallows.2
  refine Traced.meets_bind (Traced.meets_mapM f.code fun i hi =>
    Assignment.settleInstr_housed fun x hx v hv hnone j =>
      hplace _ hsafe v ⟨i, hi, x, hx, hv⟩ hnone j) fun code hcode => ?_
  refine Traced.meets_bind (dropSelfMoves_returns f.name code) fun r _ => ?_
  refine Traced.meets_pure ⟨hallows, ⟨hsafe.fixed, hsafe.apart, hsafe.within, hsafe.full,
    hsafe.ordinary, hsafe.listed, hsafe.housed⟩, ?_⟩
  rintro v ⟨i, hi, x, hx, hv⟩
  obtain ⟨_, -, h⟩ := exists_of_forall₂ hcode hi
  exact h x hx v hv

theorem classOf_ne_none_iff (f : Function) (a : Analysis) (o : AllocateOptions) (hv : 26 < v) :
    (f.colorProblem a o).classOf v ≠ .none ↔ f.Names v := by
  rw [classOf_ordinary hv, colorProblem, RegInfo.classIn_ofCode]
  cases h : (f.code.flatMap Instr.operands).find? (·.vregId? == some v) with
  | none =>
    simp only [Option.map_none, Option.getD_none, ne_eq, not_true, false_iff]
    rintro ⟨i, hi, x, hx, hid⟩
    have := List.find?_eq_none.mp h x (List.mem_flatMap.mpr ⟨i, hi, hx⟩)
    simp [hid] at this
  | some x =>
    have hid : x.vregId? = some v := by simpa using List.find?_some h
    obtain ⟨i, hi, hx⟩ := List.mem_flatMap.mp (List.mem_of_find?_eq_some h)
    simp only [Option.map_some, Option.getD_some]
    refine ⟨fun _ => ⟨i, hi, x, hx, hid⟩, fun _ => ?_⟩
    -- The class of an ordinary register is read off a type, and a type is of one of two classes.
    obtain ⟨w, hval, rfl⟩ : ∃ w, x.value = .vreg w ∧ w.id = v := by
      unfold Operand.vregId? at hid
      split at hid
      · rename_i w hw
        exact ⟨w, hw, Option.some.inj hid⟩
      · simp at hid
    unfold Operand.cls
    simp only [hval, Reg.isPseudo_eq_false hv, Bool.false_eq_true, if_false]
    split <;> simp

/-- What allocation needs to go through, apart from a graph on all registers. -/
structure Allocatable (f : Function) (o : AllocateOptions) : Prop where
  /-- The classes have as many registers as the budgets ask for. -/
  ints : o.allows .int = true
  sses : o.allows .sse = true
  /-- Slots can be made from the types of the registers. -/
  typed : ∀ info ∈ RegInfo.ofCode f.code, Coloring.canSpill info = true
  /-- No operand names a register that does not exist. -/
  named : ∀ v, f.Names v → 1 ≤ v ∧ v ≤ f.vregCount

/-- A register that the code names has no home only if its number is out of range. -/
theorem out_of_range_of_home?_eq_none {f : Function} {h : Assignment} (hsafe : h.Safe (f.colorProblem a o))
    (hname : f.Names v) (hnone : h.home? v = none) : ¬ (1 ≤ v ∧ v ≤ f.vregCount) := by
  rintro ⟨hlo, hhi⟩
  by_cases hv : 26 < v
  · have := (hsafe.housed v hv).mpr ⟨hhi, (classOf_ne_none_iff f a o hv).mpr hname⟩
    rw [hnone] at this
    exact absurd this (by simp)
  · have := hsafe.fixed v (Reg.isPseudo_iff.mpr ⟨hlo, by omega⟩)
    rw [hnone] at this
    exact absurd this (by simp)

/-- Allocation fails only where it is asked the impossible, and then not for want of a colour. -/
theorem allocate_safe_or_not_allocatable (f : Function) (a : Analysis) (o : AllocateOptions) :
    Traced.Meets (f.allocate a o)
      (fun r => (o.allows .int = true ∧ o.allows .sse = true) ∧ r.1.Safe (f.colorProblem a o) ∧
        ∀ v, f.Names v → (r.1.home? v).isSome = true)
      (fun e => ¬ (f.Allocatable o ∧ f.vregCount < a.graph.size) ∧
        ∀ v used k i, e ≠ .internal .regalloc (.noColor v used k) i) := by
  refine allocate_safe f a o ?_ ?_ ?_
  · intro e he
    refine ⟨fun h => ?_, ?_⟩
    · simp [checkBudget, h.1.ints, h.1.sses, Int.not_le.mpr h.2] at he
    · rintro v used k i rfl
      unfold checkBudget at he
      split at he
      · simp at he
      · split at he
        · simp at he
        · split at he <;> simp at he
  · intro info hinfo hspill
    refine ⟨fun h => ?_, by simp⟩
    rw [h.1.typed info hinfo] at hspill
    cases hspill
  · intro h hsafe v hname hnone j
    exact ⟨fun hf => out_of_range_of_home?_eq_none hsafe hname hnone (hf.1.named v hname), by simp⟩

/--
**Register allocation is safe and keeps to its budget.**

Whatever the interference graph, the costs and the hints, once allocation returns:
registers that interfere and live in registers live in different ones, and the
pseudo-registers in their own; every ordinary register that the code names is in memory or in
one of the first registers of its class, as many as the budget has, and one that the code
does not name is nowhere; a register in memory is an ordinary one whose neighbours of its class
occupy the whole budget, so that with fewer such neighbours it is not in memory.  Allocation
does return unless it is asked the impossible, and never ends with a register for which no
colour is found.
-/
theorem allocate_apart_within_budget (f : Function) (a : Analysis) (o : AllocateOptions) :
    Traced.Meets (f.allocate a o)
      (fun r =>
        let p := f.colorProblem a o
        (∀ u v x, u ≠ v → a.graph.interferes u v = true → r.1.home? u = some (.register x) →
          r.1.home? v ≠ some (.register x)) ∧
        (∀ v, 1 ≤ v → v ≤ 26 → r.1.home? v = some (.register (Reg.ofPseudo v))) ∧
        (∀ v, 26 < v → f.Names v → v ∉ r.1.spilled →
          ∃ x ∈ (Reg.allocatable (p.classOf v)).take (p.budget (p.classOf v)),
            r.1.home? v = some (.register x)) ∧
        (∀ v, 26 < v → ¬ f.Names v → r.1.home? v = none) ∧
        (∀ v ∈ r.1.spilled, 26 < v ∧
          ∀ x ∈ (Reg.allocatable (p.classOf v)).take (p.budget (p.classOf v)),
            ∃ u ∈ a.graph.neighbors v, p.classOf u = p.classOf v ∧
              r.1.home? u = some (.register x)) ∧
        (∀ v, ((a.graph.neighbors v).filter fun u => p.classOf u == p.classOf v).length
          < p.budget (p.classOf v) → v ∉ r.1.spilled))
      (fun e => ¬ (f.Allocatable o ∧ f.vregCount < a.graph.size) ∧
        ∀ v used k i, e ≠ .internal .regalloc (.noColor v used k) i) := by
  refine (allocate_safe_or_not_allocatable f a o).mono ?_ (fun _ h => h)
  rintro r ⟨hallows, hsafe, hnamed⟩
  refine ⟨hsafe.apart, ?_, ?_, ?_, ?_, ?_⟩
  · intro v hlo hhi
    exact hsafe.fixed v (Reg.isPseudo_iff.mpr ⟨hlo, hhi⟩)
  · intro v hv hname hmem
    obtain ⟨home, hhome⟩ := Option.isSome_iff_exists.mp (hnamed v hname)
    cases home with
    | register x => exact ⟨x, hsafe.within v x hv hhome, hhome⟩
    | slot slot => exact absurd ((hsafe.listed v).mpr ⟨slot, hhome⟩) hmem
  · intro v hv hname
    cases hhome : r.1.home? v with
    | none => rfl
    | some home =>
      have := (hsafe.housed v hv).mp (by rw [hhome]; rfl)
      exact absurd ((classOf_ne_none_iff f a o hv).mp this.2) hname
  · intro v hv
    obtain ⟨slot, hslot⟩ := (hsafe.listed v).mp hv
    refine ⟨hsafe.ordinary v slot hslot, ?_⟩
    intro x hx
    obtain ⟨u, hu, hhome⟩ := hsafe.full v slot hslot x hx
    obtain ⟨hu, hcls⟩ := List.mem_filter.mp hu
    exact ⟨u, hu, by simpa using hcls, hhome⟩
  · intro v hlt hv
    obtain ⟨slot, hslot⟩ := (hsafe.listed v).mp hv
    exact absurd (hsafe.budget_le_rivals hslot hallows.1 hallows.2) (Nat.not_le.mpr hlt)

end Function

end Codegen
