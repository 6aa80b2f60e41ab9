/-
The entry of a function, executed.

The entry gives every parameter a home and, in a variadic function, saves the argument registers.
It writes only what it hands out: registers above those in use, and bytes of fresh slots.  So the
arguments on the stack and in registers are still there when it is over, and the allocation in
the entry is the one that placed the named parameters.
-/
import Codegen.Proofs.ArgList
import Codegen.Proofs.Carrying

namespace Codegen

variable {Q : Unit → Lowering → World → Prop}

namespace Lowering

/-! ### Lowering that may fail -/

section

variable {env : Addresses} {α β : Type} {s : Lowering} {w : World} {m n : Nat} {Q Q' : α → Lowering → World → Prop}
  {b : LowerM α} {k : α → LowerM β}

/-- Lowering succeeds whatever was traced before, executing the code it emits leaves a world, and
state and world are as wanted.  At most `m` labels are set. -/
def LowersWith (env : Addresses) (m : Nat) (b : LowerM α) (s : Lowering) (w : World)
    (Q : α → Lowering → World → Prop) : Prop :=
  ∃ a s' w', (∀ events, ∃ events', (b.run s).run events = .ok (a, s') events') ∧ Advances m s s' ∧
    (∀ code, s'.code <+: code → Executes env code (s.out.size, w) (s'.out.size, w')) ∧ Q a s' w'

/-- No label is set. -/
abbrev Lowers (env : Addresses) (b : LowerM α) (s : Lowering) (w : World)
    (Q : α → Lowering → World → Prop) : Prop := LowersWith env 0 b s w Q

theorem LowersWith.mono (h : LowersWith env m b s w Q) (hQ : ∀ a s' w', Advances m s s' → Q a s' w' → Q' a s' w') :
    LowersWith env m b s w Q' := by
  obtain ⟨a, s', w', hrun, hadv, hreach, hq⟩ := h
  exact ⟨a, s', w', hrun, hadv, hreach, hQ _ _ _ hadv hq⟩

theorem lowers_pure {a : α} (h : Q a s w) : Lowers env (pure a) s w Q :=
  ⟨a, s, w, fun events => ⟨events, rfl⟩, .refl s, fun _ _ => .refl, h⟩

theorem lowersWith_bind {Q' : β → Lowering → World → Prop} (hb : LowersWith env m b s w Q)
    (hk : ∀ a s' w', Advances m s s' → Q a s' w' → LowersWith env n (k a) s' w' Q') :
    LowersWith env (m + n) (b >>= k) s w Q' := by
  obtain ⟨a, s', w', hrun, hadv, hreach, hq⟩ := hb
  obtain ⟨c, s'', w'', hrun', hadv', hreach', hq'⟩ := hk a s' w' hadv hq
  refine ⟨c, s'', w'', fun events => ?_, hadv.trans hadv', fun code hcode => ?_, hq'⟩
  · obtain ⟨events', h⟩ := hrun events
    obtain ⟨events'', h'⟩ := hrun' events'
    refine ⟨events'', ?_⟩
    show EStateM.bind (b.run s) (fun p => (k p.1).run p.2) events = _
    rw [EStateM.bind, show b.run s events = .ok (a, s') events' from h]
    exact h'
  · exact (hreach code (hadv'.prefix_code.trans hcode)).trans (hreach' code hcode)

theorem lowers_bind {Q' : β → Lowering → World → Prop} (hb : Lowers env b s w Q)
    (hk : ∀ a s' w', Advances 0 s s' → Q a s' w' → LowersWith env m (k a) s' w' Q') :
    LowersWith env m (b >>= k) s w Q' := by
  have hbind := lowersWith_bind hb hk
  rwa [Nat.zero_add] at hbind

theorem lowers_lift {b : Build α} (h : RunsWith env m b s w Q) : LowersWith env m (liftM b) s w Q := by
  obtain ⟨a, s', w', hrun, hadv, hreach, hq⟩ := h
  refine ⟨a, s', w', fun events => ⟨events, ?_⟩, hadv, hreach, hq⟩
  show EStateM.Result.ok (b.run s) events = _
  rw [hrun]

/-- Looking at the state, and checking something that holds, before other steps. -/
theorem lowers_bind_get {k : Lowering → LowerM β} {Q : β → Lowering → World → Prop}
    (h : LowersWith env m (k s) s w Q) : LowersWith env m (get >>= k) s w Q := h

theorem lowers_bind_require {ok : Bool} {fault : Fault} {k : Unit → LowerM β} {Q : β → Lowering → World → Prop}
    (hok : ok = true) (h : LowersWith env m (k ()) s w Q) : LowersWith env m (require ok fault >>= k) s w Q := by
  rw [require, if_pos hok]
  exact h

/-- Noting something about the entry emits nothing. -/
theorem advances_entry (s : Lowering) (entry : Entry) : Advances 0 s { s with entry } :=
  ⟨⟨[], (List.append_nil _).symm, Nat.le_refl _, labelled_old _ []⟩, Int.le_refl _, Int.le_refl _, rfl⟩

theorem lowers_modify_entry {Q : Unit → Lowering → World → Prop} (f : Entry → Entry)
    (h : Q () { s with entry := f s.entry } w) :
    Lowers env (modify fun s => { s with entry := f s.entry }) s w Q :=
  ⟨(), { s with entry := f s.entry }, w, fun events => ⟨events, rfl⟩,
    advances_entry s _, fun _ _ => .refl, h⟩

theorem lowers_note {n : Note} {Q : Unit → Lowering → World → Prop} (h : Q () s w) : Lowers env (note n) s w Q :=
  ⟨(), s, w, fun events => ⟨events.push ⟨s.fn.name, n⟩, rfl⟩, .refl s, fun _ _ => .refl, h⟩

end

end Lowering

/-! ### Fresh slots -/

namespace Addresses

variable (env : Addresses)

/-- The address that is `n` slots below the frame base. -/
def below (n : Int) : BitVec 64 := env.frame + (Frame.slotOffset (-n)).toBitVec

theorem toBitVec_slotOffset (i : Int) : (Frame.slotOffset i).toBitVec = BitVec.ofInt 64 (8 * i) := by
  rw [Int.mul_comm, BitVec.ofInt_mul]
  rfl

theorem below_sub (n : Int) (k : Nat) : env.below (n - k) = env.below n + BitVec.ofNat 64 (8 * k) := by
  rw [below, below, toBitVec_slotOffset, toBitVec_slotOffset, BitVec.add_assoc, ← BitVec.ofInt_natCast,
    ← BitVec.ofInt_add]
  congr 2
  omega

theorem of?_slot (n : Int) (t : Ty) : env.of? (.slot (-n) t) = some (env.below n) := by
  simp [of?, Operand.slot, below]

end Addresses

variable {size : Int64}

theorem Function.slotsFor_bounds (h : 0 ≤ size.toInt) (hfit : size.toInt + 8 ≤ 2 ^ 63) :
    1 ≤ slotsFor size ∧ size.toInt ≤ 8 * slotsFor size := by
  have hdiv := toInt_eightbytes h (by omega)
  have hslots : slotsFor size = if (size + 7) / 8 = 0 then 1 else ((size + 7) / 8).toInt := rfl
  rw [hslots]
  split
  · next hzero =>
    have : (size.toInt + 7) / 8 = 0 := by rw [← hdiv, hzero]; rfl
    omega
  · next hzero =>
    have hne : (size.toInt + 7) / 8 ≠ 0 := fun h0 => hzero (Int64.toInt_inj.mp (hdiv.trans h0))
    omega

/-- The type is passed, and has room on the stack. -/
def Ty.Sized (t : Ty) : Prop := 0 ≤ t.size.toInt ∧ t.size.toInt + 8 ≤ 2 ^ 63

namespace Lowering

section

variable {env : Addresses} {s s' s'' : Lowering} {w w' w'' : World} {m m' : Nat}

/-- Registers in use and bytes outside the slots handed out between two states are as before. -/
def Kept (env : Addresses) (s s' : Lowering) (w w' : World) : Prop :=
  w.Confined s.fn.vregCount (env.below s'.fn.stackSlots)
    (8 * (s'.fn.stackSlots - s.fn.stackSlots).toNat) w'

theorem Kept.refl (env : Addresses) (s : Lowering) (w : World) : Kept env s s w w :=
  World.Confined.refl _ _ _ _

theorem Kept.trans (h : Kept env s s' w w') (h' : Kept env s' s'' w' w'') (hadv : Advances m s s')
    (hadv' : Advances m' s' s'') : Kept env s s'' w w'' := by
  have hslots := hadv.slots
  have hslots' := hadv'.slots
  have hvregs := hadv.vregs
  unfold Kept at h h' ⊢
  generalize s.fn.stackSlots = n at *
  generalize s'.fn.stackSlots = n' at *
  generalize s''.fn.stackSlots = n'' at *
  have hbelow : env.below n' = env.below n'' + BitVec.ofNat 64 (8 * (n'' - n').toNat) := by
    rw [← Addresses.below_sub]
    congr 1
    omega
  rw [hbelow] at h
  have hfirst := h.widen (k := 8 * (n'' - n).toNat) (by omega)
  have hsecond : w'.Confined s'.fn.vregCount (env.below n'') (8 * (n'' - n).toNat) w'' :=
    ⟨h'.regs, fun p hp => h'.memory p fun hq => hp (hq.mono (by omega))⟩
  exact hfirst.trans (hsecond.mono hvregs)

/-- Slots were handed out, and their lowest address is that of the operand. -/
structure Handed (env : Addresses) (t : Ty) (s : Lowering) (o : Operand) (s' : Lowering) : Prop where
  address : env.of? o = some (env.below s'.fn.stackSlots)
  type : o.type = t
  vregs : s'.fn.vregCount = s.fn.vregCount
  entry : s'.entry = s.entry
  slots : s.fn.stackSlots + Function.slotsFor t.size ≤ s'.fn.stackSlots

variable {t : Ty} {o area : Operand} {a : Allocation} {i k : Nat} {members : List Nat} {cs : List Eightbyte}
  {l : Location} {x p : BitVec 64} {s₂ : Lowering} {c : Eightbyte} {P : Instr → Prop}

theorem runs_freshSlot (ht : t.Sized) :
    Runs env (freshSlot t) s w fun o s' w' => Handed env t s o s' ∧ w' = w := by
  obtain ⟨hone, -⟩ := Function.slotsFor_bounds ht.1 ht.2
  refine ⟨_, _, w, rfl, ⟨⟨[], (List.append_nil _).symm, Nat.le_refl _, labelled_old _ []⟩, Int.le_refl _, ?_, rfl⟩,
    fun _ _ => .refl, ⟨Addresses.of?_slot env _ _, rfl, rfl, rfl, ?_⟩, rfl⟩
  · show s.fn.stackSlots ≤ s.fn.stackSlots + Function.slotsFor t.size + _
    split <;> omega
  · show s.fn.stackSlots + Function.slotsFor t.size ≤ s.fn.stackSlots + Function.slotsFor t.size + _
    split <;> omega

/-! ### The homes of parameters -/

/-- What stays as it was while the homes are given: the entry, and all that is in use. -/
structure Homed (env : Addresses) (s : Lowering) (w : World) (s' : Lowering) (w' : World) : Prop where
  kept : Kept env s s' w w'
  entry : s'.entry = s.entry

/-- A move into slots that were just handed out. -/
theorem Handed.kept_store (h : Handed env t s o s') (ht : t.Sized) (hk : k ≤ 8) (x : BitVec 64) :
    Kept env s s' w (w.store (env.below s'.fn.stackSlots) k x) := by
  obtain ⟨hone, -⟩ := Function.slotsFor_bounds ht.1 ht.2
  have hslots := h.slots
  have hstore := (World.Confined.refl s.fn.vregCount (env.below s'.fn.stackSlots)
    (8 * (s'.fn.stackSlots - s.fn.stackSlots).toNat) w).store (d := 0) (j := k) (by omega) x
  simpa [Kept] using hstore

theorem runs_newReg (t : Ty) : Runs env (freshReg t) s w fun v s' w' =>
    v = .vreg (s.fn.vregCount + 1) t ∧ s'.fn = { s.fn with vregCount := s.fn.vregCount + 1 } ∧
      s'.entry = s.entry ∧ w' = w :=
  runs_freshReg fun _ hfn hentry => ⟨rfl, hfn, hentry, rfl⟩

theorem runs_move_vreg {v : VReg} {offset : Int64} {a : Operand} (ht : t.span ≤ 8) (ha : w.value? env a = some x) :
    Runs env (move ⟨.vreg v, t, offset⟩ a) s w fun _ s' w' =>
      s'.fn = s.fn ∧ s'.entry = s.entry ∧ w' = w.set v.id (t.fit x) :=
  runs_emit (by decide) (by decide) ((Instr.effect?_move ha).trans (if_neg (Nat.not_lt.mpr ht)))
    fun _ hfn hentry => ⟨hfn, hentry, rfl⟩

theorem homed_set {s₁ : Lowering} (hfn₁ : s₁.fn = { s.fn with vregCount := s.fn.vregCount + 1 })
    (hentry₁ : s₁.entry = s.entry) (hfn₂ : s₂.fn = s₁.fn) (hentry₂ : s₂.entry = s₁.entry) (x : BitVec 64) :
    Homed env s w s₂ (w.set (s.fn.vregCount + 1) x) := by
  refine ⟨?_, hentry₂.trans hentry₁⟩
  unfold Kept
  rw [hfn₂, hfn₁]
  exact (World.Confined.refl _ _ _ _).set (by omega) _

theorem runs_stackHome (ht : t.IsArgument) (taken : Bool) (offset : Int64) :
    Runs env (stackHome t taken offset) s w fun _ => Homed env s w := by
  unfold stackHome
  split
  · exact runs_pure ⟨.refl _ _ _, rfl⟩
  · next hscalar =>
    simp only [Bool.or_eq_true, not_or] at hscalar
    obtain ⟨c, hc⟩ | rfl | ⟨hagg, -⟩ := ht.cases
    · have hslot : w.value? env (.slot (incomingIndex offset) t) = some _ := World.value?_memory rfl hc.span_le
      refine runs_bind (runs_newReg t) ?_
      rintro _ s₁ w - ⟨rfl, hfn₁, hentry₁, rfl⟩
      refine runs_bind (runs_move_vreg hc.span_le hslot) ?_
      rintro _ s₂ _ - ⟨hfn₂, hentry₂, rfl⟩
      exact runs_pure (homed_set hfn₁ hentry₁ hfn₂ hentry₂ _)
    · exact absurd rfl hscalar.1.2
    · exact absurd hagg hscalar.1.1

theorem runs_registerHome (ht : t.InOneRegister c) (hsized : t.Sized) (taken : Bool) (place : Place) :
    Runs env (registerHome t taken place) s w fun _ => Homed env s w := by
  cases taken with
  | true =>
    refine runs_bind (runs_freshSlot hsized) ?_
    rintro o s₁ w - ⟨h, rfl⟩
    have hput := World.put?_memory (w := w) h.address (by rw [h.type]; exact ht.span_le)
    refine runs_bind (Q := fun _ => Homed env s w) (runs_emit (by decide) (by decide)
      ((Instr.effect?_move (World.value?_vreg _ ht.span_le)).trans (hput _)) fun s₂ hfn hentry => ?_)
      fun _ s₂ w₂ _ homed => runs_pure homed
    refine ⟨?_, hentry.trans h.entry⟩
    unfold Kept
    rw [hfn, h.type]
    exact h.kept_store hsized ht.span_le _
  | false =>
    refine runs_bind (runs_newReg t) ?_
    rintro _ s₁ w - ⟨rfl, hfn₁, hentry₁, rfl⟩
    refine runs_bind (runs_move_vreg ht.span_le (World.value?_vreg _ ht.span_le)) ?_
    rintro _ s₂ _ - ⟨hfn₂, hentry₂, rfl⟩
    exact runs_pure (homed_set hfn₁ hentry₁ hfn₂ hentry₂ _)

theorem mem_seats (h : l ∈ Allocation.seats size members i cs a) :
    ∃ c n j, i ≤ j ∧ j < i + cs.length ∧ l = ⟨Eightbyte.seat c n, some (Allocation.window size members j)⟩ := by
  induction cs generalizing i a with
  | nil => exact nomatch h
  | cons c cs ih =>
    rcases List.mem_cons.mp h with rfl | h
    · exact ⟨c, _, i, Nat.le_refl _, by simp, rfl⟩
    · obtain ⟨c', n, j, hle, hlt, rfl⟩ := ih h
      exact ⟨c', n, j, by omega, by simp only [List.length_cons]; omega, rfl⟩

/-- An aggregate in registers is stored into slots of its own. -/
theorem runs_aggregateHome {p : Placement} (hsized : t.Sized) (hcs : Eightbyte.classify t = some cs)
    (hp : p.locations = Allocation.seats t.size (Eightbyte.memberCounts t) 0 cs a) :
    Runs env (aggregateHome t p) s w fun _ => Homed env s w := by
  obtain ⟨hlength, hpos, hle⟩ := Eightbyte.length_of_classify hcs hsized.1
  obtain ⟨hone, hslots⟩ := Function.slotsFor_bounds hsized.1 hsized.2
  refine runs_bind (runs_freshSlot hsized) ?_
  rintro o s₁ w hadv₁ ⟨h, rfl⟩
  have hhanded := h.slots
  have hwindows : ∀ l ∈ p.locations, ∀ win, l.window = some win → win.size.toInt ≤ 8 ∧
      ∃ i, win.offset.toBitVec = BitVec.ofNat 64 (8 * i) ∧
        8 * i + 8 ≤ 8 * (s₁.fn.stackSlots - s.fn.stackSlots).toNat := by
    intro l hl win hwin
    rw [hp] at hl
    obtain ⟨c, n, j, -, hj, rfl⟩ := mem_seats hl
    obtain rfl := Option.some.inj hwin
    obtain ⟨hoffset, hwindow⟩ := Allocation.toNat_window (Eightbyte.memberCounts t)
      (show 8 * j < t.size.toInt.toNat by omega)
    exact ⟨by omega, j, toBitVec_eight_mul j, by omega⟩
  refine runs_bind (Q := fun _ => Homed env s w) ?_ fun _ s₂ w₂ _ homed => runs_pure homed
  refine ((runs_storeEightbytes h.address argRegister hwindows).and_entry (appends_of fun low =>
    emits_storeEightbytes_of (permissive_unlabelled low).carrying (writable_unlabelled _) _ _)).mono
    fun _ s₂ w₂ hadv ⟨hentry, hconfined⟩ => ?_
  rw [h.vregs] at hconfined
  have hkept : Kept env s s₁ w w₂ := hconfined
  exact ⟨hkept.trans (World.Confined.refl _ _ _ _) hadv₁ hadv, hentry.trans h.entry⟩

theorem stackOffset?_registers (t : Ty) (a : Allocation) (cs : List Eightbyte) :
    Placement.stackOffset? ⟨t, a.registers t cs⟩ = none := by
  unfold Allocation.registers
  split
  · match cs with
    | [] => rfl
    | [c] => cases c <;> rfl
    | c :: _ :: _ => cases c <;> rfl
  · match cs with
    | [] => rfl
    | [c] => cases c <;> rfl
    | c :: _ :: _ => cases c <;> rfl

/-- **A parameter is given its home without touching anything in use.** -/
theorem lowers_paramHome (ha : a.InBounds) (ht : t.IsArgument)
    (hfit : a.offset.toInt + Allocation.room t ≤ 2 ^ 63 - 1) (taken : Bool) :
    Lowers env (paramHome t taken (a.add t).1) s w fun _ => Homed env s w := by
  have hnonneg := ha.nonneg
  have hsized : t.Sized := ⟨ht.size_nonneg, by unfold Allocation.room at hfit; omega⟩
  have hoffset? : (a.add t).1.stackOffset?
      = Placement.stackOffset? ⟨t, (a.add t).1.locations⟩ := rfl
  unfold paramHome
  rcases Allocation.add_cases ha t with ⟨cs, hwanted, hfits, hlocations, -⟩ | ⟨-, -, hplace⟩
  · rw [hoffset?, hlocations, stackOffset?_registers]
    obtain ⟨c, hc⟩ | rfl | ⟨hagg, -⟩ := ht.cases
    · obtain rfl : [c] = cs := Option.some.inj (hc.wanted.symm.trans hwanted)
      simp only [Allocation.registers, hc.notAggregate]
      cases c <;> exact lowers_lift (runs_registerHome hc hsized taken _)
    · cases hwanted
    · have hcs : Eightbyte.classify t = some cs := by rwa [Allocation.wanted, if_pos hagg] at hwanted
      have hseats : (a.add t).1.locations
          = Allocation.seats t.size (Eightbyte.memberCounts t) 0 cs a := by
        rw [hlocations, Allocation.registers, if_pos hagg]
      obtain ⟨hlength, hpos, -⟩ := Eightbyte.length_of_classify hcs hsized.1
      obtain ⟨c, rest, rfl⟩ : ∃ c rest, cs = c :: rest :=
        List.exists_cons_of_length_pos (by omega)
      simp only [Allocation.registers, hagg]
      exact lowers_lift (runs_aggregateHome hsized hcs hseats)
  · rcases hplace with ⟨-, -, hlocations, -⟩ | ⟨-, hlocations, -⟩
    · rw [hoffset?, hlocations]
      refine lowers_lift ((runs_freshSlot hsized).mono ?_)
      rintro o s₁ w hadv ⟨h, rfl⟩
      exact ⟨World.Confined.refl _ _ _ _, h.entry⟩
    · have hstart := (Allocation.start_bounds ha (by unfold Allocation.room at hfit; omega) t).1
      have hle : (0 : Int64) ≤ a.start t := Int64.le_iff_toInt_le.mpr (Int.le_trans hnonneg hstart)
      have hstack : Placement.stackOffset? ⟨t, (a.add t).1.locations⟩ = some (a.start t) := by
        rw [hlocations]
        exact if_pos hle
      rw [hoffset?, hstack]
      exact lowers_lift (runs_stackHome ht taken _)

theorem lowers_lowerParam (ha : s.entry.params.InBounds) (ht : t.IsArgument)
    (hfit : s.entry.params.offset.toInt + Allocation.room t ≤ 2 ^ 63 - 1) (index : Nat) (taken : Bool) :
    Lowers env (lowerParam index t taken) s w fun _ s' w' =>
      Kept env s s' w w' ∧ s'.entry.params = (s.entry.params.add t).2 := by
  refine lowers_bind_require ht.canAdd (lowers_bind_get ?_)
  have hhome : ∀ s', Lowers env (paramHome t taken (s.entry.params.add t).1) s' w
      fun _ => Homed env s' w := fun s' => lowers_paramHome ha ht hfit taken
  generalize s.entry.params.add t = r at hhome ⊢
  obtain ⟨p, params⟩ := r
  refine lowers_bind (lowers_modify_entry (fun e => { e with params := params }) (Q := fun _ s' w' =>
    s' = { s with entry := { s.entry with params := params } } ∧ w' = w) ⟨rfl, rfl⟩) ?_
  rintro - _ w - ⟨rfl, rfl⟩
  refine lowers_bind (hhome _) fun home s₁ w₁ _ homed => ?_
  refine lowers_bind (lowers_modify_entry (fun e => { e with homes := e.homes ++ [home] })
    (Q := fun _ s' w' => Kept env s s' w w' ∧ s'.entry.params = params)
    ⟨homed.kept, by rw [show _ = _ from homed.entry]⟩) fun _ s₂ w₂ _ h => ?_
  exact lowers_note h

/-- **Giving the parameters their homes touches nothing in use, and places them one after another.** -/
theorem lowers_lowerParams (ps : List (Ty × Bool)) (hps : ∀ p ∈ ps, p.1.IsArgument) (index : Nat)
    (ha : s.entry.params.InBounds)
    (hfit : s.entry.params.offset.toInt + (ps.map (Allocation.room ·.1)).sum ≤ 2 ^ 63 - 1) :
    Lowers env (lowerParams index ps) s w fun _ s' w' =>
      Kept env s s' w w' ∧ s'.entry.params = (s.entry.params.addAll (ps.map (·.1))).2 := by
  induction ps generalizing s w index with
  | nil => exact lowers_pure ⟨.refl _ _ _, rfl⟩
  | cons p ps ih =>
    obtain ⟨t, taken⟩ := p
    rw [List.map_cons, List.sum_cons] at hfit
    dsimp only at hfit
    have ht : t.IsArgument := hps (t, taken) (by simp)
    have hfit₁ : s.entry.params.offset.toInt + Allocation.room t ≤ 2 ^ 63 - 1 := by omega
    obtain ⟨hbounds, -, hoffset⟩ := ha.add ht.size_nonneg hfit₁
    refine lowers_bind (lowers_lowerParam ha ht hfit₁ index taken) ?_
    rintro - s₁ w₁ hadv₁ ⟨kept, hparams⟩
    rw [← hparams] at hbounds hoffset
    refine (ih (fun q hq => hps q (by simp [hq])) (index + 1) hbounds (by omega)).mono ?_
    rintro - s₂ w₂ hadv₂ ⟨kept₂, hparams₂⟩
    refine ⟨kept.trans kept₂ hadv₁ hadv₂, ?_⟩
    rw [hparams₂, hparams]
    rfl

/-- The allocation that named parameters start from: the address of a result in memory comes first. -/
def firstOf (result : Ty) : Allocation :=
  if Placement.resultInMemory result then Allocation.arguments.reserve.2 else .arguments

theorem inBounds_firstOf (result : Ty) : (firstOf result).InBounds := by
  unfold firstOf
  split
  · exact Allocation.inBounds_reserve
  · exact Allocation.inBounds_arguments

theorem offset_firstOf (result : Ty) : (firstOf result).offset = 0 := by
  unfold firstOf
  split <;> rfl

theorem lowers_lowerHidden (hknown : Placement.canResultInMemory s.fn.result = true)
    (hparams : s.entry.params = .arguments) :
    Lowers env lowerHidden s w fun _ s' w' =>
      Kept env s s' w w' ∧ s'.entry.params = firstOf s.fn.result := by
  refine lowers_bind_get (lowers_bind_require hknown ?_)
  unfold firstOf
  split
  · refine lowers_bind_get (lowers_bind (lowers_lift (runs_newReg _)) ?_)
    rintro _ s₁ w - ⟨rfl, hfn₁, hentry₁, rfl⟩
    refine lowers_bind (lowers_lift (runs_move_vreg (by simp) (World.value?_vreg _ (by simp)))) ?_
    rintro _ s₂ _ - ⟨hfn₂, hentry₂, rfl⟩
    refine lowers_modify_entry (fun e => { e with params := s.entry.params.reserve.2, hidden := _ })
      ⟨(homed_set hfn₁ hentry₁ hfn₂ hentry₂ _).kept, ?_⟩
    rw [hparams]
  · exact lowers_pure ⟨.refl _ _ _, hparams⟩

/-! ### Saving registers -/

/-- The type that registers of the class's file are saved at. -/
def wordOf (c : Eightbyte) : Ty :=
  match c with
  | .sse => .double
  | _ => .long

theorem span_wordOf (c : Eightbyte) : (wordOf c).span = 8 := by cases c <;> rfl

theorem fit_wordOf (c : Eightbyte) (x : BitVec 64) : (wordOf c).fit x = x := by
  cases c with
  | sse => exact Ty.fit_double x
  | _ => exact Ty.fit_long x

/-- Save the registers of a file from the `n`-th on. -/
def saveFile (area : Operand) (c : Eightbyte) (n : Nat) : Build Unit :=
  (List.range' n (c.capacity - n)).forM fun i =>
    move (area.shifted (Int64.ofNat (savedAt c i)) (wordOf c))
      (pseudo (argRegister (c.seat i)) (wordOf c))

/-- A step that is taken only if the operand is not zero. -/
def onlyIf (o : Operand) (body : Build Unit) : Build Unit := do
  let skip ← freshLabel
  emit .jz none o (Operand.label skip)
  body
  label skip

theorem saveRegisters_eq (a : Allocation) (area : Operand) :
    saveRegisters a area = (do
      saveFile area .integer (a.taken .integer)
      onlyIf (pseudo .rax .uchar) (saveFile area .sse (a.taken .sse))) := rfl

/-- The registers from the `n`-th on of a file are in the save area at `p`. -/
def SavedFrom (p : BitVec 64) (c : Eightbyte) (n : Nat) (w : World) (m : Memory) : Prop :=
  ∀ i, n ≤ i → i < c.capacity → ∀ j < 8,
    m (p + BitVec.ofNat 64 (savedAt c i) + BitVec.ofNat 64 j)
      = byteOf (w.regs (argRegister (c.seat i)).pseudo) j

/-- One register after another is saved, and no other byte is written. -/
theorem runs_saveFile (harea : env.of? area = some p) (c : Eightbyte) (n : Nat) :
    Runs env (saveFile area c n) s w fun _ s' w' =>
      s'.entry = s.entry ∧ w'.regs = w.regs ∧ SavedFrom p c n w w'.memory ∧
        ∀ q, (∀ i, n ≤ i → i < c.capacity → ¬ Memory.Within (p + BitVec.ofNat 64 (savedAt c i)) 8 q) →
          w'.memory q = w.memory q := by
  refine (runs_forM (I := fun done s' w' => s'.entry = s.entry ∧ w'.regs = w.regs ∧
    (∀ i ∈ done, ∀ j < 8, w'.memory (p + BitVec.ofNat 64 (savedAt c i) + BitVec.ofNat 64 j)
      = byteOf (w.regs (argRegister (c.seat i)).pseudo) j) ∧
    ∀ q, (∀ i ∈ done, ¬ Memory.Within (p + BitVec.ofNat 64 (savedAt c i)) 8 q) →
      w'.memory q = w.memory q) (List.range' n (c.capacity - n)) ?_
    ⟨rfl, rfl, by simp, fun _ _ => rfl⟩).mono ?_
  · rintro done i todo s₁ w₁ hsplit ⟨hentry, hregs, hsaved, hother⟩
    have hi : i < c.capacity := by
      have : i ∈ List.range' n (c.capacity - n) := by rw [hsplit]; simp
      rw [List.mem_range'_1] at this
      omega
    -- the registers saved already are other ones
    have hlt : ∀ k ∈ done, k < i := by
      have hsorted : (List.range' n (c.capacity - n)).Pairwise (· < ·) := List.pairwise_lt_range'
      rw [hsplit] at hsorted
      exact fun k hk => (List.pairwise_append.mp hsorted).2.2 k hk i (by simp)
    refine (runs_move harea _ (Nat.le_of_eq (span_wordOf c))
      (World.value?_vreg _ (Nat.le_of_eq (span_wordOf c)))).mono ?_
    rintro - s₂ _ - ⟨-, hentry₂, rfl⟩
    rw [fit_wordOf, span_wordOf, hregs, show (Int64.ofNat (savedAt c i)).toBitVec
      = BitVec.ofNat 64 (savedAt c i) from rfl]
    have hbound := savedAt_lt hi
    refine ⟨hentry₂.trans hentry, hregs, fun k hk j hj => ?_, fun q hq => ?_⟩
    · rw [World.memory_store]
      rcases List.mem_append.mp hk with hk | hk
      · have hstep := savedAt_step (c := c) (hlt k hk)
        rw [Memory.store_of_not_within _ _ (Memory.apart_offsets p (.inl hstep) (by omega) (by omega) _
          (Memory.within_add _ hj (by omega)))]
        exact hsaved k hk j hj
      · obtain rfl := List.mem_singleton.mp hk
        exact Memory.store_apply _ _ _ hj (by omega)
    · rw [World.memory_store, Memory.store_of_not_within _ _ (hq i (by simp))]
      exact hother q fun k hk => hq k (by simp [hk])
  · rintro - s' w' - ⟨hentry, hregs, hsaved, hother⟩
    have hmem : ∀ i, i ∈ List.range' n (c.capacity - n) ↔ n ≤ i ∧ i < c.capacity := fun i => by
      rw [List.mem_range'_1]
      omega
    exact ⟨hentry, hregs, fun i hn hi => hsaved i ((hmem i).mpr ⟨hn, hi⟩),
      fun q hq => hother q fun i hi => hq i ((hmem i).mp hi).1 ((hmem i).mp hi).2⟩

theorem emits_saveFile {low : Int} (harea : Writable P area) (c : Eightbyte) (n : Nat) :
    EmitsFrom low P (saveFile area c n) fun _ => True := emits_forM fun _ _ => emits_move harea _ _ _

/-- The label behind a step that may be jumped over. -/
def skipOf (s : Lowering) : Int := (s.fn.labelCount + 1).toInt

/-- The state in which the body starts: a label was handed out, and the jump over the body is there. -/
def atBody (s : Lowering) (o : Operand) : Lowering :=
  { s with
    fn := { s.fn with labelCount := s.fn.labelCount + 1 }
    out := s.out.push (.ir .jz none o (Operand.label s.skipOf)) }

/-- A step that may be jumped over sets the label that it hands out. -/
theorem extends_body (h : Extends P (s.atBody o) s₂) (hjz : ∀ n, P (.ir .jz none o (Operand.label n)))
    (htarget : ∀ n, P (.target n)) : Extends P s (OrElse.atEnd s₂ s.skipOf) := by
  obtain ⟨new, hnew, hall, hlabels⟩ := h.out
  refine ⟨⟨h.entry, h.args, ?_, h.vregs, .ir .jz none o (Operand.label s.skipOf) :: new ++ [.target s.skipOf], ?_,
    fun i hi => ?_, ?_⟩, h.slots⟩
  · show s₂.fn = _
    rw [h.fn]
    rfl
  · simp only [OrElse.atEnd, code, Array.toList_push] at hnew ⊢
    rw [hnew]
    simp [atBody]
  · simp only [List.cons_append, List.mem_cons, List.mem_append, List.not_mem_nil, or_false] at hi
    rcases hi with rfl | hi | rfl
    · exact hjz _
    · exact hall i hi
    · exact htarget _
  · refine ((labelled_target s.fn.labelCount).append hlabels).perm ?_
    rw [labelsOf_append]
    exact List.perm_append_comm

/-- The label to skip to is a label, and not in the code already. -/
theorem skipOf_fresh (hs : s.Numbered 1) : s.skipOf ≠ 0 ∧ s.skipOf ∉ labelsOf s.code := by
  have hnodup := hs.nodup
  rw [show handed s.fn.labelCount 1 = [s.skipOf] from rfl] at hnodup
  simp only [List.nodup_cons, List.nodup_append, List.mem_append, List.mem_singleton, not_or] at hnodup
  obtain ⟨⟨-, hzero⟩, -, -, hmem⟩ := hnodup
  exact ⟨Ne.symm hzero, fun h => hmem _ h _ rfl rfl⟩

theorem runs_onlyIf {body : Build Unit} {P : World → Prop} (hs : s.Numbered 1) (hbody : Appends body)
    (hx : w.value? env o = some x) (ho : ∀ n, o.value ≠ .label n) (hskip : x = 0 → P w)
    (h : ∀ s', x ≠ 0 → Runs env body s' w fun _ _ w' => P w') :
    RunsWith env 1 (onlyIf o body) s w fun _ s' w' => s'.entry = s.entry ∧ P w' := by
  have hextends := hbody (s.atBody o)
  have hrun : (onlyIf o body).run s = ((), OrElse.atEnd (body.run (s.atBody o)).2 s.skipOf) := rfl
  generalize hs₂ : (body.run (s.atBody o)).2 = s₂ at hextends hrun
  have hlabels : labelsOf s₂.code = labelsOf s.code := by
    rw [hextends.advances.labelsOf_eq]
    simp [atBody, code, labelsOf, Instr.ir]
  have hcode : (OrElse.atEnd s₂ s.skipOf).code = s₂.code ++ [.target s.skipOf] := by simp [OrElse.atEnd, code]
  have hadvances : Advances 1 s (OrElse.atEnd s₂ s.skipOf) := by
    have hall := extends_body (hextends.mono (R := fun _ => True) fun _ _ => trivial) (fun _ => trivial)
      fun _ => trivial
    refine hall.advances_of_le ?_
    rw [hcode, labelsOf_append, hlabels, List.length_append]
    exact Nat.add_le_add_left (length_labelsOf_singleton _) _
  have hbefore : s₂.code <+: (OrElse.atEnd s₂ s.skipOf).code := ⟨_, hcode.symm⟩
  have hjz : ∀ code, (OrElse.atEnd s₂ s.skipOf).code <+: code →
      code[s.out.size]? = some (.ir .jz none o (Operand.label s.skipOf)) := by
    intro code hcode
    obtain ⟨rest, rfl⟩ := (hextends.prefix_code.trans hbefore).trans hcode
    simp [atBody, Lowering.code]
  -- past the label that the jump goes to
  have hlast : ∀ code, (OrElse.atEnd s₂ s.skipOf).code <+: code → ∀ w,
      Executes env code (s₂.out.size, w) ((OrElse.atEnd s₂ s.skipOf).out.size, w) := by
    intro code hcode w
    simpa [OrElse.atEnd] using
      executes_effect .nop (getElem?_of_push hcode) rfl (by decide) (by decide) rfl
  by_cases hzero : x = 0
  · refine ⟨(), _, w, hrun, hadvances, fun code hcode => ?_, hextends.entry, hskip hzero⟩
    obtain ⟨hne, hnotMem⟩ := skipOf_fresh hs
    rw [← hlabels] at hnotMem
    have hposition : positionOf? code s.skipOf = some s₂.out.size := by
      obtain ⟨rest, rfl⟩ := hcode
      have hpos := positionOf?_append s₂.code rest (label_ne_of_notMem hne hnotMem) (i := .target s.skipOf) rfl
      simpa [OrElse.atEnd, Lowering.code] using hpos
    exact (executes_jz_taken (hjz code hcode) (hzero ▸ hx) ho hposition).trans (hlast code hcode w)
  · obtain ⟨_, s₃, w', hrun', -, hreach, hP⟩ := h (s.atBody o) hzero
    rw [hrun'] at hs₂
    obtain rfl : s₃ = s₂ := hs₂
    refine ⟨(), _, w', hrun, hadvances, fun code hcode => ?_, hextends.entry, hP⟩
    have hbody := hreach code (hbefore.trans hcode)
    rw [show (s.atBody o).out.size = s.out.size + 1 by simp [atBody]] at hbody
    exact ((executes_jz_on (hjz code hcode) hx hzero).trans hbody).trans (hlast code hcode w')

/-- **The argument registers from the first free one on are saved, the vector ones if the caller used
any, and nothing outside the save area is written.** -/
theorem runs_saveRegisters (hs : s.Numbered 1) (harea : env.of? area = some p) (a : Allocation) :
    RunsWith env 1 (saveRegisters a area) s w fun _ s' w' =>
      s'.entry = s.entry ∧ w'.regs = w.regs ∧
        (∀ q, ¬ Memory.Within p areaBytes q → w'.memory q = w.memory q) ∧
        SavedFrom p .integer (a.taken .integer) w w'.memory ∧
        ((w.regs Reg.rax.pseudo).setWidth 8 ≠ 0 → SavedFrom p .sse (a.taken .sse) w w'.memory) := by
  have hinside : ∀ (c : Eightbyte) (n : Nat) q, ¬ Memory.Within p areaBytes q → ∀ i, n ≤ i →
      i < c.capacity → ¬ Memory.Within (p + BitVec.ofNat 64 (savedAt c i)) 8 q :=
    fun c n q hq i _ hi h => hq (h.of_part (savedAt_lt hi))
  rw [saveRegisters_eq]
  refine runs_bind (runs_saveFile harea .integer _) ?_
  rintro - s₁ w₁ hadv ⟨hentry, hregs, hints, hother⟩
  have hcaller : w₁.value? env (pseudo .rax .uchar)
      = some (((w.regs Reg.rax.pseudo).setWidth 8).setWidth 64) := by
    rw [← hregs]
    exact World.value?_vreg _ (by decide)
  refine (runs_onlyIf (P := fun w' => w'.regs = w.regs ∧
    (∀ q, ¬ Memory.Within p areaBytes q → w'.memory q = w.memory q) ∧
    SavedFrom p .integer (a.taken .integer) w w'.memory ∧
    ((w.regs Reg.rax.pseudo).setWidth 8 ≠ 0 → SavedFrom p .sse (a.taken .sse) w w'.memory))
    (hadv.numbered hs) (appends_of fun _ => emits_saveFile (writable_unlabelled _) _ _) hcaller
    (fun n => by simp [pseudo, Operand.vreg])
    (fun hzero => ?_) fun s' _ => ?_).mono ?_
  · refine ⟨hregs, fun q hq => hother q (hinside _ _ q hq), hints, fun hne => absurd ?_ hne⟩
    simpa using congrArg (BitVec.setWidth 8) hzero
  · refine (runs_saveFile harea .sse _).mono ?_
    rintro - s₂ w₂ - ⟨-, hregs₂, hsses, hother₂⟩
    refine ⟨hregs₂.trans hregs, fun q hq => ?_, fun i hn hi j hj => ?_, fun _ => ?_⟩
    · rw [hother₂ q (hinside _ _ q hq), hother q (hinside _ _ q hq)]
    · rw [hother₂ _ fun k _ hk => ?_]
      · exact hints i hn hi j hj
      · have hbound := savedAt_lt hk
        have hstep : savedAt .integer i + 8 ≤ savedAt .sse k := by
          simp only [savedAt, sseSaveStart, Eightbyte.capacity] at hi ⊢
          omega
        exact Memory.apart_offsets p (.inl hstep) (by omega) (by omega) _
          (Memory.within_add _ hj (by omega))
    · intro i hn hi j hj
      rw [← hregs]
      exact hsses i hn hi j hj
  · rintro - s₂ w₂ - ⟨hentry₂, h⟩
    exact ⟨hentry₂.trans hentry, h⟩

theorem runs_bind_get {β : Type} {k : Lowering → Build β} {Q : β → Lowering → World → Prop}
    (h : RunsWith env m (k s) s w Q) : RunsWith env m (get >>= k) s w Q := h

theorem runs_modify_entry (f : Entry → Entry) (h : Q () { s with entry := f s.entry } w) :
    Runs env (modify fun s => { s with entry := f s.entry }) s w Q :=
  ⟨(), { s with entry := f s.entry }, w, rfl,
    advances_entry s _, fun _ _ => .refl, h⟩

/-- What the entry of a variadic function leaves behind: the save area, how far the named parameters
went into it, and how many bytes of the stack they took. -/
structure Entered (env : Addresses) (first : Allocation) (p : BitVec 64) (s : Lowering) (w : World)
    (s' : Lowering) (w' : World) : Prop where
  kept : Kept env s s' w w'
  area : ∃ o, s'.entry.saveArea = some o ∧ env.of? o = some p
  inside : ∃ d, p = env.below s'.fn.stackSlots + BitVec.ofNat 64 d ∧
    d + areaBytes ≤ 8 * (s'.fn.stackSlots - s.fn.stackSlots).toNat
  gpOffset : s'.entry.gpOffset = Int64.ofNat (savedAt .integer (first.taken .integer))
  fpOffset : s'.entry.fpOffset = Int64.ofNat (savedAt .sse (first.taken .sse))
  namedStack : s'.entry.namedStack = first.offset
  ints : SavedFrom p .integer (first.taken .integer) w w'.memory
  sses : (w.regs Reg.rax.pseudo).setWidth 8 ≠ 0 → SavedFrom p .sse (first.taken .sse) w w'.memory

theorem sized_area : (Ty.array .char saveAreaSize).Sized := ⟨by decide, by decide⟩

theorem runs_lowerVariadic {first : Allocation} (hs : s.Numbered 1)
    (hparams : ∀ c, s.entry.params.taken c = first.taken c) (hstack : s.entry.namedStack = first.offset) :
    RunsWith env 1 lowerVariadic s w fun _ s' w' => ∃ p, Entered env first p s w s' w' := by
  refine runs_bind_get (runs_bind (runs_freshSlot sized_area) ?_)
  rintro o s₁ w hadv₁ ⟨h, rfl⟩
  refine runsWith_bind (n := 0) (runs_saveRegisters (hadv₁.numbered hs) h.address _) ?_
  rintro - s₂ w₂ hadv₂ ⟨hentry₂, hregs₂, hother₂, hints, hsses⟩
  rw [hparams] at hints hsses
  have hslots₁ : s.fn.stackSlots + 22 ≤ s₁.fn.stackSlots := h.slots
  have hslots₂ := hadv₂.slots
  -- where the save area is among the fresh slots
  have hbelow : env.below s₁.fn.stackSlots = env.below s₂.fn.stackSlots
      + BitVec.ofNat 64 (8 * (s₂.fn.stackSlots - s₁.fn.stackSlots).toNat) := by
    rw [← Addresses.below_sub]
    congr 1
    omega
  have hinside : 8 * (s₂.fn.stackSlots - s₁.fn.stackSlots).toNat + areaBytes
      ≤ 8 * (s₂.fn.stackSlots - s.fn.stackSlots).toNat := by
    rw [areaBytes]
    omega
  have hkept : Kept env s s₂ w w₂ := by
    refine ⟨fun v _ => by rw [hregs₂], fun q hq => hother₂ q fun hwithin => hq ?_⟩
    rw [hbelow] at hwithin
    exact hwithin.of_part hinside
  have hentry : s₂.entry = s.entry := hentry₂.trans h.entry
  refine runs_modify_entry (fun e => { e with saveArea := some o, gpOffset := _, fpOffset := _ })
    ⟨_, hkept, ⟨o, rfl, h.address⟩, ⟨_, hbelow, hinside⟩, ?_, ?_, ?_, hints, hsses⟩
  · exact congrArg (fun n => Int64.ofNat (8 * n)) (hparams .integer)
  · exact congrArg (fun n => Int64.ofNat (sseSaveStart + 16 * n)) (hparams .sse)
  · rw [hentry, hstack]

theorem pseudo_argRegister_le (hi : i < c.capacity) : (argRegister (c.seat i)).pseudo ≤ 26 := by
  have hints : ∀ i < 6, (argRegister (.int i)).pseudo ≤ 26 := by decide
  have hsses : ∀ i < 8, (argRegister (.sse i)).pseudo ≤ 26 := by decide
  cases c with
  | sse => exact hsses i hi
  | _ => exact hints i hi

theorem taken_finalize (a : Allocation) (c : Eightbyte) : a.finalize.taken c = a.taken c := by
  cases c <;> rfl

/-- **Executing the entry of a variadic function saves the argument registers that no named parameter
took, and touches nothing in use.** -/
theorem lowers_lowerEntry (hs : s.Numbered 1) (hvregs : 26 ≤ s.fn.vregCount)
    (hvariadic : s.fn.variadic = true) (hknown : Placement.canResultInMemory s.fn.result = true)
    (hparams : s.entry.params = .arguments) (htypes : ∀ t ∈ s.fn.params, t.IsArgument)
    (hmarks : s.fn.params.length ≤ s.fn.addressTaken.length)
    (hfit : (s.fn.params.map Allocation.room).sum ≤ 2 ^ 63 - 1) :
    LowersWith env 1 lowerEntry s w fun _ s' w' =>
      ∃ p, Entered env ((firstOf s.fn.result).addAll s.fn.params).2 p s w s' w' := by
  refine lowers_bind (lowers_lowerHidden hknown hparams) ?_
  rintro - s₁ w₁ hadv₁ ⟨kept₁, hfirst⟩
  refine lowers_bind_get ?_
  have hparams₁ : s₁.fn.params = s.fn.params := by rw [hadv₁.fn]
  have hmarks₁ : s₁.fn.addressTaken = s.fn.addressTaken := by rw [hadv₁.fn]
  have hvariadic₁ : s₁.fn.variadic = true := by rw [hadv₁.fn]; exact hvariadic
  -- the named parameters
  have hmap : (s₁.fn.params.zip s₁.fn.addressTaken).map (·.1) = s.fn.params := by
    rw [hparams₁, hmarks₁]
    exact List.map_fst_zip hmarks
  have hrooms : ((s₁.fn.params.zip s₁.fn.addressTaken).map (Allocation.room ·.1)).sum
      = (s.fn.params.map Allocation.room).sum := by
    rw [← hmap, List.map_map]
    rfl
  refine lowers_bind (lowers_lowerParams _ (fun q hq => htypes q.1 ?_) 0 ?_ ?_) ?_
  · rw [← hmap]
    exact List.mem_map_of_mem hq
  · rw [hfirst]
    exact inBounds_firstOf _
  · rw [hfirst, offset_firstOf, show (0 : Int64).toInt = 0 from rfl]
    omega
  rintro - s₂ w₂ hadv₂ ⟨kept₂, hparams₂⟩
  rw [hfirst, hmap] at hparams₂
  refine lowers_bind (lowers_modify_entry
    (fun e => { e with namedStack := e.params.offset, params := e.params.finalize })
    (Q := fun _ s' w' => s' = { s₂ with entry := { s₂.entry with
      namedStack := s₂.entry.params.offset, params := s₂.entry.params.finalize } } ∧ w' = w₂)
    ⟨rfl, rfl⟩) ?_
  rintro - _ w₂ - ⟨rfl, rfl⟩
  rw [if_pos hvariadic₁]
  have hnumbered : s₂.Numbered 1 := (hadv₁.trans hadv₂).numbered hs
  refine LowersWith.mono (lowers_lift (runs_lowerVariadic hnumbered
    (fun c => (taken_finalize _ c).trans (congrArg (·.taken c) hparams₂))
    (congrArg (·.offset) hparams₂))) ?_
  rintro - s₃ w₃ hadv₃ ⟨p, h⟩
  have hadv₃ : Advances 1 s₂ s₃ := ⟨hadv₃.out, hadv₃.vregs, hadv₃.slots, hadv₃.fn⟩
  -- the registers that arguments come in are as they were
  have kept : Kept env s s₂ w w₂ := kept₁.trans kept₂ hadv₁ hadv₂
  have hsame : ∀ (c : Eightbyte) (n : Nat), SavedFrom p c n w₂ w₃.memory → SavedFrom p c n w w₃.memory :=
    fun c n hsaved i hn hi j hj => by
      rw [hsaved i hn hi j hj, kept.regs _ (Int.le_trans (pseudo_argRegister_le hi) hvregs)]
  have hrax : w₂.regs Reg.rax.pseudo = w.regs Reg.rax.pseudo :=
    kept.regs _ (Int.le_trans (by decide) hvregs)
  have hslots := (hadv₁.trans hadv₂).slots
  obtain ⟨d, hd, hinside⟩ := h.inside
  refine ⟨p, kept.trans h.kept (hadv₁.trans hadv₂) hadv₃, h.area, ⟨d, hd, Nat.le_trans hinside ?_⟩,
    h.gpOffset, h.fpOffset, h.namedStack, hsame _ _ h.ints, fun hne => hsame _ _ (h.sses ?_)⟩
  · show 8 * (s₃.fn.stackSlots - s₂.fn.stackSlots).toNat ≤ _
    omega
  · rwa [hrax]

end

end Lowering

end Codegen
