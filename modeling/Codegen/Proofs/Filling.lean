/-
Filling the registers of the convention.

Arguments and results are loaded into pseudo-registers one after another.  What is computed on the way
goes to registers handed out for it, so of the pseudo-registers the loads write exactly those they give
back, in that order.  No argument register is handed out twice, and neither the register for the address
of the result nor the one for the number of vector registers is among them, so each is written once.

A virtual register below the count of those handed out is in use.  The pseudo-registers are at the bottom
of that range; `reserved` asks for both, so that nothing here depends on where the count started.
-/
import Codegen.Proofs.Meaning
import Codegen.Proofs.Pushing
import Codegen.Proofs.RoundTrip
import Codegen.Proofs.Steps
import Mathlib.Data.List.Nodup

namespace Codegen

open Allocation

/-! ### Registers that were handed out -/

/-- Is the place a register? -/
def Place.inRegister : Place → Bool
  | .stack _ _ => false
  | _ => true

variable {ints sses : Nat}

theorem Place.Below.inRegister {p : Place} (h : p.Below ints sses) : p.inRegister = true := by
  cases p with
  | stack => exact h.elim
  | _ => rfl

namespace Allocation

variable {a b : Allocation} {ls : List Location}

theorem hands_scalar {e : Eightbyte}
    (h : (a.takeRegister e).map (fun (p, a) => ([(⟨p, none⟩ : Location)], a)) = some (ls, b)) :
    Hands a b (ls.map (·.place)) := by
  obtain ⟨⟨p, b'⟩, hp, heq⟩ := Option.map_eq_some_iff.mp h
  obtain ⟨rfl, rfl⟩ := Prod.mk.inj heq
  exact hands_takeRegister hp

theorem hands_placeInRegisters {t : Ty} (h : a.placeInRegisters t = some (ls, b)) : Hands a b (ls.map (·.place)) := by
  rw [placeInRegisters] at h
  split at h
  · split at h
    · exact (takeRegisters_eq_some h).2
    · cases h
  · split at h
    · exact hands_scalar h
    · split at h
      · exact hands_scalar h
      · cases h

/-- The registers among the places of locations. -/
def registersOf (ls : List Location) : List Place := (ls.map (·.place)).filter (·.inRegister)

theorem hands_add (a : Allocation) (t : Ty) : Hands a (a.add t).2 (registersOf (a.add t).1.locations) := by
  have hcount : ∀ {b : Allocation} {n : Nat} {ps : List Place}, Hands a b ps →
      Hands a { b with count := n } ps := fun h =>
    ⟨h.maxInt, h.maxSse, h.ints, h.sses, h.nodup, h.fresh, h.taken, h.below⟩
  unfold add place
  cases hplace : a.placeInRegisters t with
  | some result =>
    obtain ⟨ls, b⟩ := result
    have hhands := hands_placeInRegisters hplace
    have hall : registersOf ls = ls.map (·.place) :=
      List.filter_eq_self.mpr fun p hp => (hhands.below p hp).inRegister
    dsimp only
    rw [hall]
    exact hcount hhands
  | none =>
    dsimp only
    split
    · exact hcount (hands_nothing a)
    · exact ⟨rfl, rfl, Nat.le_refl _, Nat.le_refl _, .nil, nofun, nofun, nofun⟩

theorem hands_addAll (a : Allocation) (ts : List Ty) :
    Hands a (a.addAll ts).2 (registersOf ((a.addAll ts).1.flatMap (·.locations))) := by
  induction ts generalizing a with
  | nil => exact hands_nothing a
  | cons t ts ih =>
    have h := (hands_add a t).trans (ih (a.add t).2)
    rw [registersOf, registersOf, ← List.filter_append, ← List.map_append] at h
    exact h

end Allocation

namespace Lowering

/-! ### What loads write -/

/-- Is this a pseudo-register, and not one that was handed out? -/
def reserved (low v : Int) : Bool := Reg.isPseudo v && v ≤ low

variable {low v : Int} {op : IrOp} {t : Ty} {p : Placement} {code : List Instr}

theorem reserved_of_lt (h : low < v) : reserved low v = false := by
  simp [reserved, h]

/-- The reserved registers that code writes, in order. -/
def reservedWrites (low : Int) (code : List Instr) : List Int :=
  (code.filterMap (·.defined?)).filter (reserved low)

theorem reservedWrites_append (low : Int) (code more : List Instr) :
    reservedWrites low (code ++ more) = reservedWrites low code ++ reservedWrites low more := by
  rw [reservedWrites, List.filterMap_append, List.filter_append]
  rfl

theorem mem_reservedWrites :
    v ∈ reservedWrites low code ↔ (∃ i ∈ code, i.defined? = some v) ∧ reserved low v = true := by
  rw [reservedWrites, List.mem_filter, List.mem_filterMap]

/-- The operations that load registers of the convention. -/
def loadingOps : List IrOp := .addressOf :: carryingOps

/-- The instruction has such an operation and writes a register. -/
def IsLoad (i : Instr) : Prop := (∃ op ∈ loadingOps, i.op = .ir op) ∧ ∃ v, i.dst.bind (·.vregId?) = some v

theorem isLoad_vreg (hop : op ∈ loadingOps) (id : Int) (t : Ty) (a b : Option Operand) :
    IsLoad (.ir op (Operand.vreg id t) a b) := ⟨⟨op, hop, rfl⟩, id, rfl⟩

/-- It loads a register that was handed out. -/
def Prepares (low : Int) (i : Instr) : Prop := IsLoad i ∧ ∀ v, i.defined? = some v → reserved low v = false

theorem prepares_fresh (hop : op ∈ loadingOps) (id : Int) (t : Ty) (a b : Option Operand) (hid : low < id) :
    Prepares low (.ir op (Operand.vreg id t) a b) := by
  refine ⟨isLoad_vreg hop id t a b, fun v hv => ?_⟩
  obtain rfl : id = v := Option.some.inj (Instr.dst_of_defined? hv)
  exact reserved_of_lt hid

/-- The code loads registers, and of the reserved registers it writes these, in this order. -/
structure Fills (low : Int) (ids : List Int) (code : List Instr) : Prop where
  loads : ∀ i ∈ code, IsLoad i
  writes : reservedWrites low code = ids.filter (reserved low)

/-- A step has appended code that loads registers. -/
structure Loads (low : Int) (ids : List Int) (s s' : Lowering) : Prop where
  written : Written (fun _ => True) s s'
  fills : ∃ new, s'.code = s.code ++ new ∧ Fills low ids new

section loaded

variable {ids more : List Int} {s s' s'' : Lowering} {code' : List Instr}

theorem Fills.append (h : Fills low ids code) (h' : Fills low more code') :
    Fills low (ids ++ more) (code ++ code') := by
  refine ⟨fun i hi => ?_, by rw [reservedWrites_append, h.writes, h'.writes, List.filter_append]⟩
  exact (List.mem_append.mp hi).elim (h.loads i) (h'.loads i)

theorem fills_of_prepares (h : ∀ i ∈ code, Prepares low i) : Fills low [] code := by
  refine ⟨fun i hi => (h i hi).1, List.eq_nil_iff_forall_not_mem.mpr fun v hv => ?_⟩
  obtain ⟨⟨i, hi, hdef⟩, hreserved⟩ := mem_reservedWrites.mp hv
  rw [(h i hi).2 v hdef] at hreserved
  exact nomatch hreserved

theorem fills_pseudo (hop : op ∈ loadingOps) (r : Reg) (t : Ty) (a b : Option Operand) :
    Fills low [r.pseudo] [.ir op (pseudo r t) a b] := by
  refine ⟨fun i hi => by rw [List.mem_singleton.mp hi]; exact isLoad_vreg hop _ t a b, ?_⟩
  have hstores : Opcode.storesThroughDst (.ir op) = false := by
    revert hop
    revert op
    decide
  have hdefined : (Instr.ir op (pseudo r t) a b).defined? = (some r.pseudo).filter (· != 0) := by
    rw [Instr.defined?, if_neg (by rw [Instr.ir, hstores]; simp)]
    rfl
  have hwrites : [Instr.ir op (pseudo r t) a b].filterMap (·.defined?) = ((some r.pseudo).filter (· != 0)).toList := by
    rw [List.filterMap_cons, hdefined]
    cases (some r.pseudo).filter (· != 0) <;> rfl
  rw [reservedWrites, hwrites]
  by_cases hzero : r.pseudo = 0
  · rw [hzero]
    rfl
  · rw [Option.filter_some_pos (by simpa using hzero)]
    rfl

theorem Loads.trans (h : Loads low ids s s') (h' : Loads low more s' s'') :
    Loads low (ids ++ more) s s'' := by
  obtain ⟨new, hnew, hfills⟩ := h.fills
  obtain ⟨new', hnew', hfills'⟩ := h'.fills
  exact ⟨h.written.trans h'.written, new ++ new', by rw [hnew', hnew, List.append_assoc], hfills.append hfills'⟩

theorem loads_of_written (h : Written (Prepares low) s s') : Loads low [] s s' := by
  obtain ⟨new, hnew, hall, -⟩ := h.out
  exact ⟨h.mono fun _ _ => trivial, new, hnew, fills_of_prepares hall⟩

/-- Wherever a step starts, it appends code that loads registers, and `Q` holds of what it returns and of
them. -/
def Fetches {α : Type} (low : Int) (b : Build α) (Q : α → List Int → Prop) : Prop :=
  ∀ s, low ≤ s.fn.vregCount → ∃ ids, Q (b.run s).1 ids ∧ Loads low ids s (b.run s).2

variable {α β : Type} {all : List Int} {Q : α → List Int → Prop} {b : Build α} {B : List Instr → Prop}

theorem fetches_pure {a : α} (h : Q a []) : Fetches low (pure a) Q :=
  fun s _ => ⟨[], h, loads_of_written (.refl s)⟩

theorem fetches_bind {k : α → Build β} {R : β → List Int → Prop} (hb : Fetches low b Q)
    (hk : ∀ a ids, Q a ids → Fetches low (k a) fun c more => R c (ids ++ more)) : Fetches low (b >>= k) R := by
  intro s hs
  obtain ⟨ids, hq, hloaded⟩ := hb s hs
  obtain ⟨more, hr, hloaded'⟩ := hk _ ids hq (b.run s).2 (Int.le_trans hs hloaded.written.vregs)
  exact ⟨ids ++ more, hr, hloaded.trans hloaded'⟩

theorem fetches_of_emits {Q : α → Prop} (h : EmitsFrom low (Prepares low) b Q) :
    Fetches low b fun _ ids => ids = [] := fun s hs => ⟨[], rfl, loads_of_written (h s hs).2.toWritten⟩

theorem fetches_emit (hop : op ∈ loadingOps) (r : Reg) (t : Ty) (a b : Option Operand) :
    Fetches low (emit op (pseudo r t) a b) fun _ ids => ids = [r.pseudo] := by
  intro s hs
  refine ⟨_, rfl, ?_, [.ir op (pseudo r t) a b], Array.toList_push, fills_pseudo hop r t a b⟩
  exact (emits_emit trivial s hs).2.toWritten

/-- The registers that the operands name. -/
def idsOf (regs : List Operand) : List Int := regs.filterMap (·.vregId?)

/-- The pseudo-registers of locations; zero for those on the stack. -/
def seatIds (register : Place → Reg) (ls : List Location) : List Int :=
  ls.map fun l => (register l.place).pseudo

theorem fetches_loadEightbyte (mem : Operand) (place : Place) (r : Reg) (w : Window) :
    Fetches low (loadEightbyte mem place r w) fun o ids => ids = [r.pseudo] ∧ o.vregId? = some r.pseudo := by
  have hchunks : ∀ chunks, Fetches low (loadChunks mem w.offset chunks) fun _ ids => ids = [] := fun chunks =>
    fetches_of_emits (emits_loadChunks_of
      (fun op hop => prepares_fresh (List.mem_cons_of_mem _ hop)) mem w.offset chunks)
  have hlast : ∀ op ∈ loadingOps, ∀ t a, Fetches low (do
      emit op (pseudo r t) a none
      return pseudo r t) fun o ids => ids = [r.pseudo] ∧ o.vregId? = some r.pseudo := by
    intro op hop t a
    refine fetches_bind (fetches_emit hop r t a none) ?_
    rintro - _ rfl
    exact fetches_pure ⟨rfl, rfl⟩
  unfold loadEightbyte
  cases carriage place w with
  | twoFloats =>
    refine fetches_bind (hchunks _) ?_
    rintro bits _ rfl
    exact hlast .movePregClass (by decide) _ _
  | double => exact hlast .move (by decide) _ _
  | float => exact hlast .move (by decide) _ _
  | bytes =>
    refine fetches_bind (hchunks _) ?_
    rintro v _ rfl
    exact hlast .move (by decide) _ _

/-- The parts that have a window, in turn. -/
theorem fetches_windows (mem : Operand) (register : Place → Reg) (ls : List Location) :
    Fetches low (ls.mapM fun l =>
      match l.window with
      | some w => do return some (← loadEightbyte mem l.place (register l.place) w)
      | none => pure none) fun written ids =>
        idsOf (written.filterMap id) = ids ∧ ids.Sublist (seatIds register ls) := by
  induction ls with
  | nil => exact fetches_pure ⟨rfl, List.Sublist.refl _⟩
  | cons l ls ih =>
    rw [List.mapM_cons]
    cases l.window with
    | none =>
      refine fetches_bind (Q := fun o ids => o = none ∧ ids = []) (fetches_pure ⟨rfl, rfl⟩) ?_
      rintro _ _ ⟨rfl, rfl⟩
      refine fetches_bind ih ?_
      rintro written ids ⟨hids, hsub⟩
      refine fetches_pure ⟨by simpa using hids, ?_⟩
      rw [List.append_nil]
      exact hsub.cons _
    | some w =>
      refine fetches_bind (Q := fun o ids => ids = [(register l.place).pseudo] ∧
        o.bind (·.vregId?) = some (register l.place).pseudo) ?_ ?_
      · refine fetches_bind (fetches_loadEightbyte mem l.place (register l.place) w) ?_
        rintro o _ ⟨rfl, ho⟩
        exact fetches_pure ⟨rfl, ho⟩
      · rintro o _ ⟨rfl, ho⟩
        obtain ⟨o, rfl, ho⟩ := Option.bind_eq_some_iff.mp ho
        refine fetches_bind ih ?_
        rintro written ids ⟨hids, hsub⟩
        refine fetches_pure ?_
        rw [List.append_nil]
        refine ⟨?_, hsub.cons_cons _⟩
        show idsOf (o :: written.filterMap id) = (register l.place).pseudo :: ids
        rw [← hids]
        exact List.filterMap_cons_some ho

/-- **Loading an aggregate fills registers of its locations, in order.** -/
theorem fetches_loadEightbytes (mem : Operand) (p : Placement) (register : Place → Reg) :
    Fetches low (loadEightbytes mem p register) fun regs ids =>
      idsOf regs = ids ∧ ids.Sublist (seatIds register p.locations) := by
  refine fetches_bind (fetches_windows mem register p.locations) ?_
  rintro written ids ⟨hids, hsub⟩
  exact fetches_pure ⟨by simpa using hids, by simpa using hsub⟩

/-! ### The arguments of a call -/

/-- If the step returns, it has appended a block as wanted, which loads the registers that the step gives back and
no others; they are among these. -/
def LoadsAmong (low : Int) (x : LowerM (List Operand)) (all : List Int) (B : List Instr → Prop) : Prop :=
  ∀ s, low ≤ s.fn.vregCount → Yields x s (fun regs s' => (idsOf regs).Sublist all ∧
    Written (fun _ => True) s s' ∧ ∃ block, s'.code = s.code ++ block ∧ Fills low (idsOf regs) block ∧ B block)
    fun _ => True

theorem loadsAmong_nothing (all : List Int) (h : B []) : LoadsAmong low (pure []) all B :=
  fun s _ => yields_pure ⟨List.nil_sublist _, .refl s, [], (List.append_nil _).symm, fills_of_prepares (by simp), h⟩

theorem loadsAmong_emit (hop : op ∈ loadingOps) (r : Reg) (t : Ty) (a : Option Operand) (hr : r.pseudo ∈ all) :
    LoadsAmong low (liftM (do
      emit op (pseudo r t) a none
      return [pseudo r t] : Build (List Operand))) all (· = [.ir op (pseudo r t) a none]) := by
  intro s hs
  exact yields_lift ⟨List.singleton_sublist.mpr hr, (emits_emit trivial s hs).2.toWritten,
    _, Array.toList_push, fills_pseudo hop r t a none, rfl⟩

/-- What loads an argument: nothing if it goes to the stack or has no bytes, else a move, or the code for the
eightbytes of an aggregate. -/
inductive LoadedBy (v : Operand) (p : Placement) : List Instr → Prop
  | stack (h : p.onStack = true) : LoadedBy v p []
  | empty (hstack : p.onStack = false) (h : p.locations = []) : LoadedBy v p []
  | scalar {l : Location} {ls : List Location} (t : Ty) (hstack : p.onStack = false) (h : p.locations = l :: ls)
      (hscalar : p.type.isAggregate = false) : LoadedBy v p [.ir .move (pseudo (argRegister l.place) t) v none]
  | aggregate {s : Lowering} {block : List Instr} (hstack : p.onStack = false) (h : p.locations ≠ [])
      (haggregate : p.type.isAggregate = true)
      (hblock : ((loadEightbytes v p argRegister).run s).2.code = s.code ++ block) : LoadedBy v p block

theorem LoadsAmong.mono {x : LowerM (List Operand)} {B' : List Instr → Prop} (h : LoadsAmong low x all B)
    (hB : ∀ block, B block → B' block) : LoadsAmong low x all B' :=
  fun s hs => (h s hs).mono fun _ _ ⟨hsub, hwritten, block, hcode, hfills, hblock⟩ =>
    ⟨hsub, hwritten, block, hcode, hfills, hB block hblock⟩

theorem loadsAmong_loadArg (v : Operand) (p : Placement) :
    LoadsAmong low (loadArg v p) (seatIds argRegister p.locations) (LoadedBy v p) := by
  unfold loadArg
  split
  · next hstack => exact loadsAmong_nothing _ (.stack hstack)
  · next hstack =>
    rw [Bool.not_eq_true] at hstack
    split
    · next hempty => exact loadsAmong_nothing _ (.empty hstack hempty)
    · next l rest hlocations =>
      split
      · next haggregate =>
        split
        · intro s hs
          obtain ⟨_, ⟨rfl, hsub⟩, hwritten, block, hcode, hfills⟩ := fetches_loadEightbytes v p argRegister s hs
          exact yields_lift ⟨hsub, hwritten, block, hcode, hfills,
            .aggregate hstack (by simp [hlocations]) haggregate hcode⟩
        · exact fun s hs => yields_refuse _
      · next hscalar =>
        have hmove : ∀ t, LoadsAmong low (do
            let r ← pure (pseudo (argRegister l.place) t)
            move r v
            return [r] : LowerM (List Operand)) (seatIds argRegister p.locations) (LoadedBy v p) := fun t =>
          LoadsAmong.mono (loadsAmong_emit (by decide) (argRegister l.place) t v (by simp [seatIds, hlocations]))
            fun _ h => h ▸ .scalar t hstack hlocations (by simpa using hscalar)
        dsimp only
        split
        · exact hmove _
        · exact hmove _
        · exact fun s _ => yields_bind (yields_throw (Q := fun _ _ => False) trivial) fun _ _ h => h.elim

theorem idsOf_append (first second : List Operand) : idsOf (first ++ second) = idsOf first ++ idsOf second :=
  List.filterMap_append

theorem loadsAmong_loadArgs (args : List Operand) (places : List Placement) :
    LoadsAmong low (loadArgs (args.zip places)) (seatIds argRegister (places.flatMap (·.locations))) fun code =>
      ∃ blocks : List (List Instr), code = blocks.flatten ∧
        List.Forall₂ (fun x block => LoadedBy x.1 x.2 block) (args.zip places) blocks := by
  induction args generalizing places with
  | nil => exact loadsAmong_nothing _ ⟨[], rfl, .nil⟩
  | cons v args ih =>
    cases places with
    | nil => exact loadsAmong_nothing _ ⟨[], rfl, .nil⟩
    | cons p places =>
      intro s hs
      refine yields_bind (loadsAmong_loadArg v p s hs) ?_
      rintro first s₁ ⟨hsub, hwritten, block, hcode, hfills, hblock⟩
      refine yields_bind (ih places s₁ (Int.le_trans hs hwritten.vregs)) ?_
      rintro second s₂ ⟨hsub', hwritten', _, hcode', hfills', blocks, rfl, hblocks⟩
      refine yields_pure ⟨?_, hwritten.trans hwritten', block ++ blocks.flatten,
        by rw [hcode', hcode, List.append_assoc], ?_, block :: blocks, rfl, .cons hblock hblocks⟩
      · rw [idsOf_append, List.flatMap_cons, seatIds, List.map_append]
        exact hsub.append hsub'
      · rw [idsOf_append]
        exact hfills.append hfills'

end loaded

/-! ### Each register is filled once -/

section nodup

variable {register : Place → Reg} {ls : List Location}

theorem seatIds_sublist (hstack : ∀ offset padding, (register (.stack offset padding)).pseudo = 0) (low : Int)
    (ls : List Location) : ((seatIds register ls).filter (reserved low)).Sublist
      ((registersOf ls).map fun p => (register p).pseudo) := by
  rw [seatIds, registersOf, List.filter_map, List.filter_map, List.map_map]
  refine List.Sublist.map _ (List.monotone_filter_right ls fun l hl => ?_)
  cases hplace : l.place with
  | stack offset padding =>
    simp only [Function.comp_apply, hplace, hstack] at hl
    exact nomatch hl
  | _ => simp [hplace, Place.inRegister]

theorem nodup_seatIds (hfile : IsFile register ints sses)
    (hstack : ∀ offset padding, (register (.stack offset padding)).pseudo = 0) (low : Int)
    (hnodup : (registersOf ls).Nodup) (hbelow : ∀ p ∈ registersOf ls, p.Below ints sses) :
    ((seatIds register ls).filter (reserved low)).Nodup := by
  refine (seatIds_sublist hstack low ls).nodup ?_
  exact List.Nodup.map_on (fun p hp q hq h => hfile.inj p q (hbelow p hp) (hbelow q hq) h) hnodup

end nodup

theorem nodup_resultIds (low : Int) (h : Placement.ofResult t = some p) :
    ((seatIds resultRegister p.locations).filter (reserved low)).Nodup := by
  have hands := hands_add results t
  rw [← (Placement.ofResult_eq_some h).2] at hands
  exact nodup_seatIds isFile_resultRegister (fun _ _ => rfl) low hands.nodup hands.below

/-- The registers that a call can load: those of its arguments, the one for the address of the result, and
the one for the number of vector registers. -/
def callIds (result : Ty) (args : List Operand) : List Int :=
  seatIds argRegister ((placements result (args.map (·.type))).flatMap (·.locations)) ++
    (if Placement.resultInMemory result then [(argRegister (.int 0)).pseudo] else []) ++ [Reg.rax.pseudo]

/-- **The registers of a call differ.** -/
theorem nodup_callIds (low : Int) (result : Ty) (args : List Operand) :
    ((callIds result args).filter (reserved low)).Nodup := by
  have hands := hands_addAll (firstOf result) (args.map (·.type))
  have hbelow : ∀ p ∈ registersOf ((placements result (args.map (·.type))).flatMap (·.locations)),
      p.Below 6 8 := fun p hp => by
    have := hands.below p hp
    rwa [(inBounds_firstOf result).maxInt, (inBounds_firstOf result).maxSse] at this
  have hrax : ∀ p : Place, p.Below 6 8 → (argRegister p).pseudo ≠ Reg.rax.pseudo := by
    have hint : ∀ n < 6, (argRegister (.int n)).pseudo ≠ Reg.rax.pseudo := by decide
    have hsse : ∀ n < 8, (argRegister (.sse n)).pseudo ≠ Reg.rax.pseudo := by decide
    intro p hp
    cases p with
    | int n => exact hint n hp
    | sse n => exact hsse n hp
    | stack => exact hp.elim
  have hargs : ∀ v ∈ (seatIds argRegister
      ((placements result (args.map (·.type))).flatMap (·.locations))).filter (reserved low),
      ∃ p : Place, p.Below 6 8 ∧ ¬ p.Below (firstOf result).intRegs (firstOf result).sseRegs ∧
        (argRegister p).pseudo = v := by
    intro v hv
    obtain ⟨p, hp, rfl⟩ := List.mem_map.mp ((seatIds_sublist (fun _ _ => rfl) low _).subset hv)
    exact ⟨p, hbelow p hp, hands.fresh p hp, rfl⟩
  rw [callIds, List.filter_append, List.filter_append, List.nodup_append, List.nodup_append]
  refine ⟨⟨nodup_seatIds isFile_argRegister (fun _ _ => rfl) low hands.nodup hbelow, ?_, ?_⟩,
    (List.nodup_singleton _).filter _, ?_⟩
  · split
    · exact (List.nodup_singleton _).filter _
    · exact List.Nodup.filter _ .nil
  · rintro v hv w hw rfl
    obtain ⟨p, hp, hfresh, heq⟩ := hargs v hv
    split at hw
    · next hmemory =>
      obtain rfl : v = _ := List.mem_singleton.mp (List.mem_filter.mp hw).1
      have hzero : p = .int 0 := isFile_argRegister.inj p (.int 0) hp (by decide : 0 < 6) heq
      refine hfresh ?_
      rw [hzero, firstOf, if_pos hmemory]
      exact Nat.one_pos
    · exact nomatch (List.mem_filter.mp hw).1
  · rintro v hv w hw rfl
    obtain rfl : v = _ := List.mem_singleton.mp (List.mem_filter.mp hw).1
    rcases List.mem_append.mp hv with hv | hv
    · obtain ⟨p, hp, -, heq⟩ := hargs _ hv
      exact hrax p hp heq
    · split at hv
      · exact hrax (.int 0) (by decide : 0 < 6) (List.mem_singleton.mp (List.mem_filter.mp hv).1).symm
      · exact nomatch (List.mem_filter.mp hv).1

end Lowering

end Codegen
