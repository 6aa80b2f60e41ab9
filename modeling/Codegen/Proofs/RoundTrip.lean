/-
Through registers and back.

An aggregate of at most sixteen bytes may travel in registers, one for each eightbyte.  Loading it
fills the registers and storing them again makes a second object out of them.  The registers are
different and so are the parts of the object they stand for, so the loops over the locations go
through one at a time: what was loaded before stays loaded, and what was stored before stays stored.

Not every byte makes the trip.  Of an eightbyte that travels as a float only four bytes are moved,
and a union can make the eightbyte longer than that without putting a scalar there.  `Travels` says
which bytes are moved; every byte of every scalar is one of them.
-/
import Codegen.Proofs.Carrying
import Codegen.Proofs.Extent
import Mathlib.Data.List.Nodup

namespace Codegen

open Lowering

/-! ### The places of an aggregate -/

/-- The place is one of the first registers of its file. -/
def Place.Below (ints sses : Nat) : Place → Prop
  | .int n => n < ints
  | .sse n => n < sses
  | .stack _ _ => False

variable {ints sses j ints' sses' : Nat} {c : Eightbyte} {size : Int64} {dst src : Operand} {p : Placement} {t : Ty}

theorem Place.Below.mono {p : Place} (h : p.Below ints sses) (hints : ints ≤ ints') (hsses : sses ≤ sses') :
    p.Below ints' sses' := by
  cases p with
  | int n => exact Nat.lt_of_lt_of_le h hints
  | sse n => exact Nat.lt_of_lt_of_le h hsses
  | stack => exact h

namespace Allocation

variable {members : List Nat} {i : Nat} {cs : List Eightbyte} {a b d : Allocation} {ls : List Location} {p : Place}
  {ps qs : List Place} {e : Eightbyte}

theorem takeRegister_eq_some (h : a.takeRegister c = some (p, b)) :
    p = c.seat (a.taken c) ∧ b = a.take c ∧ p.Below a.maxInt a.maxSse := by
  cases c
  all_goals
    simp only [takeRegister] at h
    split at h
    · next hlt =>
      obtain ⟨rfl, rfl⟩ := Prod.mk.inj (Option.some.inj h)
      exact ⟨rfl, rfl, hlt⟩
    · cases h

/-- Going from one state to another, these places were handed out: registers that were free, each once. -/
structure Hands (a b : Allocation) (ps : List Place) : Prop where
  maxInt : b.maxInt = a.maxInt
  maxSse : b.maxSse = a.maxSse
  ints : a.intRegs ≤ b.intRegs
  sses : a.sseRegs ≤ b.sseRegs
  nodup : ps.Nodup
  fresh : ∀ p ∈ ps, ¬ p.Below a.intRegs a.sseRegs
  taken : ∀ p ∈ ps, p.Below b.intRegs b.sseRegs
  below : ∀ p ∈ ps, p.Below a.maxInt a.maxSse

theorem hands_nothing (a : Allocation) : Hands a a [] :=
  ⟨rfl, rfl, Nat.le_refl _, Nat.le_refl _, .nil, nofun, nofun, nofun⟩

theorem Hands.trans (h : Hands a b ps) (h' : Hands b d qs) : Hands a d (ps ++ qs) := by
  refine ⟨h'.maxInt.trans h.maxInt, h'.maxSse.trans h.maxSse, Nat.le_trans h.ints h'.ints,
    Nat.le_trans h.sses h'.sses, List.nodup_append.mpr ⟨h.nodup, h'.nodup, ?_⟩, fun p hp => ?_,
    fun p hp => ?_, fun p hp => ?_⟩
  · rintro p hp q hq rfl
    exact h'.fresh p hq (h.taken p hp)
  · rcases List.mem_append.mp hp with hp | hp
    · exact h.fresh p hp
    · exact fun hlow => h'.fresh p hp (hlow.mono h.ints h.sses)
  · rcases List.mem_append.mp hp with hp | hp
    · exact (h.taken p hp).mono h'.ints h'.sses
    · exact h'.taken p hp
  · rcases List.mem_append.mp hp with hp | hp
    · exact h.below p hp
    · rw [← h.maxInt, ← h.maxSse]
      exact h'.below p hp

theorem hands_takeRegister (h : a.takeRegister e = some (p, b)) : Hands a b [p] := by
  obtain ⟨rfl, rfl, hbelow⟩ := takeRegister_eq_some h
  cases e with
  | sse =>
    refine ⟨rfl, rfl, Nat.le_refl _, Nat.le_succ _, List.nodup_singleton _, ?_, ?_, by simpa using hbelow⟩
    all_goals simp [Eightbyte.seat, Place.Below, taken, take]
  | _ =>
    refine ⟨rfl, rfl, Nat.le_succ _, Nat.le_refl _, List.nodup_singleton _, ?_, ?_, by simpa using hbelow⟩
    all_goals simp [Eightbyte.seat, Place.Below, taken, take]

/-- Whatever the capacities are, registers that were found are those that come next. -/
theorem takeRegisters_eq_some (h : takeRegisters size members i cs a = some (ls, b)) :
    ls = seats size members i cs a ∧ Hands a b (ls.map (·.place)) := by
  induction cs generalizing i a ls with
  | nil =>
    obtain ⟨rfl, rfl⟩ := Prod.mk.inj (Option.some.inj h)
    exact ⟨rfl, hands_nothing a⟩
  | cons c cs ih =>
    rw [takeRegisters] at h
    split at h
    · cases h
    · next p a' hp =>
      split at h
      · cases h
      · next rest b' hrest =>
        obtain ⟨rfl, rfl⟩ := Prod.mk.inj (Option.some.inj h)
        have hfirst := hands_takeRegister hp
        obtain ⟨rfl, rfl, -⟩ := takeRegister_eq_some hp
        obtain ⟨rfl, hmore⟩ := ih hrest
        exact ⟨rfl, hfirst.trans hmore⟩

theorem getElem?_seats (size : Int64) (members : List Nat) (i : Nat) (cs : List Eightbyte) (a : Allocation)
    (j : Nat) : ∃ n : Eightbyte → Nat, (seats size members i cs a)[j]?
      = cs[j]?.map fun c => ⟨c.seat (n c), some (window size members (i + j))⟩ := by
  induction cs generalizing i a j with
  | nil => exact ⟨fun _ => 0, by simp [seats]⟩
  | cons c cs ih =>
    cases j with
    | zero => exact ⟨a.taken, rfl⟩
    | succ j =>
      obtain ⟨n, hn⟩ := ih (i + 1) (a.take c) j
      exact ⟨n, by rw [seats, List.getElem?_cons_succ, hn, Nat.add_right_comm]; rfl⟩

end Allocation

/-! ### The registers of an aggregate -/

/-- Different places have different pseudo-registers. -/
structure IsFile (register : Place → Reg) (ints sses : Nat) : Prop where
  inj : ∀ p q : Place, p.Below ints sses → q.Below ints sses →
    (register p).pseudo = (register q).pseudo → p = q
  le : ∀ p : Place, p.Below ints sses → (register p).pseudo ≤ Reg.pseudoCount

theorem isFile_of_indices {register : Place → Reg}
    (hint : ∀ n < ints, ∀ m < ints, (register (.int n)).pseudo = (register (.int m)).pseudo → n = m)
    (hsse : ∀ n < sses, ∀ m < sses, (register (.sse n)).pseudo = (register (.sse m)).pseudo → n = m)
    (hmixed : ∀ n < ints, ∀ m < sses, (register (.int n)).pseudo ≠ (register (.sse m)).pseudo)
    (hle : (∀ n < ints, (register (.int n)).pseudo ≤ Reg.pseudoCount) ∧
      ∀ n < sses, (register (.sse n)).pseudo ≤ Reg.pseudoCount) : IsFile register ints sses := by
  refine ⟨fun p q hp hq h => ?_, fun p hp => ?_⟩
  · cases p with
    | int n =>
      cases q with
      | int m => rw [hint n hp m hq h]
      | sse m => exact absurd h (hmixed n hp m hq)
      | stack => exact hq.elim
    | sse n =>
      cases q with
      | int m => exact absurd h.symm (hmixed m hq n hp)
      | sse m => rw [hsse n hp m hq h]
      | stack => exact hq.elim
    | stack => exact hp.elim
  · cases p with
    | int n => exact hle.1 n hp
    | sse n => exact hle.2 n hp
    | stack => exact hp.elim

theorem isFile_argRegister : IsFile argRegister 6 8 :=
  isFile_of_indices (by decide) (by decide) (by decide) (by decide)

theorem isFile_resultRegister : IsFile resultRegister 2 2 :=
  isFile_of_indices (by decide) (by decide) (by decide) (by decide)

namespace Location

/-- Where the part of the aggregate starts that the location stands for. -/
def start (l : Location) : Nat := (l.window.map (·.offset.toInt.toNat)).getD 0

/-- How many bytes of it travel. -/
def width (l : Location) : Nat := (l.window.map (carried l.place)).getD 0

end Location

/-- An aggregate of `n` bytes is spread over registers: the parts lie inside it one after another,
and no two are in one register. -/
structure Spread (n : Nat) (register : Place → Reg) (ls : List Location) : Prop where
  offset : ∀ l ∈ ls, ∀ win, l.window = some win → win.offset.toBitVec = BitVec.ofNat 64 l.start
  size : ∀ l ∈ ls, ∀ win, l.window = some win → 0 < win.size.toInt ∧ win.size.toInt ≤ 8
  inside : ∀ l ∈ ls, l.start + l.width ≤ n
  apart : ls.Pairwise fun l m => l.start + l.width ≤ m.start
  nodup : (ls.map fun l => (register l.place).pseudo).Nodup
  pseudo_le : ∀ l ∈ ls, (register l.place).pseudo ≤ Reg.pseudoCount

namespace Lowering

variable {env : Addresses} {s : Lowering} {w : World} {register : Place → Reg} {n : Nat} {b a : BitVec 64}

/-- The register of a location holds its part of the object at `a`. -/
def Loaded (register : Place → Reg) (m : Memory) (a : BitVec 64) (w : World) (l : Location) : Prop :=
  ∀ i < l.width, byteOf (w.regs (register l.place).pseudo) i = m (a + BitVec.ofNat 64 (l.start + i))

/-- **Loading an aggregate fills its registers.** -/
theorem runs_loadEightbytes (hsrc : env.of? src = some a) (hp : Spread n register p.locations)
    (hs : Reg.pseudoCount ≤ s.fn.vregCount) :
    Runs env (loadEightbytes src p register) s w fun _ _ w' =>
      w'.memory = w.memory ∧ (∀ l ∈ p.locations, Loaded register w.memory a w' l) := by
  refine runs_bind (runs_mapM (I := fun done s' w' => Reg.pseudoCount ≤ s'.fn.vregCount ∧
    w'.memory = w.memory ∧ ∀ l ∈ done, Loaded register w.memory a w' l) p.locations ?_
    ⟨hs, rfl, fun l hl => nomatch hl⟩) fun _ s' w' _ h => runs_pure h.2
  intro done l todo s₁ w₁ hsplit h
  obtain ⟨hcount, hmemory, hdone⟩ := h
  have hl : l ∈ p.locations := by rw [hsplit]; simp
  cases hwin : l.window with
  | none =>
    refine runs_pure ⟨hcount, hmemory, fun m hm => ?_⟩
    rcases List.mem_append.mp hm with hm | hm
    · exact hdone m hm
    · obtain rfl := List.mem_singleton.mp hm
      intro i hi
      rw [Location.width, hwin] at hi
      exact absurd hi (Nat.not_lt_zero _)
  | some win =>
    have hoffset := hp.offset l hl win hwin
    obtain ⟨hpositive, hle⟩ := hp.size l hl win hwin
    have hwidth : l.width = carried l.place win := by rw [Location.width, hwin]; rfl
    refine runs_bind (runs_loadEightbyte hsrc l.place (register l.place) hpositive hle)
      fun _ s₂ w₂ hadv hfilled => runs_pure ⟨Int.le_trans hcount hadv.vregs,
        hfilled.memory.trans hmemory, fun m hm => ?_⟩
    rcases List.mem_append.mp hm with hm | hm
    · -- what was loaded before is in another register
      have hne : (register m.place).pseudo ≠ (register l.place).pseudo := by
        have hnodup := hp.nodup
        rw [hsplit, List.map_append, List.map_cons] at hnodup
        have hdisjoint := (List.nodup_append.mp hnodup).2.2
        exact hdisjoint _ (List.mem_map.mpr ⟨m, hm, rfl⟩) _ (by simp)
      have hmem : m ∈ p.locations := by rw [hsplit]; simp [hm]
      intro i hi
      rw [hfilled.regs _ (Int.le_trans (hp.pseudo_le m hmem) hcount) hne]
      exact hdone m hm i hi
    · obtain rfl := List.mem_singleton.mp hm
      intro i hi
      rw [hfilled.bytes i (by omega), hmemory, hoffset, add_ofNat_add]

/-- The second object has the part that the register of the location holds. -/
def Unloaded (register : Place → Reg) (b : BitVec 64) (w w' : World) (l : Location) : Prop :=
  ∀ i < l.width, w'.memory (b + BitVec.ofNat 64 (l.start + i)) = byteOf (w.regs (register l.place).pseudo) i

theorem runs_storeLocation (hdst : env.of? dst = some b) {locations : List Location}
    (hp : Spread n register locations) {l : Location} (hl : l ∈ locations) :
    Runs env (match l.window with
      | some win => storeEightbyte dst l.place (register l.place) win
      | none => pure ()) s w fun _ _ w' =>
        w'.memory = w.memory.store (b + BitVec.ofNat 64 l.start) l.width (w.regs (register l.place).pseudo) ∧
          w.Agrees s.fn.vregCount w' := by
  cases hwin : l.window with
  | none =>
    have hwidth : l.width = 0 := by rw [Location.width, hwin]; rfl
    rw [hwidth]
    exact runs_pure ⟨rfl, .refl _ _⟩
  | some win =>
    have hwidth : l.width = carried l.place win := by rw [Location.width, hwin]; rfl
    rw [hwidth, ← hp.offset l hl win hwin]
    exact runs_storeEightbyte_memory hdst l.place (register l.place) (hp.size l hl win hwin).2

/-- **Storing an aggregate's registers writes the parts they hold, and nothing else.** -/
theorem runs_storeEightbytes_memory (hdst : env.of? dst = some b) (hp : Spread n register p.locations)
    (hn : n ≤ 2 ^ 64) (hs : Reg.pseudoCount ≤ s.fn.vregCount) :
    Runs env (storeEightbytes dst p register) s w fun _ _ w' =>
      (∀ l ∈ p.locations, Unloaded register b w w' l) ∧
        ∀ q, (∀ l ∈ p.locations, ¬ Memory.Within (b + BitVec.ofNat 64 l.start) l.width q) →
          w'.memory q = w.memory q := by
  refine (runs_forM (I := fun done s' w' => s.fn.vregCount ≤ s'.fn.vregCount ∧ w.Agrees s.fn.vregCount w' ∧
    (∀ l ∈ done, Unloaded register b w w' l) ∧
    ∀ q, (∀ l ∈ done, ¬ Memory.Within (b + BitVec.ofNat 64 l.start) l.width q) → w'.memory q = w.memory q)
    p.locations ?_ ⟨Int.le_refl _, .refl _ _, by simp, fun _ _ => rfl⟩).mono
    fun _ _ _ _ h => h.2.2
  intro done l todo s₁ w₁ hsplit h
  obtain ⟨hcount, hagrees, hdone, hrest⟩ := h
  have hl : l ∈ p.locations := by rw [hsplit]; simp
  have hinside := hp.inside l hl
  have hbefore : ∀ m ∈ done, m.start + m.width ≤ l.start := by
    intro m hm
    have hpairwise := hp.apart
    rw [hsplit] at hpairwise
    exact (List.pairwise_append.mp hpairwise).2.2 m hm l (by simp)
  refine (runs_storeLocation hdst hp hl).mono fun _ s₂ w₂ hadv h => ?_
  obtain ⟨hmemory, hagrees₂⟩ := h
  rw [hagrees _ (Int.le_trans (hp.pseudo_le l hl) hs)] at hmemory
  refine ⟨Int.le_trans hcount hadv.vregs, hagrees.trans (hagrees₂.mono hcount), fun m hm i hi => ?_,
    fun q hq => ?_⟩
  · rcases List.mem_append.mp hm with hm | hm
    · -- the parts stored before lie before this one
      have hlt := hbefore m hm
      have hnot : ¬ Memory.Within (b + BitVec.ofNat 64 l.start) l.width
          (b + BitVec.ofNat 64 (m.start + i)) :=
        Memory.apart_add b (by omega) _ (Memory.within_add b (by omega) (by omega))
      rw [hmemory, Memory.store_of_not_within _ _ hnot]
      exact hdone m hm i hi
    · obtain rfl := List.mem_singleton.mp hm
      rw [hmemory, ← add_ofNat_add, Memory.store_apply _ _ _ hi (by omega)]
  · rw [hmemory, Memory.store_of_not_within _ _ (hq l (by simp))]
    exact hrest q fun m hm => hq m (by simp [hm])

/-- **What is loaded and stored again is a copy, as far as it travels.** -/
theorem runs_load_store (hsrc : env.of? src = some a) (hdst : env.of? dst = some b)
    (hp : Spread n register p.locations) (hn : n ≤ 2 ^ 64) (hs : Reg.pseudoCount ≤ s.fn.vregCount) :
    Runs env (do let _ ← loadEightbytes src p register; storeEightbytes dst p register) s w fun _ _ w' =>
      (∀ l ∈ p.locations, ∀ i < l.width, w'.memory (b + BitVec.ofNat 64 (l.start + i))
        = w.memory (a + BitVec.ofNat 64 (l.start + i))) ∧
        ∀ q, (∀ l ∈ p.locations, ¬ Memory.Within (b + BitVec.ofNat 64 l.start) l.width q) →
          w'.memory q = w.memory q := by
  refine runs_bind (runs_loadEightbytes hsrc hp hs) fun _ s₁ w₁ hadv h => ?_
  obtain ⟨hmemory, hloaded⟩ := h
  refine (runs_storeEightbytes_memory hdst hp hn (Int.le_trans hs hadv.vregs)).mono fun _ _ w' _ h' => ?_
  obtain ⟨hunloaded, hrest⟩ := h'
  refine ⟨fun l hl i hi => ?_, fun q hq => ?_⟩
  · rw [hunloaded l hl i hi, hloaded l hl i hi]
  · rw [hrest q hq, hmemory]

end Lowering

/-! ### Which bytes travel -/

namespace Eightbyte

/-- How many bytes of the `j`-th eightbyte of an aggregate are moved: of a vector class all eight or,
if there are fewer, four; of another class all there are. -/
def moved (size : Nat) (c : Eightbyte) (j : Nat) : Nat :=
  if c = .sse ∧ size < 8 * j + 8 then 4 else min (size - 8 * j) 8

/-- The byte is one of those that are moved. -/
def Travels (size : Nat) (cs : List Eightbyte) (i : Nat) : Prop :=
  i < size ∧ (cs[i / 8]? = some .sse → 8 * (i / 8) + 8 ≤ size ∨ i % 8 < 4)

instance (size : Nat) (cs : List Eightbyte) (i : Nat) : Decidable (Travels size cs i) :=
  inferInstanceAs (Decidable (_ ∧ _))

theorem carried_sse (n : Nat) (win : Window) :
    carried (.sse n) win = if win.size = 8 then 8 else 4 := by
  by_cases h8 : win.size = 8
  · by_cases hmembers : win.members ≥ 2 <;> simp [carried, carriage, h8, hmembers]
  · simp [carried, carriage, h8]

theorem carried_seat (c : Eightbyte) (n : Nat) (members : List Nat) (hj : 8 * j < size.toInt.toNat) :
    carried (c.seat n) (Allocation.window size members j) = c.moved size.toInt.toNat j := by
  obtain ⟨-, hsize⟩ := Allocation.toNat_window members hj
  have hbytes : c ≠ .sse → carried (c.seat n) (Allocation.window size members j)
      = (Allocation.window size members j).size.toInt.toNat := by
    intro hc
    cases c <;> first | rfl | exact absurd rfl hc
  by_cases hc : c = .sse
  · subst hc
    have hfull : (Allocation.window size members j).size = 8 ↔ 8 * j + 8 ≤ size.toInt.toNat := by
      rw [← Int64.toInt_inj, show (8 : Int64).toInt = 8 from rfl]
      omega
    rw [seat, carried_sse, moved]
    by_cases hlt : size.toInt.toNat < 8 * j + 8
    · rw [if_neg (mt hfull.mp (by omega)), if_pos ⟨rfl, hlt⟩]
    · rw [if_pos (hfull.mpr (by omega)), if_neg (fun h => hlt h.2)]
      omega
  · rw [hbytes hc, hsize, moved, if_neg fun h => hc h.1]

theorem moved_le (size : Nat) (c : Eightbyte) (j : Nat) : c.moved size j ≤ 8 := by
  unfold moved
  split <;> omega

variable {cs : List Eightbyte} {s : Ty.Scalar}

/-- What is moved of an eightbyte belongs to the aggregate. -/
theorem end_moved_le (hfit : t.extent < 2 ^ 63) (hcs : classify t = some cs) (hc : cs[j]? = some c)
    (hj : 8 * j < t.size.toInt.toNat) : 8 * j + c.moved t.size.toInt.toNat j ≤ t.size.toInt.toNat := by
  unfold moved
  by_cases hpart : c = .sse ∧ t.size.toInt.toNat < 8 * j + 8
  · rw [if_pos hpart]
    obtain ⟨rfl, -⟩ := hpart
    exact four_le_of_sse hfit hcs hc
  · rw [if_neg hpart]
    omega

/-- **Every byte of every scalar travels.** -/
theorem travels_of_scalar (hfit : t.extent < 2 ^ 63) (hcs : classify t = some cs) (hs : s ∈ t.scalars)
    {i : Nat} (hi : s.offset.toInt ≤ i) (hlt : (i : Int) < s.offset.toInt + s.type.extent) :
    Travels t.size.toInt.toNat cs i := by
  have hinside := (Ty.scalar_inside hfit hs).2
  refine ⟨by omega, fun hsse => ?_⟩
  by_cases hpart : t.size.toInt.toNat < 8 * (i / 8) + 8
  · exact .inr (lt_four_of_scalar hfit hcs hs hi hlt hsse hpart)
  · exact .inl (by omega)

end Eightbyte

/-! ### Where the parts are -/

namespace Allocation

variable {cs : List Eightbyte} {a : Allocation} {members : List Nat} {l : Location} {register : Place → Reg}

/-- The location of an eightbyte stands for the part that is moved of it. -/
theorem seat_spec (hlength : cs.length = (size.toInt.toNat + 7) / 8)
    (hl : (seats size members 0 cs a)[j]? = some l) :
    8 * j < size.toInt.toNat ∧ l.window = some (window size members j) ∧ l.start = 8 * j ∧
      ∃ c, cs[j]? = some c ∧ l.width = c.moved size.toInt.toNat j := by
  obtain ⟨n, hn⟩ := getElem?_seats size members 0 cs a j
  rw [hn] at hl
  obtain ⟨c, hc, rfl⟩ := Option.map_eq_some_iff.mp hl
  obtain ⟨hlt, -⟩ := List.getElem?_eq_some_iff.mp hc
  have hj : 8 * j < size.toInt.toNat := by omega
  rw [Nat.zero_add]
  exact ⟨hj, rfl, (toNat_window members hj).1, c, hc, Eightbyte.carried_seat c _ members hj⟩

theorem spread_seats (hfile : IsFile register ints sses) (hfit : t.extent < 2 ^ 63)
    (hcs : Eightbyte.classify t = some cs) (members : List Nat)
    (hbelow : ∀ l ∈ seats t.size members 0 cs a, l.place.Below ints sses)
    (hnodup : ((seats t.size members 0 cs a).map (·.place)).Nodup) :
    Spread t.size.toInt.toNat register (seats t.size members 0 cs a) := by
  have hsize : 0 ≤ t.size.toInt := by rw [Ty.toInt_size t hfit]; omega
  obtain ⟨hlength, -, hsixteen⟩ := Eightbyte.length_of_classify hcs hsize
  refine ⟨fun l hl win hwin => ?_, fun l hl win hwin => ?_, fun l hl => ?_, ?_, ?_,
    fun l hl => hfile.le _ (hbelow l hl)⟩
  · obtain ⟨j, hj⟩ := List.mem_iff_getElem?.mp hl
    obtain ⟨hlt, hwindow, hstart, -⟩ := seat_spec hlength hj
    obtain rfl := Option.some.inj (hwin.symm.trans hwindow)
    rw [hstart]
    exact toBitVec_eight_mul j
  · obtain ⟨j, hj⟩ := List.mem_iff_getElem?.mp hl
    obtain ⟨hlt, hwindow, -⟩ := seat_spec hlength hj
    obtain rfl := Option.some.inj (hwin.symm.trans hwindow)
    have hsize := (toNat_window members hlt).2
    omega
  · obtain ⟨j, hj⟩ := List.mem_iff_getElem?.mp hl
    obtain ⟨hlt, -, hstart, c, hc, hwidth⟩ := seat_spec hlength hj
    rw [hstart, hwidth]
    exact Eightbyte.end_moved_le hfit hcs hc hlt
  · refine List.pairwise_iff_getElem.mpr fun j k hj hk hjk => ?_
    obtain ⟨-, -, hstart, c, -, hwidth⟩ := seat_spec hlength (List.getElem?_eq_getElem hj)
    obtain ⟨-, -, hstart', -⟩ := seat_spec hlength (List.getElem?_eq_getElem hk)
    have hle := c.moved_le t.size.toInt.toNat j
    omega
  · rw [List.Nodup, List.pairwise_map] at hnodup ⊢
    exact hnodup.imp_of_mem fun hl hm hne heq => hne (hfile.inj _ _ (hbelow _ hl) (hbelow _ hm) heq)

/-- A byte travels exactly if it is in the part of some location. -/
theorem travels_iff_seats (hfit : t.extent < 2 ^ 63) (hcs : Eightbyte.classify t = some cs)
    (members : List Nat) (i : Nat) :
    Eightbyte.Travels t.size.toInt.toNat cs i ↔
      ∃ l ∈ seats t.size members 0 cs a, l.start ≤ i ∧ i < l.start + l.width := by
  have hsize : 0 ≤ t.size.toInt := by rw [Ty.toInt_size t hfit]; omega
  obtain ⟨hlength, -, -⟩ := Eightbyte.length_of_classify hcs hsize
  constructor
  · intro hi
    obtain ⟨hlt, hpart⟩ := hi
    have hj : i / 8 < (seats t.size members 0 cs a).length := by
      rw [length_seats]
      omega
    have hget := List.getElem?_eq_getElem hj
    obtain ⟨-, -, hstart, c, hc, hwidth⟩ := seat_spec hlength hget
    refine ⟨_, List.getElem_mem hj, by omega, ?_⟩
    rw [hwidth, Eightbyte.moved]
    by_cases hsse : c = .sse ∧ t.size.toInt.toNat < 8 * (i / 8) + 8
    · rw [if_pos hsse]
      have hcases := hpart (hsse.1 ▸ hc)
      omega
    · rw [if_neg hsse]
      omega
  · intro hi
    obtain ⟨l, hl, hle, hlt⟩ := hi
    obtain ⟨j, hj⟩ := List.mem_iff_getElem?.mp hl
    obtain ⟨hsize, -, hstart, c, hc, hwidth⟩ := seat_spec hlength hj
    have hend := Eightbyte.end_moved_le hfit hcs hc hsize
    have hle8 := c.moved_le t.size.toInt.toNat j
    obtain rfl : i / 8 = j := by omega
    refine ⟨by omega, fun hsse => ?_⟩
    obtain rfl := Option.some.inj (hc.symm.trans hsse)
    by_cases hpart : t.size.toInt.toNat < 8 * (i / 8) + 8
    · rw [Eightbyte.moved, if_pos ⟨rfl, hpart⟩] at hwidth
      omega
    · omega

end Allocation

/-- A result comes back in registers that were all found. -/
theorem Placement.ofResult_eq_some (h : ofResult t = some p) :
    (Allocation.results.add t).1.inRegisters = true ∧ p = (Allocation.results.add t).1 := by
  unfold ofResult at h
  split at h
  · exact nomatch h
  · exact nomatch h
  · split at h
    · exact nomatch h
    · dsimp only at h
      split at h
      · next hin => exact ⟨hin, (Option.some.inj h).symm⟩
      · exact nomatch h

/-- The ways in which an aggregate travels in registers: as an argument, after any others, and as a result. -/
inductive InRegisters (t : Ty) : Placement → (Place → Reg) → Prop
  | argument {a : Allocation} (hint : a.maxInt = 6) (hsse : a.maxSse = 8)
      (h : (a.placeInRegisters t).isSome = true) : InRegisters t (a.add t).1 argRegister
  | result {p : Placement} (h : Placement.ofResult t = some p) : InRegisters t p resultRegister

namespace InRegisters

variable {cs : List Eightbyte} {register : Place → Reg} {a : Allocation}

theorem locations_add (hagg : t.isAggregate = true) (hcs : Eightbyte.classify t = some cs)
    (h : (a.placeInRegisters t).isSome = true) :
    (a.add t).1.locations = Allocation.seats t.size (Eightbyte.memberCounts t) 0 cs a ∧
      (∀ l ∈ (a.add t).1.locations, l.place.Below a.maxInt a.maxSse) ∧
      ((a.add t).1.locations.map (·.place)).Nodup := by
  obtain ⟨⟨ls, b⟩, hplace⟩ := Option.isSome_iff_exists.mp h
  have hlocations : (a.add t).1.locations = ls := by simp only [Allocation.add, Allocation.place, hplace]
  rw [Allocation.placeInRegisters, if_pos hagg, hcs] at hplace
  rw [hlocations]
  obtain ⟨hseats, hhands⟩ := Allocation.takeRegisters_eq_some hplace
  exact ⟨hseats, fun l hl => hhands.below _ (List.mem_map_of_mem hl), hhands.nodup⟩

/-- A result is in registers because they were found, not because it is empty. -/
theorem placeInRegisters_results (h : Placement.ofResult t = some p) :
    (Allocation.results.placeInRegisters t).isSome = true ∧ p = (Allocation.results.add t).1 := by
  have hresult := Placement.ofResult_eq_some h
  refine ⟨?_, hresult.2⟩
  cases hplace : Allocation.results.placeInRegisters t with
  | some _ => rfl
  | none =>
    have hstart : alignUp 0 (max 8 t.align) = 0 := by
      rcases t.max_eight_align with ⟨-, h⟩ | ⟨-, h⟩ <;> rw [h] <;> decide
    have hin := hresult.1
    rw [Allocation.add, Allocation.place, hplace] at hin
    by_cases hempty : (t.isAggregate && t.size == 0) = true
    · simp [hempty, Placement.inRegisters] at hin
    · simp [hempty, Placement.inRegisters, Allocation.takeStack, Location.onStack, Allocation.results,
        hstart] at hin

theorem seats (h : InRegisters t p register) (hagg : t.isAggregate = true)
    (hcs : Eightbyte.classify t = some cs) : ∃ (a : Allocation) (ints sses : Nat), IsFile register ints sses ∧
      p.locations = Allocation.seats t.size (Eightbyte.memberCounts t) 0 cs a ∧
      (∀ l ∈ p.locations, l.place.Below ints sses) ∧ (p.locations.map (·.place)).Nodup := by
  cases h with
  | @argument a hint hsse h =>
    obtain ⟨hlocations, hbelow, hnodup⟩ := locations_add hagg hcs h
    rw [hint, hsse] at hbelow
    exact ⟨a, 6, 8, isFile_argRegister, hlocations, hbelow, hnodup⟩
  | result h =>
    obtain ⟨hsome, rfl⟩ := placeInRegisters_results h
    exact ⟨Allocation.results, 2, 2, isFile_resultRegister, locations_add hagg hcs hsome⟩

theorem spread (h : InRegisters t p register) (hagg : t.isAggregate = true) (hfit : t.extent < 2 ^ 63)
    (hcs : Eightbyte.classify t = some cs) :
    ∃ a, p.locations = Allocation.seats t.size (Eightbyte.memberCounts t) 0 cs a ∧
      Spread t.size.toInt.toNat register p.locations := by
  obtain ⟨a, ints, sses, hfile, hseats, hbelow, hnodup⟩ := h.seats hagg hcs
  refine ⟨a, hseats, ?_⟩
  rw [hseats] at hbelow hnodup ⊢
  exact Allocation.spread_seats hfile hfit hcs _ hbelow hnodup

end InRegisters

/-! ### The trip -/

namespace Lowering

variable {env : Addresses} {register : Place → Reg} {n k : Nat} {a b : BitVec 64} {low : Int}

theorem emits_loadEightbytes (hsrc : env.of? src = some a) (hp : Spread n register p.locations) :
    EmitsFrom low (Instr.Stays env a n b k) (loadEightbytes src p register) fun _ => True := by
  refine emits_bind (emits_mapM fun l hl => ?_) fun _ _ => emits_pure trivial
  cases hwin : l.window with
  | none => exact emits_pure trivial
  | some win =>
    have hinside := hp.inside l hl
    rw [show l.width = carried l.place win by rw [Location.width, hwin]; rfl] at hinside
    exact emits_bind (emits_loadEightbyte hsrc l.place _ (hp.offset l hl win hwin) hinside)
      fun _ _ => emits_pure trivial

theorem emits_storeEightbytes (hdst : env.of? dst = some b) (hp : Spread k register p.locations) :
    EmitsFrom low (Instr.Stays env a n b k) (storeEightbytes dst p register) fun _ => True := by
  refine emits_forM fun l hl => ?_
  cases hwin : l.window with
  | none => exact emits_pure trivial
  | some win =>
    have hinside := hp.inside l hl
    rw [show l.width = carried l.place win by rw [Location.width, hwin]; rfl] at hinside
    exact emits_storeEightbyte hdst l.place _ (hp.offset l hl win hwin) hinside

/-- The bytes that travel arrive, and no others are written. -/
theorem runs_trip {cs : List Eightbyte} (hagg : t.isAggregate = true) (hfit : t.extent < 2 ^ 63)
    (hcs : Eightbyte.classify t = some cs) (hp : InRegisters t p register) (hsrc : env.of? src = some a)
    (hdst : env.of? dst = some b) {s : Lowering} (hs : Reg.pseudoCount ≤ s.fn.vregCount) {w : World} :
    Runs env (do let _ ← loadEightbytes src p register; storeEightbytes dst p register) s w fun _ _ w' =>
      (∀ i, Eightbyte.Travels t.size.toInt.toNat cs i →
        w'.memory (b + BitVec.ofNat 64 i) = w.memory (a + BitVec.ofNat 64 i)) ∧
      ∀ q, (∀ i, Eightbyte.Travels t.size.toInt.toNat cs i → q ≠ b + BitVec.ofNat 64 i) →
        w'.memory q = w.memory q := by
  obtain ⟨c, hseats, hspread⟩ := hp.spread hagg hfit hcs
  have htravels := fun i => Allocation.travels_iff_seats (a := c) hfit hcs (Eightbyte.memberCounts t) i
  rw [← hseats] at htravels
  have hsize := t.size.toInt_lt
  refine (runs_load_store hsrc hdst hspread (by omega) hs).mono fun _ _ w' _ h => ?_
  obtain ⟨hcopied, hrest⟩ := h
  refine ⟨fun i hi => ?_, fun q hq => hrest q fun l hl hin => ?_⟩
  · obtain ⟨l, hl, hle, hlt⟩ := (htravels i).mp hi
    have hbyte := hcopied l hl (i - l.start) (by omega)
    rwa [Nat.add_sub_cancel' hle] at hbyte
  · obtain ⟨i, hi, -, rfl⟩ := hin.exists_add
    rw [add_ofNat_add] at hq
    exact hq (l.start + i) ((htravels _).mpr ⟨l, hl, by omega, by omega⟩) rfl

/-- **An aggregate makes the trip through registers.**  Loading it looks at no byte outside the first
object and changes no memory, storing looks at no memory and changes no byte outside the second object.
After both, the bytes that travel are the same in the two objects, and no other byte has changed.  Every
byte of every scalar travels. -/
theorem aggregate_survives_registers {t : Ty} {cs : List Eightbyte} (hagg : t.isAggregate = true)
    (hfit : t.extent < 2 ^ 63) (hcs : Eightbyte.classify t = some cs) (hp : InRegisters t p register)
    {src dst : Operand} (hsrc : env.of? src = some a) (hdst : env.of? dst = some b) (s : Lowering)
    (hs : Reg.pseudoCount ≤ s.fn.vregCount) (w : World) :
    (∀ low, EmitsFrom low (Instr.Touches env a t.size.toInt.toNat b 0) (loadEightbytes src p register)
      fun _ => True) ∧
    (∀ low, EmitsFrom low (Instr.Touches env a 0 b t.size.toInt.toNat) (storeEightbytes dst p register)
      fun _ => True) ∧
    Runs env (do let _ ← loadEightbytes src p register; storeEightbytes dst p register) s w (fun _ _ w' =>
      (∀ i, Eightbyte.Travels t.size.toInt.toNat cs i →
        w'.memory (b + BitVec.ofNat 64 i) = w.memory (a + BitVec.ofNat 64 i)) ∧
      ∀ q, (∀ i, Eightbyte.Travels t.size.toInt.toNat cs i → q ≠ b + BitVec.ofNat 64 i) →
        w'.memory q = w.memory q) ∧
    ∀ scalar ∈ t.scalars, ∀ i : Nat, scalar.offset.toInt ≤ i →
      (i : Int) < scalar.offset.toInt + scalar.type.extent → Eightbyte.Travels t.size.toInt.toNat cs i := by
  obtain ⟨-, -, hspread⟩ := hp.spread hagg hfit hcs
  exact ⟨fun _ => (emits_loadEightbytes hsrc hspread).mono fun _ hi => hi.touches,
    fun _ => (emits_storeEightbytes hdst hspread).mono fun _ hi => hi.touches,
    runs_trip hagg hfit hcs hp hsrc hdst hs,
    fun _ hscalar _ hi hlt => Eightbyte.travels_of_scalar hfit hcs hscalar hi hlt⟩

/-! ### A byte that is lost -/

/-- Three floats, over five characters and a record that is padding for the most part.  The last byte is
in no scalar, and in an eightbyte that travels as a float. -/
def paddedUnion : Ty :=
  .union "u" [.struct "p" [.array .single 3] true,
    .struct "q" [.array .char 5, .struct "r" [.char, .array .long 0] false] true]

theorem classify_paddedUnion : Eightbyte.classify paddedUnion = some [.integer, .sse] := by decide +kernel

/-- The last integer register and the last vector register are left. -/
def lastRegisters : Allocation := { intRegs := 5, sseRegs := 7 }

theorem inRegisters_paddedUnion :
    InRegisters paddedUnion (lastRegisters.add paddedUnion).1 argRegister :=
  .argument rfl rfl (by decide +kernel)

/-- Two globals with only the thirteenth byte of the first one set. -/
def twoObjects : Addresses := ⟨0, fun name => if name = "x" then 64 else 128⟩

theorem of?_first : twoObjects.of? (.global "x" paddedUnion) = some 64 := by decide

theorem of?_second : twoObjects.of? (.global "y" paddedUnion) = some 128 := by decide

def thirteenthByte : World := ⟨fun _ => 0, fun q => if q = 76 then 1 else 0⟩

/-- It makes the trip up to its twelfth byte. -/
theorem paddedUnion_survives_registers :
    Runs twoObjects (do
      let _ ← loadEightbytes (.global "x" paddedUnion) (lastRegisters.add paddedUnion).1 argRegister
      storeEightbytes (.global "y" paddedUnion) (lastRegisters.add paddedUnion).1 argRegister)
      { fn := .new "f" .void [paddedUnion] } thirteenthByte fun _ _ w' =>
        ∀ i < 12, w'.memory (128 + BitVec.ofNat 64 i) = thirteenthByte.memory (64 + BitVec.ofNat 64 i) := by
  have htravels : ∀ i < 12, Eightbyte.Travels paddedUnion.size.toInt.toNat [.integer, .sse] i := by
    decide +kernel
  have htrip := aggregate_survives_registers (by decide +kernel) (by decide +kernel) classify_paddedUnion
    inRegisters_paddedUnion of?_first of?_second { fn := .new "f" .void [paddedUnion] } (by decide)
    thirteenthByte
  exact htrip.2.2.1.mono fun _ _ _ _ h i hi => h.1 i (htravels i hi)

/-- Its thirteenth and last byte stays behind. -/
theorem paddedUnion_loses_last_byte : paddedUnion.isAggregate = true ∧ paddedUnion.size = 13 ∧
    Eightbyte.classify paddedUnion = some [.integer, .sse] ∧
    InRegisters paddedUnion (lastRegisters.add paddedUnion).1 argRegister ∧
    Runs twoObjects (do
      let _ ← loadEightbytes (.global "x" paddedUnion) (lastRegisters.add paddedUnion).1 argRegister
      storeEightbytes (.global "y" paddedUnion) (lastRegisters.add paddedUnion).1 argRegister)
      { fn := .new "f" .void [paddedUnion] } thirteenthByte fun _ _ w' =>
        w'.memory (128 + 12) ≠ thirteenthByte.memory (64 + 12) := by
  refine ⟨by decide +kernel, by decide +kernel, classify_paddedUnion, inRegisters_paddedUnion, ?_⟩
  refine (runs_trip (by decide +kernel) (by decide +kernel) classify_paddedUnion inRegisters_paddedUnion
    of?_first of?_second (by decide)).mono fun _ _ w' _ h => ?_
  have hstays : ∀ i < paddedUnion.size.toInt.toNat,
      Eightbyte.Travels paddedUnion.size.toInt.toNat [.integer, .sse] i →
        (128 + 12 : BitVec 64) ≠ 128 + BitVec.ofNat 64 i := by
    decide +kernel
  rw [h.2 _ fun i hi => hstays i hi.1 hi]
  decide

end Lowering

end Codegen
