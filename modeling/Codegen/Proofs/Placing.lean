/-
Placing arguments.

The two register files are treated alike: a class of eightbytes has a file, the file has a
capacity and a number of registers taken.  A value travels in registers exactly when the file of
every class it needs has enough registers left, and taking them one after another or finding out
that they do not fit is one statement each.  `add_cases` says all that placing one more value can
do.
-/
import Codegen.Calling.Placement
import Codegen.Proofs.Layout
import Codegen.Proofs.Memory
import Codegen.Proofs.Lists

namespace Codegen

/-! ### Register files -/

variable {c : Eightbyte} {t : Ty}

namespace Eightbyte

/-- The place of a register of the class's file. -/
def seat (c : Eightbyte) (n : Nat) : Place :=
  match c with
  | .sse => .sse n
  | _ => .int n

/-- How many registers of the class's file pass arguments. -/
def capacity (c : Eightbyte) : Nat :=
  match c with
  | .sse => 8
  | _ => 6

/-- How many of the eightbytes go to the class's file. -/
def inFile (c : Eightbyte) (cs : List Eightbyte) : Nat :=
  match c with
  | .sse => cs.count .sse
  | _ => cs.length - cs.count .sse

@[simp] theorem inFile_nil (c : Eightbyte) : c.inFile [] = 0 := by cases c <;> rfl

theorem inFile_cons (c d : Eightbyte) (cs : List Eightbyte) :
    c.inFile (d :: cs) = c.inFile [d] + c.inFile cs := by
  have hle : cs.count .sse ≤ cs.length := List.count_le_length
  cases c <;> cases d <;> simp [inFile] <;> omega

theorem inFile_singleton_self (c : Eightbyte) : c.inFile [c] = 1 := by cases c <;> rfl

theorem inFile_le_length (c : Eightbyte) (cs : List Eightbyte) : c.inFile cs ≤ cs.length := by
  cases c with
  | sse => exact List.count_le_length
  | _ => exact Nat.sub_le _ _

theorem inFile_ne_zero {cs : List Eightbyte} (h : c ∈ cs) : c.inFile cs ≠ 0 := by
  induction cs with
  | nil => exact nomatch h
  | cons d cs ih =>
    rw [inFile_cons]
    rcases List.mem_cons.mp h with rfl | h
    · rw [inFile_singleton_self]; omega
    · have := ih h
      omega

theorem length_addScalar (classes : List Eightbyte) (s : Ty.Scalar) :
    (addScalar classes s).length = classes.length := by
  rw [addScalar]
  split
  · rfl
  · rw [List.length_modify]

variable {cs : List Eightbyte}

/-- There is an eightbyte for every eight bytes and what is left, and at most two of them. -/
theorem length_of_classify (h : classify t = some cs) (hsize : 0 ≤ t.size.toInt) :
    cs.length = (t.size.toInt.toNat + 7) / 8 ∧ 0 < t.size.toInt ∧ t.size.toInt ≤ 16 := by
  simp only [classify] at h
  split at h
  · exact nomatch h
  · next hbig =>
    split at h
    · exact nomatch h
    · simp only [Bool.or_eq_true, decide_eq_true_eq, beq_iff_eq, not_or, Int64.not_lt] at hbig
      have hle : t.size.toInt ≤ 16 := Int64.le_iff_toInt_le.mp hbig.1
      have hne : t.size.toInt ≠ 0 := fun h0 => hbig.2 (Int64.toInt_inj.mp h0)
      have hcount : count t.size = (t.size.toInt.toNat + 7) / 8 := by
        rw [count, toInt_eightbytes hsize (by omega)]
        omega
      obtain rfl := Option.some.inj h
      rw [List.length_map, length_foldl_of_step length_addScalar, List.length_replicate, hcount]
      exact ⟨rfl, by omega, hle⟩

end Eightbyte

namespace Allocation

/-- The registers taken of the class's file. -/
def taken (a : Allocation) (c : Eightbyte) : Nat :=
  match c with
  | .sse => a.sseRegs
  | _ => a.intRegs

/-- The registers there are of the class's file. -/
def limit (a : Allocation) (c : Eightbyte) : Nat :=
  match c with
  | .sse => a.maxSse
  | _ => a.maxInt

/-- Take one more register of the class's file. -/
def take (a : Allocation) (c : Eightbyte) : Allocation :=
  match c with
  | .sse => { a with sseRegs := a.sseRegs + 1 }
  | _ => { a with intRegs := a.intRegs + 1 }

@[simp] theorem taken_take (a : Allocation) (c d : Eightbyte) :
    (a.take c).taken d = a.taken d + d.inFile [c] := by
  cases c <;> cases d <;> rfl

@[simp] theorem limit_take (a : Allocation) (c d : Eightbyte) : (a.take c).limit d = a.limit d := by
  cases c <;> cases d <;> rfl

@[simp] theorem offset_take (a : Allocation) (c : Eightbyte) : (a.take c).offset = a.offset := by
  cases c <;> rfl

/-- Nothing is beyond what there is, and the stack bytes are whole eightbytes. -/
structure InBounds (a : Allocation) : Prop where
  maxInt : a.maxInt = 6
  maxSse : a.maxSse = 8
  taken_le : ∀ c, a.taken c ≤ c.capacity
  nonneg : 0 ≤ a.offset.toInt
  multiple : a.offset.toInt % 8 = 0

/-- Enough registers are left for the eightbytes. -/
def Fits (a : Allocation) (cs : List Eightbyte) : Prop := ∀ c, a.taken c + c.inFile cs ≤ c.capacity

variable {a : Allocation} {cs : List Eightbyte} {size : Int64} {i : Nat} {members : List Nat} {l : Location}
  {ts : List Ty}

theorem inBounds_arguments : InBounds arguments :=
  ⟨rfl, rfl, fun c => by cases c <;> decide, by decide, by decide⟩

theorem inBounds_reserve : InBounds arguments.reserve.2 :=
  ⟨rfl, rfl, fun c => by cases c <;> decide, by decide, by decide⟩

theorem fits_cons : a.Fits (c :: cs) ↔ (a.take c).Fits cs := by
  refine forall_congr' fun d => ?_
  rw [Eightbyte.inFile_cons, taken_take, Nat.add_assoc]

theorem InBounds.limit_eq (ha : a.InBounds) (c : Eightbyte) : a.limit c = c.capacity := by
  cases c with
  | sse => exact ha.maxSse
  | _ => exact ha.maxInt

theorem takeRegister_eq_ite (a : Allocation) (c : Eightbyte) :
    a.takeRegister c = if a.taken c < a.limit c then some (c.seat (a.taken c), a.take c) else none := by
  cases c <;> rfl

theorem takeRegister_eq (ha : a.InBounds) :
    a.takeRegister c = if a.taken c < c.capacity then some (c.seat (a.taken c), a.take c) else none := by
  rw [takeRegister_eq_ite, ha.limit_eq]

theorem InBounds.take (ha : a.InBounds) (hc : a.taken c < c.capacity) : (a.take c).InBounds := by
  refine ⟨?_, ?_, fun d => ?_, by rw [offset_take]; exact ha.nonneg, by rw [offset_take]; exact ha.multiple⟩
  · rw [← ha.maxInt]; cases c <;> rfl
  · rw [← ha.maxSse]; cases c <;> rfl
  · have hd := ha.taken_le d
    rw [taken_take]
    revert hc hd
    cases c <;> cases d <;> simp [taken, Eightbyte.inFile, Eightbyte.capacity] <;> omega

/-- What does not fit without a single register does not fit at all. -/
theorem not_fits_of_full (hc : ¬ a.taken c < c.capacity) : ¬ a.Fits (c :: cs) := by
  intro h
  have := h c
  rw [Eightbyte.inFile_cons, Eightbyte.inFile_singleton_self] at this
  omega

/-! ### Taking registers -/

/-- The locations of the eightbytes from the `i`-th on. -/
def seats (size : Int64) (members : List Nat) : Nat → List Eightbyte → Allocation → List Location
  | _, [], _ => []
  | i, c :: cs, a =>
    ⟨c.seat (a.taken c), some (window size members i)⟩ :: seats size members (i + 1) cs (a.take c)

theorem length_seats (size : Int64) (members : List Nat) (i : Nat) (cs : List Eightbyte) (a : Allocation) :
    (seats size members i cs a).length = cs.length := by
  induction cs generalizing i a with
  | nil => rfl
  | cons c cs ih => rw [seats, List.length_cons, ih, List.length_cons]

theorem place_of_mem_seats (h : l ∈ seats size members i cs a) : ∃ c n, l.place = Eightbyte.seat c n := by
  induction cs generalizing i a with
  | nil => exact nomatch h
  | cons d cs ih =>
    rcases List.mem_cons.mp h with rfl | h
    · exact ⟨d, _, rfl⟩
    · exact ih h

/-- Eightbytes find registers if enough are left in each file. -/
theorem takeRegisters_of_room (size : Int64) (members : List Nat) (i : Nat)
    (h : ∀ c, a.taken c + c.inFile cs ≤ a.limit c) :
    takeRegisters size members i cs a = some (seats size members i cs a, cs.foldl take a) := by
  induction cs generalizing i a with
  | nil => rfl
  | cons c cs ih =>
    have hfree : a.taken c < a.limit c := by
      have hc := h c
      rw [Eightbyte.inFile_cons, Eightbyte.inFile_singleton_self] at hc
      omega
    have hrest := ih (a := a.take c) (i + 1) fun d => by
      rw [taken_take, limit_take, Nat.add_assoc, ← Eightbyte.inFile_cons]
      exact h d
    rw [takeRegisters, takeRegister_eq_ite, if_pos hfree]
    simp only [hrest]
    rfl

theorem takeRegisters_of_not_fits (size : Int64) (members : List Nat) (i : Nat) (ha : a.InBounds)
    (h : ¬ a.Fits cs) : takeRegisters size members i cs a = none := by
  induction cs generalizing i a with
  | nil => exact absurd (fun c => by simpa using ha.taken_le c) h
  | cons c cs ih =>
    rw [takeRegisters, takeRegister_eq ha]
    by_cases hfree : a.taken c < c.capacity
    · have hrest := ih (i + 1) (ha.take hfree) fun hfits => h (fits_cons.mpr hfits)
      rw [if_pos hfree]
      simp only [hrest]
    · rw [if_neg hfree]

theorem taken_foldl_take (cs : List Eightbyte) (a : Allocation) (d : Eightbyte) :
    (cs.foldl take a).taken d = a.taken d + d.inFile cs := by
  induction cs generalizing a with
  | nil => simp
  | cons c cs ih => rw [List.foldl_cons, ih, taken_take, Eightbyte.inFile_cons d c cs, Nat.add_assoc]

theorem offset_foldl_take (cs : List Eightbyte) (a : Allocation) :
    (cs.foldl take a).offset = a.offset := by
  induction cs generalizing a with
  | nil => rfl
  | cons c cs ih => rw [List.foldl_cons, ih, offset_take]

theorem biggestAlign_foldl_take (cs : List Eightbyte) (a : Allocation) :
    (cs.foldl take a).biggestAlign = a.biggestAlign := by
  induction cs generalizing a with
  | nil => rfl
  | cons c cs ih =>
    rw [List.foldl_cons, ih]
    cases c <;> rfl

theorem InBounds.foldl_take (ha : a.InBounds) (h : a.Fits cs) : (cs.foldl Allocation.take a).InBounds := by
  induction cs generalizing a with
  | nil => exact ha
  | cons c cs ih =>
    have hfree : a.taken c < c.capacity := by
      by_cases hc : a.taken c < c.capacity
      · exact hc
      · exact absurd h (not_fits_of_full hc)
    exact ih (ha.take hfree) (fits_cons.mp h)

theorem toNat_window (members : List Nat) (hi : 8 * i < size.toInt.toNat) :
    (window size members i).offset.toInt.toNat = 8 * i ∧
      (window size members i).size.toInt.toNat = min (size.toInt.toNat - 8 * i) 8 := by
  have hlt := size.toInt_lt
  have hoffset : (Int64.ofNat i * 8).toInt = 8 * i := by
    have hmul : Int64.ofNat i * 8 = Int64.ofNat (8 * i) := by
      rw [Nat.mul_comm, Int64.ofNat_mul]
      rfl
    rw [hmul, Int64.toInt_ofNat_of_lt (by omega)]
    omega
  have hrest : (size - Int64.ofNat i * 8).toInt = size.toInt - 8 * i := by
    rw [toInt_sub_of_le (by omega) (by omega), hoffset]
  refine ⟨by simp only [window, hoffset]; omega, ?_⟩
  show (min (size - Int64.ofNat i * 8) 8).toInt.toNat = _
  rw [toInt_min, hrest, show (8 : Int64).toInt = 8 from rfl]
  omega

/-! ### Placing one more value -/

/-- The classes of the registers that a value travels in, if it can. -/
def wanted (t : Ty) : Option (List Eightbyte) :=
  if t.isAggregate then Eightbyte.classify t
  else if t.isSse then some [.sse]
  else if t.fitsIntRegister then some [.integer]
  else none

/-- The locations of a value in registers of the given classes. -/
def registers (a : Allocation) (t : Ty) (cs : List Eightbyte) : List Location :=
  if t.isAggregate then seats t.size (Eightbyte.memberCounts t) 0 cs a
  else cs.map fun c => ⟨c.seat (a.taken c), none⟩

theorem fits_singleton (ha : a.InBounds) : a.Fits [c] ↔ a.taken c < c.capacity := by
  refine ⟨fun h => ?_, fun h d => ?_⟩
  · have := h c
    rw [Eightbyte.inFile_singleton_self] at this
    omega
  · have := (ha.take h).taken_le d
    rwa [taken_take] at this

theorem placeInRegisters_of_scalar (ha : a.InBounds) (hagg : t.isAggregate = false) (hwanted : wanted t = some [c])
    (hplace : a.placeInRegisters t = (a.takeRegister c).map (fun (p, a) => ([⟨p, none⟩], a))) :
    (∃ cs, wanted t = some cs ∧ a.Fits cs ∧
      a.placeInRegisters t = some (a.registers t cs, cs.foldl take a)) ∨
    ((∀ cs, wanted t = some cs → ¬ a.Fits cs) ∧ a.placeInRegisters t = none) := by
  rw [hplace, takeRegister_eq ha]
  by_cases hfree : a.taken c < c.capacity
  · refine .inl ⟨[c], hwanted, (fits_singleton ha).mpr hfree, ?_⟩
    rw [if_pos hfree, registers, hagg]
    rfl
  · refine .inr ⟨fun cs hcs => ?_, by rw [if_neg hfree]; rfl⟩
    obtain rfl : [c] = cs := Option.some.inj (hwanted.symm.trans hcs)
    exact fun h => hfree ((fits_singleton ha).mp h)

/-- A value is in registers exactly when it wants some and they are left. -/
theorem placeInRegisters_eq (ha : a.InBounds) :
    (∃ cs, wanted t = some cs ∧ a.Fits cs ∧
      a.placeInRegisters t = some (a.registers t cs, cs.foldl take a)) ∨
    ((∀ cs, wanted t = some cs → ¬ a.Fits cs) ∧ a.placeInRegisters t = none) := by
  by_cases hagg : t.isAggregate = true
  · have hwanted : wanted t = Eightbyte.classify t := by rw [wanted, if_pos hagg]
    rw [placeInRegisters, if_pos hagg, hwanted]
    cases hcs : Eightbyte.classify t with
    | none => exact .inr ⟨fun cs h => absurd h (by simp), rfl⟩
    | some cs =>
      by_cases hfits : a.Fits cs
      · refine .inl ⟨cs, rfl, hfits, ?_⟩
        show takeRegisters _ _ _ _ _ = _
        rw [takeRegisters_of_room _ _ _ fun c => ha.limit_eq c ▸ hfits c, registers, if_pos hagg]
      · refine .inr ⟨fun cs' h => ?_, takeRegisters_of_not_fits _ _ _ ha hfits⟩
        obtain rfl := Option.some.inj h
        exact hfits
  · have hagg : t.isAggregate = false := Bool.not_eq_true _ ▸ hagg
    by_cases hsse : t.isSse = true
    · exact placeInRegisters_of_scalar (c := .sse) ha hagg (by simp [wanted, hagg, hsse])
        (by simp [placeInRegisters, hagg, hsse])
    · by_cases hint : t.fitsIntRegister = true
      · exact placeInRegisters_of_scalar (c := .integer) ha hagg (by simp [wanted, hagg, hsse, hint])
          (by simp [placeInRegisters, hagg, hsse, hint])
      · exact .inr ⟨by simp [wanted, hagg, hsse, hint], by simp [placeInRegisters, hagg, hsse, hint]⟩

/-- The stack bytes before a value of the type, aligned for it. -/
def start (a : Allocation) (t : Ty) : Int64 := alignUp a.offset (max 8 t.align)

/-- Placing one more value: the registers it wants are taken, or an empty aggregate takes nothing, or the
value goes to the stack. -/
theorem add_eq (ha : a.InBounds) (t : Ty) :
    (∃ cs, wanted t = some cs ∧ a.Fits cs ∧
      a.add t = (⟨t, a.registers t cs⟩, { cs.foldl take a with count := a.count + 1 })) ∨
    ((∀ cs, wanted t = some cs → ¬ a.Fits cs) ∧
      ((t.isAggregate = true ∧ t.size = 0 ∧ a.add t = (⟨t, []⟩, { a with count := a.count + 1 })) ∨
        (¬ (t.isAggregate = true ∧ t.size = 0) ∧
          a.add t = (⟨t, [(a.takeStack t).1]⟩, { (a.takeStack t).2 with count := a.count + 1 })))) := by
  rcases placeInRegisters_eq (t := t) ha with ⟨cs, hwanted, hfits, hplace⟩ | ⟨hfull, hplace⟩
  · exact .inl ⟨cs, hwanted, hfits, by simp only [add, place, hplace]⟩
  · refine .inr ⟨hfull, ?_⟩
    by_cases hempty : (t.isAggregate && t.size == 0) = true
    · have hadd : a.add t = (⟨t, []⟩, { a with count := a.count + 1 }) := by
        simp only [add, place, hplace, hempty, if_true]
      simp only [Bool.and_eq_true, beq_iff_eq] at hempty
      exact .inl ⟨hempty.1, hempty.2, hadd⟩
    · have hadd : a.add t = (⟨t, [(a.takeStack t).1]⟩,
          { (a.takeStack t).2 with count := a.count + 1 }) := by
        simp only [add, place, hplace, hempty, if_false, Bool.false_eq_true]
      simp only [Bool.and_eq_true, beq_iff_eq] at hempty
      exact .inr ⟨hempty, hadd⟩

/-- All that placing one more value can do, seen from the places and the counts. -/
theorem add_cases (ha : a.InBounds) (t : Ty) :
    (∃ cs, wanted t = some cs ∧ a.Fits cs ∧ (a.add t).1.locations = a.registers t cs ∧
      (∀ c, (a.add t).2.taken c = a.taken c + c.inFile cs) ∧ (a.add t).2.offset = a.offset) ∨
    ((∀ cs, wanted t = some cs → ¬ a.Fits cs) ∧ (∀ c, (a.add t).2.taken c = a.taken c) ∧
      ((t.isAggregate = true ∧ t.size = 0 ∧ (a.add t).1.locations = [] ∧
          (a.add t).2.offset = a.offset) ∨
        (¬ (t.isAggregate = true ∧ t.size = 0) ∧
          (a.add t).1.locations = [⟨.stack (a.start t) (a.start t - a.offset), none⟩] ∧
          (a.add t).2.offset = a.start t + alignUp t.size 8))) := by
  rcases add_eq ha t with ⟨cs, hwanted, hfits, hadd⟩ | ⟨hfull, ⟨hagg, hsize, hadd⟩ | ⟨hfilled, hadd⟩⟩
  · rw [hadd]
    exact .inl ⟨cs, hwanted, hfits, rfl, fun c => taken_foldl_take cs a c, offset_foldl_take cs a⟩
  · rw [hadd]
    exact .inr ⟨hfull, fun c => rfl, .inl ⟨hagg, hsize, rfl, rfl⟩⟩
  · rw [hadd]
    exact .inr ⟨hfull, fun c => by cases c <;> rfl, .inr ⟨hfilled, rfl, rfl⟩⟩

/-! ### Stack bytes -/

theorem start_of_align_le (ha : a.InBounds) (hfit : a.offset.toInt + 16 ≤ 2 ^ 63) (ht : t.align ≤ 8) :
    a.start t = a.offset := by
  have hnonneg := ha.nonneg
  have hmultiple := ha.multiple
  have hmax : max 8 t.align = 8 := by
    rcases t.max_eight_align with ⟨-, h⟩ | ⟨h, -⟩
    · exact h
    · rw [h] at ht
      exact absurd ht (by decide)
  apply Int64.toInt_inj.mp
  rw [start, hmax, toInt_alignUp_eight hnonneg (by omega)]
  omega

theorem toInt_start_of_align (ha : a.InBounds) (hfit : a.offset.toInt + 16 ≤ 2 ^ 63)
    (ht : t.align = 16) : (a.start t).toInt = (a.offset.toInt + 15) / 16 * 16 := by
  rw [start, ht]
  exact toInt_alignUp_sixteen ha.nonneg hfit

/-- A value on the stack is put behind what is there, at most eight bytes further. -/
theorem start_bounds (ha : a.InBounds) (hfit : a.offset.toInt + 16 ≤ 2 ^ 63) (t : Ty) :
    a.offset.toInt ≤ (a.start t).toInt ∧ (a.start t).toInt ≤ a.offset.toInt + 8 ∧
      (a.start t).toInt % 8 = 0 := by
  have hmultiple := ha.multiple
  rcases t.max_eight_align with ⟨h, -⟩ | ⟨h, -⟩
  · rw [start_of_align_le ha hfit h]
    omega
  · rw [toInt_start_of_align ha hfit h]
    omega

/-- The bytes that a value may take on the stack, with those that align it. -/
def room (t : Ty) : Nat := t.size.toInt.toNat + 16

theorem maxRegs_add (ha : a.InBounds) (t : Ty) :
    (a.add t).2.maxInt = a.maxInt ∧ (a.add t).2.maxSse = a.maxSse := by
  rcases add_eq ha t with ⟨cs, -, hfits, hadd⟩ | ⟨-, ⟨-, -, hadd⟩ | ⟨-, hadd⟩⟩ <;> rw [hadd]
  · have := ha.foldl_take hfits
    exact ⟨this.maxInt.trans ha.maxInt.symm, this.maxSse.trans ha.maxSse.symm⟩
  · exact ⟨rfl, rfl⟩
  · exact ⟨rfl, rfl⟩

/-- **Placing a value keeps everything in bounds, and the stack bytes only grow.** -/
theorem InBounds.add (ha : a.InBounds) (hsize : 0 ≤ t.size.toInt)
    (hfit : a.offset.toInt + room t ≤ 2 ^ 63 - 1) :
    (a.add t).2.InBounds ∧ a.offset.toInt ≤ (a.add t).2.offset.toInt ∧
      (a.add t).2.offset.toInt ≤ a.offset.toInt + room t := by
  have hmax := maxRegs_add ha t
  have hnonneg := ha.nonneg
  have hmultiple := ha.multiple
  unfold room at hfit ⊢
  rcases add_cases ha t with ⟨cs, -, hfits, -, htaken, hoffset⟩ | ⟨-, htaken, hplace⟩
  · refine ⟨⟨hmax.1.trans ha.maxInt, hmax.2.trans ha.maxSse, fun c => ?_, ?_, ?_⟩, ?_, ?_⟩
    · rw [htaken c]; exact hfits c
    all_goals
      have hsame := congrArg Int64.toInt hoffset
      omega
  · have htaken_le : ∀ c, (a.add t).2.taken c ≤ c.capacity := fun c => by
      rw [htaken c]; exact ha.taken_le c
    rcases hplace with ⟨-, -, -, hoffset⟩ | ⟨-, -, hoffset⟩
    · refine ⟨⟨hmax.1.trans ha.maxInt, hmax.2.trans ha.maxSse, htaken_le, ?_, ?_⟩, ?_, ?_⟩
      all_goals
        have hsame := congrArg Int64.toInt hoffset
        omega
    · obtain ⟨hle, hge, hmod⟩ := start_bounds ha (by omega) t
      have hround := toInt_alignUp_eight hsize (by omega)
      have hsum : (a.add t).2.offset.toInt = (a.start t).toInt + (t.size.toInt + 7) / 8 * 8 := by
        rw [hoffset, toInt_add_of_nonneg (by omega) (by omega) (by omega), hround]
      refine ⟨⟨hmax.1.trans ha.maxInt, hmax.2.trans ha.maxSse, htaken_le, ?_, ?_⟩, ?_, ?_⟩
      all_goals omega

theorem addAll_cons (a : Allocation) (t : Ty) (ts : List Ty) :
    (a.addAll (t :: ts)).2 = ((a.add t).2.addAll ts).2 := rfl

/-- Placing values one after another keeps everything in bounds. -/
theorem InBounds.addAll (ha : a.InBounds) (hsize : ∀ t ∈ ts, 0 ≤ t.size.toInt)
    (hfit : a.offset.toInt + (ts.map room).sum ≤ 2 ^ 63 - 1) :
    (a.addAll ts).2.InBounds ∧ a.offset.toInt ≤ (a.addAll ts).2.offset.toInt ∧
      (a.addAll ts).2.offset.toInt ≤ a.offset.toInt + (ts.map room).sum := by
  induction ts generalizing a with
  | nil => exact ⟨ha, Int.le_refl _, by simp [Allocation.addAll]⟩
  | cons t ts ih =>
    rw [List.map_cons, List.sum_cons] at hfit ⊢
    rw [addAll_cons]
    obtain ⟨hadd, hle, hge⟩ := ha.add (hsize t (by simp)) (by omega)
    obtain ⟨hall, hle', hge'⟩ := ih hadd (fun t' h => hsize t' (by simp [h])) (by omega)
    exact ⟨hall, Int.le_trans hle hle', by omega⟩

theorem addAll_append (a : Allocation) (ts us : List Ty) :
    (a.addAll (ts ++ us)).2 = ((a.addAll ts).2.addAll us).2 := by
  induction ts generalizing a with
  | nil => rfl
  | cons t ts ih => rw [List.cons_append, addAll_cons, addAll_cons, ih]

end Allocation

/-! ### The types of arguments -/

namespace Ty

/-- A scalar that travels in one register, of the file of the given class. -/
structure InOneRegister (t : Ty) (c : Eightbyte) : Prop where
  wanted : Allocation.wanted t = some [c]
  notAggregate : t.isAggregate = false
  isSse : t.isSse = decide (c = .sse)
  span_le : t.span ≤ 8
  size : t.size.toInt.toNat = t.span
  align_le : t.align ≤ 8

theorem InOneRegister.isLongDouble (h : t.InOneRegister c) : t.isLongDouble = false := by
  have hspan := h.span_le
  cases t with
  | float k => cases k <;> first | rfl | exact absurd hspan (by decide)
  | _ => rfl

/-- A type that arguments have: a scalar, or an aggregate that is completely known. -/
inductive IsArgument : Ty → Prop
  | int (w : IntWidth) (sign : Signedness) : IsArgument (.int w sign)
  | pointer (t : Ty) : IsArgument (.pointer t)
  | float (k : FloatKind) : IsArgument (.float k)
  | aggregate {t : Ty} (hagg : t.isAggregate = true) (hknown : Eightbyte.canClassify t = true)
      (hsize : 0 ≤ t.size.toInt) : IsArgument t

namespace IsArgument

theorem size_nonneg (h : t.IsArgument) : 0 ≤ t.size.toInt := by
  cases h with
  | int w sign => cases w <;> cases sign <;> decide
  | pointer => exact show (0 : Int) ≤ (8 : Int64).toInt by decide
  | float k => cases k <;> decide
  | aggregate _ _ hsize => exact hsize

theorem canAdd (h : t.IsArgument) : Allocation.canAdd t = true := by
  cases h with
  | aggregate hagg hknown _ => rw [Allocation.canAdd, if_pos hagg]; exact hknown
  | _ => rfl

/-- A scalar is passed in one register, unless it is a long double. -/
theorem cases (h : t.IsArgument) :
    (∃ c, t.InOneRegister c) ∨ t = .longDouble ∨
      (t.isAggregate = true ∧ Eightbyte.canClassify t = true) := by
  cases h with
  | int w sign =>
    exact .inl ⟨.integer, rfl, rfl, rfl, by cases w <;> cases sign <;> decide, by cases w <;> rfl,
      by cases w <;> cases sign <;> decide⟩
  | pointer => exact .inl ⟨.integer, rfl, rfl, rfl, by simp, rfl, show (8 : Int64) ≤ 8 by decide⟩
  | float k =>
    cases k with
    | single => exact .inl ⟨.sse, rfl, rfl, rfl, by decide, rfl, by decide⟩
    | double => exact .inl ⟨.sse, rfl, rfl, rfl, by decide, rfl, by decide⟩
    | extended => exact .inr (.inl rfl)
  | aggregate hagg hknown _ => exact .inr (.inr ⟨hagg, hknown⟩)

end IsArgument

end Ty

end Codegen
