/-
Parameters never share a place.

Parameters are placed one after another, each wherever there is room or on the stack by request.  The
registers of a file are handed out in order, so the ones that a run of requests gets are exactly those
between the count before and the count after it; and every value on the stack is put behind all that are
there.  A step is told by `Allocation.add_cases`, a run by `Allocation.serveAll`, and `Served` is what both
have in common: it says what lies between the state before and the state after.

All of this is about numbers of bytes, and holds as long as these are numbers a word can hold: `Bounded`.
-/
import Codegen.Proofs.Placing
import Mathlib.Data.List.Nodup

namespace Codegen

/-- A parameter to be placed: wherever there is room, or on the stack. -/
inductive Request
  | anywhere (t : Ty)
  | onStack (t : Ty)
  deriving Repr

namespace Request

/-- The type of the parameter. -/
def type : Request → Ty
  | .anywhere t => t
  | .onStack t => t

end Request

namespace Allocation

/-- Place a parameter as requested. -/
def serve (a : Allocation) : Request → Placement × Allocation
  | .anywhere t => a.add t
  | .onStack t => a.addStack t

/-- Place parameters in order, each as requested. -/
def serveAll (a : Allocation) : List Request → List Placement × Allocation
  | [] => ([], a)
  | r :: rs => ((a.serve r).1 :: ((a.serve r).2.serveAll rs).1, ((a.serve r).2.serveAll rs).2)

/-- Nothing given out, or the first integer register only, for the address of a result. -/
def fresh (reserved : Bool) : Allocation := if reserved then arguments.reserve.2 else arguments

end Allocation

/-! ### What a placement takes -/

/-- The number of a register of the class's file; none for another place. -/
def Place.number? (c : Eightbyte) : Place → Option Nat
  | .int n => if c = .sse then none else some n
  | .sse n => if c = .sse then some n else none
  | .stack _ _ => none

namespace Placement

/-- The registers of the class's file that a placement takes. -/
def numbers (c : Eightbyte) (p : Placement) : List Nat := p.locations.filterMap (·.place.number? c)

/-- The stack bytes that a placement takes: the first, and the one behind the last. -/
def ranges (p : Placement) : List (Int × Int) :=
  p.locations.filterMap fun l =>
    match l.place with
    | .stack offset _ => some (offset.toInt, offset.toInt + roundUp p.type.size.toInt.toNat 8)
    | _ => none

/-- A value is wholly in registers, one for each eightbyte of an aggregate, or in one piece on the stack, or
it is an empty aggregate and nowhere. -/
inductive Whole (p : Placement) : Prop
  | registers (hplaces : ∀ l ∈ p.locations, ∃ c n, l.place = Eightbyte.seat c n)
      (hcount : p.locations.length = if p.type.isAggregate then (p.type.size.toInt.toNat + 7) / 8 else 1)
      (hsome : p.locations ≠ [])
  | stack (offset padding : Int64) (hplace : p.locations = [⟨.stack offset padding, none⟩])
  | nowhere (hnone : p.locations = []) (haggregate : p.type.isAggregate = true) (hempty : p.type.size = 0)

end Placement

theorem Place.number?_seat (c d : Eightbyte) (n : Nat) :
    (d.seat n).number? c = if c.inFile [d] = 0 then none else some n := by
  cases c <;> cases d <;> rfl

namespace Allocation

variable {a b d : Allocation} {c : Eightbyte} {cs : List Eightbyte} {t : Ty} {ps qs : List Placement} {p : Placement}
  {rs more : List Request} {r : Request} {big : Int} {align : Int64}

theorem range'_taken_take (a : Allocation) (c d : Eightbyte) (k : Nat) :
    List.range' (a.taken c) (c.inFile [d] + k)
      = (if c.inFile [d] = 0 then [] else [a.taken c]) ++ List.range' ((a.take d).taken c) k := by
  rw [taken_take]
  have hle : c.inFile [d] ≤ 1 := Eightbyte.inFile_le_length c [d]
  rcases Nat.lt_or_ge 0 (c.inFile [d]) with hpos | hzero
  · have hone : c.inFile [d] = 1 := by omega
    rw [hone, Nat.add_comm 1 k]
    rfl
  · have hzero : c.inFile [d] = 0 := by omega
    rw [hzero, if_pos rfl, Nat.zero_add, Nat.add_zero, List.nil_append]

/-- The registers of an aggregate are the next ones of each file. -/
theorem numbers_seats (size : Int64) (members : List Nat) (i : Nat) (cs : List Eightbyte) (a : Allocation) :
    (seats size members i cs a).filterMap (·.place.number? c) = List.range' (a.taken c) (c.inFile cs) := by
  induction cs generalizing i a with
  | nil => rw [Eightbyte.inFile_nil]; rfl
  | cons d cs ih =>
    rw [Eightbyte.inFile_cons, range'_taken_take, ← ih (i + 1) (a.take d), seats, List.filterMap_cons]
    rw [Place.number?_seat]
    by_cases hfile : c.inFile [d] = 0
    · rw [if_pos hfile, if_pos hfile]; rfl
    · have hsame : a.taken d = a.taken c := by
        revert hfile
        cases c <;> cases d <;> first | exact fun _ => rfl | exact fun h => absurd rfl h
      rw [if_neg hfile, if_neg hfile, hsame]; rfl

theorem exists_singleton_of_wanted (h : wanted t = some cs) (hagg : t.isAggregate = false) :
    ∃ c, cs = [c] := by
  simp only [wanted, hagg, Bool.false_eq_true, if_false] at h
  split at h
  · exact ⟨.sse, (Option.some.inj h).symm⟩
  · split at h
    · exact ⟨.integer, (Option.some.inj h).symm⟩
    · cases h

/-- The registers of a value are the next ones of each file. -/
theorem numbers_registers (h : wanted t = some cs) :
    (a.registers t cs).filterMap (·.place.number? c) = List.range' (a.taken c) (c.inFile cs) := by
  unfold registers
  by_cases hagg : t.isAggregate = true
  · rw [if_pos hagg, numbers_seats]
  · obtain ⟨d, rfl⟩ := exists_singleton_of_wanted h (Bool.not_eq_true _ ▸ hagg)
    rw [if_neg hagg]
    -- one register of an aggregate of one eightbyte
    exact numbers_seats 0 [] 0 [d] a

theorem whole_registers (h : wanted t = some cs) (hsize : 0 ≤ t.size.toInt) :
    (Placement.mk t (a.registers t cs)).Whole := by
  by_cases hagg : t.isAggregate = true
  · have hcs : Eightbyte.classify t = some cs := by rwa [wanted, if_pos hagg] at h
    obtain ⟨hlength, hpos, -⟩ := Eightbyte.length_of_classify hcs hsize
    have hregs : a.registers t cs = seats t.size (Eightbyte.memberCounts t) 0 cs a := if_pos hagg
    refine .registers (fun l hl => ?_) ?_ ?_
    · exact place_of_mem_seats (hregs ▸ hl)
    · rw [hregs, length_seats, hlength, if_pos hagg]
    · rw [hregs, ← List.length_pos_iff, length_seats]
      omega
  · obtain ⟨d, rfl⟩ := exists_singleton_of_wanted h (Bool.not_eq_true _ ▸ hagg)
    have hregs : a.registers t [d] = [⟨d.seat (a.taken d), none⟩] := if_neg hagg
    refine .registers (fun l hl => ?_) ?_ ?_
    · rw [hregs, List.mem_singleton] at hl
      exact ⟨d, _, congrArg Location.place hl⟩
    · rw [hregs, if_neg hagg]; rfl
    · rw [hregs]; exact List.cons_ne_nil _ _

theorem ranges_registers (a : Allocation) (t : Ty) (cs : List Eightbyte) :
    (Placement.mk t (a.registers t cs)).ranges = [] := by
  refine List.filterMap_eq_nil_iff.mpr fun l hl => ?_
  have hplace : ∃ c n, l.place = Eightbyte.seat c n := by
    unfold registers at hl
    split at hl
    · exact place_of_mem_seats hl
    · obtain ⟨d, -, rfl⟩ := List.mem_map.mp hl
      exact ⟨d, _, rfl⟩
  obtain ⟨c, n, hplace⟩ := hplace
  rw [hplace]
  cases c <;> rfl

/-! ### Room -/

/-- Where a value that is put on the stack next ends. -/
def reach (a : Allocation) (t : Ty) : Nat :=
  roundUp a.offset.toInt.toNat (max 8 t.align).toInt.toNat + roundUp t.size.toInt.toNat 8

/-- As long as nothing wraps: no size is negative, and what goes to the stack ends where a word can tell. -/
def Bounded : Allocation → List Request → Prop
  | _, [] => True
  | a, r :: rs =>
    0 ≤ r.type.size.toInt ∧ ((a.serve r).1.ranges ≠ [] → a.reach r.type < 2 ^ 63) ∧ Bounded (a.serve r).2 rs

instance decidableBounded : (a : Allocation) → (rs : List Request) → Decidable (Bounded a rs)
  | _, [] => isTrue trivial
  | a, r :: rs =>
    have := decidableBounded (a.serve r).2 rs
    inferInstanceAs (Decidable (_ ∧ _ ∧ _))

theorem Bounded.left (h : Bounded a (rs ++ more)) : Bounded a rs := by
  induction rs generalizing a with
  | nil => trivial
  | cons r rs ih => exact ⟨h.1, h.2.1, ih h.2.2⟩

theorem eight_or_sixteen (t : Ty) : max 8 t.align.toInt = 8 ∨ max 8 t.align.toInt = 16 := by
  rw [show (8 : Int) = (8 : Int64).toInt from rfl, ← toInt_max]
  rcases t.max_eight_align with ⟨-, h⟩ | ⟨-, h⟩ <;> rw [h]
  · exact .inl rfl
  · exact .inr rfl

theorem isAlignment_of_eight_or_sixteen (h : align.toInt = 8 ∨ align.toInt = 16) : IsAlignment align := by
  rcases h with h | h
  · rw [Int64.toInt_inj.mp (h.trans (show 8 = (8 : Int64).toInt from rfl))]
    decide
  · rw [Int64.toInt_inj.mp (h.trans (show 16 = (16 : Int64).toInt from rfl))]
    decide

/-- A word that was rounded up to eight or sixteen bytes is such a multiple. -/
theorem dvd_roundUp_of_eight_or_sixteen (h : align.toInt = 8 ∨ align.toInt = 16) (n : Nat) :
    align.toInt ∣ roundUp n align.toInt.toNat := by
  have hdvd := Int.natCast_dvd_natCast.mpr (dvd_roundUp (show 1 < align.toInt.toNat by omega) n)
  rwa [Int.toNat_of_nonneg (by omega)] at hdvd

/-! ### What a run of requests takes -/

/-- What lies between two states: the registers from one count to the other, and stack bytes behind each
other, aligned. -/
structure Served (a : Allocation) (ps : List Placement) (b : Allocation) : Prop where
  taken_le : ∀ c, a.taken c ≤ b.taken c
  numbers : ∀ c, ps.flatMap (·.numbers c) = List.range' (a.taken c) (b.taken c - a.taken c)
  offset_le : a.offset.toInt ≤ b.offset.toInt
  inside : ∀ p ∈ ps, ∀ r ∈ p.ranges, a.offset.toInt ≤ r.1 ∧ r.2 ≤ b.offset.toInt
  behind : (ps.flatMap (·.ranges)).Pairwise fun r s => r.2 ≤ s.1
  aligned : ∀ p ∈ ps, ∀ r ∈ p.ranges, max 8 p.type.align.toInt ∣ r.1
  biggest_le : a.biggestAlign.toInt ≤ b.biggestAlign.toInt
  biggest : ∀ p ∈ ps, p.ranges ≠ [] → max 8 p.type.align.toInt ≤ b.biggestAlign.toInt
  whole : ∀ p ∈ ps, p.Whole

theorem Served.refl (a : Allocation) : Served a [] a where
  taken_le _ := Nat.le_refl _
  numbers c := by rw [Nat.sub_self]; rfl
  offset_le := Int.le_refl _
  inside := nofun
  behind := .nil
  aligned := nofun
  biggest_le := Int.le_refl _
  biggest := nofun
  whole := nofun

theorem Served.trans (h : Served a ps b) (h' : Served b qs d) :
    Served a (ps ++ qs) d where
  taken_le c := Nat.le_trans (h.taken_le c) (h'.taken_le c)
  numbers c := by
    have hle := h.taken_le c
    have hle' := h'.taken_le c
    obtain ⟨m, hm⟩ := Nat.le.dest hle
    obtain ⟨n, hn⟩ := Nat.le.dest hle'
    rw [List.flatMap_append, h.numbers, h'.numbers, ← hn, ← hm, Nat.add_sub_cancel_left, Nat.add_sub_cancel_left,
      List.range'_append_1, Nat.add_assoc, Nat.add_sub_cancel_left]
  offset_le := Int.le_trans h.offset_le h'.offset_le
  inside p hp r hr := by
    have hle := h.offset_le
    have hle' := h'.offset_le
    rcases List.mem_append.mp hp with hp | hp
    · have := h.inside p hp r hr
      omega
    · have := h'.inside p hp r hr
      omega
  behind := by
    rw [List.flatMap_append]
    refine List.pairwise_append.mpr ⟨h.behind, h'.behind, fun r hr s hs => ?_⟩
    obtain ⟨p, hp, hr⟩ := List.mem_flatMap.mp hr
    obtain ⟨q, hq, hs⟩ := List.mem_flatMap.mp hs
    exact Int.le_trans (h.inside p hp r hr).2 (h'.inside q hq s hs).1
  aligned p hp := (List.mem_append.mp hp).elim (h.aligned p) (h'.aligned p)
  biggest_le := Int.le_trans h.biggest_le h'.biggest_le
  biggest p hp hr := (List.mem_append.mp hp).elim
    (fun hp => Int.le_trans (h.biggest p hp hr) h'.biggest_le) (fun hp => h'.biggest p hp hr)
  whole p hp := (List.mem_append.mp hp).elim (h.whole p) (h'.whole p)

/-- The state in which requests are served. -/
structure Ready (a : Allocation) : Prop extends InBounds a where
  biggest : a.biggestAlign.toInt = 8 ∨ a.biggestAlign.toInt = 16

theorem ready_fresh (reserved : Bool) : Ready (fresh reserved) := by
  cases reserved with
  | false => exact ⟨inBounds_arguments, .inl rfl⟩
  | true => exact ⟨inBounds_reserve, .inl rfl⟩

theorem served_takeStack (ha : a.Ready) (hsize : 0 ≤ t.size.toInt) (hreach : a.reach t < 2 ^ 63)
    (hoffset : b.offset = a.start t + alignUp t.size 8) (htaken : ∀ c, b.taken c = a.taken c)
    (hbiggest : b.biggestAlign = max a.biggestAlign (max 8 t.align)) (padding : Int64) :
    Served a [⟨t, [⟨.stack (a.start t) padding, none⟩]⟩] b ∧
      0 ≤ b.offset.toInt ∧ b.offset.toInt % 8 = 0 ∧ (b.biggestAlign.toInt = 8 ∨ b.biggestAlign.toInt = 16) := by
  have halign := eight_or_sixteen t
  have hmax : (max 8 t.align).toInt = max 8 t.align.toInt := toInt_max 8 t.align
  have hnonneg := ha.nonneg
  have hle := le_roundUp a.offset.toInt.toNat (max 8 t.align).toInt.toNat
  have hsize_le := le_roundUp t.size.toInt.toNat 8
  unfold reach at hreach
  have hstart : (a.start t).toInt = roundUp a.offset.toInt.toNat (max 8 t.align).toInt.toNat :=
    toInt_alignUp_eq_roundUp (isAlignment_max (by decide) t.isAlignment_align)
      (Int.toNat_of_nonneg hnonneg).symm (by omega)
  have hround : (alignUp t.size 8).toInt = roundUp t.size.toInt.toNat 8 :=
    toInt_alignUp_eq_roundUp (by decide) (Int.toNat_of_nonneg hsize).symm (show roundUp _ 8 < 2 ^ 63 by omega)
  have hend : b.offset.toInt = (a.start t).toInt + roundUp t.size.toInt.toNat 8 := by
    rw [hoffset, toInt_add_of_nonneg (by omega) (by omega) (by omega), hround]
  have hdvd : max 8 t.align.toInt ∣ (a.start t).toInt := by
    rw [hstart, ← hmax]
    exact dvd_roundUp_of_eight_or_sixteen (by rwa [hmax]) _
  have hbig : b.biggestAlign.toInt = max a.biggestAlign.toInt (max 8 t.align.toInt) := by
    rw [hbiggest, toInt_max, hmax]
  refine ⟨?_, by omega, ?_, ?_⟩
  · refine ⟨fun c => Nat.le_of_eq (htaken c).symm, fun c => ?_, by omega, ?_, ?_, ?_, by omega, ?_, ?_⟩
    · rw [htaken c, Nat.sub_self]
      rfl
    · simp only [List.mem_singleton, forall_eq, Placement.ranges, List.filterMap_cons, List.filterMap_nil]
      omega
    · simp [Placement.ranges]
    · simpa [Placement.ranges] using hdvd
    · simp only [List.mem_singleton, forall_eq]
      omega
    · simp only [List.mem_singleton, forall_eq]
      exact .stack _ _ rfl
  · have hmod := dvd_roundUp (show 1 < 8 by decide) t.size.toInt.toNat
    rcases halign with h | h <;> rw [h] at hdvd <;> omega
  · have := ha.biggest
    omega

theorem served_of_ranges (hranges : p.ranges = []) (hwhole : p.Whole) (htaken : ∀ c, a.taken c ≤ b.taken c)
    (hnumbers : ∀ c, p.numbers c = List.range' (a.taken c) (b.taken c - a.taken c))
    (hoffset : b.offset = a.offset) (hbig : b.biggestAlign = a.biggestAlign) : Served a [p] b := by
  have hnone : ∀ q ∈ [p], ∀ r, r ∉ q.ranges := by
    intro q hq r
    rw [List.mem_singleton.mp hq, hranges]
    exact List.not_mem_nil
  refine ⟨htaken, fun c => ?_, Int.le_of_eq (by rw [hoffset]), fun q hq r hr => absurd hr (hnone q hq r), ?_,
    fun q hq r hr => absurd hr (hnone q hq r), Int.le_of_eq (by rw [hbig]), fun q hq h => ?_, fun q hq => ?_⟩
  · rw [← hnumbers, List.flatMap_singleton]
  · rw [List.flatMap_singleton, hranges]
    exact .nil
  · exact absurd (List.eq_nil_iff_forall_not_mem.mpr (hnone q hq)) h
  · rw [List.mem_singleton.mp hq]
    exact hwhole

/-- **One more request takes the next registers, or stack bytes behind all that are taken.** -/
theorem served_serve (ha : a.Ready) (hsize : 0 ≤ r.type.size.toInt)
    (hreach : (a.serve r).1.ranges ≠ [] → a.reach r.type < 2 ^ 63) :
    Served a [(a.serve r).1] (a.serve r).2 ∧ (a.serve r).2.Ready ∧ (a.serve r).1.type = r.type := by
  cases r with
  | onStack t =>
    obtain ⟨hserved, hnonneg, hmod, hbig⟩ := served_takeStack (b := (a.addStack t).2) ha hsize
      (hreach (by simp [serve, addStack, takeStack, Placement.ranges])) rfl (fun c => by cases c <;> rfl) rfl
      (a.start t - a.offset)
    exact ⟨hserved, ⟨⟨ha.maxInt, ha.maxSse, ha.taken_le, hnonneg, hmod⟩, hbig⟩, rfl⟩
  | anywhere t =>
    obtain ⟨hmaxInt, hmaxSse⟩ := maxRegs_add ha.toInBounds t
    have hready : ∀ {n : Int64}, (a.add t).2.offset = n → 0 ≤ n.toInt → n.toInt % 8 = 0 →
        (∀ c, (a.add t).2.taken c ≤ c.capacity) →
        ((a.add t).2.biggestAlign.toInt = 8 ∨ (a.add t).2.biggestAlign.toInt = 16) → (a.add t).2.Ready :=
      fun hn hnonneg hmod htaken hbig => ⟨⟨hmaxInt.trans ha.maxInt, hmaxSse.trans ha.maxSse, htaken,
        by rw [hn]; exact hnonneg, by rw [hn]; exact hmod⟩, hbig⟩
    rcases add_eq ha.toInBounds t with ⟨cs, hwanted, hfits, hadd⟩ | ⟨-, ⟨hagg, hempty, hadd⟩ | ⟨-, hadd⟩⟩
    · -- in registers
      have htaken : ∀ c, (a.add t).2.taken c = a.taken c + c.inFile cs := fun c => by
        rw [hadd]; exact taken_foldl_take cs a c
      have hoffset : (a.add t).2.offset = a.offset := by rw [hadd]; exact offset_foldl_take cs a
      have hbig : (a.add t).2.biggestAlign = a.biggestAlign := by rw [hadd]; exact biggestAlign_foldl_take cs a
      have hplace : (a.add t).1 = ⟨t, a.registers t cs⟩ := by rw [hadd]
      refine ⟨?_, hready hoffset ha.nonneg ha.multiple (fun c => by rw [htaken c]; exact hfits c)
        (by rw [hbig]; exact ha.biggest), by rw [serve, hplace]; rfl⟩
      show Served a [(a.add t).1] (a.add t).2
      rw [hplace]
      refine served_of_ranges (ranges_registers a t cs) (whole_registers hwanted hsize)
        (fun c => by rw [htaken c]; omega) (fun c => ?_) hoffset hbig
      rw [htaken c, Nat.add_sub_cancel_left]
      exact numbers_registers hwanted
    · -- nowhere
      have htaken : ∀ c, (a.add t).2.taken c = a.taken c := fun c => by rw [hadd]; cases c <;> rfl
      have hoffset : (a.add t).2.offset = a.offset := by rw [hadd]
      have hbig : (a.add t).2.biggestAlign = a.biggestAlign := by rw [hadd]
      have hplace : (a.add t).1 = ⟨t, []⟩ := by rw [hadd]
      refine ⟨?_, hready hoffset ha.nonneg ha.multiple (fun c => by rw [htaken c]; exact ha.taken_le c)
        (by rw [hbig]; exact ha.biggest), by rw [serve, hplace]; rfl⟩
      show Served a [(a.add t).1] (a.add t).2
      rw [hplace]
      refine served_of_ranges rfl (.nowhere rfl hagg hempty) (fun c => Nat.le_of_eq (htaken c).symm)
        (fun c => ?_) hoffset hbig
      rw [htaken c, Nat.sub_self]
      rfl
    · -- on the stack
      have htaken : ∀ c, (a.add t).2.taken c = a.taken c := fun c => by rw [hadd]; cases c <;> rfl
      have hplace : (a.add t).1 = ⟨t, [⟨.stack (a.start t) (a.start t - a.offset), none⟩]⟩ := by rw [hadd]; rfl
      rw [serve, hplace] at hreach
      obtain ⟨hserved, hnonneg, hmod, hbig⟩ := served_takeStack (b := (a.add t).2) ha hsize
        (hreach (by simp [Placement.ranges])) (by rw [hadd]; rfl) htaken (by rw [hadd]; rfl) (a.start t - a.offset)
      rw [serve, hplace]
      exact ⟨hserved, hready rfl hnonneg hmod (fun c => by rw [htaken c]; exact ha.taken_le c) hbig, rfl⟩

/-- A run of requests takes registers and stack bytes in order. -/
theorem served_serveAll (ha : a.Ready) (h : a.Bounded rs) :
    Served a (a.serveAll rs).1 (a.serveAll rs).2 ∧ (a.serveAll rs).2.Ready ∧
      (a.serveAll rs).1.map (·.type) = rs.map (·.type) := by
  induction rs generalizing a with
  | nil => exact ⟨.refl a, ha, rfl⟩
  | cons r rs ih =>
    obtain ⟨hsize, hreach, hrest⟩ := h
    obtain ⟨hfirst, hready, htype⟩ := served_serve ha hsize hreach
    obtain ⟨hmore, hready', htypes⟩ := ih hready hrest
    refine ⟨hfirst.trans hmore, hready', ?_⟩
    rw [serveAll, List.map_cons, List.map_cons, htype, htypes]

/-! ### Giving registers back -/

/-- An aggregate that ends on the stack leaves the registers as they were. -/
theorem taken_add_of_ranges (ha : a.InBounds) (h : (a.add t).1.ranges ≠ []) (c : Eightbyte) :
    (a.add t).2.taken c = a.taken c := by
  rcases add_eq ha t with ⟨cs, -, -, hadd⟩ | ⟨-, ⟨-, -, hadd⟩ | ⟨-, hadd⟩⟩
  · rw [hadd] at h
    exact absurd (ranges_registers a t cs) h
  all_goals
    rw [hadd]
    cases c <;> rfl

/-! ### No place is given out twice -/

/-- No register and no byte of the stack is given out twice: `ps` are the placements and `a` the counts after
them, and `reserved` says whether the first integer register was kept for the address of a result. -/
structure Exclusive (reserved : Bool) (ps : List Placement) (a : Allocation) : Prop where
  intRegs : a.intRegs ≤ 6
  sseRegs : a.sseRegs ≤ 8
  ints : ((if reserved then [arguments.reserve.1] else []) ++ ps.flatMap (·.numbers .integer)).Nodup
  sses : (ps.flatMap (·.numbers .sse)).Nodup
  available : ∀ p ∈ ps, (∀ n ∈ p.numbers .integer, n < a.intRegs) ∧ ∀ n ∈ p.numbers .sse, n < a.sseRegs
  aligned : ∀ p ∈ ps, ∀ r ∈ p.ranges, max 8 p.type.align.toInt ∣ r.1
  inside : ∀ p ∈ ps, ∀ r ∈ p.ranges, 0 ≤ r.1 ∧ r.2 ≤ a.offset.toInt
  apart : (ps.flatMap (·.ranges)).Pairwise fun r s => r.2 ≤ s.1 ∨ s.2 ≤ r.1
  whole : ∀ p ∈ ps, p.Whole
  multiple : ∀ p ∈ ps, p.ranges ≠ [] → p.type.align.toInt ∣ a.finalize.offset.toInt
  reaches : ∀ p ∈ ps, ∀ r ∈ p.ranges, r.2 ≤ a.finalize.offset.toInt

theorem nodup_numbers (reserved : Bool) (h : Served (fresh reserved) ps a) :
    ((if reserved then [arguments.reserve.1] else []) ++ ps.flatMap (·.numbers .integer)).Nodup ∧
      (ps.flatMap (·.numbers .sse)).Nodup := by
  rw [h.numbers, h.numbers]
  refine ⟨?_, List.nodup_range'⟩
  cases reserved with
  | false => exact List.nodup_range'
  | true => exact List.nodup_cons.mpr ⟨fun h0 => absurd (List.mem_range'_1.mp h0).1 (by decide), List.nodup_range'⟩

theorem numbers_lt (h : Served a ps b) (hp : p ∈ ps) (c : Eightbyte) : ∀ n ∈ p.numbers c, n < b.taken c := by
  intro n hn
  have hmem : n ∈ ps.flatMap (·.numbers c) := List.mem_flatMap.mpr ⟨p, hp, hn⟩
  rw [h.numbers, List.mem_range'_1] at hmem
  omega

theorem align_dvd_biggest (h : t.align.toInt ≠ 0) (hbig : big = 8 ∨ big = 16)
    (hle : max 8 t.align.toInt ≤ big) : t.align.toInt ∣ big := by
  rcases t.isAlignment_align with ha | ha | ha | ha | ha | ha <;> rw [ha] at h hle ⊢
  · exact absurd rfl h
  all_goals rcases hbig with rfl | rfl <;> first | decide | exact absurd hle (by decide)

/-- **No place is given out twice.**  This holds of parameters whose sizes and whose area, rounded up at the
end, are numbers that a word can hold; a parameter of an aggregate type that ends on the stack has given back
every register it took on the way. -/
theorem serveAll_exclusive (reserved : Bool) (requests : List Request)
    (haligned : ∀ r ∈ requests, ∃ k : Nat, r.type.align.toInt = 2 ^ k)
    (hbounded : (fresh reserved).Bounded requests)
    (harea : roundUp ((fresh reserved).serveAll requests).2.offset.toInt.toNat
      ((fresh reserved).serveAll requests).2.biggestAlign.toInt.toNat < 2 ^ 63) :
    Exclusive reserved ((fresh reserved).serveAll requests).1 ((fresh reserved).serveAll requests).2 ∧
      ((fresh reserved).serveAll requests).1.map (·.type) = requests.map (·.type) ∧
      (∀ before after, requests = before ++ after →
        ((fresh reserved).serveAll before).2.intRegs ≤ 6 ∧ ((fresh reserved).serveAll before).2.sseRegs ≤ 8) ∧
      ∀ before t after, requests = before ++ .anywhere t :: after → t.isAggregate = true →
        let a := ((fresh reserved).serveAll before).2
        (a.add t).1.ranges ≠ [] → (a.add t).2.intRegs = a.intRegs ∧ (a.add t).2.sseRegs = a.sseRegs := by
  obtain ⟨hserved, hready, htypes⟩ := served_serveAll (ready_fresh reserved) hbounded
  refine ⟨?_, htypes, ?_, ?_⟩
  · have hzero : (fresh reserved).offset.toInt = 0 := by cases reserved <;> rfl
    have hfinal : ((fresh reserved).serveAll requests).2.finalize.offset.toInt = _ :=
      toInt_alignUp_eq_roundUp (isAlignment_of_eight_or_sixteen hready.biggest)
        (Int.toNat_of_nonneg hready.nonneg).symm harea
    obtain ⟨hints, hsses⟩ := nodup_numbers reserved hserved
    refine ⟨hready.taken_le .integer, hready.taken_le .sse, hints, hsses, fun p hp => ?_, hserved.aligned, ?_, ?_,
      hserved.whole, fun p hp hr => ?_, fun p hp r hr => ?_⟩
    · exact ⟨numbers_lt hserved hp .integer, numbers_lt hserved hp .sse⟩
    · intro p hp r hr
      rw [← hzero]
      exact hserved.inside p hp r hr
    · exact hserved.behind.imp fun h => .inl h
    · have htype : p.type ∈ requests.map (·.type) := htypes ▸ List.mem_map_of_mem hp
      obtain ⟨q, hq, hqtype⟩ := List.mem_map.mp htype
      obtain ⟨k, hk⟩ := haligned q hq
      rw [hqtype] at hk
      rw [hfinal]
      have hne : p.type.align.toInt ≠ 0 := by
        rw [hk]
        exact Int.ne_of_gt (Int.pow_pos (by decide))
      exact Int.dvd_trans (align_dvd_biggest hne hready.biggest (hserved.biggest p hp hr))
        (dvd_roundUp_of_eight_or_sixteen hready.biggest _)
    · rw [hfinal]
      have hinside := (hserved.inside p hp r hr).2
      have hle := le_roundUp ((fresh reserved).serveAll requests).2.offset.toInt.toNat
        ((fresh reserved).serveAll requests).2.biggestAlign.toInt.toNat
      omega
  · rintro before after rfl
    obtain ⟨-, hready, -⟩ := served_serveAll (ready_fresh reserved) hbounded.left
    exact ⟨hready.taken_le .integer, hready.taken_le .sse⟩
  · rintro before t after rfl - a hranges
    have ha := (served_serveAll (ready_fresh reserved) hbounded.left).2.1.toInBounds
    exact ⟨taken_add_of_ranges ha hranges .integer, taken_add_of_ranges ha hranges .sse⟩

/-- A pair of words, which takes two integer registers or none. -/
def wordPair : Ty := .struct "pair" [.long, .long] false

/-- With the first integer register reserved, the third pair finds only one left and goes to the stack; the
register it gives back is the next word's.  A long double is aligned behind it. -/
def crowdedRequests : List Request :=
  [.anywhere wordPair, .anywhere .double, .anywhere wordPair, .anywhere wordPair, .anywhere .long,
    .onStack .char, .anywhere .longDouble, .anywhere (.struct "empty" [] false)]

theorem crowdedRequests_aligned : ∀ r ∈ crowdedRequests, ∃ k : Nat, r.type.align.toInt = 2 ^ k := by
  have hall : ∀ r ∈ crowdedRequests, r.type.align.toInt ∈ [2 ^ 0, 2 ^ 3, 2 ^ 4] := by decide +kernel
  intro r hr
  have hmem := hall r hr
  simp only [List.mem_cons, List.not_mem_nil, or_false] at hmem
  rcases hmem with h | h | h
  · exact ⟨0, h⟩
  · exact ⟨3, h⟩
  · exact ⟨4, h⟩

theorem crowded_exclusive :
    ((fresh true).serveAll crowdedRequests).1.map (·.numbers .integer) = [[1, 2], [], [3, 4], [], [5], [], [], []] ∧
      ((fresh true).serveAll crowdedRequests).1.flatMap (·.ranges) = [(0, 16), (16, 24), (32, 48)] ∧
      Exclusive true ((fresh true).serveAll crowdedRequests).1 ((fresh true).serveAll crowdedRequests).2 :=
  ⟨by decide +kernel, by decide +kernel,
    (serveAll_exclusive true crowdedRequests crowdedRequests_aligned (by decide +kernel) (by decide +kernel)).1⟩

/-- An array that leaves eight bytes below the largest word, and a word behind it. -/
def hugeRequests : List Request := [.onStack (.array .char 9223372036854775800), .onStack .long]

/-- The word does not lie inside an area whose size has wrapped. -/
theorem hugeRequests_not_exclusive : (∀ r ∈ hugeRequests, r.type.align.toInt = 1 ∨ r.type.align.toInt = 8) ∧
    ¬ Exclusive false ((fresh false).serveAll hugeRequests).1 ((fresh false).serveAll hugeRequests).2 := by
  refine ⟨by decide +kernel, fun h => ?_⟩
  have hrange : (9223372036854775800, 9223372036854775808)
      ∈ (((fresh false).serveAll hugeRequests).1.getLast (by decide +kernel)).ranges := by decide +kernel
  exact absurd (h.inside _ (List.getLast_mem _) _ hrange).2 (by decide +kernel)

end Allocation

end Codegen
