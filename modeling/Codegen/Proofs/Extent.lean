/-
The layout of a type, counted exactly.

`Ty.extent` is the size of a type as a number that never wraps.  As long as it is a word, sizes and
offsets are what they should be: the size is the extent, and every scalar lies inside the type
that it is part of.

From that follows what the class of an eightbyte says about the bytes in it.  A vector class comes
from a float or a double that lies in the eightbyte, so at least four bytes of the type are
there; and if they are not all eight, nothing but one float is.
-/
import Codegen.Proofs.Placing

namespace Codegen

/-- What an alignment makes offsets multiples of; none asks for nothing. -/
def grain (a : Int64) : Nat := max 1 a.toInt.toNat

theorem grain_dvd_roundUp (n : Nat) (a : Int64) : grain a ∣ roundUp n a.toInt.toNat := by
  by_cases ha : 1 < a.toInt.toNat
  · rw [grain, Nat.max_eq_right (by omega)]
    exact dvd_roundUp ha n
  · rw [grain, Nat.max_eq_left (by omega)]
    exact Nat.one_dvd _

variable {t : Ty} {s : Ty.Scalar} {a b : Int64}

/-- Alignments are powers of two, so a smaller one divides a larger one. -/
theorem grain_dvd_grain (ha : IsAlignment a) (hb : IsAlignment b) (h : a ≤ b) : grain a ∣ grain b := by
  revert h
  rcases ha with rfl | rfl | rfl | rfl | rfl | rfl <;>
    rcases hb with rfl | rfl | rfl | rfl | rfl | rfl <;> decide

namespace Ty

/-! ### Sizes -/

mutual

/-- The size of a type in bytes, however large. -/
def extent : Ty → Nat
  | .missing => 0
  | .void => 1
  | .int width _ => width.bytes.toInt.toNat
  | .float kind => kind.bytes.toInt.toNat
  | .pointer _ => 8
  | .func _ _ _ => 8
  | .array element length => length.toInt.toNat * element.extent
  | .struct name members packed =>
    roundUp (endExtent packed members 0) (align (.struct name members packed)).toInt.toNat
  | .union name members => roundUp (largestExtent members 0) (align (.union name members)).toInt.toNat

/-- The end of the last member, the first of them placed at or after `start`. -/
def endExtent (packed : Bool) : List Ty → Nat → Nat
  | [], start => start
  | m :: ms, start =>
    endExtent packed ms (roundUp start (memberAlign packed m).toInt.toNat + m.extent)

/-- The largest of `least` and the members' extents. -/
def largestExtent : List Ty → Nat → Nat
  | [], least => least
  | m :: ms, least => largestExtent ms (max least m.extent)

end

theorem isAlignment_memberAlign (packed : Bool) (m : Ty) : IsAlignment (memberAlign packed m) := by
  unfold memberAlign
  by_cases hpacked : packed = true
  · rw [if_pos hpacked]
    decide
  · rw [if_neg hpacked]
    exact isAlignment_align m

theorem le_endExtent (packed : Bool) (ms : List Ty) (start : Nat) : start ≤ endExtent packed ms start := by
  induction ms generalizing start with
  | nil => exact Nat.le_of_eq (by rw [endExtent])
  | cons m ms ih =>
    rw [endExtent]
    have hround := le_roundUp start (memberAlign packed m).toInt.toNat
    have hrest := ih (roundUp start (memberAlign packed m).toInt.toNat + m.extent)
    omega

theorem le_largestExtent (ms : List Ty) (least : Nat) : least ≤ largestExtent ms least := by
  induction ms generalizing least with
  | nil => exact Nat.le_of_eq (by rw [largestExtent])
  | cons m ms ih =>
    rw [largestExtent]
    have hrest := ih (max least m.extent)
    omega

theorem toInt_add_of_lt {x y : Int64} {j k : Nat} (hx : x.toInt = j) (hy : y.toInt = k) (hfit : j + k < 2 ^ 63) :
    (x + y).toInt = (j + k : Nat) := by
  rw [toInt_add_of_nonneg (by omega) (by omega) (by omega), hx, hy, Int.natCast_add]

theorem toInt_mul_of_lt {x y : Int64} {j k : Nat} (hx : x.toInt = j) (hy : y.toInt = k)
    (hfit : j * k < 2 ^ 63) : (x * y).toInt = (j * k : Nat) := by
  rw [Int64.toInt_mul, hx, hy]
  exact Int.bmod_eq_of_le_mul_two (by omega) (by omega)

mutual

/-- **A size that is a word is exact.** -/
theorem toInt_size : (t : Ty) → t.extent < 2 ^ 63 → t.size.toInt = t.extent
  | .missing, _ => rfl
  | .void, _ => rfl
  | .int w _, _ => by
    rw [size, extent]
    cases w <;> rfl
  | .float k, _ => by
    rw [size, extent]
    cases k <;> rfl
  | .pointer _, _ => rfl
  | .func _ _ _, _ => rfl
  | .array element length, h => by
    rw [extent] at h
    rw [size, extent]
    by_cases hneg : length < 0
    · have hlt : length.toInt < 0 := Int64.lt_iff_toInt_lt.mp hneg
      rw [if_pos hneg, show length.toInt.toNat = 0 by omega, Nat.zero_mul]
      rfl
    · have hge : 0 ≤ length.toInt := Int.not_lt.mp fun hlt => hneg (Int64.lt_iff_toInt_lt.mpr hlt)
      rw [if_neg hneg]
      by_cases hzero : length.toInt.toNat = 0
      · have : length = 0 := Int64.toInt_inj.mp (show length.toInt = 0 by omega)
        subst this
        simp
      · have hle : element.extent ≤ length.toInt.toNat * element.extent :=
          Nat.le_mul_of_pos_left _ (Nat.pos_of_ne_zero hzero)
        exact toInt_mul_of_lt (by omega) (toInt_size element (by omega)) h
  | .struct name members packed, h => by
    rw [extent] at h
    rw [size, extent]
    have hle := le_roundUp (endExtent packed members 0) (align (.struct name members packed)).toInt.toNat
    exact toInt_alignUp_eq_roundUp (isAlignment_align _)
      (toInt_endOffset packed members 0 0 rfl (by omega)) h
  | .union name members, h => by
    rw [extent] at h
    rw [size, extent]
    have hle := le_roundUp (largestExtent members 0) (align (.union name members)).toInt.toNat
    exact toInt_alignUp_eq_roundUp (isAlignment_align _) (toInt_sizeAll members 0 0 rfl (by omega)) h

theorem toInt_endOffset (packed : Bool) : (ms : List Ty) → (start : Int64) → (k : Nat) →
    start.toInt = k → endExtent packed ms k < 2 ^ 63 →
    (endOffset packed ms start).toInt = endExtent packed ms k
  | [], start, k, hstart, _ => by
    rw [endOffset, endExtent]
    exact hstart
  | m :: ms, start, k, hstart, h => by
    rw [endExtent] at h
    rw [endOffset, endExtent]
    have hend := le_endExtent packed ms (roundUp k (memberAlign packed m).toInt.toNat + m.extent)
    have hround := toInt_alignUp_eq_roundUp (isAlignment_memberAlign packed m) hstart (by omega)
    exact toInt_endOffset packed ms _ _ (toInt_add_of_lt hround (toInt_size m (by omega)) (by omega)) h

theorem toInt_sizeAll : (ms : List Ty) → (least : Int64) → (k : Nat) → least.toInt = k →
    largestExtent ms k < 2 ^ 63 → (sizeAll ms least).toInt = largestExtent ms k
  | [], least, k, hleast, _ => by
    rw [sizeAll, largestExtent]
    exact hleast
  | m :: ms, least, k, hleast, h => by
    rw [largestExtent] at h
    rw [sizeAll, largestExtent]
    have hend := le_largestExtent ms (max k m.extent)
    have hsize := toInt_size m (by omega)
    refine toInt_sizeAll ms _ _ ?_ h
    rw [toInt_max, hleast, hsize]
    omega

end

/-! ### Alignments -/

theorem le_alignAll (ms : List Ty) (least : Int64) :
    least ≤ alignAll ms least ∧ ∀ m ∈ ms, m.align ≤ alignAll ms least := by
  induction ms generalizing least with
  | nil => exact ⟨by rw [alignAll]; exact Int64.le_refl _, fun m hm => nomatch hm⟩
  | cons m ms ih =>
    obtain ⟨hleast, hms⟩ := ih (max least m.align)
    rw [alignAll]
    have hmax := toInt_max least m.align
    rw [Int64.le_iff_toInt_le] at hleast
    refine ⟨Int64.le_iff_toInt_le.mpr (by omega), fun m' hm' => ?_⟩
    rcases List.mem_cons.mp hm' with rfl | hm'
    · exact Int64.le_iff_toInt_le.mpr (by omega)
    · exact hms m' hm'

variable {ms : List Ty} {m : Ty}

/-- What is aligned for a list of members is aligned for each. -/
theorem grain_dvd_alignAll (hm : m ∈ ms) : grain m.align ∣ grain (alignAll ms 1) :=
  grain_dvd_grain (isAlignment_align m) (isAlignment_alignAll ms 1 (by decide))
    ((le_alignAll ms 1).2 m hm)

/-- **A size is a multiple of the alignment.** -/
theorem grain_dvd_extent (t : Ty) : grain t.align ∣ t.extent := by
  cases t with
  | missing => exact Nat.one_dvd _
  | void => exact Nat.one_dvd _
  | int w =>
    rw [align, extent]
    cases w <;> decide
  | float k =>
    cases k <;> decide
  | pointer => exact Nat.dvd_refl 8
  | func => exact Nat.dvd_refl 8
  | array element =>
    exact Nat.dvd_mul_left_of_dvd (grain_dvd_extent element) _
  | struct =>
    exact grain_dvd_roundUp _ _
  | union =>
    exact grain_dvd_roundUp _ _

/-! ### Scalars -/

mutual

/-- Does `p` hold of a type and of everything it is laid out from? -/
def throughout (p : Ty → Bool) : Ty → Bool
  | .array element length => p (.array element length) && element.throughout p
  | .struct name members packed => p (.struct name members packed) && throughoutAll p members
  | .union name members => p (.union name members) && throughoutAll p members
  | t => p t

def throughoutAll (p : Ty → Bool) : List Ty → Bool
  | [] => true
  | m :: ms => m.throughout p && throughoutAll p ms

end

section

variable {p : Ty → Bool} {name : String} {length : Int64} {packed : Bool}

theorem throughout_array (h : (Ty.array m length).throughout p = true) : m.throughout p = true := by
  exact (Bool.and_eq_true_iff.mp h).2

theorem throughout_struct (h : (Ty.struct name ms packed).throughout p = true) :
    p (.struct name ms packed) = true ∧ throughoutAll p ms = true := by
  exact Bool.and_eq_true_iff.mp h

theorem throughout_union (h : (Ty.union name ms).throughout p = true) :
    p (.union name ms) = true ∧ throughoutAll p ms = true := by
  exact Bool.and_eq_true_iff.mp h

theorem throughoutAll_cons (h : throughoutAll p (m :: ms) = true) :
    m.throughout p = true ∧ throughoutAll p ms = true := by
  exact Bool.and_eq_true_iff.mp h

end

def isUnpacked : Ty → Bool
  | .struct _ _ packed => !packed
  | _ => true

def isUnion : Ty → Bool
  | .union _ _ => true
  | _ => false

/-- No component of the type is missing. -/
def complete (t : Ty) : Bool := t.throughout (!·.isMissing)

/-- The type contains no packed struct. -/
def unpacked (t : Ty) : Bool := t.throughout isUnpacked

/-- The type contains no union. -/
def unionFree (t : Ty) : Bool := t.throughout (!·.isUnion)

/-- A scalar lies `k` bytes or more from the start of a type placed at `base`, and ends within `n`
bytes from there. -/
def Scalar.Lies (base k n : Nat) (s : Scalar) : Prop :=
  ∃ j, k ≤ j ∧ s.offset.toInt = (base + j : Nat) ∧ j + s.type.extent ≤ n

/-- Scalars that lie in a part of a type.  They are proper if the type is `full`, aligned if it is
`straight`, and one after the other if it is `simple`. -/
structure Laid (full straight simple : Prop) (base k n : Nat) (ss : List Scalar) : Prop where
  lies : ∀ s ∈ ss, s.Lies base k n
  proper : full → ∀ s ∈ ss, 0 < s.type.extent ∧ 0 < s.type.align.toInt
  aligned : straight → ∀ s ∈ ss, grain s.type.align ∣ s.offset.toInt.toNat
  apart : simple → ss.Pairwise fun s r => s.offset.toInt + (s.type.extent : Int) ≤ r.offset.toInt

namespace Laid

variable {full straight simple full' straight' simple' : Prop} {base d k k' n n' : Nat} {ss rs : List Scalar}
  {part : Nat → List Ty.Scalar}

theorem nil : Laid full straight simple base k n [] :=
  ⟨by simp, by simp, by simp, fun _ => .nil⟩

theorem single {offset : Int64} (hoffset : offset.toInt = base)
    (hfull : full → 0 < t.extent ∧ 0 < t.align.toInt) :
    Laid full (straight ∧ grain t.align ∣ base) simple base 0 t.extent [⟨t, offset⟩] where
  lies s hs := by
    obtain rfl := List.mem_singleton.mp hs
    exact ⟨0, Nat.le_refl 0, hoffset, by simp⟩
  proper h s hs := by
    obtain rfl := List.mem_singleton.mp hs
    exact hfull h
  aligned h s hs := by
    obtain rfl := List.mem_singleton.mp hs
    rw [hoffset]
    exact h.2
  apart _ := List.pairwise_singleton _ _

theorem mono (h : Laid full straight simple base k n ss) (hfull : full' → full)
    (hstraight : straight' → straight) (hsimple : simple' → simple) (hk : k' ≤ k) (hn : n ≤ n') :
    Laid full' straight' simple' base k' n' ss where
  lies s hs := by
    obtain ⟨j, hj, hoffset, hend⟩ := h.lies s hs
    exact ⟨j, by omega, hoffset, by omega⟩
  proper hf := h.proper (hfull hf)
  aligned hs := h.aligned (hstraight hs)
  apart hs := h.apart (hsimple hs)

theorem of_part (h : Laid full straight simple (base + d) 0 n ss) (hn : d + n ≤ n') :
    Laid full straight simple base d n' ss where
  lies s hs := by
    obtain ⟨j, -, hoffset, hend⟩ := h.lies s hs
    exact ⟨d + j, by omega, by rw [hoffset, Nat.add_assoc], by omega⟩
  proper := h.proper
  aligned := h.aligned
  apart := h.apart

/-- Two parts; in a simple type the second comes after the first. -/
theorem append (h : Laid full straight simple base k n ss)
    (h' : Laid full straight simple base k' n' rs) (hk : k ≤ k') (hn : n ≤ n')
    (hsimple : simple → n ≤ k') : Laid full straight simple base k n' (ss ++ rs) where
  lies := List.forall_mem_append.mpr
    ⟨(h.mono id id id (Nat.le_refl _) hn).lies, (h'.mono id id id hk (Nat.le_refl _)).lies⟩
  proper hf := List.forall_mem_append.mpr ⟨h.proper hf, h'.proper hf⟩
  aligned hs := List.forall_mem_append.mpr ⟨h.aligned hs, h'.aligned hs⟩
  apart hs := by
    refine List.pairwise_append.mpr ⟨h.apart hs, h'.apart hs, fun s hmem r hmem' => ?_⟩
    obtain ⟨j, -, hj, hend⟩ := h.lies s hmem
    obtain ⟨j', hj', hstart, -⟩ := h'.lies r hmem'
    have := hsimple hs
    omega

/-- Equal parts, one after the other. -/
theorem flatMap_range (count : Nat) (h : ∀ i < count, Laid full straight simple (base + i * n) 0 n (part i)) :
    Laid full straight simple base 0 (count * n) ((List.range count).flatMap part) := by
  induction count with
  | zero => exact nil
  | succ count ih =>
    have hlast := (h count (Nat.lt_succ_self _)).of_part (Nat.le_of_eq (Nat.succ_mul count n).symm)
    rw [List.range_succ, List.flatMap_append, List.flatMap_singleton]
    exact (ih fun i hi => h i (Nat.lt_succ_of_lt hi)).append hlast (Nat.zero_le _)
      (Nat.mul_le_mul_right _ (Nat.le_succ _)) fun _ => Nat.le_refl _

end Laid

mutual

/-- **How the scalars of a type are laid out.** -/
theorem laid_scalarsAt : (t : Ty) → (base : Int64) → (b : Nat) → base.toInt = b →
    b + t.extent < 2 ^ 63 →
    Laid (t.complete = true) (t.unpacked = true ∧ grain t.align ∣ b) (t.unionFree = true) b 0 t.extent
      (t.scalarsAt base)
  | .missing, _, _, hbase, _ => by
    rw [scalarsAt]
    exact .single hbase fun h => nomatch h
  | .void, _, _, hbase, _ => by
    rw [scalarsAt]
    exact .single hbase fun _ => by decide
  | .int w _, _, _, hbase, _ => by
    rw [scalarsAt]
    exact .single hbase fun _ => by rw [extent, align]; cases w <;> decide
  | .float k, _, _, hbase, _ => by
    rw [scalarsAt]
    exact .single hbase fun _ => by rw [extent, align]; cases k <;> decide
  | .pointer _, _, _, hbase, _ | .func _ _ _, _, _, hbase, _ => by
    rw [scalarsAt]
    exact .single hbase fun _ => by rw [extent, align]; decide
  | .array element length, base, b, hbase, h => by
    rw [extent] at h ⊢
    rw [scalarsAt]
    refine Laid.flatMap_range _ fun i hi => ?_
    have hlength := length.toInt_lt
    -- the elements up to this one end within the array
    have hend : i * element.extent + element.extent ≤ length.toInt.toNat * element.extent := by
      rw [← Nat.succ_mul]
      exact Nat.mul_le_mul_right _ hi
    have hoffset : (Int64.ofNat i * element.size).toInt = (i * element.extent : Nat) :=
      toInt_mul_of_lt (Int64.toInt_ofNat_of_lt (by omega)) (toInt_size element (by omega)) (by omega)
    have hplace := toInt_add_of_lt hbase hoffset (by omega)
    refine (laid_scalarsAt element _ _ hplace (by omega)).mono ?_ ?_ ?_ (Nat.le_refl _) (Nat.le_refl _)
    · exact throughout_array
    · exact fun ⟨hall, hb⟩ => ⟨throughout_array hall,
        Nat.dvd_add hb (Nat.dvd_mul_left_of_dvd (grain_dvd_extent element) i)⟩
    · exact throughout_array
  | .struct name members packed, base, b, hbase, h => by
    rw [extent] at h ⊢
    rw [scalarsAt]
    have hle := le_roundUp (endExtent packed members 0) (align (.struct name members packed)).toInt.toNat
    refine (laid_memberScalars packed members base 0 b 0 hbase rfl (by omega)).mono ?_ ?_ ?_
      (Nat.le_refl _) hle
    · exact fun hall => (throughout_struct hall).2
    · rintro ⟨hall, hb⟩
      obtain ⟨hpacked, hall⟩ := throughout_struct hall
      obtain rfl : packed = false := by simpa [isUnpacked] using hpacked
      exact ⟨rfl, hall, fun m hm => Nat.dvd_trans (grain_dvd_alignAll hm) hb⟩
    · exact fun hall => (throughout_struct hall).2
  | .union name members, base, b, hbase, h => by
    rw [extent] at h ⊢
    rw [scalarsAt]
    have hle := le_roundUp (largestExtent members 0) (align (.union name members)).toInt.toNat
    refine (laid_overlaidScalars members base b 0 hbase (by omega)).mono ?_ ?_ ?_ (Nat.le_refl _) hle
    · exact fun hall => (throughout_union hall).2
    · exact fun ⟨hall, hb⟩ => ⟨(throughout_union hall).2,
        fun m hm => Nat.dvd_trans (grain_dvd_alignAll hm) hb⟩
    · exact fun hall => nomatch (throughout_union hall).1

theorem laid_memberScalars (packed : Bool) : (ms : List Ty) → (base start : Int64) →
    (b k : Nat) → base.toInt = b → start.toInt = k → b + endExtent packed ms k < 2 ^ 63 →
    Laid (throughoutAll (!·.isMissing) ms = true)
      (packed = false ∧ throughoutAll isUnpacked ms = true ∧ ∀ m ∈ ms, grain m.align ∣ b)
      (throughoutAll (!·.isUnion) ms = true) b k (endExtent packed ms k)
      (memberScalars packed ms base start)
  | [], _, _, _, _, _, _, _ => by
    rw [memberScalars]
    exact .nil
  | m :: ms, base, start, b, k, hbase, hstart, h => by
    rw [endExtent] at h ⊢
    rw [memberScalars]
    have hstep := le_roundUp k (memberAlign packed m).toInt.toNat
    have hend := le_endExtent packed ms (roundUp k (memberAlign packed m).toInt.toNat + m.extent)
    have hround := toInt_alignUp_eq_roundUp (isAlignment_memberAlign packed m) hstart (by omega)
    have hplace := toInt_add_of_lt hbase hround (by omega)
    have hnext := toInt_add_of_lt hround (toInt_size m (by omega)) (by omega)
    have hfirst := (laid_scalarsAt m _ _ hplace (by omega)).of_part (Nat.le_refl _)
    have hrest := laid_memberScalars packed ms base _ b _ hbase hnext h
    refine Laid.append (hfirst.mono ?_ ?_ ?_ hstep (Nat.le_refl _))
      (hrest.mono ?_ ?_ ?_ (Nat.le_refl _) (Nat.le_refl _)) (by omega) hend fun _ => Nat.le_refl _
    · exact fun hall => (throughoutAll_cons hall).1
    · rintro ⟨rfl, hall, hb⟩
      exact ⟨(throughoutAll_cons hall).1,
        Nat.dvd_add (hb m List.mem_cons_self) (grain_dvd_roundUp k m.align)⟩
    · exact fun hall => (throughoutAll_cons hall).1
    · exact fun hall => (throughoutAll_cons hall).2
    · exact fun ⟨hpacked, hall, hb⟩ => ⟨hpacked, (throughoutAll_cons hall).2,
        fun m' hm' => hb m' (List.mem_cons_of_mem _ hm')⟩
    · exact fun hall => (throughoutAll_cons hall).2

theorem laid_overlaidScalars : (ms : List Ty) → (base : Int64) → (b least : Nat) →
    base.toInt = b → b + largestExtent ms least < 2 ^ 63 →
    Laid (throughoutAll (!·.isMissing) ms = true)
      (throughoutAll isUnpacked ms = true ∧ ∀ m ∈ ms, grain m.align ∣ b) False b 0
      (largestExtent ms least) (overlaidScalars ms base)
  | [], _, _, _, _, _ => by
    rw [overlaidScalars]
    exact .nil
  | m :: ms, base, b, least, hbase, h => by
    rw [largestExtent] at h ⊢
    rw [overlaidScalars]
    have hend := le_largestExtent ms (max least m.extent)
    have hfirst := laid_scalarsAt m base b hbase (by omega)
    have hrest := laid_overlaidScalars ms base b _ hbase h
    refine Laid.append (hfirst.mono ?_ ?_ False.elim (Nat.le_refl _) (Nat.le_refl _))
      (hrest.mono ?_ ?_ id (Nat.le_refl _) (Nat.le_refl _)) (Nat.le_refl _) (by omega) False.elim
    · exact fun hall => (throughoutAll_cons hall).1
    · exact fun ⟨hall, hb⟩ => ⟨(throughoutAll_cons hall).1, hb m List.mem_cons_self⟩
    · exact fun hall => (throughoutAll_cons hall).2
    · exact fun ⟨hall, hb⟩ => ⟨(throughoutAll_cons hall).2,
        fun m' hm' => hb m' (List.mem_cons_of_mem _ hm')⟩

end

/-- The scalars of a type whose size is a word. -/
theorem laid_scalars (h : t.extent < 2 ^ 63) :
    Laid (t.complete = true) (t.unpacked = true) (t.unionFree = true) 0 0 t.extent t.scalars :=
  (laid_scalarsAt t 0 0 rfl (by omega)).mono id (fun hall => ⟨hall, Nat.dvd_zero _⟩) id (Nat.le_refl _)
    (Nat.le_refl _)

/-- Every scalar of a type whose size is a word starts and ends inside it. -/
theorem scalar_inside (h : t.extent < 2 ^ 63) (hs : s ∈ t.scalars) :
    0 ≤ s.offset.toInt ∧ s.offset.toInt + s.type.extent ≤ t.size.toInt := by
  obtain ⟨j, -, hoffset, hend⟩ := (laid_scalars h).lies s hs
  have hsize := toInt_size t h
  omega

/-- The size of such a scalar is exact, and its end is a word. -/
theorem toInt_size_of_mem (h : t.extent < 2 ^ 63) (hs : s ∈ t.scalars) :
    s.type.size.toInt = s.type.extent ∧ s.offset.toInt + s.type.extent < 2 ^ 63 := by
  have hinside := scalar_inside h hs
  have hlt := t.size.toInt_lt
  exact ⟨toInt_size s.type (by omega), by omega⟩

end Ty

/-! ### Classes -/

namespace Eightbyte

/-- The eightbyte that a scalar starts in. -/
def indexOf (s : Ty.Scalar) : Nat := (s.offset / 8).toInt.toNat

theorem indexOf_eq (h : 0 ≤ s.offset.toInt) : indexOf s = s.offset.toInt.toNat / 8 := by
  rw [indexOf, toInt_div_eight h]
  omega

/-- What the class of an eightbyte says about the scalars that were taken into account. -/
def Describes (scalars : List Ty.Scalar) (j : Nat) : Eightbyte → Prop
  | .none => ∀ s ∈ scalars, s.type.size ≠ 0 → indexOf s ≠ j
  | .integer => ∃ s ∈ scalars, s.type.size ≠ 0 ∧ s.type.isSse = false ∧ indexOf s = j
  | .sse => (∃ s ∈ scalars, s.type.isSse = true ∧ indexOf s = j) ∧
    ∀ s ∈ scalars, s.type.size ≠ 0 → indexOf s = j → s.type.isSse = true
  | .memory => False

variable {scalars : List Ty.Scalar} {j : Nat} {c : Eightbyte} {cs classes : List Eightbyte}

/-- A scalar of another eightbyte, or without bytes, says nothing. -/
theorem Describes.skip (h : Describes scalars j c) (hs : s.type.size ≠ 0 → indexOf s ≠ j) :
    Describes (scalars ++ [s]) j c := by
  have hall : ∀ {P : Ty.Scalar → Prop}, (∀ r ∈ scalars, r.type.size ≠ 0 → indexOf r = j → P r) →
      ∀ r ∈ scalars ++ [s], r.type.size ≠ 0 → indexOf r = j → P r := by
    intro P hP r hr hsize hindex
    rcases List.mem_append.mp hr with hr | hr
    · exact hP r hr hsize hindex
    · obtain rfl := List.mem_singleton.mp hr
      exact absurd hindex (hs hsize)
  cases c with
  | none => exact fun r hr hsize hindex => hall (P := fun _ => False) h r hr hsize hindex
  | integer =>
    obtain ⟨r, hr, hinteger⟩ := h
    exact ⟨r, List.mem_append_left _ hr, hinteger⟩
  | sse =>
    obtain ⟨⟨r, hr, hsse, hindex⟩, hrest⟩ := h
    exact ⟨⟨r, List.mem_append_left _ hr, hsse, hindex⟩, hall hrest⟩
  | memory => exact h.elim

/-- A scalar of the eightbyte is joined to what was known. -/
theorem Describes.join (h : Describes scalars j c) (hsize : s.type.size ≠ 0) (hs : indexOf s = j) :
    Describes (scalars ++ [s]) j (Eightbyte.join c s.type) := by
  by_cases hinteger : c = .integer
  · subst hinteger
    obtain ⟨r, hr, hinteger⟩ := h
    exact ⟨r, List.mem_append_left _ hr, hinteger⟩
  · rw [Eightbyte.join, if_neg hinteger]
    by_cases hsse : s.type.isSse = true
    · rw [if_pos hsse]
      refine ⟨⟨s, by simp, hsse, hs⟩, fun r hr hsize hindex => ?_⟩
      rcases List.mem_append.mp hr with hr | hr
      · cases c with
        | none => exact absurd hindex (h r hr hsize)
        | integer => exact absurd rfl hinteger
        | sse => exact h.2 r hr hsize hindex
        | memory => exact h.elim
      · rw [List.mem_singleton.mp hr]
        exact hsse
    · rw [if_neg hsse]
      exact ⟨s, by simp, hsize, Bool.not_eq_true _ ▸ hsse, hs⟩

theorem describes_addScalar (h : ∀ c, classes[j]? = some c → Describes scalars j c) :
    ∀ c, (addScalar classes s)[j]? = some c → Describes (scalars ++ [s]) j c := by
  intro c hc
  unfold addScalar at hc
  by_cases hsize : s.type.size = 0
  · rw [if_pos hsize] at hc
    exact (h c hc).skip fun hne => absurd hsize hne
  · rw [if_neg hsize] at hc
    by_cases hindex : indexOf s = j
    · rw [show (s.offset / 8).toInt.toNat = j from hindex, List.getElem?_modify_eq] at hc
      obtain ⟨old, hold, rfl⟩ := Option.map_eq_some_iff.mp hc
      exact (h old hold).join hsize hindex
    · rw [List.getElem?_modify_ne _ _ (show (s.offset / 8).toInt.toNat ≠ j from hindex)] at hc
      exact (h c hc).skip fun _ => hindex

theorem describes_foldl (scalars rest : List Ty.Scalar)
    (h : ∀ c, classes[j]? = some c → Describes scalars j c) :
    ∀ c, (rest.foldl addScalar classes)[j]? = some c → Describes (scalars ++ rest) j c := by
  induction rest generalizing scalars classes with
  | nil => simpa using h
  | cons s rest ih =>
    intro c hc
    have := ih _ (describes_addScalar h) c hc
    rwa [List.append_assoc] at this

/-- What makes a type travel in memory. -/
theorem classify_eq_none :
    classify t = Option.none ↔ t.size > 16 ∨ t.size = 0 ∨ ∃ s ∈ t.scalars, forcesMemory s = true := by
  rw [classify]
  by_cases hsize : (decide (t.size > 16) || t.size == 0) = true
  · rw [if_pos hsize]
    simp only [Bool.or_eq_true, decide_eq_true_eq, beq_iff_eq] at hsize
    exact iff_of_true rfl (hsize.imp_right .inl)
  · rw [if_neg hsize]
    simp only [Bool.or_eq_true, decide_eq_true_eq, beq_iff_eq, not_or] at hsize
    by_cases hmemory : t.scalars.any forcesMemory = true
    · rw [if_pos hmemory]
      exact iff_of_true rfl (.inr (.inr (List.any_eq_true.mp hmemory)))
    · rw [if_neg hmemory]
      refine iff_of_false (Option.some_ne_none _) ?_
      rintro (h | h | h)
      · exact hsize.1 h
      · exact hsize.2 h
      · exact hmemory (List.any_eq_true.mpr h)

theorem forcesMemory_of_classify (h : classify t = some cs) : ∀ s ∈ t.scalars, forcesMemory s = false := by
  intro s hs
  by_contra hforces
  rw [classify_eq_none.mpr (.inr (.inr ⟨s, hs, by simpa using hforces⟩))] at h
  cases h

/-- **What the class of an eightbyte says about the scalars in it.** -/
theorem describes_of_classify (h : classify t = some cs) (hj : cs[j]? = some c) :
    ∃ raw, settle raw = c ∧ Describes t.scalars j raw := by
  simp only [classify] at h
  split at h
  · cases h
  · split at h
    · cases h
    · obtain rfl := Option.some.inj h
      rw [List.getElem?_map, Option.map_eq_some_iff] at hj
      obtain ⟨raw, hraw, hsettle⟩ := hj
      refine ⟨raw, hsettle, describes_foldl [] t.scalars (fun c hc => ?_) raw hraw⟩
      rw [List.getElem?_replicate] at hc
      split at hc
      · obtain rfl := Option.some.inj hc
        exact fun s hs => absurd hs List.not_mem_nil
      · cases hc

/-- An eightbyte of vector class holds a float or a double and nothing else. -/
theorem describes_sse (h : classify t = some cs) (hj : cs[j]? = some .sse) : Describes t.scalars j .sse := by
  obtain ⟨raw, hsettle, hdescribes⟩ := describes_of_classify h hj
  obtain rfl : raw = .sse := by
    cases raw <;> first | rfl | cases hsettle
  exact hdescribes

/-- A scalar keeps the aggregate around it in memory if it is of extended precision, misaligned, or
across two eightbytes. -/
theorem forcesMemory_iff (hoffset : 0 ≤ s.offset.toInt) (hsize : 0 < s.type.size.toInt)
    (hfit : s.offset.toInt + s.type.size.toInt < 2 ^ 63) :
    forcesMemory s = true ↔ s.type.isLongDouble = true ∨ ¬ s.type.align.toInt ∣ s.offset.toInt ∨
      s.offset.toInt / 8 ≠ (s.offset.toInt + s.type.size.toInt - 1) / 8 := by
  have hne : s.type.size ≠ 0 := fun h => by
    rw [h] at hsize
    cases hsize
  have hsum := toInt_add_of_nonneg hoffset (Int.le_of_lt hsize) hfit
  have hlast : (s.offset + s.type.size - 1).toInt = s.offset.toInt + s.type.size.toInt - 1 := by
    rw [toInt_sub_of_le (by decide) (show (1 : Int) ≤ _ by omega), hsum]
    rfl
  have hmod : s.offset % s.type.align = 0 ↔ s.type.align.toInt ∣ s.offset.toInt := by
    rw [← Int64.toInt_inj, Int64.toInt_mod, Int.tmod_eq_emod_of_nonneg hoffset]
    exact Int.dvd_iff_emod_eq_zero.symm
  have hdiv : s.offset / 8 = (s.offset + s.type.size - 1) / 8 ↔
      s.offset.toInt / 8 = (s.offset.toInt + s.type.size.toInt - 1) / 8 := by
    rw [← Int64.toInt_inj, toInt_div_eight hoffset, toInt_div_eight (by omega), hlast]
  simp only [forcesMemory, Bool.or_eq_true, Bool.and_eq_true, bne_iff_ne, ne_eq, hne, hmod, hdiv,
    not_false_eq_true, true_and]

section

variable {i : Nat}

/-- A scalar of a type that travels in registers, and that has any bytes, is aligned and in one
eightbyte. -/
theorem aligned_of_classify (hfit : t.extent < 2 ^ 63) (h : classify t = some cs) (hs : s ∈ t.scalars)
    (hpos : 0 < s.type.extent) : s.type.align.toInt ∣ s.offset.toInt ∧
      s.offset.toInt / 8 = (s.offset.toInt + s.type.extent - 1) / 8 := by
  obtain ⟨hoffset, -⟩ := Ty.scalar_inside hfit hs
  obtain ⟨hsize, hword⟩ := Ty.toInt_size_of_mem hfit hs
  have hforces := not_or.mp ((forcesMemory_iff hoffset (by omega) (by omega)).not.mp
    (by simpa using forcesMemory_of_classify h s hs))
  simpa only [hsize, not_or, not_not] using hforces.2

/-- A float or a double of a type that travels in registers. -/
theorem extent_of_isSse (hfit : t.extent < 2 ^ 63) (h : classify t = some cs) (hs : s ∈ t.scalars)
    (hsse : s.type.isSse = true) : (s.type.extent = 4 ∧ s.offset.toInt % 4 = 0) ∨
      (s.type.extent = 8 ∧ s.offset.toInt % 8 = 0) := by
  have haligned := fun hpos => (aligned_of_classify hfit h hs hpos).1
  have hsingle : Ty.single.extent = 4 := by decide
  have hdouble : Ty.double.extent = 8 := by decide
  obtain ⟨type, offset⟩ := s
  cases type with
  | float k =>
    cases k with
    | single => exact .inl ⟨hsingle, Int.emod_eq_zero_of_dvd (haligned (show 0 < Ty.single.extent by omega))⟩
    | double => exact .inr ⟨hdouble, Int.emod_eq_zero_of_dvd (haligned (show 0 < Ty.double.extent by omega))⟩
    | extended => exact nomatch hsse
  | _ => exact nomatch hsse

/-- **At least four bytes of the type are in an eightbyte of vector class.** -/
theorem four_le_of_sse (hfit : t.extent < 2 ^ 63) (h : classify t = some cs) (hj : cs[j]? = some .sse) :
    8 * j + 4 ≤ t.size.toInt.toNat := by
  obtain ⟨⟨s, hs, hsse, hindex⟩, -⟩ := describes_sse h hj
  obtain ⟨hoffset, hend⟩ := Ty.scalar_inside hfit hs
  rw [indexOf_eq hoffset] at hindex
  have := extent_of_isSse hfit h hs hsse
  omega

/-- The bytes of a scalar that has any are all in the eightbyte it starts in. -/
theorem div_eight_of_scalar (hfit : t.extent < 2 ^ 63) (h : classify t = some cs) (hs : s ∈ t.scalars)
    (hi : s.offset.toInt ≤ i) (hlt : (i : Int) < s.offset.toInt + s.type.extent) :
    s.type.size ≠ 0 ∧ indexOf s = i / 8 := by
  obtain ⟨hoffset, -⟩ := Ty.scalar_inside hfit hs
  have hsize := (Ty.toInt_size_of_mem hfit hs).1
  -- the last byte of the scalar is in the same eightbyte as the first
  have hlast := (aligned_of_classify hfit h hs (by omega)).2
  rw [indexOf_eq hoffset]
  refine ⟨fun h0 => ?_, by omega⟩
  have : s.type.size.toInt = 0 := congrArg Int64.toInt h0
  omega

/-- **In an eightbyte of vector class that is not full, no scalar goes past the first four bytes.** -/
theorem lt_four_of_scalar (hfit : t.extent < 2 ^ 63) (h : classify t = some cs) (hs : s ∈ t.scalars)
    (hi : s.offset.toInt ≤ i) (hlt : (i : Int) < s.offset.toInt + s.type.extent) (hsse : cs[i / 8]? = some .sse)
    (hpart : t.size.toInt.toNat < 8 * (i / 8) + 8) : i % 8 < 4 := by
  obtain ⟨hoffset, hend⟩ := Ty.scalar_inside hfit hs
  obtain ⟨hne, hindex⟩ := div_eight_of_scalar hfit h hs hi hlt
  have htype := (describes_sse h hsse).2 s hs hne hindex
  have := extent_of_isSse hfit h hs htype
  omega

end

end Eightbyte

end Codegen
