/-
Sizes, alignments, members and scalars agree.

Each of them is computed on its own, by walking over the type once more.  For a type with no missing
component all of them exist, and as long as the size of the type is a word they describe one
layout: the alignment divides the size, members and scalars lie inside, and nothing that is not
overlaid on purpose overlaps.
-/
import Codegen.Proofs.Extent

namespace Codegen

namespace Ty

/-! ### Complete types -/

mutual

/-- **A type with no missing component has an alignment, a size and scalars.** -/
theorem has_of_complete : (t : Ty) → t.complete = true →
    t.hasAlign = true ∧ t.hasSize = true ∧ t.hasScalars = true
  | .missing, h => nomatch h
  | .void, _ | .int _ _, _ | .float _, _ | .pointer _, _ | .func _ _ _, _ => ⟨rfl, rfl, rfl⟩
  | .array element _, h => by
    obtain ⟨halign, hsize, hscalars⟩ := has_of_complete element (throughout_array h)
    simp [hasAlign, hasSize, hasScalars, halign, hsize, hscalars]
  | .struct _ members _, h => by
    obtain ⟨halign, hsize, hscalars⟩ := hasAll_of_complete members (throughout_struct h).2
    simp [hasAlign, hasSize, hasScalars, halign, hsize, hscalars]
  | .union _ members, h => by
    obtain ⟨halign, hsize, hscalars⟩ := hasAll_of_complete members (throughout_union h).2
    simp [hasAlign, hasSize, hasScalars, halign, hsize, hscalars]

theorem hasAll_of_complete : (ms : List Ty) → throughoutAll (!·.isMissing) ms = true →
    hasAlignAll ms = true ∧ hasSizeAll ms = true ∧ hasScalarsAll ms = true
  | [], _ => ⟨rfl, rfl, rfl⟩
  | m :: ms, h => by
    obtain ⟨hm, hms⟩ := throughoutAll_cons h
    obtain ⟨halign, hsize, hscalars⟩ := has_of_complete m hm
    obtain ⟨halign', hsize', hscalars'⟩ := hasAll_of_complete ms hms
    simp [hasAlignAll, hasSizeAll, hasScalarsAll, halign, hsize, hscalars, halign', hsize', hscalars']

end

theorem one_le_alignAll (ms : List Ty) : 0 < (alignAll ms 1).toInt := by
  have hle := Int64.le_iff_toInt_le.mp (le_alignAll ms 1).1
  rw [show (1 : Int64).toInt = 1 from rfl] at hle
  omega

theorem align_pos : (t : Ty) → t.complete = true → 0 < t.align.toInt
  | .missing, h => nomatch h
  | .void, _ => by decide
  | .int w _, _ => by
    rw [align]
    cases w <;> decide
  | .float k, _ => by
    rw [align]
    cases k <;> decide
  | .pointer _, _ | .func _ _ _, _ => by
    rw [align]
    decide
  | .array element _, h => by
    rw [align]
    exact align_pos element (throughout_array h)
  | .struct _ members packed, _ => by
    rw [align]
    split
    · decide
    · exact one_le_alignAll members
  | .union _ members, _ => by
    rw [align]
    exact one_le_alignAll members

variable {a : Int64} {members : List Ty} {packed : Bool}

theorem exists_pow_of_isAlignment (ha : IsAlignment a) (hpos : 0 < a.toInt) : ∃ k : Nat, a.toInt = 2 ^ k := by
  rcases ha with rfl | rfl | rfl | rfl | rfl | rfl
  · exact absurd hpos (by decide)
  · exact ⟨0, rfl⟩
  · exact ⟨1, rfl⟩
  · exact ⟨2, rfl⟩
  · exact ⟨3, rfl⟩
  · exact ⟨4, rfl⟩

/-- Multiples of what an alignment asks for are multiples of the alignment, if there is one. -/
theorem dvd_of_grain_dvd {x : Int64} (ha : 0 < a.toInt) (hx : 0 ≤ x.toInt) (h : grain a ∣ x.toInt.toNat) :
    a.toInt ∣ x.toInt := by
  rw [grain, Nat.max_eq_right (by omega)] at h
  have := Int.natCast_dvd_natCast.mpr h
  rwa [Int.toNat_of_nonneg (by omega), Int.toNat_of_nonneg hx] at this

/-! ### Members -/

/-- Members one after the other, at `k` or later and up to `n`. -/
structure Spaced (k n : Nat) (placed : List (Int64 × Ty)) : Prop where
  within : ∀ p ∈ placed, (k : Int) ≤ p.1.toInt ∧ p.1.toInt + p.2.size.toInt ≤ n
  apart : placed.Pairwise fun p q => p.1.toInt + p.2.size.toInt ≤ q.1.toInt

theorem length_offsetsFrom (packed : Bool) (ms : List Ty) (start : Int64) :
    (offsetsFrom packed ms start).length = ms.length := by
  induction ms generalizing start with
  | nil => rfl
  | cons m ms ih =>
    rw [offsetsFrom]
    exact congrArg (· + 1) (ih _)

/-- **The members of a struct come one after the other.** -/
theorem spaced_offsetsFrom (packed : Bool) (ms : List Ty) {start : Int64} {k : Nat}
    (hstart : start.toInt = k) (hfit : endExtent packed ms k < 2 ^ 63) :
    Spaced k (endExtent packed ms k) ((offsetsFrom packed ms start).zip ms) := by
  induction ms generalizing start k with
  | nil => exact ⟨by simp [offsetsFrom], .nil⟩
  | cons m ms ih =>
    rw [endExtent] at hfit ⊢
    have hstep := le_roundUp k (memberAlign packed m).toInt.toNat
    have hend := le_endExtent packed ms (roundUp k (memberAlign packed m).toInt.toNat + m.extent)
    have hhere := toInt_alignUp_eq_roundUp (isAlignment_memberAlign packed m) hstart (by omega)
    have hsize := toInt_size m (by omega)
    obtain ⟨hwithin, hapart⟩ := ih (toInt_add_of_lt hhere hsize (by omega)) hfit
    rw [offsetsFrom]
    refine ⟨fun p hp => ?_, List.pairwise_cons.mpr ⟨fun p hp => ?_, hapart⟩⟩
    · rcases List.mem_cons.mp hp with rfl | hp
      · dsimp only
        omega
      · have := hwithin p hp
        omega
    · have := (hwithin p hp).1
      dsimp only
      omega

theorem spaced_struct {name : String} (hfit : (Ty.struct name members packed).extent < 2 ^ 63) :
    Spaced 0 (Ty.struct name members packed).extent
      ((offsetsFrom packed members 0).zip members) := by
  have hle := le_roundUp (endExtent packed members 0) (align (.struct name members packed)).toInt.toNat
  rw [extent] at hfit ⊢
  have hspaced := spaced_offsetsFrom packed members (show (0 : Int64).toInt = (0 : Nat) from rfl) (by omega)
  refine ⟨fun p hp => ?_, hspaced.apart⟩
  have := hspaced.within p hp
  omega

end Ty

/-! ### The whole layout -/

namespace Eightbyte

variable {s : Ty.Scalar} {t : Ty}

/-- Every scalar starts in an eightbyte that the type starts. -/
theorem indexOf_lt_count (hcomplete : t.complete = true) (hfit : t.extent + 7 < 2 ^ 63) (hs : s ∈ t.scalars) :
    indexOf s < count t.size := by
  obtain ⟨hoffset, hend⟩ := Ty.scalar_inside (by omega) hs
  have hpos := ((Ty.laid_scalars (by omega)).proper hcomplete s hs).1
  have hsize := Ty.toInt_size t (by omega)
  rw [indexOf_eq hoffset, count, toInt_eightbytes (by omega) (by omega)]
  omega

theorem canClassify_of_complete (hcomplete : t.complete = true) (hfit : t.extent < 2 ^ 63) :
    canClassify t = true := by
  obtain ⟨-, hsize, hscalars⟩ := Ty.has_of_complete t hcomplete
  have hextent := Ty.toInt_size t hfit
  rw [canClassify, hsize, hscalars, Bool.true_and, Bool.true_and, Bool.or_eq_true, Bool.or_eq_true]
  by_cases hlarge : t.size > 16
  · exact .inl (.inl (decide_eq_true hlarge))
  · refine .inr (decide_eq_true (Int64.le_iff_toInt_le.mpr ?_))
    have hle := Int.not_lt.mp fun hlt => hlarge (Int64.lt_iff_toInt_lt.mpr hlt)
    rw [show (16 : Int64).toInt = 16 from rfl] at hle
    rw [toInt_eightbytes (by omega) (by omega)]
    exact Int.ediv_nonneg (by omega) (by decide)

end Eightbyte

namespace Ty

/-- **The layout of a type is consistent**, if no component is missing and the size is a word.  The
alignment is a power of two and divides the size.  Every scalar lies inside the type; it is aligned
if nothing is packed, and the scalars come one after the other if there is no union.  The members of
a struct come one after the other inside it.  The type can be classified, and every scalar of one
that is small enough to be taken apart has an eightbyte. -/
theorem layout_consistent {t : Ty} (hcomplete : t.complete = true) (hfit : t.extent < 2 ^ 63) :
    ∃ align size scalars,
      t.align? = some align ∧ t.size? = some size ∧ t.scalars? = some scalars ∧
      (∃ k : Nat, align.toInt = 2 ^ k) ∧ align.toInt ∣ size.toInt ∧
      (∀ s ∈ scalars, 0 ≤ s.offset.toInt ∧ 0 < s.type.size.toInt ∧
        s.offset.toInt + s.type.size.toInt ≤ size.toInt) ∧
      (t.unpacked = true → ∀ s ∈ scalars, s.type.align.toInt ∣ s.offset.toInt) ∧
      (t.unionFree = true →
        scalars.Pairwise fun s r => s.offset.toInt + s.type.size.toInt ≤ r.offset.toInt) ∧
      (∀ name members packed, t = .struct name members packed →
        ∃ offsets, t.memberOffsets? = some offsets ∧ offsets.length = members.length ∧
          (∀ p ∈ offsets.zip members, 0 ≤ p.1.toInt ∧ p.1.toInt + p.2.size.toInt ≤ size.toInt) ∧
          (offsets.zip members).Pairwise fun p q => p.1.toInt + p.2.size.toInt ≤ q.1.toInt) ∧
      Eightbyte.canClassify t = true ∧
      (size.toInt ≤ 16 → ∀ s ∈ scalars, (s.offset / 8).toInt.toNat < Eightbyte.count size) := by
  obtain ⟨halign, hsize, hscalars⟩ := has_of_complete t hcomplete
  have hextent := toInt_size t hfit
  have hlaid := laid_scalars hfit
  have hscalar := fun s (hs : s ∈ t.scalars) => (toInt_size_of_mem hfit hs).1
  have hpos := align_pos t hcomplete
  refine ⟨t.align, t.size, t.scalars, if_pos halign, if_pos hsize, if_pos hscalars,
    exists_pow_of_isAlignment (isAlignment_align t) hpos, ?_, fun s hs => ?_, fun hpacked s hs => ?_,
    fun hunion => ?_, ?_, Eightbyte.canClassify_of_complete hcomplete hfit, fun hle s hs => ?_⟩
  · refine dvd_of_grain_dvd hpos (by omega) ?_
    rw [hextent]
    exact grain_dvd_extent t
  · have := scalar_inside hfit hs
    have := hlaid.proper hcomplete s hs
    rw [hscalar s hs]
    omega
  · exact dvd_of_grain_dvd (hlaid.proper hcomplete s hs).2 (scalar_inside hfit hs).1
      (hlaid.aligned hpacked s hs)
  · refine (hlaid.apart hunion).imp_of_mem fun hs _ h => ?_
    rwa [hscalar _ hs]
  · rintro name members packed rfl
    obtain ⟨halign, hsize, -⟩ := hasAll_of_complete members (throughout_struct hcomplete).2
    have hspaced := spaced_struct hfit
    refine ⟨offsetsFrom packed members 0, ?_, length_offsetsFrom packed members 0, fun p hp => ?_,
      hspaced.apart⟩
    · rw [memberOffsets?, if_pos (by simp [hasMemberOffsets, halign, hsize])]
      rfl
    · have := hspaced.within p hp
      omega
  · exact Eightbyte.indexOf_lt_count hcomplete (by omega) hs

/-- A packed struct in an array in a struct, after a union. -/
theorem layout_consistent_nested :
    let packed : Ty := .struct "p" [.char, .long] true
    let t : Ty := .struct "s" [.union "u" [.sint, .array .double 2], .array packed 3] false
    t.complete = true ∧ t.extent = 48 ∧ t.size? = some 48 ∧ t.align? = some 8 ∧
      Eightbyte.canClassify t = true := by
  intro packed t
  have hcomplete : t.complete = true := by decide
  have hextent : t.extent = 48 := by decide
  obtain ⟨-, -, -, -, -, -, -, -, -, -, -, -, hclassify, -⟩ :=
    layout_consistent hcomplete (by omega)
  exact ⟨hcomplete, hextent, by decide, by decide, hclassify⟩

end Ty

end Codegen
