/-
Live intervals cover what they have to.

Two things are needed of the interval of an ordinary register.  It has to hold every
position at which the register is touched, which is a matter of going through the
touches in order.  And it has to be *closed*: every loop that it meets lies inside.
Going around the loops once may meet new ones, so closure is a fixpoint, and the
analysis allows itself as many rounds as there are loops.  That is enough: a round that
changes anything covers a loop that was not covered, and loops stay covered.

For pseudo-registers only the writes matter: each of them starts an interval of its own.
-/
import Codegen.Interval
import Codegen.Proofs.Coloring
import Mathlib.Data.List.Induction

namespace Codegen

namespace Interval

/-! ### Ranges inside ranges -/

/-- The range is part of another. -/
def Within (s t : Interval) : Prop := t.first ≤ s.first ∧ s.last ≤ t.last

instance (s t : Interval) : Decidable (s.Within t) :=
  inferInstanceAs (Decidable (_ ∧ _))

/-- The position is in the range. -/
def Holds (s : Interval) (p : Nat) : Prop := s.first ≤ p ∧ p ≤ s.last

theorem Within.refl (s : Interval) : s.Within s := ⟨Nat.le_refl _, Nat.le_refl _⟩

variable {s t l u : Interval} {loops : List Interval} {p : Nat}

theorem Within.trans (h : s.Within t) (h' : t.Within u) : s.Within u :=
  ⟨Nat.le_trans h'.1 h.1, Nat.le_trans h.2 h'.2⟩

theorem Holds.mono (h : s.Holds p) (hst : s.Within t) : t.Holds p :=
  ⟨Nat.le_trans hst.1 h.1, Nat.le_trans h.2 hst.2⟩

theorem overlaps_iff : s.overlaps t = true ↔ s.first ≤ t.last ∧ t.first ≤ s.last := by
  simp [overlaps]

theorem overlaps_mono (hst : s.Within t) (h : s.overlaps l = true) : t.overlaps l = true := by
  rw [overlaps_iff] at h ⊢
  exact ⟨Nat.le_trans hst.1 h.1, Nat.le_trans h.2 hst.2⟩

/-! ### Backward jumps -/

section

/-- Is the instruction a jump to the label?  The target is the label among its sources, and the first one if
both are labels. -/
def JumpsTo (i : Instr) (label : Int) : Prop :=
  i.op.isJump = true ∧
    (i.src1.map (·.value) = some (.label label) ∨
      (∀ n, i.src1.map (·.value) ≠ some (.label n)) ∧ i.src2.map (·.value) = some (.label label))

/-- The position is that of the last instruction that carries the label. -/
structure IsTarget (code : List Instr) (label : Int) (p : Nat) : Prop where
  carried : ∃ j, code[p]? = some j ∧ j.label = label
  last : ∀ q > p, ∀ j, code[q]? = some j → j.label ≠ label

/-- The range of a backward jump, from its target to the jump. -/
structure IsLoop (code : List Instr) (l : Interval) : Prop where
  backward : l.first ≤ l.last
  jump : ∃ i label, code[l.last]? = some i ∧ JumpsTo i label ∧ label ≠ 0 ∧ IsTarget code label l.first

variable {code : List Instr} {label : Int} {i : Instr}

theorem jumpTarget?_eq_some_iff : i.jumpTarget? = some label ↔ JumpsTo i label := by
  unfold Instr.jumpTarget? JumpsTo
  by_cases hjump : i.op.isJump = true
  · rw [if_pos hjump]
    unfold Instr.sources
    rcases i.src1 with _ | ⟨value, _, _⟩ <;> rcases i.src2 with _ | ⟨value', _, _⟩
    · simp
    · cases value' <;> simp [hjump]
    · cases value <;> simp [hjump]
    · cases value <;> cases value' <;> simp [hjump]
  · simp [hjump]

theorem isTarget_concat :
    IsTarget (code ++ [i]) label p ↔ if i.label = label then p = code.length else IsTarget code label p := by
  split
  · rename_i hi
    constructor
    · rintro ⟨⟨j, hj, -⟩, hlast⟩
      obtain ⟨hlt, -⟩ := List.getElem?_eq_some_iff.mp hj
      by_contra hne
      exact hlast code.length (by grind) i (by simp) hi
    · rintro rfl
      refine ⟨⟨i, by simp, hi⟩, fun q hq j hj => ?_⟩
      obtain ⟨hlt, -⟩ := List.getElem?_eq_some_iff.mp hj
      grind
  · rename_i hi
    constructor
    · rintro ⟨⟨j, hj, hlabel⟩, hlast⟩
      exact ⟨⟨j, by grind, hlabel⟩, fun q hq j hj => hlast q hq j (by grind)⟩
    · rintro ⟨⟨j, hj, hlabel⟩, hlast⟩
      exact ⟨⟨j, by grind, hlabel⟩, fun q hq j hj => by grind⟩

theorem labelPosition?_eq_some_iff :
    labelPosition? code label = some p ↔ label ≠ 0 ∧ IsTarget code label p := by
  induction code using List.reverseRecOn with
  | nil =>
    refine ⟨by simp [labelPosition?], ?_⟩
    rintro ⟨-, ⟨j, hj, -⟩, -⟩
    simp at hj
  | append_singleton code i ih =>
    have hconcat : labelPosition? (code ++ [i]) label
        = if i.label != 0 && i.label == label then some code.length else labelPosition? code label := by
      cases h : i.label != 0 && i.label == label <;> simp [labelPosition?, List.zipIdx_append, h]
    rw [hconcat, isTarget_concat]
    grind

/-- The loops that are found are the backward jumps. -/
theorem mem_loops_iff : l ∈ Interval.loops code ↔ IsLoop code l := by
  have hmem : l ∈ Interval.loops code ↔ l.first ≤ l.last ∧ ∃ i, code[l.last]? = some i ∧
      i.jumpTarget?.bind (labelPosition? code) = some l.first := by
    simp only [Interval.loops, List.mem_filterMap, Prod.exists, List.mem_zipIdx_iff_getElem?]
    constructor
    · rintro ⟨i, pos, hi, hl⟩
      split at hl
      · rename_i head hhead
        split at hl
        · cases hl
          exact ⟨‹_›, i, hi, hhead⟩
        · cases hl
      · cases hl
    · rintro ⟨hle, i, hi, htarget⟩
      exact ⟨i, l.last, hi, by simp [htarget, hle]⟩
  rw [hmem]
  simp only [Option.bind_eq_some_iff, jumpTarget?_eq_some_iff, labelPosition?_eq_some_iff]
  exact ⟨fun ⟨hle, i, hi, label, hjump, hne, htarget⟩ => ⟨hle, i, label, hi, hjump, hne, htarget⟩,
    fun ⟨hle, i, label, hi, hjump, hne, htarget⟩ => ⟨hle, i, hi, label, hjump, hne, htarget⟩⟩

end

/-! ### Covering loops -/

/-- Every loop that the range meets is part of it. -/
def Closed (loops : List Interval) (s : Interval) : Prop :=
  ∀ l ∈ loops, s.overlaps l = true → l.Within s

theorem within_cover (s l : Interval) : s.Within (cover s l) := by
  unfold cover
  split
  · exact ⟨Nat.min_le_left _ _, Nat.le_max_left _ _⟩
  · exact .refl s

theorem within_cover_of_overlaps (h : s.overlaps l = true) : l.Within (cover s l) := by
  unfold cover
  rw [if_pos h]
  exact ⟨Nat.min_le_right _ _, Nat.le_max_right _ _⟩

theorem cover_eq_self (h : s.overlaps l = true → l.Within s) : cover s l = s := by
  unfold cover
  split
  · rename_i hov
    obtain ⟨hfirst, hlast⟩ := h hov
    cases s
    simp only [join, mk.injEq]
    exact ⟨Nat.min_eq_left hfirst, Nat.max_eq_left hlast⟩
  · rfl

theorem within_coverAll (loops : List Interval) : ∀ s : Interval, s.Within (coverAll loops s) := by
  induction loops with
  | nil => exact Within.refl
  | cons l rest ih => exact fun s => (within_cover s l).trans (ih (cover s l))

/-- Going around once covers every loop that is met at the start. -/
theorem loop_within_coverAll (hl : l ∈ loops) :
    ∀ {s}, s.overlaps l = true → l.Within (coverAll loops s) := by
  induction loops with
  | nil => simp at hl
  | cons l' rest ih =>
    intro s hov
    rcases List.mem_cons.mp hl with rfl | hl
    · exact (within_cover_of_overlaps hov).trans (within_coverAll rest _)
    · exact ih hl (overlaps_mono (within_cover s l') hov)

theorem coverAll_eq_self_iff : coverAll loops s = s ↔ Closed loops s := by
  refine ⟨fun h l hl hov => ?_, fun h => ?_⟩
  · have := loop_within_coverAll hl hov
    rwa [h] at this
  · induction loops with
    | nil => rfl
    | cons l rest ih =>
      show coverAll rest (cover s l) = s
      rw [cover_eq_self (h l (by simp))]
      exact ih fun l' hl' => h l' (by simp [hl'])

/-- The loops that are not part of a range. -/
def uncovered (loops : List Interval) (s : Interval) : List Interval :=
  loops.filter fun l => !decide (l.Within s)

theorem mem_uncovered : l ∈ uncovered loops s ↔ l ∈ loops ∧ ¬ l.Within s := by
  simp [uncovered]

/-- Going around some of the loops covers one more of them if it changes anything. -/
theorem uncovered_coverAll_lt {ls : List Interval} (hls : ls ⊆ loops) (h : coverAll ls s ≠ s) :
    (uncovered loops (coverAll ls s)).length < (uncovered loops s).length := by
  have hkeep : uncovered loops (coverAll ls s)
      = (uncovered loops s).filter fun l => !decide (l.Within (coverAll ls s)) := by
    unfold uncovered
    rw [List.filter_filter]
    refine List.filter_congr fun l _ => ?_
    by_cases hl : l.Within s
    · simp [hl, hl.trans (within_coverAll ls s)]
    · simp [hl]
  rw [hkeep, List.length_filter_lt_length_iff_exists]
  by_contra hnone
  refine h (coverAll_eq_self_iff.mpr fun l hl hov => ?_)
  by_contra hout
  exact hnone ⟨l, mem_uncovered.mpr ⟨hls hl, hout⟩, by simp [loop_within_coverAll hl hov]⟩

theorem within_stretchWithin (loops : List Interval) :
    ∀ (n : Nat) (s : Interval), s.Within (stretchWithin loops n s) := by
  intro n
  induction n with
  | zero => exact Within.refl
  | succ n ih =>
    intro s
    simp only [stretchWithin]
    split
    · exact .refl s
    · exact (within_coverAll loops s).trans (ih _)

theorem closed_stretchWithin (loops : List Interval) :
    ∀ (n : Nat) (s : Interval), (uncovered loops s).length ≤ n →
      Closed loops (stretchWithin loops n s) := by
  intro n
  induction n with
  | zero =>
    intro s hn l hl _
    by_contra hout
    have hpos := List.length_pos_of_mem (mem_uncovered.mpr ⟨hl, hout⟩)
    rw [stretchWithin] at hpos
    omega
  | succ n ih =>
    intro s hn
    simp only [stretchWithin]
    split
    · exact coverAll_eq_self_iff.mp ‹_›
    · rename_i hgrown
      have := uncovered_coverAll_lt (List.Subset.refl _) hgrown
      exact ih _ (by omega)

theorem within_stretch (loops : List Interval) (s : Interval) : s.Within (stretch loops s) :=
  within_stretchWithin loops _ s

/-- As many rounds as there are loops are enough. -/
theorem closed_stretch (loops : List Interval) (s : Interval) : Closed loops (stretch loops s) :=
  closed_stretchWithin loops _ s (List.length_filter_le _ _)

end Interval

namespace Touch

/-! ### Touches in order -/

variable {i : Instr} {p : Nat} {t t' : Touch} {code : List Instr} {v : Int} {todo touches rest : List Touch}

theorem pos_of_mem_ofInstr (h : t ∈ ofInstr i p) : t.pos = p := by
  unfold ofInstr at h
  simp only [List.mem_append, List.mem_map] at h
  rcases h with (⟨_, -, rfl⟩ | ⟨_, -, rfl⟩) | h
  · rfl
  · rfl
  · split at h
    · obtain ⟨_, -, rfl⟩ := List.mem_map.mp h
      rfl
    · simp at h

theorem mem_ofCode : t ∈ ofCode code ↔ ∃ i, code[t.pos]? = some i ∧ t ∈ ofInstr i t.pos := by
  unfold ofCode
  simp only [List.mem_flatten, List.mem_map, Prod.exists, List.mem_zipIdx_iff_getElem?]
  constructor
  · rintro ⟨_, ⟨i, p, hp, rfl⟩, ht⟩
    rw [pos_of_mem_ofInstr ht]
    exact ⟨i, hp, ht⟩
  · rintro ⟨i, hp, ht⟩
    exact ⟨_, ⟨i, t.pos, hp, rfl⟩, ht⟩

/-- Touches come by position, and at one position reads come first. -/
def Before (t t' : Touch) : Prop :=
  t.pos < t'.pos ∨ t.pos = t'.pos ∧ (t.writes = true → t'.writes = true)

theorem pairwise_before_ofInstr (i : Instr) (p : Nat) : (ofInstr i p).Pairwise Before := by
  have hall : ∀ (b : Bool) (vs : List Int), (vs.map fun v => (⟨v, p, b⟩ : Touch)).Pairwise Before := by
    intro b vs
    rw [List.pairwise_map]
    exact List.pairwise_of_forall fun _ _ => .inr ⟨rfl, id⟩
  have hwrites : (i.defined?.toList.map (fun v => (⟨v, p, true⟩ : Touch)) ++
      (if i.op.isCall then Reg.callerSaved.map (fun v => (⟨v, p, true⟩ : Touch)) else []))
      = (i.defined?.toList ++ if i.op.isCall then Reg.callerSaved else []).map
          fun v => (⟨v, p, true⟩ : Touch) := by
    rw [List.map_append]
    split <;> rfl
  rw [ofInstr, List.append_assoc, hwrites]
  refine List.pairwise_append.mpr ⟨hall _ _, hall _ _, fun t ht t' ht' => ?_⟩
  obtain ⟨v, -, rfl⟩ := List.mem_map.mp ht
  obtain ⟨v', -, rfl⟩ := List.mem_map.mp ht'
  exact .inr ⟨rfl, fun _ => rfl⟩

theorem pairwise_before_ofCode (code : List Instr) : (ofCode code).Pairwise Before := by
  unfold ofCode
  rw [List.pairwise_flatten]
  refine ⟨?_, ?_⟩
  · simp only [List.mem_map, Prod.exists]
    rintro _ ⟨i, p, -, rfl⟩
    exact pairwise_before_ofInstr i p
  · rw [List.pairwise_map]
    have hidx : code.zipIdx.Pairwise (·.2 < ·.2) := by
      have : (code.zipIdx.map (·.2)).Pairwise (· < ·) := by
        rw [List.zipIdx_map_snd]
        exact List.pairwise_lt_range'
      exact List.pairwise_map.mp this
    refine hidx.imp ?_
    intro x y hxy t ht t' ht'
    refine .inl ?_
    rw [pos_of_mem_ofInstr ht, pos_of_mem_ofInstr ht']
    exact hxy

theorem Before.pos_le (h : Before t t') : t.pos ≤ t'.pos :=
  h.elim Nat.le_of_lt (Nat.le_of_eq ·.1)

theorem mem_ofCode_of_reads (hp : code[p]? = some i) (hv : v ∈ i.reads) : ⟨v, p, false⟩ ∈ ofCode code := by
  refine mem_ofCode.mpr ⟨i, hp, ?_⟩
  simp [ofInstr, hv]

theorem mem_ofCode_of_defined (hp : code[p]? = some i) (hv : i.defined? = some v) :
    ⟨v, p, true⟩ ∈ ofCode code := by
  refine mem_ofCode.mpr ⟨i, hp, ?_⟩
  simp [ofInstr, hv]

/-- The interval of an ordinary register ends at its last touch. -/
theorem foldl_extend_eq :
    ∀ {s : Interval}, (∀ t ∈ todo, Reg.isPseudo t.vreg = false) →
      todo.foldl extend [s] = [⟨s.first, (todo.getLast?.map (·.pos)).getD s.last⟩] := by
  induction todo with
  | nil => exact fun _ => rfl
  | cons t rest ih =>
    intro s hord
    have hextend : extend [s] t = [{ s with last := t.pos }] := by
      simp [extend, hord t (by simp)]
    rw [List.foldl_cons, hextend, ih fun t' ht' => hord t' (by simp [ht'])]
    cases rest with
    | nil => rfl
    | cons t' rest => rw [List.getLast?_cons_cons]; simp [List.getLast?_cons]

theorem segments_cons (hord : ∀ t' ∈ t :: rest, Reg.isPseudo t'.vreg = false) :
    segments (t :: rest) = [⟨if t.writes then t.pos else 0, ((t :: rest).getLast (by simp)).pos⟩] := by
  show (rest.foldl extend [⟨_, t.pos⟩]).reverse = _
  rw [foldl_extend_eq fun t' ht' => hord t' (by simp [ht'])]
  cases rest with
  | nil => rfl
  | cons t' rest => simp [List.getLast?_eq_some_getLast]

theorem pos_le_getLast (hsorted : (t :: rest).Pairwise (·.pos ≤ ·.pos)) (ht' : t' ∈ t :: rest) :
    t'.pos ≤ ((t :: rest).getLast (by simp)).pos := by
  rw [← List.dropLast_append_getLast (l := t :: rest) (by simp)] at ht' hsorted
  rcases List.mem_append.mp ht' with h | h
  · exact (List.pairwise_append.mp hsorted).2.2 t' h _ (by simp)
  · rw [List.mem_singleton.mp h]

end Touch

namespace Interval

/-! ### The intervals of the code -/

variable {v : Int} {code : List Instr} {touches : List Touch} {ranges : List Interval} {t : Touch} {s : Interval}

theorem mem_dedupSorted (l : List Int) : v ∈ dedupSorted l ↔ v ∈ l := by
  fun_induction dedupSorted l with
  | case1 => rfl
  | case2 a => rfl
  | case3 a rest ih => simp [ih]
  | case4 a b rest hne ih => simp [ih]

theorem mem_registers : v ∈ registers touches ↔ ∃ t ∈ touches, t.vreg = v := by
  simp [registers, mem_dedupSorted]

theorem mem_ofCode :
    (v, ranges) ∈ ofCode code ↔ (∃ t ∈ Touch.ofCode code, t.vreg = v) ∧
      ranges = ofRegister (Touch.ofCode code) (loops code) v := by
  simp only [ofCode, List.mem_map, Prod.mk.injEq, mem_registers]
  constructor
  · rintro ⟨w, hw, rfl, rfl⟩
    exact ⟨hw, rfl⟩
  · rintro ⟨hv, rfl⟩
    exact ⟨v, hv, rfl, rfl⟩

end Interval

end Codegen
