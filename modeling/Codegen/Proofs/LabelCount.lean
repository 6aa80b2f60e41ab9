/-
Labels from a counter that wraps around.

A function counts its labels in a machine word.  `Labelled` says of the labels of some code that they are old
ones, in their order, and those that the counter has handed out on the way, each set once; a label that came out
as zero is no label.  Said in this way it needs no bound, and pieces of code are put together without one.

Bounds come in at the end.  As long as the counter has not gone past the largest word, what it has handed out is
larger than where it started, and no label is handed out twice.
-/
import Codegen.Proofs.Execution
import Mathlib.Data.List.Nodup

namespace Codegen

/-- The labels that a counter hands out next. -/
def handed (n : Int64) (k : Nat) : List Int := (List.range k).map fun j => (n + Int64.ofNat (j + 1)).toInt

section handed

variable {n : Int64} {k m : Nat} {l : Int}

theorem length_handed (n : Int64) (k : Nat) : (handed n k).length = k := by simp [handed]

theorem handed_add (n : Int64) (k m : Nat) :
    handed n (k + m) = handed n k ++ handed (n + Int64.ofNat k) m := by
  have hshift : ∀ j, n + Int64.ofNat (k + j + 1) = n + Int64.ofNat k + Int64.ofNat (j + 1) := fun j => by
    rw [Nat.add_assoc, Int64.ofNat_add, Int64.add_assoc]
  simp only [handed, List.range_add, List.map_append, List.map_map, Function.comp_def, hshift]

theorem toInt_add_ofNat (n : Int64) (j : Nat) : (n + Int64.ofNat j).toInt = (n.toInt + j).bmod (2 ^ 64) := by
  rw [Int64.toInt_add, Int64.toInt_ofNat']
  exact Int.add_bmod_bmod

theorem mem_handed : l ∈ handed n k ↔ ∃ j < k, (n.toInt + (j + 1 : Nat)).bmod (2 ^ 64) = l := by
  simp only [handed, List.mem_map, List.mem_range, toInt_add_ofNat]

/-- The counter comes back to where it was only after all words. -/
theorem nodup_handed (hk : k ≤ 2 ^ 64) : (handed n k).Nodup := by
  refine List.Nodup.map_on (fun a ha b hb h => ?_) List.nodup_range
  rw [List.mem_range] at ha hb
  rw [toInt_add_ofNat, toInt_add_ofNat] at h
  have hmod := congrArg (· % ((2 ^ 64 : Nat) : Int)) h
  rw [Int.bmod_emod, Int.bmod_emod] at hmod
  omega

theorem zero_notMem_handed (hn : 0 ≤ n.toInt) (hk : n.toInt + k < 2 ^ 64) : 0 ∉ handed n k := by
  rw [mem_handed]
  rintro ⟨j, hj, hzero⟩
  have := Int.dvd_of_bmod_eq_zero hzero
  omega

/-- Below the largest word the counter only goes up. -/
theorem lt_of_mem_handed (hk : n.toInt + k < 2 ^ 63) (hl : l ∈ handed n k) : n.toInt < l := by
  obtain ⟨j, hj, rfl⟩ := mem_handed.mp hl
  have := n.le_toInt
  rw [Int.bmod_eq_of_le (by omega) (by omega)]
  omega

/-- What a counter has handed out first is among what it has handed out. -/
theorem le_length_filter_handed (n : Int64) (hm : m ≤ k) :
    m ≤ ((handed n k).filter (· ≠ 0)).length + (handed n m).count 0 := by
  obtain ⟨d, rfl⟩ := Nat.exists_eq_add_of_le hm
  have hsplit := List.length_eq_countP_add_countP (· ≠ 0) (l := handed n m)
  have hcount : (handed n m).countP (fun l => ¬ decide (l ≠ 0) = true) = (handed n m).count 0 :=
    List.countP_congr fun l _ => by simp
  rw [length_handed, hcount, List.countP_eq_length_filter] at hsplit
  rw [handed_add, List.filter_append, List.length_append]
  omega

end handed

/-- The labels are the old ones in their order, and those that a counter has handed out between two counts. -/
def Labelled (n n' : Int64) (old ls : List Int) : Prop :=
  ∃ k, n' = n + Int64.ofNat k ∧ old.Sublist ls ∧ ls.Perm (old ++ (handed n k).filter (· ≠ 0))

section labelled

variable {n n' n'' : Int64} {old old' ls ls' : List Int}

theorem labelled_old (n : Int64) (ls : List Int) : Labelled n n ls ls :=
  ⟨0, (Int64.add_zero n).symm, .refl ls, by simp [handed]⟩

theorem Labelled.append (h : Labelled n n' old ls) (h' : Labelled n' n'' old' ls') :
    Labelled n n'' (old ++ old') (ls ++ ls') := by
  obtain ⟨k, rfl, hsub, hperm⟩ := h
  obtain ⟨k', rfl, hsub', hperm'⟩ := h'
  refine ⟨k + k', by rw [Int64.ofNat_add, Int64.add_assoc], hsub.append hsub', (hperm.append hperm').trans ?_⟩
  rw [handed_add, List.filter_append, List.perm_iff_count]
  simp only [List.count_append]
  omega

theorem Labelled.perm (h : Labelled n n' [] ls) (hperm : ls'.Perm ls) : Labelled n n' [] ls' := by
  obtain ⟨k, hn, -, hls⟩ := h
  exact ⟨k, hn, List.nil_sublist _, hperm.trans hls⟩

/-- The next label is set. -/
theorem labelled_target (n : Int64) : Labelled n (n + 1) [] (labelsOf [.target (n + 1).toInt]) :=
  ⟨1, rfl, List.nil_sublist _, .refl _⟩

/-- A counter that started with a number and has set few labels has handed out just these. -/
theorem Labelled.exact (h : Labelled n n' [] ls) (hn : 0 ≤ n.toInt) (hls : ls.length < 2 ^ 62) :
    n' = n + Int64.ofNat ls.length ∧ ls.Perm (handed n ls.length) := by
  obtain ⟨k, rfl, -, hperm⟩ := h
  have hlt := n.toInt_lt
  have hk : k < 2 ^ 62 := by
    by_contra hge
    have hle := le_length_filter_handed n (Nat.le_of_not_lt hge)
    rw [List.count_eq_zero.mpr (zero_notMem_handed hn (by omega))] at hle
    rw [hperm.length_eq, List.nil_append] at hls
    omega
  have hzero := zero_notMem_handed (k := k) hn (by omega)
  rw [List.nil_append, List.filter_eq_self.mpr fun l hl => by simpa using ne_of_mem_of_not_mem hl hzero] at hperm
  have hlength : ls.length = k := hperm.length_eq.trans (length_handed n k)
  rw [hlength]
  exact ⟨rfl, hperm⟩

/-- As long as the counter does not go past the largest word, what it has handed out is larger than where it
started, and each label is set once. -/
theorem Labelled.fresh (h : Labelled n n' old ls)
    (hroom : max 0 n.toInt + ls.length < 2 ^ 63 + old.length) :
    ∃ new, old.Sublist ls ∧ ls.Perm (old ++ new) ∧ new.Nodup ∧ ∀ l ∈ new, n.toInt < l := by
  obtain ⟨k, -, hsub, hperm⟩ := h
  have hlength := hperm.length_eq
  rw [List.length_append] at hlength
  have hge := n.le_toInt
  have hk : n.toInt + k < 2 ^ 63 := by
    by_contra hover
    by_cases hn : 0 ≤ n.toInt
    · have hle := le_length_filter_handed n (m := (2 ^ 63 - n.toInt).toNat) (k := k) (by omega)
      rw [List.count_eq_zero.mpr (zero_notMem_handed hn (by omega))] at hle
      omega
    · -- zero is handed out once on the way up
      have hle := le_length_filter_handed n (m := 2 ^ 63 + 1) (k := k) (by omega)
      have hcount := List.nodup_iff_count_le_one.mp (nodup_handed (n := n) (k := 2 ^ 63 + 1) (by omega)) 0
      omega
  exact ⟨_, hsub, hperm, (nodup_handed (by omega)).filter _, fun l hl =>
    lt_of_mem_handed hk (List.mem_of_mem_filter hl)⟩

end labelled

end Codegen
