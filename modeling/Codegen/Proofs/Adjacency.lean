/-
The matrix of bits is the relation its edges say.

Bit numbers are machine words, so they are the numbers of the pairs only as long as nothing is
cut off: while n(n-1) is below 2^63, which covers every pair of numbers below n as well.  Then
no access falls outside the matrix, and what is read back is what was put in, in either order
of the two numbers.  Past that bound a matrix can be too short for the pairs it is made for.
-/
import Codegen.Proofs.Graph

namespace Codegen.Graph

variable {a b n u v k : Int} {g : Graph}

/-! ### Machine words -/

theorem bmod_word (hlow : -2 ^ 63 ≤ k) (hhigh : k < 2 ^ 63) : k.bmod (2 ^ 64) = k :=
  Int.bmod_eq_of_le (by norm_num; omega) (by norm_num; omega)

theorem toInt_toInt64 (hlow : -2 ^ 63 ≤ k) (hhigh : k < 2 ^ 63) : k.toInt64.toInt = k := by
  rw [Int.toInt64, Int64.toInt_ofInt]
  exact bmod_word hlow hhigh

theorem mul_pred_nonneg (n : Int) : 0 ≤ n * (n - 1) := by
  rcases le_or_gt n 0 with h | h <;> nlinarith

/-- Twice the number of pairs, without the division. -/
theorem two_mul_pairs (hn : n * (n - 1) < 2 ^ 63) : 2 * (pairs n).toInt = n * (n - 1) := by
  have hlow : -2 ^ 32 < n := by nlinarith
  have hhigh : n < 2 ^ 32 := by nlinarith
  have hpos := mul_pred_nonneg n
  obtain ⟨m, hm⟩ := (Int.even_mul_pred_self n).two_dvd
  have htwo : (2 : Int64).toInt = 2 := rfl
  rw [pairs, Int64.toInt_div, Int64.toInt_mul, Int64.toInt_sub, toInt_toInt64 (by omega) (by omega),
    Int64.toInt_one, htwo, bmod_word (k := n - 1) (by omega) (by omega), bmod_word (by omega) hn, hm,
    Int.mul_tdiv_cancel_left _ (by decide), bmod_word (by omega) (by omega)]

theorem bitWord_eq (ha : 0 ≤ a) (hb : 0 ≤ b) (han : a < n) (hbn : b < n) (hn : n * (n - 1) < 2 ^ 63) :
    bitWord a b = bit a b := by
  have hhi : 0 ≤ max a b := le_max_of_le_left ha
  have hhn : max a b < n := max_lt han hbn
  have hlo : min a b ≤ max a b := min_le_max
  have hlo0 : 0 ≤ min a b := le_min ha hb
  have hn32 : n < 2 ^ 32 := by nlinarith
  have hrow : max a b * (max a b - 1) + 2 * max a b ≤ n * (n - 1) := by nlinarith
  have hpos := mul_pred_nonneg (max a b)
  have hpairs := two_mul_pairs (n := max a b) (by omega)
  unfold bitWord bit
  simp only
  rw [Int64.toInt_add, toInt_toInt64 (by omega) (by omega), bmod_word (by omega) (by omega),
    ← hpairs, Int.mul_tdiv_cancel_left _ (by decide)]

/-- A matrix can be made, and it has room for all pairs. -/
theorem make?_eq (hn : n * (n - 1) < 2 ^ 63) : make? n = some (empty n) := by
  have hpairs := two_mul_pairs hn
  have hpos := mul_pred_nonneg n
  have hwords : ((pairs n + 63) / 64).toInt = ((pairs n).toInt + 63) / 64 := by
    have h63 : (63 : Int64).toInt = 63 := rfl
    have h64 : (64 : Int64).toInt = 64 := rfl
    rw [Int64.toInt_div, Int64.toInt_add, h63, h64,
      bmod_word (k := (pairs n).toInt + 63) (by omega) (by omega),
      Int.tdiv_eq_ediv_of_nonneg (by omega), bmod_word (by omega) (by omega)]
  have hnot : ¬ (pairs n + 63) / 64 < 0 := by
    rw [Int64.lt_iff_toInt_lt, hwords, Int64.toInt_zero]
    omega
  have hsize : ((pairs n + 63) / 64).toNatClampNeg = words n := by
    rw [← Int64.toNat_toInt, hwords, words, ← hpairs, Int.mul_ediv_cancel_left _ (by decide)]
  simp only [make?, if_neg hnot, hsize, empty]

/-! ### Checked access is access -/

/-- A graph with a bit for every pair, the numbers of which fit into words. -/
structure Addressable (g : Graph) : Prop where
  fits : g.Fits
  small : g.size * (g.size - 1) < 2 ^ 63

theorem Addressable.addEdge (hg : g.Addressable) (a b : Int) : (g.addEdge a b).Addressable :=
  ⟨fits_addEdge hg.fits a b, by rw [size_addEdge]; exact hg.small⟩

theorem Addressable.bit?_eq (hg : g.Addressable) (ha : 0 ≤ a) (hb : 0 ≤ b) (h : g.mayJoin a b = true) :
    g.bit? a b = some (bit a b) := by
  obtain ⟨-, hag, hbg⟩ := mayJoin_iff.mp h
  have hlt := bit_lt_size hg.fits ha hb h
  have hpos := bit_nonneg ha hb
  have hholds : g.holds (bit a b) = true := by
    simp only [holds, Bool.and_eq_true, decide_eq_true_eq]
    omega
  simp only [bit?, bitWord_eq ha hb hag hbg hg.small, hholds, if_true]

theorem Addressable.addEdge?_eq (hg : g.Addressable) (ha : 0 ≤ a) (hb : 0 ≤ b) :
    g.addEdge? a b = some (g.addEdge a b) := by
  cases h : g.mayJoin a b with
  | false => simp [addEdge?, Graph.addEdge, h]
  | true => simp [addEdge?, Graph.addEdge, h, hg.bit?_eq ha hb h]

theorem Addressable.interferes?_eq (hg : g.Addressable) (ha : 0 ≤ a) (hb : 0 ≤ b) :
    g.interferes? a b = some (g.interferes a b) := by
  cases h : g.mayJoin a b with
  | false => simp [interferes?, interferes, h]
  | true => simp [interferes?, interferes, h, hg.bit?_eq ha hb h]

theorem filterM_eq_filter {α : Type} {p : α → Option Bool} {q : α → Bool} (l : List α)
    (h : ∀ x ∈ l, p x = some (q x)) : l.filterM p = some (l.filter q) := by
  have aux : ∀ kept, l.filterAuxM p kept = some ((l.filter q).reverse ++ kept) := by
    induction l with
    | nil => intro kept; rfl
    | cons x l ih =>
      intro kept
      have hx := h x (List.mem_cons_self ..)
      have hl := ih fun y hy => h y (List.mem_cons_of_mem _ hy)
      cases hq : q x <;> simp [List.filterAuxM, hx, hq, hl]
  simp [List.filterM, aux]

theorem Addressable.neighbors?_eq (hg : g.Addressable) (hv : 0 ≤ v) :
    g.neighbors? v = some (g.neighbors v) := by
  refine filterM_eq_filter _ fun u hu => hg.interferes?_eq hv ?_
  obtain ⟨k, -, rfl⟩ := List.mem_map.mp hu
  exact Int.natCast_nonneg k

/-- The neighbours are listed in ascending order. -/
theorem neighbors_ascending (g : Graph) (v : Int) : (g.neighbors v).Pairwise (· < ·) := by
  refine List.Pairwise.filter _ (List.pairwise_map.mpr ?_)
  exact List.pairwise_lt_range.imp fun h => Int.ofNat_lt.mpr h

/-! ### All edges -/

/-- Add edges one after the other. -/
def addEdges? (g : Graph) (calls : List (Int × Int)) : Option Graph :=
  calls.foldlM (fun g (a, b) => g.addEdge? a b) g

/-- Was this pair among the edges to add, in either order? -/
def Among (calls : List (Int × Int)) (a b : Int) : Prop := (a, b) ∈ calls ∨ (b, a) ∈ calls

instance (calls : List (Int × Int)) (a b : Int) : Decidable (Among calls a b) :=
  inferInstanceAs (Decidable (_ ∨ _))

theorem Addressable.addEdges? (hg : g.Addressable) {calls : List (Int × Int)}
    (hcalls : ∀ e ∈ calls, 0 ≤ e.1 ∧ 0 ≤ e.2) :
    ∃ g', g.addEdges? calls = some g' ∧ g'.Addressable ∧ g'.size = g.size ∧
      ∀ u v, 0 ≤ u → 0 ≤ v →
        (g'.interferes u v = true ↔
          g.interferes u v = true ∨ g.mayJoin u v = true ∧ Among calls u v) := by
  induction calls generalizing g with
  | nil => exact ⟨g, rfl, hg, rfl, by simp [Among]⟩
  | cons e calls ih =>
    obtain ⟨a, b⟩ := e
    obtain ⟨ha, hb⟩ := hcalls (a, b) (List.mem_cons_self ..)
    obtain ⟨g', hadd, hg', hsize, hiff⟩ := ih (hg.addEdge a b) fun e he =>
      hcalls e (List.mem_cons_of_mem _ he)
    refine ⟨g', ?_, hg', by simpa using hsize, fun u v hu hv => ?_⟩
    · simpa [Graph.addEdges?, hg.addEdge?_eq ha hb] using hadd
    · rw [hiff u v hu hv, interferes_addEdge hg.fits ha hb hu hv, mayJoin_addEdge]
      simp only [Among, List.mem_cons, Prod.mk.injEq]
      have hcomm := mayJoin_comm g u v
      grind

theorem interferes_empty (n a b : Int) : (empty n).interferes a b = false := by
  have hbits (k : Nat) : (empty n).bits.getD k false = false := by
    rw [empty, Array.getD_eq_getD_getElem?, Array.getElem?_replicate]
    split <;> rfl
  simp [interferes, hbits]

/-- **The matrix is the symmetric relation of the edges that were added.** -/
theorem adjacency_faithful (hn : n * (n - 1) < 2 ^ 63) (calls : List (Int × Int))
    (hcalls : ∀ e ∈ calls, 0 ≤ e.1 ∧ 0 ≤ e.2) :
    ∃ g g', make? n = some g ∧ g.addEdges? calls = some g' ∧
      (∀ a b, 0 ≤ a → 0 ≤ b →
        g'.interferes? a b = some (decide (a ≠ b ∧ a < n ∧ b < n ∧ Among calls a b))) ∧
      ∀ v, 0 ≤ v → ∃ vs, g'.neighbors? v = some vs ∧ vs.Pairwise (· < ·) ∧
        ∀ u, u ∈ vs ↔ 0 ≤ u ∧ g'.interferes? v u = some true := by
  obtain ⟨g', hadd, hg', hsize, hiff⟩ :=
    Addressable.addEdges? (g := empty n) ⟨fits_empty n, hn⟩ hcalls
  refine ⟨empty n, g', make?_eq hn, hadd, fun a b ha hb => ?_, fun v hv => ?_⟩
  · have hab := hiff a b ha hb
    rw [interferes_empty, mayJoin_iff] at hab
    rw [hg'.interferes?_eq ha hb, Option.some_inj, Bool.eq_iff_iff, hab]
    simp [empty, and_assoc]
  · refine ⟨g'.neighbors v, hg'.neighbors?_eq hv, neighbors_ascending g' v, fun u => ?_⟩
    rw [mem_neighbors]
    refine and_congr_right fun hu => ?_
    rw [hg'.interferes?_eq hv hu, Option.some_inj]

/-- Edges in both orders, twice, from a number to itself and to one that is too large. -/
theorem crossing_adjacency :
    let calls := [(3, 1), (1, 3), (0, 3), (2, 2), (4, 7)]
    ∃ g g', make? 5 = some g ∧ g.addEdges? calls = some g' ∧ g'.interferes? 1 3 = some true ∧
      g'.interferes? 4 7 = some false ∧ ∃ vs, g'.neighbors? 3 = some vs ∧ vs.Pairwise (· < ·) ∧ 0 ∈ vs := by
  intro calls
  obtain ⟨g, g', hmake, hadd, hall, hneighbors⟩ := adjacency_faithful (n := 5) (by decide) calls (by decide)
  obtain ⟨vs, hvs, hasc, hmem⟩ := hneighbors 3 (by decide)
  exact ⟨g, g', hmake, hadd, hall 1 3 (by decide) (by decide), hall 4 7 (by decide) (by decide), vs, hvs, hasc,
    (hmem 0).mpr ⟨by decide, hall 3 0 (by decide) (by decide)⟩⟩

/-- The number of pairs is four after it was cut off, so there is one word of bits. -/
theorem overflowing_access_outside :
    ∃ g, make? 4814665733036938101 = some g ∧ g.interferes? 100 0 = none :=
  ⟨_, rfl, rfl⟩

end Codegen.Graph
