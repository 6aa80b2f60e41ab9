/-
The interference graph is the relation its edges say.

A graph keeps a triangle of bits, and nothing but the numbering of pairs ties a bit to
the two registers it stands for.  The numbering is injective on pairs of numbers that
are not negative: the pairs with larger number `n` take up the bits from n(n-1)/2 on,
and the next larger number begins where they end.  So adding an edge sets the bit of
that pair and of no other, and as every pair below the size of the graph has its bit
inside the array, an edge that is added is there.
-/
import Codegen.Graph
import Mathlib.Algebra.Group.Int.Even
import Mathlib.Tactic.Linarith

namespace Codegen.Graph

/-! ### The numbering of pairs -/

theorem bit_comm (a b : Int) : bit a b = bit b a := by
  unfold bit
  rw [max_comm, min_comm]

variable {a b u v : Int} {g : Graph}

/-- Twice the bit of a pair, without the division. -/
theorem two_mul_bit (h : b < a) (hb : 0 ≤ b) : 2 * bit a b = a * (a - 1) + 2 * b := by
  have hmax : max a b = a := max_eq_left h.le
  have hpos : 0 ≤ a * (a - 1) := by nlinarith
  have heven : 2 ∣ a * (a - 1) := (Int.even_mul_pred_self a).two_dvd
  unfold bit
  simp only [hmax]
  rw [Int.tdiv_eq_ediv_of_nonneg hpos]
  omega

theorem bit_nonneg (ha : 0 ≤ a) (hb : 0 ≤ b) : 0 ≤ bit a b := by
  rcases lt_trichotomy a b with h | rfl | h
  · have := two_mul_bit h ha
    rw [bit_comm]
    nlinarith
  · have hpos : 0 ≤ (a * (a - 1)) := by
      rcases eq_or_lt_of_le ha with h0 | h0
      · rw [← h0]; simp
      · nlinarith
    unfold bit
    simp only [max_self]
    have := Int.tdiv_nonneg hpos (by decide : (0 : Int) ≤ 2)
    omega
  · have := two_mul_bit h hb
    nlinarith

/-- Two pairs, larger number first, with the same bit are the same. -/
theorem bit_inj_of_lt (hb : 0 ≤ b) (hba : b < a) (hv : 0 ≤ v) (hvu : v < u) (h : bit a b = bit u v) :
    a = u ∧ b = v := by
  have h1 := two_mul_bit hba hb
  have h2 := two_mul_bit hvu hv
  have hau : a = u := by
    rcases lt_trichotomy a u with hlt | heq | hlt
    · nlinarith
    · exact heq
    · nlinarith
  subst hau
  exact ⟨rfl, by omega⟩

theorem bit_inj (ha : 0 ≤ a) (hb : 0 ≤ b) (hab : a ≠ b) (hu : 0 ≤ u) (hv : 0 ≤ v) (huv : u ≠ v)
    (h : bit a b = bit u v) : (a = u ∧ b = v) ∨ (a = v ∧ b = u) := by
  rcases lt_or_gt_of_ne hab with hlt | hlt <;> rcases lt_or_gt_of_ne huv with hlt' | hlt'
  · rw [bit_comm a, bit_comm u] at h
    have := bit_inj_of_lt ha hlt hu hlt' h
    exact Or.inl ⟨this.2, this.1⟩
  · rw [bit_comm a] at h
    have := bit_inj_of_lt ha hlt hv hlt' h
    exact Or.inr ⟨this.2, this.1⟩
  · rw [bit_comm u] at h
    have := bit_inj_of_lt hb hlt hu hlt' h
    exact Or.inr ⟨this.1, this.2⟩
  · exact Or.inl (bit_inj_of_lt hb hlt hv hlt' h)

/-! ### Bits inside the matrix -/

/-- The array of bits is as long as the size of the graph asks for. -/
def Fits (g : Graph) : Prop := g.bits.size = 64 * words g.size

theorem fits_empty (n : Int) : (empty n).Fits := by simp [Fits, empty]

theorem mayJoin_iff : g.mayJoin a b = true ↔ a ≠ b ∧ a < g.size ∧ b < g.size := by
  simp [mayJoin, and_assoc]

theorem mayJoin_comm (g : Graph) (a b : Int) : g.mayJoin a b = g.mayJoin b a := by
  rw [Bool.eq_iff_iff, mayJoin_iff, mayJoin_iff]
  tauto

theorem bit_lt_size (hg : g.Fits) (ha : 0 ≤ a) (hb : 0 ≤ b) (hab : g.mayJoin a b = true) :
    (bit a b).toNat < g.bits.size := by
  obtain ⟨hne, hag, hbg⟩ := mayJoin_iff.mp hab
  have key : ∀ x y : Int, 0 ≤ y → y < x → x < g.size → (bit x y).toNat < g.bits.size := by
    intro x y hy hyx hx
    have h2 := two_mul_bit hyx hy
    have hpos := bit_nonneg (hy.trans hyx.le) hy
    have hle : 2 * bit x y + 2 ≤ g.size * (g.size - 1) := by nlinarith
    rw [hg]
    unfold words
    omega
  rcases lt_or_gt_of_ne hne with hlt | hlt
  · rw [bit_comm]
    exact key b a ha hlt hbg
  · exact key a b hb hlt hag

/-! ### Edges -/

theorem interferes_comm (g : Graph) (a b : Int) : g.interferes a b = g.interferes b a := by
  unfold interferes
  rw [bit_comm, mayJoin_comm]

theorem mayJoin_of_interferes (h : g.interferes a b = true) : g.mayJoin a b = true := by
  unfold interferes at h
  simp only [Bool.and_eq_true] at h
  exact h.1.1

theorem mem_neighbors : u ∈ g.neighbors v ↔ 0 ≤ u ∧ g.interferes v u = true := by
  unfold neighbors vertices
  simp only [List.mem_filter, List.mem_map, List.mem_range]
  constructor
  · rintro ⟨⟨n, -, rfl⟩, h⟩
    exact ⟨Int.natCast_nonneg n, h⟩
  · rintro ⟨hu, h⟩
    have hlt := (mayJoin_iff.mp (mayJoin_of_interferes h)).2.2
    exact ⟨⟨u.toNat, by omega, by simp [hu]⟩, h⟩

@[simp] theorem size_addEdge (g : Graph) (a b : Int) : (g.addEdge a b).size = g.size := by
  simp only [addEdge]
  split <;> rfl

theorem fits_addEdge (hg : g.Fits) (a b : Int) : (g.addEdge a b).Fits := by
  unfold Fits at *
  simp only [addEdge]
  split
  · simpa using hg
  · exact hg

@[simp] theorem mayJoin_addEdge (g : Graph) (a b u v : Int) :
    (g.addEdge a b).mayJoin u v = g.mayJoin u v := by
  simp [mayJoin]

/-- Adding an edge joins the two numbers, if they can be joined, and no others. -/
theorem interferes_addEdge (hg : g.Fits) (ha : 0 ≤ a) (hb : 0 ≤ b) (hu : 0 ≤ u) (hv : 0 ≤ v) :
    (g.addEdge a b).interferes u v = true ↔
      g.interferes u v = true ∨
        (g.mayJoin a b = true ∧ ((a = u ∧ b = v) ∨ (a = v ∧ b = u))) := by
  have hk := bit_nonneg hu hv
  by_cases hj : g.mayJoin a b = true
  · have hbits : (g.addEdge a b).bits = g.bits.setIfInBounds (bit a b).toNat true := by
      simp [addEdge, hj, bit_nonneg ha hb]
    have hlt := bit_lt_size hg ha hb hj
    simp only [interferes, mayJoin_addEdge, hbits, hk, Bool.and_eq_true, decide_true, and_true, hj,
      true_and]
    by_cases heq : bit a b = bit u v
    · constructor
      · rintro ⟨huv, -⟩
        exact Or.inr (bit_inj ha hb (mayJoin_iff.mp hj).1 hu hv (mayJoin_iff.mp huv).1 heq)
      · have hget : (g.bits.setIfInBounds (bit a b).toNat true).getD (bit u v).toNat false = true := by
          rw [← heq]
          simp [hlt]
        rintro (h | ⟨rfl, rfl⟩ | ⟨rfl, rfl⟩)
        · exact ⟨h.1, hget⟩
        · exact ⟨hj, hget⟩
        · exact ⟨by rw [mayJoin_comm]; exact hj, hget⟩
    · have hne : (bit a b).toNat ≠ (bit u v).toNat := by
        have := bit_nonneg ha hb
        omega
      have hget : (g.bits.setIfInBounds (bit a b).toNat true).getD (bit u v).toNat false
          = g.bits.getD (bit u v).toNat false := by
        simp [hne]
      rw [hget]
      constructor
      · exact Or.inl
      · rintro (h | ⟨rfl, rfl⟩ | ⟨rfl, rfl⟩)
        · exact h
        · exact absurd rfl heq
        · exact absurd (bit_comm a b) heq
  · have hsame : g.addEdge a b = g := by simp [addEdge, hj]
    rw [hsame]
    simp [hj]

end Codegen.Graph
