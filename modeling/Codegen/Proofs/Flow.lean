/-
What flows where in the code.

Control goes from a position to the next one, or to the target of a jump.  A register is
live on such an edge when its value may have been computed before and may be wanted
after.  None of this knows about intervals; what is shown here is that intervals know
enough about it.  A closed interval cannot be left and entered again: leaving it downward,
or coming back to it from above, takes a backward jump over one of its ends, and the loop
of that jump meets the interval without being part of it.
-/
import Codegen.Proofs.Interval
import Mathlib.Logic.Relation
import Mathlib.Data.List.Nodup

namespace Codegen

/-! ### Control flow -/

/-- No two instructions carry the same label. -/
def LabelsUnique (code : List Instr) : Prop :=
  ((code.map Instr.label).filter (· ≠ 0)).Nodup

instance (code : List Instr) : Decidable (LabelsUnique code) :=
  inferInstanceAs (Decidable (List.Nodup _))

/-- Control may go from one position to another. -/
inductive Edge (code : List Instr) : Nat → Nat → Prop
  /-- On to the next instruction, except after a jump that is always taken and a return. -/
  | next {p : Nat} {i : Instr} (hi : code[p]? = some i) (hjmp : i.op ≠ .machine .jmp)
      (hret : i.op ≠ .machine .ret) (hlt : p + 1 < code.length) : Edge code p (p + 1)
  /-- To the instruction with the label that is jumped to. -/
  | jump {p q : Nat} {i j : Instr} (hi : code[p]? = some i) (hj : code[q]? = some j)
      (htarget : i.jumpTarget? = some j.label) (hlabel : j.label ≠ 0) : Edge code p q

/-- Control may get from one position to another. -/
abbrev Reaches (code : List Instr) : Nat → Nat → Prop := Relation.ReflTransGen (Edge code)

/-- The value that a register has on arrival at a position may be read: by the instruction there, or
after it by way of instructions that do not write the register. -/
inductive Needed (code : List Instr) (v : Int) : Nat → Prop
  | read {p : Nat} {i : Instr} (hi : code[p]? = some i) (hread : v ∈ i.reads) : Needed code v p
  | pass {p q : Nat} {i : Instr} (hi : code[p]? = some i) (hdef : i.defined? ≠ some v)
      (hedge : Edge code p q) (h : Needed code v q) : Needed code v p

/-- A register is live on an edge: control may get there from an instruction that writes the
register, and what the register has then may be read. -/
structure LiveOn (code : List Instr) (v : Int) (p q : Nat) : Prop where
  edge : Edge code p q
  written : ∃ d i, code[d]? = some i ∧ i.defined? = some v ∧ Reaches code d p
  needed : Needed code v q

variable {v : Int} {code : List Instr} {p q : Nat}

theorem Needed.reaches (h : Needed code v p) : ∃ u i, code[u]? = some i ∧ v ∈ i.reads ∧ Reaches code p u := by
  induction h with
  | read hi hread => exact ⟨_, _, hi, hread, .refl⟩
  | pass _ _ hedge _ ih =>
    obtain ⟨u, i, hu, hread, hpath⟩ := ih
    exact ⟨u, i, hu, hread, .head hedge hpath⟩

/-! ### Backward edges are loops -/

/-- A label that is carried once is in one place. -/
theorem LabelsUnique.pos_eq {i j : Instr} (huniq : LabelsUnique code) (hi : code[p]? = some i)
    (hj : code[q]? = some j) (hij : i.label = j.label) (hlabel : j.label ≠ 0) : p = q := by
  by_contra hne
  have hpair : code.Pairwise fun a b => a.label ≠ 0 → a.label ≠ b.label := by
    have h := List.pairwise_map.mp (List.pairwise_filter.mp huniq)
    exact h.imp fun h' ha hab => h' (by simpa using ha) (by simpa [← hab] using ha) hab
  obtain ⟨hp, rfl⟩ := List.getElem?_eq_some_iff.mp hi
  obtain ⟨hq, rfl⟩ := List.getElem?_eq_some_iff.mp hj
  rcases Nat.lt_or_gt_of_ne hne with hlt | hlt
  · exact List.pairwise_iff_getElem.mp hpair p q hp hq hlt (hij ▸ hlabel) hij
  · exact List.pairwise_iff_getElem.mp hpair q p hq hp hlt hlabel hij.symm

/-- Control only goes back around a loop. -/
theorem Edge.mem_loops (huniq : LabelsUnique code) (h : Edge code p q) (hle : q ≤ p) :
    ⟨q, p⟩ ∈ Interval.loops code := by
  cases h with
  | next => omega
  | jump hi hj htarget hlabel =>
    refine Interval.mem_loops_iff.mpr ⟨hle, _, _, hi, Interval.jumpTarget?_eq_some_iff.mp htarget, hlabel,
      ⟨_, hj, rfl⟩, fun r hr k hk heq => ?_⟩
    exact Nat.ne_of_gt hr (huniq.pos_eq hk hj heq hlabel)

/-! ### Closed intervals hold what flows between their positions -/

section Closed

variable {s : Interval}

/-- From inside a closed interval, or from above it, control does not get below it. -/
theorem first_le_of_reaches (huniq : LabelsUnique code)
    (hclosed : Interval.Closed (Interval.loops code) s) (hs : s.first ≤ s.last)
    (h : Reaches code p q) (hp : s.first ≤ p) : s.first ≤ q := by
  induction h with
  | refl => exact hp
  | tail _ hedge ih =>
    by_contra hlt
    have hback := hclosed _ (hedge.mem_loops huniq (by omega))
      (Interval.overlaps_iff.mpr ⟨ih, by dsimp only; omega⟩)
    exact hlt hback.1

/-- Into a closed interval, or below it, control does not get from above it. -/
theorem le_last_of_reaches (huniq : LabelsUnique code)
    (hclosed : Interval.Closed (Interval.loops code) s) (hs : s.first ≤ s.last)
    (h : Reaches code p q) (hq : q ≤ s.last) : p ≤ s.last := by
  induction h using Relation.ReflTransGen.head_induction_on with
  | refl => exact hq
  | head hedge _ ih =>
    by_contra hlt
    have hback := hclosed _ (hedge.mem_loops huniq (by omega))
      (Interval.overlaps_iff.mpr ⟨by dsimp only; omega, ih⟩)
    exact hlt hback.2

/-- A closed interval with the touches of a register holds both ends of every edge on which the
register is live. -/
theorem LiveOn.holds (huniq : LabelsUnique code) (hclosed : Interval.Closed (Interval.loops code) s)
    (hholds : ∀ t ∈ Touch.ofCode code, t.vreg = v → s.Holds t.pos) (h : LiveOn code v p q) :
    s.Holds p ∧ s.Holds q := by
  obtain ⟨d, i, hd, hdef, hfrom⟩ := h.written
  obtain ⟨u, j, hu, hread, hto⟩ := h.needed.reaches
  have hin : s.Holds d := hholds _ (Touch.mem_ofCode_of_defined hd hdef) rfl
  have hout : s.Holds u := hholds _ (Touch.mem_ofCode_of_reads hu hread) rfl
  have hs : s.first ≤ s.last := hin.1.trans hin.2
  have hp := first_le_of_reaches huniq hclosed hs hfrom hin.1
  have hq := le_last_of_reaches huniq hclosed hs hto hout.2
  exact ⟨⟨hp, le_last_of_reaches huniq hclosed hs (.single h.edge) hq⟩,
    ⟨first_le_of_reaches huniq hclosed hs (.single h.edge) hp, hq⟩⟩

end Closed

end Codegen
