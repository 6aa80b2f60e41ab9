/-
Straight-line code.

The code is cut into basic blocks by a loop that keeps the block it is in: a label ends it before,
a jump after.  What comes out is the code cut where straight-line code cannot go on, and nowhere
else.  The two cuts of the loop are the two ways in which that can be.
-/
import Codegen.Function
import Mathlib.Data.List.SplitBy

namespace Codegen

namespace Instr

/-- Does straight-line code go on from `i` to `j`?  It ends after a jump and before a label. -/
def runsInto (i j : Instr) : Bool := !i.op.isJump && j.label == 0

theorem runsInto_of_isJump {i : Instr} (h : i.op.isJump = true) (j : Instr) : i.runsInto j = false := by
  simp [runsInto, h]

theorem runsInto_of_label {j : Instr} (h : j.label ≠ 0) (i : Instr) : i.runsInto j = false := by
  simp [runsInto, h]

/-- Straight-line code: only its first instruction has a label, and only its last one jumps. -/
def IsBlock (code : List Instr) : Prop :=
  (∀ i ∈ code.tail, i.label = 0) ∧ ∀ i ∈ code.dropLast, i.op.isJump = false

theorem isBlock_iff {code : List Instr} : IsBlock code ↔ code.IsChain fun i j => i.runsInto j = true := by
  induction code with
  | nil => simp [IsBlock]
  | cons i rest ih =>
    cases rest with
    | nil => simp [IsBlock]
    | cons j rest =>
      rw [List.isChain_cons_cons, ← ih]
      simp only [IsBlock, runsInto, List.tail_cons, List.dropLast_cons_cons, List.forall_mem_cons,
        Bool.and_eq_true, Bool.not_eq_true', beq_iff_eq]
      tauto

end Instr

open Instr

/-! ### One block at a time -/

section

variable {α : Type} {instr : α → Instr} {run rest : List α}

/-- A block that has begun and can still go on. -/
structure Begun (instr : α → Instr) (run : List α) : Prop where
  straight : run.IsChain fun a b => (instr a).runsInto (instr b) = true
  goesOn : ∀ a ∈ run.getLast?, (instr a).op.isJump = false

theorem Begun.nil : Begun instr [] := ⟨.nil, by simp⟩

/-- The first block is the one that has begun if the code cannot go on after it. -/
theorem splitBy_append_cut {r : α → α → Bool} (hne : run ≠ []) (hrun : run.IsChain fun a b => r a b = true)
    (hcut : ∀ a ∈ run.getLast?, ∀ b ∈ rest.head?, r a b = false) :
    (run ++ rest).splitBy r = run :: rest.splitBy r := by
  rw [List.splitBy_append hcut, List.splitBy_of_isChain hne hrun, List.singleton_append]

/-- An instruction without a label goes on with the block. -/
theorem Begun.straight_concat {a : α} (h : Begun instr run) (ha : (instr a).label = 0 ∨ run = []) :
    (run ++ [a]).IsChain fun a b => (instr a).runsInto (instr b) = true := by
  refine h.straight.append (.singleton a) fun b hb c hc => ?_
  obtain rfl : a = c := by simpa using hc
  rcases ha with ha | rfl
  · simp [runsInto, h.goesOn b hb, ha]
  · simp at hb

end

namespace Function

theorem blocksFrom_eq {run : List Instr} (rest : List Instr) (h : Begun (fun i => i) run) :
    blocksFrom run rest = (run ++ rest).splitBy runsInto := by
  induction rest generalizing run with
  | nil =>
    by_cases hrun : run = []
    · simp [blocksFrom, hrun]
    · rw [List.append_nil, List.splitBy_of_isChain hrun h.straight]
      simp [blocksFrom, hrun]
  | cons i rest ih =>
    -- the block that the instruction belongs to, of which it is the last one so far
    have hbegun : ∀ run : List Instr, (run ++ [i]).IsChain (fun a b => a.runsInto b = true) →
        (if i.op.isJump then (run ++ [i]) :: blocksFrom [] rest else blocksFrom (run ++ [i]) rest)
          = (run ++ i :: rest).splitBy runsInto := by
      intro run hrun
      rw [show run ++ i :: rest = run ++ [i] ++ rest by simp]
      split
      · rename_i hjump
        rw [ih .nil, List.nil_append]
        refine (splitBy_append_cut (by simp) hrun fun a ha b _ => ?_).symm
        obtain rfl : i = a := by simpa using ha
        exact runsInto_of_isJump hjump b
      · rename_i hjump
        refine ih ⟨hrun, fun a ha => ?_⟩
        obtain rfl : i = a := by simpa using ha
        simpa using hjump
    by_cases hends : i.label ≠ 0 ∧ run ≠ []
    · have hcut : (run ++ i :: rest).splitBy runsInto = run :: (i :: rest).splitBy runsInto :=
        splitBy_append_cut hends.2 h.straight (by simp [runsInto_of_label hends.1])
      have hrest := hbegun [] (.singleton i)
      simp_all [blocksFrom]
    · have hrest := hbegun run (h.straight_concat (by tauto))
      have : (i.label != 0 && !run.isEmpty) = false := by simpa using hends
      simp only [blocksFrom, this]
      simpa using hrest

/-- **The blocks are the longest runs of straight-line code.** -/
theorem blocks_eq_splitBy (f : Function) : f.blocks = f.code.splitBy runsInto :=
  blocksFrom_eq f.code .nil

theorem flatten_blocks (f : Function) : f.blocks.flatten = f.code := by
  rw [blocks_eq_splitBy, List.flatten_splitBy]

end Function

end Codegen
