/-
Basic blocks are a partition of the code.

A block is given by two numbers, its first and that of the next block, and stands for what
lies between them.  What is between the bounds of the blocks is the code cut where straight-line
code cannot go on, and nowhere else.
-/
import Codegen.Proofs.Chain
import Codegen.Proofs.StraightLine

namespace Codegen.Chain

open Instr

/-- The numbers from the start of a block up to its end. -/
def between (c : Chain) (block : Int × Int) : List Int :=
  (c.ids.dropWhile (· != block.1)).takeWhile (· != block.2)

/-! ### Bounds -/

/-- Pair each run's first number with the next one's, or -1 for the last. -/
def bounds : List (List Int) → List (Int × Int)
  | [] => []
  | run :: rest =>
    (run.headD (-1), (rest.head?.bind (·.head?)).getD (-1)) :: bounds rest

theorem bounds_linked (runs : List (List Int)) :
    (bounds runs).IsChain (fun a b => a.2 = b.1) ∧ ∀ b ∈ (bounds runs).getLast?, b.2 = -1 := by
  induction runs with
  | nil => simp [bounds]
  | cons run rest ih =>
    cases rest with
    | nil => simp [bounds]
    | cons next rest =>
      refine ⟨List.isChain_cons_cons.mpr ⟨by simp, ih.1⟩, ?_⟩
      simpa [bounds] using ih.2

theorem takeWhile_dropWhile {x e : Int} {done run rest : List Int} (hx : x ∉ done)
    (he : e ∉ x :: run) (hrest : ∀ y ∈ rest.head?, y = e) :
    ((done ++ x :: run ++ rest).dropWhile (· != x)).takeWhile (· != e) = x :: run := by
  rw [List.append_assoc, List.dropWhile_append_of_pos fun a ha => by grind, List.cons_append,
    List.dropWhile_cons_of_neg (by simp), ← List.cons_append,
    List.takeWhile_append_of_pos fun a ha => by grind]
  cases rest with
  | nil => simp
  | cons y rest => simp [hrest y rfl]

variable {c : Chain} {ids : List Int} {run code : List (Int × Instr)} {id : Int}

/-- What is between the bounds of a run is the run. -/
theorem between_bounds (hids : (-1 :: c.ids).Nodup) {runs : List (List Int)} (hruns : [] ∉ runs) :
    ∀ done : List Int, c.ids = done ++ runs.flatten →
      (bounds runs).map (fun b => (c.between b, some b.1)) = runs.map fun run => (run, run.head?) := by
  induction runs with
  | nil => exact fun _ _ => rfl
  | cons run rest ih =>
    intro done hdone
    obtain ⟨hrun, hrest⟩ : [] ≠ run ∧ [] ∉ rest := by simpa using hruns
    obtain ⟨x, run, rfl⟩ := List.exists_cons_of_ne_nil hrun.symm
    have heq : c.ids = done ++ x :: run ++ rest.flatten := by simpa using hdone
    simp only [bounds, List.map_cons, ih hrest _ heq]
    rw [heq, List.append_assoc] at hids
    obtain ⟨hnone, hnodup⟩ := List.nodup_cons.mp hids
    obtain ⟨-, htail, hleft⟩ := List.nodup_append.mp hnodup
    obtain ⟨-, -, hright⟩ := List.nodup_append.mp htail
    have hbetween : c.between (x, (rest.head?.bind (·.head?)).getD (-1)) = x :: run := by
      have hfresh : x ∉ done := fun hx => hleft x hx x (by simp) rfl
      rw [between, heq]
      cases rest with
      | nil => exact takeWhile_dropWhile hfresh (fun hx => hnone (by simp_all)) (by simp)
      | cons next rest =>
        obtain ⟨y, next, rfl⟩ := List.exists_cons_of_ne_nil (List.ne_of_not_mem_cons hrest).symm
        exact takeWhile_dropWhile hfresh (fun hy => hright y hy y (by simp) rfl) (by simp)
    simp [hbetween]

/-! ### The loop that cuts -/

/-- The numbers of each stretch of straight-line code. -/
def runs (code : List (Int × Instr)) : List (List Int) :=
  (code.splitBy fun a b => a.2.runsInto b.2).map (·.map Prod.fst)

/-- The number of the first instruction, or -1. -/
def firstOf (code : List (Int × Instr)) : Int := (code.head?.map Prod.fst).getD (-1)

theorem firstOf_append (hne : run ≠ []) (rest : List (Int × Instr)) : firstOf (run ++ rest) = firstOf run := by
  cases run with
  | nil => exact absurd rfl hne
  | cons entry run => rfl

theorem firstOf_of_follows (h : Follows c.next? id (code.map Prod.fst)) : firstOf code = id := by
  cases code with
  | nil => exact h.symm
  | cons entry rest => exact h.1.symm

theorem head?_runs (code : List (Int × Instr)) :
    ((runs code).head?.bind (·.head?)).getD (-1) = firstOf code := by
  cases code with
  | nil => rfl
  | cons entry rest =>
    have hne : (entry :: rest).splitBy (fun a b => a.2.runsInto b.2) ≠ [] := by simp
    have hhead := List.head_head_splitBy (fun a b : Int × Instr => a.2.runsInto b.2) (List.cons_ne_nil entry rest)
    rw [runs, List.head?_map, List.head?_eq_some_head hne]
    simp only [Option.map_some, Option.bind_some, List.head?_map,
      List.head?_eq_some_head (List.ne_nil_of_mem_splitBy (List.head_mem hne)), Option.getD_some]
    exact congrArg Prod.fst hhead

theorem bounds_append_cut {rest : List (Int × Instr)} (hne : run ≠ [])
    (hrun : run.IsChain fun a b => a.2.runsInto b.2 = true)
    (hcut : ∀ a ∈ run.getLast?, ∀ b ∈ rest.head?, a.2.runsInto b.2 = false) :
    bounds (runs (run ++ rest)) = (firstOf run, firstOf rest) :: bounds (runs rest) := by
  rw [runs, splitBy_append_cut hne hrun hcut, List.map_cons, bounds, ← runs, head?_runs]
  cases run with
  | nil => exact absurd rfl hne
  | cons entry run => rfl

/-- The loop gives the bounds of the stretches of straight-line code. -/
theorem blocksFrom_eq {fuel : Nat} (h : Begun Prod.snd run) (hnodup : (-1 :: (run ++ code).map Prod.fst).Nodup)
    (hfuel : code.length ≤ fuel) (hfollows : Follows c.next? id (code.map Prod.fst))
    (hcode : ∀ entry ∈ code, c.instr? entry.1 = some entry.2) :
    c.blocksFrom fuel (firstOf (run ++ code)) id = bounds (runs (run ++ code)) := by
  induction code generalizing run fuel id with
  | nil =>
    obtain rfl : id = -1 := hfollows
    have hend : ∀ start, c.blocksFrom fuel start (-1) = if start = -1 then [] else [(start, -1)] := by
      intro start
      cases fuel <;> rfl
    rw [hend]
    cases run with
    | nil => rfl
    | cons entry run =>
      rw [bounds_append_cut (by simp) h.straight (by simp), firstOf_append (by simp)]
      have hstart : firstOf (entry :: run) ≠ -1 := fun heq =>
        (List.nodup_cons.mp hnodup).1 (List.mem_cons.mpr (.inl heq.symm))
      rw [if_neg hstart]
      rfl
  | cons entry rest ih =>
    obtain ⟨x, i⟩ := entry
    obtain ⟨rfl, n, hn, hrest⟩ := hfollows
    obtain ⟨l, hl, rfl⟩ := Option.map_eq_some_iff.mp hn
    obtain rfl : l.instr = i := by simpa [instr?, hl] using hcode (id, i) (by simp)
    obtain _ | fuel := fuel
    · simp at hfuel
    have hfuel : rest.length ≤ fuel := by simpa using hfuel
    have hcode : ∀ entry ∈ rest, c.instr? entry.1 = some entry.2 := fun entry he => hcode entry (by simp [he])
    -- the block that the instruction belongs to, of which it is the last one so far
    have hbegun : ∀ run, (run ++ [(id, l.instr)]).IsChain (fun a b => a.2.runsInto b.2 = true) →
        (-1 :: (run ++ (id, l.instr) :: rest).map Prod.fst).Nodup →
        (if l.instr.op.isJump then
            (firstOf (run ++ [(id, l.instr)]), l.next) :: c.blocksFrom fuel l.next l.next
          else c.blocksFrom fuel (firstOf (run ++ [(id, l.instr)])) l.next)
          = bounds (runs (run ++ (id, l.instr) :: rest)) := by
      intro run hrun hnodup
      rw [show run ++ (id, l.instr) :: rest = run ++ [(id, l.instr)] ++ rest by simp] at hnodup ⊢
      have hlast : ∀ a ∈ (run ++ [(id, l.instr)]).getLast?, a = (id, l.instr) := by simp
      split
      · rename_i hjump
        have hblocks := ih (@Begun.nil _ Prod.snd) (hnodup.sublist (by simp)) hfuel hrest hcode
        rw [List.nil_append, firstOf_of_follows hrest] at hblocks
        rw [bounds_append_cut (by simp) hrun, hblocks, firstOf_of_follows hrest]
        intro a ha b _
        rw [hlast a ha]
        exact runsInto_of_isJump hjump b.2
      · rename_i hjump
        have hgoes : ∀ a ∈ (run ++ [(id, l.instr)]).getLast?, a.2.op.isJump = false := by
          intro a ha
          rw [hlast a ha]
          simpa using hjump
        have hblocks := ih ⟨hrun, hgoes⟩ hnodup hfuel hrest hcode
        rwa [firstOf_append (by simp)] at hblocks
    have hstart : (l.instr.label != 0 && id != firstOf (run ++ (id, l.instr) :: rest)) = true ↔
        l.instr.label ≠ 0 ∧ run ≠ [] := by
      cases run with
      | nil => simp [firstOf]
      | cons entry run =>
        have : id ≠ entry.1 := by
          rintro rfl
          simp at hnodup
        simpa [firstOf] using fun _ => this
    simp only [blocksFrom, hl]
    by_cases hends : l.instr.label ≠ 0 ∧ run ≠ []
    · have hrest : _ = bounds (runs ((id, l.instr) :: rest)) :=
        hbegun [] (.singleton _) (hnodup.sublist (by simp))
      rw [if_pos (hstart.mpr hends), if_pos (hstart.mpr hends), firstOf_append hends.2,
        bounds_append_cut hends.2 h.straight (by simp [runsInto_of_label hends.1]), ← hrest]
      rfl
    · rw [if_neg (mt hstart.mp hends), if_neg (mt hstart.mp hends), List.nil_append,
        ← hbegun run (h.straight_concat (by tauto)) hnodup]
      rw [show run ++ (id, l.instr) :: rest = run ++ [(id, l.instr)] ++ rest by simp, firstOf_append (by simp)]

/-- The code along a walk, and its blocks. -/
theorem exists_code_of_follows (h : Follows c.next? c.first ids) :
    ∃ code : List (Int × Instr), code.map Prod.fst = ids ∧
      (∀ entry ∈ code, c.instr? entry.1 = some entry.2) ∧ c.blocks = bounds (runs code) := by
  obtain ⟨hpath, hno⟩ := follows_next_iff.mp h
  let code := ids.filterMap fun id => (c.instr? id).map fun i => (id, i)
  have hmap : code.map Prod.fst = ids := by
    rw [List.map_filterMap]
    refine (List.filterMap_congr fun id hid => ?_).trans List.filterMap_some
    obtain ⟨l, hl⟩ := exists_link_of_follows h hid
    simp [instr?, hl]
  have hcode : ∀ entry ∈ code, c.instr? entry.1 = some entry.2 := by
    intro entry hentry
    obtain ⟨id, -, heq⟩ := List.mem_filterMap.mp hentry
    obtain ⟨i, hi, rfl⟩ := Option.map_eq_some_iff.mp heq
    exact hi
  refine ⟨code, hmap, hcode, ?_⟩
  rw [← hmap] at h hpath hno
  have hblocks := blocksFrom_eq (@Begun.nil _ Prod.snd) (List.nodup_cons.mpr ⟨hno, hpath.nodup hno⟩)
    (by simpa using length_le_of_follows h) h hcode
  rwa [List.nil_append, firstOf_of_follows h] at hblocks

/-- The blocks of a chain cut the numbers `ids` into straight-line code. -/
structure Partitions (c : Chain) (ids : List Int) : Prop where
  flatten : (c.blocks.map c.between).flatten = ids
  nodup : ids.Nodup
  /-- No block is empty, and each begins at its first number. -/
  block : ∀ b ∈ c.blocks, (c.between b).head? = some b.1 ∧ IsBlock ((c.between b).filterMap c.instr?)
  linked : c.blocks.IsChain fun a b => a.2 = b.1
  last : ∀ b ∈ c.blocks.getLast?, b.2 = -1
  /-- Two neighbours cannot be joined. -/
  maximal : c.blocks.IsChain fun a b => ¬ IsBlock ((c.between a ++ c.between b).filterMap c.instr?)

/-- Blocks can be told of every chain on which the walk along the links ends. -/
theorem partitions_of_follows (h : Follows c.next? c.first ids) : c.Partitions ids := by
  obtain ⟨hpath, hno⟩ := follows_next_iff.mp h
  have hnodup := hpath.nodup hno
  have hids := ids_of_follows h
  obtain ⟨code, rfl, hcode, hblocks⟩ := exists_code_of_follows h
  generalize hsplit : code.splitBy (fun a b => a.2.runsInto b.2) = parts
  have hruns : runs code = parts.map (·.map Prod.fst) := by rw [runs, hsplit]
  have hflat : parts.flatten = code := by rw [← hsplit, List.flatten_splitBy]
  have hinstrs : ∀ {part}, part ⊆ code → (part.map Prod.fst).filterMap c.instr? = part.map Prod.snd :=
    fun hpart => filterMap_instr? fun entry hentry => hcode entry (hpart hentry)
  have hpart : ∀ part ∈ parts, part ⊆ code := fun part hpart entry hentry =>
    hflat ▸ List.mem_flatten_of_mem hpart hentry
  have hne : [] ∉ parts := hsplit ▸ List.nil_notMem_splitBy _ _
  have hmap : c.blocks.map (fun b => (c.between b, some b.1)) = (runs code).map fun run => (run, run.head?) :=
    hblocks ▸ between_bounds (by rw [hids]; exact List.nodup_cons.mpr ⟨hno, hnodup⟩)
      (by simpa [hruns] using hne) [] (by rw [hids, hruns, ← List.map_flatten, hflat]; rfl)
  have hbetween : c.blocks.map c.between = runs code := by
    have := congrArg (List.map Prod.fst) hmap
    simpa [Function.comp_def] using this
  refine ⟨?_, hnodup, fun b hb => ?_, hblocks ▸ (bounds_linked _).1, hblocks ▸ (bounds_linked _).2, ?_⟩
  · rw [hbetween, hruns, ← List.map_flatten, hflat]
  · have hmem : (c.between b, some b.1) ∈ (runs code).map fun run => (run, run.head?) :=
      hmap ▸ List.mem_map_of_mem hb
    obtain ⟨run, hrun, heq⟩ := List.mem_map.mp hmem
    obtain ⟨rfl, hhead⟩ := Prod.mk.inj heq
    refine ⟨hhead, isBlock_iff.mpr ?_⟩
    rw [hruns] at hrun
    obtain ⟨part, hmem, heq⟩ := List.mem_map.mp hrun
    rw [← heq, hinstrs (hpart part hmem), List.isChain_map]
    exact List.isChain_of_mem_splitBy (hsplit ▸ hmem)
  · refine (List.isChain_map c.between
      (R := fun a b => ¬ IsBlock ((a ++ b).filterMap c.instr?))).mp ?_
    rw [hbetween, hruns, List.isChain_map]
    refine List.IsChain.imp_of_mem_imp ?_ (hsplit ▸ List.isChain_getLast_head_splitBy _ _)
    rintro a b ha hb ⟨hane, hbne, hcut⟩ hblock
    rw [← List.map_append, hinstrs (List.append_subset.mpr ⟨hpart a ha, hpart b hb⟩), isBlock_iff,
      List.isChain_map] at hblock
    rw [hblock.rel_getLast_head_of_append hane hbne] at hcut
    cases hcut

/--
**Blocks partition the code.**

Make any edits on an empty chain, such that the anchor of each insertion is in the list at that
time or no instruction at all.  The blocks are stretches of the code that are not empty and begin
at their first number.  Put together they give every number of the list, in order and once.  Each
block ends where the next one begins, and the last one at no instruction.  In each block only the
first instruction can have a label and only the last one can jump, and this is not so of two
neighbouring blocks taken together.
-/
theorem blocks_partition (es : List Edit) (h : Numbered.allowsAll {} es = true) :
    (empty.edits es).2.Partitions (Numbered.edits {} es).2.ids :=
  partitions_of_follows (represents_empty.edits h).2.follows_next

/-- A labelled jump, code after a jump without a label, and labels that follow each other. -/
def branchingEdits : List Edit :=
  [.append (.target 1), .append { op := .ir .ret, label := 2 }, .append (.target 3), .append (.target 4),
    .append { op := .ir .ret }, .after 1 { op := .ir .ret }, .remove 0]

theorem branchingEdits_partition :
    Numbered.allowsAll {} branchingEdits = true ∧
      (empty.edits branchingEdits).2.blocks = [(1, 5), (5, 2), (2, 3), (3, -1)] ∧
      ((empty.edits branchingEdits).2.blocks.map (empty.edits branchingEdits).2.between).flatten
        = [1, 5, 2, 3, 4] :=
  ⟨by decide, by decide, (blocks_partition branchingEdits (by decide)).flatten.trans (by decide)⟩

end Codegen.Chain
