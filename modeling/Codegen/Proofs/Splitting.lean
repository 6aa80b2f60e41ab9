/-
The parts of lowered code in selection.

Selection starts by splitting instructions whose result goes to memory.  What loads registers of the
convention, marks them, calls or returns has no such result, so calls and returns stay as they are and plain
instructions become plain instructions.

This places every part of the lowered code among the items that code is made for.
-/
import Codegen.Proofs.Homes
import Codegen.Proofs.Writes

namespace Codegen

/-- An element of what a list was flattened to comes from one of its elements. -/
theorem exists_of_flatMap_eq {α β : Type} {f : α → List β} {l : List α} {before after : List β} {x : β}
    (h : l.flatMap f = before ++ x :: after) : ∃ left a right pre post, l = left ++ a :: right ∧
      f a = pre ++ x :: post ∧ before = left.flatMap f ++ pre ∧ after = post ++ right.flatMap f := by
  induction l generalizing before with
  | nil => exact absurd h (by simp)
  | cons a l ih =>
    rw [List.flatMap_cons] at h
    rcases List.append_eq_append_iff.mp h with ⟨pre, hbefore, hrest⟩ | ⟨pre, ha, hrest⟩
    · obtain ⟨left, b, right, pre', post, rfl, hb, hpre, hafter⟩ := ih hrest
      refine ⟨a :: left, b, right, pre', post, rfl, hb, ?_, hafter⟩
      rw [hbefore, hpre, List.flatMap_cons, List.append_assoc]
    · cases pre with
      | nil =>
        have hrest' : l.flatMap f = [] ++ x :: after := hrest.symm
        obtain ⟨left, b, right, pre', post, rfl, hb, hpre, hafter⟩ := ih hrest'
        refine ⟨a :: left, b, right, pre', post, rfl, hb, ?_, hafter⟩
        rw [List.flatMap_cons, List.append_assoc, ← hpre, ha, List.append_nil, List.append_nil]
      | cons y post =>
        obtain ⟨rfl, hafter⟩ := List.cons.inj hrest
        exact ⟨[], a, l, before, post, rfl, ha, rfl, hafter⟩

/-! ### Splitting -/

namespace Function

theorem splitMemoryDsts_append (n : Int) (code more : List Instr) :
    splitMemoryDsts n (code ++ more) = ((splitMemoryDsts n code).1 ++
      (splitMemoryDsts (splitMemoryDsts n code).2 more).1, (splitMemoryDsts (splitMemoryDsts n code).2 more).2) := by
  induction code generalizing n with
  | nil => rfl
  | cons i code ih =>
    simp only [List.cons_append, splitMemoryDsts, ih, List.append_assoc]

/-- Code that writes no memory stays as it is. -/
theorem splitMemoryDsts_eq_self {code : List Instr}
    (h : ∀ i ∈ code, ∀ d, i.dst = some d → d.isMemory = false) (n : Int) : splitMemoryDsts n code = (code, n) := by
  induction code with
  | nil => rfl
  | cons i code ih =>
    have hone : splitMemoryDst n i = ([i], n) := by
      unfold splitMemoryDst
      split
      · next d hd => rw [if_pos (by simp [h i (by simp) d hd])]
      · rfl
    simp only [splitMemoryDsts, hone, ih fun j hj => h j (by simp [hj])]
    rfl

end Function

namespace Lowering

/-- Split a part. -/
def Part.split (n : Int) : Part → List Part × Int
  | .plain i => ((Function.splitMemoryDst n i).1.map .plain, (Function.splitMemoryDst n i).2)
  | p => ([p], n)

/-- Split parts one after another. -/
def splitParts : Int → List Part → List Part × Int
  | n, [] => ([], n)
  | n, p :: rest => ((p.split n).1 ++ (splitParts (p.split n).2 rest).1, (splitParts (p.split n).2 rest).2)

section split

variable {low n : Int} {p : Part} {i : Instr} {parts : List Lowering.Part}

theorem dst_of_isLoad (h : IsLoad i) : ∀ d, i.dst = some d → d.isMemory = false := by
  intro d hd
  obtain ⟨-, v, hv⟩ := h
  rw [hd] at hv
  obtain ⟨value, type, offset⟩ := d
  cases value with
  | vreg r => rfl
  | _ => exact nomatch hv

/-- The code of a part is split with it. -/
theorem splitMemoryDsts_part (h : p.Sound low) (n : Int) :
    Function.splitMemoryDsts n p.code = ((p.split n).1.flatMap (·.code), (p.split n).2) := by
  cases p with
  | plain i =>
    rw [show (Part.split n (.plain i)).1 = (Function.splitMemoryDst n i).1.map .plain from rfl, flatMap_plain]
    exact congrArg (·, _) (List.append_nil _)
  | call loads regs callee =>
    rw [Function.splitMemoryDsts_eq_self]
    · exact congrArg (·, n) (List.append_nil _).symm
    intro i hi d hd
    rcases List.mem_append.mp hi with hi | hi
    · rcases List.mem_append.mp hi with hi | hi
      · exact dst_of_isLoad (h.1.loads i hi) d hd
      · obtain ⟨r, -, rfl⟩ := List.mem_map.mp hi
        exact nomatch hd
    · rw [List.mem_singleton.mp hi] at hd
      exact nomatch hd
  | ret loads =>
    rw [Function.splitMemoryDsts_eq_self]
    · exact congrArg (·, n) (List.append_nil _).symm
    intro i hi d hd
    obtain ⟨⟨ids, hfills⟩, -⟩ := h
    rcases List.mem_append.mp hi with hi | hi
    · exact dst_of_isLoad (hfills.loads i hi) d hd
    · rw [List.mem_singleton.mp hi] at hd
      exact nomatch hd

theorem splitMemoryDsts_parts {parts : List Part} (h : ∀ p ∈ parts, p.Sound low) (n : Int) :
    Function.splitMemoryDsts n (parts.flatMap (·.code))
      = ((splitParts n parts).1.flatMap (·.code), (splitParts n parts).2) := by
  induction parts generalizing n with
  | nil => rfl
  | cons p rest ih =>
    rw [List.flatMap_cons, Function.splitMemoryDsts_append, splitMemoryDsts_part (h p (by simp)),
      ih fun q hq => h q (by simp [hq])]
    simp only [splitParts, List.flatMap_append]

theorem tame_split (h : Tame low i) (hn : low ≤ n) :
    (∀ j ∈ (Function.splitMemoryDst n i).1, Tame low j) ∧ n ≤ (Function.splitMemoryDst n i).2 := by
  unfold Function.splitMemoryDst
  split
  · next d hd =>
    split
    · exact ⟨by simpa using h, Int.le_refl _⟩
    · next hsplit =>
      simp only [Bool.or_eq_true, Bool.not_eq_true', not_or, Bool.not_eq_false] at hsplit
      have hlt : low < n + 1 := by omega
      refine ⟨fun j hj => ?_, Int.le_of_lt (Int.lt_succ n)⟩
      simp only [List.mem_cons, List.not_mem_nil, or_false] at hj
      rcases hj with rfl | rfl
      · refine tame_of_dst ?_ fun d' hd' => ?_
        · rintro hop
          simp [show i.op = .ir .callArgReg from hop, Opcode.isMarker] at hsplit
        · obtain rfl := Option.some.inj hd'
          exact unreserved_of_lt hlt d.type
      · exact tame_ir (by decide) (unreserved_of_isMemory low hsplit.1.1.1.1) _ _
  · exact ⟨by simpa using h, Int.le_refl _⟩

theorem sound_split (h : p.Sound low) (hn : low ≤ n) :
    (∀ q ∈ (p.split n).1, q.Sound low) ∧ n ≤ (p.split n).2 := by
  cases p with
  | plain i =>
    obtain ⟨hall, hle⟩ := tame_split (n := n) h hn
    refine ⟨fun q hq => ?_, hle⟩
    obtain ⟨j, hj, rfl⟩ := List.mem_map.mp hq
    exact hall j hj
  | call loads regs callee =>
    exact ⟨fun q hq => by rw [List.mem_singleton.mp hq]; exact h, Int.le_refl _⟩
  | ret loads => exact ⟨fun q hq => by rw [List.mem_singleton.mp hq]; exact h, Int.le_refl _⟩

theorem sound_splitParts (h : ∀ p ∈ parts, p.Sound low) (hn : low ≤ n) :
    (∀ q ∈ (splitParts n parts).1, q.Sound low) ∧ n ≤ (splitParts n parts).2 := by
  induction parts generalizing n with
  | nil => exact ⟨fun _ hq => (List.not_mem_nil hq).elim, Int.le_refl _⟩
  | cons p rest ih =>
    obtain ⟨hall, hle⟩ := sound_split (n := n) (h p (by simp)) hn
    obtain ⟨hall', hle'⟩ := ih (fun q hq => h q (by simp [hq])) (Int.le_trans hn hle)
    refine ⟨fun q hq => ?_, Int.le_trans hle hle'⟩
    exact (List.mem_append.mp hq).elim (hall q) (hall' q)

/-- Is the part a single plain instruction? -/
def Part.isPlain : Part → Bool
  | .plain _ => true
  | _ => false

theorem splitParts_append (n : Int) (parts more : List Part) : splitParts n (parts ++ more)
    = ((splitParts n parts).1 ++ (splitParts (splitParts n parts).2 more).1,
      (splitParts (splitParts n parts).2 more).2) := by
  induction parts generalizing n with
  | nil => rfl
  | cons p parts ih =>
    simp only [List.cons_append, splitParts, ih, List.append_assoc]

/-- A call or a return stays where it is. -/
theorem splitParts_middle (hp : p.isPlain = false) (n : Int) (left right : List Part) :
    ∃ right', (splitParts n (left ++ p :: right)).1 = (splitParts n left).1 ++ p :: right' := by
  have hsplit : ∀ m, p.split m = ([p], m) := fun m => by
    cases p with
    | plain i => exact nomatch hp
    | call loads regs callee => rfl
    | ret loads => rfl
  rw [splitParts_append, splitParts, hsplit]
  exact ⟨_, rfl⟩

theorem mem_of_splitParts (hp : p.isPlain = false) (h : p ∈ (splitParts n parts).1) : p ∈ parts := by
  induction parts generalizing n with
  | nil => exact h
  | cons q rest ih =>
    rcases List.mem_append.mp h with h | h
    · cases q with
      | plain i =>
        obtain ⟨j, -, rfl⟩ := List.mem_map.mp h
        exact nomatch hp
      | call loads regs callee => rw [List.mem_singleton.mp h]; exact List.mem_cons_self
      | ret loads => rw [List.mem_singleton.mp h]; exact List.mem_cons_self
    · exact List.mem_cons_of_mem _ (ih h)

end split

end Lowering

/-! ### Selected code -/

open Lowering

/-- The selected code, item by item, and the parts of the lowered code that the items are for. -/
structure Placed (low : Int) (g h : Function) (options : SelectOptions) (made : List Made) (parts : List Part) :
    Prop where
  code : h.code.map Instr.unlabelled = made.flatMap (·.code)
  items : made.map (·.item) = g.items options
  proper : ∀ m ∈ made, m.Proper RuleSet.x86 options.fold g.split.vregCount ∧ m.item.Composed ∧ m.item.Moved
  lowered : g.code = parts.flatMap (·.code)
  sound : ∀ p ∈ parts, p.Sound low
  low_le : low ≤ g.vregCount

namespace Placed

variable {low : Int} {g h : Function} {options : SelectOptions} {made : List Made} {parts : List Part}

theorem split_eq (hplaced : Placed low g h options made parts) : Function.splitMemoryDsts g.vregCount g.code
    = ((splitParts g.vregCount parts).1.flatMap (·.code), (splitParts g.vregCount parts).2) := by
  rw [hplaced.lowered]
  exact splitMemoryDsts_parts hplaced.sound _

theorem instrs (hplaced : Placed low g h options made parts) :
    made.map (·.instr) = (splitParts g.vregCount parts).1.flatMap (·.code) := by
  have hrenders := (g.renders_items options).1
  rw [← hplaced.items, List.map_map] at hrenders
  exact hrenders.trans (congrArg Prod.fst hplaced.split_eq)

theorem sound_split (hplaced : Placed low g h options made parts) :
    ∀ p ∈ (splitParts g.vregCount parts).1, p.Sound low :=
  (sound_splitParts hplaced.sound hplaced.low_le).1

theorem low_le_split (hplaced : Placed low g h options made parts) : low ≤ g.split.vregCount := by
  have hcount : g.split.vregCount = (splitParts g.vregCount parts).2 := congrArg Prod.snd hplaced.split_eq
  rw [hcount]
  exact Int.le_trans hplaced.low_le (sound_splitParts hplaced.sound hplaced.low_le).2

end Placed

variable {e : Entry} {g h : Function} {options : SelectOptions}

/-- **A function without reserved operands is selected part by part.** -/
theorem Function.placed_of_select {f : Function} {used : Array Nat} (hlower : f.lower.result = .ok (e, g))
    (hselect : (g.select RuleSet.x86 options).result = .ok (h, used))
    (hclean : ∀ i ∈ f.code, Clean f.vregCount i) :
    ∃ made parts, Placed f.vregCount g h options made parts := by
  obtain ⟨parts, hparts, hsound⟩ := parts_of_lower hlower hclean
  obtain ⟨made, hcode, hitems, hproper⟩ := select_made hselect
  exact ⟨made, parts, hcode, hitems, hproper, hparts, hsound, vregCount_le_of_lower hlower⟩

end Codegen
