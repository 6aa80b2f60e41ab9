/-
Jump targets through the whole of compilation.

Lowering is the one pass that adds labels: a variadic function jumps over the vector registers that it
need not save, and reading a variable argument chooses between two places.  Such labels are handed out
after all that the function had, and each is set once.  This takes a counter that does not wrap around: the label
after the largest word is the smallest one.

The other passes add and lose none, which `Labels` says of each of them.
-/
import Codegen.Compile
import Codegen.Proofs.Homes
import Codegen.Proofs.Labels
import Codegen.Table
import Mathlib.Data.List.Nodup

namespace Codegen

namespace Function

open Traced

/-- The labels of the code were handed out. -/
def Numbered (f : Function) : Prop := ∀ i ∈ f.code, i.label ≠ 0 → i.label ≤ f.labelCount.toInt

/-- Labels can be handed out from a count on, up to those of `g`, without going past the largest word. -/
def HasLabelsFor (f g : Function) : Prop :=
  max 0 f.labelCount.toInt + g.labels.length < 2 ^ 63 + f.labels.length

/-- The jump targets of `g` are those of `f` in their order, and others that were handed out after them, each once. -/
structure KeepsTargets (f g : Function) : Prop where
  old : g.labels.filter (· ≤ f.labelCount.toInt) = f.labels
  fresh : ∀ l ∈ g.labels, l ∉ f.labels → f.labelCount.toInt < l ∧ g.labels.count l = 1

theorem Numbered.le_of_mem {f : Function} (hf : f.Numbered) {l : Int} (hl : l ∈ f.labels) :
    l ≤ f.labelCount.toInt := by
  obtain ⟨hmem, hne⟩ := List.mem_filter.mp hl
  obtain ⟨i, hi, rfl⟩ := List.mem_map.mp hmem
  exact hf i hi (by simpa using hne)

/-- If the counter has not gone past the largest word, the labels that it has handed out are told from the old ones
by their size. -/
theorem keepsTargets_of_labelled {f g : Function} {n : Int64} (hf : f.Numbered)
    (h : Labelled f.labelCount n f.labels g.labels) (hroom : HasLabelsFor f g) : KeepsTargets f g := by
  obtain ⟨new, hsub, hperm, hnodup, hnew⟩ := h.fresh hroom
  have hold : ∀ l ∈ f.labels, l ≤ f.labelCount.toInt := fun l => hf.le_of_mem
  have hfilter : g.labels.filter (· ≤ f.labelCount.toInt) = f.labels := by
    have hkept : (f.labels.filter (· ≤ f.labelCount.toInt)) = f.labels :=
      List.filter_eq_self.mpr fun l hl => by simpa using hold l hl
    have hlost : new.filter (· ≤ f.labelCount.toInt) = [] :=
      List.filter_eq_nil_iff.mpr fun l hl => by simpa using hnew l hl
    have hlength := (hperm.filter (· ≤ f.labelCount.toInt)).length_eq
    rw [List.filter_append, hkept, hlost, List.append_nil] at hlength
    have hsub' := hsub.filter (· ≤ f.labelCount.toInt)
    rw [hkept] at hsub'
    exact (hsub'.eq_of_length hlength.symm).symm
  refine ⟨hfilter, fun l hl hfresh => ?_⟩
  have hmem : l ∈ new := (List.mem_append.mp (hperm.mem_iff.mp hl)).resolve_left hfresh
  refine ⟨hnew l hmem, ?_⟩
  rw [hperm.count_eq, List.count_append, List.count_eq_zero.mpr hfresh,
    List.nodup_iff_count_eq_one.mp hnodup l hmem]

/-- **Lowering keeps the labels, and sets those that it adds once.** -/
theorem meets_lower_labels (f : Function) :
    Meets f.lower (fun r => Labelled f.labelCount r.2.labelCount f.labels r.2.labels) fun _ => True :=
  Meets.mono f.meets_lower (fun _ hr => hr.2.2.2) fun _ h => h

/-- After lowering, the jump targets stay as they are up to the end. -/
theorem meets_compile_labels (f : Function) (rules : RuleSet) (o : Options) :
    Meets (f.compile rules o) (fun c => ∃ n, Labelled f.labelCount n f.labels c.function.labels) fun _ => True := by
  refine meets_bind f.meets_lower_labels ?_
  rintro ⟨entry, f₁⟩ h₁
  refine meets_bind (meets_trivial _) fun _ _ => ?_
  refine meets_bind (f₁.meets_select_labels rules _) ?_
  rintro ⟨f₂, used⟩ h₂
  refine meets_bind (meets_trivial _) fun _ _ => ?_
  refine meets_bind (meets_trivial _) fun ranges _ => ?_
  refine meets_bind (f₂.meets_allocate_labels _ _) ?_
  rintro ⟨assignment, f₃⟩ h₃
  refine meets_bind f₃.meets_addSpillCode_labels ?_
  rintro ⟨added, f₄⟩ h₄
  refine meets_bind (meets_trivial _) fun _ _ => ?_
  refine meets_bind f₄.meets_addFrame_labels ?_
  rintro ⟨frame, f₅⟩ h₅
  refine meets_bind (meets_note _ _) fun _ _ => meets_pure ⟨f₁.labelCount, ?_⟩
  have hlabels : f₅.labels = f₁.labels := h₅.trans (h₄.trans (h₃.trans h₂))
  rw [hlabels]
  exact h₁

/-- **No pass loses, duplicates or reorders a jump target.**  Lowering keeps the labels and sets those that it adds
once, the passes after it keep the labels as they are, and so a compiled function has the labels it started with and
assembly defines a name for each of them, in their order.  Those that lowering adds come after the old ones as long
as they are counted without going past the largest word. -/
theorem keeps_jump_targets (f : Function) :
    (f.Numbered → ∀ entry g, f.lower.result = .ok (entry, g) → HasLabelsFor f g → KeepsTargets f g) ∧
    (∀ set options g used, (f.select set options).result = .ok (g, used) → g.labels = f.labels) ∧
    (∀ a options assignment g, (f.allocate a options).result = .ok (assignment, g) → g.labels = f.labels) ∧
    (∀ added g, f.addSpillCode.result = .ok (added, g) → g.labels = f.labels) ∧
    (∀ frame g, f.addFrame.result = .ok (frame, g) → g.labels = f.labels) ∧
    (∀ frame a, f.assemble frame = .ok a → a.labels = f.labels.map (labelName f.name)) ∧
    (f.Numbered → ∀ rules options c, (f.compile rules options).result = .ok c →
      (HasLabelsFor f c.function → KeepsTargets f c.function) ∧
      ∀ a, c.function.assemble (some c.frame) = .ok a →
        a.labels = c.function.labels.map (labelName c.function.name)) := by
  refine ⟨fun hf entry g h hroom => ?_, fun set options g used h => ?_, fun a options assignment g h => ?_,
    fun added g h => ?_, fun frame g h => ?_, fun frame a h => labels_assemble h, fun hf rules options c h => ?_⟩
  · exact keepsTargets_of_labelled hf (f.meets_lower_labels.of_result h) hroom
  · exact (f.meets_select_labels set options).of_result h
  · exact (f.meets_allocate_labels a options).of_result h
  · exact f.meets_addSpillCode_labels.of_result h
  · exact f.meets_addFrame_labels.of_result h
  · obtain ⟨n, hlabels⟩ := (f.meets_compile_labels rules options).of_result h
    exact ⟨fun hroom => keepsTargets_of_labelled hf hlabels hroom, fun a ha => labels_assemble ha⟩

/-- Adds up its arguments, up to a zero. -/
def sumArgs : Function :=
  let list := Operand.slot (-3) (.array .char 24)
  let sum := Operand.vreg 27 .sint
  let next := Operand.vreg 28 .sint
  { name := "sum", params := [.sint], addressTaken := [false], result := .sint, variadic := true
    vregCount := 28, stackSlots := 3, labelCount := 2
    code :=
      [.ir .vaStart none list none, .ir .move sum (Operand.const 0 .sint) none, .target 1,
        { Instr.ir .vaArg next list none with label := 2 }, .ir .add sum sum next,
        .ir .jnz none next (Operand.label 1), .ir .ret none sum none] }

/-- Does nothing for ever. -/
def idle : Function :=
  { name := "idle", params := [], addressTaken := [], result := .void, labelCount := 1
    code := [.target 1, .ir .jmp none (Operand.label 1) none] }

/-- Saving registers and reading an argument add three labels, around the two that were there; and a loop keeps its
label to the end. -/
theorem sumArgs_keeps_jump_targets :
    (∃ entry g, sumArgs.lower.result = .ok (entry, g) ∧ g.labels = [3, 1, 2, 4, 5] ∧ KeepsTargets sumArgs g) ∧
    ∃ c, (idle.compile RuleSet.x86 {}).result = .ok c ∧ c.function.labels = [1] ∧ KeepsTargets idle c.function := by
  have hsum : sumArgs.Numbered := by unfold Numbered; decide
  have hidle : idle.Numbered := by unfold Numbered; decide
  have hlowered : (sumArgs.lower.result.toOption.map (·.2.labels)) = some [3, 1, 2, 4, 5] := by decide +kernel
  have hcompiled : ((idle.compile RuleSet.x86 {}).result.toOption.map (·.function.labels)) = some [1] := by
    decide +kernel
  constructor
  · cases h : sumArgs.lower.result with
    | error e => rw [h] at hlowered; exact nomatch hlowered
    | ok r =>
      rw [h] at hlowered
      have hlabels : r.2.labels = [3, 1, 2, 4, 5] := Option.some.inj hlowered
      refine ⟨r.1, r.2, rfl, hlabels, (keeps_jump_targets sumArgs).1 hsum r.1 r.2 h ?_⟩
      rw [HasLabelsFor, hlabels]
      decide
  · cases h : (idle.compile RuleSet.x86 {}).result with
    | error e => rw [h] at hcompiled; exact nomatch hcompiled
    | ok c =>
      rw [h] at hcompiled
      obtain ⟨-, -, -, -, -, -, hkeeps⟩ := keeps_jump_targets idle
      have hlabels : c.function.labels = [1] := Option.some.inj hcompiled
      refine ⟨c, rfl, hlabels, (hkeeps hidle RuleSet.x86 {} c h).1 ?_⟩
      rw [HasLabelsFor, hlabels]
      decide

/-- A variadic function that has set the last label there is. -/
def lastLabel : Function :=
  { name := "last", params := [.sint], addressTaken := [false], result := .void, variadic := true
    labelCount := 9223372036854775807
    code := [.target 9223372036854775807, .ir .ret none none none] }

/-- The counter wraps around, and the label that lowering adds is smaller than all others. -/
theorem lastLabel_wraps : lastLabel.Numbered ∧ ∃ entry g, lastLabel.lower.result = .ok (entry, g) ∧
    g.labels = [-9223372036854775808, 9223372036854775807] ∧ ¬ KeepsTargets lastLabel g := by
  have hnumbered : lastLabel.Numbered := by unfold Numbered; decide
  have hlowered : (lastLabel.lower.result.toOption.map (·.2.labels))
      = some [-9223372036854775808, 9223372036854775807] := by decide +kernel
  refine ⟨hnumbered, ?_⟩
  cases h : lastLabel.lower.result with
  | error e => rw [h] at hlowered; exact nomatch hlowered
  | ok r =>
    rw [h] at hlowered
    have hlabels : r.2.labels = [-9223372036854775808, 9223372036854775807] := Option.some.inj hlowered
    refine ⟨r.1, r.2, rfl, hlabels, fun hkeeps => ?_⟩
    have hfresh := hkeeps.fresh (-9223372036854775808) (by rw [hlabels]; simp) (by decide)
    exact absurd hfresh.1 (by decide)

end Function

end Codegen
