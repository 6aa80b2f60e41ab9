/-
Eightbytes are classified as defined, and all that goes by the classes agrees.

A class is computed by going through the scalars in order, but it depends only on which scalars there
are.  An aggregate that has classes has at most two of them, so there are always enough registers for
it alone, and as the first argument and as the result it gets the same ones.
-/
import Codegen.Proofs.Consistency
import Codegen.Proofs.RoundTrip

namespace Codegen

open Allocation

/-! ### Classes -/

namespace Eightbyte

/-- The eightbyte holds scalars, and all of them are floats and doubles. -/
def AllSse (t : Ty) (j : Nat) : Prop :=
  (∃ s ∈ t.scalars, s.offset.toInt / 8 = j) ∧
    ∀ s ∈ t.scalars, s.offset.toInt / 8 = j → s.type.isSse = true

variable {t : Ty} {cs : List Eightbyte} {c : Eightbyte} {j : Nat}

/-- **A type travels in memory if it is empty or too large**, or because of a scalar of extended
precision, a misaligned one, or one across two eightbytes. -/
theorem classify_eq_none_iff (hcomplete : t.complete = true) (hfit : t.extent < 2 ^ 63) :
    classify t = Option.none ↔ t.size.toInt = 0 ∨ 16 < t.size.toInt ∨
      ∃ s ∈ t.scalars, s.type.isLongDouble = true ∨ ¬ s.type.align.toInt ∣ s.offset.toInt ∨
        s.offset.toInt / 8 ≠ (s.offset.toInt + s.type.size.toInt - 1) / 8 := by
  have hlarge : t.size > 16 ↔ 16 < t.size.toInt := Int64.lt_iff_toInt_lt
  have hempty : t.size = 0 ↔ t.size.toInt = 0 := Int64.toInt_inj.symm
  have hforces : ∀ s ∈ t.scalars, (forcesMemory s = true ↔ _) := fun s hs => by
    have hpos := ((Ty.laid_scalars hfit).proper hcomplete s hs).1
    obtain ⟨hsize, hword⟩ := Ty.toInt_size_of_mem hfit hs
    exact forcesMemory_iff (Ty.scalar_inside hfit hs).1 (by omega) (by omega)
  rw [classify_eq_none, hlarge, hempty, or_left_comm]
  exact or_congr_right (or_congr_right (exists_congr fun s => and_congr_right (hforces s)))

/-- **The class of an eightbyte is read off the scalars in it**, in whatever order they come. -/
theorem class_iff (hcomplete : t.complete = true) (hfit : t.extent < 2 ^ 63)
    (h : classify t = some cs) (hj : cs[j]? = some c) :
    (c = .sse ↔ AllSse t j) ∧ (c = .integer ↔ ¬ AllSse t j) := by
  have hindex : ∀ s ∈ t.scalars, (indexOf s = j ↔ s.offset.toInt / 8 = j) := fun s hs => by
    have := Ty.scalar_inside hfit hs
    rw [indexOf_eq this.1]
    omega
  have hsize : ∀ s ∈ t.scalars, s.type.size ≠ 0 := fun s hs h0 => by
    have hpos := ((Ty.laid_scalars hfit).proper hcomplete s hs).1
    have hextent := (Ty.toInt_size_of_mem hfit hs).1
    rw [h0, show (0 : Int64).toInt = 0 from rfl] at hextent
    omega
  obtain ⟨raw, rfl, hdescribes⟩ := describes_of_classify h hj
  cases raw with
  | none =>
    have hnot : ¬ AllSse t j := fun ⟨⟨s, hs, hj⟩, _⟩ =>
      hdescribes s hs (hsize s hs) ((hindex s hs).mpr hj)
    exact ⟨iff_of_false nofun hnot, iff_of_true rfl hnot⟩
  | integer =>
    obtain ⟨s, hs, -, hinteger, hj⟩ := hdescribes
    have hnot : ¬ AllSse t j := fun ⟨_, hall⟩ => by
      rw [hall s hs ((hindex s hs).mp hj)] at hinteger
      cases hinteger
    exact ⟨iff_of_false nofun hnot, iff_of_true rfl hnot⟩
  | sse =>
    obtain ⟨⟨s, hs, -, hj⟩, hall⟩ := hdescribes
    have hsse : AllSse t j := ⟨⟨s, hs, (hindex s hs).mp hj⟩,
      fun r hr hrj => hall r hr (hsize r hr) ((hindex r hr).mpr hrj)⟩
    exact ⟨iff_of_true rfl hsse, iff_of_false nofun (not_not_intro hsse)⟩
  | memory => exact hdescribes.elim

end Eightbyte

/-! ### Registers -/

namespace Allocation

variable {a b : Allocation} {cs : List Eightbyte}

theorem seats_congr (size : Int64) (members : List Nat) (i : Nat) (cs : List Eightbyte)
    (h : ∀ c, a.taken c = b.taken c) : seats size members i cs a = seats size members i cs b := by
  induction cs generalizing i a b with
  | nil => rfl
  | cons c cs ih =>
    have hrest := ih (a := a.take c) (b := b.take c) (i + 1) fun d => by
      rw [taken_take, taken_take, h]
    rw [seats, seats, h, hrest]

end Allocation

namespace Placement

variable {t : Ty} {cs : List Eightbyte} {size : Int64} {members : List Nat} {a : Allocation}

/-- An aggregate that has classes finds registers of them, if two are left in each file. -/
theorem locations_of_classify (hagg : t.isAggregate = true) (hcs : Eightbyte.classify t = some cs)
    (hlength : cs.length ≤ 2) (hint : a.intRegs + 2 ≤ a.maxInt) (hsse : a.sseRegs + 2 ≤ a.maxSse) :
    (a.add t).1 = ⟨t, seats t.size (Eightbyte.memberCounts t) 0 cs a⟩ := by
  have hroom : ∀ c : Eightbyte, a.taken c + c.inFile cs ≤ a.limit c := fun c => by
    have hle := c.inFile_le_length cs
    cases c <;> simp only [taken, limit] <;> omega
  have hplace := takeRegisters_of_room t.size (Eightbyte.memberCounts t) 0 hroom
  simp only [add, place, placeInRegisters, if_pos hagg, hcs, hplace]

theorem inRegisters_seats (hne : cs ≠ []) :
    (⟨t, seats size members 0 cs a⟩ : Placement).inRegisters = true := by
  rw [inRegisters, Bool.and_eq_true, Bool.not_eq_true', List.isEmpty_eq_false_iff, List.all_eq_true]
  constructor
  · intro h
    have hlength := length_seats size members 0 cs a
    rw [show seats size members 0 cs a = [] from h, List.length_nil] at hlength
    exact hne (List.length_eq_zero_iff.mp hlength.symm)
  · intro l hl
    obtain ⟨c, n, hplace⟩ := place_of_mem_seats hl
    rw [Location.onStack, hplace]
    cases c <;> rfl

/-- A result that is an aggregate comes back through a pointer if it has no classes. -/
theorem ofResult_of_isAggregate (hagg : t.isAggregate = true) :
    ofResult t = if (Eightbyte.classify t).isNone then none
      else if (results.add t).1.inRegisters then some (results.add t).1
      else none := by
  cases t <;> first | rfl | exact nomatch hagg

/-- **As the first argument and as the result** an aggregate that has classes is in the same
registers. -/
theorem same_registers (hagg : t.isAggregate = true) (hcs : Eightbyte.classify t = some cs)
    (hlength : cs.length ≤ 2) (hne : cs ≠ []) :
    ∃ p : Placement, (arguments.add t).1 = p ∧ ofResult t = some p ∧
      p.inRegisters = true ∧ p.locations =
        seats t.size (Eightbyte.memberCounts t) 0 cs arguments := by
  have hargument := locations_of_classify (a := .arguments) hagg hcs hlength (by decide) (by decide)
  have hresult := locations_of_classify (a := .results) hagg hcs hlength (by decide) (by decide)
  rw [seats_congr (b := .arguments) _ _ _ _ fun c => by cases c <;> rfl] at hresult
  refine ⟨_, hargument, ?_, inRegisters_seats hne, rfl⟩
  rw [ofResult_of_isAggregate hagg, hcs, hresult, if_neg nofun, if_pos (inRegisters_seats hne)]

end Placement

namespace Eightbyte

/-- **Classes are what they are defined to be, and arguments and results go by them.**  The aggregate has
no missing component, and its size is a word.  It has no classes exactly if it is empty or larger
than sixteen bytes, or some scalar is of extended precision, misaligned, or across two eightbytes.
Else there is a class for every eightbyte that it starts, the vector class where all scalars there
are floats and doubles.  As first argument and as result it is then in registers of these classes,
eight bytes after eight bytes, and a hidden pointer is used for the others. -/
theorem classification_shared {t : Ty} (hagg : t.isAggregate = true) (hcomplete : t.complete = true)
    (hfit : t.extent < 2 ^ 63) :
    canClassify t = true ∧
    (classify t = Option.none ↔ t.size.toInt = 0 ∨ 16 < t.size.toInt ∨
      ∃ s ∈ t.scalars, s.type.isLongDouble = true ∨ ¬ s.type.align.toInt ∣ s.offset.toInt ∨
        s.offset.toInt / 8 ≠ (s.offset.toInt + s.type.size.toInt - 1) / 8) ∧
    (∀ cs, classify t = some cs →
      cs.length = (t.size.toInt.toNat + 7) / 8 ∧
      (∀ (j : Nat) (c : Eightbyte), cs[j]? = some c →
        (c = .sse ↔ AllSse t j) ∧ (c = .integer ↔ ¬ AllSse t j)) ∧
      ∃ p : Placement, (Allocation.arguments.add? t).1 = some p ∧ Placement.ofResult t = some p ∧
        p.inRegisters = true ∧ p.locations.length = cs.length ∧
        ∀ (j : Nat) (c : Eightbyte), cs[j]? = some c → ∃ n w, p.locations[j]? = some ⟨c.seat n, some w⟩ ∧
          w.offset.toInt.toNat = 8 * j ∧ w.size.toInt.toNat = min (t.size.toInt.toNat - 8 * j) 8) ∧
    Placement.canResultInMemory t = true ∧
    (Placement.resultInMemory t = true ↔ classify t = Option.none) := by
  have hcan := canClassify_of_complete hcomplete hfit
  have hadd : Allocation.canAdd t = true := by rw [Allocation.canAdd, if_pos hagg, hcan]
  have hsize := Ty.toInt_size t hfit
  have hregisters : ∀ cs, classify t = some cs → cs.length = (t.size.toInt.toNat + 7) / 8 ∧
      cs.length ≤ 2 ∧ cs ≠ [] := fun cs hcs => by
    obtain ⟨hlength, hpos, hle⟩ := length_of_classify hcs (by omega)
    exact ⟨hlength, by omega, fun h => by rw [h, List.length_nil] at hlength; omega⟩
  refine ⟨hcan, classify_eq_none_iff hcomplete hfit, fun cs hcs => ?_, ?_, ?_⟩
  · obtain ⟨hlength, hle, hne⟩ := hregisters cs hcs
    obtain ⟨p, hargument, hresult, hin, hseats⟩ := Placement.same_registers hagg hcs hle hne
    refine ⟨hlength, fun j c => class_iff hcomplete hfit hcs, p, ?_, hresult, hin, ?_, fun j c hj => ?_⟩
    · rw [Allocation.add?, if_pos hadd, ← hargument]
    · rw [hseats, Allocation.length_seats]
    · obtain ⟨n, hn⟩ := Allocation.getElem?_seats t.size (memberCounts t) 0 cs .arguments j
      have hlt := (List.getElem?_eq_some_iff.mp hj).1
      obtain ⟨hoffset, hwidth⟩ := Allocation.toNat_window (memberCounts t)
        (show 8 * j < t.size.toInt.toNat by omega)
      rw [← hseats, hj, Option.map_some, Nat.zero_add] at hn
      exact ⟨n c, _, hn, hoffset, hwidth⟩
  · rw [Placement.canResultInMemory, hagg]
    cases t <;> first | exact hadd | cases hagg
  · rw [Placement.resultInMemory, hagg, Bool.true_and]
    cases hcs : classify t with
    | none => exact iff_of_true (by rw [Placement.ofResult_of_isAggregate hagg, hcs]; rfl) rfl
    | some cs =>
      obtain ⟨-, hle, hne⟩ := hregisters cs hcs
      obtain ⟨p, -, hresult, -⟩ := Placement.same_registers hagg hcs hle hne
      exact iff_of_false (by rw [hresult]; exact Bool.false_ne_true) (Option.some_ne_none cs)

/-- A float and a character share the first eightbyte, a double has the second. -/
theorem classification_shared_mixed :
    let t : Ty := .struct "s" [.single, .char, .double] false
    t.isAggregate = true ∧ t.complete = true ∧ t.extent = 16 ∧ classify t = some [.integer, .sse] ∧
      ∃ p, Placement.ofResult t = some p ∧ (Allocation.arguments.add? t).1 = some p := by
  intro t
  have hextent : t.extent = 16 := by decide
  have hcs : classify t = some [.integer, .sse] := by decide +kernel
  obtain ⟨-, -, hclasses, -⟩ :=
    classification_shared (t := t) rfl (by decide) (by omega)
  obtain ⟨-, -, p, hargument, hresult, -⟩ := hclasses _ hcs
  exact ⟨rfl, by decide, hextent, hcs, p, hresult, hargument⟩

/-- Two arrays of characters whose sizes add up to more than a word. -/
def wrapping : Ty :=
  .struct "s" [.array .char 4611686018427387904, .array .char 4611686018427387904] false

/-- An aggregate of characters whose size wraps is neither classified nor placed. -/
theorem wrapping_unclassified :
    wrapping.isAggregate = true ∧ wrapping.complete = true ∧ wrapping.extent = 2 ^ 63 ∧
      wrapping.size.toInt = -2 ^ 63 ∧ canClassify wrapping = false ∧
      (Allocation.arguments.add? wrapping).1.isNone = true ∧
      Placement.canResultInMemory wrapping = false := by
  decide +kernel

end Eightbyte

end Codegen
