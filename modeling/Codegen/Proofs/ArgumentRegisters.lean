/-
Argument registers before a call.

A call loads its argument registers one after another, then marks them all and calls.  Each register is loaded
once, and the code made for the load writes it.  Between that code and the marker stand the later loads of the
same call and the markers of earlier registers.  None of them is for this register, but a load is made with
the definitions that were merged into it, and a division, a shift by a variable amount or a conversion among
them is made with registers that its rule fixes.

So the last write before the marker belongs to the load of the register, unless a later load of the call was
made by a rule that fixes the register; then it belongs to the last such load.
-/
import Codegen.Proofs.Signedness
import Codegen.Proofs.Splitting

namespace Codegen

open Lowering

namespace Made

/-- Does the code write the register? -/
def writes (m : Made) (v : Int) : Bool := m.code.any (·.defined? == some v)

/-- Does one of the rules fix the register? -/
def fixes (m : Made) (v : Int) : Bool := m.rules.any fun r => r.fixed.any (·.pseudo == v)

/-- The last item that satisfies a test. -/
def last (test : Made → Bool) (made : List Made) : Option Made := (made.filter test).getLast?

variable {fold : Bool} {n v : Int} {m : Made}

theorem writes_eq_true : m.writes v = true ↔ ∃ j ∈ m.code, j.defined? = some v := by
  simp [writes]

theorem fixes_eq_true : m.fixes v = true ↔ ∃ r ∈ m.rules, ∃ g ∈ r.fixed, g.pseudo = v := by
  simp [fixes]

/-- Code for another destination writes an old register only if a rule fixes it. -/
theorem Proper.writes_eq_fixes (h : m.Proper RuleSet.x86 fold n) (hv : v ≤ n)
    (hdst : m.instr.dst.bind (·.vregId?) ≠ some v) : m.writes v = m.fixes v := by
  rw [Bool.eq_iff_iff, writes_eq_true, fixes_eq_true]
  constructor
  · rintro ⟨j, hj, hdef⟩
    rcases h.writes hj hdef with hw | hfix | hlt
    · exact absurd hw hdst
    · exact hfix
    · omega
  · rintro ⟨r, hr, g, hg, rfl⟩
    exact h.fixes hr hg

theorem last_writes {left between : List Made} (hm : m.writes v = true)
    (h : ∀ m' ∈ between, m'.writes v = m'.fixes v) :
    last (·.writes v) (left ++ m :: between) = some ((last (·.fixes v) between).getD m) := by
  have hsame : between.filter (·.writes v) = between.filter (·.fixes v) := List.filter_congr h
  simp [last, List.filter_append, hm, hsame, List.getLast?_cons]

end Made

/-! ### From the load to the marker -/

variable {i : Instr} {low r : Int}

theorem op_ne_of_isLoad (h : IsLoad i) : i.op ≠ .ir .callArgReg := by
  obtain ⟨⟨op, hop, heq⟩, -⟩ := h
  have hall : ∀ op ∈ loadingOps, op ≠ .callArgReg := by decide
  rw [heq]
  exact fun h => hall op hop (Opcode.ir.inj h)

/-- A marker of a reserved register stands among the markers of a call. -/
theorem Part.Sound.exists_of_marker {p : Part} (h : p.Sound low) {pre post : List Instr} {mark : Instr}
    (hcode : p.code = pre ++ mark :: post) (hop : mark.op = .ir .callArgReg)
    (hr : mark.src1.bind (·.vregId?) = some r) (hreserved : reserved low r = true) :
    ∃ loads regs₁ o regs₂ callee, p = .call loads (regs₁ ++ o :: regs₂) callee ∧ mark = marker o ∧
      pre = loads ++ regs₁.map marker := by
  cases p with
  | plain i =>
    obtain ⟨-, rfl, -⟩ : pre = [] ∧ i = mark ∧ post = [] := by
      cases pre <;> simp_all [Part.code]
    rw [h.marks hop r hr] at hreserved
    cases hreserved
  | ret loads =>
    obtain ⟨⟨ids, hfills⟩, -⟩ := h
    have hmem : mark ∈ Part.code (.ret loads) := by rw [hcode]; simp
    rcases List.mem_append.mp hmem with hmem | hmem
    · exact absurd hop (op_ne_of_isLoad (hfills.loads mark hmem))
    · rw [List.mem_singleton.mp hmem] at hop
      cases hop
  | call loads regs callee =>
    obtain ⟨hfills, -⟩ := h
    have hrest : loads ++ (regs.map marker ++ [.ir .call none callee none]) = pre ++ mark :: post := by
      rw [← hcode, Part.code, List.append_assoc]
    obtain ⟨pre', rfl, hmarks⟩ := exists_of_append_eq_left hrest fun hmem =>
      op_ne_of_isLoad (hfills.loads mark hmem) hop
    obtain ⟨post', hmarks, -⟩ := exists_of_append_eq_right hmarks fun hmem => by
      rw [List.mem_singleton.mp hmem] at hop
      cases hop
    obtain ⟨regs₁, more, rfl, rfl, hmore⟩ := List.map_eq_append_iff.mp hmarks
    obtain ⟨o, regs₂, rfl, rfl, -⟩ := List.map_eq_cons_iff.mp hmore
    exact ⟨loads, regs₁, o, regs₂, callee, rfl, rfl, rfl⟩

theorem defined?_of_isLoad (h : IsLoad i) {v : Int} (hdst : i.dst.bind (·.vregId?) = some v) (hv : v ≠ 0) :
    i.defined? = some v := by
  obtain ⟨⟨op, hop, heq⟩, -⟩ := h
  have hall : ∀ op ∈ loadingOps, (Opcode.ir op).storesThroughDst = false := by decide
  obtain ⟨d, hd, hid⟩ := Option.bind_eq_some_iff.mp hdst
  exact Instr.defined?_of_dst (by rw [heq]; exact hall op hop) hd hid hv

/-- If loads write every register once, none but the load of a register writes it. -/
theorem dst_ne_of_nodup {loads₁ loads₂ : List Instr} {load : Instr}
    (hloads : ∀ i ∈ loads₁ ++ load :: loads₂, IsLoad i)
    (hnodup : (reservedWrites low (loads₁ ++ load :: loads₂)).Nodup) (hdef : load.defined? = some r)
    (hreserved : reserved low r = true) : ∀ i ∈ loads₁ ++ loads₂, i.dst.bind (·.vregId?) ≠ some r := by
  intro i hi hdst
  have hne : r ≠ 0 := by
    rintro rfl
    exact nomatch hreserved
  have hisLoad : IsLoad i := by
    rcases List.mem_append.mp hi with hi | hi
    · exact hloads i (by simp [hi])
    · exact hloads i (by simp [hi])
  have hwrites : reservedWrites low (load :: loads₂) = r :: reservedWrites low loads₂ := by
    simp [reservedWrites, hdef, hreserved]
  rw [reservedWrites_append, hwrites, List.nodup_middle, List.nodup_cons, ← reservedWrites_append] at hnodup
  exact hnodup.1 (mem_reservedWrites.mpr ⟨⟨i, hi, defined?_of_isLoad hisLoad hdst hne⟩, hreserved⟩)

theorem exists_load {loads : List Instr} (hloads : ∀ i ∈ loads, IsLoad i) (hnodup : (reservedWrites low loads).Nodup)
    (hr : r ∈ reservedWrites low loads) :
    ∃ loads₁ load loads₂, loads = loads₁ ++ load :: loads₂ ∧ load.defined? = some r ∧
      ∀ i ∈ loads₁ ++ loads₂, i.dst.bind (·.vregId?) ≠ some r := by
  obtain ⟨⟨load, hload, hdef⟩, hreserved⟩ := mem_reservedWrites.mp hr
  obtain ⟨loads₁, loads₂, rfl⟩ := List.append_of_mem hload
  exact ⟨loads₁, load, loads₂, rfl, hdef, dst_ne_of_nodup hloads hnodup hdef hreserved⟩

namespace Function

/--
**The last write of an argument register.**

Let a function be lowered and selected by the rules of the machine, with any options, and let no operand of it
be a pseudo-register.  Take any marker of a pseudo-register in the selected code.  It was made for the marker of
a call, one load of the call is for the register, and the code made for this load writes it.  Of all the code
before the marker the last to write the register is the code made for this load, or, if one of the items
between it and the marker was made by a rule that fixes the register, for the last such item.  These items are
the later loads of the same call and the markers of its earlier registers.
-/
theorem last_write_of_argument_register {f g h : Function} {e : Entry} {options : SelectOptions}
    {used : Array Nat} (hlower : f.lower.result = .ok (e, g))
    (hselect : (g.select RuleSet.x86 options).result = .ok (h, used))
    (hclean : ∀ i ∈ f.code, Clean f.vregCount i) {before after : List Instr} {mark : Instr}
    (hcode : h.code = before ++ mark :: after) (hop : mark.op = .ir .callArgReg) {r : Int}
    (hr : mark.src1.bind (·.vregId?) = some r) (hreserved : reserved f.vregCount r = true) :
    ∃ loads₁ load loads₂ regs₁ o regs₂ callee pre post,
      g.code = pre ++ (Part.call (loads₁ ++ load :: loads₂) (regs₁ ++ o :: regs₂) callee).code ++ post ∧
      o.vregId? = some r ∧ load.defined? = some r ∧
      (∀ i ∈ loads₁ ++ loads₂, i.defined? ≠ some r) ∧
      ∃ left own between marking right parts,
        Placed f.vregCount g h options (left ++ own :: (between ++ marking :: right)) parts ∧
        before.map Instr.unlabelled = (left ++ own :: between).flatMap (·.code) ∧
        own.instr = load ∧ own.writes r = true ∧ between.map (·.instr) = loads₂ ++ regs₁.map marker ∧
        marking.instr = marker o ∧ marking.code = [mark.unlabelled] ∧
        Made.last (·.writes r) (left ++ own :: between) = some ((Made.last (·.fixes r) between).getD own) := by
  obtain ⟨made, parts, hplaced⟩ := placed_of_select hlower hselect hclean
  -- the item that the marker was made for
  have hmarks : made.flatMap (·.code)
      = before.map Instr.unlabelled ++ mark.unlabelled :: after.map Instr.unlabelled := by
    rw [← hplaced.code, hcode, List.map_append, List.map_cons]
  obtain ⟨front, marking, right, pre, post, rfl, hmarking, hbefore, -⟩ := exists_of_flatMap_eq hmarks
  have hproper := hplaced.proper marking (by simp)
  have hown : marking.code = [marking.instr.unlabelled] :=
    hproper.1.code_of_marker (j := mark.unlabelled) (by simp [hmarking])
      (by rw [show mark.unlabelled.op = mark.op from rfl, hop]; rfl)
      (by rw [show mark.unlabelled.op = mark.op from rfl, hop]; decide)
  obtain ⟨rfl, hsame, rfl⟩ : pre = [] ∧ marking.instr.unlabelled = mark.unlabelled ∧ post = [] := by
    rw [hown] at hmarking
    cases pre <;> simp_all
  rw [List.append_nil] at hbefore
  have hmark : marking.instr.op = .ir .callArgReg ∧ marking.instr.src1.bind (·.vregId?) = some r := by
    have hop' := congrArg Instr.op hsame
    have hsrc := congrArg Instr.src1 hsame
    exact ⟨hop'.trans hop, (congrArg (·.bind (·.vregId?)) hsrc).trans hr⟩
  -- the call that it belongs to
  have hinstrs : (splitParts g.vregCount parts).1.flatMap (·.code)
      = front.map (·.instr) ++ marking.instr :: right.map (·.instr) := by
    rw [← hplaced.instrs, List.map_append, List.map_cons]
  obtain ⟨leftParts, p, rightParts, pre, post, hparts, hp, hfront, -⟩ := exists_of_flatMap_eq hinstrs
  have hmem : p ∈ (splitParts g.vregCount parts).1 := by rw [hparts]; simp
  have hsound := hplaced.sound_split p hmem
  obtain ⟨loads, regs₁, o, regs₂, callee, rfl, hmarker, rfl⟩ :=
    Part.Sound.exists_of_marker hsound hp hmark.1 hmark.2 hreserved
  have ho : o.vregId? = some r := by
    rw [hmarker] at hmark
    exact hmark.2
  -- the load of the register
  have hwritten : r ∈ reservedWrites f.vregCount loads := by
    rw [hsound.1.writes]
    exact List.mem_filter.mpr ⟨List.mem_filterMap.mpr ⟨o, by simp, ho⟩, hreserved⟩
  obtain ⟨loads₁, load, loads₂, rfl, hload, hothers⟩ := exists_load hsound.1.loads hsound.2 hwritten
  have hmap : front.map (·.instr)
      = (leftParts.flatMap (·.code) ++ loads₁) ++ load :: (loads₂ ++ regs₁.map marker) := by
    rw [hfront]
    simp
  obtain ⟨left, rest, rfl, -, hrest⟩ := List.map_eq_append_iff.mp hmap
  obtain ⟨own, between, rfl, rfl, hbetween⟩ := List.map_eq_cons_iff.mp hrest
  have hreg : Reg.isPseudo r = true ∧ r ≤ f.vregCount := by simpa [reserved] using hreserved
  have howns := hplaced.proper own (by simp)
  have hwrites : own.writes r = true :=
    Made.writes_eq_true.mpr (howns.1.delivers howns.2.1 howns.2.2 hload hreg.1)
  have hfixes : ∀ m ∈ between, m.writes r = m.fixes r := by
    intro m hm
    refine (hplaced.proper m (by simp [hm])).1.writes_eq_fixes (Int.le_trans hreg.2 hplaced.low_le_split) ?_
    have hmem : m.instr ∈ loads₂ ++ regs₁.map marker := hbetween ▸ List.mem_map_of_mem hm
    rcases List.mem_append.mp hmem with hmem | hmem
    · exact hothers m.instr (by simp [hmem])
    · obtain ⟨o', -, hmarker⟩ := List.mem_map.mp hmem
      rw [← hmarker]
      simp [marker, Instr.ir]
  obtain ⟨pre, post, rfl⟩ := List.append_of_mem (mem_of_splitParts rfl hmem)
  refine ⟨loads₁, own.instr, loads₂, regs₁, o, regs₂, callee, _, _, by simpa using hplaced.lowered, ho, hload,
    fun i hi hdef => hothers i hi (Instr.dst_of_defined? hdef), left, own, between, marking, right, _,
    by simpa using hplaced, hbefore, rfl, hwrites, hbetween, hmarker, by rw [hown, hsame],
    Made.last_writes hwrites hfixes⟩

/-- A call with four arguments, of which the last is a quotient. -/
def dividing : Function :=
  { Function.new "f" .sint [.sint, .sint, .sint] with
    vregCount := 28
    code :=
      [.ir .startCall none (some (.const 1 .sint)) none,
       .ir .div (some (.vreg 27 .sint)) (some ⟨.param 0, .sint, 0⟩) (some ⟨.param 1, .sint, 0⟩),
       .ir .arg none (some (.const 1 .sint)) (some (.const 1 .sint)),
       .ir .arg none (some (.const 1 .sint)) (some (.const 2 .sint)),
       .ir .arg none (some (.const 1 .sint)) (some ⟨.param 2, .sint, 0⟩),
       .ir .arg none (some (.const 1 .sint)) (some (.vreg 27 .sint)),
       .ir .call (some (.vreg 28 .sint))
         (some ⟨.func "g", .func [.sint, .sint, .sint, .sint] .sint false, 0⟩) (some (.const 1 .sint)),
       .ir .endCall none none none,
       .ir .ret none (some (.vreg 28 .sint)) none] }

theorem clean_dividing : ∀ i ∈ dividing.code, Clean dividing.vregCount i := by
  have hall : (dividing.code.all fun i => i.operands.all fun o =>
      o.vregId?.all fun v => !reserved dividing.vregCount v) = true := by decide
  intro i hi o ho v hv
  have h := List.all_eq_true.mp (List.all_eq_true.mp hall i hi) o ho
  simpa [hv] using h

theorem ops_lower_dividing : (dividing.lower.result.toOption.map fun p =>
    (p.2.code.filter fun i => i.defined? == some Reg.rdx.pseudo).map (·.op)) = some [.ir .move] := by
  decide +kernel

/-- The marker of the third argument register, and the operations before it that write the register. -/
theorem ops_select_dividing : (dividing.lower.result.toOption.bind fun p =>
    (p.2.select RuleSet.x86 {}).result.toOption.map fun q =>
      (q.1.code[13]?.map fun i => (i.op, i.src1.bind (·.vregId?)),
        ((q.1.code.take 13).filter fun i => i.defined? == some Reg.rdx.pseudo).map (·.op)))
    = some (some (.ir .callArgReg, some Reg.rdx.pseudo), [.machine .mov, .machine .cltd]) := by
  decide +kernel

/-- The code of the call up to the marker of the third argument register. -/
theorem exists_code_dividing : ∃ e g h used before mark after, dividing.lower.result = .ok (e, g) ∧
    (g.select RuleSet.x86 {}).result = .ok (h, used) ∧ h.code = before ++ mark :: after ∧
    mark.op = .ir .callArgReg ∧ mark.src1.bind (·.vregId?) = some Reg.rdx.pseudo ∧
    (g.code.filter fun i => i.defined? == some Reg.rdx.pseudo).map (·.op) = [.ir .move] ∧
    (before.filter fun i => i.defined? == some Reg.rdx.pseudo).map (·.op) = [.machine .mov, .machine .cltd] := by
  obtain ⟨⟨e, g⟩, hlower, hloads⟩ := exists_of_toOption ops_lower_dividing
  have hops := ops_select_dividing
  rw [hlower] at hops
  obtain ⟨⟨h, used⟩, hselect, hobserved⟩ := exists_of_toOption hops
  obtain ⟨hmark, hbefore⟩ := Prod.mk.inj hobserved
  obtain ⟨mark, hget, hmark⟩ := Option.map_eq_some_iff.mp hmark
  obtain ⟨hop, hsrc⟩ := Prod.mk.inj hmark
  obtain ⟨hlt, rfl⟩ := List.getElem?_eq_some_iff.mp hget
  refine ⟨e, g, h, used, h.code.take 13, h.code[13], h.code.drop 14, hlower, hselect, ?_, hop, hsrc, hloads, hbefore⟩
  rw [← List.drop_eq_getElem_cons hlt, List.take_append_drop]

theorem dividing_argument_written : ∃ e g h used before mark after left own between,
    dividing.lower.result = .ok (e, g) ∧ (g.select RuleSet.x86 {}).result = .ok (h, used) ∧
    h.code = before ++ mark :: after ∧ mark.op = .ir .callArgReg ∧
    before.map Instr.unlabelled = (left ++ own :: between).flatMap (·.code) ∧
    own.instr.defined? = some Reg.rdx.pseudo ∧
    Made.last (·.writes Reg.rdx.pseudo) (left ++ own :: between)
      = some ((Made.last (·.fixes Reg.rdx.pseudo) between).getD own) := by
  obtain ⟨e, g, h, used, before, mark, after, hlower, hselect, hcode, hop, hsrc, -, -⟩ := exists_code_dividing
  obtain ⟨_, _, _, _, _, _, _, _, _, -, -, hload, -, left, own, between, _, _, _, -, hbefore, rfl, -, -, -, -, hlast⟩ :=
    last_write_of_argument_register hlower hselect clean_dividing hcode hop hsrc (by decide)
  exact ⟨e, g, h, used, before, mark, after, left, own, between, hlower, hselect, hcode, hop, hbefore, hload, hlast⟩

/-- The quotient is merged into the load of the fourth argument, and its division overwrites the third. -/
theorem dividing_overwrites_argument : ∃ e g h used before mark after, dividing.lower.result = .ok (e, g) ∧
    (g.select RuleSet.x86 {}).result = .ok (h, used) ∧ h.code = before ++ mark :: after ∧
    mark.op = .ir .callArgReg ∧ mark.src1.bind (·.vregId?) = some Reg.rdx.pseudo ∧
    (∀ i ∈ g.code, i.defined? = some Reg.rdx.pseudo → i.op = .ir .move) ∧
    ((before.filter fun i => i.defined? == some Reg.rdx.pseudo).getLast?.map (·.op)) = some (.machine .cltd) := by
  obtain ⟨e, g, h, used, before, mark, after, hlower, hselect, hcode, hop, hsrc, hloads, hwrites⟩ :=
    exists_code_dividing
  refine ⟨e, g, h, used, before, mark, after, hlower, hselect, hcode, hop, hsrc, fun i hi hdef => ?_, ?_⟩
  · have hmem : i.op ∈ (g.code.filter fun i => i.defined? == some Reg.rdx.pseudo).map (·.op) :=
      List.mem_map_of_mem (List.mem_filter.mpr ⟨hi, by simp [hdef]⟩)
    rw [hloads] at hmem
    exact List.mem_singleton.mp hmem
  · rw [← List.getLast?_map, hwrites]
    rfl

end Function

end Codegen
