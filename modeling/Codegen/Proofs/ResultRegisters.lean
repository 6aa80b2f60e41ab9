/-
Result registers before a return.

An aggregate that is returned in registers is loaded eightbyte by eightbyte, and then the function returns.  The
return itself names no register, so nothing keeps a result register alive after it was loaded: the allocator may
put what the later eightbytes are computed with in the same physical register.

Between the move into a result register and the return stand only the rest of its own load and the later loads.
The physical register is overwritten there exactly if one of their instructions computes an ordinary register
that lives in it, or was made by a rule that fixes it.
-/
import Codegen.Proofs.ArgumentRegisters
import Codegen.Proofs.Finishing

namespace Codegen

open Lowering

/-! ### The code of a return -/

namespace Item

/-- An instruction without sources is its own tree. -/
def Bare (item : Item) : Prop :=
  item.instr.src1 = none → item.instr.src2 = none → item.tree = .ofInstr item.instr

theorem bare_items (f : Function) (options : SelectOptions) : ∀ item ∈ f.items options, item.Bare := by
  refine forall_items (fun _ _ hd => hd) fun {i t e e'} _ _ hgrafted (h₁ : i.src1 = none) (h₂ : i.src2 = none) => ?_
  obtain ⟨l, r, e₁, rfl, hl, hr⟩ := hgrafted.exists_node
  rw [h₁] at hl
  rw [h₂] at hr
  cases hl
  cases hr
  rw [Tree.ofInstr, h₁, h₂]

end Item

/-- The return of an aggregate. -/
def Instr.plainReturn : Instr := .ir .ret none none none

/-- A return without an operand is one instruction without a destination. -/
theorem RuleSet.returns_x86 : RuleSet.x86.rules.all (fun r => r.op != .ir .ret || r.src1 != .none ||
    (r.ops.map fun m => (m.op, m.dst)) == [(.machine .ret, .none)]) = true := by
  decide +kernel

namespace Made

variable {fold : Bool} {n : Int} {m : Made}

theorem prepare_plainReturn (fold : Bool) (t : Ty) :
    Selection.prepare fold .plainReturn (.node (.ir .ret) t .absent .absent) = .node (.ir .ret) t .absent .absent := by
  cases fold <;> rfl

/-- **A return without an operand returns and writes nothing.** -/
theorem Proper.plainReturn (h : m.Proper RuleSet.x86 fold n) (hbare : m.item.Bare) (hmoved : m.item.Moved)
    (hinstr : m.instr = .plainReturn) : (∃ j ∈ m.code, j.op = .machine .ret) ∧ ∀ j ∈ m.code, j.dst = none := by
  cases h with
  | merged h =>
    obtain ⟨-, v, hv, -⟩ := hmoved h
    rw [show Item.instr _ = _ from hinstr] at hv
    exact nomatch hv
  | settled _ hs =>
    rw [show Item.instr _ = _ from hinstr] at hs
    exact nomatch hs
  | @selected item _ _ cover moves new hnew =>
    have hitem : item.instr = .plainReturn := hinstr
    have htree : item.tree = .node (.ir .ret) (Tree.valueType .plainReturn) .absent .absent := by
      rw [hbare (by rw [hitem]; rfl) (by rw [hitem]; rfl), hitem]
      rfl
    rw [hitem, htree, prepare_plainReturn] at hnew
    obtain ⟨op, type, l, r, rule, a, b, ht, rfl, hrule, -, ha, hb⟩ := hnew.chosen.exists_node
    obtain ⟨rfl, rfl, rfl, rfl⟩ := Tree.node.inj ht
    obtain ⟨hsrc1, rfl⟩ := ha.eq_absent
    obtain ⟨-, rfl⟩ := hb.eq_absent
    obtain ⟨hmem, hop, -⟩ := RuleSet.mem_forOp hrule
    have hops : (rule.ops.map fun m => (m.op, m.dst)) = [(.machine .ret, .none)] := by
      have hrow := List.all_eq_true.mp RuleSet.returns_x86 rule hmem
      simpa [hop, hsrc1] using hrow
    -- without a destination there is nothing to move to
    have hmoves : moves = [] := by
      refine List.eq_nil_iff_forall_not_mem.mpr fun c hc => ?_
      obtain ⟨d, v, hd, -⟩ := hnew.settles c hc
      exact nomatch hd
    subst hmoves
    have hrules : ([Cover.node rule (Tree.valueType .plainReturn) .absent .absent].flatMap Cover.rules) = [rule] := rfl
    obtain ⟨micro, hmicro⟩ : ∃ micro, rule.ops = [micro] :=
      List.length_eq_one_iff.mp (by simpa using congrArg List.length hops)
    rw [hmicro] at hops
    obtain ⟨hret, hnone⟩ : micro.op = .machine .ret ∧ micro.dst = .none := by simpa using hops
    constructor
    · have hopcodes := hnew.ops
      rw [hrules, Selection.opcodesOf, List.flatMap_cons, hmicro] at hopcodes
      have hin : .machine .ret ∈ Selection.opcodes new := by
        rw [hopcodes]
        simp [hret]
      obtain ⟨j, hj, hjop⟩ := List.mem_map.mp (List.mem_filter.mp hin).1
      exact ⟨j, hj, hjop⟩
    · intro j hj
      by_contra hdst
      obtain ⟨r, hr, m, hm, -, hne⟩ := hnew.aimed j hj (Option.isSome_iff_ne_none.mpr hdst)
      rw [hrules, List.mem_singleton] at hr
      rw [hr, hmicro, List.mem_singleton] at hm
      exact hne (hm ▸ hnone)

end Made

/-! ### From the move to the return -/

variable {i : Instr} {v : Int}

theorem not_isLoad (h : i.dst = none) : ¬ IsLoad i := by
  rintro ⟨-, v, hv⟩
  rw [h] at hv
  exact nomatch hv

/-- A load of a reserved register that a return follows is a load of the return. -/
theorem Part.Sound.exists_of_return {low : Int} {p : Part} (h : p.Sound low) {pre rest tail loads post : List Instr}
    {load : Instr} {r : Int} (hcode : p.code = pre ++ load :: rest) (hdef : load.defined? = some r)
    (hreserved : reserved low r = true) (hrest : rest ++ tail = loads ++ Instr.plainReturn :: post)
    (hloads : ∀ i ∈ loads, IsLoad i) : p = .ret (pre ++ load :: loads) := by
  cases p with
  | plain i =>
    obtain ⟨-, rfl, -⟩ : pre = [] ∧ i = load ∧ rest = [] := by
      cases pre <;> simp_all [Part.code]
    rw [h.writes r hdef] at hreserved
    cases hreserved
  | call own regs callee =>
    have hnone : ∀ i ∈ regs.map marker ++ [.ir .call none callee none], i.dst = none := by
      intro i hi
      rcases List.mem_append.mp hi with hi | hi
      · obtain ⟨o, -, rfl⟩ := List.mem_map.mp hi
        rfl
      · rw [List.mem_singleton.mp hi]
        rfl
    have hcode' : own ++ (regs.map marker ++ [.ir .call none callee none]) = pre ++ load :: rest := by
      rw [← hcode, Part.code, List.append_assoc]
    obtain ⟨later, hown, rfl⟩ := exists_of_append_eq_right hcode' fun hmem => by
      have hdst := Instr.dst_of_defined? hdef
      rw [hnone load hmem] at hdst
      cases hdst
    -- the first instruction after the loads is a marker or the call
    obtain ⟨first, others, hfirst⟩ := List.exists_cons_of_ne_nil
      (show regs.map marker ++ [.ir .call none callee none] ≠ [] by simp)
    have hmem : first ∈ regs.map marker ++ [.ir .call none callee none] := by rw [hfirst]; simp
    rw [hfirst, List.append_assoc] at hrest
    obtain ⟨-, hsame, -⟩ := eq_of_append_eq hrest
      (fun i hi => h.1.loads i (by simp [hown, hi])) hloads (not_isLoad (hnone first hmem)) (not_isLoad rfl)
    rw [hsame] at hmem
    rcases List.mem_append.mp hmem with hmem | hmem
    · obtain ⟨o, -, ho⟩ := List.mem_map.mp hmem
      cases congrArg Instr.op ho
    · cases congrArg Instr.op (List.mem_singleton.mp hmem)
  | ret own =>
    obtain ⟨⟨ids, hfills⟩, -⟩ := h
    have hcode' : own ++ [.plainReturn] = pre ++ load :: rest := hcode
    obtain ⟨later, hown, rfl⟩ := exists_of_append_eq_right hcode' fun hmem => by
      rw [List.mem_singleton.mp hmem] at hdef
      cases hdef
    rw [List.append_assoc] at hrest
    obtain ⟨rfl, -⟩ := eq_of_append_eq (l := later) hrest
      (fun i hi => hfills.loads i (by simp [hown, hi])) hloads (not_isLoad rfl) (not_isLoad rfl)
    rw [hown]

/-- The code made for a load goes to virtual registers. -/
theorem Made.Proper.vregId_of_isLoad {fold : Bool} {n : Int} {m : Made} (h : m.Proper RuleSet.x86 fold n)
    (hload : IsLoad m.instr) {j : Instr} (hj : j ∈ m.code) :
    j.dst = none ∨ ∃ v, j.dst.bind (·.vregId?) = some v := by
  cases hd : j.dst with
  | none => exact .inl rfl
  | some o =>
    refine .inr ?_
    rcases h.targets hj hd with hdst | ⟨-, -, g, -, hg⟩ | ⟨v, hv, -⟩
    · obtain ⟨-, v, hv⟩ := hload
      rw [hdst] at hv
      exact ⟨v, hv⟩
    · exact ⟨_, hg⟩
    · exact ⟨v, hv⟩

/-- The instruction computes a virtual register that lives in a physical one, and is not dropped. -/
def Assignment.Hits (a : Assignment) (r : Reg) (i : Instr) (v : Int) : Prop :=
  (a.settled i).isSelfMove = false ∧ i.op.storesThroughDst = false ∧ i.dst.bind (·.vregId?) = some v ∧
    a.home? v = some (.register r)

theorem Assignment.any_overwrites_iff {a : Assignment} {r : Reg} (hr : r.isScratch = false) (hne : r ≠ .none)
    (hall : ∀ j ∈ (a.settled i).kept, ∃ s, Spilling.ofInstr j = .ok s)
    (hdst : i.dst = none ∨ ∃ v, i.dst.bind (·.vregId?) = some v ∧ (a.home? v).isSome = true) :
    (∃ j ∈ a.finish i, j.overwrites r = true) ↔ ∃ v, a.Hits r i v := by
  rw [← List.any_eq_true, any_overwrites_finish hr hall]
  rcases hdst with hnone | ⟨v, hv, hhome⟩
  · rw [overwrites_settled_of_none hnone]
    constructor
    · rintro ⟨-, hfalse⟩
      exact nomatch hfalse
    · rintro ⟨v, -, -, hv, -⟩
      rw [hnone] at hv
      exact nomatch hv
  · rw [overwrites_settled hv hhome hne]
    constructor
    · rintro ⟨hself, hop, hreg⟩
      exact ⟨v, hself, hop, hv, hreg⟩
    · rintro ⟨u, hself, hop, hu, hreg⟩
      obtain rfl := Option.some.inj (hv.symm.trans hu)
      exact ⟨hself, hop, hreg⟩

/-- The physical registers that pseudo-registers stand for are none of the scratch registers. -/
theorem Reg.ofPseudo_not_scratch (hv : Reg.isPseudo v = true) :
    (Reg.ofPseudo v).isScratch = false ∧ Reg.ofPseudo v ≠ .none :=
  Reg.forall_pseudo (P := fun v => (Reg.ofPseudo v).isScratch = false ∧ Reg.ofPseudo v ≠ .none) (by decide) hv

namespace Function

/--
**When a result register is overwritten.**

Let a function without pseudo-registers among its operands be lowered, selected by the rules of the machine,
allocated and given spill code, with any options, analysis and budget.  Take any load of a result register in the
lowered code that only other loads separate from the return.  In the selected code some instruction made for
the load writes the register, and after the last such instruction stand what is left of its own load, the code
made for the later loads, and the return, which writes nothing.

In the final code the physical register is overwritten between that instruction and the return exactly if one of
the instructions in between computes a virtual register that lives there and is not dropped, and this is an
ordinary register, or it is the result register itself and the instruction was made by a rule that fixes it.
-/
theorem result_register_overwritten_iff {f g h k out : Function} {e : Entry} {options : SelectOptions}
    {used : Array Nat} {x : Analysis} {budget : AllocateOptions} {a : Assignment} {n : Nat}
    (hlower : f.lower.result = .ok (e, g)) (hselect : (g.select RuleSet.x86 options).result = .ok (h, used))
    (halloc : (h.allocate x budget).result = .ok (a, k)) (hspill : k.addSpillCode.result = .ok (n, out))
    (hclean : ∀ i ∈ f.code, Clean f.vregCount i) {pre loads post : List Instr} {load : Instr} {r : Int}
    (hcode : g.code = pre ++ load :: (loads ++ .plainReturn :: post)) (hloads : ∀ i ∈ loads, IsLoad i)
    (hdef : load.defined? = some r) (hreserved : reserved f.vregCount r = true) :
    ∃ left own between returning right parts before move rest last after front tail,
      Placed f.vregCount g h options (left ++ own :: (between ++ returning :: right)) parts ∧
      own.instr = load ∧ between.map (·.instr) = loads ∧ returning.instr = .plainReturn ∧
      h.code = before ++ move :: (rest ++ (last ++ after)) ∧ move.defined? = some r ∧
      own.code = front ++ move.unlabelled :: tail ∧
      rest.map Instr.unlabelled = tail ++ between.flatMap (·.code) ∧
      last.map Instr.unlabelled = returning.code ∧
      out.code = before.flatMap a.finish ++ (a.finish move ++
        (rest.flatMap a.finish ++ (last.flatMap a.finish ++ after.flatMap a.finish))) ∧
      (∃ j ∈ last.flatMap a.finish, j.op = .machine .ret) ∧
      (∀ j ∈ last.flatMap a.finish, j.overwrites (Reg.ofPseudo r) = false) ∧
      ((∃ j ∈ rest.flatMap a.finish, j.overwrites (Reg.ofPseudo r) = true) ↔
        ∃ i ∈ rest, ∃ v, a.Hits (Reg.ofPseudo r) i v ∧ (reserved f.vregCount v = false ∨
          v = r ∧ ∃ m ∈ between, i.unlabelled ∈ m.code ∧ m.fixes r = true)) := by
  obtain ⟨made, parts, hplaced⟩ := placed_of_select hlower hselect hclean
  -- the return that the load belongs to
  obtain ⟨leftParts, p, rightParts, pre', post', rfl, hp, -, hafter⟩ :=
    exists_of_flatMap_eq (hplaced.lowered.symm.trans hcode)
  obtain rfl := Part.Sound.exists_of_return (hplaced.sound p (by simp)) hp hdef hreserved hafter.symm hloads
  obtain ⟨rightParts', hsplit⟩ := splitParts_middle (p := .ret (pre' ++ load :: loads)) rfl g.vregCount
    leftParts rightParts
  -- its items
  have hmap : made.map (·.instr) = ((splitParts g.vregCount leftParts).1.flatMap (·.code) ++ pre') ++
      load :: (loads ++ .plainReturn :: rightParts'.flatMap (·.code)) := by
    rw [hplaced.instrs, hsplit]
    simp [Part.code, Instr.plainReturn]
  obtain ⟨left, made₁, rfl, -, hmap₁⟩ := List.map_eq_append_iff.mp hmap
  obtain ⟨own, made₂, rfl, rfl, hmap₂⟩ := List.map_eq_cons_iff.mp hmap₁
  obtain ⟨between, made₃, rfl, rfl, hmap₃⟩ := List.map_eq_append_iff.mp hmap₂
  obtain ⟨returning, right, rfl, hreturning, -⟩ := List.map_eq_cons_iff.mp hmap₃
  have hreg : Reg.isPseudo r = true ∧ r ≤ f.vregCount := by simpa [reserved] using hreserved
  have howns := hplaced.proper own (by simp)
  obtain ⟨front, move', tail, hown, hmove', htail⟩ :=
    exists_last (howns.1.delivers howns.2.1 howns.2.2 hdef hreg.1)
  -- its code
  have hall : h.code.map Instr.unlabelled = (left.flatMap (·.code) ++ front) ++ move' ::
      ((tail ++ between.flatMap (·.code)) ++ (returning.code ++ right.flatMap (·.code))) := by
    rw [hplaced.code]
    simp [hown]
  obtain ⟨before, code₁, hh, -, hall₁⟩ := List.map_eq_append_iff.mp hall
  obtain ⟨move, code₂, rfl, rfl, hall₂⟩ := List.map_eq_cons_iff.mp hall₁
  obtain ⟨rest, code₃, rfl, hrest, hall₃⟩ := List.map_eq_append_iff.mp hall₂
  obtain ⟨last, after, rfl, hlast, -⟩ := List.map_eq_append_iff.mp hall₃
  obtain ⟨hout, hspills⟩ := finish_code halloc hspill
  obtain ⟨-, hsafe, hnamed⟩ := (allocate_safe_or_not_allocatable h x budget).of_result halloc
  obtain ⟨hscratch, hne⟩ := Reg.ofPseudo_not_scratch hreg.1
  obtain ⟨⟨ret, hret, hretop⟩, hretdst⟩ := (hplaced.proper returning (by simp)).1.plainReturn
    (Item.bare_items g options _ (hplaced.items ▸ List.mem_map_of_mem (by simp)))
    (hplaced.proper returning (by simp)).2.2 hreturning
  refine ⟨left, own, between, returning, right, _, before, move, rest, last, after, front, tail, hplaced, rfl, rfl,
    hreturning, hh, hmove', hown, hrest, hlast, by rw [hout, hh]; simp, ?_, ?_, ?_⟩
  · -- the return is there
    obtain ⟨i, hi, rfl⟩ := List.mem_map.mp (hlast ▸ hret)
    have hself : (a.settled i).isSelfMove = false := by
      have hop : (a.settled i).op = .machine .ret := hretop
      simp [Instr.isSelfMove, hop]
    obtain ⟨j, hj, hop⟩ := Assignment.exists_op_finish hself (hspills i (by simp [hh, hi]))
    exact ⟨j, List.mem_flatMap.mpr ⟨i, hi, hj⟩, hop.trans hretop⟩
  · intro j hj
    obtain ⟨i, hi, hj⟩ := List.mem_flatMap.mp hj
    have hdst : i.dst = none := hretdst i.unlabelled (hlast ▸ List.mem_map_of_mem hi)
    by_contra hover
    obtain ⟨v, -, -, hv, -⟩ := (Assignment.any_overwrites_iff hscratch hne (hspills i (by simp [hh, hi]))
      (.inl hdst)).mp ⟨j, hj, by simpa using hover⟩
    rw [hdst] at hv
    cases hv
  · obtain ⟨⟨ids, hfills⟩, hnodup⟩ := hplaced.sound (.ret (pre' ++ own.instr :: between.map (·.instr))) (by simp)
    have hisLoad : IsLoad own.instr := hfills.loads own.instr (by simp)
    have hfrom : ∀ i ∈ rest, i.unlabelled ∈ tail ∨ ∃ m ∈ between, i.unlabelled ∈ m.code := by
      intro i hi
      have hmem : i.unlabelled ∈ tail ++ between.flatMap (·.code) := hrest ▸ List.mem_map_of_mem hi
      exact (List.mem_append.mp hmem).imp_right List.mem_flatMap.mp
    have hdst : ∀ i ∈ rest, i.dst = none ∨ ∃ v, i.dst.bind (·.vregId?) = some v ∧ (a.home? v).isSome = true := by
      intro i hi
      have hvreg : i.dst = none ∨ ∃ v, i.dst.bind (·.vregId?) = some v := by
        rcases hfrom i hi with hmem | ⟨m, hm, hmem⟩
        · exact howns.1.vregId_of_isLoad hisLoad (j := i.unlabelled) (by simp [hown, hmem])
        · exact (hplaced.proper m (by simp [hm])).1.vregId_of_isLoad (hloads m.instr (List.mem_map_of_mem hm))
            (j := i.unlabelled) hmem
      refine hvreg.imp_right fun h => ?_
      obtain ⟨v, hv⟩ := h
      refine ⟨v, hv, hnamed v ⟨i, by simp [hh, hi], ?_⟩⟩
      obtain ⟨o, ho, hid⟩ := Option.bind_eq_some_iff.mp hv
      exact ⟨o, Spilling.mem_operands_dst ho, hid⟩
    have hiff := fun i (hi : i ∈ rest) =>
      Assignment.any_overwrites_iff hscratch hne (hspills i (by simp [hh, hi])) (hdst i hi)
    constructor
    · rintro ⟨j, hj, hover⟩
      obtain ⟨i, hi, hj⟩ := List.mem_flatMap.mp hj
      obtain ⟨v, hhits⟩ := (hiff i hi).mp ⟨j, hj, hover⟩
      refine ⟨i, hi, v, hhits, ?_⟩
      cases hv : reserved f.vregCount v with
      | false => exact .inl rfl
      | true =>
        -- a reserved register lives in its own physical register only
        obtain ⟨-, hop, hid, hhome⟩ := hhits
        have hpseudo : Reg.isPseudo v = true := by
          simp only [reserved, Bool.and_eq_true] at hv
          exact hv.1
        rw [hsafe.fixed v hpseudo] at hhome
        obtain rfl : v = r := Reg.ofPseudo_inj hpseudo hreg.1 (Home.register.inj (Option.some.inj hhome))
        have hwrites : i.unlabelled.defined? = some v := by
          obtain ⟨o, ho, hid⟩ := Option.bind_eq_some_iff.mp hid
          refine Instr.defined?_of_dst (i := i.unlabelled) hop ho hid ?_
          rintro rfl
          cases hpseudo
        rcases hfrom i hi with hmem | ⟨m, hm, hmem⟩
        · exact absurd hwrites (htail _ hmem)
        · refine .inr ⟨rfl, m, hm, hmem, ?_⟩
          rw [← (hplaced.proper m (by simp [hm])).1.writes_eq_fixes
            (Int.le_trans hreg.2 hplaced.low_le_split) ?_]
          · exact Made.writes_eq_true.mpr ⟨_, hmem, hwrites⟩
          · exact dst_ne_of_nodup hfills.loads hnodup hdef hreserved m.instr
              (List.mem_append_right _ (List.mem_map_of_mem hm))
    · rintro ⟨i, hi, v, hhits, -⟩
      obtain ⟨j, hj, hover⟩ := (hiff i hi).mpr ⟨v, hhits⟩
      exact ⟨j, List.mem_flatMap.mpr ⟨i, hi, hj⟩, hover⟩

/-- A struct of a word and two floats. -/
def wordAndFloats : Ty := .struct "s" [.long, .float .single, .float .single] false

/-- Returns a global of that type. -/
def fetching : Function :=
  { Function.new "f" wordAndFloats [] with
    code := [.ir .ret none (some (.global "g" wordAndFloats)) none] }

/-- The intervals of its registers, in the order of the sweep. -/
def fetchingSegments : List Segment := [⟨1, .int, ⟨0, 0⟩⟩, ⟨29, .int, ⟨1, 2⟩⟩, ⟨13, .sse, ⟨2, 2⟩⟩]

/-- The analysis of code with these segments. -/
def analysisOf (f : Function) (segments : List Segment) : Analysis :=
  let facts := f.code.foldl Analysis.addInstr (.empty (f.vregCount + 1))
  { facts with graph := Segment.sweep f.code.toArray facts.graph [] segments }

theorem lower_fetching : (fetching.lower.result.toOption.map fun p =>
    (p.2.code.map (·.defined?) == [some 27, some 1, some 28, some 13, none]) &&
      ((p.2.code.take 4).all fun i => (loadingOps.any (i.op == .ir ·)) && (i.dst.bind (·.vregId?)).isSome) &&
      (p.2.code[4]?.any fun i => i.op == .ir .ret && i.label == 0 && i.dst.isNone && i.src1.isNone &&
        i.src2.isNone && i.template == .empty)) = some true := by
  decide +kernel

/-- The registers that the selected code touches. -/
def fetchingTouches : List Touch := [⟨1, 0, true⟩, ⟨29, 1, true⟩, ⟨29, 2, false⟩, ⟨13, 2, true⟩]

theorem select_fetching : (fetching.lower.result.toOption.bind fun p =>
    (p.2.select RuleSet.x86 {}).result.toOption.bind fun q =>
      (q.1.allocate (q.1.analysisOf fetchingSegments) {}).result.toOption.bind fun r =>
        r.2.addSpillCode.result.toOption.map fun s =>
          (Touch.ofCode q.1.code == fetchingTouches && Interval.loops q.1.code == [] &&
            LiveRanges.inRange q.1.code q.1.vregCount &&
            Segment.classOf (q.1.code.flatMap Instr.operands) 29 == .int &&
            q.1.code.map (·.defined?) == [some 1, some 29, some 13, none] &&
            s.2.code.map (fun i => (i.op, i.overwrites .rax)) ==
              [(.machine .mov, true), (.machine .mov, true), (.machine .movPregClass, false), (.machine .ret, false)]))
    = some true := by
  decide +kernel

theorem ofCode_intervals {code : List Instr}
    (htouches : Touch.ofCode code = fetchingTouches)
    (hloops : Interval.loops code = []) :
    Interval.ofCode code = [(1, [⟨0, 0⟩]), (13, [⟨2, 2⟩]), (29, [⟨1, 2⟩])] := by
  have hsorted : [1, 29, 29, (13 : Int)].mergeSort (· ≤ ·) = [1, 13, 29, 29] := by
    simp [List.mergeSort, List.MergeSort.Internal.splitInTwo]
  have hregisters : Interval.registers fetchingTouches = [1, 13, 29] :=
    congrArg Interval.dedupSorted hsorted
  rw [Interval.ofCode, htouches, hloops, hregisters]
  decide

variable {operands : List Operand} {e : Entry} {g : Function}

theorem ofIntervals_segments (hcls : Segment.classOf operands 29 = .int) :
    Segment.ofIntervals operands [(1, [⟨0, 0⟩]), (13, [⟨2, 2⟩]), (29, [⟨1, 2⟩])] = fetchingSegments := by
  have hlist : ([(1, [⟨0, 0⟩]), (13, [⟨2, 2⟩]), (29, [⟨1, 2⟩])].flatMap fun (p : Int × List Interval) =>
      p.2.map fun r => (⟨p.1, Segment.classOf operands p.1, r⟩ : Segment))
      = [⟨1, .int, ⟨0, 0⟩⟩, ⟨13, .sse, ⟨2, 2⟩⟩, ⟨29, .int, ⟨1, 2⟩⟩] := by
    simp [hcls]
    exact ⟨rfl, rfl⟩
  show List.mergeSort _ _ = _
  rw [hlist]
  simp [List.mergeSort, Segment.before, fetchingSegments]

theorem eq_ok_of_toOption {ε α : Type} {y : Except ε α} {b : α} (h : y.toOption = some b) : y = .ok b := by
  cases y with
  | error e => exact nomatch h
  | ok c => rw [Option.some.inj h]

theorem liveRanges_result {f : Function} (h : LiveRanges.inRange f.code f.vregCount = true) :
    f.liveRanges.result = .ok (LiveRanges.ofCode f.code f.vregCount) := by
  unfold liveRanges
  rw [h]
  rfl

theorem exists_code_fetching : ∃ e g h used ranges a k n out, fetching.lower.result = .ok (e, g) ∧
    (g.select RuleSet.x86 {}).result = .ok (h, used) ∧ h.liveRanges.result = .ok ranges ∧
    (h.allocate ranges.analysis {}).result = .ok (a, k) ∧ k.addSpillCode.result = .ok (n, out) ∧
    h.code.map (·.defined?) = [some 1, some 29, some 13, none] ∧
    out.code.map (fun i => (i.op, i.overwrites .rax)) =
      [(.machine .mov, true), (.machine .mov, true), (.machine .movPregClass, false), (.machine .ret, false)] := by
  obtain ⟨⟨e, g⟩, hlower, hrest⟩ := Option.bind_eq_some_iff.mp select_fetching
  obtain ⟨⟨h, used⟩, hselect, hrest⟩ := Option.bind_eq_some_iff.mp hrest
  obtain ⟨⟨a, k⟩, halloc, hrest⟩ := Option.bind_eq_some_iff.mp hrest
  obtain ⟨⟨n, out⟩, hspill, hobserved⟩ := Option.map_eq_some_iff.mp hrest
  simp only [Bool.and_eq_true, beq_iff_eq] at hobserved
  obtain ⟨⟨⟨⟨⟨htouches, hloops⟩, hrange⟩, hcls⟩, hdefs⟩, hout⟩ := hobserved
  have hanalysis : (LiveRanges.ofCode h.code h.vregCount).analysis = h.analysisOf fetchingSegments := by
    rw [LiveRanges.ofCode, ofCode_intervals htouches hloops, ofIntervals_segments hcls]
    rfl
  refine ⟨e, g, h, used, _, a, k, n, out, eq_ok_of_toOption hlower, eq_ok_of_toOption hselect,
    liveRanges_result hrange, ?_, eq_ok_of_toOption hspill, hdefs, hout⟩
  rw [hanalysis]
  exact eq_ok_of_toOption halloc

theorem exists_loads_fetching (h : fetching.lower.result = .ok (e, g)) :
    ∃ first load loads, g.code = first :: load :: (loads ++ [.plainReturn]) ∧ load.defined? = some 1 ∧
      loads.length = 2 ∧ ∀ i ∈ loads, IsLoad i := by
  have hobserved := lower_fetching
  rw [h] at hobserved
  simp only [Except.toOption, Option.map_some, Option.some.injEq, Bool.and_eq_true, beq_iff_eq] at hobserved
  obtain ⟨⟨hdefs, hloads⟩, hlast⟩ := hobserved
  obtain ⟨i₀, code₀, hcode, -, hdefs⟩ := List.map_eq_cons_iff.mp hdefs
  obtain ⟨i₁, code₁, rfl, hdef, hdefs⟩ := List.map_eq_cons_iff.mp hdefs
  obtain ⟨i₂, code₂, rfl, -, hdefs⟩ := List.map_eq_cons_iff.mp hdefs
  obtain ⟨i₃, code₃, rfl, -, hdefs⟩ := List.map_eq_cons_iff.mp hdefs
  obtain ⟨i₄, code₄, rfl, -, hdefs⟩ := List.map_eq_cons_iff.mp hdefs
  obtain rfl := List.map_eq_nil_iff.mp hdefs
  have hreturn : i₄ = .plainReturn := by
    obtain ⟨op, label, dst, src1, src2, template⟩ := i₄
    simp only [hcode, List.getElem?_cons_succ, List.getElem?_cons_zero, Option.any_some, Bool.and_eq_true,
      beq_iff_eq, Option.isNone_iff_eq_none] at hlast
    obtain ⟨⟨⟨⟨⟨rfl, rfl⟩, rfl⟩, rfl⟩, rfl⟩, rfl⟩ := hlast
    rfl
  refine ⟨i₀, i₁, [i₂, i₃], by rw [hcode, hreturn]; rfl, hdef, rfl, fun i hi => ?_⟩
  have hload := List.all_eq_true.mp hloads i (by
    rw [hcode]
    simp only [List.mem_cons, List.not_mem_nil, or_false] at hi
    rcases hi with rfl | rfl <;> simp)
  simp only [Bool.and_eq_true, List.any_eq_true, beq_iff_eq] at hload
  exact ⟨hload.1, Option.isSome_iff_exists.mp hload.2⟩

theorem clean_fetching : ∀ i ∈ fetching.code, Clean fetching.vregCount i := by
  intro i hi o ho v hv
  rw [List.mem_singleton.mp hi] at ho
  rw [List.mem_singleton.mp ho] at hv
  exact nomatch hv

/-- The register of the first eightbyte, with the loads of the second still to come. -/
theorem fetching_result_register : ∃ e g h used ranges a k n out first load loads rest between,
    fetching.lower.result = .ok (e, g) ∧ (g.select RuleSet.x86 {}).result = .ok (h, used) ∧
    h.liveRanges.result = .ok ranges ∧ (h.allocate ranges.analysis {}).result = .ok (a, k) ∧
    k.addSpillCode.result = .ok (n, out) ∧ g.code = first :: load :: (loads ++ [.plainReturn]) ∧
    load.defined? = some 1 ∧ loads.length = 2 ∧ rest <:+: h.code ∧ List.map Made.instr between = loads ∧
    ((∃ j ∈ rest.flatMap a.finish, j.overwrites .rax = true) ↔ ∃ i ∈ rest, ∃ v, a.Hits .rax i v ∧
      (reserved 26 v = false ∨ v = 1 ∧ ∃ m ∈ between, i.unlabelled ∈ m.code ∧ m.fixes 1 = true)) := by
  obtain ⟨e, g, h, used, ranges, a, k, n, out, hlower, hselect, hranges, halloc, hspill, -, -⟩ := exists_code_fetching
  obtain ⟨first, load, loads, hcode, hdef, hlength, hloads⟩ := exists_loads_fetching hlower
  obtain ⟨_, _, between, _, _, _, before, move, rest, last, after, _, _, -, -, hbetween, -, hh, -, -, -, -, -, -, -,
    hiff⟩ :=
    result_register_overwritten_iff hlower hselect halloc hspill clean_fetching
      (show g.code = [first] ++ load :: (loads ++ .plainReturn :: []) from hcode) hloads hdef (by decide)
  refine ⟨e, g, h, used, ranges, a, k, n, out, first, load, loads, rest, between, hlower, hselect, hranges, halloc,
    hspill, hcode, hdef, hlength, ⟨before ++ [move], last ++ after, by rw [hh]; simp⟩, hbetween, hiff⟩

/-- The second eightbyte is loaded through the register of the first. -/
theorem fetching_overwrites_result : ∃ e g h used ranges a k n out, fetching.lower.result = .ok (e, g) ∧
    (g.select RuleSet.x86 {}).result = .ok (h, used) ∧ h.liveRanges.result = .ok ranges ∧
    (h.allocate ranges.analysis {}).result = .ok (a, k) ∧ k.addSpillCode.result = .ok (n, out) ∧
    h.code.map (·.defined?) = [some Reg.rax.pseudo, some 29, some Reg.xmm0.pseudo, none] ∧
    out.code.map (fun i => (i.op, i.overwrites .rax)) =
      [(.machine .mov, true), (.machine .mov, true), (.machine .movPregClass, false), (.machine .ret, false)] :=
  exists_code_fetching

end Function

end Codegen
