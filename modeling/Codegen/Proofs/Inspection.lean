/-
Inspecting the rules of the machine.

Some facts hold of every rule of the table and can only be seen by going through it.  `isUsual` tests
them for one rule and `signedFirst` tests the order of the table; both are run once, over all rules,
and everything else here says what the outcome means.

  * No rule writes a source, and a rule for an operation into a register writes it.
  * Fixed registers are written by divisions, by shifts with a count in a register, by conversions of
    an unsigned quadword to a float, and by returns.
  * Only jumps read a condition.  Only comparisons, divisions and jumps depend on signedness, and each
    of them has one of a few shapes.
  * Of the rules for one operation, those for signed operands come first, so that a tie goes to them.
-/
import Codegen.Proofs.Emission
import Codegen.Proofs.Table

namespace Codegen

open Table RuleSet Machine

/-! ### Signed and unsigned instructions -/

/-- The signedness a machine operation is for, if it depends on one. -/
def MachineOp.order? : MachineOp → Option Signedness
  | .setlt | .setgt | .setle | .setge | .jlt | .jgt | .jle | .jge | .idiv => some .signed
  | .setb | .seta | .setbe | .setae | .jb | .ja | .jbe | .jae | .div => some .unsigned
  | _ => none

/-- The signedness an operation of the machine is for. -/
def Opcode.order? : Opcode → Option Signedness
  | .machine x => x.order?
  | _ => none

/-- The signedness a condition is for. -/
def Cond.order? : Cond → Option Signedness
  | .l | .g | .le | .ge => some .signed
  | .b | .a | .be | .ae => some .unsigned
  | .e | .ne => none

/-- The signedness of a class that is a condition. -/
def OpClass.order? : OpClass → Option Signedness
  | .flags c => c.order?
  | _ => Option.none

/-- The signednesses that the instructions of a rule are for. -/
def Rule.orders (r : Rule) : List Signedness := r.ops.filterMap (·.op.order?)

namespace IrOp

/-- Is this a comparison that depends on the signedness of its operands? -/
def isOrder : IrOp → Bool
  | .lt | .gt | .le | .ge => true
  | _ => false

/-- Is this a division? -/
def isDivision : IrOp → Bool
  | .div | .mod => true
  | _ => false

/-- Is this a jump on a truth value? -/
def isBranch : IrOp → Bool
  | .jz | .jnz => true
  | _ => false

/-- Is this a shift? -/
def isShift : IrOp → Bool
  | .bshl | .bshr | .ashr => true
  | _ => false

/-- The condition that a comparison of integers tests. -/
def cond : IrOp → Signedness → Cond
  | .lt, .signed => .l
  | .lt, .unsigned => .b
  | .gt, .signed => .g
  | .gt, .unsigned => .a
  | .le, .signed => .le
  | .le, .unsigned => .be
  | .ge, .signed => .ge
  | _, _ => .ae

end IrOp

/-! ### The tests -/

namespace Rule

/-- The second operand of a comparison: a register like the first one, or an immediate. -/
def second (imm : Bool) (s : Signedness) (w : IntWidth) : OpClass :=
  if imm then immediate w else .reg s w

/-- What a comparison into a class costs. -/
def comparing : OpClass → Int64
  | .flags _ => costJump
  | _ => costCompare

/-- Is this a comparison of the known shapes? -/
def isComparison (op : IrOp) (r : Rule) : Bool :=
  match r.src1, r.dst with
  | .reg s w, .flags c =>
    (r.src2 == second false s w || r.src2 == second true s w) && c == op.cond s &&
      r.cost == comparing r.dst && r.orders.isEmpty
  | .reg s w, .reg _ _ =>
    (r.src2 == second false s w || r.src2 == second true s w) && r.cost == comparing r.dst &&
      r.orders == [s]
  | .freg _, .flags c => c.order?.isSome && r.orders.isEmpty
  | .freg _, .reg _ _ => r.orders == [.unsigned]
  | _, _ => false

/-- Is this a division of the known shapes? -/
def isQuotient (r : Rule) : Bool :=
  match r.src1, r.dst with
  | .reg s w, .reg _ w' => r.src2 == .reg s w && w == w' && r.cost == costDiv && r.orders == [s]
  | .freg _, _ => r.dst.isSse && r.orders.isEmpty
  | _, _ => false

/-- Is this a jump of the known shapes? -/
def isJump (r : Rule) : Bool :=
  r.dst == .none && r.src2 == .label &&
    match r.src1 with
    | .flags c => r.cost == 1 && r.orders == c.order?.toList
    | .reg _ _ => r.orders.isEmpty
    | _ => false

/-- May a rule for an operation write a fixed register? -/
def mayFix (op : IrOp) (r : Rule) (g : Reg) : Bool :=
  match op with
  | .div | .mod => g == .rax || g == .rdx
  | .bshl | .bshr | .ashr => r.src2.isRegister && g == .rcx
  | .move => r.dst.isSse && r.src1 == .reg .unsigned .w64 && g == .rcx
  | .ret => g == .rax || g == .xmm0
  | _ => false

/-- What is tested of every rule. -/
def isUsual (r : Rule) : Bool :=
  r.sparesSources && !r.src2.isFlags &&
    match r.op with
    | .ir op =>
      r.fixed.all (mayFix op r) &&
        if op.isBranch then r.isJump
        else !r.src1.isFlags &&
          (r.isLeaf || r.op.storesThroughDst || !r.dst.isRegister || r.writesDst) &&
          if op.isOrder then r.isComparison op
          else if op.isDivision then r.isQuotient
          else r.orders.isEmpty && r.dst.order?.isNone
    | _ => false

/-- The rules that a tie can be between, for a rule that depends on signedness: those for the same
operation, and for the same width if it is a division. -/
abbrev Contest := IrOp × Option IntWidth

/-- The contest a rule is in, and the signedness it is for. -/
def sense? (r : Rule) : Option (Contest × Signedness) :=
  match r.op, r.src1 with
  | .ir op, .reg s w =>
    if op.isOrder then some ((op, none), s)
    else if op.isDivision then some ((op, some w), s)
    else none
  | .ir op, .flags c => if op.isBranch then c.order?.map fun s => ((op, none), s) else none
  | _, _ => none

end Rule

/-- In no contest does a signed rule come after an unsigned one, where `seen` are the contests with an
unsigned rule so far. -/
def signedFirst (seen : List Rule.Contest) : List Rule → Bool
  | [] => true
  | r :: rest =>
    match r.sense? with
    | none => signedFirst seen rest
    | some (k, .signed) => !seen.contains k && signedFirst seen rest
    | some (k, .unsigned) => signedFirst (if seen.contains k then seen else k :: seen) rest

set_option maxRecDepth 8000 in
theorem inspected : (x86.rules.all Rule.isUsual && signedFirst [] x86.rules) = true := by
  decide +kernel

/-! ### What every rule is -/

/-- What is known of a rule for an operation. -/
structure Rule.Usual (op : IrOp) (r : Rule) : Prop where
  spares : r.sparesSources = true
  src2 : r.src2.isFlags = false
  fixes : ∀ g ∈ r.fixed, r.mayFix op g = true
  branch : op.isBranch = true → r.isJump = true
  src1 : op.isBranch = false → r.src1.isFlags = false
  writes : op.isBranch = false → r.isLeaf = false → r.op.storesThroughDst = false →
    r.dst.isRegister = true → r.writesDst = true
  order : op.isOrder = true → r.isComparison op = true
  division : op.isDivision = true → r.isQuotient = true
  plain : op.isBranch = false → op.isOrder = false → op.isDivision = false →
    r.orders = [] ∧ r.dst.order? = none

theorem IrOp.isBranch_of_isOrder {op : IrOp} (h : op.isOrder = true) :
    op.isBranch = false ∧ op.isDivision = false := by
  cases op with
  | lt | gt | le | ge => exact ⟨rfl, rfl⟩
  | _ => exact nomatch h

theorem IrOp.isBranch_of_isDivision {op : IrOp} (h : op.isDivision = true) :
    op.isBranch = false ∧ op.isOrder = false := by
  cases op with
  | div | mod => exact ⟨rfl, rfl⟩
  | _ => exact nomatch h

theorem Rule.usual_of_mem {r : Rule} (h : r ∈ x86.rules) : ∃ op, r.op = .ir op ∧ r.Usual op := by
  have husual : r.isUsual = true :=
    List.all_eq_true.mp (Bool.and_eq_true_iff.mp inspected).1 r h
  unfold isUsual at husual
  cases hop : r.op with
  | machine x => simp [hop] at husual
  | unknown n => simp [hop] at husual
  | ir op =>
    refine ⟨op, rfl, ?_⟩
    simp only [hop, Bool.and_eq_true, Bool.not_eq_true', List.all_eq_true] at husual
    obtain ⟨⟨hspares, hsrc2⟩, hfixed, hshape⟩ := husual
    by_cases hbranch : op.isBranch = true
    · rw [if_pos hbranch] at hshape
      refine ⟨hspares, hsrc2, hfixed, fun _ => hshape, ?_, ?_, ?_, ?_, ?_⟩
      · exact fun h => absurd hbranch (by simp [h])
      · exact fun h => absurd hbranch (by simp [h])
      · exact fun h => absurd hbranch (by simp [(IrOp.isBranch_of_isOrder h).1])
      · exact fun h => absurd hbranch (by simp [(IrOp.isBranch_of_isDivision h).1])
      · exact fun h => absurd hbranch (by simp [h])
    · rw [if_neg hbranch] at hshape
      simp only [Bool.and_eq_true, Bool.or_eq_true, Bool.not_eq_true'] at hshape
      obtain ⟨⟨hsrc1, hwrites⟩, hshape⟩ := hshape
      refine ⟨hspares, hsrc2, hfixed, fun h => absurd h hbranch, fun _ => hsrc1, ?_, ?_, ?_, ?_⟩
      · intro _ hleaf hstores hreg
        rw [hop] at hstores
        simpa [hleaf, hstores, hreg] using hwrites
      · intro h
        simpa [h] using hshape
      · intro h
        simpa [h, (IrOp.isBranch_of_isDivision h).2] using hshape
      · intro _ ho hd
        simpa [ho, hd] using hshape

variable {r r' : Rule} {k : Rule.Contest} {seen : List Rule.Contest} {n : Nat} {ps : List Pattern} {op : Opcode}
  {c : OpClass}

theorem RuleSet.mem_forOp {set : RuleSet} (h : r ∈ set.forOp op) :
    r ∈ set.rules ∧ r.op = op ∧ r.isLeaf = false := by
  simpa [forOp] using h

theorem Rule.usual_of_forOp {op : IrOp} (h : r ∈ x86.forOp (.ir op)) : r.Usual op := by
  obtain ⟨hmem, hop, -⟩ := mem_forOp h
  obtain ⟨op', hop', husual⟩ := usual_of_mem hmem
  obtain rfl : op' = op := by simpa using hop'.symm.trans hop
  exact husual

theorem Rule.usual_of_leavesFrom (h : r ∈ x86.leavesFrom c) : r.Usual .none := by
  simp only [leavesFrom, List.mem_filter, Bool.and_eq_true, Rule.isLeaf, beq_iff_eq] at h
  obtain ⟨op, hop, husual⟩ := usual_of_mem h.1
  obtain rfl : op = .none := by simpa using hop.symm.trans h.2.1
  exact husual

theorem RuleSet.solid_x86 : x86.rules.any Rule.storesThroughFixed = false := by decide +kernel

theorem RuleSet.machine_x86 : x86.rules.all (fun r => r.ops.all (·.op.isMachine)) = true := by
  decide +kernel

theorem RuleSet.tidy_x86 : x86.Tidy := by
  refine ⟨fun r hr => ?_, fun r hr => by simpa using List.any_eq_false.mp solid_x86 r hr,
    fun r hr hleaf hstores hreg => ?_⟩
  · obtain ⟨op, -, husual⟩ := Rule.usual_of_mem hr
    exact husual.spares
  · obtain ⟨op, -, husual⟩ := Rule.usual_of_mem hr
    refine husual.writes ?_ hleaf hstores hreg
    by_contra hbranch
    have hjump := husual.branch (by simpa using hbranch)
    simp only [Rule.isJump, Bool.and_eq_true, beq_iff_eq] at hjump
    rw [hjump.1.1] at hreg
    exact nomatch hreg

/-! ### The shapes of the rules that depend on signedness -/

namespace Rule

variable {op : IrOp}

/-- A comparison of integers. -/
structure Compares (op : IrOp) (s : Signedness) (w : IntWidth) (imm : Bool) (r : Rule) : Prop where
  src1 : r.src1 = .reg s w
  src2 : r.src2 = second imm s w
  cost : r.cost = comparing r.dst
  dst : r.dst = .flags (op.cond s) ∧ r.orders = [] ∨ (∃ d w', r.dst = .reg d w') ∧ r.orders = [s]

/-- A comparison of floats. -/
structure ComparesFloats (r : Rule) : Prop where
  src1 : ∃ p, r.src1 = .freg p
  dst : (∃ c s, r.dst = .flags c ∧ c.order? = some s) ∧ r.orders = [] ∨
    (∃ d w, r.dst = .reg d w) ∧ r.orders = [.unsigned]

theorem comparison_cases (h : r ∈ x86.forOp (.ir op)) (hop : op.isOrder = true) :
    (∃ s w imm, r.Compares op s w imm) ∨ r.ComparesFloats := by
  have hshape := (usual_of_forOp h).order hop
  unfold isComparison at hshape
  split at hshape
  all_goals rename_i hsrc1 hdst
  · rename_i s w c
    simp only [Bool.and_eq_true, Bool.or_eq_true, beq_iff_eq, List.isEmpty_iff] at hshape
    obtain ⟨⟨⟨hsrc2, rfl⟩, hcost⟩, horders⟩ := hshape
    rcases hsrc2 with hsrc2 | hsrc2
    · exact .inl ⟨s, w, false, hsrc1, hsrc2, hcost, .inl ⟨hdst, horders⟩⟩
    · exact .inl ⟨s, w, true, hsrc1, hsrc2, hcost, .inl ⟨hdst, horders⟩⟩
  · rename_i s w d w'
    simp only [Bool.and_eq_true, Bool.or_eq_true, beq_iff_eq] at hshape
    obtain ⟨⟨hsrc2, hcost⟩, horders⟩ := hshape
    rcases hsrc2 with hsrc2 | hsrc2
    · exact .inl ⟨s, w, false, hsrc1, hsrc2, hcost, .inr ⟨⟨d, w', hdst⟩, horders⟩⟩
    · exact .inl ⟨s, w, true, hsrc1, hsrc2, hcost, .inr ⟨⟨d, w', hdst⟩, horders⟩⟩
  · simp only [Bool.and_eq_true, Option.isSome_iff_exists, List.isEmpty_iff] at hshape
    obtain ⟨⟨s, hs⟩, horders⟩ := hshape
    exact .inr ⟨⟨_, hsrc1⟩, .inl ⟨⟨_, s, hdst, hs⟩, horders⟩⟩
  · exact .inr ⟨⟨_, hsrc1⟩, .inr ⟨⟨_, _, hdst⟩, beq_iff_eq.mp hshape⟩⟩
  · exact nomatch hshape

/-- A division of integers. -/
structure Divides (s : Signedness) (w : IntWidth) (r : Rule) : Prop where
  src1 : r.src1 = .reg s w
  src2 : r.src2 = .reg s w
  dst : ∃ d, r.dst = .reg d w
  cost : r.cost = costDiv
  orders : r.orders = [s]

theorem division_cases (h : r ∈ x86.forOp (.ir op)) (hop : op.isDivision = true) :
    (∃ s w, r.Divides s w) ∨ (∃ p, r.src1 = .freg p) ∧ r.dst.isSse = true ∧ r.orders = [] := by
  have hshape := (usual_of_forOp h).division hop
  unfold isQuotient at hshape
  split at hshape
  · rename_i s w d w' hsrc1 hdst
    simp only [Bool.and_eq_true, beq_iff_eq] at hshape
    obtain ⟨⟨⟨hsrc2, rfl⟩, hcost⟩, horders⟩ := hshape
    exact .inl ⟨s, w, hsrc1, hsrc2, ⟨d, hdst⟩, hcost, horders⟩
  · rename_i p hsrc1
    simp only [Bool.and_eq_true, List.isEmpty_iff] at hshape
    exact .inr ⟨⟨p, hsrc1⟩, hshape⟩
  · exact nomatch hshape

theorem jump_cases (h : r ∈ x86.forOp (.ir op)) (hop : op.isBranch = true) :
    r.dst = .none ∧ r.src2 = .label ∧
      ((∃ c, r.src1 = .flags c ∧ r.cost = 1 ∧ r.orders = c.order?.toList) ∨
        r.src1.isFlags = false ∧ r.orders = []) := by
  have hshape := (usual_of_forOp h).branch hop
  simp only [isJump, Bool.and_eq_true, beq_iff_eq] at hshape
  obtain ⟨⟨hdst, hsrc2⟩, hshape⟩ := hshape
  refine ⟨hdst, hsrc2, ?_⟩
  split at hshape
  · rename_i c hsrc1
    simp only [Bool.and_eq_true, beq_iff_eq] at hshape
    exact .inl ⟨c, hsrc1, hshape⟩
  · rename_i hsrc1
    exact .inr ⟨by rw [hsrc1]; rfl, by simpa using hshape⟩
  · exact nomatch hshape

/-! ### The rules there are -/

/-- Integers of every width and signedness can be compared, into every class of truth values. -/
theorem exists_compares (hop : op.isOrder = true) : ∀ s w, ∀ imm : Bool,
    (∃ r ∈ x86.forOp (.ir op), r.src1 = .reg s w ∧ r.src2 = second imm s w ∧
      r.dst = .flags (op.cond s) ∧ r.cost = costJump) ∧
    ∀ d w', ∃ r ∈ x86.forOp (.ir op), r.src1 = .reg s w ∧ r.src2 = second imm s w ∧
      r.dst = .reg d w' ∧ r.cost = costCompare := by
  revert hop
  cases op <;> decide +kernel

/-- Integers of every width and signedness can be divided, into both signednesses of that width. -/
theorem exists_divides (hop : op.isDivision = true) : ∀ s d w,
    ∃ r ∈ x86.forOp (.ir op), r.src1 = .reg s w ∧ r.src2 = .reg s w ∧ r.dst = .reg d w ∧
      r.cost = costDiv := by
  revert hop
  cases op <;> decide +kernel

theorem exists_jump (hop : op.isBranch = true) (c : Cond) :
    ∃ r ∈ x86.forOp (.ir op), r.src1 = .flags c ∧ r.src2 = .label ∧ r.dst = .none ∧ r.cost = 1 := by
  have hall : ∀ c ∈ Cond.all, ∃ r ∈ x86.forOp (.ir op),
      r.src1 = .flags c ∧ r.src2 = .label ∧ r.dst = .none ∧ r.cost = 1 := by
    revert hop
    cases op <;> decide +kernel
  exact hall c (by cases c <;> decide)

end Rule

/-! ### Signed rules come first -/

theorem not_mem_of_signedFirst {rules : List Rule} (h : signedFirst seen rules = true) (hk : k ∈ seen)
    (hr : r ∈ rules) : r.sense? ≠ some (k, .signed) := by
  induction rules generalizing seen with
  | nil => exact nomatch hr
  | cons first rest ih =>
    rw [signedFirst] at h
    intro hsense
    rcases List.mem_cons.mp hr with rfl | hr
    · simp [hsense, hk] at h
    · split at h
      · exact ih h hk hr hsense
      · rw [Bool.and_eq_true] at h
        exact ih h.2 hk hr hsense
      · refine ih h ?_ hr hsense
        split
        · exact hk
        · exact List.mem_cons_of_mem _ hk

theorem le_index_of_mem_number (h : r ∈ number n ps) : n ≤ r.index := by
  induction ps generalizing n with
  | nil => exact nomatch h
  | cons p ps ih =>
    rcases List.mem_cons.mp h with rfl | h
    · exact Nat.le_refl n
    · exact Nat.le_of_succ_le (ih h)

theorem index_lt_of_signedFirst (h : signedFirst seen (number n ps) = true) (hr : r ∈ number n ps)
    (hr' : r' ∈ number n ps) (hsense : r.sense? = some (k, .unsigned)) (hsense' : r'.sense? = some (k, .signed)) :
    r'.index < r.index := by
  induction ps generalizing seen n with
  | nil => exact nomatch hr
  | cons p ps ih =>
    rw [number, signedFirst] at h
    rcases List.mem_cons.mp hr' with rfl | hr'
    · rcases List.mem_cons.mp hr with rfl | hr
      · simp [hsense] at hsense'
      · exact le_index_of_mem_number hr
    · rcases List.mem_cons.mp hr with rfl | hr
      · -- an unsigned rule of the contest has been seen, so no signed one follows
        simp only [hsense] at h
        refine absurd hsense' (not_mem_of_signedFirst h ?_ hr')
        split
        · rename_i hseen
          simpa using hseen
        · exact List.mem_cons_self
      · split at h
        · exact ih h hr hr'
        · rw [Bool.and_eq_true] at h
          exact ih h.2 hr hr'
        · exact ih h hr hr'

/-- **A signed rule comes before the unsigned ones it competes with.** -/
theorem Rule.index_lt_of_sense (hr : r ∈ x86.rules) (hr' : r' ∈ x86.rules)
    (hsense : r.sense? = some (k, .unsigned)) (hsense' : r'.sense? = some (k, .signed)) :
    r'.index < r.index :=
  index_lt_of_signedFirst (Bool.and_eq_true_iff.mp inspected).2 hr hr' hsense hsense'

end Codegen
