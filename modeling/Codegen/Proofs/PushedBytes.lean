/-
The stack slots of pushed arguments.

How far an instruction lowers the stack pointer is read off its template: a push and the subtraction that
makes room for a float lower it by eight bytes, and nothing else that moves it belongs in the code of an
argument.  Below the root of a tree there are only rules that leave a value in a register, and these do not
move it, so the rule at the root decides.

That rule goes by where the value is.  Only a long double in memory is pushed in two parts; everything else
takes eight bytes.  The slot goes by the type alone, so the two differ for a long double that is not in memory.
-/
import Codegen.Calling.Placement
import Codegen.Proofs.Inspection
import Codegen.Proofs.Items

namespace Codegen

open RuleSet Selection

/-! ### Moving the stack pointer -/

variable {o : Operand} {n m : Nat} {more code : List Instr}

namespace Template

/-- How far an instruction lowers the stack pointer, unless it moves it in another way.  An instruction that
names the stack pointer last writes it. -/
def lowers? (t : Template) : Option Nat :=
  if (Utf8.encode "pushq\t").isPrefixOf t.bytes || t.bytes == Utf8.encode "subq\t$8, %%rsp" then some 8
  else if ["push", "pop", "call", "ret", "leave", "enter"].any (fun s => (Utf8.encode s).isPrefixOf t.bytes) ||
    (Utf8.encode "%%rsp").isSuffixOf t.bytes then none
  else some 0

/-- How far instructions lower the stack pointer together. -/
def lowered? : List Template → Option Nat
  | [] => some 0
  | t :: rest => do return (← t.lowers?) + (← lowered? rest)

variable {ts us : List Template}

theorem lowered?_append (h : lowered? ts = some n) (h' : lowered? us = some m) :
    lowered? (ts ++ us) = some (n + m) := by
  induction ts generalizing n with
  | nil =>
    cases h
    rw [Nat.zero_add]
    exact h'
  | cons t ts ih =>
    obtain ⟨k, hk, hrest⟩ := Option.bind_eq_some_iff.mp h
    obtain ⟨l, hl, heq⟩ := Option.bind_eq_some_iff.mp hrest
    cases heq
    simp only [List.cons_append, lowered?, hk, ih hl]
    exact congrArg some (Nat.add_assoc k l m).symm

end Template

/-- How far code lowers the stack pointer. -/
def loweredBy? (code : List Instr) : Option Nat := Template.lowered? (code.map (·.template))

theorem loweredBy?_append (h : loweredBy? code = some n) (h' : loweredBy? more = some m) :
    loweredBy? (code ++ more) = some (n + m) := by
  rw [loweredBy?, List.map_append]
  exact Template.lowered?_append h h'

/-! ### Long doubles in memory -/

/-- Is this a long double in memory? -/
def Operand.isExtended (o : Operand) : Bool := o.isMemory && o.type.isLongDouble

/-- Is this the leaf of a long double in memory? -/
def Tree.isExtended : Tree → Bool
  | .leaf o => o.isExtended
  | _ => false

theorem Operand.isExtended_of_mem (h : .extendedMem ∈ OpClass.ofOperand o) : o.isExtended = true := by
  have hregister : ∀ t, .extendedMem ∉ OpClass.ofRegister t := fun t ht =>
    nomatch isRegister_of_mem_ofRegister ht
  have hmemory : ∀ t, .extendedMem ∈ OpClass.ofMemory t → t.isLongDouble = true := by
    intro t ht
    cases t with
    | float k => cases k <;> first | rfl | simp [OpClass.ofMemory] at ht
    | _ => simp [OpClass.ofMemory] at ht
  obtain ⟨value, type, offset⟩ := o
  cases value with
  | vreg _ | preg _ => exact absurd h (hregister type)
  | slot _ | global _ => exact hmemory type h
  | const n => simp [OpClass.ofOperand, OpClass.ofConstant] at h
  | fconst x =>
    simp only [OpClass.ofOperand] at h
    split at h <;> simp at h
  | _ => simp [OpClass.ofOperand] at h

theorem Operand.ofOperand_of_isExtended (h : o.isExtended = true) : OpClass.ofOperand o = [.extendedMem] := by
  obtain ⟨hmemory, htype⟩ := Bool.and_eq_true_iff.mp h
  obtain ⟨value, type, offset⟩ := o
  obtain rfl : type = .longDouble := by
    cases type with
    | float k => cases k <;> first | rfl | cases htype
    | _ => cases htype
  cases value <;> first | rfl | cases hmemory

/-! ### Rules -/

namespace Rule

/-- How far the instructions of a rule lower the stack pointer. -/
def lowered? (r : Rule) : Option Nat := Template.lowered? (r.ops.map (·.template))

/-- Rules into registers and leaf rules leave the stack pointer alone, arguments lower it by what they push,
and a long double in memory stays where it is. -/
def Level (r : Rule) : Prop :=
  ((r.isLeaf || r.dst.isRegister || r.dst.isFlags) = true → r.lowered? = some 0) ∧
    (r.op = .ir .arg → r.lowered? = some (if r.src1 = .extendedMem then 16 else 8)) ∧
    (r.isLeaf = true → (r.src1 = .extendedMem ↔ r.dst = .extendedMem))

instance (r : Rule) : Decidable r.Level := inferInstanceAs (Decidable (_ ∧ _ ∧ _))

set_option maxRecDepth 8000 in
theorem level_of_mem : ∀ r ∈ x86.rules, r.Level := by decide +kernel

variable {r : Rule} {c : OpClass}

theorem of_leavesFrom (h : r ∈ x86.leavesFrom c) : r.Level ∧ r.isLeaf = true ∧ r.src1 = c := by
  obtain ⟨hmem, hleaf⟩ := List.mem_filter.mp h
  rw [Bool.and_eq_true, beq_iff_eq] at hleaf
  exact ⟨level_of_mem r hmem, hleaf⟩

end Rule

theorem OpClass.isRegister_or_isFlags {t : Ty} {c : OpClass} (h : c.compatible t = true) :
    c.isRegister = true ∨ c.isFlags = true := by
  unfold compatible at h
  split at h
  · exact .inr ‹_›
  · exact .inl (isRegister_of_mem_ofRegister (by simpa using h))

variable {t : Tree} {c : OpClass} {cover : Cover}

/-- Only a long double in memory is taken for one. -/
theorem Tiles.eq_extendedMem_iff (h : Tiles x86 t c cover) : c = .extendedMem ↔ t.isExtended = true := by
  cases h with
  | absent => simp [Tree.isExtended]
  | @leaf o c r hc hr =>
    obtain ⟨⟨-, -, hlevel⟩, hleaf, rfl⟩ := Rule.of_leavesFrom hr
    rw [← hlevel hleaf]
    refine ⟨fun hsrc => Operand.isExtended_of_mem (hsrc ▸ hc), fun ho => ?_⟩
    rw [Operand.ofOperand_of_isExtended ho] at hc
    exact List.mem_singleton.mp hc
  | node hrule hdst =>
    refine ⟨fun heq => ?_, nofun⟩
    rcases OpClass.isRegister_or_isFlags hdst with h | h <;> rw [heq] at h <;> cases h
  | chain hinner hreg hrule =>
    obtain ⟨⟨-, -, hlevel⟩, hleaf, hsrc⟩ := Rule.of_leavesFrom hrule
    refine ⟨fun heq => ?_, nofun⟩
    rw [← hsrc, (hlevel hleaf).mpr heq] at hreg
    cases hreg

/-! ### The code of an argument -/

namespace Selection

variable {r : Rule} {n n' : Int} {type : Ty} {i : Instr} {dst src1 src2 : Option Operand} {o' : Operand} {l : Tree}

theorem Applied.loweredBy? (h : Applied r dst src1 src2 type n code n') : loweredBy? code = r.lowered? := by
  have htemplates : code.map (·.template) = r.ops.map (·.template) := by
    obtain ⟨-, hall⟩ := h
    generalize r.ops = ops at hall
    induction hall with
    | nil => rfl
    | cons h _ ih => rw [List.map_cons, List.map_cons, ih, h.template]
  rw [Codegen.loweredBy?, htemplates]
  rfl

theorem AppliedLeaf.loweredBy? (hr : r ∈ x86.leavesFrom c) (h : AppliedLeaf r o n code o' n') :
    loweredBy? code = some 0 := by
  obtain ⟨⟨hlevel, -, -⟩, hleaf, -⟩ := Rule.of_leavesFrom hr
  cases h with
  | same => rfl
  | made _ hcode => rw [hcode.loweredBy?, hlevel (by simp [hleaf])]

/-- Below the root the stack pointer is not moved. -/
theorem Reduced.loweredBy? {o : Option Operand} (htiles : Tiles x86 t c cover)
    (h : Reduced cover n code o n') : loweredBy? code = some 0 := by
  induction htiles generalizing n code o n' with
  | absent =>
    cases h
    rfl
  | leaf _ hr =>
    cases h with
    | leaf h => exact h.loweredBy? hr
  | @node op type l r rule a b hrule hdst hl hr ha hb iha ihb =>
    have hlevel : rule.lowered? = some 0 := by
      refine (rule.level_of_mem (mem_forOp hrule).1).1 ?_
      rcases OpClass.isRegister_or_isFlags hdst with h | h <;> simp [h]
    cases h with
    | node h₁ h₂ _ h =>
      exact loweredBy?_append (loweredBy?_append (iha h₁) (ihb h₂)) (h.loweredBy?.trans hlevel)
    | nodeNone h₁ h₂ _ h =>
      exact loweredBy?_append (loweredBy?_append (iha h₁) (ihb h₂)) (h.loweredBy?.trans hlevel)
  | chain hinner _ hrule iha =>
    cases h with
    | chain h h' => exact loweredBy?_append (iha h) (h'.loweredBy? hrule)
    | chainNone h => exact iha h

theorem loweredBy?_label {label : List Instr} (h : ∀ j ∈ label, j = .target 0) : loweredBy? label = some 0 := by
  induction label with
  | nil => rfl
  | cons j label ih =>
    have htarget : loweredBy? [.target 0] = some 0 := rfl
    rw [h j (by simp)]
    exact loweredBy?_append htarget (ih fun k hk => h k (by simp [hk]))

/-- **An argument is pushed in two parts if it is a long double in memory, and in one if not.** -/
theorem TreeCode.loweredBy? {rounds : Nat} {r : Tree} (hdst : i.dst = none)
    (h : TreeCode x86 rounds i (.node (.ir .arg) type l r) n code n') :
    loweredBy? code = some (if l.isExtended = true then 16 else 8) := by
  cases h with
  | through hd => exact nomatch hdst.symm.trans hd
  | direct hchosen h₁ h₂ h _ hlabel =>
    obtain ⟨op, _, _, _, _, a, b, heq, hcover, hrule, -, ha, hb⟩ := hchosen.exists_node
    cases heq
    cases hcover
    obtain ⟨hmem, hop, -⟩ := mem_forOp hrule
    have hpush := (Rule.level_of_mem _ hmem).2.1 hop
    simp only [ha.eq_extendedMem_iff] at hpush
    have hcode := loweredBy?_append (loweredBy?_append (loweredBy?_append (h₁.loweredBy? ha) (h₂.loweredBy? hb))
      (h.loweredBy?.trans hpush)) (loweredBy?_label hlabel)
    simpa using hcode

/-- How a tree below the root is prepared. -/
def settle (fold : Bool) (t : Tree) : Tree := if fold then t.simplify.fold else t.simplify

theorem prepare_arg (hdst : i.dst = none) (fold : Bool) (type : Ty) (l r : Tree) :
    prepare fold i (.node (.ir .arg) type l r) = .node (.ir .arg) type (settle fold l) (settle fold r) := by
  cases fold <;> simp [prepare, hdst, Tree.simplifyRoot, Tree.foldRoot, settle]

end Selection

namespace Tree

variable {b : Ty}

theorem isLongDouble_of_sameRepresentation {a : Ty} (h : sameRepresentation a b = true) :
    a.isLongDouble = b.isLongDouble := by
  cases a <;> cases b <;> simp_all [sameRepresentation, Ty.isLongDouble, Ty.isPointer, Ty.same, Ty.isMissing]

theorem isLongDouble_simplify (t : Tree) : t.simplify.type.isLongDouble = t.type.isLongDouble := by
  cases t with
  | absent => rfl
  | leaf o => rfl
  | node op type l r =>
    unfold simplify
    dsimp only
    split
    · next h =>
      have hsame := isLongDouble_of_sameRepresentation (Bool.and_eq_true_iff.mp h).2
      unfold unmoved
      split
      · next haggregate =>
        cases type with
        | pointer target => cases l.simplify <;> rfl
        | _ => cases haggregate
      · exact hsame.symm
    · rfl

theorem type_fold (t : Tree) : t.fold.type = t.type := by
  cases t with
  | absent => rfl
  | leaf o => rfl
  | node op type l r =>
    unfold fold
    dsimp only
    split <;> rfl

/-- Preparing a tree makes no long double in memory of anything else. -/
theorem isLongDouble_of_settle {fold : Bool} (h : (settle fold t).isExtended = true) :
    t.type.isLongDouble = true := by
  have htype : (settle fold t).type.isLongDouble = t.type.isLongDouble := by
    cases fold with
    | false => exact isLongDouble_simplify t
    | true => exact (congrArg Ty.isLongDouble (type_fold _)).trans (isLongDouble_simplify t)
  rw [← htype]
  generalize settle fold t = t at h
  cases t with
  | leaf o => exact (Bool.and_eq_true_iff.mp h).2
  | _ => cases h

end Tree

/-! ### Arguments of a function -/

/-- The lowered instruction that passes an operand on the stack. -/
def Instr.Pushes (i : Instr) (v : Operand) : Prop :=
  i.op = .ir .arg ∧ i.dst = none ∧ i.src1 = some v ∧ i.src2 = none

/-- A number, a pointer or a function, which is passed as a pointer to it. -/
def Ty.isScalar : Ty → Bool
  | .int .. | .float _ | .pointer _ | .func .. => true
  | _ => false

/-- The bytes of the stack that a value of the type takes. -/
def Ty.slotBytes (t : Ty) : Int64 := alignUp t.size 8

theorem Ty.slotBytes_of_isScalar {t : Ty} (h : t.isScalar = true) :
    t.slotBytes.toInt.toNat = if t.isLongDouble = true then 16 else 8 := by
  cases t with
  | int w s =>
    show (alignUp w.bytes 8).toInt.toNat = 8
    cases w <;> decide
  | float k => cases k <;> decide
  | pointer _ | func _ _ _ =>
    show (alignUp 8 8).toInt.toNat = 8
    decide
  | _ => cases h

namespace Item

/-- Is a long double in memory pushed, once the tree of the argument is prepared? -/
def pushesExtended (fold : Bool) (item : Item) : Bool :=
  match prepare fold item.instr item.tree with
  | .node _ _ l _ => l.isExtended
  | _ => false

/-- The operand that an item reads first is at its leaf, or its place has been taken by an instruction of the function
that computes its register. -/
structure Sourced (f : Function) (item : Item) : Prop where
  mem : item.instr ∈ f.split.code
  rooted : item.Rooted
  source : ∀ v, item.instr.src1 = some v → ∃ type l r, item.tree = .node item.instr.op type l r ∧
    (l = .leaf v ∨ ∃ d ∈ f.split.code, ∃ id, v.vregId? = some id ∧ d.defined? = some id ∧ l.type = Tree.valueType d)

theorem sourced_items (f : Function) (options : SelectOptions) : ∀ item ∈ f.items options, item.Sourced f := by
  refine forall_items (fun _ _ hd => ⟨hd.mem, hd.rooted, hd.source⟩) fun {i t e e'} hi he hgrafted => ?_
  obtain ⟨l, r, e₁, rfl, hl, -⟩ := hgrafted.exists_node
  refine ⟨hi, ⟨l, r, rfl⟩, fun v hv => ⟨_, l, r, rfl, ?_⟩⟩
  rw [show i.src1 = some v from hv] at hl
  cases hl with
  | keep => exact .inl rfl
  | graft hid hdef =>
    obtain ⟨hmem, ⟨l, r, htree⟩, -⟩ := he _ (List.mem_append_right _ List.mem_cons_self)
    exact .inr ⟨_, hmem, _, hid, hdef, by rw [htree]; rfl⟩

/-- What pushing an operand does to the stack pointer, and what the operand's slot is. -/
structure Passed (f : Function) (fold : Bool) (item : Item) (v : Operand) (code : List Instr) : Prop where
  /-- No result goes anywhere but to a virtual register, none of which is the stack pointer. -/
  targets : ∀ i ∈ code, ∀ d, i.dst = some d → d.vregId?.isSome = true
  lowers : loweredBy? code = some (if item.pushesExtended fold = true then 16 else 8)
  reserved : ∀ a : Allocation, ∃ start padding, (a.takeStack v.type).1.place = .stack start padding ∧
    (a.takeStack v.type).2.offset = start + v.type.slotBytes
  slot : loweredBy? code = some v.type.slotBytes.toInt.toNat ↔ item.pushesExtended fold = v.type.isLongDouble
  operand : v.vregId? = none → item.pushesExtended fold = (v.isMemory && v.type.isLongDouble)
  register : ∀ id, v.vregId? = some id → item.pushesExtended fold = true →
    ∃ d ∈ f.split.code, d.defined? = some id ∧ (Tree.valueType d).isLongDouble = true

variable {fold : Bool} {item : Item} {v : Operand} {f : Function}

/-- **Pushing an operand lowers the stack pointer by sixteen bytes for a long double in memory, and by eight for
everything else.** -/
theorem passed {n n' : Int} (hsourced : item.Sourced f) (hmoved : item.Moved)
    (hitem : ItemCode x86 fold item n code n') (hpushes : item.instr.Pushes v) (hscalar : v.type.isScalar = true) :
    item.Passed f fold v code := by
  obtain ⟨hop, hdst, hsrc, -⟩ := hpushes
  have hmerged : item.merged ≠ true := fun h => by
    obtain ⟨-, u, hdef, -⟩ := hmoved h
    simp [Instr.defined?, hdst] at hdef
  have hsettled : isSettled item.instr ≠ true := by simp [isSettled, hop, Opcode.isMarker, Opcode.isMachine]
  obtain ⟨type, l, r, htree, hl⟩ := hsourced.source v hsrc
  have hprepare : prepare fold item.instr item.tree
      = .node (.ir .arg) type (settle fold l) (settle fold r) := by
    rw [htree, hop]
    exact prepare_arg hdst fold type l r
  have hextended : item.pushesExtended fold = (settle fold l).isExtended := by
    rw [pushesExtended, hprepare]
  have hlowers : loweredBy? code = some (if item.pushesExtended fold = true then 16 else 8) := by
    rw [hextended]
    cases hitem with
    | merged h => exact absurd h hmerged
    | settled _ h => exact absurd h hsettled
    | selected _ _ hcode =>
      rw [hprepare] at hcode
      exact hcode.loweredBy? hdst
  have hleaf : (settle fold (.leaf v)).isExtended = v.isExtended := by cases fold <;> rfl
  refine ⟨fun i hi d hd => ?_, hlowers, fun a => ⟨_, _, rfl, rfl⟩, ?_, fun hv => ?_, fun id hid hwhole => ?_⟩
  · cases hitem.piece tidy_x86 (Int.le_refl n) with
    | merged h => exact absurd h hmerged
    | settled _ h => exact absurd h hsettled
    | selected _ _ hnew =>
      rcases hnew.targets i hi d hd with h | ⟨-, -, g, -, h⟩ | ⟨u, h, -⟩
      · cases hdst.symm.trans h
      · simp [h]
      · simp [h]
  · rw [hlowers, Ty.slotBytes_of_isScalar hscalar]
    cases item.pushesExtended fold <;> cases v.type.isLongDouble <;> simp
  · rcases hl with rfl | ⟨d, -, id, hid, -⟩
    · rw [hextended, hleaf]
      rfl
    · cases hv.symm.trans hid
  · rw [hextended] at hwhole
    rcases hl with rfl | ⟨d, hd, id', hid', hdef, htype⟩
    · rw [hleaf] at hwhole
      obtain ⟨value, type, offset⟩ := v
      cases value with
      | vreg v => cases hwhole
      | _ => cases hid
    · cases hid.symm.trans hid'
      exact ⟨d, hd, hdef, htype ▸ Tree.isLongDouble_of_settle hwhole⟩

end Item

namespace Function

/-- **A pushed argument takes its slot, unless it is a long double that is not in memory.**  The code of a function
is cut into pieces, one for each of its instructions.  The piece of a scalar that is pushed lowers the stack pointer
by sixteen bytes if a long double is pushed from memory and by eight if not, and so it takes the slot of its type
just if the two go together. -/
theorem arguments_take_slots (f g : Function) (options : SelectOptions) (used : Array Nat)
    (h : (f.select RuleSet.x86 options).result = .ok (g, used)) :
    ∃ pieces, g.code.map Instr.unlabelled = pieces.flatten ∧ (f.items options).map (·.instr) = f.split.code ∧
      List.Forall₂ (fun item code => ∀ v, item.instr.Pushes v → v.type.isScalar = true →
        item.Passed f options.fold v code) (f.items options) pieces := by
  obtain ⟨pieces, hcode, hitems⟩ := select_listing h
  refine ⟨pieces, hcode, (f.renders_items options).1, ?_⟩
  have hboth := (List.forall₂_and_left _ _).mpr ⟨fun item hitem =>
    (⟨Item.sourced_items f options item hitem, f.moved_items options item hitem⟩ : item.Sourced f ∧ item.Moved),
    hitems.forall₂⟩
  refine hboth.imp ?_
  rintro item code ⟨⟨hsourced, hmoved⟩, n, n', -, -, hitem⟩ v hpushes hscalar
  exact Item.passed hsourced hmoved hitem hpushes hscalar

/-- Passes a long double that is in memory, a number and a function. -/
def passing : Function :=
  { name := "passing", params := [], addressTaken := [], result := .void, vregCount := 26, stackSlots := 2
    code := [.ir .arg none (Operand.slot (-2) .longDouble) none, .ir .arg none (Operand.const 7 .sint) none,
      .ir .arg none (some ⟨.func "passing", .func [] .missing false, 0⟩) none] }

/-- The long double takes sixteen bytes, the number and the function eight each. -/
theorem passing_takes_slots : ∃ g used code₁ code₂ code₃,
    (passing.select RuleSet.x86 {}).result = .ok (g, used) ∧
      g.code.map Instr.unlabelled = code₁ ++ code₂ ++ code₃ ∧ loweredBy? code₁ = some 16 ∧
      loweredBy? code₂ = some 8 ∧ loweredBy? code₃ = some 8 := by
  have hselected : (passing.select RuleSet.x86 {}).result.isOk = true := by decide +kernel
  cases h : (passing.select RuleSet.x86 {}).result with
  | error e => rw [h] at hselected; exact nomatch hselected
  | ok r =>
    obtain ⟨g, used⟩ := r
    obtain ⟨pieces, hcode, -, hpieces⟩ := arguments_take_slots passing g {} used h
    have hitems : passing.items {} = passing.code.map fun i => { instr := i, tree := .ofInstr i } := rfl
    rw [hitems] at hpieces
    cases hpieces with
    | cons h₁ hrest =>
      cases hrest with
      | cons h₂ hrest =>
        cases hrest with
        | cons h₃ hnil =>
          cases hnil
          have h₁ := h₁ _ ⟨rfl, rfl, rfl, rfl⟩ rfl
          have h₂ := h₂ _ ⟨rfl, rfl, rfl, rfl⟩ rfl
          have h₃ := h₃ _ ⟨rfl, rfl, rfl, rfl⟩ rfl
          refine ⟨g, used, _, _, _, rfl, ?_, h₁.slot.mpr (h₁.operand rfl), h₂.slot.mpr (h₂.operand rfl),
            h₃.slot.mpr (h₃.operand rfl)⟩
          simpa using hcode

/-- Passes a long double that is a constant. -/
def halving : Function :=
  { name := "halving", params := [], addressTaken := [], result := .void, vregCount := 26
    code := [.ir .arg none (some ⟨.fconst ⟨0x3FF8000000000000⟩, .longDouble, 0⟩) none] }

/-- Only half of the slot is taken. -/
theorem halving_takes_half : ∃ g used, (halving.select RuleSet.x86 {}).result = .ok (g, used) ∧
    loweredBy? g.code = some 8 ∧ Ty.longDouble.slotBytes = 16 := by
  have hselected : (halving.select RuleSet.x86 {}).result.toOption.map (loweredBy? ·.1.code) = some (some 8) := by
    decide +kernel
  cases h : (halving.select RuleSet.x86 {}).result with
  | error e => rw [h] at hselected; exact nomatch hselected
  | ok r =>
    rw [h] at hselected
    exact ⟨r.1, r.2, rfl, Option.some.inj hselected, by decide⟩

end Function

end Codegen
