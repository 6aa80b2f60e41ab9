/-
What selection emits.

The code for an item of a block is made of the rules of the cover chosen for its tree, each with its
machine instructions in order.  The arguments of a machine instruction are the operands of the rule,
registers that the rule fixes, and scratch registers handed out on the way.

This is said of one rule first, then of a cover, of a tree and of an item; `select_listing` cuts the code of
a whole function into the pieces that its items were given.  Nothing is left out but which scratch register
is which.  What most questions need is less: the operations of the code and what it writes.  `Adds` and
`Emitted` say that, and `select_emits` cuts the code into pieces of which it is known.

Selection keeps the label of a tree aside until an instruction takes it.  Counted at the end of the code,
where it is going to stand, it is never lost sight of: that is `Selection.labels`.

The steps of selection are gone through once.  `Ends` says what is known when a step returns, and what
must be the case if it may not fail; where every tree has a cover, none does.
-/
import Codegen.Proofs.Cover
import Codegen.Proofs.Execution
import Codegen.Proofs.Meaning
import Codegen.Proofs.StraightLine
import Codegen.Proofs.Traced
import Codegen.Select

namespace Codegen

/-- An instruction without its label. -/
def Instr.unlabelled (i : Instr) : Instr := { i with label := 0 }

namespace Arg

/-- The fixed register an argument names. -/
def fixed? : Arg → Option Reg
  | .rax => some .rax
  | .rcx => some .rcx
  | .rdx => some .rdx
  | .xmm0 => some .xmm0
  | _ => Option.none

/-- Is this a source of the rule? -/
def isSource : Arg → Bool
  | .src1 | .src2 => true
  | _ => false

/-- Is this the destination of the rule? -/
def isDst : Arg → Bool
  | .dst => true
  | _ => false

end Arg

namespace Rule

/-- The fixed registers a rule writes. -/
def fixed (r : Rule) : List Reg := r.ops.filterMap (·.dst.fixed?)

/-- Does one of the instructions store through a fixed register? -/
def storesThroughFixed (r : Rule) : Bool := r.ops.any fun m => m.dst.fixed?.isSome && m.op.storesThroughDst

/-- Does no instruction of the rule write a source? -/
def sparesSources (r : Rule) : Bool := r.ops.all fun m => !m.dst.isSource

/-- Does one of the instructions write the destination? -/
def writesDst (r : Rule) : Bool := r.ops.any fun m => m.dst.isDst && !m.op.storesThroughDst

end Rule

/-- No rule writes a source or stores through a fixed register, and a rule for an operation into a register
writes its destination, unless the operation is a store through a pointer there. -/
structure RuleSet.Tidy (set : RuleSet) : Prop where
  spares : ∀ r ∈ set.rules, r.sparesSources = true
  solid : ∀ r ∈ set.rules, r.storesThroughFixed = false
  delivers : ∀ r ∈ set.rules, r.isLeaf = false → r.op.storesThroughDst = false →
    r.dst.isRegister = true → r.writesDst = true

/-- Is this a store through a pointer? -/
def Tree.stores : Tree → Bool
  | .node op _ _ _ => op.storesThroughDst
  | _ => false

/-- The rules of a cover, in the order they are applied. -/
def Cover.rules : Cover → List Rule
  | .absent => []
  | .leaf r _ => [r]
  | .node r _ left right => left.rules ++ right.rules ++ [r]
  | .chain r inner => inner.rules ++ [r]

namespace Selection

/-! ### Adding code -/

/-- The code so far, without labels. -/
def code (s : Selection) : List Instr := s.out.toList.map Instr.unlabelled

/-- The labels so far, the one that no instruction has taken yet last. -/
def labels (s : Selection) : List Int := labelsOf (s.out.toList ++ [.target s.label])

/-- Going from one state to another, code was added.  No label was lost, and none was put aside. -/
structure Grows (s : Selection) (new : List Instr) (s' : Selection) : Prop where
  code : s'.code = s.code ++ new
  labels : s'.labels = s.labels
  label : s.label = 0 → s'.label = 0

namespace Grows

variable {s s₁ s' : Selection} {new more : List Instr}

/-- Which registers and rules are used says nothing about the code. -/
theorem of_eq (hout : s'.out = s.out) (hlabel : s'.label = s.label) : Grows s [] s' :=
  ⟨by rw [Selection.code, hout, List.append_nil]; rfl, by rw [Selection.labels, hout, hlabel]; rfl,
    fun h => hlabel.trans h⟩

theorem trans (h : Grows s new s₁) (h' : Grows s₁ more s') : Grows s (new ++ more) s' :=
  ⟨by rw [h'.code, h.code, List.append_assoc], h'.labels.trans h.labels, fun hs => h'.label (h.label hs)⟩

theorem after (h : Grows s₁ new s') (hout : s₁.out = s.out) (hlabel : s₁.label = s.label) : Grows s new s' :=
  (of_eq hout hlabel).trans h

end Grows

variable {i : Instr}

theorem run_emit (hi : i.label = 0) (s : Selection) :
    ∃ s', (emit i).run s = ((), s') ∧ s'.vregCount = s.vregCount ∧ s'.label = 0 ∧ Grows s [i] s' := by
  refine ⟨_, rfl, rfl, rfl, ?_, ?_, fun _ => rfl⟩
  · have hsame : (if s.label = 0 then i else { i with label := s.label }).unlabelled = i := by
      rw [show i = i.unlabelled by rw [Instr.unlabelled, ← hi]]
      split <;> rfl
    simp only [code, Array.toList_push, List.map_append, List.map_cons, List.map_nil, hsame]
  · have htaken : labelsOf [if s.label = 0 then i else { i with label := s.label }]
        = labelsOf [.target s.label] := by
      by_cases h : s.label = 0
      · rw [if_pos h, labelsOf_of_zero hi, labelsOf_of_zero h]
      · rw [if_neg h]
        exact labelsOf_congr rfl
    simp only [labels, Array.toList_push, labelsOf_append, htaken]
    exact List.append_nil _

theorem run_freshReg (t : Ty) (s : Selection) :
    (freshReg t).run s =
      (.vreg (s.vregCount + 1) t, { s with vregCount := s.vregCount + 1 }) := rfl

/-! ### One rule -/

/-- What an argument of a rule stands for: an operand of the rule, a register that it fixes, or a scratch
register, one of those after the first `n` up to `n'`. -/
def Means (b : Binding) (n n' : Int) (a : Arg) (o : Option Operand) : Prop :=
  match a with
  | .none => o = none
  | .dst => o = b.dst
  | .src1 => o = b.src1
  | .src2 => o = b.src2
  | .scratch _ => ∃ v, o = some (.vreg v .long) ∧ n < v ∧ v ≤ n'
  | .rax | .rcx | .rdx | .xmm0 => ∃ g, a.fixed? = some g ∧ o = some (.vreg g.pseudo b.type)

/-- An instruction stands for a machine instruction of a rule. -/
structure Stands (b : Binding) (n n' : Int) (m : MicroOp) (i : Instr) : Prop where
  op : i.op = m.op
  template : i.template = m.template
  dst : Means b n n' m.dst i.dst
  src1 : Means b n n' m.v1 i.src1
  src2 : Means b n n' m.v2 i.src2

/-- The operands of a rule are bound, and its scratch registers come after the first `n`. -/
structure Bound (b₀ : Binding) (n : Int) (b : Binding) (s : Selection) : Prop where
  eq : b = { b₀ with scratch := b.scratch }
  scratch : ∀ p ∈ b.scratch, ∃ v, p.2 = .vreg v .long ∧ n < v ∧ v ≤ s.vregCount
  count : n ≤ s.vregCount

variable {o : Option Operand} {s' s : Selection} {code : List Instr} {r : Rule} {v n' n n'' : Int} {c : OpClass}
  {t : Tree} {fold : Bool} {items : List Item} {pieces : List (List Instr)} {b b₀ : Selection.Binding} {m : MicroOp}

theorem Means.mono {a : Arg} (h : Means b n n' a o) (hn : n' ≤ n'') : Means b n n'' a o := by
  cases a with
  | scratch k =>
    obtain ⟨v, hv, hlt, hle⟩ := h
    exact ⟨v, hv, hlt, Int.le_trans hle hn⟩
  | _ => exact h

theorem Stands.mono (h : Stands b n n' m i) (hn : n' ≤ n'') :
    Stands b n n'' m i := ⟨h.op, h.template, h.dst.mono hn, h.src1.mono hn, h.src2.mono hn⟩

theorem Bound.mono (h : Bound b₀ n b s) (hs : s.vregCount ≤ s'.vregCount) : Bound b₀ n b s' := by
  refine ⟨h.eq, fun p hp => ?_, Int.le_trans h.count hs⟩
  obtain ⟨v, hv, hlt, hle⟩ := h.scratch p hp
  exact ⟨v, hv, hlt, Int.le_trans hle hs⟩

theorem run_bind {α β : Type} {x : Emit α} {f : α → Emit β} {a : α} (h : x.run s = (a, s')) :
    (x >>= f).run s = (f a).run s' := by
  rw [StateT.run_bind, h]
  rfl

variable {b₀ : Binding} {b : Binding} {cover : Cover} {o' : Operand} {rules' : List Rule} {dst : Option Operand}
  {j : Instr}

theorem run_resolve (h : Bound b₀ n b s) (a : Arg) :
    ∃ o b' s', (resolve b a).run s = ((o, b'), s') ∧ Grows s [] s' ∧ s.vregCount ≤ s'.vregCount ∧
      Bound b₀ n b' s' ∧ Means b₀ n s'.vregCount a o := by
  have hsame : Grows s [] s := .of_eq rfl rfl
  cases a with
  | scratch k =>
    cases hlookup : b.scratch.lookup k with
    | some o =>
      have hrun : (resolve b (.scratch k)).run s = ((some o, b), s) := by
        simp only [resolve, hlookup]
        rfl
      obtain ⟨before, after, hsplit, -⟩ := List.lookup_eq_some_iff.mp hlookup
      obtain ⟨v, hv, hfresh⟩ := h.scratch (k, o) (by rw [hsplit]; simp)
      exact ⟨_, _, _, hrun, hsame, Int.le_refl _, h, v, congrArg some hv, hfresh⟩
    | none =>
      let o := Operand.vreg (s.vregCount + 1) .long
      have hrun : (resolve b (.scratch k)).run s
          = ((some o, { b with scratch := (k, o) :: b.scratch }),
            { s with vregCount := s.vregCount + 1 }) := by
        simp only [resolve, hlookup]
        rfl
      have hcount := h.count
      have hmore : s.vregCount ≤ s.vregCount + 1 := by omega
      have hfresh : n < s.vregCount + 1 ∧ s.vregCount + 1 ≤ s.vregCount + 1 := by omega
      refine ⟨_, _, _, hrun, .of_eq rfl rfl, hmore, ⟨?_, ?_, Int.le_trans hcount hmore⟩, _, rfl, hfresh⟩
      · rw [h.eq]
      · intro p hp
        rcases List.mem_cons.mp hp with rfl | hp
        · exact ⟨_, rfl, hfresh⟩
        · obtain ⟨v, hv, hlt, hle⟩ := h.scratch p hp
          exact ⟨v, hv, hlt, Int.le_trans hle hmore⟩
  | rax | rcx | rdx | xmm0 =>
    refine ⟨_, _, _, rfl, hsame, Int.le_refl _, h, _, rfl, ?_⟩
    rw [h.eq]
  | none => exact ⟨_, _, _, rfl, hsame, Int.le_refl _, h, rfl⟩
  | _ =>
    refine ⟨_, _, _, rfl, hsame, Int.le_refl _, h, ?_⟩
    rw [h.eq]
    rfl

theorem run_applyMicro (h : Bound b₀ n b s) (m : MicroOp) :
    ∃ b' s' i, (applyMicro b m).run s = (b', s') ∧ Grows s [i] s' ∧ s'.label = 0 ∧
      s.vregCount ≤ s'.vregCount ∧ Bound b₀ n b' s' ∧ Stands b₀ n s'.vregCount m i := by
  obtain ⟨o, b₁, s₁, hrun₁, hgrows₁, hcount₁, h₁, hdst⟩ := run_resolve h m.dst
  obtain ⟨v1, b₂, s₂, hrun₂, hgrows₂, hcount₂, h₂, hv1⟩ := run_resolve h₁ m.v1
  obtain ⟨v2, b₃, s₃, hrun₃, hgrows₃, hcount₃, h₃, hv2⟩ := run_resolve h₂ m.v2
  let i : Instr := { op := m.op, dst := o, src1 := v1, src2 := v2, template := m.template }
  obtain ⟨s₄, hrun₄, hcount₄, hlabel, hgrows₄⟩ := run_emit (i := i) rfl s₃
  have hstands : Stands b₀ n s₄.vregCount m i :=
    ⟨rfl, rfl, hdst.mono (by omega), hv1.mono (by omega), hv2.mono (by omega)⟩
  refine ⟨b₃, s₄, i, ?_, ((hgrows₁.trans hgrows₂).trans hgrows₃).trans hgrows₄, hlabel, by omega,
    h₃.mono (by omega), hstands⟩
  unfold applyMicro
  rw [run_bind hrun₁, run_bind hrun₂, run_bind hrun₃, run_bind hrun₄]
  rfl

theorem run_applyOps (ops : List MicroOp) (h : Bound b₀ n b s) :
    ∃ b' s' new, (ops.foldlM applyMicro b : Emit Binding).run s = (b', s') ∧ Grows s new s' ∧
      (ops ≠ [] → s'.label = 0) ∧ s.vregCount ≤ s'.vregCount ∧
      List.Forall₂ (Stands b₀ n s'.vregCount) ops new := by
  induction ops generalizing b s with
  | nil => exact ⟨b, s, [], rfl, .of_eq rfl rfl, fun h => absurd rfl h, Int.le_refl _, .nil⟩
  | cons m ops ih =>
    obtain ⟨b₁, s₁, i, hrun, hgrows, hlabel, hcount, h₁, hstands⟩ := run_applyMicro h m
    obtain ⟨b₂, s₂, new, hrun', hgrows', -, hcount', hall⟩ := ih h₁
    refine ⟨b₂, s₂, i :: new, ?_, hgrows.trans hgrows', fun _ => hgrows'.label hlabel, by omega,
      .cons (hstands.mono hcount') hall⟩
    rw [List.foldlM_cons, run_bind hrun, hrun']

/-- The code of a rule, when the registers up to `n` are taken before it and those up to `n'` after it. -/
def Applied (r : Rule) (dst src1 src2 : Option Operand) (type : Ty) (n : Int) (code : List Instr)
    (n' : Int) : Prop :=
  n ≤ n' ∧ List.Forall₂ (Stands { dst := dst, src1 := src1, src2 := src2, type := fixedType type } n n') r.ops code

theorem exists_apply (r : Rule) (dst src1 src2 : Option Operand) (type : Ty) (s : Selection) :
    ∃ s' new, (apply r dst src1 src2 type).run s = ((), s') ∧ Grows s new s' ∧ (r.ops ≠ [] → s'.label = 0) ∧
      Applied r dst src1 src2 type s.vregCount new s'.vregCount := by
  have hbound : Bound { dst := dst, src1 := src1, src2 := src2, type := fixedType type } s.vregCount
      { dst := dst, src1 := src1, src2 := src2, type := fixedType type }
      { s with used := s.used.push r.index } := ⟨rfl, fun p hp => (List.not_mem_nil hp).elim, Int.le_refl _⟩
  obtain ⟨b', s', new, hrun, hgrows, hlabel, hcount, hall⟩ := run_applyOps r.ops hbound
  refine ⟨s', new, ?_, hgrows.after rfl rfl, hlabel, hcount, hall⟩
  simp only [apply, StateT.run_bind, StateT.run_modify, pure_bind, hrun]
  rfl

/-! ### Covers -/

/-- The code of a leaf rule and the operand it leaves. -/
inductive AppliedLeaf (r : Rule) (o : Operand) (n : Int) : List Instr → Operand → Int → Prop
  | same (h : r.ops = []) : AppliedLeaf r o n [] o n
  | made (h : r.ops ≠ []) {code : List Instr} {n' : Int}
      (hcode : Applied r (some (.vreg (n + 1) (r.dst.resultType o.type))) o none o.type (n + 1) code n') :
      AppliedLeaf r o n code (.vreg (n + 1) (r.dst.resultType o.type)) n'

/-- The code of a cover below the root and the operand with its result. -/
inductive Reduced : Cover → Int → List Instr → Option Operand → Int → Prop
  | absent (n : Int) : Reduced .absent n [] none n
  | leaf {r : Rule} {o o' : Operand} {n n' : Int} {code : List Instr} (h : AppliedLeaf r o n code o' n') :
      Reduced (.leaf r o) n code (some o') n'
  | chain {r : Rule} {inner : Cover} {o o' : Operand} {n n₁ n' : Int} {code more : List Instr}
      (h : Reduced inner n code (some o) n₁) (h' : AppliedLeaf r o n₁ more o' n') :
      Reduced (.chain r inner) n (code ++ more) (some o') n'
  | chainNone {r : Rule} {inner : Cover} {n n' : Int} {code : List Instr}
      (h : Reduced inner n code none n') : Reduced (.chain r inner) n code none n'
  | node {r : Rule} {type : Ty} {left right : Cover} {o₁ o₂ : Option Operand} {n n₁ n₂ n' : Int}
      {code₁ code₂ code : List Instr} (h₁ : Reduced left n code₁ o₁ n₁) (h₂ : Reduced right n₁ code₂ o₂ n₂)
      (hdst : r.dst.isRegister = true)
      (h : Applied r (some (.vreg (n₂ + 1) (r.dst.resultType type))) o₁ o₂ type (n₂ + 1) code n') :
      Reduced (.node r type left right) n (code₁ ++ code₂ ++ code)
        (some (.vreg (n₂ + 1) (r.dst.resultType type))) n'
  | nodeNone {r : Rule} {type : Ty} {left right : Cover} {o₁ o₂ : Option Operand} {n n₁ n₂ n' : Int}
      {code₁ code₂ code : List Instr} (h₁ : Reduced left n code₁ o₁ n₁) (h₂ : Reduced right n₁ code₂ o₂ n₂)
      (hdst : r.dst.isRegister = false) (h : Applied r none o₁ o₂ type n₂ code n') :
      Reduced (.node r type left right) n (code₁ ++ code₂ ++ code) none n'

theorem exists_applyLeaf (r : Rule) (o : Operand) (s : Selection) :
    ∃ o' s' new, (applyLeaf r o).run s = (o', s') ∧ Grows s new s' ∧
      AppliedLeaf r o s.vregCount new o' s'.vregCount := by
  unfold applyLeaf
  by_cases hempty : r.ops.isEmpty = true
  · rw [if_pos hempty]
    exact ⟨o, s, [], rfl, .of_eq rfl rfl, .same (List.isEmpty_iff.mp hempty)⟩
  · rw [if_neg hempty]
    let d := Operand.vreg (s.vregCount + 1) (r.dst.resultType o.type)
    obtain ⟨s', new, hrun, hgrows, -, happlied⟩ := exists_apply r (some d) (some o) none o.type
      { s with vregCount := s.vregCount + 1 }
    refine ⟨d, s', new, ?_, hgrows.after rfl rfl, .made (by simpa using hempty) happlied⟩
    rw [run_bind (run_freshReg _ s), run_bind hrun]
    rfl

/-- **A cover is emitted as the code of its rules.** -/
theorem exists_reduce (cover : Cover) (s : Selection) :
    ∃ o s' new, (reduce cover).run s = (o, s') ∧ Grows s new s' ∧
      Reduced cover s.vregCount new o s'.vregCount := by
  induction cover generalizing s with
  | absent => exact ⟨none, s, [], rfl, .of_eq rfl rfl, .absent _⟩
  | leaf r o =>
    obtain ⟨o', s', new, hrun, hgrows, hleaf⟩ := exists_applyLeaf r o s
    refine ⟨some o', s', new, ?_, hgrows, .leaf hleaf⟩
    rw [reduce, run_bind hrun]
    rfl
  | chain r inner ih =>
    obtain ⟨o, s₁, new, hrun, hgrows, hinner⟩ := ih s
    cases o with
    | none =>
      refine ⟨none, s₁, new, ?_, hgrows, .chainNone hinner⟩
      rw [reduce, run_bind hrun]
      rfl
    | some o =>
      obtain ⟨o', s', more, hrun', hgrows', hleaf⟩ := exists_applyLeaf r o s₁
      refine ⟨some o', s', new ++ more, ?_, hgrows.trans hgrows', .chain hinner hleaf⟩
      rw [reduce, run_bind hrun]
      rw [run_bind hrun']
      rfl
  | node r type left right ihl ihr =>
    obtain ⟨o₁, s₁, new₁, hrun₁, hgrows₁, hleft⟩ := ihl s
    obtain ⟨o₂, s₂, new₂, hrun₂, hgrows₂, hright⟩ := ihr s₁
    rw [reduce, run_bind hrun₁, run_bind hrun₂]
    cases hreg : r.dst.isRegister with
    | true =>
      let d := Operand.vreg (s₂.vregCount + 1) (r.dst.resultType type)
      obtain ⟨s', new, hrun, hgrows, -, happlied⟩ := exists_apply r (some d) o₁ o₂ type
        { s₂ with vregCount := s₂.vregCount + 1 }
      refine ⟨some d, s', new₁ ++ new₂ ++ new, ?_,
        (hgrows₁.trans hgrows₂).trans (hgrows.after rfl rfl),
        .node hleft hright hreg happlied⟩
      show (apply r (some d) o₁ o₂ type >>= fun _ => pure (some d) : Emit (Option Operand)).run _ = _
      rw [run_bind hrun]
      rfl
    | false =>
      obtain ⟨s', new, hrun, hgrows, -, happlied⟩ := exists_apply r none o₁ o₂ type s₂
      refine ⟨none, s', new₁ ++ new₂ ++ new, ?_, (hgrows₁.trans hgrows₂).trans hgrows,
        .nodeNone hleft hright hreg happlied⟩
      show (apply r none o₁ o₂ type >>= fun _ => pure none : Emit (Option Operand)).run s₂ = _
      rw [run_bind hrun]
      rfl

theorem AppliedLeaf.count {o : Operand} (h : AppliedLeaf r o n code o' n') : n ≤ n' := by
  cases h with
  | same => exact Int.le_refl _
  | made h hcode =>
    have := hcode.1
    omega

theorem Reduced.count (h : Reduced cover n code o n') : n ≤ n' := by
  induction h with
  | absent => exact Int.le_refl _
  | leaf h => exact h.count
  | chain _ h' ih => exact Int.le_trans ih h'.count
  | chainNone _ ih => exact ih
  | node _ _ _ h ih₁ ih₂ =>
    have := h.1
    omega
  | nodeNone _ _ _ h ih₁ ih₂ =>
    have := h.1
    omega

/-! ### What code writes -/

/-- What the code of rules goes to: the destination, a register that they fix, or one after the first `n`. -/
def Target (dst : Option Operand) (rules : List Rule) (n : Int) (o : Operand) : Prop :=
  dst = some o ∨ (∃ r ∈ rules, ∃ g ∈ r.fixed, o.vregId? = some g.pseudo) ∨ ∃ v, o.vregId? = some v ∧ n < v

theorem Target.mono {rules : List Rule}
    {o : Operand} (h : Target dst rules n o) (hrules : rules ⊆ rules') (hn : n' ≤ n) :
    Target dst rules' n' o := by
  refine h.imp_right (Or.imp ?_ ?_)
  · rintro ⟨r, hr, hg⟩
    exact ⟨r, hrules hr, hg⟩
  · rintro ⟨v, hv, hlt⟩
    exact ⟨v, hv, Int.lt_of_le_of_lt hn hlt⟩

/-- The instruction has a destination only if one of the rules has such an instruction with one. -/
def Aimed (rules : List Rule) (j : Instr) : Prop :=
  j.dst.isSome = true → ∃ r ∈ rules, ∃ m ∈ r.ops, m.op = j.op ∧ m.dst ≠ .none

theorem Aimed.mono {rules : List Rule} (h : Aimed rules j) (hrules : rules ⊆ rules') :
    Aimed rules' j := fun hdst => by
  obtain ⟨r, hr, hm⟩ := h hdst
  exact ⟨r, hrules hr, hm⟩

/-- A register that is written through a target. -/
theorem Target.of_defined? {rules : List Rule} (h : ∀ o, i.dst = some o → Target dst rules n o)
    (hv : i.defined? = some v) :
    dst.bind (·.vregId?) = some v ∨ (∃ r ∈ rules, ∃ g ∈ r.fixed, g.pseudo = v) ∨ n < v := by
  obtain ⟨o, ho, hid⟩ := Option.bind_eq_some_iff.mp (Instr.dst_of_defined? hv)
  rcases h o ho with hdst | ⟨r, hr, g, hg, hfixed⟩ | ⟨u, hu, hlt⟩
  · exact .inl (by rw [hdst]; exact hid)
  · exact .inr (.inl ⟨r, hr, g, hg, Option.some.inj (hfixed.symm.trans hid)⟩)
  · exact .inr (.inr (Option.some.inj (hu.symm.trans hid) ▸ hlt))

/-- The operations of code, without labels that stand alone. -/
def opcodes (code : List Instr) : List Opcode := (code.map (·.op)).filter (· != .ir .nop)

theorem opcodes_append (code more : List Instr) : opcodes (code ++ more) = opcodes code ++ opcodes more := by
  simp [opcodes]

/-- The operations of rules, in order. -/
def opcodesOf (rules : List Rule) : List Opcode :=
  ((rules.flatMap (·.ops)).map (·.op)).filter (· != .ir .nop)

theorem opcodesOf_append (rules more : List Rule) :
    opcodesOf (rules ++ more) = opcodesOf rules ++ opcodesOf more := by
  simp [opcodesOf]

/-- The code has the operations of rules, and writes the destination, what they fix and registers handed out
after the first `n`. -/
structure Adds (dst : Option Operand) (rules : List Rule) (n : Int) (new : List Instr) : Prop where
  ops : opcodes new = opcodesOf rules
  targets : ∀ i ∈ new, ∀ o, i.dst = some o → Target dst rules n o
  aimed : ∀ i ∈ new, Aimed rules i
  fixes : ∀ r ∈ rules, ∀ g ∈ r.fixed, ∃ i ∈ new, i.defined? = some g.pseudo

variable {src1 src2 : Option Operand} {rules : List Rule} {new more : List Instr} {g : Reg} {type : Ty}

theorem Adds.nil (dst : Option Operand) (n : Int) : Adds dst [] n [] :=
  ⟨rfl, fun _ hi => (List.not_mem_nil hi).elim, fun _ hi => (List.not_mem_nil hi).elim,
    fun _ hr => (List.not_mem_nil hr).elim⟩

theorem Adds.append (h : Adds dst rules n new) (h' : Adds dst rules' n' more) (hn : n ≤ n') :
    Adds dst (rules ++ rules') n (new ++ more) := by
  refine ⟨by rw [opcodes_append, opcodesOf_append, h.ops, h'.ops], fun i hi o ho => ?_, fun i hi => ?_,
    fun r hr g hg => ?_⟩
  · rcases List.mem_append.mp hi with hi | hi
    · exact (h.targets i hi o ho).mono (List.subset_append_left _ _) (Int.le_refl _)
    · exact (h'.targets i hi o ho).mono (List.subset_append_right _ _) hn
  · rcases List.mem_append.mp hi with hi | hi
    · exact (h.aimed i hi).mono (List.subset_append_left _ _)
    · exact (h'.aimed i hi).mono (List.subset_append_right _ _)
  · rcases List.mem_append.mp hr with hr | hr
    · obtain ⟨i, hi, hdef⟩ := h.fixes r hr g hg
      exact ⟨i, List.mem_append_left _ hi, hdef⟩
    · obtain ⟨i, hi, hdef⟩ := h'.fixes r hr g hg
      exact ⟨i, List.mem_append_right _ hi, hdef⟩

/-- Code below the root has no destination of its own. -/
theorem Adds.of_none (h : Adds none rules n new) : Adds dst rules n new :=
  ⟨h.ops, fun i hi o ho => (h.targets i hi o ho).elim nofun .inr, h.aimed, h.fixes⟩

/-- Code that writes a register handed out just before it. -/
theorem Adds.of_fresh {t : Ty} (h : Adds (some (.vreg (n + 1) t)) rules (n + 1) new) : Adds dst rules n new := by
  refine ⟨h.ops, fun i hi o ho => .inr ?_, h.aimed, h.fixes⟩
  rcases h.targets i hi o ho with heq | hfixed | ⟨v, hv, hlt⟩
  · rw [← Option.some.inj heq]
    exact .inr ⟨_, rfl, Int.lt_succ _⟩
  · exact .inl hfixed
  · exact .inr ⟨v, hv, Int.lt_trans (Int.lt_succ _) hlt⟩

/-- Labels that stand alone may follow. -/
theorem Adds.label (h : Adds dst rules n new) {label : List Instr} (hlabel : ∀ j ∈ label, j = .target 0) :
    Adds dst rules n (new ++ label) := by
  have hnone : ∀ j ∈ label, j.dst = none := fun j hj => by rw [hlabel j hj]; rfl
  have hops : opcodes label = [] := by
    simp only [opcodes, List.filter_eq_nil_iff, List.mem_map]
    rintro _ ⟨j, hj, rfl⟩
    rw [hlabel j hj]
    decide
  refine ⟨by rw [opcodes_append, hops, List.append_nil, h.ops], fun j hj o ho => ?_, fun j hj hdst => ?_,
    fun r hr g hg => ?_⟩
  · rcases List.mem_append.mp hj with hj | hj
    · exact h.targets j hj o ho
    · rw [hnone j hj] at ho
      exact nomatch ho
  · rcases List.mem_append.mp hj with hj | hj
    · exact h.aimed j hj hdst
    · rw [hnone j hj] at hdst
      exact nomatch hdst
  · obtain ⟨j, hj, hdef⟩ := h.fixes r hr g hg
    exact ⟨j, List.mem_append_left _ hj, hdef⟩

theorem ops_of_stands {ops : List MicroOp} (h : List.Forall₂ (Stands b n n') ops new) :
    new.map (·.op) = ops.map (·.op) := by
  induction h with
  | nil => rfl
  | cons h _ ih => rw [List.map_cons, List.map_cons, ih, h.op]

/-- A rule writes all the registers it fixes. -/
theorem exists_fixed (hall : List.Forall₂ (Stands b n n') r.ops new) (hr : r.storesThroughFixed = false)
    (hg : g ∈ r.fixed) : ∃ i ∈ new, i.defined? = some g.pseudo := by
  obtain ⟨m, hm, hfixed⟩ := List.mem_filterMap.mp hg
  obtain ⟨i, hi, hstands⟩ := exists_of_forall₂ hall hm
  have hstores : m.op.storesThroughDst = false := by
    have := List.any_eq_false.mp hr m hm
    simpa [hfixed] using this
  have hid : i.dst.bind (·.vregId?) = some g.pseudo ∧ g.pseudo ≠ 0 := by
    have hdst := hstands.dst
    cases harg : m.dst with
    | rax | rcx | rdx | xmm0 =>
      rw [harg] at hfixed hdst
      obtain ⟨g', hg', hdst⟩ := hdst
      obtain rfl := Option.some.inj (hfixed.symm.trans hg')
      rw [hdst]
      obtain rfl := Option.some.inj hfixed
      exact ⟨rfl, by decide⟩
    | _ =>
      rw [harg] at hfixed
      exact nomatch hfixed
  refine ⟨i, hi, ?_⟩
  rw [Instr.defined?, hstands.op, hstores, hid.1]
  simp [hid.2]

/-- **The code of a rule is its instructions.** -/
theorem Applied.adds (hr : r.sparesSources = true) (hsolid : r.storesThroughFixed = false)
    (h : Applied r dst src1 src2 type n new n') : Adds dst [r] n new := by
  refine ⟨?_, fun i hi o ho => ?_, fun i hi hdst => ?_, fun r' hr' g hg => ?_⟩
  · rw [opcodes, opcodesOf, List.flatMap_cons, List.flatMap_nil, List.append_nil, ops_of_stands h.2]
  · obtain ⟨m, hm, hstands⟩ := exists_of_forall₂ h.2.flip hi
    have hspares := List.all_eq_true.mp hr m hm
    have hdst := hstands.dst
    rw [ho] at hdst
    cases harg : m.dst with
    | none => rw [harg] at hdst; exact nomatch hdst
    | dst => rw [harg] at hdst; exact .inl hdst.symm
    | src1 => simp [harg, Arg.isSource] at hspares
    | src2 => simp [harg, Arg.isSource] at hspares
    | scratch k =>
      rw [harg] at hdst
      obtain ⟨v, hv, hlt, -⟩ := hdst
      exact .inr (.inr ⟨v, by rw [Option.some.inj hv]; rfl, hlt⟩)
    | rax | rcx | rdx | xmm0 =>
      rw [harg] at hdst
      obtain ⟨g, hg, hv⟩ := hdst
      exact .inr (.inl ⟨r, List.mem_singleton_self r, g, List.mem_filterMap.mpr ⟨m, hm, by rw [harg]; exact hg⟩,
        by rw [Option.some.inj hv]; rfl⟩)
  · obtain ⟨m, hm, hstands⟩ := exists_of_forall₂ h.2.flip hi
    refine ⟨r, List.mem_singleton_self r, m, hm, hstands.op.symm, fun habsent => ?_⟩
    have hnone := hstands.dst
    rw [habsent] at hnone
    rw [show i.dst = none from hnone] at hdst
    cases hdst
  · obtain rfl := List.mem_singleton.mp hr'
    exact exists_fixed h.2 hsolid hg

variable {set : RuleSet}

theorem AppliedLeaf.adds (hset : set.Tidy) (hr : r ∈ set.rules) {o : Operand}
    (h : AppliedLeaf r o n new o' n') : Adds none [r] n new := by
  cases h with
  | same hempty =>
    refine ⟨by simp [opcodes, opcodesOf, hempty], fun _ hi => (List.not_mem_nil hi).elim,
      fun _ hi => (List.not_mem_nil hi).elim, fun r' hr' g hg => ?_⟩
    rw [List.mem_singleton.mp hr', Rule.fixed, hempty] at hg
    exact nomatch hg
  | made _ hcode => exact (hcode.adds (hset.spares r hr) (hset.solid r hr)).of_fresh

/-- **The code of a cover is that of its rules.** -/
theorem Reduced.adds (hset : set.Tidy) (htiles : Tiles set t c cover) (h : Reduced cover n new o n') :
    Adds none cover.rules n new ∧ (c.isRegister = true → o.isSome = true) := by
  induction htiles generalizing n n' new o with
  | absent =>
    cases h
    exact ⟨.nil none _, by simp [OpClass.isRegister]⟩
  | leaf hc hr =>
    cases h with
    | leaf h => exact ⟨h.adds hset (List.mem_filter.mp hr).1, fun _ => rfl⟩
  | chain hinner hreg hrule ih =>
    cases h with
    | chain h h' => exact ⟨(ih h).1.append (h'.adds hset (List.mem_filter.mp hrule).1) h.count, fun _ => rfl⟩
    | chainNone h => exact nomatch (ih h).2 hreg
  | @node op type l r rule a b hrule hdst hl hr ha hb iha ihb =>
    have hspares := hset.spares rule (List.mem_filter.mp hrule).1
    have hsolid := hset.solid rule (List.mem_filter.mp hrule).1
    cases h with
    | node h₁ h₂ _ h =>
      exact ⟨((iha h₁).1.append (ihb h₂).1 h₁.count).append (h.adds hspares hsolid).of_fresh
        (Int.le_trans h₁.count h₂.count), fun _ => rfl⟩
    | nodeNone h₁ h₂ hnone h =>
      exact ⟨((iha h₁).1.append (ihb h₂).1 h₁.count).append (h.adds hspares hsolid)
        (Int.le_trans h₁.count h₂.count), fun hreg => by rw [hnone] at hreg; cases hreg⟩

/-! ### Steps of selection -/

/-- Whatever the trace so far, a step of selection returns, with `post` of what it returns and of the state it
ends in, or it fails, if it may. -/
def Ends {α : Type} (fail : Prop) (x : SelectM α) (s : Selection) (post : α → Selection → Prop) : Prop :=
  ∃ r, Traced.Gives (x.run s) r ∧ match r with
    | .ok p => post p.1 p.2
    | .error _ => fail

variable {fail : Prop} {s'' : Selection} {item : Item} {rounds : Nat} {src : Option Operand} {arg : Arg} {n₁ : Int}
  {pieces' : List (List Instr)} {options : SelectOptions} {info : MergeInfo}

section

variable {α β : Type} {post : α → Selection → Prop} {post' : β → Selection → Prop} {a : α} {x : SelectM α}
  {f : α → SelectM β}

theorem ends_pure (h : post a s) : Ends fail (pure a) s post := ⟨.ok (a, s), fun events => ⟨events, rfl⟩, h⟩

theorem ends_throw (e : Failure) (h : fail) : Ends fail (throw e : SelectM α) s post :=
  ⟨.error e, fun events => ⟨events, rfl⟩, h⟩

theorem ends_bind (hx : Ends fail x s post) (hf : ∀ a s', post a s' → Ends fail (f a) s' post') :
    Ends fail (x >>= f) s post' := by
  obtain ⟨r, hr, hpost⟩ := hx
  cases r with
  | error e => exact ⟨.error e, Traced.gives_bind_error hr, hpost⟩
  | ok p =>
    obtain ⟨r', hr', hpost'⟩ := hf p.1 p.2 hpost
    exact ⟨r', Traced.gives_bind hr hr', hpost'⟩

theorem Ends.mono {post' : α → Selection → Prop} (h : Ends fail x s post)
    (hpost : ∀ a s', post a s' → post' a s') : Ends fail x s post' := by
  obtain ⟨r, hr, h⟩ := h
  cases r with
  | error e => exact ⟨.error e, hr, h⟩
  | ok p => exact ⟨.ok p, hr, hpost p.1 p.2 h⟩

theorem ends_lift {x : Emit α} (h : x.run s = (a, s')) (hpost : post a s') : Ends fail (liftM x) s post := by
  refine ⟨.ok (a, s'), fun events => ⟨events, ?_⟩, hpost⟩
  show EStateM.Result.ok (x.run s) events = _
  rw [h]

theorem ends_bind_lift {x : Emit α} (h : x.run s = (a, s')) (hf : Ends fail (f a) s' post') :
    Ends fail (liftM x >>= f) s post' := by
  have hx : Ends fail (liftM x) s fun a' s₁ => a' = a ∧ s₁ = s' := ends_lift h ⟨rfl, rfl⟩
  refine ends_bind hx ?_
  rintro _ _ ⟨rfl, rfl⟩
  exact hf

theorem ends_bind_modify {f : Unit → SelectM β} (g : Selection → Selection)
    (hf : Ends fail (f ()) (g s) post') : Ends fail (modify g >>= f) s post' := hf

theorem ends_note {post : Unit → Selection → Prop} (name : String) (note : Note) (h : post () s) :
    Ends fail (liftM (Traced.note name note)) s post := ⟨.ok ((), s), fun _ => ⟨_, rfl⟩, h⟩

end

/-! ### Trees -/

/-- The cover chosen for a tree and a destination. -/
def Chosen (set : RuleSet) (dst : Option Operand) (t : Tree) (cover : Cover) : Prop :=
  ∃ c a, (Choices.ofRoot set dst t).cheapest = some (c, a) ∧ a.cover = cover

/-- A chosen cover is a rule for the root with covers of its operands. -/
theorem Chosen.exists_node (h : Chosen set i.dst t cover) :
    ∃ op type l r rule a b, t = .node op type l r ∧ cover = .node rule type a b ∧ rule ∈ set.forOp op ∧
      Choices.writes i.dst rule.dst = true ∧ Tiles set l rule.src1 a ∧ Tiles set r rule.src2 b := by
  obtain ⟨c, a, hcheapest, rfl⟩ := h
  obtain ⟨hmem, -⟩ := Choices.mem_of_cheapest hcheapest
  cases t with
  | absent => exact nomatch hmem
  | leaf o => exact nomatch hmem
  | node op type l r =>
    obtain ⟨rule, hrule, hwrites, x, y, hx, hy, heq⟩ := Choices.exists_of_mem_ofRoot hmem
    obtain ⟨rfl, rfl⟩ := Prod.mk.inj heq
    exact ⟨op, type, l, r, rule, x.cover, y.cover, rfl, rfl, hrule, hwrites, hx.tiles, hy.tiles⟩

/-- The code of a tree.  The root writes the destination unless it would overwrite a source that it reads
again.  What follows the code is a label that no instruction took, if there is one. -/
inductive TreeCode (set : RuleSet) : Nat → Instr → Tree → Int → List Instr → Int → Prop
  | direct {rounds : Nat} {i : Instr} {t : Tree} {r : Rule} {type : Ty} {left right : Cover}
      {o₁ o₂ : Option Operand} {n n₁ n₂ n' : Int} {code₁ code₂ code label : List Instr}
      (hchosen : Chosen set i.dst t (.node r type left right)) (h₁ : Reduced left n code₁ o₁ n₁)
      (h₂ : Reduced right n₁ code₂ o₂ n₂) (h : Applied r i.dst o₁ o₂ type n₂ code n')
      (hover : rounds ≠ 0 → overwrites r i.dst o₁ .src1 = false ∧ overwrites r i.dst o₂ .src2 = false)
      (hlabel : ∀ j ∈ label, j = .target 0) :
      TreeCode set rounds i t n (code₁ ++ code₂ ++ code ++ label) n'
  | through {rounds : Nat} {i : Instr} {t : Tree} {d : Operand} {r : Rule} {type : Ty} {left right : Cover}
      {o₁ o₂ : Option Operand} {n n₁ n₂ n₃ n' : Int} {code₁ code₂ code rest label : List Instr}
      (hdst : i.dst = some d) (hchosen : Chosen set i.dst t (.node r type left right))
      (h₁ : Reduced left n code₁ o₁ n₁) (h₂ : Reduced right n₁ code₂ o₂ n₂)
      (h : Applied r (some (.vreg (n₂ + 1) d.type)) o₁ o₂ type (n₂ + 1) code n₃)
      (hover : overwrites r i.dst o₁ .src1 = true ∨ overwrites r i.dst o₂ .src2 = true)
      (hmove : TreeCode set rounds (.ir .move d (Operand.vreg (n₂ + 1) d.type) none)
        (.ofInstr (.ir .move d (Operand.vreg (n₂ + 1) d.type) none)) n₃ rest n')
      (hlabel : ∀ j ∈ label, j = .target 0) :
      TreeCode set (rounds + 1) i t n (code₁ ++ code₂ ++ code ++ rest ++ label) n'

theorem TreeCode.count (h : TreeCode set rounds i t n new n') : n ≤ n' := by
  induction h with
  | direct _ h₁ h₂ h =>
    have := h₁.count
    have := h₂.count
    have := h.1
    omega
  | through _ _ h₁ h₂ h _ _ _ ih =>
    have := h₁.count
    have := h₂.count
    have := h.1
    omega

/-- A tree can be selected: there is a cover for it, and one for the move out of a temporary. -/
structure HasCover (set : RuleSet) (dst : Option Operand) (t : Tree) : Prop where
  root : (Choices.ofRoot set dst t).cheapest.isSome = true
  move : ∀ d, dst = some d → ∀ v, (Choices.ofRoot set (some d)
    (.ofInstr (.ir .move d (Operand.vreg v d.type) none))).cheapest.isSome = true

theorem ends_bestCover (name : String) (h : ¬fail → (Choices.ofRoot set i.dst t).cheapest.isSome = true)
    (s : Selection) :
    Ends fail (bestCover set name i t) s fun cover s' => s' = s ∧ Chosen set i.dst t cover := by
  unfold bestCover
  split
  · next hnone =>
    refine ends_throw _ (by_contra fun hfail => ?_)
    rw [hnone] at h
    exact nomatch h hfail
  · next c a hbest =>
    have hnote : Ends fail (liftM (Traced.note name (.tile t.text a.cost.toInt c))) s fun _ s' => s' = s :=
      ends_note _ _ rfl
    exact ends_bind hnote fun _ s' hs => ends_pure ⟨hs, c, a, hbest, rfl⟩

/-- Going from one state to another, code with some labels was added, and no label is aside any more. -/
structure Wrote (s : Selection) (labels : List Int) (new : List Instr) (s' : Selection) : Prop where
  code : s'.code = s.code ++ new
  labels : labelsOf s'.out.toList = labelsOf s.out.toList ++ labels

theorem exists_flush (s : Selection) :
    ∃ s' label, flushLabel.run s = ((), s') ∧ s'.code = s.code ++ label ∧ labelsOf s'.out.toList = s.labels ∧
      s'.label = 0 ∧ s'.vregCount = s.vregCount ∧ ∀ j ∈ label, j = .target 0 := by
  have hrun : flushLabel.run s =
      (if s.label != 0 then do
        append (.target s.label)
        modify fun s => { s with label := 0 }
      else pure () : Emit Unit).run s := rfl
  rw [hrun]
  by_cases h : s.label = 0
  · rw [if_neg (by simp [h])]
    refine ⟨s, [], rfl, by simp, ?_, h, rfl, by simp⟩
    rw [labels, labelsOf_append, labelsOf_of_zero h, List.append_nil]
  · rw [if_pos (by simp [h])]
    refine ⟨_, [.target 0], rfl, ?_, ?_, rfl, rfl, by simp⟩
    · simp [code, Instr.unlabelled, Instr.target]
    · simp only [Array.toList_push, labels]

/-- What is wanted of a state after a tree. -/
def WroteTree (set : RuleSet) (rounds : Nat) (i : Instr) (t : Tree) (s s' : Selection) : Prop :=
  s'.label = 0 ∧ ∃ new, Wrote s (labelsOf [i]) new s' ∧ TreeCode set rounds i t s.vregCount new s'.vregCount

/-- The label of the tree is aside when its code begins. -/
theorem Grows.wrote {label : List Instr} (h : Grows { s with label := i.label } new s')
    (hcode : s''.code = s'.code ++ label) (hlabels : labelsOf s''.out.toList = s'.labels) :
    Wrote s (labelsOf [i]) (new ++ label) s'' :=
  ⟨by rw [hcode, h.code, List.append_assoc]; rfl, by rw [hlabels, h.labels]; exact labelsOf_append _ _⟩

theorem ends_direct (fail : Prop) (rounds : Nat) {left right : Cover} {o₁ o₂ : Option Operand} {s₂ : Selection}
    {code₁ code₂ : List Instr} (hchosen : Chosen set i.dst t (.node r type left right))
    (h₁ : Reduced left s.vregCount code₁ o₁ n₁) (h₂ : Reduced right n₁ code₂ o₂ s₂.vregCount)
    (hgrows : Grows { s with label := i.label } (code₁ ++ code₂) s₂)
    (hover : rounds ≠ 0 → overwrites r i.dst o₁ .src1 = false ∧ overwrites r i.dst o₂ .src2 = false) :
    Ends fail (do
      liftM (apply r i.dst o₁ o₂ type)
      liftM flushLabel) s₂ fun _ s' => WroteTree set rounds i t s s' := by
  obtain ⟨s₃, new, hrun, hgrows₃, -, h⟩ := exists_apply r i.dst o₁ o₂ type s₂
  obtain ⟨s', label, hflush, hcode, hlabels, hzero, hcount, hlabel⟩ := exists_flush s₃
  refine ends_bind_lift hrun (ends_lift hflush ⟨hzero, _, (hgrows.trans hgrows₃).wrote hcode hlabels, ?_⟩)
  rw [hcount]
  exact .direct hchosen h₁ h₂ h hover hlabel

/-- A rule that overwrites a source has instructions. -/
theorem ops_ne_nil_of_overwrites (h : overwrites r dst src arg = true) : r.ops ≠ [] := by
  intro hops
  unfold overwrites at h
  split at h
  · rw [Bool.and_eq_true, Rule.clobbers, hops] at h
    cases h.2
  · cases h

/-- **If a tree is selected, its code is that of the cover chosen for it**, and has its label. -/
theorem ends_treeCode (name : String) (rounds : Nat) (h : ¬fail → HasCover set i.dst t) (s : Selection) :
    Ends fail (selectTree set name rounds i t) s fun _ s' => WroteTree set rounds i t s s' := by
  induction rounds generalizing i t s
  all_goals
    -- with or without rounds left, the sources are reduced first
    rw [selectTree]
    refine ends_bind (ends_bestCover name (fun hfail => (h hfail).root) s) ?_
    rintro cover s ⟨rfl, hchosen⟩
    obtain ⟨op, type, l, r, rule, a, b, rfl, rfl, -⟩ := hchosen.exists_node
    obtain ⟨o₁, s₁, new₁, hrun₁, hgrows₁, h₁⟩ := exists_reduce a { s with label := i.label }
    obtain ⟨o₂, s₂, new₂, hrun₂, hgrows₂, h₂⟩ := exists_reduce b s₁
    have hgrows := hgrows₁.trans hgrows₂
    refine ends_bind_modify _ (ends_bind_lift hrun₁ (ends_bind_lift hrun₂ ?_))
  case zero => exact ends_direct fail 0 hchosen h₁ h₂ hgrows fun hzero => absurd rfl hzero
  case succ rounds ih =>
    cases hd : i.dst with
    | none =>
      have hdirect := ends_direct fail (rounds + 1) (s := s) hchosen h₁ h₂ hgrows fun _ => by
        simp [hd, overwrites]
      rw [hd] at hdirect
      exact hdirect
    | some d =>
      show Ends fail (if _ then _ else _ : SelectM Unit) s₂ _
      by_cases hover : (overwrites rule (some d) o₁ .src1 || overwrites rule (some d) o₂ .src2) = true
      · rw [if_pos hover]
        rw [Bool.or_eq_true] at hover
        let tmp := Operand.vreg (s₂.vregCount + 1) d.type
        obtain ⟨s₃, new, hrun, hgrows₃, hzero, h₃⟩ := exists_apply rule (some tmp) o₁ o₂ type
          { s₂ with vregCount := s₂.vregCount + 1 }
        refine ends_bind_lift (run_freshReg d.type s₂) (ends_bind_lift hrun ?_)
        have hmove : ¬fail → HasCover set (some d) (.ofInstr (.ir .move d tmp none)) := fun hfail =>
          ⟨(h hfail).move d hd _, fun d' hd' => (h hfail).move d' (hd.trans hd')⟩
        refine ends_bind (ih (i := .ir .move d tmp none) hmove s₃) ?_
        rintro - s₄ ⟨hzero₄, rest, hrest, htree⟩
        obtain ⟨s', label, hflush, hcode, hlabels, hzero', hcount, hlabel⟩ := exists_flush s₄
        -- the rule has taken the label when the move out of the temporary is selected
        have hzero₃ := hzero (hover.elim ops_ne_nil_of_overwrites ops_ne_nil_of_overwrites)
        have hmoved : Grows s₃ rest s₄ := by
          refine ⟨hrest.code, ?_, fun _ => hzero₄⟩
          rw [labels, labels, labelsOf_append, labelsOf_append, hrest.labels,
            labelsOf_of_zero (i := .ir _ _ _ _) rfl, labelsOf_of_zero (i := .target s₄.label) hzero₄,
            labelsOf_of_zero (i := .target s₃.label) hzero₃, List.append_nil]
        refine ends_lift hflush ⟨hzero', _, ((hgrows.trans (hgrows₃.after rfl rfl)).trans hmoved).wrote
          hcode hlabels, ?_⟩
        rw [hcount]
        exact .through hd hchosen h₁ h₂ h₃ (by rw [hd]; exact hover) htree hlabel
      · rw [if_neg hover]
        rw [Bool.not_eq_true, Bool.or_eq_false_iff] at hover
        have hdirect := ends_direct fail (rounds + 1) (s := s) hchosen h₁ h₂ hgrows fun _ => by
          rw [hd]
          exact hover
        rw [hd] at hdirect
        exact hdirect

/-! ### Items -/

/-- The code of an item, when the registers up to `n` are taken before it and those up to `n'` after it. -/
inductive ItemCode (set : RuleSet) (fold : Bool) (item : Item) (n : Int) : List Instr → Int → Prop
  | merged (h : item.merged = true) : ItemCode set fold item n [] n
  | settled (h : item.merged = false) (hs : Item.isSettled item.instr = true) :
      ItemCode set fold item n [item.instr.unlabelled] n
  | selected (h : item.merged = false) (hs : Item.isSettled item.instr = false) {code : List Instr} {n' : Int}
      (hcode : TreeCode set 2 item.instr (prepare fold item.instr item.tree) n code n') :
      ItemCode set fold item n code n'

/-- The code of items, one after another. -/
inductive ItemsCode (set : RuleSet) (fold : Bool) : List Item → Int → List (List Instr) → Int → Prop
  | nil (n : Int) : ItemsCode set fold [] n [] n
  | cons {item : Item} {items : List Item} {n n₁ n' : Int} {code : List Instr} {pieces : List (List Instr)}
      (h : ItemCode set fold item n code n₁) (hrest : ItemsCode set fold items n₁ pieces n') :
      ItemsCode set fold (item :: items) n (code :: pieces) n'

theorem ItemCode.count (h : ItemCode set fold item n code n') : n ≤ n' := by
  cases h with
  | merged => exact Int.le_refl _
  | settled => exact Int.le_refl _
  | selected _ _ hcode => exact hcode.count

theorem ItemsCode.count (h : ItemsCode set fold items n pieces n') : n ≤ n' := by
  induction h with
  | nil => exact Int.le_refl _
  | cons h _ ih => exact Int.le_trans h.count ih

theorem ItemsCode.append {more : List Item} (h : ItemsCode set fold items n pieces n₁)
    (h' : ItemsCode set fold more n₁ pieces' n') :
    ItemsCode set fold (items ++ more) n (pieces ++ pieces') n' := by
  induction h with
  | nil => exact h'
  | cons h _ ih => exact .cons h (ih h')

theorem ItemsCode.forall₂ (h : ItemsCode set fold items n pieces n') :
    List.Forall₂ (fun item code => ∃ k k', n ≤ k ∧ k' ≤ n' ∧ ItemCode set fold item k code k') items pieces := by
  induction h with
  | nil => exact .nil
  | @cons item items n n₁ n' code pieces h hrest ih =>
    refine .cons ⟨n, n₁, Int.le_refl _, hrest.count, h⟩ (ih.imp ?_)
    rintro item code ⟨k, k', hk, hk', hcode⟩
    exact ⟨k, k', Int.le_trans h.count hk, hk', hcode⟩

/-- What the code of an item is to be made of can be had. -/
def ItemHasCover (set : RuleSet) (fold : Bool) (item : Item) : Prop :=
  item.merged = false → Item.isSettled item.instr = false →
    item.instr.op ≠ .ir .none ∧ HasCover set item.instr.dst (prepare fold item.instr item.tree)

/-- The instructions that are left once trees are merged. -/
def left (items : List Item) : List Instr := (items.filter (!·.merged)).map (·.instr)

theorem left_append (items more : List Item) : left (items ++ more) = left items ++ left more := by simp [left]

theorem ends_itemCode (name : String) (h : ¬fail → ItemHasCover set fold item) (s : Selection) :
    Ends fail (selectItem set name fold item) s fun _ s' => ∃ new, Wrote s (labelsOf (left [item])) new s' ∧
      ItemCode set fold item s.vregCount new s'.vregCount := by
  unfold selectItem
  cases hmerged : item.merged with
  | true =>
    have hleft : left [item] = [] := by simp [left, hmerged]
    rw [hleft]
    exact ends_pure ⟨[], ⟨(List.append_nil _).symm, (List.append_nil _).symm⟩, .merged hmerged⟩
  | false =>
    have hleft : left [item] = [item.instr] := by simp [left, hmerged]
    rw [hleft]
    cases hsettled : Item.isSettled item.instr with
    | true =>
      refine ends_lift rfl ⟨_, ⟨by simp [code], ?_⟩, .settled hmerged hsettled⟩
      rw [← labelsOf_append, ← Array.toList_push]
    | false =>
      by_cases hnone : (item.instr.op == .ir .none) = true
      · rw [if_pos hnone]
        have hfail : fail := by_contra fun hfail => (h hfail hmerged hsettled).1 (by simpa using hnone)
        exact ends_bind (ends_throw _ hfail) fun _ _ h => h
      · rw [if_neg hnone]
        refine (ends_treeCode name 2 (fun hfail => (h hfail hmerged hsettled).2) s).mono ?_
        rintro - s' ⟨-, new, hwrote, htree⟩
        exact ⟨new, hwrote, .selected hmerged hsettled htree⟩

/-- What is wanted of a state after items. -/
def WroteItems (set : RuleSet) (fold : Bool) (items : List Item) (s s' : Selection) : Prop :=
  ∃ pieces, Wrote s (labelsOf (left items)) pieces.flatten s' ∧
    ItemsCode set fold items s.vregCount pieces s'.vregCount

theorem WroteItems.nil (s : Selection) : WroteItems set fold [] s s :=
  ⟨[], ⟨(List.append_nil _).symm, (List.append_nil _).symm⟩, .nil _⟩

theorem WroteItems.append {more : List Item} (h : WroteItems set fold items s s')
    (h' : WroteItems set fold more s' s'') : WroteItems set fold (items ++ more) s s'' := by
  obtain ⟨pieces, hwrote, hitems⟩ := h
  obtain ⟨pieces', hwrote', hitems'⟩ := h'
  refine ⟨pieces ++ pieces', ⟨?_, ?_⟩, hitems.append hitems'⟩
  · rw [hwrote'.code, hwrote.code, List.flatten_append, List.append_assoc]
  · rw [hwrote'.labels, hwrote.labels, left_append, labelsOf_append, List.append_assoc]

theorem ends_itemsCode (name : String) (h : ¬fail → ∀ item ∈ items, ItemHasCover set fold item) (s : Selection) :
    Ends fail (items.forM (selectItem set name fold)) s fun _ s' => WroteItems set fold items s s' := by
  induction items generalizing s with
  | nil => exact ends_pure (.nil s)
  | cons item items ih =>
    refine ends_bind (ends_itemCode name (fun hfail => h hfail item (by simp)) s) ?_
    rintro - s₁ ⟨new, hwrote, hitem⟩
    refine (ih (fun hfail item' hmem => h hfail item' (by simp [hmem])) s₁).mono ?_
    rintro - s₂ hrest
    have hfirst : WroteItems set fold [item] s s₁ := ⟨[new], by simpa using hwrote, .cons hitem (.nil _)⟩
    exact hfirst.append hrest

/-- The items of a block. -/
def itemsOf (options : SelectOptions) (info : MergeInfo) (block : List Instr) : List Item :=
  if options.merge then Item.mergeBlock info block else Item.plainBlock block

theorem ends_blockCode (name : String) (index : Nat) {block : List Instr}
    (hops : ¬fail → ∀ i ∈ block, i.op ≠ .ir .none)
    (h : ¬fail → ∀ item ∈ itemsOf options info block, ItemHasCover set options.fold item) (s : Selection) :
    Ends fail (selectBlock set name options info index block) s fun _ s' =>
      WroteItems set options.fold (itemsOf options info block) s s' := by
  let rest : SelectM Unit := do
    (itemsOf options info block).forM (selectItem set name options.fold)
    Traced.note name (.block index block.length ((itemsOf options info block).countP (!·.merged)))
  have hrest : Ends fail rest s fun _ s' => WroteItems set options.fold (itemsOf options info block) s s' :=
    ends_bind (ends_itemsCode name h s) fun _ s' h => ends_note _ _ h
  have heq : selectBlock set name options info index block =
      if options.merge && block.any (·.op == .ir .none) then throw (.fault .noOperation) >>= fun _ => rest
      else rest := rfl
  rw [heq]
  split
  · next hany =>
    refine ends_bind (ends_throw _ (by_contra fun hfail => ?_)) fun _ _ h => h
    obtain ⟨i, hi, hnone⟩ := List.any_eq_true.mp (Bool.and_eq_true_iff.mp hany).2
    exact hops hfail i hi (by simpa using hnone)
  · exact hrest

theorem ends_blocksCode (name : String) (index : Nat) {blocks : List (List Instr)}
    (hops : ¬fail → ∀ i ∈ blocks.flatten, i.op ≠ .ir .none)
    (h : ¬fail → ∀ item ∈ blocks.flatMap (itemsOf options info), ItemHasCover set options.fold item) (s : Selection) :
    Ends fail (selectBlocks set name options info index blocks) s fun _ s' =>
      WroteItems set options.fold (blocks.flatMap (itemsOf options info)) s s' := by
  induction blocks generalizing index s with
  | nil => exact ends_pure (.nil s)
  | cons block blocks ih =>
    simp only [List.flatten_cons, List.flatMap_cons, List.forall_mem_append] at hops h
    refine ends_bind (ends_blockCode name index (fun hfail => (hops hfail).1) (fun hfail => (h hfail).1) s) ?_
    rintro - s₁ hfirst
    exact (ih (index + 1) (fun hfail => (hops hfail).2) (fun hfail => (h hfail).2) s₁).mono
      fun _ _ hrest => hfirst.append hrest

/-! ### What the code of an item writes -/

/-- A cover chosen for a move from a temporary to the destination. -/
def Settles (set : RuleSet) (dst : Option Operand) (cover : Cover) : Prop :=
  ∃ d v, dst = some d ∧ Chosen set (some d) (.ofInstr (.ir .move d (Operand.vreg v d.type) none)) cover

/-- The code for a tree: the rules of its cover, and of moves if the result goes through a temporary.
It writes the destination, what the rules fix, and registers after the first `n`. -/
structure Emitted (set : RuleSet) (n : Int) (i : Instr) (t : Tree) (cover : Cover) (moves : List Cover)
    (new : List Instr) : Prop extends Adds i.dst ((cover :: moves).flatMap Cover.rules) n new where
  chosen : Chosen set i.dst t cover
  settles : ∀ c ∈ moves, Settles set i.dst c
  delivers : t.stores = false → ∀ v, i.dst.bind (·.vregId?) = some v → v ≠ 0 →
    ∃ j ∈ new, j.defined? = some v

theorem isRegister_of_mem_ofRegister {t : Ty} (h : c ∈ OpClass.ofRegister t) : c.isRegister = true := by
  unfold OpClass.ofRegister at h
  split at h <;> simp only [List.mem_cons, List.not_mem_nil, or_false] at h
  · rw [h]; rfl
  · rcases h with rfl | rfl
    · unfold OpClass.pointerTo; split <;> rfl
    · rfl
  · rcases h with rfl | rfl <;> rfl
  · rw [h]; rfl
  · rw [h]; rfl

/-- A rule that may write a register has a register class. -/
theorem isRegister_of_writes (h : Choices.writes dst c = true) (hv : dst.bind (·.vregId?) = some v) :
    c.isRegister = true := by
  cases dst with
  | none => exact nomatch hv
  | some d =>
    simp only [Choices.writes, Bool.and_eq_true] at h
    have hmem : c ∈ OpClass.ofOperand d := by simpa [OpClass.holds] using h.2
    obtain ⟨value, type, offset⟩ := d
    cases value with
    | vreg v => exact isRegister_of_mem_ofRegister hmem
    | _ => exact nomatch hv

/-- A rule that writes its destination defines the register there. -/
theorem exists_defined (hall : List.Forall₂ (Stands b n n') r.ops new) (hr : r.writesDst = true)
    (hv : b.dst.bind (·.vregId?) = some v) (hne : v ≠ 0) : ∃ j ∈ new, j.defined? = some v := by
  obtain ⟨m, hm, hdst⟩ := List.any_eq_true.mp hr
  simp only [Bool.and_eq_true, Bool.not_eq_true'] at hdst
  obtain ⟨j, hj, hstands⟩ := exists_of_forall₂ hall hm
  have harg : m.dst = .dst := by
    revert hdst
    cases m.dst <;> simp [Arg.isDst]
  have hsame := hstands.dst
  rw [harg] at hsame
  refine ⟨j, hj, ?_⟩
  rw [Instr.defined?, hstands.op, hdst.2, show j.dst = b.dst from hsame, hv]
  simp [hne]

/-- **The code of a tree is emitted by the rules of its cover.** -/
theorem TreeCode.emitted (hset : set.Tidy) (h : TreeCode set rounds i t n new n') :
    ∃ cover moves, Emitted set n i t cover moves new := by
  induction h with
  | @direct rounds i t rule type left right o₁ o₂ n n₁ n₂ n' code₁ code₂ code label hchosen h₁ h₂ h _ hlabel =>
    obtain ⟨op, _, l, r, _, a, b, rfl, heq, hrule, hwrites, ha, hb⟩ := hchosen.exists_node
    cases heq
    obtain ⟨hmem, hop⟩ := List.mem_filter.mp hrule
    rw [Bool.and_eq_true, beq_iff_eq, Bool.not_eq_true'] at hop
    have hadds := ((h₁.adds hset ha).1.append (h₂.adds hset hb).1 h₁.count).of_none.append
      (h.adds (hset.spares rule hmem) (hset.solid rule hmem)) (Int.le_trans h₁.count h₂.count)
    refine ⟨_, [], ⟨by simpa [Cover.rules] using hadds.label hlabel, hchosen, by simp, fun hstores v hv hne => ?_⟩⟩
    have hdelivers := hset.delivers rule hmem hop.2 (hop.1 ▸ hstores) (isRegister_of_writes hwrites hv)
    obtain ⟨j, hj, hdef⟩ := exists_defined h.2 hdelivers hv hne
    exact ⟨j, by simp [hj], hdef⟩
  | @through rounds i t d rule type left right o₁ o₂ n n₁ n₂ n₃ n' code₁ code₂ code rest label hdst hchosen h₁ h₂ h
      hover hmove hlabel ih =>
      obtain ⟨op, _, l, r, _, a, b, rfl, heq, hrule, -, ha, hb⟩ := hchosen.exists_node
      cases heq
      obtain ⟨cover, moves, hrest⟩ := ih
      have hmem := (List.mem_filter.mp hrule).1
      have hadds := ((h₁.adds hset ha).1.append (h₂.adds hset hb).1 h₁.count).append
        (h.adds (hset.spares rule hmem) (hset.solid rule hmem)).of_fresh (Int.le_trans h₁.count h₂.count)
      have hcount : n ≤ n₃ := by
        have := h₁.count
        have := h₂.count
        have := h.1
        omega
      have hd : Adds i.dst ((cover :: moves).flatMap Cover.rules) n₃ rest := hdst ▸ hrest.toAdds
      refine ⟨_, cover :: moves, ⟨by simpa [Cover.rules] using (hadds.of_none.append hd hcount).label hlabel, hchosen,
        fun c hc => ?_, fun _ v hv hne => ?_⟩⟩
      · rcases List.mem_cons.mp hc with rfl | hc
        · exact ⟨d, _, hdst, hrest.chosen⟩
        · rw [hdst]
          exact hrest.settles c hc
      · rw [hdst] at hv
        obtain ⟨j, hj, hdef⟩ := hrest.delivers rfl v hv hne
        exact ⟨j, by simp [hj], hdef⟩

/-- The code for an item: nothing if it lives on in a later tree, the instruction itself if selection
leaves it as it is, and else the code for its tree. -/
inductive Piece (set : RuleSet) (fold : Bool) (n : Int) (item : Item) : List Instr → Prop
  | merged (h : item.merged = true) : Piece set fold n item []
  | settled (h : item.merged = false) (hs : Item.isSettled item.instr = true) :
      Piece set fold n item [item.instr.unlabelled]
  | selected (h : item.merged = false) (hs : Item.isSettled item.instr = false) {cover : Cover}
      {moves : List Cover} {new : List Instr}
      (hnew : Emitted set n item.instr (prepare fold item.instr item.tree) cover moves new) :
      Piece set fold n item new

theorem ItemCode.piece (hset : set.Tidy) (h : ItemCode set fold item n' new n'') (hn : n ≤ n') :
    Piece set fold n item new := by
  cases h with
  | merged h => exact .merged h
  | settled h hs => exact .settled h hs
  | selected h hs hcode =>
    obtain ⟨cover, moves, hnew⟩ := hcode.emitted hset
    exact .selected h hs { hnew with
      targets := fun j hj o ho => (hnew.targets j hj o ho).mono (List.Subset.refl _) hn }

end Selection

namespace Function

/-- A function whose results go to registers first. -/
def split (f : Function) : Function :=
  { f with
    code := (splitMemoryDsts f.vregCount f.code).1
    vregCount := (splitMemoryDsts f.vregCount f.code).2 }

/-- The items that a function is selected by. -/
def items (f : Function) (options : SelectOptions) : List Item :=
  f.split.blocks.flatMap (Selection.itemsOf options ⟨f.split.code, f.split.blocks, options.liveOut⟩)

variable {set : RuleSet} {f g : Function} {options : SelectOptions} {used : Array Nat}

/-- The code of a function and its labels are those of its items. -/
structure Listed (set : RuleSet) (f : Function) (options : SelectOptions) (g : Function) : Prop where
  labels : labelsOf g.code = labelsOf (Selection.left (f.items options))
  code : ∃ pieces, g.code.map Instr.unlabelled = pieces.flatten ∧
    Selection.ItemsCode set options.fold (f.items options) f.split.vregCount pieces g.vregCount

/-- **A function is selected item by item.**  Selection does not fail where there are covers. -/
theorem select_gives (f : Function) (set : RuleSet) (options : SelectOptions) (fail : Prop)
    (hops : ¬fail → ∀ i ∈ f.split.code, i.op ≠ .ir .none)
    (h : ¬fail → ∀ item ∈ f.items options, Selection.ItemHasCover set options.fold item) :
    ∃ r, Traced.Gives (f.select set options) r ∧ match r with
      | .ok p => Listed set f options p.1
      | .error _ => fail := by
  have hflat := f.split.flatten_blocks
  obtain ⟨r, hr, hpost⟩ := Selection.ends_blocksCode f.name 0 (hflat ▸ hops) h
    { vregCount := f.split.vregCount }
  cases r with
  | error e => exact ⟨.error e, Traced.gives_bind_error hr, hpost⟩
  | ok p =>
    obtain ⟨pieces, hwrote, hitems⟩ := hpost
    exact ⟨_, Traced.gives_bind hr (r := .ok _) fun events => ⟨events, rfl⟩, hwrote.labels, pieces, hwrote.code,
      hitems⟩

theorem meets_select_listed (f : Function) (set : RuleSet) (options : SelectOptions) :
    Traced.Meets (f.select set options) (fun p => Listed set f options p.1) fun _ => True := by
  obtain ⟨r, hr, hpost⟩ := select_gives f set options True
    (fun h => absurd trivial h) fun h => absurd trivial h
  refine hr.meets ?_
  cases r with
  | ok p => exact hpost
  | error e => trivial

/-- **The code of a selected function is the code of its items, one after another.** -/
theorem select_listing (h : (f.select set options).result = .ok (g, used)) :
    ∃ pieces, g.code.map Instr.unlabelled = pieces.flatten ∧
      Selection.ItemsCode set options.fold (f.items options) f.split.vregCount pieces g.vregCount :=
  ((meets_select_listed f set options).of_result h).code

/-- **The code of a selected function is what the rules for its items emit.** -/
theorem select_emits (hset : set.Tidy) (h : (f.select set options).result = .ok (g, used)) :
    ∃ pieces, g.code.map Instr.unlabelled = pieces.flatten ∧
      List.Forall₂ (Selection.Piece set options.fold f.split.vregCount) (f.items options) pieces := by
  obtain ⟨pieces, hcode, hitems⟩ := select_listing h
  refine ⟨pieces, hcode, hitems.forall₂.imp ?_⟩
  rintro item code ⟨k, k', hk, -, hitem⟩
  exact hitem.piece hset hk

end Function

end Codegen
