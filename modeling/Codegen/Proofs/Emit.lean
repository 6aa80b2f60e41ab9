/-
Emitting covers of words.

The code emitted for a cover below the root computes the word its tree stands for into an operand
of the class the cover says.  On the way it writes only fresh registers, so it disturbs neither
memory nor what is in the registers already handed out.

Labels say nothing about what code does, and are left out here.
-/
import Codegen.Proofs.Emission
import Codegen.Proofs.Table

namespace Codegen

variable {d : Operand} {t : Ty}

namespace Machine

theorem State.run?_unlabelled (μ : State) (code : List Instr) :
    μ.run? (code.map Instr.unlabelled) = μ.run? code := by
  induction code generalizing μ with
  | nil => rfl
  | cons i rest ih =>
    have hstep : μ.step? i.unlabelled = μ.step? i := rfl
    simp only [State.run?, List.map_cons, List.foldlM_cons, hstep]
    cases μ.step? i with
    | none => rfl
    | some μ' => exact ih μ'

/-! ### What emitted code leaves alone -/

/-- Memory and the registers up to a number are as before. -/
structure Keeps (n : Int) (μ μ' : State) : Prop where
  memory : μ'.memory = μ.memory
  regs : ∀ v, v ≤ n → μ'.regs v = μ.regs v

variable {o : Operand}

namespace Keeps

variable {n m : Int} {μ μ' μ'' : State}

theorem refl (n : Int) (μ : State) : Keeps n μ μ := ⟨rfl, fun _ _ => rfl⟩

theorem mono (h : Keeps n μ μ') (hm : m ≤ n) : Keeps m μ μ' :=
  ⟨h.memory, fun v hv => h.regs v (Int.le_trans hv hm)⟩

theorem trans (h : Keeps n μ μ') (h' : Keeps n μ' μ'') : Keeps n μ μ'' :=
  ⟨h'.memory.trans h.memory, fun v hv => (h'.regs v hv).trans (h.regs v hv)⟩

theorem low_eq (h : Keeps n μ μ') (ho : ∀ v, o.vregId? = some v → v ≤ n) (w : IntWidth) :
    μ'.low w o = μ.low w o := by
  unfold State.low
  cases hv : o.value with
  | vreg v => simp only; rw [h.regs v.id (ho v.id (by simp [Operand.vregId?, hv]))]
  | slot index => simp only; rw [h.memory]
  | _ => rfl

end Keeps

variable {n v m : Int} {w : IntWidth} {μ μ' : Machine.State} {tree : Tree}

theorem Delivers.keeps {x : BitVec w.bits}
    (h : Delivers w μ d x μ') (hd : d.vregId? = some v) (hv : n < v) : Keeps n μ μ' := by
  have hmem := h.memory
  rw [(isPlace_of_vregId? (by simp [hd])).2.2] at hmem
  refine ⟨by simpa using hmem, fun u hu => h.regs u ?_⟩
  rw [hd]
  intro heq
  have : v = u := Option.some.inj heq
  omega

/-- The words the machine holds. -/
def State.words (μ : State) (w : IntWidth) : (Meaning.words w).State where
  regs v := (μ.regs v).setWidth w.bits
  memory := μ.memory

theorem State.low_eq_operand (μ : State) (ho : o.IsWord t n) : μ.low w o = (μ.words w).operand o := by
  cases ho <;> rfl

/-- Words that only such registers and memory hold are kept. -/
theorem Keeps.word_eq (h : Keeps m μ μ') (hm : n ≤ m) (ht : tree.IsWord t n) :
    (μ'.words w).word tree = (μ.words w).word tree :=
  Meaning.State.AgreeUpTo.word ⟨h.memory, fun v _ hv =>
    congrArg (BitVec.setWidth w.bits) (h.regs v (Int.le_trans hv hm))⟩ ht

end Machine

/-! ### Emitting -/

namespace Selection

/-- The code writes some destinations, and registers after the first `n`. -/
def Writes (dsts : List Operand) (n : Int) (code : List Instr) : Prop :=
  ∀ i ∈ code, ∀ v, i.defined? = some v → (∃ d ∈ dsts, d.vregId? = some v) ∨ n < v

section

variable {dsts dsts' : List Operand} {n n' : Int} {code more : List Instr}

theorem Writes.nil (n : Int) : Writes [] n [] := fun _ hi => nomatch hi

theorem Writes.append (h : Writes dsts n code) (h' : Writes dsts' n' more) (hn : n ≤ n') :
    Writes (dsts ++ dsts') n (code ++ more) := by
  intro i hi v hv
  rcases List.mem_append.mp hi with hi | hi
  · refine (h i hi v hv).imp_left ?_
    rintro ⟨d, hd, hdv⟩
    exact ⟨d, List.mem_append_left _ hd, hdv⟩
  · refine (h' i hi v hv).imp ?_ (Int.lt_of_le_of_lt hn)
    rintro ⟨d, hd, hdv⟩
    exact ⟨d, List.mem_append_right _ hd, hdv⟩

theorem Writes.of_fresh (h : Writes [.vreg (n + 1) t] (n + 1) code) : Writes [] n code := by
  refine fun i hi v hv => .inr ?_
  rcases h i hi v hv with ⟨d, hd, hdv⟩ | hlt
  · rw [List.mem_singleton.mp hd] at hdv
    have : n + 1 = v := Option.some.inj hdv
    omega
  · omega

end

variable {r : Rule} {sign : Signedness} {o : Operand} {c : OpClass} {code : List Instr} {n n₁ n' : Int}
  {dst src1 src2 : Option Operand} {type : Ty} {b : Selection.Binding} {a : Arg}

theorem Means.eq_among {o : Option Operand} (h : Means b n n' a o) (ha : a.isOwn = true) :
    o = a.among b.dst b.src1 b.src2 := by
  cases a <;> first | exact h | simp [Arg.isOwn] at ha

/-- A rule that names its own operands only emits its instructions as they stand. -/
theorem Applied.of_own (h : Applied r dst src1 src2 type n code n') (hown : ∀ m ∈ r.ops, m.isOwn = true) :
    code.map Instr.unlabelled = r.ops.map (MicroOp.instr dst src1 src2) := by
  obtain ⟨-, hall⟩ := h
  generalize r.ops = ops at hall hown
  induction hall with
  | nil => rfl
  | @cons m i ops code hstands _ ih =>
    have hm := hown m (by simp)
    simp only [MicroOp.isOwn, Bool.and_eq_true, beq_iff_eq] at hm
    have hi : i.unlabelled = m.instr dst src1 src2 := by
      rw [Instr.unlabelled, hstands.op, hstands.template, hstands.dst.eq_among (by rw [hm.1.1]; rfl),
        hstands.src1.eq_among hm.1.2, hstands.src2.eq_among hm.2]
      rfl
    rw [List.map_cons, List.map_cons, hi, ih fun m' hm' => hown m' (by simp [hm'])]

theorem Applied.writes (h : Applied r (some d) src1 src2 type n code n') (hown : ∀ m ∈ r.ops, m.isOwn = true) :
    Writes [d] n code := by
  intro i hi v hv
  have hmem : i.unlabelled ∈ r.ops.map (MicroOp.instr (some d) src1 src2) :=
    h.of_own hown ▸ List.mem_map_of_mem hi
  obtain ⟨m, hm, heq⟩ := List.mem_map.mp hmem
  have hm := hown m hm
  simp only [MicroOp.isOwn, Bool.and_eq_true, beq_iff_eq] at hm
  have hdst : i.dst = some d := by
    rw [show i.dst = i.unlabelled.dst from rfl, ← heq, MicroOp.instr, hm.1.1]
    rfl
  exact .inl ⟨d, List.mem_singleton_self d, by simpa [hdst] using Instr.dst_of_defined? hv⟩

open Machine

variable {w w' : IntWidth} {o' o₁ o₂ : Operand} {c₁ c₂ c' : OpClass} {n₂ n₀ : Int} {code₁ code₂ : List Instr}
  {cover : Cover} {res : Option Operand} {word : Machine.State → BitVec w.bits}

/-- From any state of the machine, code emitted when the registers up to `n` are taken puts a word into an
operand, one of the registers up to `n'` if it is one, and keeps the registers up to `n`. -/
structure Yields (w : IntWidth) (n : Int) (code : List Instr) (n' : Int) (c : OpClass) (o : Operand)
    (word : State → BitVec w.bits) : Prop where
  fits : Fits w c o
  known : ∀ v, o.vregId? = some v → v ≤ n'
  count : n ≤ n'
  writes : Writes [] n code
  run : ∀ μ, ∃ μ', μ.run? code = some μ' ∧ Keeps n μ μ' ∧ μ'.low w o = word μ

theorem yields_fresh (hdst : r.dst = .reg sign w') (hcarries : carries w r.dst = true)
    (hown : ∀ m ∈ r.ops, m.isOwn = true) (h : Applied r (some (.vreg (n + 1) t)) src1 src2 type (n + 1) code n')
    (hrun : ∀ μ, ∃ μ', μ.run? (r.ops.map (MicroOp.instr (some (.vreg (n + 1) t)) src1 src2)) = some μ' ∧
      Delivers w μ (.vreg (n + 1) t) (word μ) μ') : Yields w n code n' r.dst (.vreg (n + 1) t) word := by
  have hcount := h.1
  refine ⟨?_, ?_, by omega, (h.writes hown).of_fresh, fun μ => ?_⟩
  · rw [hdst] at hcarries ⊢
    exact ⟨of_decide_eq_true hcarries, rfl⟩
  · intro v hv
    have : n + 1 = v := Option.some.inj hv
    omega
  · obtain ⟨μ', hstep, hdelivers⟩ := hrun μ
    rw [← h.of_own hown, State.run?_unlabelled] at hstep
    exact ⟨μ', hstep, hdelivers.keeps rfl (Int.lt_succ n), hdelivers.low_self rfl⟩

/-- A register that was not handed out before is none of the operands. -/
theorem spared_fresh (hknown : ∀ v, o.vregId? = some v → v ≤ n) (ops : List MicroOp) (arg : Arg) :
    Spared ops (.vreg (n + 1) t) arg o := by
  intro v hd ho
  have hle := hknown v ho
  have : n + 1 = v := Option.some.inj hd
  omega

/-- A leaf rule that carries a word leaves it what it was. -/
theorem yields_appliedLeaf (hr : r ∈ RuleSet.x86.leavesFrom c) (hc : carries w c = true)
    (hdst : carries w r.dst = true) (ho : Fits w c o) (hknown : ∀ v, o.vregId? = some v → v ≤ n)
    (h : AppliedLeaf r o n code o' n') : Yields w n code n' r.dst o' fun μ => μ.low w o := by
  obtain rfl := (isRightLeaf_of_leavesFrom hr).2
  rcases leaf_transforms hr hc hdst with ⟨hops, hfits⟩ | ⟨hops, htransforms, sign, w', hreg⟩
  · cases h with
    | same => exact ⟨hfits o ho, hknown, Int.le_refl _, .nil n, fun μ => ⟨μ, rfl, .refl _ μ, rfl⟩⟩
    | made hne => exact absurd hops hne
  · cases h with
    | same hnil => exact absurd hnil hops
    | made _ hcode =>
      refine yields_fresh hreg hdst htransforms.own hcode fun μ => ?_
      refine htransforms.run μ _ o ?_ ho (spared_fresh hknown r.ops .src1)
      rw [hreg]
      rfl

/-! ### Reducing covers -/

/-- What an operand of words is to a rule. -/
theorem fits_of_mem_ofOperand (ho : o.IsWord (.int w sign) n) (hc : c ∈ OpClass.ofOperand o) :
    Fits w c o ∧ carries w c = true := by
  cases ho with
  | vreg v offset =>
    obtain rfl : c = .reg sign w := List.mem_singleton.mp hc
    exact ⟨⟨Nat.le_refl _, rfl⟩, carries_reg w sign⟩
  | slot index offset =>
    obtain rfl : c = .mem sign w := List.mem_singleton.mp hc
    exact ⟨⟨rfl, index, rfl⟩, carries_mem w sign⟩
  | const k offset =>
    simp only [OpClass.ofOperand, OpClass.ofConstant, OpClass.constantShape, List.mem_append,
      List.mem_map, List.mem_filter] at hc
    rcases hc with ⟨w', ⟨-, hfits⟩, rfl⟩ | ⟨w', -, rfl⟩
    · refine ⟨⟨k, rfl, ?_⟩, rfl⟩
      rintro rfl - rfl
      simpa using hfits
    · exact ⟨⟨k, rfl, by simp⟩, rfl⟩

theorem eq_reg_of_compatible (hflags : c.isFlags = false) (h : c.compatible (.int w sign) = true) :
    c = .reg sign w := by
  simpa [OpClass.compatible, hflags, OpClass.ofRegister] using h

theorem isFlags_of_carries (hc : carries w c = true) : c.isFlags = false := by
  cases c <;> first | rfl | simp [carries] at hc

theorem Yields.trans {more : List Instr} {f : BitVec w.bits → BitVec w.bits} (h : Yields w n code n₁ c o word)
    (h' : Yields w n₁ more n' c' o' fun μ => f (μ.low w o)) :
    Yields w n (code ++ more) n' c' o' fun μ => f (word μ) := by
  refine ⟨h'.fits, h'.known, Int.le_trans h.count h'.count, h.writes.append h'.writes h.count, fun μ => ?_⟩
  obtain ⟨μ₁, hstep, hkeeps, hlow⟩ := h.run μ
  obtain ⟨μ₂, hstep', hkeeps', hlow'⟩ := h'.run μ₁
  rw [hlow] at hlow'
  exact ⟨μ₂, by rw [State.run?_append hstep, hstep'], hkeeps.trans (hkeeps'.mono h.count), hlow'⟩

/-- Code for two operands, the first of which is not disturbed by the second. -/
theorem Yields.both {word₁ word₂ : Machine.State → BitVec w.bits}
    (h₁ : Yields w n code₁ n₁ c₁ o₁ word₁) (h₂ : Yields w n₁ code₂ n₂ c₂ o₂ word₂)
    (hkept : ∀ μ μ', Keeps n μ μ' → word₂ μ' = word₂ μ) (μ : State) :
    ∃ μ', μ.run? (code₁ ++ code₂) = some μ' ∧ Keeps n μ μ' ∧ μ'.low w o₁ = word₁ μ ∧ μ'.low w o₂ = word₂ μ := by
  obtain ⟨μ₁, hstep₁, hkeeps₁, hlow₁⟩ := h₁.run μ
  obtain ⟨μ₂, hstep₂, hkeeps₂, hlow₂⟩ := h₂.run μ₁
  exact ⟨μ₂, by rw [State.run?_append hstep₁, hstep₂], hkeeps₁.trans (hkeeps₂.mono h₁.count),
    (hkeeps₂.low_eq h₁.known w).trans hlow₁, hlow₂.trans (hkept μ μ₁ hkeeps₁)⟩

/-- What is made of the words of two operands. -/
theorem Yields.trans₂ {word₁ word₂ : State → BitVec w.bits} {f : BitVec w.bits → BitVec w.bits → BitVec w.bits}
    (h₁ : Yields w n code₁ n₁ c₁ o₁ word₁) (h₂ : Yields w n₁ code₂ n₂ c₂ o₂ word₂)
    (h : Yields w n₂ code n' c o fun μ => f (μ.low w o₁) (μ.low w o₂))
    (hkept : ∀ μ μ', Keeps n μ μ' → word₂ μ' = word₂ μ) :
    Yields w n (code₁ ++ code₂ ++ code) n' c o fun μ => f (word₁ μ) (word₂ μ) := by
  have hcount := Int.le_trans h₁.count h₂.count
  refine ⟨h.fits, h.known, Int.le_trans hcount h.count,
    (h₁.writes.append h₂.writes h₁.count).append h.writes hcount, fun μ => ?_⟩
  obtain ⟨μ₂, hstep₂, hkeeps₂, hlow₁, hlow₂⟩ := h₁.both h₂ hkept μ
  obtain ⟨μ₃, hstep, hkeeps, hlow⟩ := h.run μ₂
  rw [hlow₁, hlow₂] at hlow
  exact ⟨μ₃, by rw [State.run?_append hstep₂, hstep], hkeeps₂.trans (hkeeps.mono hcount), hlow⟩

theorem IrOp.eq_bnot {op : IrOp} (hop : op.isUnaryWord = true) (hmove : op ≠ .move) : op = .bnot := by
  cases op <;> simp_all [IrOp.isUnaryWord]

/-- **Code emitted for a cover computes the word of the tree.** -/
theorem yields_reduced {t : Tree} (h : Tiles RuleSet.x86 t c cover) (ht : t.IsWord (.int w sign) n₀)
    (hmoveless : t.moveless = true) (hc : carries w c = true) (hn : n₀ ≤ n)
    (hcode : Reduced cover n code res n') :
    ∃ o, res = some o ∧ Yields w n code n' c o fun μ => (μ.words w).word t := by
  induction h generalizing n code res n' with
  | absent => cases ht
  | @leaf o c r hclass hr =>
    cases ht with
    | leaf ho =>
      cases hcode with
      | leaf hleaf =>
        obtain ⟨hfits, hcarries⟩ := fits_of_mem_ofOperand ho hclass
        have hyields := yields_appliedLeaf hr hcarries hc hfits
          (fun v hv => Int.le_trans (ho.bounds hv).2 hn) hleaf
        have hlow : (fun μ : State => μ.low w o) = fun μ => (μ.words w).word (.leaf o) :=
          funext fun μ => μ.low_eq_operand ho
        exact ⟨_, rfl, hlow ▸ hyields⟩
  | @chain op type l r rule first a b hinner hreg hrule ih =>
    obtain rfl : type = .int w sign := ht.type_eq
    have hcarries : carries w first.dst = true := by
      rw [eq_reg_of_compatible (OpClass.isFlags_of_isRegister hreg) hinner.compatible]
      exact carries_reg w sign
    cases hcode with
    | chain hinner hleaf =>
      obtain ⟨o₁, ho₁, hyields⟩ := ih ht hmoveless hcarries hn hinner
      obtain rfl := Option.some.inj ho₁
      exact ⟨_, rfl, hyields.trans (f := id)
        (yields_appliedLeaf hrule hcarries hc hyields.fits hyields.known hleaf)⟩
    | chainNone hinner =>
      obtain ⟨o₁, ho₁, -⟩ := ih ht hmoveless hcarries hn hinner
      exact nomatch ho₁
  | @node op type l r rule a b hrule hdst hl hr ha hb iha ihb =>
    obtain rfl : type = .int w sign := ht.type_eq
    have hreg := eq_reg_of_compatible (isFlags_of_carries hc) hdst
    have hisreg : rule.dst.isRegister = true := by rw [hreg]; rfl
    simp only [Tree.moveless, Bool.and_eq_true, bne_iff_ne, ne_eq] at hmoveless
    cases hcode with
    | nodeNone _ _ hnone => exact nomatch hnone.symm.trans hisreg
    | node h₁ h₂ _ happlied =>
    cases ht with
    | @unary op _ hop hl =>
      obtain rfl := IrOp.eq_bnot hop fun h => hmoveless.1.1 (congrArg Opcode.ir h)
      obtain ⟨htransforms, hcarries⟩ := transforms_of_forOp hrule hreg
      obtain ⟨o₁, rfl, hyields⟩ := iha hl hmoveless.1.2 hcarries hn h₁
      obtain ⟨-, rfl⟩ := hb.eq_absent
      cases h₂
      have hyields' := yields_fresh hreg hc htransforms.own happlied fun μ => by
        refine htransforms.run μ _ o₁ ?_ hyields.fits (spared_fresh hyields.known _ _)
        rw [hreg]
        rfl
      rw [List.append_nil]
      exact ⟨_, rfl, hyields.trans (f := fun y => IrOp.word .bnot y 0) hyields'⟩
    | @binary op _ _ hop hl hr =>
      have hcombines := combines_of_forOp hop hrule hreg
      obtain ⟨o₁, rfl, hyields₁⟩ := iha hl hmoveless.1.2 hcombines.src1 hn h₁
      obtain ⟨o₂, rfl, hyields₂⟩ :=
        ihb hr hmoveless.2 hcombines.src2 (Int.le_trans hn hyields₁.count) h₂
      have hyields := yields_fresh hreg hc hcombines.own happlied fun μ => by
        refine hcombines.run μ _ o₁ o₂ ?_ hyields₁.fits hyields₂.fits
          (spared_fresh (fun v hv => Int.le_trans (hyields₁.known v hv) hyields₂.count) _ _)
          (spared_fresh hyields₂.known _ _)
        rw [hreg]
        rfl
      exact ⟨_, rfl, hyields₁.trans₂ (f := op.word) hyields₂ hyields fun μ μ' hkeeps => hkeeps.word_eq hn hr⟩

end Selection

end Codegen
