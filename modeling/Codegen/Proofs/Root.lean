/-
Selecting a tree of words.

A tree of words always has a cover, and the code selected for it puts the word the tree computes
where its instruction wants it.

The table has moves from registers narrower than their destination, and a small constant can be
put into one of those first.  Taken the wrong way round, as an unsigned byte where a signed word
is meant, that would change the constant.  It never happens, because the plain load of a constant
is the cheapest cover there is.
-/
import Codegen.Proofs.Emit
import Codegen.Proofs.Fold

namespace Codegen

open Machine Selection Choices RuleSet

variable {w : IntWidth} {sign : Signedness} {n : Int} {o : Operand}

/-! ### There is a cover -/

theorem exists_mem_ofOperand (ho : o.IsWord (.int w sign) n) :
    ∃ c ∈ OpClass.ofOperand o, c = .reg sign w ∨ c = .mem sign w ∨ c = .const .signed w := by
  cases ho with
  | vreg v offset => exact ⟨.reg sign w, List.mem_singleton.mpr rfl, .inl rfl⟩
  | slot index offset => exact ⟨.mem sign w, List.mem_singleton.mpr rfl, .inr (.inl rfl)⟩
  | const k offset => exact ⟨.const .signed w, (OpClass.mem_ofConstant k w sign).2, .inr (.inr rfl)⟩

variable {t l r : Tree} {d : Operand} {op : IrOp} {cover : Cover} {c : OpClass} {m k : Int} {dst : Option Operand}
  {type : Ty}

theorem isAbsent_of_isWord (h : t.IsWord (.int w sign) n) : t.isAbsent = false := by
  cases h <;> rfl

theorem compatible_reg (w : IntWidth) (sign : Signedness) :
    (OpClass.reg sign w).compatible (.int w sign) = true := by
  simp [OpClass.compatible, OpClass.isFlags, OpClass.ofRegister]

/-- The value of a tree of words can be had in a register. -/
theorem within_reg (h : t.IsWord (.int w sign) n) (hmoveless : t.moveless = true) :
    ∃ k, Within (ofTree x86 t) (.reg sign w) k := by
  induction h with
  | @leaf o ho =>
    obtain ⟨c, hc, hclass⟩ := exists_mem_ofOperand ho
    obtain ⟨k, hk⟩ : ∃ k, c.loadCost? sign w = some k := by
      rcases hclass with rfl | rfl | rfl <;> simp [OpClass.loadCost?]
    obtain ⟨r, hr, hdst, -⟩ := c.loads sign w k hk
    exact ⟨r.cost.toInt, hdst ▸ within_ofOperand hc hr⟩
  | @unary op l hop hl ih =>
    simp only [Tree.moveless, Bool.and_eq_true] at hmoveless
    obtain rfl : op = .bnot := by cases op <;> first | rfl | simp_all [IrOp.isUnaryWord]
    obtain ⟨r, hr, hdst, hsrc1, hsrc2⟩ := exists_complement sign w
    obtain ⟨k, hk⟩ := ih hmoveless.1.2
    obtain ⟨a, ha, -⟩ := hk.exists_child (isAbsent_of_isWord hl) (by simp)
    exact ⟨_, hdst ▸ Within.ofTree (within_ofRules hr
      (by rw [hdst]; exact compatible_reg w sign) (hsrc1 ▸ ha) (hsrc2 ▸ child_absent _))⟩
  | @binary op l r hop hl hr ihl ihr =>
    simp only [Tree.moveless, Bool.and_eq_true, bne_iff_ne, ne_eq] at hmoveless
    obtain ⟨rule, hrule, hdst, hsrc1, hsrc2⟩ := exists_binary hop sign w
    obtain ⟨k, hk⟩ := ihl hmoveless.1.2
    obtain ⟨k', hk'⟩ := ihr hmoveless.2
    obtain ⟨a, ha, -⟩ := hk.exists_child (isAbsent_of_isWord hl) (by simp)
    obtain ⟨b, hb, -⟩ := hk'.exists_child (isAbsent_of_isWord hr) (by simp)
    exact ⟨_, hdst ▸ Within.ofTree (within_ofRules hrule
      (by rw [hdst]; exact compatible_reg w sign) (hsrc1 ▸ ha) (hsrc2 ▸ hb))⟩

/-- The class of a place for words. -/
def placeClass (w : IntWidth) (sign : Signedness) (d : Operand) : OpClass :=
  if d.isMemory then .mem sign w else .reg sign w

theorem ofOperand_place (hd : d.IsWord (.int w sign) n) (hplace : d.isConst = false) :
    OpClass.ofOperand d = [placeClass w sign d] ∧ Lands w (placeClass w sign d) d := by
  cases hd with
  | vreg v offset => exact ⟨rfl, rfl⟩
  | slot index offset => exact ⟨rfl, rfl, index, rfl⟩
  | const k offset => simp [Operand.isConst] at hplace

theorem writes_iff (hd : d.IsWord (.int w sign) n) (hplace : d.isConst = false) (c : OpClass) :
    writes (some d) c = true ↔ c = placeClass w sign d := by
  have hne : placeClass w sign d ≠ .none := by unfold placeClass; split <;> simp
  simp only [writes, OpClass.holds, (ofOperand_place hd hplace).1, Bool.and_eq_true,
    bne_iff_ne, List.contains_cons, List.contains_nil, Bool.or_false, beq_iff_eq]
  exact ⟨fun h => h.2, fun h => ⟨h ▸ hne, h⟩⟩

/-- An operation other than a move has a cover if its result goes to a register. -/
theorem within_operation (hop : op ≠ .move)
    (h : (Tree.node (.ir op) (.int w sign) l r).IsWord (.int w sign) n) (hl : l.moveless = true)
    (hr : r.moveless = true) (hdst : writes dst (.reg sign w) = true) :
    ∃ c k, Within (ofRoot x86 dst (.node (.ir op) (.int w sign) l r)) c k := by
  cases h with
  | unary hunary hword =>
    obtain rfl : op = .bnot := by cases op <;> first | rfl | simp_all [IrOp.isUnaryWord]
    obtain ⟨rule, hrule, hclass, hsrc1, hsrc2⟩ := exists_complement sign w
    obtain ⟨k, hk⟩ := within_reg hword hl
    obtain ⟨a, ha, -⟩ := hk.exists_child (isAbsent_of_isWord hword) (by simp)
    exact ⟨_, _, within_ofRules hrule (hclass ▸ hdst) (hsrc1 ▸ ha)
      (hsrc2 ▸ child_absent _)⟩
  | binary hbinary hword hword' =>
    obtain ⟨rule, hrule, hclass, hsrc1, hsrc2⟩ := exists_binary hbinary sign w
    obtain ⟨k, hk⟩ := within_reg hword hl
    obtain ⟨k', hk'⟩ := within_reg hword' hr
    obtain ⟨a, ha, -⟩ := hk.exists_child (isAbsent_of_isWord hword) (by simp)
    obtain ⟨b, hb, -⟩ := hk'.exists_child (isAbsent_of_isWord hword') (by simp)
    exact ⟨_, _, within_ofRules hrule (hclass ▸ hdst) (hsrc1 ▸ ha) (hsrc2 ▸ hb)⟩

theorem within_move (hk : Within (ofTree x86 l) (.reg sign w) k) (habsent : l.isAbsent = false)
    (hd : d.IsWord (.int w sign) n) (hplace : d.isConst = false) :
    ∃ c k, Within (ofRoot x86 (some d)
      (.node (.ir .move) (.int w sign) l .absent)) c k := by
  obtain ⟨rule, hrule, hclass, hsrc1, hsrc2⟩ : ∃ r ∈ x86.forOp (.ir .move),
      r.dst = placeClass w sign d ∧ r.src1 = .reg sign w ∧ r.src2 = .none := by
    obtain ⟨hreg, hmem⟩ := exists_move sign w w (Nat.le_refl _)
    unfold placeClass
    split
    · exact hmem
    · exact hreg
  obtain ⟨a, ha, -⟩ := hk.exists_child habsent (by simp)
  exact ⟨_, _, within_ofRules hrule ((writes_iff hd hplace _).mpr hclass) (hsrc1 ▸ ha)
    (hsrc2 ▸ child_absent _)⟩

/-- A move of a constant to a register costs no more than one instruction. -/
theorem within_constant (k : Int64) (offset : Int64) (hdst : writes (some d) (.reg sign w) = true) :
    Within (ofRoot x86 (some d)
      (.node (.ir .move) (.int w sign) (.leaf ⟨.const k, .int w sign, offset⟩) .absent))
      (.reg sign w) 1 := by
  let o : Operand := ⟨.const k, .int w sign, offset⟩
  obtain ⟨⟨r, hr, hrdst, hrcost⟩, rule, hrule, hclass, hsrc1, hsrc2, hcost⟩ := exists_constant sign w
  have hleaf : Within (ofOperand x86 o) r.dst r.cost.toInt :=
    within_ofOperand ((OpClass.mem_ofConstant k w sign).2) hr
  rw [hrdst, hrcost, Int64.toInt_zero] at hleaf
  obtain ⟨a, ha, hacost⟩ := hleaf.exists_child (t := .leaf o) rfl (by simp)
  have hwithin : Within (ofRoot x86 (some d)
      (.node (.ir .move) (.int w sign) (.leaf o) .absent)) rule.dst
      (rule.cost + a.cost + (⟨0, 0, .absent⟩ : Choice).cost).toInt :=
    within_ofRules hrule (hclass ▸ hdst) (hsrc1 ▸ ha) (hsrc2 ▸ child_absent _)
  have hsmall : (Tree.node (.ir .move) (.int w sign) (.leaf o) .absent).Small := by
    show 1 + 1 + 0 < 2 ^ 55
    decide
  rw [toInt_cost_ofRule hsmall (covers_of_child covers_of_mem_ofTree ha).2 (covers_absent x86)
    (List.mem_filter.mp hrule).1, hclass, hcost] at hwithin
  refine hwithin.mono ?_
  show 1 + a.cost.toInt + 0 ≤ 1
  omega

/-! ### The cover is right -/

/-- No cover of a tree of words, constants apart, leaves its value in a class that does not hold it
and that a move takes. -/
theorem misses_of_tiles (h : Tiles x86 t c cover) (ht : t.IsWord (.int w sign) n)
    (hconst : t.constant? = none) : misses w c = false := by
  have hself : misses w (.reg sign w) = false := by simp [misses]
  cases h with
  | absent => cases ht
  | leaf hclass hr =>
    cases ht with
    | leaf ho =>
      cases ho with
      | vreg v offset => exact misses_of_leavesFrom hr (.inl (List.mem_singleton.mp hclass))
      | slot index offset => exact misses_of_leavesFrom hr (.inr (List.mem_singleton.mp hclass))
      | const k offset => simp [Tree.constant?] at hconst
  | @node op type l r rule a b hrule hdst =>
    obtain rfl : type = .int w sign := ht.type_eq
    cases hflags : rule.dst.isFlags with
    | false => rw [eq_reg_of_compatible hflags hdst]; exact hself
    | true => cases hc : rule.dst <;> simp_all [OpClass.isFlags, misses]
  | @chain op type l r rule first a b hinner hreg hrule =>
    obtain rfl : type = .int w sign := ht.type_eq
    exact misses_of_leavesFrom hrule
      (.inl (eq_reg_of_compatible (OpClass.isFlags_of_isRegister hreg) hinner.compatible))

/-- A constant is covered for nothing only by itself. -/
theorem carries_of_free {k : Int64} (ho : o.value = .const k) (h : Tiles x86 (.leaf o) c cover)
    (hcost : cover.cost ≤ 0) : carries w c = true := by
  cases h with
  | @leaf _ c r hclass hr =>
    obtain ⟨s, w', rfl⟩ : ∃ s w', c = .const s w' := by
      simp only [OpClass.ofOperand, ho, OpClass.ofConstant, List.mem_append, List.mem_map] at hclass
      rcases hclass with ⟨w', -, h⟩ | ⟨w', -, h⟩
      · exact ⟨_, _, h.symm⟩
      · exact ⟨_, _, h.symm⟩
    rcases const_of_leavesFrom hr with h | h
    · rw [h]
      rfl
    · have hcost' : r.cost.toInt ≤ 0 := hcost
      omega

/-- A cover of a whole tree by rules that are right about words. -/
inductive RootCover (w : IntWidth) (sign : Signedness) (n : Int) (d : Operand) : Tree → Cover → Prop
  | unary {op : IrOp} {l : Tree} {rule : Rule} {a : Cover}
      (hdst : rule.dst = placeClass w sign d) (hrule : Transforms w op rule.toPattern)
      (hsrc : carries w rule.src1 = true) (hsingle : op = .move → rule.ops.length = 1)
      (hl : l.IsWord (.int w sign) n) (hmoveless : l.moveless = true) (ha : Tiles x86 l rule.src1 a) :
      RootCover w sign n d (.node (.ir op) (.int w sign) l .absent) (.node rule (.int w sign) a .absent)
  | binary {op : IrOp} {l r : Tree} {rule : Rule} {a b : Cover} (hop : op ≠ .move)
      (hdst : rule.dst = placeClass w sign d) (hrule : Combines w op rule.toPattern)
      (hl : l.IsWord (.int w sign) n) (hr : r.IsWord (.int w sign) n)
      (hlmoveless : l.moveless = true) (hrmoveless : r.moveless = true)
      (ha : Tiles x86 l rule.src1 a) (hb : Tiles x86 r rule.src2 b) :
      RootCover w sign n d (.node (.ir op) (.int w sign) l r) (.node rule (.int w sign) a b)

/-- The cheapest cover of an operation other than a move. -/
theorem exists_operation (hop : op ≠ .move)
    (h : (Tree.node (.ir op) (.int w sign) l r).IsWord (.int w sign) n) (hl : l.moveless = true)
    (hr : r.moveless = true) (hd : d.IsWord (.int w sign) n) (hplace : d.isConst = false)
    (hreg : d.isMemory = false) :
    ∃ c a, (ofRoot x86 (some d) (.node (.ir op) (.int w sign) l r)).cheapest =
      some (c, a) ∧ RootCover w sign n d (.node (.ir op) (.int w sign) l r) a.cover := by
  have hclass : placeClass w sign d = .reg sign w := by simp [placeClass, hreg]
  obtain ⟨c, k, hwithin⟩ := within_operation hop h hl hr ((writes_iff hd hplace _).mpr hclass.symm)
  obtain ⟨e, hcheapest, hmem, -⟩ := exists_cheapest hwithin
  obtain ⟨rule, hrule, hdst, a, b, ha, hb, rfl⟩ := exists_of_mem_ofRoot hmem
  have hdst := (writes_iff hd hplace _).mp hdst
  refine ⟨_, _, hcheapest, ?_⟩
  cases h with
  | unary hunary hword =>
    obtain rfl : op = .bnot := by cases op <;> first | rfl | simp_all [IrOp.isUnaryWord]
    obtain ⟨htransforms, hsrc⟩ := transforms_of_forOp hrule (hdst.trans hclass)
    rw [ofRule, hb.tiles.eq_absent.2]
    exact .unary hdst htransforms hsrc (by simp) hword hl ha.tiles
  | binary hbinary hword hword' =>
    exact .binary hop hdst (combines_of_forOp hbinary hrule (hdst.trans hclass)) hword hword' hl hr ha.tiles hb.tiles

/-- The cheapest cover of a move. -/
theorem exists_move_cover (hword : l.IsWord (.int w sign) n) (hl : l.moveless = true)
    (hd : d.IsWord (.int w sign) n) (hplace : d.isConst = false) :
    ∃ c a, (ofRoot x86 (some d) (.node (.ir .move) (.int w sign) l .absent)).cheapest =
      some (c, a) ∧ RootCover w sign n d (.node (.ir .move) (.int w sign) l .absent) a.cover := by
  obtain ⟨k, hk⟩ := within_reg hword hl
  obtain ⟨c, k, hwithin⟩ := within_move hk (isAbsent_of_isWord hword) hd hplace
  obtain ⟨e, hcheapest, hmem, -⟩ := exists_cheapest hwithin
  obtain ⟨rule, hrule, hdst, a, b, ha, hb, rfl⟩ := exists_of_mem_ofRoot hmem
  have hdst := (writes_iff hd hplace _).mp hdst
  have hmoves : Moves w rule.toPattern := by
    refine moves_of_forOp (s := sign) hrule ?_
    rw [hdst]
    unfold placeClass
    split
    · exact .inr rfl
    · exact .inl rfl
  refine ⟨_, _, hcheapest, ?_⟩
  have hsrc : carries w rule.src1 = true := by
    rcases hmoves.source with h | ⟨hmiss, hreg⟩
    · exact h
    -- The rule does not carry words, so the operand is a constant on its way to a register.
    cases hconst : l.constant? with
    | none => simp [misses_of_tiles ha.tiles hword hconst] at hmiss
    | some q =>
      obtain ⟨k, offset, rfl⟩ : ∃ k offset, l = .leaf ⟨.const k, .int w sign, offset⟩ := by
        cases hword with
        | leaf ho =>
          cases ho with
          | const k offset => exact ⟨k, offset, rfl⟩
          | _ => simp [Tree.constant?] at hconst
        | _ => simp [Tree.constant?] at hconst
      have hclass : .reg sign w = placeClass w sign d := by
        rw [hdst] at hreg
        unfold placeClass at hreg ⊢
        split at hreg
        · cases hreg
        · rename_i h; rw [if_neg h]
      obtain ⟨e, hcheapest', -, hcost⟩ := exists_cheapest
        (within_constant k offset ((writes_iff hd hplace _).mpr hclass))
      obtain rfl := Option.some.inj (hcheapest'.symm.trans hcheapest)
      have hsmall : (Tree.node (.ir .move) (.int w sign) (.leaf ⟨.const k, .int w sign, offset⟩) .absent).Small := by
        show 1 + 1 + 0 < 2 ^ 55
        decide
      have hcost' : (rule.cost + a.cost + b.cost).toInt ≤ 1 := hcost
      have hone : 1 ≤ rule.cost.toInt := hmoves.cost
      rw [toInt_cost_ofRule hsmall ha hb (List.mem_filter.mp hrule).1] at hcost'
      obtain ⟨hsum, -⟩ := cost_of_covers hsmall.of_node.1 ha
      obtain ⟨-, hpos, -⟩ := cost_of_covers hsmall.of_node.2 hb
      exact carries_of_free rfl ha.tiles (by omega)
  rw [ofRule, hb.tiles.eq_absent.2]
  exact .unary hdst (hmoves.sound hsrc).1 hsrc (fun _ => (hmoves.sound hsrc).2) hword hl ha.tiles

theorem isMemory_eq_false (hmem : d.isMemory = true → (Tree.node (.ir op) type l r).isMove = true)
    (hop : op ≠ .move) : d.isMemory = false := by
  cases hd : d.isMemory with
  | false => rfl
  | true => exact absurd (hmem hd) (by simp [Tree.isMove, hop])

/-- **Every tree of words is covered by rules that are right about words.** -/
theorem exists_rootCover (h : t.IsWord (.int w sign) n) (hnode : t.isNode = true)
    (hbelow : t.movelessBelow = true) (hd : d.IsWord (.int w sign) n) (hplace : d.isConst = false)
    (hmem : d.isMemory = true → t.isMove = true) :
    ∃ c a, (ofRoot x86 (some d) t).cheapest = some (c, a) ∧
      RootCover w sign n d t a.cover := by
  cases h with
  | leaf => simp [Tree.isNode] at hnode
  | @unary op l hop hword =>
    simp only [Tree.movelessBelow, Bool.and_eq_true] at hbelow
    by_cases hmove : op = .move
    · rw [hmove]
      exact exists_move_cover hword hbelow.1 hd hplace
    · exact exists_operation hmove (.unary hop hword) hbelow.1 hbelow.2 hd hplace
        (isMemory_eq_false hmem hmove)
  | @binary op l r hop hword hword' =>
    simp only [Tree.movelessBelow, Bool.and_eq_true] at hbelow
    have hmove : op ≠ .move := by rintro rfl; simp [IrOp.isBinaryWord] at hop
    exact exists_operation hmove (.binary hop hword hword') hbelow.1 hbelow.2 hd hplace
      (isMemory_eq_false hmem hmove)

/-! ### What a selected tree does -/

namespace Machine

/-- Going from one state to another, a word was put in a place; of the registers up to a number no
other has changed. -/
structure Stores (w : IntWidth) (n : Int) (μ : State) (d : Operand) (x : BitVec w.bits) (μ' : State) :
    Prop where
  word : ∀ v, d.vregId? = some v → (μ'.regs v).setWidth w.bits = x
  regs : ∀ v, v ≤ n → d.vregId? ≠ some v → μ'.regs v = μ.regs v
  memory : μ'.memory = if d.isMemory then μ.memory.store w d.place x else μ.memory

variable {μ μ' μ₁ : Machine.State} {x : BitVec w.bits}

theorem Delivers.stores (h : Delivers w μ d x μ') (n : Int) : Stores w n μ d x μ' :=
  ⟨h.word, fun v _ hd => h.regs v hd, h.memory⟩

theorem Keeps.stores (hk : Keeps m μ μ₁) (hm : n ≤ m) (h : Stores w k μ₁ d x μ') (hn : n ≤ k) : Stores w n μ d x μ' :=
  ⟨h.word, fun v hv hd => (h.regs v (Int.le_trans hv hn) hd).trans (hk.regs v (Int.le_trans hv hm)),
    by rw [h.memory, hk.memory]⟩

end Machine

namespace Selection

/-- The operand, if there is one, is not read once the destination has been written. -/
def SparedSource (ops : List MicroOp) (d : Operand) (arg : Arg) (o : Option Operand) : Prop :=
  ∀ x, o = some x → Spared ops d arg x

/-- The operands of a rule are ready, and applying it puts the word of the tree anywhere. -/
structure Ready (w : IntWidth) (rule : Rule) (t : Tree) (n : Int) (code : List Instr) (n' : Int)
    (o₁ o₂ : Option Operand) : Prop where
  own : ∀ m ∈ rule.ops, m.isOwn = true
  known : ∀ o, o₁ = some o ∨ o₂ = some o → ∀ v, o.vregId? = some v → v ≤ n'
  count : n ≤ n'
  writes : Writes [] n code
  run : ∀ μ : State, ∃ μ₁, μ.run? code = some μ₁ ∧ Keeps n μ μ₁ ∧
    ∀ d, Lands w rule.dst d → SparedSource rule.ops d .src1 o₁ → SparedSource rule.ops d .src2 o₂ →
      ∃ μ', μ₁.run? (rule.ops.map (MicroOp.instr (some d) o₁ o₂)) = some μ' ∧
        Delivers w μ₁ d ((μ.words w).word t) μ'

variable {o₁ o₂ o : Option Operand} {rule : Rule} {left right : Cover} {n₀ n₁ n₂ n' : Int}
  {code code₁ code₂ label : List Instr} {i : Instr} {k : Nat} {arg : Arg}

theorem ready_of_rootCover (h : RootCover w sign n₀ d t (.node rule type left right)) (hn : n₀ ≤ n)
    (h₁ : Reduced left n code₁ o₁ n₁) (h₂ : Reduced right n₁ code₂ o₂ n₂) :
    rule.dst = placeClass w sign d ∧ Ready w rule t n (code₁ ++ code₂) n₂ o₁ o₂ ∧
      (t.isMove = true → rule.ops.length = 1) := by
  cases h with
  | unary hdst hrule hsrc hsingle hl hmoveless ha =>
    obtain ⟨o, rfl, hyields⟩ := yields_reduced ha hl hmoveless hsrc hn h₁
    cases h₂
    rw [List.append_nil]
    refine ⟨hdst, ⟨hrule.own, ?_, hyields.count, hyields.writes, fun μ => ?_⟩, fun hmove => ?_⟩
    · rintro x (hx | hx)
      · obtain rfl := Option.some.inj hx
        exact hyields.known
      · exact nomatch hx
    · obtain ⟨μ₁, hstep, hkeeps, hlow⟩ := hyields.run μ
      refine ⟨μ₁, hstep, hkeeps, fun d' hlands hspared _ => ?_⟩
      obtain ⟨μ', hrun', hdelivers⟩ := hrule.run μ₁ d' o hlands hyields.fits (hspared o rfl)
      rw [hlow] at hdelivers
      exact ⟨μ', hrun', hdelivers⟩
    · exact hsingle (by simpa [Tree.isMove] using hmove)
  | binary hop hdst hrule hl hr hlmoveless hrmoveless ha hb =>
    obtain ⟨o₁, rfl, hyields₁⟩ := yields_reduced ha hl hlmoveless hrule.src1 hn h₁
    obtain ⟨o₂, rfl, hyields₂⟩ :=
      yields_reduced hb hr hrmoveless hrule.src2 (Int.le_trans hn hyields₁.count) h₂
    refine ⟨hdst, ⟨hrule.own, ?_, Int.le_trans hyields₁.count hyields₂.count,
      hyields₁.writes.append hyields₂.writes hyields₁.count, fun μ => ?_⟩, fun hmove => ?_⟩
    · rintro x (hx | hx) v hv
      · obtain rfl := Option.some.inj hx
        exact Int.le_trans (hyields₁.known v hv) hyields₂.count
      · obtain rfl := Option.some.inj hx
        exact hyields₂.known v hv
    · obtain ⟨μ₂, hstep, hkeeps, hlow₁, hlow₂⟩ :=
        hyields₁.both hyields₂ (fun μ μ' hkeeps => hkeeps.word_eq hn hr) μ
      refine ⟨μ₂, hstep, hkeeps, fun d' hlands hspared₁ hspared₂ => ?_⟩
      obtain ⟨μ', hrun', hdelivers⟩ := hrule.run μ₂ d' o₁ o₂ hlands hyields₁.fits hyields₂.fits
        (hspared₁ o₁ rfl) (hspared₂ o₂ rfl)
      rw [hlow₁, hlow₂] at hdelivers
      exact ⟨μ', hrun', hdelivers⟩
    · exact absurd (by simpa [Tree.isMove] using hmove) hop

theorem sparedSource_of_overwrites (h : overwrites rule (some d) o arg = false) :
    SparedSource rule.ops d arg o := by
  rintro x rfl v hd hx
  simpa [overwrites, hd, hx, Rule.clobbers] using h

theorem overwrites_of_single (h : rule.ops.length = 1) (d o : Option Operand) (arg : Arg) :
    overwrites rule d o arg = false := by
  obtain ⟨m, hm⟩ := List.length_eq_one_iff.mp h
  have hclobbers : rule.clobbers arg = false := by simp [Rule.clobbers, hm, Rule.readsAfterWrite]
  unfold overwrites
  split
  · simp [hclobbers]
  · rfl

/-- An instruction that computes a word, with the tree it is selected from. -/
structure Wanted (w : IntWidth) (sign : Signedness) (n : Int) (i : Instr) (d : Operand) (t : Tree) :
    Prop where
  dst : i.dst = some d
  place : d.IsWord (.int w sign) n
  notConst : d.isConst = false
  isWord : t.IsWord (.int w sign) n
  isNode : t.isNode = true
  movelessBelow : t.movelessBelow = true
  isMove : d.isMemory = true → t.isMove = true

theorem rootCover_of_chosen (h : Wanted w sign n i d t) (hchosen : Chosen x86 i.dst t cover) :
    RootCover w sign n d t cover := by
  obtain ⟨c, a, hcheapest, hcover⟩ :=
    exists_rootCover h.isWord h.isNode h.movelessBelow h.place h.notConst h.isMove
  obtain ⟨c', a', hcheapest', rfl⟩ := hchosen
  rw [h.dst, hcheapest] at hcheapest'
  cases hcheapest'
  exact hcover

/-- **There is a cover for every tree of words**, also if its result goes through a register first. -/
theorem Wanted.hasCover (h : Wanted w sign n i d t) : HasCover x86 i.dst t := by
  rw [h.dst]
  obtain ⟨c, a, hcheapest, -⟩ := exists_rootCover h.isWord h.isNode h.movelessBelow h.place h.notConst h.isMove
  refine ⟨by rw [hcheapest]; rfl, fun d' hd' v => ?_⟩
  obtain rfl := Option.some.inj hd'
  obtain ⟨r, hr, hdst, -⟩ := (OpClass.reg sign w).loads sign w 0 (by simp [OpClass.loadCost?])
  have htmp : Within (ofOperand x86 (.vreg v (.int w sign))) (.reg sign w) r.cost.toInt :=
    hdst ▸ within_ofOperand (List.mem_singleton.mpr rfl) hr
  obtain ⟨c, k, hmove⟩ := within_move (l := .leaf (.vreg v (.int w sign))) htmp rfl h.place h.notConst
  obtain ⟨e, hcheapest, -⟩ := exists_cheapest hmove
  have htype : Tree.ofInstr (.ir .move d (Operand.vreg v d.type) none)
      = .node (.ir .move) (.int w sign) (.leaf (.vreg v (.int w sign))) .absent := by
    rw [h.place.type_eq]
    exact congrArg (Tree.node _ · _ _) h.place.type_eq
  rw [htype, hcheapest]
  rfl

/-- The code selected puts the word of the tree into the destination. -/
structure Realizes (w : IntWidth) (n₀ n : Int) (code : List Instr) (d : Operand) (t : Tree) : Prop where
  writes : Writes [d] n code
  run : ∀ μ : State, ∃ μ', μ.run? code = some μ' ∧ Stores w n₀ μ d ((μ.words w).word t) μ'

/-- Labels that stand alone do nothing. -/
theorem Realizes.flushed (h : Realizes w n₀ n code d t) (hlabel : ∀ j ∈ label, j = .target 0) :
    Realizes w n₀ n (code ++ label) d t := by
  have hrun : ∀ μ : State, μ.run? label = some μ := fun μ => by
    induction label with
    | nil => rfl
    | cons j label ih =>
      rw [hlabel j (by simp)]
      exact ih fun k hk => hlabel k (by simp [hk])
  refine ⟨?_, fun μ => ?_⟩
  · have hwrites : Writes [] n label := fun j hj v hv => by
      rw [hlabel j hj] at hv
      exact nomatch hv
    exact List.append_nil [d] ▸ h.writes.append hwrites (Int.le_refl n)
  · obtain ⟨μ', hstep, hstores⟩ := h.run μ
    exact ⟨μ', by rw [State.run?_append hstep, hrun], hstores⟩

/-- A tree whose rule does not read the destination after writing it. -/
theorem Ready.realizes (h : Ready w rule t n code₁ n₁ o₁ o₂) (hd : d.IsWord (.int w sign) n₀)
    (hplace : d.isConst = false) (hdst : rule.dst = placeClass w sign d) (hn : n₀ ≤ n)
    (hover : overwrites rule (some d) o₁ .src1 = false ∧ overwrites rule (some d) o₂ .src2 = false)
    (happlied : Applied rule (some d) o₁ o₂ type n₁ code n') : Realizes w n₀ n (code₁ ++ code) d t := by
  refine ⟨h.writes.append (happlied.writes h.own) h.count, fun μ => ?_⟩
  obtain ⟨μ₁, hstep, hkeeps, hdeliver⟩ := h.run μ
  obtain ⟨μ', hrun, hdelivers⟩ := hdeliver d (hdst ▸ (ofOperand_place hd hplace).2)
    (sparedSource_of_overwrites hover.1) (sparedSource_of_overwrites hover.2)
  rw [← happlied.of_own h.own, State.run?_unlabelled] at hrun
  exact ⟨μ', by rw [State.run?_append hstep, hrun], hkeeps.stores hn (hdelivers.stores n₀) (Int.le_refl n₀)⟩

theorem realizes_move (h : Wanted w sign n₀ i d t) (hmove : t.isMove = true) (hn : n₀ ≤ n)
    (hcode : TreeCode x86 (k + 1) i t n code n') : Realizes w n₀ n code d t := by
  cases hcode with
  | direct hchosen h₁ h₂ happlied hover hlabel =>
    obtain ⟨hdst, hready, -⟩ := ready_of_rootCover (rootCover_of_chosen h hchosen) hn h₁ h₂
    have hover := hover (Nat.succ_ne_zero k)
    rw [h.dst] at hover happlied
    exact (hready.realizes h.place h.notConst hdst hn hover happlied).flushed hlabel
  | through _ hchosen h₁ h₂ _ hover =>
    obtain ⟨-, -, hsingle⟩ := ready_of_rootCover (rootCover_of_chosen h hchosen) hn h₁ h₂
    simp [overwrites_of_single (hsingle hmove)] at hover

/-- A register is only overwritten as a destination. -/
theorem exists_vregId?_of_overwrites
    (h : overwrites rule (some d) o₁ .src1 = true ∨ overwrites rule (some d) o₂ .src2 = true) :
    ∃ v, d.vregId? = some v ∧ d.isMemory = false := by
  cases hd : d.vregId? with
  | none => simp [overwrites, hd] at h
  | some v => exact ⟨v, rfl, (isPlace_of_vregId? (by simp [hd])).2.2⟩

theorem wanted_move (hd : d.IsWord (.int w sign) n) (hplace : d.isConst = false) (hm : n ≤ m) (hpos : 0 ≤ m) :
    Wanted w sign (m + 1) (.ir .move d (Operand.vreg (m + 1) d.type) none) d
      (.ofInstr (.ir .move d (Operand.vreg (m + 1) d.type) none)) := by
  have hd' := hd.mono (show n ≤ m + 1 by omega)
  have htmp : (Operand.vreg (m + 1) d.type).IsWord (.int w sign) (m + 1) := by
    rw [hd.type_eq]
    exact .vreg { id := m + 1 } 0 (show 0 < m + 1 by omega) (Int.le_refl _)
  exact ⟨rfl, hd', hplace, Tree.isWord_ofInstr (.unary 0 .empty rfl hd' hplace htmp), rfl, rfl,
    fun _ => rfl⟩

/-- **The code of a tree of words computes it.** -/
theorem realizes_treeCode (h : Wanted w sign n₀ i d t) (hn : n₀ ≤ n)
    (hcode : TreeCode x86 (k + 2) i t n code n') : Realizes w n₀ n code d t := by
  cases hcode with
  | direct hchosen h₁ h₂ happlied hover hlabel =>
    obtain ⟨hdst, hready, -⟩ := ready_of_rootCover (rootCover_of_chosen h hchosen) hn h₁ h₂
    have hover := hover (Nat.succ_ne_zero _)
    rw [h.dst] at hover happlied
    exact (hready.realizes h.place h.notConst hdst hn hover happlied).flushed hlabel
  | @through _ _ _ d' rule type left right o₁ o₂ _ n₁ n₂ n₃ _ code₁ code₂ code rest label hd hchosen h₁ h₂ happlied
      hover hmove hlabel =>
      -- the result goes through a register that is none of the sources, and is moved from there
      obtain rfl := Option.some.inj (hd.symm.trans h.dst)
      rw [hd] at hover
      obtain ⟨v, hv, hmem⟩ := exists_vregId?_of_overwrites hover
      obtain ⟨hdst, hready, -⟩ := ready_of_rootCover (rootCover_of_chosen h hchosen) hn h₁ h₂
      have hclass : rule.dst = .reg sign w := by simpa [placeClass, hmem] using hdst
      have hcount := hready.count
      have hbounds := h.place.bounds hv
      have hcount₃ := happlied.1
      have hmoved := realizes_move (wanted_move h.place h.notConst (Int.le_trans hn hcount) (by omega)) rfl
        hcount₃ hmove
      refine Realizes.flushed ⟨?_, fun μ => ?_⟩ hlabel
      · exact (hready.writes.append (happlied.writes hready.own).of_fresh hcount).append hmoved.writes (by omega)
      · obtain ⟨μ₁, hstep, hkeeps, hdeliver⟩ := hready.run μ
        obtain ⟨μ₂, hrun, hdelivers⟩ := hdeliver (.vreg (n₂ + 1) d'.type) (by rw [hclass]; rfl)
          (fun o ho => spared_fresh (hready.known o (.inl ho)) _ _)
          (fun o ho => spared_fresh (hready.known o (.inr ho)) _ _)
        rw [← happlied.of_own hready.own, State.run?_unlabelled] at hrun
        obtain ⟨μ₃, hrun', hstores⟩ := hmoved.run μ₂
        have hword : (μ₂.words w).word (.ofInstr (.ir .move d' (Operand.vreg (n₂ + 1) d'.type) none))
            = (μ.words w).word t := hdelivers.word _ rfl
        rw [hword] at hstores
        refine ⟨μ₃, by rw [State.run?_append (by rw [State.run?_append hstep, hrun]), hrun'], ?_⟩
        exact (hkeeps.trans (hdelivers.keeps rfl (Int.lt_add_one_of_le hcount))).stores hn hstores (by omega)

end Selection

end Codegen
