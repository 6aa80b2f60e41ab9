/-
The code of a call.

A call is lowered in one piece: the pushes, what loads the argument registers and marks them, the call
itself, what gives the stack area back and what fetches the result.  Only the pushes and the release move
the stack pointer, so the area can be argued about from the pushes alone; and only the loads write argument
registers.
-/
import Codegen.Proofs.Filling

namespace Codegen

namespace Lowering

/-! ### Instructions that stay out of the way -/

/-- The instruction neither pushes nor releases, and calls nothing. -/
def Neutral (i : Instr) : Prop :=
  i.op ≠ .ir .arg ∧ i.op ≠ .ir .argStackPadding ∧ i.op ≠ .ir .releaseStack ∧ i.op ≠ .ir .call

theorem foldl_push_neutral (env : Addresses) (value : Operand → BitVec 64) (st : BitVec 64 × Memory)
    {code : List Instr} (h : ∀ i ∈ code, Neutral i) : code.foldl (Instr.push env value) st = st := by
  induction code with
  | nil => rfl
  | cons i code ih =>
    have hi := h i (by simp)
    have hpush : i.push env value st = st := by
      unfold Instr.push
      split
      · next hop => exact absurd hop hi.2.1
      · next hop _ => exact absurd hop hi.1
      · rfl
    rw [List.foldl_cons, hpush]
    exact ih fun j hj => h j (by simp [hj])

variable {i : Instr} {o : Operand} {low : Int} {new : List Instr} {s : Lowering}

theorem neutral_of_loading (h : ∃ op ∈ loadingOps, i.op = .ir op) : Neutral i := by
  obtain ⟨op, hop, heq⟩ := h
  have hall : ∀ op ∈ loadingOps, op ≠ .arg ∧ op ≠ .argStackPadding ∧ op ≠ .releaseStack ∧ op ≠ .call := by
    decide
  simpa [Neutral, heq] using hall op hop

/-- The operand is no reserved register. -/
def Unreserved (low : Int) (o : Operand) : Prop := ∀ v, o.vregId? = some v → reserved low v = false

theorem unreserved_of_isMemory (low : Int) (ho : o.isMemory = true) : Unreserved low o := by
  intro v hv
  obtain ⟨value, type, offset⟩ := o
  cases value with
  | vreg r => exact nomatch ho
  | _ => exact nomatch hv

/-- The instruction writes no reserved register and marks none. -/
structure Tame (low : Int) (i : Instr) : Prop where
  writes : ∀ v, i.defined? = some v → reserved low v = false
  marks : i.op = .ir .callArgReg → ∀ v, i.src1.bind (·.vregId?) = some v → reserved low v = false

section tame

variable {op : IrOp} {d : Operand}

theorem tame_of_dst (hop : i.op ≠ .ir .callArgReg) (hdst : ∀ d, i.dst = some d → Unreserved low d) :
    Tame low i := by
  refine ⟨fun v hv => ?_, fun h => absurd h hop⟩
  obtain ⟨d, hd, hv⟩ := Option.bind_eq_some_iff.mp (Instr.dst_of_defined? hv)
  exact hdst d hd v hv

theorem tame_ir (hop : op ≠ .callArgReg) (hd : Unreserved low d) (a b : Option Operand) :
    Tame low (.ir op d a b) :=
  tame_of_dst (fun h => hop (Opcode.ir.inj h)) fun _ h => Option.some.inj h ▸ hd

theorem tame_silent (hop : op ≠ .callArgReg) (a b : Option Operand) : Tame low (.ir op none a b) :=
  tame_of_dst (fun h => hop (Opcode.ir.inj h)) nofun

/-- Steps that mark no argument stay out of the way. -/
theorem permissive_tame (low : Int) : Permissive low (Tame low) where
  ops op hop := by
    refine ⟨fun id t a b hid => tame_ir hop (fun v hv => ?_) a b,
      fun d a b hd => tame_ir hop (unreserved_of_isMemory low hd) a b, tame_silent hop⟩
    obtain rfl : id = v := Option.some.inj hv
    exact reserved_of_lt hid
  through d a b := by
    refine ⟨fun v hv => ?_, nofun⟩
    simp [Instr.defined?, Instr.ir, Opcode.storesThroughDst] at hv

theorem tame_target (low n : Int) : Tame low (.target n) := tame_of_dst (by simp [Instr.target]) nofun

end tame

/-! ### What the parts of a call emit -/

/-- What fetches a result stays out of the way if the destination is no reserved register. -/
theorem leaves_fetchResult (dst : Operand) :
    Leaves low (fun i => Neutral i ∧ (Unreserved low dst → Tame low i)) (fetchResult dst) := by
  have hcarrying : ∀ op ∈ carryingOps,
      Permits low (fun i => Neutral i ∧ (Unreserved low dst → Tame low i)) op := by
    intro op hop
    have hneutral : ∀ d a b, Neutral (.ir op d a b) := fun d a b =>
      neutral_of_loading ⟨op, List.mem_cons_of_mem _ hop, rfl⟩
    have htame := (permissive_tame low).carrying op hop
    exact ⟨fun id t a b hid => ⟨hneutral _ _ _, fun _ => htame.fresh id t a b hid⟩,
      fun d a b hd => ⟨hneutral _ _ _, fun _ => htame.memory d a b hd⟩,
      fun a b => ⟨hneutral _ _ _, fun _ => htame.silent a b⟩⟩
  have hmove : ∀ v : Operand, Leaves low (fun i => Neutral i ∧ (Unreserved low dst → Tame low i))
      (liftM (move dst v)) := fun v =>
    leaves_lift (emits_emit ⟨neutral_of_loading ⟨.move, by decide, rfl⟩, fun hdst => tame_ir (by decide) hdst _ _⟩)
  refine leaves_bind (leaves_require _ _) fun _ => ?_
  split
  · split
    · split
      · next hmem => exact leaves_lift (emits_storeEightbytes_of hcarrying
          ((hcarrying .move (by decide)).writable hmem) _ resultRegister)
      · exact leaves_refuse _
    · exact leaves_refuse _
  · split
    · exact leaves_refuse _
    · split
      · exact hmove _
      · exact hmove _

section

theorem loadsAmong_resultAddress (result : Ty) (address : Option Operand) :
    LoadsAmong low (liftM (loadResultAddress result address))
      (if address.isSome then [(argRegister (.int 0)).pseudo] else []) (· = address.toList.map fun a =>
        .ir .addressOf (pseudo (argRegister (.int 0)) (.pointer result)) a none) := by
  cases address with
  | none => exact loadsAmong_nothing _ rfl
  | some o => exact loadsAmong_emit (by decide) _ _ o (by simp)

theorem loadsAmong_vectorCount (variadic : Bool) (count : Nat) :
    LoadsAmong low (liftM (loadVectorCount variadic count)) [Reg.rax.pseudo] (· = if variadic then
      [.ir .move (pseudo .rax .uchar) (Operand.const (Int64.ofNat count) .uchar) none] else []) := by
  cases variadic with
  | false => exact loadsAmong_nothing _ rfl
  | true => exact loadsAmong_emit (by decide) _ _ _ (by simp)

end

/-- The marker of an argument register. -/
def marker (r : Operand) : Instr := .ir .callArgReg none r none

theorem code_emit (op : IrOp) (dst src1 src2 : Option Operand) (s : Lowering) :
    ((emit op dst src1 src2).run s).2.code = s.code ++ [.ir op dst src1 src2] := Array.toList_push

theorem WritesJust.yields {b : Build Unit} (h : WritesJust b new) (s : Lowering) :
    Yields (liftM b) s (fun _ s' => Written (fun _ => True) s s' ∧ s'.code = s.code ++ new) fun _ => True := by
  refine yields_lift ?_
  rw [h.run]
  refine ⟨⟨rfl, rfl, rfl, Int.le_refl _, new, by simp [code], fun _ _ => trivial, ?_⟩, by simp [code]⟩
  rw [labelsOf_eq_nil h.labels]
  exact labelled_old _ []

theorem yields_markers (regs : List Operand) (s : Lowering) :
    Yields (regs.forM fun r => liftM (emit .callArgReg none r none)) s (fun _ s' =>
      Written (fun _ => True) s s' ∧ s'.code = s.code ++ regs.map marker) fun _ => True := by
  induction regs generalizing s with
  | nil => exact yields_pure ⟨.refl s, (List.append_nil _).symm⟩
  | cons r regs ih =>
    show Yields (liftM (emit .callArgReg none r none) >>= fun _ => regs.forM _) s _ _
    refine yields_bind ((writesJust_emit .callArgReg none r none).yields s) ?_
    rintro - s₁ ⟨hwritten, hcode⟩
    refine (ih s₁).mono ?_
    rintro - s₂ ⟨hwritten', hcode'⟩
    exact ⟨hwritten.trans hwritten', by rw [hcode', hcode]; simp [marker]⟩

/-! ### What loads each argument -/

/-- What a call loads besides its arguments: the address of a result in memory, and the number of vector registers
for a variadic function. -/
def ownLoads (result : Ty) (address : Option Operand) (variadic : Bool) (count : Nat) : List Instr :=
  (address.toList.map fun a => .ir .addressOf (pseudo (argRegister (.int 0)) (.pointer result)) a none) ++
    if variadic then [.ir .move (pseudo .rax .uchar) (Operand.const (Int64.ofNat count) .uchar) none] else []

/-- The code loads the arguments one after another, and then what the call adds. -/
def LoadsEach (result : Ty) (variadic : Bool) (l : List (Operand × Placement)) (loads : List Instr) : Prop :=
  ∃ (blocks : List (List Instr)) (address : Option Operand) (count : Nat),
    loads = blocks.flatten ++ ownLoads result address variadic count ∧
    List.Forall₂ (fun x block => LoadedBy x.1 x.2 block) l blocks

/-! ### The call -/

/-- The instructions that give the area back. -/
def releases (total : Int64) : List Instr :=
  if total > 0 then [.ir .releaseStack none (Operand.const total .long) none] else []

/-- The code of a call: the pushes, what loads the registers and marks them, the call, what gives the area
back, and what fetches the result. -/
structure CallCode (low : Int) (callee : Operand) (args : List Operand) (result : Ty)
    (code pushes loads : List Instr) (regs : List Operand) (rest : List Instr) : Prop where
  code : code = pushes ++ (loads ++ regs.map marker) ++ .ir .call none callee none
    :: (releases (stackArea result (args.map (·.type))) ++ rest)
  pushes : pushes = pushedArea result args
  fills : Fills low (idsOf regs) loads
  among : (idsOf regs).Sublist (callIds result args)
  rest : ∀ i ∈ rest, Neutral i

section

variable {callee : Operand} {args : List Operand} {result : Ty} {code pushes loads rest : List Instr}
  {regs : List Operand}

theorem CallCode.isPush (h : CallCode low callee args result code pushes loads regs rest) :
    ∀ i ∈ pushes, IsPush i := fun _ hi => isPush_pushedArea (h.pushes ▸ hi)

theorem CallCode.neutral (h : CallCode low callee args result code pushes loads regs rest) :
    ∀ i ∈ loads ++ regs.map marker, Neutral i := by
  intro i hi
  rcases List.mem_append.mp hi with hi | hi
  · exact neutral_of_loading (h.fills.loads i hi).1
  · obtain ⟨r, -, rfl⟩ := List.mem_map.mp hi
    simp [Neutral, marker, Instr.ir]

theorem CallCode.nodup (h : CallCode low callee args result code pushes loads regs rest) :
    (reservedWrites low loads).Nodup := by
  rw [h.fills.writes]
  exact (h.among.filter _).nodup (nodup_callIds low result args)

end

theorem resultAddress?_run (inMemory : Bool) (result : Ty) (dst : Option Operand) (s : Lowering) :
    let r := (resultAddress? inMemory result dst).run s
    r.1.isSome = inMemory ∧ Written (fun _ => False) s r.2 := by
  cases inMemory with
  | false => exact ⟨rfl, .refl s⟩
  | true =>
    refine ⟨rfl, ?_⟩
    cases dst with
    | none => exact written_freshSlot result s
    | some d =>
      show Written _ s ((if d.isMemory then pure d else freshSlot result : Build Operand).run s).2
      split
      · exact .refl s
      · exact written_freshSlot result s

theorem Written.code_eq {s' : Lowering} (h : Written (fun _ => False) s s') : s'.code = s.code := by
  obtain ⟨new, hnew, hall, -⟩ := h.out
  rw [hnew, List.eq_nil_iff_forall_not_mem.mpr hall, List.append_nil]

theorem leaves_fetch (dst address : Option Operand) :
    Leaves low (fun i => Neutral i ∧ ((∀ d, dst = some d → Unreserved low d) → Tame low i))
      (match dst, address with
      | some d, none => fetchResult d
      | _, _ => pure ()) := by
  split
  · next d =>
    exact fun s hs => (leaves_fetchResult d s hs).mono fun _ s' h =>
      h.mono fun i hi => ⟨hi.1, fun hclean => hi.2 (hclean d rfl)⟩
  · exact leaves_pure _

/-- **What a call leaves is the code of the call.** -/
theorem yields_lowerCallTo (callee : Operand) (args : List Operand) (dst : Option Operand)
    (hlow : low ≤ s.fn.vregCount) :
    Yields (lowerCallTo callee args dst) s (fun _ s' => Written (fun _ => True) s s' ∧
      ∃ new pushes loads regs rest, s'.code = s.code ++ new ∧
        CallCode low callee args (callResult (calleeResult callee).1 dst) new pushes loads regs rest ∧
        ((∀ d, dst = some d → Unreserved low d) → ∀ i ∈ rest, Tame low i) ∧
        LoadsEach (callResult (calleeResult callee).1 dst) (calleeResult callee).2
          (args.zip (placements (callResult (calleeResult callee).1 dst) (args.map (·.type)))) loads)
      fun _ => True := by
  have all : ∀ {P : Instr → Prop} {s s' : Lowering}, Written P s s' → Written (fun _ => True) s s' :=
    fun h => h.mono fun _ _ => trivial
  unfold lowerCallTo
  cases calleeResult callee with
  | mk signature variadic =>
  dsimp only
  generalize callResult signature dst = result
  rw [show (if Placement.resultInMemory result = true then Allocation.arguments.reserve.2
    else Allocation.arguments) = firstOf result from rfl]
  refine yields_bind_require ?_
  refine yields_bind (yields_lift (Q := fun address s₁ => address.isSome = Placement.resultInMemory result ∧
    Written (fun _ => False) s s₁) (resultAddress?_run _ result dst s)) ?_
  rintro address s₁ ⟨haddress, h₁⟩
  refine yields_bind_require ?_
  -- the pushes
  refine yields_when (yields_bind ((writesJust_when (writesJust_emit .argStackPadding none none none)).yields s₁)
    fun _ s₂ h₂ => yields_bind ((writesJust_pushArgs _ _).yields s₂) fun _ s₃ h₃ => ?_)
  have hlow₃ := Int.le_trans hlow (Int.le_trans h₁.vregs (Int.le_trans h₂.1.vregs h₃.1.vregs))
  -- what loads the registers and marks them
  refine yields_bind (loadsAmong_loadArgs args _ _ hlow₃) ?_
  rintro live s₄ ⟨hsub₄, h₄, _, hcode₄, hfills₄, blocks, rfl, hblocks⟩
  have hlow₄ := Int.le_trans hlow₃ h₄.vregs
  refine yields_bind (loadsAmong_resultAddress result address s₄ hlow₄) ?_
  rintro more s₅ ⟨hsub₅, h₅, _, hcode₅, hfills₅, rfl⟩
  refine yields_bind (loadsAmong_vectorCount variadic _ s₅ (Int.le_trans hlow₄ h₅.vregs)) ?_
  rintro last s₆ ⟨hsub₆, h₆, _, hcode₆, hfills₆, rfl⟩
  have hfills := hfills₄.append (hfills₅.append hfills₆)
  rw [← idsOf_append, ← idsOf_append, ← List.append_assoc] at hfills
  refine yields_bind (yields_markers (live ++ more ++ last) s₆) ?_
  rintro - s₇ ⟨h₇, hcode₇⟩
  -- the call, and what comes after it
  refine yields_bind ((writesJust_emit .call none callee none).yields s₇) fun _ s₈ h₈ => ?_
  refine yields_when (yields_bind ((writesJust_when (writesJust_emit .releaseStack none _ none)).yields s₈)
    fun _ s₉ h₉ => ?_)
  have hbefore := (all h₁).trans ((h₂.1.trans h₃.1).trans (h₄.trans (h₅.trans (h₆.trans (h₇.trans (h₈.1.trans h₉.1))))))
  refine (leaves_bind (leaves_note _) (fun _ => leaves_fetch dst address) s₉ (Int.le_trans hlow hbefore.vregs)).mono
    fun _ s' h' => ⟨hbefore.trans (all h'), ?_⟩
  obtain ⟨rest, hrest, hall, -⟩ := h'.out
  refine ⟨_, _, _, live ++ more ++ last, rest, ?_, ⟨rfl, rfl, hfills, ?_,
    fun i hi => (hall i hi).1⟩, fun hclean i hi => (hall i hi).2 hclean, blocks, address, _, rfl, hblocks⟩
  · rw [hrest, h₉.2, h₈.2, hcode₇, hcode₆, hcode₅, hcode₄, h₃.2, h₂.2, h₁.code_eq]
    simp [pushedArea, releases, stackArea, placements]
  · rw [haddress] at hsub₅
    rw [idsOf_append, idsOf_append]
    exact (hsub₄.append hsub₅).append hsub₆

end Lowering

end Codegen
