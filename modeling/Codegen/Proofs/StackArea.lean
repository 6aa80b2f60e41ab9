/-
Caller and callee agree on the stack.

The caller places the arguments and pushes those that go to the stack; the callee places its
parameters the same way and looks for those at the offsets it gets.  The offsets count from the
stack pointer at the call.  The callee counts from its frame base, which is two words further
down: the return address and the saved frame base are pushed in between.
-/
import Codegen.Proofs.Homes

namespace Codegen

namespace Lowering

open Allocation

/-! ### Offsets and stack indices -/

variable {offset : Int64} {p : Placement} {result result' : Ty} {v : Operand} {ts : List Ty} {base a : BitVec 64}
  {k : Nat} {f : Function} {args : List Operand}

/-- Every offset that is handed out is a multiple of eight inside the area. -/
theorem offset_of_mem_addAll {a : Allocation} (ha : a.InBounds) (hsize : ∀ t ∈ ts, 0 ≤ t.size.toInt)
    (hfit : a.offset.toInt + (ts.map room).sum ≤ 2 ^ 63 - 1) (hp : p ∈ (a.addAll ts).1)
    (hoffset : p.stackOffset? = some offset) :
    a.offset.toInt ≤ offset.toInt ∧ offset.toInt % 8 = 0 ∧
      offset.toInt ≤ a.offset.toInt + (ts.map room).sum := by
  induction ts generalizing a with
  | nil => exact nomatch hp
  | cons t ts ih =>
    have hsum : ((t :: ts).map room).sum = room t + (ts.map room).sum := rfl
    rw [hsum] at hfit ⊢
    have ht := hsize t (by simp)
    obtain ⟨hadd, hle, hge⟩ := ha.add ht (by omega)
    have hp : p = (a.add t).1 ∨ p ∈ ((a.add t).2.addAll ts).1 := List.mem_cons.mp hp
    rcases hp with rfl | hp
    · rcases stackOffset?_add ha ht (by omega) with ⟨hnone, -⟩ | ⟨hsome, hstart, hmod, hend, hnext⟩
      · rw [hnone] at hoffset
        exact nomatch hoffset
      · obtain rfl := Option.some.inj (hsome.symm.trans hoffset)
        rw [hnext, hend] at hge
        omega
    · have := ih hadd (fun u hu => hsize u (by simp [hu])) (by omega) hp
      omega

/-- Bytes of the argument area, seen by the function that was called: the stack pointer at the call is two
words above its frame base. -/
theorem of?_slot_incoming {o : Int64} (ho : 0 ≤ o.toInt) (hmod : o.toInt % 8 = 0)
    (hfit : o.toInt + 16 < 2 ^ 63) (t : Ty) {frame : Addresses} (hframe : frame.frame = base - 16) :
    frame.of? (.slot ((16 + o.toInt) / 8) t) = some (base + o.toBitVec) := by
  rw [← incomingIndex_eq ho hfit, of?_incoming frame ho hmod hfit, hframe, BitVec.sub_add_cancel]

/-! ### The two sides -/

section caller

variable {low : Int} {callee : Operand} {code pushes loads rest : List Instr} {regs : List Operand}

theorem yields_lowerCall {i : Instr} (hcallee : i.src1 = some callee) (s : Lowering) :
    Yields (lowerCall i) s (fun _ s' => ∃ new pushes loads regs rest, s'.code = s.code ++ new ∧
      CallCode s.fn.vregCount callee (callArgs i s.args) (callResult (calleeResult callee).1 i.dst) new pushes
        loads regs rest) fun _ => True := by
  refine yields_bind_get ?_
  rw [hcallee]
  refine yields_unless fun _ => (yields_lowerCallTo callee _ i.dst (Int.le_refl _)).mono ?_
  rintro - s' ⟨-, new, pushes, loads, regs, rest, hcode, hcall, -⟩
  exact ⟨new, pushes, loads, regs, rest, hcode, hcall⟩

theorem CallCode.foldl_push (h : CallCode low callee args result code pushes loads regs rest) {env : Addresses}
    (value : Operand → BitVec 64) (m : Memory)
    (hargs : ∀ v ∈ args, CanPush env base (stackArea result (args.map (·.type))).toInt.toNat v)
    (hfit : (args.map fun v => room v.type).sum + 32 ≤ 2 ^ 63) :
    ∃ m', (pushes ++ (loads ++ regs.map marker)).foldl (Instr.push env value)
        (base + (stackArea result (args.map (·.type))).toBitVec, m) = (base, m') ∧
      AllPushed env value m base 0 (args.zip (placements result (args.map (·.type)))) m' := by
  obtain ⟨m', hpushes, hall⟩ := foldl_push_area value m hargs hfit
  refine ⟨m', ?_, hall⟩
  rw [List.foldl_append, foldl_push_neutral env value _ h.neutral, h.pushes]
  exact hpushes

end caller

/-! ### The agreement -/

/-- Once it is lowered, the function finds its `k`-th parameter, of type `t`, at a stack index. -/
def ReadsParam (f : Function) (k : Nat) (t : Ty) (index : Int) : Prop :=
  ∀ e g, f.lower.result = .ok (e, g) → ∃ home, e.homes[k]? = some home ∧ FoundAt g.code home t index

theorem readsParam_of_stackOffset? (hp : (placements f.result f.params)[k]? = some p)
    (hoffset : p.stackOffset? = some offset) : ReadsParam f k p.type (incomingIndex offset) := by
  intro e g hlower
  have hfinds := Function.finds_of_lower hlower
  obtain ⟨hk, rfl⟩ := List.getElem?_eq_some_iff.mp hp
  have hk' : k < e.homes.length := by rw [hfinds.length_eq]; exact hk
  exact ⟨e.homes[k], List.getElem?_eq_getElem hk', hfinds.get hk' hk _ hoffset⟩

/-- The type of the result only matters for where the result comes back. -/
theorem placements_congr (h : Placement.resultInMemory result = Placement.resultInMemory result')
    (ts : List Ty) : placements result ts = placements result' ts := by
  rw [placements, placements, firstOf, firstOf, h]

theorem map_type_addAll (a : Allocation) (ts : List Ty) : (a.addAll ts).1.map (·.type) = ts := by
  induction ts generalizing a with
  | nil => rfl
  | cons t ts ih => exact congrArg (t :: ·) (ih _)

theorem type_of_getElem?_placements (hv : args[k]? = some v)
    (hp : (placements result (args.map (·.type)))[k]? = some p) : p.type = v.type := by
  have h := congrArg (·[k]?) (map_type_addAll (firstOf result) (args.map (·.type)))
  simp only [List.getElem?_map, hv] at h
  rw [show ((firstOf result).addAll (args.map (·.type))).1[k]? = some p from hp] at h
  exact Option.some.inj h

/-- Where the arguments of a call that go to the stack are. -/
theorem offset_of_placements (hargs : ∀ v ∈ args, Passable v)
    (hfit : (args.map fun v => room v.type).sum + 32 ≤ 2 ^ 63) (hp : p ∈ placements result (args.map (·.type)))
    (hoffset : p.stackOffset? = some offset) :
    0 ≤ offset.toInt ∧ offset.toInt % 8 = 0 ∧ offset.toInt + 16 < 2 ^ 63 := by
  have hzero := congrArg Int64.toInt (offset_firstOf result)
  change (firstOf result).offset.toInt = 0 at hzero
  have hsizes : ∀ t ∈ args.map (·.type), 0 ≤ t.size.toInt := by
    intro t ht
    obtain ⟨v, hv, rfl⟩ := List.mem_map.mp ht
    exact (hargs v hv).type.size_nonneg
  have hrooms : (args.map fun v => room v.type).sum = ((args.map (·.type)).map room).sum := by
    rw [List.map_map]
    rfl
  have := offset_of_mem_addAll (inBounds_firstOf result) hsizes (by omega) hp hoffset
  omega

/-- **Caller and callee agree on the stack.**  The pushes of a call lower the stack pointer by the size of
the area, a multiple of sixteen that is given back after the call, and put all bytes of every argument that
goes to the stack at its offset; a function with these parameters, and a result that comes back the same way,
finds the parameter at the stack index of the offset, which is the same address once the return address and
the saved frame base were pushed. -/
theorem stack_area_agrees {i : Instr} {callee : Operand} {s s' : Lowering} {events events' : Array Event}
    (hcallee : i.src1 = some callee) (hrun : ((lowerCall i).run s).run events = .ok ((), s') events')
    (hargs : ∀ v ∈ callArgs i s.args, Passable v)
    (hfit : ((callArgs i s.args).map fun v => Allocation.room v.type).sum + 32 ≤ 2 ^ 63) :
    let args := callArgs i s.args
    let result := callResult (calleeResult callee).1 i.dst
    let total := stackArea result (args.map (·.type))
    (0 ≤ total.toInt ∧ total.toInt % 16 = 0) ∧
    ∃ before after, s'.code = s.code ++ before ++ .ir .call none callee none :: (releases total ++ after) ∧
      (∀ j ∈ before, j.op ≠ .ir .call ∧ j.op ≠ .ir .releaseStack) ∧ (∀ j ∈ after, Neutral j) ∧
      ∀ (env : Addresses) (value : Operand → BitVec 64) (sp : BitVec 64) (m : Memory),
        (∀ v ∈ args, ∀ a, env.of? v = some a →
          Memory.Apart a v.type.size.toInt.toNat (sp - total.toBitVec) total.toInt.toNat) →
        ∃ m', before.foldl (Instr.push env value) (sp, m) = (sp - total.toBitVec, m') ∧
          ∀ k v p offset, args[k]? = some v → (placements result (args.map (·.type)))[k]? = some p →
            p.stackOffset? = some offset →
            (∀ n < v.type.size.toInt.toNat, m' (sp - total.toBitVec + offset.toBitVec + BitVec.ofNat 64 n)
              = v.byteAt env value m n) ∧
            ∀ f : Function, f.params = args.map (·.type) →
              Placement.resultInMemory f.result = Placement.resultInMemory result →
              ReadsParam f k v.type ((16 + offset.toInt) / 8) ∧
              ∀ frame : Addresses, frame.frame = sp - total.toBitVec - 16 →
                frame.of? (.slot ((16 + offset.toInt) / 8) v.type)
                  = some (sp - total.toBitVec + offset.toBitVec) := by
  intro args result total
  have htypes : ∀ v ∈ args, v.type.IsArgument := fun v hv => (hargs v hv).type
  refine ⟨stackArea_nonneg result htypes hfit, ?_⟩
  obtain ⟨new, pushes, loads, regs, rest, hnew, hcode⟩ := (yields_lowerCall hcallee s).of_ok hrun
  refine ⟨pushes ++ (loads ++ regs.map marker), rest, ?_, fun j hj => ?_, hcode.rest,
    fun env value sp m hapart => ?_⟩
  · rw [hnew, hcode.code]
    simp only [List.append_assoc]
    rfl
  · rcases List.mem_append.mp hj with hj | hj
    · rcases (hcode.isPush j hj).1 with hop | hop <;> rw [hop] <;> decide
    · exact ⟨(hcode.neutral j hj).2.2.2, (hcode.neutral j hj).2.2.1⟩
  have hcan : ∀ v ∈ args, CanPush env (sp - total.toBitVec) total.toInt.toNat v := fun v hv =>
    ⟨hargs v hv, hapart v hv⟩
  obtain ⟨m', hfold, hall⟩ := hcode.foldl_push value m hcan hfit
  rw [BitVec.sub_add_cancel] at hfold
  refine ⟨m', hfold, fun k v p offset hv hp hoffset => ?_⟩
  obtain ⟨hnonneg, hmod, hlt⟩ := offset_of_placements hargs hfit (List.mem_of_getElem? hp) hoffset
  have htype := type_of_getElem?_placements hv hp
  have hzip : (v, p) ∈ args.zip (placements result (args.map (·.type))) :=
    List.mem_of_getElem? (List.getElem?_zip_eq_some.mpr ⟨hv, hp⟩)
  refine ⟨fun n hn => ?_, fun f hparams hresult => ⟨?_, fun frame hframe => ?_⟩⟩
  · rw [toBitVec_of_nonneg hnonneg, add_ofNat_add]
    exact (hall (v, p) hzip offset hoffset).2 n hn
  · rw [← hparams, ← placements_congr hresult] at hp
    rw [← htype, ← incomingIndex_eq hnonneg hlt]
    exact readsParam_of_stackOffset? hp hoffset
  · exact of?_slot_incoming hnonneg hmod hlt v.type hframe

/-- Three words, which travel in memory. -/
def threeWords : Ty := .struct "s" [.long, .long, .long] false

/-- Arguments that take all integer registers and then the stack: a byte, an aggregate, a long double that
is aligned to sixteen bytes, and a byte again. -/
def mixedArgs : List Operand :=
  (List.range 6).map (fun n => .const (Int64.ofNat n) .long) ++
    [.const 7 .char, .global "x" threeWords, .global "y" .longDouble, .const 9 .char]

/-- A function with parameters of their types. -/
def mixedCallee : Function := .new "g" .void (mixedArgs.map (·.type))

/-- The call, and the state in which it is lowered. -/
def mixedCall : Instr :=
  .ir .call none (Operand.global "g" (.func mixedCallee.params .void false)) (Operand.const 1 .long)

def beforeMixedCall : Lowering := { fn := .new "f" .void [], args := mixedArgs.map (1, ·) }

theorem mem_mixedArgs (hv : v ∈ mixedArgs) :
    (∃ n w sign, v = .const n (.int w sign)) ∨ v = .global "x" threeWords ∨ v = .global "y" .longDouble := by
  rcases List.mem_append.mp hv with hv | hv
  · obtain ⟨n, -, rfl⟩ := List.mem_map.mp hv
    exact .inl ⟨_, _, _, rfl⟩
  · simp only [List.mem_cons, List.not_mem_nil, or_false] at hv
    rcases hv with rfl | rfl | rfl | rfl
    · exact .inl ⟨_, _, _, rfl⟩
    · exact .inr (.inl rfl)
    · exact .inr (.inr rfl)
    · exact .inl ⟨_, _, _, rfl⟩

theorem passable_mixedArgs (hv : v ∈ mixedArgs) : Passable v := by
  rcases mem_mixedArgs hv with ⟨n, w, sign, rfl⟩ | rfl | rfl
  · exact ⟨.int w sign, fun h => h.elim nofun nofun⟩
  · exact ⟨.aggregate rfl (by decide +kernel) (by decide +kernel), fun _ => rfl⟩
  · exact ⟨.float _, fun _ => rfl⟩

/-- Two globals far below the stack. -/
def twoGlobals : Addresses := ⟨0, fun name => if name = "x" then 64 else 128⟩

theorem apart_mixedArgs (hv : v ∈ mixedArgs) (ha : twoGlobals.of? v = some a) :
    Memory.Apart a v.type.size.toInt.toNat (4096 - 64) 64 := by
  have hapart : ∀ (a : BitVec 64) (n : Nat), a.toNat + n ≤ 4032 → Memory.Apart a n (4096 - 64) 64 := by
    intro a n hle q hq hq'
    unfold Memory.Within at hq hq'
    bv_omega
  rcases mem_mixedArgs hv with ⟨n, w, sign, rfl⟩ | rfl | rfl
  · exact nomatch ha
  · obtain rfl : 64 = a := Option.some.inj ha
    exact hapart _ _ (by decide +kernel)
  · obtain rfl : 128 = a := Option.some.inj ha
    exact hapart _ _ (by decide +kernel)

/-- The area of this call has padding at its end and between the aggregate and the long double. -/
theorem mixedCall_area_agrees :
    ∃ s' events before after, ((lowerCall mixedCall).run beforeMixedCall).run #[] = .ok ((), s') events ∧
      s'.code = before ++ .ir .call none mixedCall.src1 none :: (releases 64 ++ after) ∧
      mixedCallee.lower.result.toOption.isSome = true ∧ ReadsParam mixedCallee 7 threeWords 3 ∧
      ∀ value m, ∃ m', before.foldl (Instr.push twoGlobals value) (4096, m) = (4096 - 64, m') ∧
        ∀ n < 24, m' (4096 - 64 + 8 + BitVec.ofNat 64 n) = m (64 + BitVec.ofNat 64 n) := by
  have hsize : stackArea .void (mixedArgs.map (·.type)) = 64 := by decide +kernel
  have hplace : ((placements .void (mixedArgs.map (·.type)))[7]?.bind (·.stackOffset?)) = some 8 := by
    decide +kernel
  obtain ⟨p, hp, hoffset⟩ := Option.bind_eq_some_iff.mp hplace
  obtain ⟨⟨⟨⟩, s'⟩, events, hrun⟩ := Traced.exists_run_of_result
    (x := (lowerCall mixedCall).run beforeMixedCall) (by decide +kernel)
  have hagree := stack_area_agrees rfl hrun (fun v hv => passable_mixedArgs hv) (by decide +kernel)
  simp only [show callArgs mixedCall beforeMixedCall.args = mixedArgs from rfl,
    show callResult (calleeResult (Operand.global "g" (.func mixedCallee.params .void false))).1 mixedCall.dst
      = .void from rfl, hsize] at hagree
  obtain ⟨-, before, after, hcode, -, -, hpushed⟩ := hagree
  have hat : ∀ value m, ∃ m', before.foldl (Instr.push twoGlobals value) (4096, m) = (4096 - 64, m') ∧
      (∀ n < 24, m' (4096 - 64 + 8 + BitVec.ofNat 64 n) = m (64 + BitVec.ofNat 64 n)) ∧
      ReadsParam mixedCallee 7 threeWords 3 := by
    intro value m
    obtain ⟨m', hfold, hall⟩ := hpushed twoGlobals value 4096 m fun v hv a ha => apart_mixedArgs hv ha
    obtain ⟨hbytes, hcallee⟩ := hall 7 (.global "x" threeWords) p 8 rfl hp hoffset
    exact ⟨m', hfold, hbytes, (hcallee mixedCallee rfl rfl).1⟩
  refine ⟨s', events, before, after, hrun, hcode, by decide +kernel, ?_, fun value m => ?_⟩
  · obtain ⟨-, -, -, hreads⟩ := hat (fun _ => 0) fun _ => 0
    exact hreads
  · obtain ⟨m', hfold, hbytes, -⟩ := hat value m
    exact ⟨m', hfold, hbytes⟩

end Lowering

end Codegen
