/-
Which arguments a call receives.

Arguments are collected while a function is lowered, each with the number of the call that it is for, and a
call passes those with its number when it comes.  Nothing is ever taken out of the collection: a call receives
every argument with its number that stands before it, and an argument reaches every call with its number that
comes after it.  That is one call if no two calls of the function share a number.

What is collected is a function of the instructions so far (`Instr.argument?`), so lowering a body is followed with
the instructions before as the state, and `Delivers` says what every call in it receives.
-/
import Codegen.Proofs.StackArea

namespace Codegen

namespace Instr

/-- The number of the call and the value that an argument carries. -/
def argument? (i : Instr) : Option (Int64 × Operand) :=
  match i.op, i.src1.map Operand.value, i.src2 with
  | .ir .arg, some (.const id), some v => some (id, v)
  | _, _, _ => none

/-- The number that a call carries. -/
def callId? (i : Instr) : Option Int64 :=
  match i.op, i.src2.map Operand.value with
  | .ir .call, some (.const id) => some id
  | _, _ => none

end Instr

namespace Lowering

/-- The values of the arguments with the number of the call, in order. -/
def argumentsOf (call : Instr) (before : List Instr) : List Operand :=
  ((before.filterMap Instr.argument?).filter fun a => some a.1 == call.callId?).map (·.2)

theorem argumentsOf_append (call : Instr) (before more : List Instr) :
    argumentsOf call (before ++ more) = argumentsOf call before ++ argumentsOf call more := by
  simp [argumentsOf]

variable {i : Instr} {v : Operand} {s : Lowering} {before : List Instr} {low : Int}

theorem argumentsOf_cons {id : Int64} (h : i.argument? = some (id, v)) (call : Instr) (rest : List Instr) :
    argumentsOf call (i :: rest) = (if call.callId? = some id then [v] else []) ++ argumentsOf call rest := by
  rw [argumentsOf, List.filterMap_cons_some h, List.filter_cons]
  by_cases hid : call.callId? = some id
  · simp [hid, argumentsOf]
  · simp [hid, Ne.symm hid, argumentsOf]

theorem callArgs_eq (h : i.op = .ir .call) (before : List Instr) :
    callArgs { i with label := 0 } (before.filterMap Instr.argument?) = argumentsOf i before := by
  unfold callArgs argumentsOf Instr.callId?
  rw [h]
  dsimp only
  split
  · next id hid => simp [hid]
  · next hid =>
    split
    · next id _ hconst => exact absurd hconst (hid id)
    · simp

/-! ### The pushes of a call -/

theorem filter_pushedParts (v : Operand) : (pushedParts v).filter (·.op == .ir .arg) = pushedParts v := by
  refine List.filter_eq_self.mpr fun i hi => ?_
  unfold pushedParts at hi
  split at hi
  · obtain ⟨_, -, rfl⟩ := List.mem_map.mp hi
    rfl
  · rw [List.mem_singleton.mp hi]
    rfl

theorem filter_pads (top bottom : Int64) : (pads top bottom).filter (·.op == .ir .arg) = [] := by
  refine List.filter_eq_nil_iff.mpr fun i hi => ?_
  obtain ⟨_, -, rfl⟩ := List.mem_map.mp hi
  exact Bool.false_ne_true

theorem filter_pushedArgs (top : Int64) (l : List (Operand × Placement)) :
    (pushedArgs top l).filter (·.op == .ir .arg) = l.flatMap fun x => if x.2.onStack then pushedParts x.1 else [] := by
  induction l generalizing top with
  | nil => rfl
  | cons x rest ih =>
    rw [List.flatMap_cons, Placement.onStack, pushedArgs]
    cases x.2.stackOffset? with
    | none => exact ih top
    | some offset =>
      simp only [List.filter_append, filter_pads, filter_pushedParts, ih offset]
      rfl

/-- **A call pushes each argument that goes to the stack once, the last one first.** -/
theorem filter_pushedArea (result : Ty) (args : List Operand) :
    (pushedArea result args).filter (·.op == .ir .arg)
      = (args.zip (placements result (args.map (·.type)))).reverse.flatMap
        fun x => if x.2.onStack then pushedParts x.1 else [] := by
  unfold pushedArea
  rw [List.filter_append, filter_pushedArgs]
  split <;> rfl

/-! ### What a call receives -/

/-- The code of a call passes these arguments and no others: behind the label of the call, those that go to the
stack are pushed, and the others are loaded. -/
def Receives (call : Instr) (args : List Operand) (piece : List Instr) : Prop :=
  ∃ (callee : Operand) (pushes loads rest : List Instr) (regs : List Operand),
    call.src1 = some callee ∧
    piece = (if call.label = 0 then [] else [.target call.label]) ++ pushes ++ (loads ++ regs.map marker) ++
      .ir .call none callee none :: rest ∧
    let result := callResult (calleeResult callee).1 call.dst
    let seats := args.zip (placements result (args.map (·.type)))
    seats.map (·.1) = args ∧
    pushes.filter (·.op == .ir .arg) = seats.reverse.flatMap (fun x => if x.2.onStack then pushedParts x.1 else []) ∧
    LoadsEach result (calleeResult callee).2 seats loads

/-- Every call of the code receives the arguments with its number that stand before it. -/
inductive Delivers : List Instr → List Instr → List (List Instr) → Prop
  | nil (before : List Instr) : Delivers before [] []
  | cons {before code : List Instr} {i : Instr} {piece : List Instr} {pieces : List (List Instr)}
      (h : i.op = .ir .call → Receives i (argumentsOf i before) piece)
      (hrest : Delivers (before ++ [i]) code pieces) : Delivers before (i :: code) (piece :: pieces)

/-- A step has added a piece of code, and to what was collected what the instruction carries. -/
structure Collects (i : Instr) (s s' : Lowering) (piece : List Instr) : Prop where
  entry : s'.entry = s.entry
  args : s'.args = s.args ++ i.argument?.toList
  code : s'.code = s.code ++ piece

/-- The label of an instruction is set in front of what it becomes. -/
theorem yields_label_bind {Q : Lowering → List Instr → Prop} (l : Int) {x : LowerM Unit}
    (hx : ∀ s₁, s₁.entry = s.entry → s₁.args = s.args → Yields x s₁ (fun _ s' => ∃ piece,
      s'.code = s₁.code ++ piece ∧ Q s' piece) fun _ => True) :
    Yields (do
      if l != 0 then label l
      x : LowerM Unit) s (fun _ s' => ∃ piece,
        s'.code = s.code ++ ((if l = 0 then [] else [.target l]) ++ piece) ∧ Q s' piece) fun _ => True := by
  by_cases h : l = 0
  · rw [if_neg (by simp [h]), if_pos h]
    exact hx s rfl rfl
  · rw [if_pos (by simp [h]), if_neg h]
    refine yields_bind (yields_lift (Q := fun _ s₁ => s₁ = { s with out := s.out.push (.target l) }) rfl) ?_
    rintro - s₁ rfl
    refine (hx { s with out := s.out.push (.target l) } rfl rfl).mono ?_
    rintro - s' ⟨piece, hcode, hpiece⟩
    exact ⟨piece, by simpa [Lowering.code] using hcode, hpiece⟩

theorem leaves_lowerAggregateReturn (src : Operand) (t : Ty) :
    Leaves low (fun _ => True) (lowerAggregateReturn src t) := by
  refine leaves_unless fun _ => leaves_bind leaves_get fun s => ?_
  have hret : Leaves low (fun _ => True) (liftM (emit .ret none none none)) := leaves_lift (emits_emit trivial)
  split
  · next hidden _ =>
    refine leaves_bind (leaves_lift (emits_copyToPointer (permissive_true low) hidden src t.size)) fun _ => ?_
    exact leaves_bind (leaves_lift (emits_emit trivial)) fun _ => hret
  · split
    · next p _ =>
      refine leaves_bind (fun s hs => ?_) fun _ => hret
      obtain ⟨_, -, hloads⟩ := fetches_loadEightbytes src p resultRegister s hs
      exact yields_lift hloads.written
    · exact hret

theorem lowerExpanded_call (h : i.op = .ir .call) :
    lowerExpanded { i with label := 0 } = lowerCall { i with label := 0 } := by
  unfold lowerExpanded
  rw [h]

/-- What becomes several instructions and is no call leaves the collection alone. -/
theorem leaves_lowerExpanded (h : i.op ≠ .ir .call) (hlabel : i.label = 0) :
    Leaves low (fun _ => True) (lowerExpanded i) := by
  have happend : Leaves low (fun _ => True) (liftM (append i)) := leaves_append hlabel trivial
  unfold lowerExpanded
  split
  · refine leaves_bind leaves_get fun s => ?_
    split
    · dsimp only
      split
      · exact leaves_lowerAggregateReturn _ _
      · exact happend
    · exact happend
  · contradiction
  · exact leaves_lowerVaStart (permissive_true low) i
  · exact leaves_lowerVaArg (permissive_true low) (fun _ => trivial) fun _ _ _ _ => trivial

theorem length_placements (result : Ty) (args : List Operand) :
    args.length ≤ (placements result (args.map (·.type))).length := by
  have h := congrArg List.length (map_type_addAll (firstOf result) (args.map (·.type)))
  rw [List.length_map, List.length_map] at h
  exact Nat.le_of_eq h.symm

theorem yields_lowerCall_receives (h : i.op = .ir .call) (s : Lowering)
    (hargs : s.args = before.filterMap Instr.argument?) :
    Yields (lowerCall { i with label := 0 }) s (fun _ s' => ∃ piece, s'.code = s.code ++ piece ∧
      Written (fun _ => True) s s' ∧ Receives i (argumentsOf i before)
        ((if i.label = 0 then [] else [.target i.label]) ++ piece)) fun _ => True := by
  refine yields_bind_get ?_
  rw [hargs, callArgs_eq h]
  refine yields_unless fun _ => ?_
  cases hcallee : i.src1 with
  | none => exact yields_throw trivial
  | some callee =>
    refine (yields_lowerCallTo callee _ i.dst (Int.le_refl _)).mono ?_
    rintro - s' ⟨hwritten, new, pushes, loads, regs, rest, hcode, hcall, -, hloads⟩
    obtain rfl := hcall.pushes
    refine ⟨new, hcode, hwritten, callee, _, loads,
      releases (stackArea (callResult (calleeResult callee).1 i.dst) ((argumentsOf i before).map (·.type))) ++ rest,
      regs, hcallee, ?_, List.map_fst_zip (length_placements _ _), filter_pushedArea _ _, hloads⟩
    rw [hcall.code]
    simp

/-- **What an instruction carries is collected, and a call receives what was.** -/
theorem yields_lowerInstr_collects (i : Instr) (hargs : s.args = before.filterMap Instr.argument?) :
    Yields (lowerInstr i) s (fun _ s' => ∃ i' piece, Replaces s.entry.homes i i' ∧ Collects i' s s' piece ∧
      (i'.op = .ir .call → Receives i' (argumentsOf i' before) piece)) fun _ => True := by
  refine yields_bind (yields_replaceParams i s) ?_
  rintro i' s ⟨rfl, hreplaces⟩
  suffices h : Yields _ s (fun _ s' => ∃ piece, Collects i' s s' piece ∧
      (i'.op = .ir .call → Receives i' (argumentsOf i' before) piece)) fun _ => True from
    h.mono fun _ s' ⟨piece, hpiece⟩ => ⟨i', piece, hreplaces, hpiece⟩
  have hexpanded : i'.argument? = none → Yields (do
      if i'.label != 0 then label i'.label
      lowerExpanded { i' with label := 0 } : LowerM Unit) s (fun _ s' => ∃ piece, Collects i' s s' piece ∧
        (i'.op = .ir .call → Receives i' (argumentsOf i' before) piece)) fun _ => True := by
    intro hnone
    refine (yields_label_bind (Q := fun s' piece => s'.entry = s.entry ∧ s'.args = s.args ∧
      (i'.op = .ir .call → Receives i' (argumentsOf i' before)
        ((if i'.label = 0 then [] else [.target i'.label]) ++ piece))) i'.label fun s₁ hentry hsame => ?_).mono ?_
    · by_cases hcall : i'.op = .ir .call
      · rw [lowerExpanded_call hcall]
        refine (yields_lowerCall_receives hcall s₁ (hsame.trans hargs)).mono ?_
        rintro - s' ⟨piece, hcode, hwritten, hreceives⟩
        exact ⟨piece, hcode, hwritten.entry.trans hentry, hwritten.args.trans hsame, fun _ => hreceives⟩
      · refine (leaves_lowerExpanded (i := { i' with label := 0 }) hcall rfl s₁ (Int.le_refl _)).mono
          fun _ s' hwritten => ?_
        obtain ⟨piece, hcode, -⟩ := hwritten.out
        exact ⟨piece, hcode, hwritten.entry.trans hentry, hwritten.args.trans hsame, fun h => absurd h hcall⟩
    · rintro - s' ⟨piece, hcode, hentry, hsame, hreceives⟩
      exact ⟨_, ⟨hentry, by rw [hsame, hnone]; simp, hcode⟩, hreceives⟩
  split
  · next v hop hsrc2 =>
    unfold collectArg
    split
    · next id hid =>
      have hcarried : i'.argument? = some (id, v) := by
        unfold Instr.argument?
        rw [hop, hid, hsrc2]
      refine yields_bind_modify ((yields_label_bind (Q := fun s' piece => piece = [] ∧ s'.entry = s.entry ∧
        s'.args = s.args ++ [(id, v)]) i'.label (x := pure ()) fun s₁ hentry hsame => ?_).mono ?_)
      · exact yields_pure ⟨[], (List.append_nil _).symm, rfl, hentry, hsame⟩
      · rintro - s' ⟨piece, hcode, -, hentry, hsame⟩
        exact ⟨_, ⟨hentry, by rw [hsame, hcarried]; rfl, hcode⟩, fun h => nomatch hop.symm.trans h⟩
    · exact yields_refuse _
  · next hnot =>
    have hnone : i'.argument? = none := by
      unfold Instr.argument?
      split
      · next v hop _ hsrc2 => exact (hnot v hop hsrc2).elim
      · rfl
    split
    · exact hexpanded hnone
    · exact hexpanded hnone
    · exact hexpanded hnone
    · exact hexpanded hnone
    · next hcall _ _ =>
      exact yields_lift ⟨[i'], ⟨rfl, by rw [hnone]; exact (List.append_nil _).symm, Array.toList_push⟩,
        fun h => (hcall h).elim⟩

/-- **Every call of a body receives the arguments with its number that stand before it.** -/
theorem yields_delivers (todo : List Instr) (hargs : s.args = before.filterMap Instr.argument?) :
    Yields (todo.forM lowerInstr) s (fun _ s' => s'.entry = s.entry ∧ ∃ code pieces,
      List.Forall₂ (Replaces s.entry.homes) todo code ∧ s'.code = s.code ++ List.flatten pieces ∧
      Delivers before code pieces) fun _ => True := by
  induction todo generalizing before s with
  | nil => exact yields_pure ⟨rfl, [], [], .nil, (List.append_nil _).symm, .nil before⟩
  | cons i todo ih =>
    show Yields (lowerInstr i >>= fun _ => todo.forM lowerInstr) s _ _
    refine yields_bind (yields_lowerInstr_collects i hargs) ?_
    rintro - s₁ ⟨i', piece, hreplaces, hcollects, hreceives⟩
    have hargs₁ : s₁.args = (before ++ [i']).filterMap Instr.argument? := by
      rw [hcollects.args, hargs, List.filterMap_append]
      cases h : i'.argument? <;> simp [h]
    refine (ih hargs₁).mono ?_
    rintro - s₂ ⟨hentry, code, pieces, hcode, hpieces, hdelivers⟩
    rw [hcollects.entry] at hentry hcode
    refine ⟨hentry, i' :: code, piece :: pieces, .cons hreplaces hcode, ?_, .cons hreceives hdelivers⟩
    rw [hpieces, hcollects.code]
    simp

end Lowering

open Lowering

namespace Function

theorem meets_lower_delivers (f : Function) :
    Traced.Meets f.lower (fun r => ∃ code entry pieces, List.Forall₂ (Replaces r.1.homes) f.code code ∧
      r.2.code = entry ++ List.flatten pieces ∧ Delivers [] code pieces) fun _ => True := by
  have hbody : Yields lowerBody f.lowering (fun _ s => ∃ code entry pieces,
      List.Forall₂ (Replaces s.entry.homes) f.code code ∧ s.code = entry ++ List.flatten pieces ∧
      Delivers [] code pieces) fun _ => True := by
    refine yields_bind (yields_lowerEntry (Int.le_refl _) rfl rfl f.length_markAddressTaken) fun _ s₁ h₁ => ?_
    refine yields_bind_get ?_
    rw [show s₁.fn.code = f.code from congrArg (·.code) h₁.written.fn]
    have hargs : s₁.args = [].filterMap Instr.argument? := h₁.written.args
    refine (yields_delivers f.code hargs).mono ?_
    rintro - s' ⟨hentry, code, pieces, hcode, hpieces, hdelivers⟩
    rw [← hentry] at hcode
    exact ⟨code, s₁.code, pieces, hcode, hpieces, hdelivers⟩
  unfold Function.lower
  split
  · exact Traced.meets_throw trivial
  · exact Traced.meets_bind hbody fun r hr => Traced.meets_pure hr

/-- **Arguments reach the calls that carry their number and come after them.**  The body is lowered piece by piece,
after the entry and with parameters replaced by their homes.  The piece of a call passes exactly the arguments with
its number before it, in order; so an argument is passed once by every later call with its number and by no other
call, and that is at most one call if no two share a number. -/
theorem arguments_reach_calls {f g : Function} {e : Entry} (h : f.lower.result = .ok (e, g)) :
    ∃ code entry pieces, List.Forall₂ (Replaces e.homes) f.code code ∧ g.code = entry ++ List.flatten pieces ∧
      Delivers [] code pieces ∧
      ∀ before arg after id v, code = before ++ arg :: after → arg.argument? = some (id, v) →
        (∀ between call, argumentsOf call (before ++ arg :: between) = argumentsOf call before ++
          (if call.callId? = some id then [v] else []) ++ argumentsOf call between) ∧
        ((code.filterMap Instr.callId?).Nodup → (after.filterMap Instr.callId?).count id ≤ 1) := by
  obtain ⟨code, entry, pieces, hcode, hpieces, hdelivers⟩ := f.meets_lower_delivers.of_result h
  refine ⟨code, entry, pieces, hcode, hpieces, hdelivers, ?_⟩
  rintro before arg after id v rfl harg
  refine ⟨fun between call => ?_, fun hnodup => ?_⟩
  · rw [argumentsOf_append, argumentsOf_cons harg, List.append_assoc]
  · rw [List.filterMap_append] at hnodup
    have hafter := (List.Sublist.filterMap Instr.callId? (List.sublist_cons_self arg after)).nodup
      (List.nodup_append.mp hnodup).2.1
    exact List.nodup_iff_count_le_one.mp hafter id

/-- A function without parameters and with constants as arguments: the number of a call, and the value if it is not
the call itself. -/
def handing (name : String) (steps : List (Int64 × Option Int64)) : Function :=
  { name, params := [], addressTaken := [], result := .void
    code := steps.map fun step =>
      match step.2 with
      | some n => .ir .arg none (Operand.const step.1 .long) (Operand.const n .long)
      | none => .ir .call none (some ⟨.func "g", .missing, 0⟩) (Operand.const step.1 .long) }

/-- The arguments of one call, among them another call. -/
def interleaved : Function := handing "interleaved" [(1, some 5), (2, some 6), (2, none), (1, some 7), (1, none)]

theorem interleaved_arguments_reach_calls : ∃ e g, interleaved.lower.result = .ok (e, g) ∧
    (interleaved.code.filterMap Instr.callId?).Nodup ∧
    ∃ code entry pieces, List.Forall₂ (Replaces e.homes) interleaved.code code ∧
      g.code = entry ++ List.flatten pieces ∧ Delivers [] code pieces := by
  have hsome : interleaved.lower.result.toOption.isSome = true := by decide +kernel
  cases h : interleaved.lower.result with
  | error e =>
    rw [h] at hsome
    exact nomatch hsome
  | ok r =>
    obtain ⟨code, entry, pieces, hcode, hpieces, hdelivers, -⟩ := arguments_reach_calls h
    exact ⟨r.1, r.2, rfl, by decide +kernel, code, entry, pieces, hcode, hpieces, hdelivers⟩

/-- Two calls with one number. -/
def recalling : Function := handing "recalling" [(1, some 5), (1, none), (1, some 6), (1, none)]

/-- The second call receives the argument of the first one again. -/
theorem recalling_passes_twice : recalling.lower.result.toOption.map (fun r =>
    (r.2.code.filter fun i => i.op == .ir .move || i.op == .ir .call).map fun i => i.src1.map (·.value)) =
      some [some (.const 5), some (.func "g"), some (.const 5), some (.const 6), some (.func "g")] := by
  decide +kernel

end Function

end Codegen
