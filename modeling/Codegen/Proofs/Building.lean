/-
Following code while it is emitted.

A step of lowering appends instructions and hands out registers, labels and slots; it never takes
anything back.  What the instructions are like is said by a predicate, and `EmitsFrom` goes through
a step once for all the predicates that are of interest: it is enough that they permit instructions
that write a register just handed out, memory or nothing.  The labels among them are those that
were handed out on the way, each set once.

`Runs` takes a step of lowering together with the code it emits: the step leaves a state, and
executing the new code leads from its first instruction past its last, whatever is emitted after
it.  Steps are put together by `runs_bind` as they are put together in the definitions, so a
piece of lowering is followed instruction by instruction without ever writing its code down.

Two paths that meet again are `orElse`: a main path that may leave by a jump to a label,
which is `Escapes`, and another path that starts at this label.  The jumps go to the right place if
the labels are new, and the counter that hands them out wraps around; so `RunsWith` keeps an account
of how many labels a step sets, and `Numbered` of how many more can be set.
-/
import Codegen.Calling.Lower
import Codegen.Proofs.LabelCount

namespace Codegen.Lowering

/-- The code so far. -/
def code (s : Lowering) : List Instr := s.out.toList

/-- The labels in the code were handed out by a counter that started with a number, and `k` more are new. -/
def Numbered (k : Nat) (s : Lowering) : Prop :=
  ∃ n : Int64, 0 ≤ n.toInt ∧ Labelled n s.fn.labelCount [] (labelsOf s.code) ∧
    (labelsOf s.code).length + k < 2 ^ 62

section numbered

variable {s : Lowering} {k m : Nat}

/-- A function with few labels to come starts out well numbered. -/
theorem numbered_of_nil (hout : s.code = []) (hn : 0 ≤ s.fn.labelCount.toInt) (hk : k < 2 ^ 62) : s.Numbered k := by
  refine ⟨s.fn.labelCount, hn, ?_, ?_⟩
  · rw [hout]
    exact labelled_old _ []
  · rw [hout]
    simpa [labelsOf] using hk

theorem Numbered.mono (h : s.Numbered k) (hm : m ≤ k) : s.Numbered m := by
  obtain ⟨n, hn, hlabels, hroom⟩ := h
  exact ⟨n, hn, hlabels, by omega⟩

/-- No two of these are the same: no label, the labels in the code and those that come next. -/
theorem Numbered.nodup (h : s.Numbered k) : (0 :: (labelsOf s.code ++ handed s.fn.labelCount k)).Nodup := by
  obtain ⟨n, hn, hlabels, hroom⟩ := h
  have hlt := n.toInt_lt
  obtain ⟨hcount, hperm⟩ := hlabels.exact hn (by omega)
  have hall : (labelsOf s.code ++ handed s.fn.labelCount k).Perm (handed n ((labelsOf s.code).length + k)) := by
    rw [handed_add, hcount]
    exact hperm.append_right _
  rw [List.nodup_cons, hall.mem_iff, hall.nodup_iff]
  exact ⟨zero_notMem_handed hn (by omega), nodup_handed (by omega)⟩

end numbered

/-! ### What lowering leaves as it was -/

/-- From one state to another, code with at most `m` labels was appended, and they were handed out for it.  Of the
function only the counters changed. -/
structure Advances (m : Nat) (s s' : Lowering) : Prop where
  out : ∃ new, s'.code = s.code ++ new ∧ (labelsOf new).length ≤ m ∧
    Labelled s.fn.labelCount s'.fn.labelCount [] (labelsOf new)
  vregs : s.fn.vregCount ≤ s'.fn.vregCount
  slots : s.fn.stackSlots ≤ s'.fn.stackSlots
  fn : s'.fn =
    { s.fn with
      labelCount := s'.fn.labelCount, vregCount := s'.fn.vregCount, stackSlots := s'.fn.stackSlots }

namespace Advances

variable {m m' k : Nat} {s s' s'' : Lowering}

theorem refl (s : Lowering) : Advances 0 s s :=
  ⟨⟨[], by simp, Nat.le_refl _, labelled_old _ []⟩, Int.le_refl _, Int.le_refl _, rfl⟩

theorem trans (h : Advances m s s') (h' : Advances m' s' s'') : Advances (m + m') s s'' := by
  obtain ⟨new, hnew, hfew, hlabels⟩ := h.out
  obtain ⟨more, hmore, hfew', hlabels'⟩ := h'.out
  refine ⟨⟨new ++ more, by rw [hmore, hnew, List.append_assoc], ?_, ?_⟩, Int.le_trans h.vregs h'.vregs,
    Int.le_trans h.slots h'.slots, by rw [h'.fn, h.fn]⟩
  · rw [labelsOf_append, List.length_append]
    exact Nat.add_le_add hfew hfew'
  · rw [labelsOf_append]
    exact hlabels.append hlabels'

theorem weaken (h : Advances m s s') (hm : m ≤ m') : Advances m' s s' := by
  obtain ⟨new, hnew, hfew, hlabels⟩ := h.out
  exact ⟨⟨new, hnew, Nat.le_trans hfew hm, hlabels⟩, h.vregs, h.slots, h.fn⟩

theorem prefix_code (h : Advances m s s') : s.code <+: s'.code := by
  obtain ⟨new, hnew, -⟩ := h.out
  exact ⟨new, hnew.symm⟩

theorem numbered (h : Advances m s s') (hs : s.Numbered (k + m)) : s'.Numbered k := by
  obtain ⟨n, hn, hlabels, hroom⟩ := hs
  obtain ⟨new, hnew, hfew, hlabels'⟩ := h.out
  have hcode : labelsOf s'.code = labelsOf s.code ++ labelsOf new := by rw [hnew, labelsOf_append]
  refine ⟨n, hn, ?_, ?_⟩
  · rw [hcode]
    exact hlabels.append hlabels'
  · rw [hcode, List.length_append]
    omega

/-- Where no label was set, there are the same labels as before. -/
theorem labelsOf_eq (h : Advances 0 s s') : labelsOf s'.code = labelsOf s.code := by
  obtain ⟨new, hnew, hfew, -⟩ := h.out
  rw [hnew, labelsOf_append, List.eq_nil_of_length_eq_zero (Nat.le_zero.mp hfew), List.append_nil]

theorem variadic (h : Advances m s s') : s'.fn.variadic = s.fn.variadic := by rw [h.fn]

end Advances

/-! ### What a step emits -/

/-- Instructions that all are as wanted were appended, and their labels were handed out for them.  What is known
about the entry and the arguments that wait for a call stay, and of the function only the counters change. -/
structure Written (P : Instr → Prop) (s s' : Lowering) : Prop where
  entry : s'.entry = s.entry
  args : s'.args = s.args
  fn : s'.fn =
    { s.fn with
      labelCount := s'.fn.labelCount, vregCount := s'.fn.vregCount, stackSlots := s'.fn.stackSlots }
  vregs : s.fn.vregCount ≤ s'.fn.vregCount
  out : ∃ new, s'.code = s.code ++ new ∧ (∀ i ∈ new, P i) ∧
    Labelled s.fn.labelCount s'.fn.labelCount [] (labelsOf new)

/-- They were appended without handing out a slot. -/
structure Extends (P : Instr → Prop) (s s' : Lowering) : Prop extends Written P s s' where
  slots : s'.fn.stackSlots = s.fn.stackSlots

section written

variable {P R : Instr → Prop} {s s' s'' : Lowering}

theorem Written.refl (s : Lowering) : Written P s s :=
  ⟨rfl, rfl, rfl, Int.le_refl _, [], (List.append_nil _).symm, by simp, labelled_old _ []⟩

theorem Written.trans (h : Written P s s') (h' : Written P s' s'') : Written P s s'' := by
  obtain ⟨new, hnew, hall, hlabels⟩ := h.out
  obtain ⟨more, hmore, hall', hlabels'⟩ := h'.out
  refine ⟨h'.entry.trans h.entry, h'.args.trans h.args, by rw [h'.fn, h.fn],
    Int.le_trans h.vregs h'.vregs, new ++ more, by rw [hmore, hnew, List.append_assoc], fun i hi => ?_, ?_⟩
  · exact (List.mem_append.mp hi).elim (hall i) (hall' i)
  · rw [labelsOf_append]
    exact hlabels.append hlabels'

theorem Written.mono (h : Written P s s') (hP : ∀ i, P i → R i) : Written R s s' := by
  obtain ⟨new, hnew, hall, hlabels⟩ := h.out
  exact ⟨h.entry, h.args, h.fn, h.vregs, new, hnew, fun i hi => hP i (hall i hi), hlabels⟩

theorem Written.prefix_code (h : Written P s s') : s.code <+: s'.code := by
  obtain ⟨new, hnew, -⟩ := h.out
  exact ⟨new, hnew.symm⟩

theorem Written.variadic (h : Written P s s') : s'.fn.variadic = s.fn.variadic := by rw [h.fn]

theorem Extends.refl (s : Lowering) : Extends P s s := ⟨.refl s, rfl⟩

theorem Extends.trans (h : Extends P s s') (h' : Extends P s' s'') : Extends P s s'' :=
  ⟨h.toWritten.trans h'.toWritten, h'.slots.trans h.slots⟩

theorem Extends.mono (h : Extends P s s') (hP : ∀ i, P i → R i) : Extends R s s' :=
  ⟨h.toWritten.mono hP, h.slots⟩

theorem Extends.push {i : Instr} (s : Lowering) (hi : P i) (hlabel : i.label = 0) :
    Extends P s { s with out := s.out.push i } := by
  refine ⟨⟨rfl, rfl, rfl, Int.le_refl _, [i], Array.toList_push, by simpa using hi, ?_⟩, rfl⟩
  rw [labelsOf_of_zero hlabel]
  exact labelled_old _ []

/-- The instruction sets no label. -/
def Unlabelled (i : Instr) : Prop := i.label = 0

theorem Extends.advances_of_le {m : Nat} (h : Extends P s s')
    (hfew : (labelsOf s'.code).length ≤ (labelsOf s.code).length + m) : Advances m s s' := by
  obtain ⟨new, hnew, -, hlabels⟩ := h.out
  rw [hnew, labelsOf_append, List.length_append] at hfew
  exact ⟨⟨new, hnew, by omega, hlabels⟩, h.vregs, Int.le_of_eq h.slots.symm, h.fn⟩

theorem Extends.advances (h : Extends Unlabelled s s') : Advances 0 s s' := by
  obtain ⟨new, hnew, hall, -⟩ := h.out
  refine h.advances_of_le ?_
  rw [hnew, labelsOf_append, labelsOf_eq_nil hall, List.append_nil]
  exact Nat.le_refl _

theorem advances_push {i : Instr} (s : Lowering) (hlabel : i.label = 0) :
    Advances 0 s { s with out := s.out.push i } := Extends.advances (.push s hlabel hlabel)

end written

variable {t : Ty}

section emits

variable {α β γ : Type} {P : Instr → Prop} {low : Int} {b : Build α} {Q : α → Prop} {op : IrOp} {l : List β}
  {src1 src2 : Option Operand} {d : Operand}

/-- From any state in which the registers up to `low` are taken, the step appends instructions that all are as
wanted, and so is what it returns. -/
def EmitsFrom (low : Int) (P : Instr → Prop) (b : Build α) (Q : α → Prop) : Prop :=
  ∀ s, low ≤ s.fn.vregCount → Q (b.run s).1 ∧ Extends P s (b.run s).2

theorem EmitsFrom.mono {R : Instr → Prop} (h : EmitsFrom low P b Q) (hP : ∀ i, P i → R i) : EmitsFrom low R b Q :=
  fun s hs => ⟨(h s hs).1, (h s hs).2.mono hP⟩

theorem emits_pure {a : α} (h : Q a) : EmitsFrom low P (pure a) Q :=
  fun s _ => ⟨h, .refl s⟩

theorem emits_bind {k : α → Build β} {R : β → Prop} (hb : EmitsFrom low P b Q)
    (hk : ∀ a, Q a → EmitsFrom low P (k a) R) : EmitsFrom low P (b >>= k) R := by
  intro s hs
  obtain ⟨hq, hwritten⟩ := hb s hs
  obtain ⟨hr, hwritten'⟩ := hk _ hq (b.run s).2 (Int.le_trans hs hwritten.vregs)
  exact ⟨hr, hwritten.trans hwritten'⟩

theorem emits_emit {dst : Option Operand} (h : P (.ir op dst src1 src2)) :
    EmitsFrom low P (emit op dst src1 src2) fun _ => True :=
  fun s _ => ⟨trivial, .push s h rfl⟩

theorem emits_freshReg (t : Ty) : EmitsFrom low P (freshReg t) fun r => ∃ id, r = .vreg id t ∧ low < id := by
  intro s hs
  have hnext : s.fn.vregCount < s.fn.vregCount + 1 := by omega
  exact ⟨⟨_, rfl, Int.lt_of_le_of_lt hs hnext⟩, ⟨rfl, rfl, rfl, Int.le_of_lt hnext, [],
    (List.append_nil _).symm, by simp, labelled_old _ []⟩, rfl⟩

theorem emits_compute (h : ∀ id, low < id → P (.ir op (Operand.vreg id t) src1 src2)) :
    EmitsFrom low P (compute op t src1 src2) fun r => ∃ id, r = .vreg id t := by
  refine emits_bind (emits_freshReg t) fun r hr => ?_
  obtain ⟨id, rfl, hid⟩ := hr
  exact emits_bind (emits_emit (h id hid)) fun _ _ => emits_pure ⟨id, rfl⟩

theorem emits_forM {f : β → Build Unit} (h : ∀ x ∈ l, EmitsFrom low P (f x) fun _ => True) :
    EmitsFrom low P (l.forM f) fun _ => True := by
  induction l with
  | nil => exact emits_pure trivial
  | cons x rest ih =>
    exact emits_bind (h x (by simp)) fun _ _ => ih fun y hy => h y (by simp [hy])

theorem emits_mapM {f : β → Build γ} (h : ∀ x ∈ l, EmitsFrom low P (f x) fun _ => True) :
    EmitsFrom low P (l.mapM f) fun _ => True := by
  induction l with
  | nil => exact emits_pure trivial
  | cons x rest ih =>
    rw [List.mapM_cons]
    refine emits_bind (h x (by simp)) fun _ _ => ?_
    exact emits_bind (ih fun y hy => h y (by simp [hy])) fun _ _ => emits_pure trivial

theorem emits_foldlM {f : α → β → Build α} {a : α} (ha : Q a) (h : ∀ x ∈ l, ∀ a, Q a → EmitsFrom low P (f a x) Q) :
    EmitsFrom low P (l.foldlM f a) Q := by
  induction l generalizing a with
  | nil => exact emits_pure ha
  | cons x rest ih =>
    exact emits_bind (h x (by simp) a ha) fun b hb => ih hb fun y hy => h y (by simp [hy])

/-- From any state the step only appends code, and sets no label in it. -/
def Appends (b : Build α) : Prop := ∀ s, Extends Unlabelled s (b.run s).2

theorem appends_of (h : ∀ low, EmitsFrom low Unlabelled b fun _ => True) : Appends b :=
  fun s => (h _ s (Int.le_refl _)).2

/-! ### Permitted instructions -/

/-- Instructions with the operation are as wanted if they write a register that is not taken, memory or
nothing. -/
structure Permits (low : Int) (P : Instr → Prop) (op : IrOp) : Prop where
  fresh : ∀ id t a b, low < id → P (.ir op (Operand.vreg id t) a b)
  memory : ∀ (d : Operand) a b, d.isMemory = true → P (.ir op d a b)
  silent : ∀ a b, P (.ir op none a b)

/-- Everything but the markers of a call is as wanted if it writes a register that is not taken, memory or
nothing; so are stores through a pointer. -/
structure Permissive (low : Int) (P : Instr → Prop) : Prop where
  ops : ∀ op, op ≠ .callArgReg → Permits low P op
  through : ∀ d a b, P (.ir .moveToPtr d a b)

theorem permissive_true (low : Int) : Permissive low fun _ => True :=
  ⟨fun _ _ => ⟨fun _ _ _ _ _ => trivial, fun _ _ _ _ => trivial, fun _ _ => trivial⟩, fun _ _ _ => trivial⟩

theorem permissive_unlabelled (low : Int) : Permissive low Unlabelled :=
  ⟨fun _ _ => ⟨fun _ _ _ _ _ => rfl, fun _ _ _ _ => rfl, fun _ _ => rfl⟩, fun _ _ _ => rfl⟩

/-- Writing what has the value of the operand is as wanted, at any type and offset. -/
def Writable (P : Instr → Prop) (d : Operand) : Prop :=
  ∀ d' v : Operand, d'.value = d.value → P (.ir .move d' v none)

theorem writable_unlabelled (d : Operand) : Writable Unlabelled d := fun _ _ _ => rfl

theorem Permits.writable (h : Permits low P .move) (hd : d.isMemory = true) : Writable P d :=
  fun d' _ hvalue => h.memory _ _ _ (by rw [← hd, Operand.isMemory, Operand.isMemory, hvalue])

theorem emits_move (hd : Writable P d) (delta : Int64) (t : Ty) (v : Operand) :
    EmitsFrom low P (move (d.shifted delta t) v) fun _ => True := emits_emit (hd _ v rfl)

theorem emits_compute_fresh (h : ∀ id t a b, low < id → P (.ir op (Operand.vreg id t) a b)) (t : Ty)
    (a b : Option Operand) : EmitsFrom low P (compute op t a b) fun _ => True := by
  refine emits_bind (emits_freshReg t) fun r hr => ?_
  obtain ⟨id, rfl, hid⟩ := hr
  exact emits_bind (emits_emit (h id t a b hid)) fun _ _ => emits_pure trivial

theorem emits_compute_of (h : Permits low P op) (t : Ty) (a b : Option Operand) :
    EmitsFrom low P (compute op t a b) fun _ => True := emits_compute_fresh h.fresh t a b

end emits

/-! ### Executing what is emitted -/

section runs

variable {env : Addresses} {α β γ : Type} {s : Lowering} {w : World} {m n : Nat} {b : Build α}
  {Q Q' : α → Lowering → World → Prop} {op : IrOp} {dst src1 src2 : Option Operand}
  {I : List β → Lowering → World → Prop} {R : World → Prop} {x : BitVec 64} {f : β → Build α}

/-- The step leaves a state, executing the code it emits leaves a world, and the two are as wanted.  The step sets
at most `m` labels. -/
def RunsWith (env : Addresses) (m : Nat) (b : Build α) (s : Lowering) (w : World)
    (Q : α → Lowering → World → Prop) : Prop :=
  ∃ a s' w', b.run s = (a, s') ∧ Advances m s s' ∧
    (∀ code, s'.code <+: code → Executes env code (s.out.size, w) (s'.out.size, w')) ∧ Q a s' w'

/-- The step sets no label. -/
abbrev Runs (env : Addresses) (b : Build α) (s : Lowering) (w : World)
    (Q : α → Lowering → World → Prop) : Prop := RunsWith env 0 b s w Q

theorem RunsWith.mono (h : RunsWith env m b s w Q)
    (hQ : ∀ a s' w', Advances m s s' → Q a s' w' → Q' a s' w') : RunsWith env m b s w Q' := by
  obtain ⟨a, s', w', hrun, hadv, hreach, hq⟩ := h
  exact ⟨a, s', w', hrun, hadv, hreach, hQ _ _ _ hadv hq⟩

theorem RunsWith.weaken (h : RunsWith env m b s w Q) (hm : m ≤ n) : RunsWith env n b s w Q := by
  obtain ⟨a, s', w', hrun, hadv, hreach, hq⟩ := h
  exact ⟨a, s', w', hrun, hadv.weaken hm, hreach, hq⟩

/-- What only appends code leaves the entry alone. -/
theorem RunsWith.and_entry (h : RunsWith env m b s w Q) (hb : Appends b) :
    RunsWith env m b s w fun a s' w' => s'.entry = s.entry ∧ Q a s' w' := by
  obtain ⟨a, s', w', hrun, hadv, hreach, hq⟩ := h
  have hentry := (hb s).entry
  rw [hrun] at hentry
  exact ⟨a, s', w', hrun, hadv, hreach, hentry, hq⟩

theorem runs_pure {a : α} (h : Q a s w) : Runs env (pure a) s w Q :=
  ⟨a, s, w, rfl, .refl s, fun _ _ => .refl, h⟩

theorem runsWith_bind {k : α → Build β} {Q' : β → Lowering → World → Prop} (hb : RunsWith env m b s w Q)
    (hk : ∀ a s' w', Advances m s s' → Q a s' w' → RunsWith env n (k a) s' w' Q') :
    RunsWith env (m + n) (b >>= k) s w Q' := by
  obtain ⟨a, s', w', hrun, hadv, hreach, hq⟩ := hb
  obtain ⟨c, s'', w'', hrun', hadv', hreach', hq'⟩ := hk a s' w' hadv hq
  refine ⟨c, s'', w'', ?_, hadv.trans hadv', fun code hcode => ?_, hq'⟩
  · rw [← hrun', StateT.run_bind, hrun]
    rfl
  · exact (hreach code (hadv'.prefix_code.trans hcode)).trans (hreach' code hcode)

theorem runs_bind {k : α → Build β} {Q' : β → Lowering → World → Prop} (hb : Runs env b s w Q)
    (hk : ∀ a s' w', Advances 0 s s' → Q a s' w' → RunsWith env m (k a) s' w' Q') :
    RunsWith env m (b >>= k) s w Q' := by
  have hbind := runsWith_bind hb hk
  rwa [Nat.zero_add] at hbind

theorem getElem?_of_push {i : Instr} {code : List Instr}
    (h : ({ s with out := s.out.push i } : Lowering).code <+: code) :
    code[s.out.size]? = some i := by
  obtain ⟨rest, rfl⟩ := h
  simp [Lowering.code]

theorem runs_emit {w' : World} {Q : Unit → Lowering → World → Prop} (hjmp : op ≠ .jmp) (hjz : op ≠ .jz)
    (heffect : (Instr.ir op dst src1 src2).effect? env w = some w')
    (hQ : ∀ s', s'.fn = s.fn → s'.entry = s.entry → Q () s' w') : Runs env (emit op dst src1 src2) s w Q := by
  refine ⟨(), { s with out := s.out.push (.ir op dst src1 src2) }, w', rfl,
    advances_push s rfl, fun code hcode => ?_, hQ _ rfl rfl⟩
  have hi := getElem?_of_push hcode
  have hstep := executes_effect op hi rfl hjmp hjz heffect
  simpa using hstep

theorem runs_freshReg {Q : Operand → Lowering → World → Prop}
    (hQ : ∀ s', s'.fn = { s.fn with vregCount := s.fn.vregCount + 1 } → s'.entry = s.entry →
      Q (.vreg (s.fn.vregCount + 1) t) s' w) : Runs env (freshReg t) s w Q :=
  ⟨_, _, w, rfl, (emits_freshReg t s (Int.le_refl _)).2.advances, fun _ _ => .refl, hQ _ rfl rfl⟩

/-- A fresh register was handed out, and holds a word. -/
structure Computed (s : Lowering) (w : World) (t : Ty) (x : BitVec 64) (r : Operand)
    (s' : Lowering) (w' : World) : Prop where
  operand : r = .vreg (s.fn.vregCount + 1) t
  fn : s'.fn = { s.fn with vregCount := s.fn.vregCount + 1 }
  entry : s'.entry = s.entry
  world : w' = w.set (s.fn.vregCount + 1) (t.fit x)

theorem runs_compute (hjmp : op ≠ .jmp) (hjz : op ≠ .jz) (ht : t.span ≤ 8)
    (heffect : (Instr.ir op (Operand.vreg (s.fn.vregCount + 1) t) src1 src2).effect? env w
      = w.put? env (.vreg (s.fn.vregCount + 1) t) x) : Runs env (compute op t src1 src2) s w (Computed s w t x) := by
  refine runs_bind (Q := fun r s' w' => r = .vreg (s.fn.vregCount + 1) t ∧
    s'.fn = { s.fn with vregCount := s.fn.vregCount + 1 } ∧ s'.entry = s.entry ∧ w' = w)
    (runs_freshReg fun s' hfn hentry => ⟨rfl, hfn, hentry, rfl⟩) ?_
  rintro r s' w - ⟨rfl, hfn, hentry, rfl⟩
  rw [World.put?_vreg _ ht] at heffect
  refine runs_bind (Q := fun _ s'' w'' => s''.fn = s'.fn ∧ s''.entry = s'.entry ∧
    w'' = w.set (s.fn.vregCount + 1) (t.fit x))
    (runs_emit hjmp hjz heffect fun s'' hfn' hentry' => ⟨hfn', hentry', rfl⟩) ?_
  rintro - s'' _ - ⟨hfn', hentry', rfl⟩
  exact runs_pure ⟨rfl, hfn'.trans hfn, hentry'.trans hentry, rfl⟩

section compute

variable {a b : Operand} {y z : BitVec 64}

theorem runs_compute_move (ht : t.span ≤ 8) (ha : w.value? env a = some x) :
    Runs env (compute .move t a none) s w (Computed s w t x) :=
  runs_compute (by decide) (by decide) ht (Instr.effect?_move ha)

theorem runs_compute_movePregClass (ht : t.span ≤ 8) (ha : w.value? env a = some x) :
    Runs env (compute .movePregClass t a none) s w (Computed s w t x) :=
  runs_compute (by decide) (by decide) ht (Instr.effect?_movePregClass ha)

theorem runs_compute_addressOf (ht : t.span ≤ 8) (ha : env.of? a = some x) :
    Runs env (compute .addressOf t a none) s w (Computed s w t x) :=
  runs_compute (by decide) (by decide) ht (Instr.effect?_addressOf ha)

theorem runs_compute_indirect (ht : t.span ≤ 8) (ha : w.value? env a = some x) :
    Runs env (compute .indirect t a none) s w (Computed s w t (w.memory.load x t.span)) :=
  runs_compute (by decide) (by decide) ht (Instr.effect?_indirect ha)

theorem runs_compute_binary (op : IrOp) (ht : t.span ≤ 8) (ha : w.value? env a = some x)
    (hb : w.value? env b = some y) (hz : op.combine? a.type x y = some z) :
    Runs env (compute op t a b) s w (Computed s w t z) :=
  runs_compute (by rintro rfl; exact nomatch hz) (by rintro rfl; exact nomatch hz) ht
    (Instr.effect?_binary ha hb hz)

end compute

/-- Only an instruction was emitted, and memory was written. -/
structure Stored (s : Lowering) (w : World) (a : BitVec 64) (n : Nat) (x : BitVec 64)
    (s' : Lowering) (w' : World) : Prop where
  fn : s'.fn = s.fn
  entry : s'.entry = s.entry
  world : w' = w.store a n x

theorem runs_move {o a : Operand} {p : BitVec 64} (ho : env.of? o = some p) (d : Int64) (ht : t.span ≤ 8)
    (ha : w.value? env a = some x) :
    Runs env (move (o.shifted d t) a) s w fun _ => Stored s w (p + d.toBitVec) t.span x :=
  runs_emit (by decide) (by decide)
    ((Instr.effect?_move ha).trans (World.put?_memory (Addresses.of?_shifted ho d t) ht x))
    fun _ hfn hentry => ⟨hfn, hentry, rfl⟩

/-- What one element of a list keeps up, going along the list keeps up.  A loop over the list takes the step of its
first element and goes on with the others. -/
theorem runsWith_loop {g : List β → Build γ} {c : γ} {k : α → γ → γ} (hnil : g [] = pure c)
    (hcons : ∀ x rest, g (x :: rest) = f x >>= fun a => g rest >>= fun c => pure (k a c)) (l : List β)
    (hstep : ∀ done x todo s w, l = done ++ x :: todo → I done s w →
      RunsWith env m (f x) s w fun _ s' w' => I (done ++ [x]) s' w') (hI : I [] s w) :
    RunsWith env (l.length * m) (g l) s w fun _ s' w' => I l s' w' := by
  have key : ∀ todo done s w, l = done ++ todo → I done s w →
      RunsWith env (todo.length * m) (g todo) s w fun _ s' w' => I l s' w' := by
    intro todo
    induction todo with
    | nil =>
      intro done s w hl hinv
      rw [List.append_nil] at hl
      subst hl
      rw [hnil, List.length_nil, Nat.zero_mul]
      exact runs_pure hinv
    | cons x todo ih =>
      intro done s w hl hinv
      rw [hcons, List.length_cons, Nat.add_mul, Nat.one_mul, Nat.add_comm]
      refine runsWith_bind (hstep done x todo s w hl hinv) fun a s' w' _ hinv' => ?_
      exact runsWith_bind (ih (done ++ [x]) s' w' (by simpa using hl) hinv') fun _ _ _ _ hq =>
        runs_pure (Q := fun _ s' w' => I l s' w') hq
  exact key l [] s w rfl hI

theorem runsWith_forM {f : β → Build Unit} (l : List β)
    (hstep : ∀ done x todo s w, l = done ++ x :: todo → I done s w →
      RunsWith env m (f x) s w fun _ s' w' => I (done ++ [x]) s' w') (hI : I [] s w) :
    RunsWith env (l.length * m) (l.forM f) s w fun _ s' w' => I l s' w' :=
  runsWith_loop (g := fun l => l.forM f) (c := ()) (k := fun _ _ => ()) rfl (fun _ _ => by simp) l hstep hI

theorem runs_forM {f : β → Build Unit} (l : List β) (hstep : ∀ done x todo s w, l = done ++ x :: todo → I done s w →
      Runs env (f x) s w fun _ s' w' => I (done ++ [x]) s' w') (hI : I [] s w) :
    Runs env (l.forM f) s w fun _ s' w' => I l s' w' :=
  runsWith_forM l hstep hI

theorem runs_mapM (l : List β) (hstep : ∀ done x todo s w, l = done ++ x :: todo → I done s w →
      Runs env (f x) s w fun _ s' w' => I (done ++ [x]) s' w') (hI : I [] s w) :
    Runs env (l.mapM f) s w fun _ s' w' => I l s' w' :=
  runsWith_loop List.mapM_nil (fun _ _ => List.mapM_cons) l hstep hI

/-! ### Two paths -/

/-- The step leaves a state, and executing the code it emits leads out of it to a label, with a world
that is as wanted. -/
def Escapes (env : Addresses) (b : Build α) (s : Lowering) (w : World) (label : Int)
    (R : World → Prop) : Prop :=
  ∃ w', R w' ∧ ∀ code, (b.run s).2.code <+: code → ∀ target, positionOf? code label = some target →
    Executes env code (s.out.size, w) (target, w')

theorem escapes_bind_left {k : α → Build β} {label : Int} (hb : Escapes env b s w label R) (hk : ∀ a, Appends (k a)) :
    Escapes env (b >>= k) s w label R := by
  obtain ⟨w', hR, hreach⟩ := hb
  refine ⟨w', hR, fun code hcode target htarget => hreach code ?_ target htarget⟩
  exact (hk _ _).advances.prefix_code.trans hcode

theorem escapes_bind_right {k : α → Build β} {label : Int} (hb : Runs env b s w Q) (happends : ∀ a, Appends (k a))
    (hk : ∀ a s' w', Advances 0 s s' → Q a s' w' → Escapes env (k a) s' w' label R) :
    Escapes env (b >>= k) s w label R := by
  obtain ⟨a, s', w', hrun, hadv, hreach, hq⟩ := hb
  obtain ⟨w'', hR, hreach'⟩ := hk a s' w' hadv hq
  refine ⟨w'', hR, fun code hcode target htarget => ?_⟩
  have hstate : ((b >>= k).run s).2 = ((k a).run s').2 := by rw [StateT.run_bind, hrun]; rfl
  rw [hstate] at hcode
  exact (hreach code ((happends a s').advances.prefix_code.trans hcode)).trans
    (hreach' code hcode target htarget)

section jz

variable {o : Operand} {label : Int}

theorem runs_jz {Q : Unit → Lowering → World → Prop} (hx : w.value? env o = some x) (hne : x ≠ 0)
    (hQ : ∀ s', s'.fn = s.fn → s'.entry = s.entry → Q () s' w) :
    Runs env (emit .jz none o (Operand.label label)) s w Q := by
  refine ⟨(), { s with out := s.out.push (.ir .jz none o (Operand.label label)) }, w, rfl,
    advances_push s rfl, fun code hcode => ?_, hQ _ rfl rfl⟩
  simpa using executes_jz_on (getElem?_of_push hcode) hx hne

theorem escapes_jz (hx : w.value? env o = some 0) (ho : ∀ n, o.value ≠ .label n) (hR : R w) :
    Escapes env (emit .jz none o (Operand.label label)) s w label R :=
  ⟨w, hR, fun _ hcode _ htarget => executes_jz_taken (getElem?_of_push hcode) hx ho htarget⟩

end jz

/-- A main path, and another one for when the main path jumps to the label it is given. -/
def orElse (main : Int → Build Unit) (other : Build Unit) : Build Unit := do
  let overflow ← freshLabel
  let done ← freshLabel
  main overflow
  emit .jmp none (Operand.label done) none
  label overflow
  other
  label done

/-- The state in which the main path starts: two labels were handed out. -/
def twoLabels (s : Lowering) : Lowering :=
  { s with fn := { s.fn with labelCount := s.fn.labelCount + 1 + 1 } }

namespace OrElse

/-- The label where the other path starts. -/
def overflow (s : Lowering) : Int := (s.fn.labelCount + 1).toInt

/-- The label where both paths end. -/
def done (s : Lowering) : Int := (s.fn.labelCount + 1 + 1).toInt

/-- After a jump over the other path and the label where that path starts. -/
def atOther (s : Lowering) (overflow done : Int) : Lowering :=
  { s with out := (s.out.push (.ir .jmp none (Operand.label done) none)).push (.target overflow) }

/-- Past the end of both paths. -/
def atEnd (s : Lowering) (done : Int) : Lowering := { s with out := s.out.push (.target done) }

variable {main : Int → Build Unit} {other : Build Unit}

theorem run_eq (main : Int → Build Unit) (other : Build Unit) (s : Lowering) :
    (orElse main other).run s = ((), atEnd (other.run (atOther ((main (overflow s)).run
      s.twoLabels).2 (overflow s) (done s))).2 (done s)) := rfl

/-- The parts of the code of two paths: before the main path, up to its end, up to the end of the
other path, and past both. -/
structure Parts (P : Instr → Prop) (s s₁ s₂ s' : Lowering) : Prop where
  main : Extends P s.twoLabels s₁
  other : Extends P (atOther s₁ (overflow s) (done s)) s₂
  last : s' = atEnd s₂ (done s)

variable {P : Instr → Prop} {s₁ s₂ s' : Lowering} {code : List Instr}

theorem Parts.code_last (h : Parts P s s₁ s₂ s') : s₂.code <+: s'.code := by
  rw [h.last]
  exact ⟨[.target (done s)], by simp [atEnd, Lowering.code]⟩

theorem Parts.code_other (h : Parts P s s₁ s₂ s') : (atOther s₁ (overflow s) (done s)).code <+: s'.code :=
  h.other.prefix_code.trans h.code_last

theorem Parts.code_main (h : Parts P s s₁ s₂ s') : s₁.code <+: s'.code := by
  refine List.IsPrefix.trans ⟨[.ir .jmp none (Operand.label (done s)) none, .target (overflow s)], ?_⟩ h.code_other
  simp [atOther, Lowering.code]

theorem Parts.mono {R : Instr → Prop} (h : Parts P s s₁ s₂ s') (hP : ∀ i, P i → R i) : Parts R s s₁ s₂ s' :=
  ⟨h.main.mono hP, h.other.mono hP, h.last⟩

/-- Two paths set the two labels that they hand out. -/
theorem Parts.extends (h : Parts P s s₁ s₂ s') (hjmp : ∀ n, P (.ir .jmp none (Operand.label n) none))
    (htarget : ∀ n, P (.target n)) : Extends P s s' := by
  obtain ⟨h₁, h₂, rfl⟩ := h
  obtain ⟨new, hnew, hall, hlabels⟩ := h₁.out
  obtain ⟨more, hmore, hall', hlabels'⟩ := h₂.out
  refine ⟨⟨h₂.entry.trans h₁.entry, h₂.args.trans h₁.args, ?_, Int.le_trans h₁.vregs h₂.vregs,
    new ++ [.ir .jmp none (Operand.label (done s)) none, .target (overflow s)] ++ more ++ [.target (done s)], ?_,
    fun i hi => ?_, ?_⟩, h₂.slots.trans h₁.slots⟩
  · show s₂.fn = _
    rw [h₂.fn, show (atOther s₁ _ _).fn = s₁.fn from rfl, h₁.fn]
    rfl
  · simp only [atEnd, Lowering.code, Array.toList_push] at hmore hnew ⊢
    rw [hmore]
    simp only [atOther, Array.toList_push]
    rw [hnew]
    simp [twoLabels]
  · simp only [List.mem_append, List.mem_cons, List.not_mem_nil, or_false] at hi
    rcases hi with ((hi | rfl | rfl) | hi) | rfl
    · exact hall i hi
    · exact hjmp _
    · exact htarget _
    · exact hall' i hi
    · exact htarget _
  · have htargets := (labelled_target s.fn.labelCount).append (labelled_target (s.fn.labelCount + 1))
    refine (htargets.append (hlabels.append hlabels')).perm ?_
    rw [labelsOf_append, labelsOf_append, labelsOf_append, labelsOf_cons,
      labelsOf_of_zero (i := .ir _ _ _ _) rfl, List.nil_append, List.perm_iff_count]
    simp only [List.count_append, overflow, done]
    omega

theorem Parts.labelsOf_main (h : Parts Unlabelled s s₁ s₂ s') : labelsOf s₁.code = labelsOf s.code :=
  h.main.advances.labelsOf_eq

theorem Parts.labelsOf_other (h : Parts Unlabelled s s₁ s₂ s') :
    labelsOf s₂.code = labelsOf s.code ++ labelsOf [.target (overflow s)] := by
  rw [h.other.advances.labelsOf_eq, ← h.labelsOf_main]
  simp [atOther, Lowering.code, labelsOf, Instr.ir]

theorem Parts.advances (h : Parts Unlabelled s s₁ s₂ s') : Advances 2 s s' := by
  have hextends := (h.mono (R := fun _ => True) fun _ _ => trivial).extends (fun _ => trivial) fun _ => trivial
  refine hextends.advances_of_le ?_
  have hcode : s'.code = s₂.code ++ [.target (done s)] := by rw [h.last]; simp [atEnd, Lowering.code]
  have hoverflow := length_labelsOf_singleton (.target (overflow s))
  have hdone := length_labelsOf_singleton (.target (done s))
  rw [hcode, labelsOf_append, h.labelsOf_other, List.length_append, List.length_append]
  omega

/-- The two labels are labels, they are not the same, and neither is in the code already. -/
structure Fresh (s : Lowering) : Prop where
  overflow_ne : overflow s ≠ 0
  done_ne : done s ≠ 0
  ne : done s ≠ overflow s
  overflow_notMem : overflow s ∉ labelsOf s.code
  done_notMem : done s ∉ labelsOf s.code

theorem fresh_of_numbered (hs : s.Numbered 2) : Fresh s := by
  have hnodup := hs.nodup
  have hnext : handed s.fn.labelCount 2 = [overflow s, done s] := by
    simp only [overflow, done, Int64.add_assoc]
    rfl
  rw [hnext] at hnodup
  simp only [List.nodup_cons, List.nodup_append, List.mem_append, List.mem_cons, List.not_mem_nil, or_false,
    not_or] at hnodup
  obtain ⟨⟨-, hoverflow, hdone⟩, -, ⟨hne, -⟩, hmem⟩ := hnodup
  exact ⟨Ne.symm hoverflow, Ne.symm hdone, Ne.symm hne, fun h => hmem _ h _ (.inl rfl) rfl,
    fun h => hmem _ h _ (.inr rfl) rfl⟩

theorem Parts.position_other (h : Parts Unlabelled s s₁ s₂ s') (hs : s.Numbered 2) (hcode : s'.code <+: code) :
    positionOf? code (overflow s) = some (s₁.out.size + 1) := by
  obtain ⟨rest, rfl⟩ := h.code_other.trans hcode
  have hlabels : labelsOf (s₁.code ++ [.ir .jmp none (Operand.label (done s)) none]) = labelsOf s.code := by
    rw [labelsOf_append, labelsOf_of_zero (i := .ir _ _ _ _) rfl, List.append_nil, h.labelsOf_main]
  have hfresh := fresh_of_numbered hs
  have hnotMem := hfresh.overflow_notMem
  rw [← hlabels] at hnotMem
  have hpos := positionOf?_append _ rest (label_ne_of_notMem hfresh.overflow_ne hnotMem)
    (i := .target (overflow s)) rfl
  simpa [atOther, Lowering.code] using hpos

theorem Parts.position_end (h : Parts Unlabelled s s₁ s₂ s') (hs : s.Numbered 2) (hcode : s'.code <+: code) :
    positionOf? code (done s) = some s₂.out.size := by
  obtain ⟨rest, rfl⟩ := hcode
  have hfresh := fresh_of_numbered hs
  have hnotMem : done s ∉ labelsOf s₂.code := by
    rw [h.labelsOf_other]
    intro hmem
    rcases List.mem_append.mp hmem with hmem | hmem
    · exact hfresh.done_notMem hmem
    · exact hfresh.ne (List.mem_singleton.mp (List.mem_of_mem_filter hmem))
  have hpos := positionOf?_append s₂.code rest (label_ne_of_notMem hfresh.done_ne hnotMem)
    (i := .target (done s)) rfl
  rw [h.last]
  simpa [atEnd, Lowering.code] using hpos

theorem Parts.executes_end (h : Parts P s s₁ s₂ s') (hcode : s'.code <+: code)
    (w : World) : Executes env code (s₂.out.size, w) (s'.out.size, w) := by
  rw [h.last] at hcode ⊢
  have hi := getElem?_of_push hcode
  simpa [atEnd] using executes_effect .nop hi rfl (by decide) (by decide) rfl

end OrElse

variable {main : Int → Build Unit} {other : Build Unit} {P : World → Prop}

theorem orElse_parts (hmain : ∀ n, Appends (main n)) (hother : Appends other) :
    OrElse.Parts Unlabelled s ((main (OrElse.overflow s)).run s.twoLabels).2
      (other.run (OrElse.atOther ((main (OrElse.overflow s)).run s.twoLabels).2 (OrElse.overflow s)
        (OrElse.done s))).2
      ((orElse main other).run s).2 :=
  ⟨hmain _ _, hother _, by rw [OrElse.run_eq]⟩

theorem runs_orElse_main (hs : s.Numbered 2) (hmain : ∀ n, Appends (main n)) (hother : Appends other)
    (h : Runs env (main (OrElse.overflow s)) s.twoLabels w fun _ _ w' => P w') :
    RunsWith env 2 (orElse main other) s w fun _ _ w' => P w' := by
  have parts := orElse_parts (s := s) hmain hother
  obtain ⟨a, s₁, w', hrun, -, hreach, hP⟩ := h
  rw [hrun] at parts
  refine ⟨(), ((orElse main other).run s).2, w', rfl, parts.advances, fun code hcode => ?_, hP⟩
  have hjmp : code[s₁.out.size]? = some (.ir .jmp none (Operand.label (OrElse.done s)) none) := by
    obtain ⟨rest, rfl⟩ := parts.code_other.trans hcode
    simp [OrElse.atOther, Lowering.code]
  exact ((hreach code (parts.code_main.trans hcode)).trans
    (executes_jmp hjmp (parts.position_end hs hcode))).trans (parts.executes_end hcode w')

theorem runs_orElse_other (hs : s.Numbered 2) (hmain : ∀ n, Appends (main n)) (hother : Appends other)
    (hescape : Escapes env (main (OrElse.overflow s)) s.twoLabels w (OrElse.overflow s) R)
    (h : ∀ s' w', s.fn.vregCount ≤ s'.fn.vregCount → R w' →
      Runs env other s' w' fun _ _ w'' => P w'') : RunsWith env 2 (orElse main other) s w fun _ _ w' => P w' := by
  have parts := orElse_parts (s := s) hmain hother
  obtain ⟨w', hR, hreach⟩ := hescape
  generalize hs₁ : ((main (OrElse.overflow s)).run s.twoLabels).2 = s₁ at parts hreach
  obtain ⟨a, s₂, w'', hrun, -, hreach', hP⟩ :=
    h (OrElse.atOther s₁ (OrElse.overflow s) (OrElse.done s)) w' parts.main.vregs hR
  rw [hrun] at parts
  refine ⟨(), ((orElse main other).run s).2, w'', rfl, parts.advances, fun code hcode => ?_, hP⟩
  have hlabel : code[s₁.out.size + 1]? = some (.target (OrElse.overflow s)) := by
    obtain ⟨rest, rfl⟩ := parts.code_other.trans hcode
    simp [OrElse.atOther, Lowering.code]
  have hstep : Executes env code (s₁.out.size + 1, w') (s₁.out.size + 1 + 1, w') :=
    executes_effect .nop hlabel rfl (by decide) (by decide) rfl
  have hstart : (OrElse.atOther s₁ (OrElse.overflow s) (OrElse.done s)).out.size
      = s₁.out.size + 1 + 1 := by simp [OrElse.atOther]
  have hrest := hreach' code (parts.code_last.trans hcode)
  rw [hstart] at hrest
  exact (((hreach code (parts.code_main.trans hcode) _ (parts.position_other hs hcode)).trans
    hstep).trans hrest).trans (parts.executes_end hcode w'')

end runs

theorem emits_orElse {low : Int} {P : Instr → Prop} (hP : Permissive low P) (htarget : ∀ n, P (.target n))
    {main : Int → Build Unit} {other : Build Unit} (hmain : ∀ n, EmitsFrom low P (main n) fun _ => True)
    (hother : EmitsFrom low P other fun _ => True) : EmitsFrom low P (orElse main other) fun _ => True := by
  intro s hs
  have h₁ := (hmain (OrElse.overflow s) s.twoLabels hs).2
  have h₂ := (hother (OrElse.atOther ((main (OrElse.overflow s)).run s.twoLabels).2 (OrElse.overflow s)
    (OrElse.done s)) (Int.le_trans hs h₁.vregs)).2
  have parts : OrElse.Parts P s _ _ ((orElse main other).run s).2 := ⟨h₁, h₂, by rw [OrElse.run_eq]⟩
  exact ⟨trivial, parts.extends (fun _ => (hP.ops .jmp (by decide)).silent _ _) htarget⟩

end Codegen.Lowering
