/-
Executing generic code.

A world is the contents of the virtual registers, each a word of 64 bits, and of memory.  Reading
an operand cuts a word to the type it is read at and widens it again; writing one cuts it to the
type it is written at.  The instructions executed are those that parameters, copies and variable
arguments are lowered to; any other is stuck, and so is one at a type of more than eight bytes.

Code is executed by position.  A jump goes to the first instruction with its label, so code
that is emitted piece by piece with fresh labels can be followed while it is still being
emitted: what comes later never changes where a jump goes.
-/
import Codegen.Proofs.Memory
import Mathlib.Logic.Relation
import Mathlib.Logic.Function.Basic

namespace Codegen

/-- Where things are in memory: the frame base, and what symbols name. -/
structure Addresses where
  frame : BitVec 64
  symbol : String → BitVec 64

namespace Addresses

variable (env : Addresses)

/-- The address of an operand in memory. -/
def of? (o : Operand) : Option (BitVec 64) :=
  match o.value with
  | .slot index => some (env.frame + (Frame.slotOffset index + o.offset).toBitVec)
  | .global symbol => some (env.symbol symbol + o.offset.toBitVec)
  | _ => none

variable {env} {o : Operand} {a : BitVec 64}

theorem of?_shifted (h : env.of? o = some a) (d : Int64) (t : Ty) :
    env.of? (o.shifted d t) = some (a + d.toBitVec) := by
  obtain ⟨value, type, offset⟩ := o
  cases value with
  | slot index =>
    obtain rfl := Option.some.inj h
    simp [of?, Operand.shifted, BitVec.add_assoc]
  | global symbol =>
    obtain rfl := Option.some.inj h
    simp [of?, Operand.shifted, BitVec.add_assoc]
  | _ => exact nomatch h

theorem exists_of? (env : Addresses) (h : o.isMemory = true) : ∃ p, env.of? o = some p := by
  have hsome : (env.of? o).isSome = o.isMemory := by
    obtain ⟨value, type, offset⟩ := o
    cases value <;> rfl
  exact Option.isSome_iff_exists.mp (hsome.trans h)

end Addresses

/-- The contents of registers and memory. -/
@[ext] structure World where
  regs : Int → BitVec 64
  memory : Memory

variable {v : Int}

namespace World

variable (w : World) {u : Int}

/-- Put a word in a register. -/
def set (v : Int) (x : BitVec 64) : World := { w with regs := Function.update w.regs v x }

/-- Put the low bytes of a word in memory. -/
def store (a : BitVec 64) (n : Nat) (x : BitVec 64) : World :=
  { w with memory := w.memory.store a n x }

@[simp] theorem memory_set (v : Int) (x : BitVec 64) : (w.set v x).memory = w.memory := rfl
@[simp] theorem regs_set_self (v : Int) (x : BitVec 64) : (w.set v x).regs v = x := by simp [set]
@[simp] theorem regs_store (a : BitVec 64) (n : Nat) (x : BitVec 64) :
    (w.store a n x).regs = w.regs := rfl
@[simp] theorem memory_store (a : BitVec 64) (n : Nat) (x : BitVec 64) :
    (w.store a n x).memory = w.memory.store a n x := rfl

theorem regs_set_of_ne (h : u ≠ v) (x : BitVec 64) : (w.set v x).regs u = w.regs u :=
  Function.update_of_ne h _ _

/-- The value of an operand, at its type. -/
def value? (env : Addresses) (o : Operand) : Option (BitVec 64) :=
  if 8 < o.type.span then none
  else match o.value with
    | .vreg v => some (o.type.fit (w.regs v.id))
    | .const n => some (o.type.fit n.toBitVec)
    | _ => (env.of? o).map fun a => o.type.fit (w.memory.load a o.type.span)

/-- Put a word where an operand is, at the operand's type. -/
def put? (env : Addresses) (o : Operand) (x : BitVec 64) : Option World :=
  if 8 < o.type.span then none
  else match o.value with
    | .vreg v => some (w.set v.id (o.type.fit x))
    | _ => (env.of? o).map fun a => w.store a o.type.span x

variable {w} {env : Addresses} {t : Ty} {o : Operand} {a : BitVec 64}

@[simp] theorem value?_vreg (id : Int) (ht : t.span ≤ 8) :
    w.value? env (.vreg id t) = some (t.fit (w.regs id)) := if_neg (Nat.not_lt.mpr ht)

@[simp] theorem value?_const (n : Int64) (ht : t.span ≤ 8) :
    w.value? env (.const n t) = some (t.fit n.toBitVec) := if_neg (Nat.not_lt.mpr ht)

theorem value?_memory (h : env.of? o = some a) (ht : o.type.span ≤ 8) :
    w.value? env o = some (o.type.fit (w.memory.load a o.type.span)) := by
  rw [value?, if_neg (Nat.not_lt.mpr ht), h]
  obtain ⟨value, type, offset⟩ := o
  cases value <;> first | rfl | exact nomatch h

theorem value?_shifted (h : env.of? o = some a) (d : Int64) (ht : t.span ≤ 8) :
    w.value? env (o.shifted d t) = some (t.fit (w.memory.load (a + d.toBitVec) t.span)) :=
  value?_memory (Addresses.of?_shifted h d t) ht

@[simp] theorem put?_vreg (id : Int) (ht : t.span ≤ 8) (x : BitVec 64) :
    w.put? env (.vreg id t) x = some (w.set id (t.fit x)) := if_neg (Nat.not_lt.mpr ht)

theorem put?_memory (h : env.of? o = some a) (ht : o.type.span ≤ 8) (x : BitVec 64) :
    w.put? env o x = some (w.store a o.type.span x) := by
  rw [put?, if_neg (Nat.not_lt.mpr ht), h]
  obtain ⟨value, type, offset⟩ := o
  cases value <;> first | rfl | exact nomatch h

end World

/-! ### Steps -/

/-- What a binary operation makes of two words.  A comparison reads them as numbers the way the
type of its sources says. -/
def IrOp.combine? (op : IrOp) (t : Ty) (x y : BitVec 64) : Option (BitVec 64) :=
  match op with
  | .bshl => some (x <<< y.toNat)
  | .bshr => some (x >>> y.toNat)
  | .lt => some (if (if t.isUnsigned then x.ult y else x.slt y) then 1 else 0)
  | op => if op.isBinaryWord then some (op.word x y) else Option.none

/-- Two worlds agree on the registers up to a number. -/
def World.Agrees (n : Int) (w w' : World) : Prop := ∀ v ≤ n, w'.regs v = w.regs v

namespace World.Agrees

variable {n k : Int} {w w' w'' : World}

theorem refl (n : Int) (w : World) : Agrees n w w := fun _ _ => rfl

theorem trans (h : Agrees n w w') (h' : Agrees n w' w'') : Agrees n w w'' :=
  fun v hv => (h' v hv).trans (h v hv)

theorem mono (h : Agrees n w w') (hk : k ≤ n) : Agrees k w w' := fun v hv => h v (Int.le_trans hv hk)

theorem set (h : Agrees n w w') (hv : n < v) (x : BitVec 64) : Agrees n w (w'.set v x) :=
  fun u hu => (w'.regs_set_of_ne (by omega) x).trans (h u hu)

theorem store (h : Agrees n w w') (a : BitVec 64) (k : Nat) (x : BitVec 64) :
    Agrees n w (w'.store a k x) := h

end World.Agrees

/-- Registers up to a number, and bytes outside a run, are as before. -/
structure World.Confined (n : Int) (a : BitVec 64) (k : Nat) (w w' : World) : Prop where
  regs : w.Agrees n w'
  memory : ∀ p, ¬ Memory.Within a k p → w'.memory p = w.memory p

namespace World.Confined

variable {n n' : Int} {a : BitVec 64} {k d j : Nat} {w w' w'' : World}

theorem refl (n : Int) (a : BitVec 64) (k : Nat) (w : World) : Confined n a k w w :=
  ⟨.refl n w, fun _ _ => rfl⟩

theorem trans (h : Confined n a k w w') (h' : Confined n a k w' w'') : Confined n a k w w'' :=
  ⟨h.regs.trans h'.regs, fun p hp => (h'.memory p hp).trans (h.memory p hp)⟩

theorem widen (h : Confined n (a + BitVec.ofNat 64 d) j w w') (hk : d + j ≤ k) :
    Confined n a k w w' := ⟨h.regs, fun p hp => h.memory p fun hq => hp (hq.of_part hk)⟩

theorem mono (h : Confined n a k w w') (hn : n' ≤ n) : Confined n' a k w w' :=
  ⟨h.regs.mono hn, h.memory⟩

theorem set (h : Confined n a k w w') (hv : n < v) (x : BitVec 64) :
    Confined n a k w (w'.set v x) := ⟨h.regs.set hv x, h.memory⟩

theorem store (h : Confined n a k w w') (hj : d + j ≤ k) (x : BitVec 64) :
    Confined n a k w (w'.store (a + BitVec.ofNat 64 d) j x) :=
  ⟨h.regs, fun p hp => (w'.memory.store_of_not_within x fun hq => hp (hq.of_part hj)).trans
    (h.memory p hp)⟩

end World.Confined

section

variable (env : Addresses)

/-- What an instruction that goes on to the next one does to the world. -/
def Instr.effect? (i : Instr) (w : World) : Option World :=
  match i.op, i.dst, i.src1, i.src2 with
  | .ir .nop, _, _, _ => some w
  | .ir .move, some d, some a, none => (w.value? env a).bind (w.put? env d)
  | .ir .movePregClass, some d, some a, none => (w.value? env a).bind (w.put? env d)
  | .ir .addressOf, some d, some a, none => (env.of? a).bind (w.put? env d)
  | .ir .indirect, some d, some p, none =>
    (w.value? env p).bind fun a => w.put? env d (w.memory.load a d.type.span)
  | .ir .moveToPtr, some p, _, some v =>
    (w.value? env p).bind fun a => (w.value? env v).map fun x => w.store a v.type.span x
  | .ir op, some d, some a, some b =>
    (w.value? env a).bind fun x => (w.value? env b).bind fun y =>
      (op.combine? a.type x y).bind (w.put? env d)
  | _, _, _, _ => none

variable {env} {w : World} {d a b : Operand} {x y z : BitVec 64} {o : Option Operand}

theorem Instr.effect?_move (ha : w.value? env a = some x) :
    (Instr.ir .move d a none).effect? env w = w.put? env d x := by
  show (w.value? env a).bind (w.put? env d) = _
  rw [ha, Option.bind_some]

theorem Instr.effect?_movePregClass (ha : w.value? env a = some x) :
    (Instr.ir .movePregClass d a none).effect? env w = w.put? env d x := by
  show (w.value? env a).bind (w.put? env d) = _
  rw [ha, Option.bind_some]

theorem Instr.effect?_addressOf (ha : env.of? a = some x) :
    (Instr.ir .addressOf d a none).effect? env w = w.put? env d x := by
  show (env.of? a).bind (w.put? env d) = _
  rw [ha, Option.bind_some]

theorem Instr.effect?_indirect (ha : w.value? env a = some x) :
    (Instr.ir .indirect d a none).effect? env w = w.put? env d (w.memory.load x d.type.span) := by
  show ((w.value? env a).bind fun p => w.put? env d (w.memory.load p d.type.span)) = _
  rw [ha, Option.bind_some]

theorem Instr.effect?_moveToPtr (ha : w.value? env a = some x) (hb : w.value? env b = some y) :
    (Instr.ir .moveToPtr a o b).effect? env w = some (w.store x b.type.span y) := by
  show ((w.value? env a).bind fun p => (w.value? env b).map fun z => w.store p b.type.span z) = _
  rw [ha, Option.bind_some, hb, Option.map_some]

theorem Instr.effect?_binary {op : IrOp} (ha : w.value? env a = some x) (hb : w.value? env b = some y)
    (hz : op.combine? a.type x y = some z) : (Instr.ir op d a b).effect? env w = w.put? env d z := by
  have hop : (Instr.ir op d a b).effect? env w = (w.value? env a).bind fun x =>
      (w.value? env b).bind fun y => (op.combine? a.type x y).bind (w.put? env d) := by
    cases op <;> first | rfl | exact nomatch hz
  rw [hop, ha, Option.bind_some, hb, Option.bind_some, hz, Option.bind_some]

variable (env) (code : List Instr)

/-- The position of a label. -/
def positionOf? (label : Int) : Option Nat := code.findIdx? (·.label == label)

/-- Execute the instruction at a position. -/
def step? : Nat × World → Option (Nat × World)
  | (pc, w) => code[pc]?.bind fun i =>
    match i.op with
    | .ir .jmp => (i.jumpTarget?.bind (positionOf? code)).map (·, w)
    | .ir .jz => (i.src1.bind (w.value? env)).bind fun x =>
      if x = 0 then (i.jumpTarget?.bind (positionOf? code)).map (·, w) else some (pc + 1, w)
    | _ => (i.effect? env w).map (pc + 1, ·)

/-- Execution gets from one position and world to another. -/
def Executes : Nat × World → Nat × World → Prop :=
  Relation.ReflTransGen fun c d => step? env code c = some d

end

variable {env : Addresses} {code : List Instr} {i : Instr} {label : Int} {pc target : Nat} {w w' : World}

/-- The labels of code, in order. -/
def labelsOf (code : List Instr) : List Int := (code.map (·.label)).filter (· ≠ 0)

@[simp] theorem labelsOf_append (code more : List Instr) :
    labelsOf (code ++ more) = labelsOf code ++ labelsOf more := by simp [labelsOf]

theorem labelsOf_cons (i : Instr) (code : List Instr) : labelsOf (i :: code) = labelsOf [i] ++ labelsOf code :=
  labelsOf_append [i] code

theorem labelsOf_congr {j : Instr} (h : i.label = j.label) : labelsOf [i] = labelsOf [j] := by
  simp [labelsOf, h]

theorem labelsOf_of_zero (h : i.label = 0) : labelsOf [i] = [] := by simp [labelsOf, h]

theorem length_labelsOf_singleton (i : Instr) : (labelsOf [i]).length ≤ 1 := List.length_filter_le _ [i.label]

theorem labelsOf_eq_nil (h : ∀ i ∈ code, i.label = 0) : labelsOf code = [] := by simpa [labelsOf] using h

theorem label_ne_of_notMem {l : Int} (hzero : l ≠ 0) (hl : l ∉ labelsOf code) : ∀ i ∈ code, i.label ≠ l := by
  rintro i hi rfl
  exact hl (List.mem_filter.mpr ⟨List.mem_map_of_mem hi, by simpa using hzero⟩)

/-- Labels that come later do not count. -/
theorem positionOf?_append (before rest : List Instr) (hbefore : ∀ j ∈ before, j.label ≠ label)
    (hi : i.label = label) : positionOf? (before ++ i :: rest) label = some before.length := by
  have hnone : before.findIdx? (·.label == label) = none := by
    rw [List.findIdx?_eq_none_iff]
    intro j hj
    simpa using hbefore j hj
  rw [positionOf?, List.findIdx?_append, hnone, List.findIdx?_cons]
  simp [hi]

theorem executes_effect (op : IrOp) (hi : code[pc]? = some i) (hop : i.op = .ir op) (hjmp : op ≠ .jmp)
    (hjz : op ≠ .jz) (heffect : i.effect? env w = some w') : Executes env code (pc, w) (pc + 1, w') := by
  refine .single ?_
  show code[pc]?.bind _ = _
  rw [hi, Option.bind_some, hop, heffect]
  cases op <;> first | rfl | contradiction

theorem executes_jmp (hi : code[pc]? = some (.ir .jmp none (Operand.label label) none))
    (ht : positionOf? code label = some target) : Executes env code (pc, w) (target, w) := by
  refine .single ?_
  show code[pc]?.bind _ = _
  rw [hi, Option.bind_some]
  show ((Instr.jumpTarget? (.ir .jmp none (Operand.label label) none)).bind _).map _ = _
  rw [show Instr.jumpTarget? (.ir .jmp none (Operand.label label) none) = some label from rfl,
    Option.bind_some, ht]
  rfl

section jz

variable {o : Operand} {x : BitVec 64}

theorem step?_jz (hi : code[pc]? = some (.ir .jz none o (Operand.label label)))
    (hx : w.value? env o = some x) :
    step? env code (pc, w)
      = if x = 0 then (((Instr.ir .jz none o (Operand.label label)).jumpTarget?).bind
          (positionOf? code)).map (·, w) else some (pc + 1, w) := by
  show code[pc]?.bind _ = _
  rw [hi, Option.bind_some]
  show ((some o).bind (w.value? env)).bind _ = _
  rw [Option.bind_some, hx, Option.bind_some]

theorem executes_jz_on (hi : code[pc]? = some (.ir .jz none o (Operand.label label)))
    (hx : w.value? env o = some x) (hne : x ≠ 0) : Executes env code (pc, w) (pc + 1, w) :=
  .single (by rw [step?_jz hi hx, if_neg hne])

theorem executes_jz_taken (hi : code[pc]? = some (.ir .jz none o (Operand.label label)))
    (hx : w.value? env o = some 0) (ho : ∀ n, o.value ≠ .label n) (ht : positionOf? code label = some target) :
    Executes env code (pc, w) (target, w) := by
  have htarget : (Instr.ir .jz none o (Operand.label label)).jumpTarget? = some label := by
    obtain ⟨value, type, offset⟩ := o
    cases value <;> first | rfl | exact absurd rfl (ho _)
  refine .single ?_
  rw [step?_jz hi hx, if_pos rfl, htarget, Option.bind_some, ht]
  rfl

end jz

end Codegen
