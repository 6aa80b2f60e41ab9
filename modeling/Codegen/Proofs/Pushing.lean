/-
Pushing arguments.

A call pushes the arguments that go to the stack, the last one first, and pads between them.  What
is followed here is the stack pointer, as a distance from the place where it ends up, and the bytes
that are written.  Offsets were given out upwards and are pushed downwards, so after each argument
the distance is the offset of that argument, and everything pushed before lies above it.

The area must be free when the call starts: arguments that are read from memory lie outside.
-/
import Codegen.Proofs.Carrying
import Codegen.Proofs.Entry

namespace Codegen

open Memory

/-! ### What a push does -/

variable {a base : BitVec 64} {i : Instr} {args : List Operand} {env : Addresses}

namespace Memory

/-- Put bytes at an address. -/
def write (m : Memory) (a : BitVec 64) (n : Nat) (bytes : Nat → BitVec 8) : Memory := fun p =>
  if Within a n p then bytes (p - a).toNat else m p

variable {n i : Nat} {p : BitVec 64}

theorem write_apply (m : Memory) (a : BitVec 64) (bytes : Nat → BitVec 8) (hi : i < n) (h64 : i < 2 ^ 64) :
    m.write a n bytes (a + BitVec.ofNat 64 i) = bytes i := by
  rw [write, if_pos (within_add a hi h64), toNat_add_sub a h64]

theorem write_of_not_within (m : Memory) (bytes : Nat → BitVec 8) (h : ¬ Within a n p) :
    m.write a n bytes p = m p := if_neg h

end Memory

/-- The bytes of an operand: those in memory, or those of the word that it stands for. -/
def Operand.byteAt (env : Addresses) (value : Operand → BitVec 64) (m : Memory) (v : Operand) (k : Nat) :
    BitVec 8 :=
  match env.of? v with
  | some a => m (a + BitVec.ofNat 64 k)
  | none => byteOf (value v) k

/-- How many bytes pushing an operand takes. -/
def Operand.pushWidth (v : Operand) : Nat := if v.type.isLongDouble then 16 else 8

/-- What an instruction does to the stack pointer and to the memory that it points into: padding lowers
the pointer, and an argument is stored where the lowered pointer points. -/
def Instr.push (env : Addresses) (value : Operand → BitVec 64) (st : BitVec 64 × Memory) (i : Instr) :
    BitVec 64 × Memory :=
  match i.op, i.src1 with
  | .ir .argStackPadding, _ => (st.1 - 8, st.2)
  | .ir .arg, some v =>
    (st.1 - BitVec.ofNat 64 v.pushWidth,
      st.2.write (st.1 - BitVec.ofNat 64 v.pushWidth) v.pushWidth (v.byteAt env value st.2))
  | _, _ => st

theorem add_ofNat_sub (a : BitVec 64) (d n : Nat) :
    a + BitVec.ofNat 64 (d + n) - BitVec.ofNat 64 n = a + BitVec.ofNat 64 d := by
  rw [BitVec.ofNat_add, ← BitVec.add_assoc, BitVec.add_sub_cancel]

namespace Lowering

/-- The step appends this code, in which no label is set, and does nothing else. -/
structure WritesJust (b : Build Unit) (new : List Instr) : Prop where
  run : ∀ s, b.run s = ((), { s with out := s.out ++ new.toArray })
  labels : ∀ i ∈ new, i.label = 0

section writes

variable {b c : Build Unit} {new more : List Instr}

theorem writesJust_pure : WritesJust (pure ()) [] := ⟨fun _ => rfl, by simp⟩

theorem writesJust_bind (hb : WritesJust b new) (hc : WritesJust c more) :
    WritesJust (b >>= fun _ => c) (new ++ more) := by
  refine ⟨fun s => ?_, fun i hi => (List.mem_append.mp hi).elim (hb.labels i) (hc.labels i)⟩
  rw [StateT.run_bind, hb.run s]
  exact (hc.run _).trans (by simp)

theorem writesJust_forM {β : Type} {f : β → Build Unit} {code : β → Instr} (h : ∀ x, WritesJust (f x) [code x])
    (l : List β) : WritesJust (l.forM f) (l.map code) := by
  induction l with
  | nil => exact writesJust_pure
  | cons x rest ih => exact writesJust_bind (h x) ih

theorem writesJust_emit (op : IrOp) (dst src1 src2 : Option Operand) :
    WritesJust (emit op dst src1 src2) [.ir op dst src1 src2] := ⟨fun _ => rfl, by simp [Instr.ir]⟩

theorem writesJust_when {p : Prop} [Decidable p] (h : WritesJust b new) :
    WritesJust (if p then b else pure ()) (if p then new else []) := by
  split
  · exact h
  · exact writesJust_pure

end writes

/-! ### The code that pushes -/

/-- What pads between the end of a value and what is above it. -/
def pads (top bottom : Int64) : List Instr :=
  (List.range (((top - bottom).toInt.toNat + 7) / 8)).map fun _ => .ir .argStackPadding none none none

/-- What pushes a value, the last part of an aggregate first. -/
def pushedParts (v : Operand) : List Instr :=
  if v.type.isAggregate then
    (List.range ((alignUp v.type.size 8).toInt.toNat / 8)).reverse.map fun i =>
      .ir .arg none (v.shifted (Int64.ofNat (8 * i)) .long) none
  else [.ir .arg none v none]

/-- What pushes the stack arguments, given last first, below `top`. -/
def pushedArgs : Int64 → List (Operand × Placement) → List Instr
  | _, [] => []
  | top, (v, p) :: rest =>
    match p.stackOffset? with
    | none => pushedArgs top rest
    | some offset => pads top (offset + alignUp v.type.size 8) ++ (pushedParts v ++ pushedArgs offset rest)

theorem writesJust_push (v : Operand) : WritesJust (push v) (pushedParts v) := by
  unfold push pushedParts
  split
  · exact writesJust_forM (fun i => writesJust_emit _ _ _ _) _
  · exact writesJust_emit _ _ _ _

theorem writesJust_pushArgs (top : Int64) (l : List (Operand × Placement)) :
    WritesJust (pushArgs top l) (pushedArgs top l) := by
  induction l generalizing top with
  | nil => exact writesJust_pure
  | cons x rest ih =>
    unfold pushArgs pushedArgs
    cases x.2.stackOffset? with
    | none => exact ih top
    | some offset =>
      exact writesJust_bind (writesJust_forM (fun _ => writesJust_emit _ _ _ _) _)
        (writesJust_bind (writesJust_push x.1) (ih offset))

/-- The instruction pushes a value or padding, and writes nothing else. -/
def IsPush (i : Instr) : Prop := (i.op = .ir .arg ∨ i.op = .ir .argStackPadding) ∧ i.dst = none

variable {v : Operand} {top : Int64} {t : Ty}

theorem isPush_pushedParts (hi : i ∈ pushedParts v) : IsPush i := by
  unfold pushedParts at hi
  split at hi
  · obtain ⟨_, -, rfl⟩ := List.mem_map.mp hi
    exact ⟨.inl rfl, rfl⟩
  · rw [List.mem_singleton.mp hi]
    exact ⟨.inl rfl, rfl⟩

theorem isPush_pushedArgs {l : List (Operand × Placement)} (hi : i ∈ pushedArgs top l) : IsPush i := by
  induction l generalizing top with
  | nil => exact nomatch hi
  | cons x rest ih =>
    unfold pushedArgs at hi
    split at hi
    · exact ih hi
    · rcases List.mem_append.mp hi with hi | hi
      · obtain ⟨_, -, rfl⟩ := List.mem_map.mp hi
        exact ⟨.inr rfl, rfl⟩
      · exact (List.mem_append.mp hi).elim isPush_pushedParts ih

section pushes

variable {value : Operand → BitVec 64} {d : Nat} {m : Memory}

theorem push_padding : (Instr.ir .argStackPadding none none none).push env value
    (base + BitVec.ofNat 64 (d + 8), m) = (base + BitVec.ofNat 64 d, m) := by
  show (_ - 8, m) = _
  rw [show (8 : BitVec 64) = BitVec.ofNat 64 8 from rfl, add_ofNat_sub]

theorem push_arg (v : Operand) : (Instr.ir .arg none v none).push env value
    (base + BitVec.ofNat 64 (d + v.pushWidth), m) = (base + BitVec.ofNat 64 d,
      m.write (base + BitVec.ofNat 64 d) v.pushWidth (v.byteAt env value m)) := by
  show (_ - _, write m (_ - _) _ _) = _
  rw [add_ofNat_sub]

/-- Padding all the way from one distance to another. -/
theorem foldl_push_pads (env : Addresses) (value : Operand → BitVec 64) (base : BitVec 64) (m : Memory)
    {bottom : Int64} {t : Nat} (htop : top.toInt = t) (hbottom : bottom.toInt = d) (hle : d ≤ t)
    (hmod : (t - d) % 8 = 0) : (pads top bottom).foldl (Instr.push env value)
      (base + BitVec.ofNat 64 t, m) = (base + BitVec.ofNat 64 d, m) := by
  have hloop : ∀ l : List Nat, (l.map fun _ => Instr.ir .argStackPadding none none none).foldl
      (Instr.push env value) (base + BitVec.ofNat 64 (d + 8 * l.length), m) = (base + BitVec.ofNat 64 d, m) := by
    intro l
    induction l with
    | nil => rfl
    | cons x l ih =>
      rw [List.map_cons, List.foldl_cons, List.length_cons, Nat.mul_succ, ← Nat.add_assoc, push_padding, ih]
  have hcount : ((top - bottom).toInt.toNat + 7) / 8 = (t - d) / 8 := by
    rw [toInt_sub_of_le (by omega) (by omega)]
    omega
  have h := hloop (List.range ((t - d) / 8))
  rw [List.length_range, show d + 8 * ((t - d) / 8) = t by omega, ← hcount] at h
  exact h

end pushes

/-! ### One argument -/

/-- The bytes that a value of the type takes on the stack, without those that align it. -/
def stackWidth (t : Ty) : Nat := (t.size.toInt.toNat + 7) / 8 * 8

/-- The argument can be passed: its type is known, and what fits no register is in memory. -/
structure Passable (v : Operand) : Prop where
  type : v.type.IsArgument
  inMemory : v.type.isAggregate = true ∨ v.type.isLongDouble = true → v.isMemory = true

/-- What is known of the arguments of a call while they are pushed: they can be passed, and what is in
memory is not in the area that is pushed to. -/
structure CanPush (env : Addresses) (base : BitVec 64) (n : Nat) (v : Operand) : Prop extends Passable v where
  apart : ∀ a, env.of? v = some a → Apart a v.type.size.toInt.toNat base n

/-- All bytes of an argument are on the stack, `d` bytes from the base. -/
def Pushed (env : Addresses) (value : Operand → BitVec 64) (m₀ : Memory) (base : BitVec 64) (v : Operand)
    (d : Nat) (m : Memory) : Prop :=
  ∀ k < v.type.size.toInt.toNat, m (base + BitVec.ofNat 64 (d + k)) = v.byteAt env value m₀ k

/-- Outside the area memory is as it was when the call started. -/
def FreeArea (m₀ : Memory) (base : BitVec 64) (n : Nat) (m : Memory) : Prop :=
  ∀ q, ¬ Within base n q → m q = m₀ q

section

variable {value : Operand → BitVec 64} {m₀ m m' : Memory} {n d k size : Nat}

/-- What is written inside the area leaves the rest as it was. -/
theorem FreeArea.of_part (h : FreeArea m₀ base n m) (hk : d + k ≤ n)
    (hm' : ∀ q, ¬ Within (base + BitVec.ofNat 64 d) k q → m' q = m q) : FreeArea m₀ base n m' :=
  fun q hq => (hm' q fun hin => hq (hin.of_part hk)).trans (h q hq)

/-- An argument is what it was when the call started. -/
theorem CanPush.byteAt_eq (hv : CanPush env base n v) (hm : FreeArea m₀ base n m)
    (hk : k < v.type.size.toInt.toNat) : v.byteAt env value m k = v.byteAt env value m₀ k := by
  unfold Operand.byteAt
  cases ha : env.of? v with
  | none => rfl
  | some a =>
    have hsize := v.type.size.toInt_lt
    exact hm _ (hv.apart a ha _ (within_add a hk (by omega)))

theorem pushWidth_eq (ht : v.type.IsArgument) (hagg : v.type.isAggregate = false) :
    v.pushWidth = stackWidth v.type ∧ v.type.size.toInt.toNat ≤ stackWidth v.type := by
  have htype : ∀ t : Ty, t.IsArgument → t.isAggregate = false →
      (if t.isLongDouble then 16 else 8) = stackWidth t := by
    intro t ht hagg
    cases ht with
    | int w sign => cases w <;> cases sign <;> decide
    | pointer t => exact show 8 = ((8 : Int64).toInt.toNat + 7) / 8 * 8 by decide
    | float k => cases k <;> decide
    | aggregate h => exact absurd h (by simp [hagg])
  exact ⟨htype v.type ht hagg, by unfold stackWidth; omega⟩

theorem foldl_push_eightbytes (value : Operand → BitVec 64) (ha : env.of? v = some a)
    (hapart : Apart a size base n) (hsize : size < 2 ^ 63) (k : Nat) (hk : d + 8 * k ≤ n)
    (hm : FreeArea m₀ base n m) :
    ∃ m', ((List.range k).reverse.map fun i => .ir .arg none (v.shifted (Int64.ofNat (8 * i)) .long) none).foldl
        (Instr.push env value) (base + BitVec.ofNat 64 (d + 8 * k), m) = (base + BitVec.ofNat 64 d, m') ∧
      (∀ i < 8 * k, i < size → m' (base + BitVec.ofNat 64 (d + i)) = m₀ (a + BitVec.ofNat 64 i)) ∧
      ∀ q, ¬ Within (base + BitVec.ofNat 64 d) (8 * k) q → m' q = m q := by
  induction k generalizing m with
  | zero => exact ⟨m, rfl, fun i hi => absurd hi (Nat.not_lt_zero _), fun _ _ => rfl⟩
  | succ k ih =>
    -- the eightbyte that is pushed first lies above the others
    let part := v.shifted (Int64.ofNat (8 * k)) .long
    let m₁ := m.write (base + BitVec.ofNat 64 (d + 8 * k)) 8 (part.byteAt env value m)
    have hpart : ∀ i, part.byteAt env value m i = m (a + BitVec.ofNat 64 (8 * k + i)) := by
      intro i
      have hof : env.of? part = some (a + BitVec.ofNat 64 (8 * k)) := Addresses.of?_shifted ha _ _
      rw [Operand.byteAt, hof, ← add_ofNat_add]
    have hrest : ∀ q, ¬ Within (base + BitVec.ofNat 64 (d + 8 * k)) 8 q → m₁ q = m q :=
      fun q hq => write_of_not_within _ _ hq
    obtain ⟨m', hpushes, hbytes, hother⟩ := ih (by omega) (hm.of_part (by omega) hrest)
    refine ⟨m', ?_, fun i hi hlt => ?_, fun q hq => ?_⟩
    · have hfirst : (Instr.ir .arg none part none).push env value (base + BitVec.ofNat 64 (d + 8 * k + 8), m)
          = (base + BitVec.ofNat 64 (d + 8 * k), m₁) := push_arg part
      rw [List.range_succ, List.reverse_append, ← hpushes, ← hfirst]
      rfl
    · by_cases hk' : i < 8 * k
      · exact hbytes i hk' hlt
      · have hnot : ¬ Within (base + BitVec.ofNat 64 d) (8 * k) (base + BitVec.ofNat 64 (d + i)) := by
          rw [← add_ofNat_add, within_add_iff _ (by omega)]
          exact hk'
        have hread : m (a + BitVec.ofNat 64 i) = m₀ (a + BitVec.ofNat 64 i) :=
          hm _ (hapart _ (within_add a hlt (by omega)))
        obtain ⟨j, rfl⟩ : ∃ j, i = 8 * k + j := ⟨i - 8 * k, by omega⟩
        rw [hother _ hnot, ← Nat.add_assoc, ← add_ofNat_add]
        exact (write_apply _ _ _ (by omega) (by omega)).trans ((hpart j).trans hread)
    · rw [hother q fun hin => hq (hin.mono (by omega))]
      refine hrest q fun hin => hq ?_
      rw [← add_ofNat_add] at hin
      exact hin.of_part (by omega)

/-- **Pushing an argument puts its bytes where the stack pointer then points.** -/
theorem foldl_push_parts (value : Operand → BitVec 64) (hv : CanPush env base n v) (hd : d + stackWidth v.type ≤ n)
    (hn : n < 2 ^ 63)
    (hm : FreeArea m₀ base n m) :
    ∃ m', (pushedParts v).foldl (Instr.push env value) (base + BitVec.ofNat 64 (d + stackWidth v.type), m)
        = (base + BitVec.ofNat 64 d, m') ∧
      Pushed env value m₀ base v d m' ∧
      ∀ q, ¬ Within (base + BitVec.ofNat 64 d) (stackWidth v.type) q → m' q = m q := by
  have hsize := v.type.size.toInt_lt
  unfold pushedParts
  by_cases hagg : v.type.isAggregate = true
  · obtain ⟨a, ha⟩ := Addresses.exists_of? env (hv.inMemory (.inl hagg))
    have hcount : (alignUp v.type.size 8).toInt.toNat / 8 * 8 = stackWidth v.type := by
      have hwidth : stackWidth v.type = (v.type.size.toInt.toNat + 7) / 8 * 8 := rfl
      rw [toInt_alignUp_eight hv.type.size_nonneg (by omega)]
      omega
    rw [if_pos hagg, ← hcount, Nat.mul_comm]
    rw [← hcount, Nat.mul_comm] at hd
    obtain ⟨m', hpushes, hbytes, hother⟩ :=
      foldl_push_eightbytes value ha (hv.apart a ha) (by omega) _ hd hm
    refine ⟨m', hpushes, fun k hk => ?_, hother⟩
    rw [hbytes k (by unfold stackWidth at hcount; omega) hk, Operand.byteAt, ha]
  · obtain ⟨hwidth, hle⟩ := pushWidth_eq hv.type (by simpa using hagg)
    rw [if_neg hagg, ← hwidth]
    refine ⟨_, push_arg v, fun k hk => ?_, fun q hq => write_of_not_within _ _ hq⟩
    rw [← add_ofNat_add, write_apply _ _ _ (by omega) (by omega)]
    exact hv.byteAt_eq hm hk

/-! ### All arguments -/

/-- The distance of the stack pointer after the arguments were pushed: the offset of the last one. -/
def bottom : Int64 → List (Operand × Placement) → Int64
  | top, [] => top
  | top, (_, p) :: rest => bottom (p.stackOffset?.getD top) rest

theorem bottom_append (top : Int64) (l l' : List (Operand × Placement)) :
    bottom top (l ++ l') = bottom (bottom top l) l' := by
  induction l generalizing top with
  | nil => rfl
  | cons x l ih => exact ih _

theorem pushedArgs_append (top : Int64) (l l' : List (Operand × Placement)) :
    pushedArgs top (l ++ l') = pushedArgs top l ++ pushedArgs (bottom top l) l' := by
  induction l generalizing top with
  | nil => rfl
  | cons x l ih =>
    obtain ⟨v, p⟩ := x
    rw [List.cons_append, pushedArgs, pushedArgs, bottom]
    cases p.stackOffset? with
    | none => exact ih top
    | some offset =>
      dsimp only [Option.getD_some]
      rw [ih offset, List.append_assoc, List.append_assoc]

end

/-- The offset of a value that is placed on the stack, and all that then is known about it. -/
theorem stackOffset?_add {a : Allocation} (ha : a.InBounds) (ht : 0 ≤ t.size.toInt)
    (hfit : a.offset.toInt + Allocation.room t ≤ 2 ^ 63 - 1) :
    ((a.add t).1.stackOffset? = none ∧ (a.add t).2.offset = a.offset) ∨
      ((a.add t).1.stackOffset? = some (a.start t) ∧ a.offset.toInt ≤ (a.start t).toInt ∧
        (a.start t).toInt % 8 = 0 ∧
        (a.start t + alignUp t.size 8).toInt = (a.start t).toInt + stackWidth t ∧
        (a.add t).2.offset = a.start t + alignUp t.size 8) := by
  have hnonneg := ha.nonneg
  have hoffset? : (a.add t).1.stackOffset? = Placement.stackOffset? ⟨t, (a.add t).1.locations⟩ := rfl
  unfold Allocation.room at hfit
  rcases Allocation.add_cases ha t with ⟨cs, -, -, hlocations, -, hoffset⟩ | ⟨-, -, hplace⟩
  · exact .inl ⟨by rw [hoffset?, hlocations, stackOffset?_registers], hoffset⟩
  · rcases hplace with ⟨-, -, hlocations, hoffset⟩ | ⟨-, hlocations, hoffset⟩
    · exact .inl ⟨by rw [hoffset?, hlocations]; rfl, hoffset⟩
    · obtain ⟨hle, hge, hmod⟩ := Allocation.start_bounds ha (by omega) t
      have hround := toInt_alignUp_eight ht (by omega)
      have hstart : (0 : Int64) ≤ a.start t := Int64.le_iff_toInt_le.mpr (Int.le_trans hnonneg hle)
      refine .inr ⟨by rw [hoffset?, hlocations]; exact if_pos hstart, hle, hmod, ?_, hoffset⟩
      rw [toInt_add_of_nonneg (by omega) (by omega) (by omega)]
      unfold stackWidth
      omega

/-- Every argument that was placed on the stack is there, and none lies below the distance. -/
def AllPushed (env : Addresses) (value : Operand → BitVec 64) (m₀ : Memory) (base : BitVec 64) (d : Nat)
    (l : List (Operand × Placement)) (m : Memory) : Prop :=
  ∀ x ∈ l, ∀ offset, x.2.stackOffset? = some offset →
    (d : Int) ≤ offset.toInt ∧ Pushed env value m₀ base x.1 offset.toInt.toNat m

/-- **Pushing the arguments puts each of them at its offset.** -/
theorem foldl_push_args (value : Operand → BitVec 64) {m₀ m : Memory} {n : Nat} (top : Int64) (hn : n < 2 ^ 63)
    {a : Allocation} (ha : a.InBounds) (hargs : ∀ v ∈ args, CanPush env base n v)
    (hfit : a.offset.toInt + (args.map fun v => Allocation.room v.type).sum ≤ 2 ^ 63 - 1)
    (htop : (a.addAll (args.map (·.type))).2.offset.toInt ≤ top.toInt) (hmod : top.toInt % 8 = 0)
    (hle : top.toInt ≤ n) (hm : FreeArea m₀ base n m) :
    ∃ d : Nat, ∃ m', (bottom top (args.zip (a.addAll (args.map (·.type))).1).reverse).toInt = d ∧
      a.offset.toInt ≤ d ∧ (d : Int) ≤ top.toInt ∧ d % 8 = 0 ∧
      (pushedArgs top (args.zip (a.addAll (args.map (·.type))).1).reverse).foldl (Instr.push env value)
        (base + BitVec.ofNat 64 top.toInt.toNat, m) = (base + BitVec.ofNat 64 d, m') ∧
      AllPushed env value m₀ base d (args.zip (a.addAll (args.map (·.type))).1) m' ∧
      ∀ q, ¬ Within (base + BitVec.ofNat 64 d) (top.toInt.toNat - d) q → m' q = m q := by
  induction args generalizing a with
  | nil =>
    have hnonneg := ha.nonneg
    have htop : a.offset.toInt ≤ top.toInt := htop
    refine ⟨top.toInt.toNat, m, ?_, by omega, by omega, by omega, rfl, ?_, fun _ _ => rfl⟩
    · show top.toInt = _
      omega
    · intro x hx
      cases hx
  | cons v args ih =>
    rw [List.map_cons, List.sum_cons] at hfit
    have hv := hargs v (by simp)
    have hsize := hv.type.size_nonneg
    obtain ⟨hbounds, -, hroom⟩ := ha.add hsize (show a.offset.toInt + Allocation.room v.type ≤ _ by omega)
    obtain ⟨d, m₁, hd, hoffset, hdle, hdmod, hpushes, hall, hrest⟩ := ih hbounds
      (fun u hu => hargs u (by simp [hu])) (by omega) htop
    let p := (a.add v.type).1
    let others := args.zip ((a.add v.type).2.addAll (args.map (·.type))).1
    have hzip : (v :: args).zip (a.addAll ((v :: args).map (·.type))).1 = (v, p) :: others := rfl
    rw [hzip, List.reverse_cons, bottom_append, pushedArgs_append, List.foldl_append]
    change (bottom top others.reverse).toInt = _ at hd
    rcases stackOffset?_add ha hsize (show a.offset.toInt + Allocation.room v.type ≤ _ by omega) with
      ⟨hnone, hsame⟩ | ⟨hsome, hstart, hstart8, hend, hsame⟩
    · -- the argument is not on the stack
      have hbottom : bottom (bottom top others.reverse) [(v, p)] = bottom top others.reverse := by
        show ((a.add v.type).1.stackOffset?).getD _ = _
        rw [hnone]
        rfl
      have hlast : pushedArgs (bottom top others.reverse) [(v, p)] = [] := by
        simp only [pushedArgs, p, hnone]
      rw [hbottom, hlast]
      refine ⟨d, m₁, hd, by rw [← hsame]; exact hoffset, hdle, hdmod, hpushes,
        fun x hx offset hx' => ?_, hrest⟩
      rcases List.mem_cons.mp hx with rfl | hx
      · exact absurd (hnone.symm.trans hx') (by simp)
      · exact hall x hx offset hx'
    · -- it goes below all the others
      have hbottom : bottom (bottom top others.reverse) [(v, p)] = a.start v.type := by
        show ((a.add v.type).1.stackOffset?).getD _ = _
        rw [hsome]
        rfl
      have hlast : pushedArgs (bottom top others.reverse) [(v, p)] =
          pads (bottom top others.reverse) (a.start v.type + alignUp v.type.size 8) ++ pushedParts v := by
        simp only [pushedArgs, p, hsome, List.append_nil]
      have hnonneg := ha.nonneg
      obtain ⟨e, he⟩ : ∃ e : Nat, (a.start v.type).toInt = e := ⟨(a.start v.type).toInt.toNat, by omega⟩
      have hwidth : stackWidth v.type % 8 = 0 := by unfold stackWidth; omega
      have hbelow : e + stackWidth v.type ≤ d := by
        rw [hsame] at hoffset
        omega
      have hfree : FreeArea m₀ base n m₁ := hm.of_part (by omega) hrest
      obtain ⟨m', hpush, hon, hother⟩ := foldl_push_parts value (d := e) hv (by omega) hn hfree
      have hpad := foldl_push_pads env value base m₁ hd (hend.trans (by omega)) hbelow (by omega)
      rw [hbottom, hlast]
      refine ⟨e, m', he, by omega, by omega, by omega, by rw [hpushes, List.foldl_append, hpad, hpush],
        fun x hx offset hx' => ?_, fun q hq => ?_⟩
      · rcases List.mem_cons.mp hx with rfl | hx
        · obtain rfl := Option.some.inj (hsome.symm.trans hx')
          rw [he]
          exact ⟨Int.le_refl _, hon⟩
        · obtain ⟨habove, hon'⟩ := hall x hx offset hx'
          refine ⟨by omega, fun k hk => ?_⟩
          have hlt := offset.toInt_lt
          have hlt' := x.1.type.size.toInt_lt
          have hnot : ¬ Within (base + BitVec.ofNat 64 e) (stackWidth v.type)
              (base + BitVec.ofNat 64 (offset.toInt.toNat + k)) := by
            rw [show offset.toInt.toNat + k = e + (offset.toInt.toNat + k - e) by omega, ← add_ofNat_add,
              within_add_iff _ (by omega)]
            omega
          rw [hother _ hnot]
          exact hon' k hk
      · have hd : base + BitVec.ofNat 64 d = base + BitVec.ofNat 64 e + BitVec.ofNat 64 (d - e) := by
          rw [add_ofNat_add, show e + (d - e) = d by omega]
        rw [hother q fun hin => hq (hin.mono (by omega))]
        refine hrest q fun hin => hq ?_
        rw [hd] at hin
        exact hin.of_part (by omega)

/-- The first argument on the stack has offset zero, so the stack pointer comes down all the way. -/
theorem bottom_eq_zero {a : Allocation} (ha : a.InBounds) (hargs : ∀ v ∈ args, v.type.IsArgument)
    (hzero : a.offset.toInt = 0) (hfit : (args.map fun v => Allocation.room v.type).sum ≤ 2 ^ 63 - 1)
    (htop : (a.addAll (args.map (·.type))).2.offset.toInt = 0 → top.toInt = 0) :
    (bottom top (args.zip (a.addAll (args.map (·.type))).1).reverse).toInt = 0 := by
  induction args generalizing a with
  | nil => exact htop hzero
  | cons v args ih =>
    rw [List.map_cons, List.sum_cons] at hfit
    have hsize := (hargs v (by simp)).size_nonneg
    have hroom : a.offset.toInt + Allocation.room v.type ≤ 2 ^ 63 - 1 := by omega
    have hzip : (v :: args).zip (a.addAll ((v :: args).map (·.type))).1
        = (v, (a.add v.type).1) :: args.zip ((a.add v.type).2.addAll (args.map (·.type))).1 := rfl
    rw [hzip, List.reverse_cons, bottom_append, bottom, bottom]
    rcases stackOffset?_add ha hsize hroom with ⟨hnone, hsame⟩ | ⟨hsome, -⟩
    · rw [hnone]
      exact ih (ha.add hsize hroom).1 (fun u hu => hargs u (by simp [hu])) (by rw [hsame]; exact hzero)
        (by omega) htop
    · rw [hsome]
      rcases v.type.max_eight_align with ⟨halign, -⟩ | ⟨halign, -⟩
      · rw [Allocation.start_of_align_le ha (by omega) halign]
        exact hzero
      · rw [Option.getD_some, Allocation.toInt_start_of_align ha (by omega) halign, hzero]
        rfl

end Lowering

/-! ### The size of the area -/

namespace Allocation

/-- The largest alignment is one that the stack has. -/
def StackAligned (a : Allocation) : Prop := a.biggestAlign = 8 ∨ a.biggestAlign = 16

variable {a : Allocation} {ts : List Ty}

theorem stackAligned_firstOf (result : Ty) : (Lowering.firstOf result).StackAligned := by
  unfold Lowering.firstOf
  split <;> exact .inl rfl

theorem StackAligned.add (h : a.StackAligned) (ha : a.InBounds) (t : Ty) : (a.add t).2.StackAligned := by
  unfold StackAligned at h ⊢
  rcases placeInRegisters_eq (t := t) ha with ⟨cs, -, -, hplace⟩ | ⟨-, hplace⟩
  · have hsame : (a.add t).2.biggestAlign = a.biggestAlign := by
      simp only [Allocation.add, place, hplace]
      exact biggestAlign_foldl_take cs a
    rw [hsame]
    exact h
  · by_cases hempty : (t.isAggregate && t.size == 0) = true
    · simp only [Allocation.add, place, hplace, hempty]
      exact h
    · simp only [Allocation.add, place, hplace, hempty, if_false, Bool.false_eq_true, takeStack]
      rcases t.max_eight_align with ⟨-, ht⟩ | ⟨-, ht⟩ <;> rcases h with h | h <;> rw [ht, h] <;> decide

theorem StackAligned.addAll (h : a.StackAligned) (ha : a.InBounds) (hsize : ∀ t ∈ ts, 0 ≤ t.size.toInt)
    (hfit : a.offset.toInt + (ts.map room).sum ≤ 2 ^ 63 - 1) : (a.addAll ts).2.StackAligned := by
  induction ts generalizing a with
  | nil => exact h
  | cons t ts ih =>
    rw [List.map_cons, List.sum_cons] at hfit
    rw [addAll_cons]
    obtain ⟨hadd, -, hroom⟩ := ha.add (hsize t (by simp)) (by omega)
    exact ih (h.add ha t) hadd (fun t' h => hsize t' (by simp [h])) (by omega)

/-- The area ends at or up to eight bytes behind the last argument, and is empty if there is none. -/
theorem finalize_bounds (h : a.StackAligned) (ha : a.InBounds) (hfit : a.offset.toInt + 16 ≤ 2 ^ 63) :
    a.offset.toInt ≤ a.finalize.offset.toInt ∧ a.finalize.offset.toInt ≤ a.offset.toInt + 8 ∧
      a.finalize.offset.toInt % 8 = 0 ∧ (a.offset.toInt = 0 → a.finalize.offset.toInt = 0) := by
  have hnonneg := ha.nonneg
  have hmultiple := ha.multiple
  show _ ≤ (alignUp a.offset a.biggestAlign).toInt ∧ (alignUp a.offset a.biggestAlign).toInt ≤ _ ∧
    (alignUp a.offset a.biggestAlign).toInt % 8 = 0 ∧ (_ → (alignUp a.offset a.biggestAlign).toInt = 0)
  rcases h with h | h
  · rw [h, toInt_alignUp_eight hnonneg (by omega)]
    omega
  · rw [h, toInt_alignUp_sixteen hnonneg hfit]
    omega

end Allocation

namespace Lowering

variable {size : Int64} {result : Ty}

/-- The area is a multiple of sixteen bytes, with one word of padding if need be. -/
theorem areaSize_cases (h : 0 ≤ size.toInt) (hmod : size.toInt % 8 = 0) (hfit : size.toInt + 8 < 2 ^ 63) :
    (areaSize size).toInt % 16 = 0 ∧
      (((size % 16 != 0) = true ∧ (areaSize size).toInt = size.toInt + 8) ∨
        ((size % 16 != 0) = false ∧ areaSize size = size)) := by
  have hrem : (size % 16).toInt = size.toInt % 16 := by
    rw [Int64.toInt_mod, show (16 : Int64).toInt = 16 from rfl, Int.tmod_eq_emod_of_nonneg h]
  have hzero : size % 16 = 0 ↔ size.toInt % 16 = 0 := by
    rw [← Int64.toInt_inj, hrem]
    rfl
  unfold areaSize
  by_cases h16 : size % 16 = 0
  · rw [if_pos h16]
    exact ⟨hzero.mp h16, .inr ⟨by simp [h16], rfl⟩⟩
  · rw [if_neg h16]
    have hne := mt hzero.mpr h16
    have hsub : (16 - size % 16).toInt = 8 := by
      rw [toInt_sub_of_le (by omega) (by rw [hrem]; show _ ≤ 16; omega)]
      show 16 - _ = 8
      omega
    have hsum : (size + (16 - size % 16)).toInt = size.toInt + 8 := by
      rw [toInt_add_of_nonneg h (by omega) (by omega), hsub]
    exact ⟨by omega, .inl ⟨by simp [h16], hsum⟩⟩

/-- Where the parameters of a function with the result type go. -/
def placements (result : Ty) (ts : List Ty) : List Placement := ((firstOf result).addAll ts).1

/-- The size of the area for parameters of the types. -/
def stackArea (result : Ty) (ts : List Ty) : Int64 :=
  areaSize ((firstOf result).addAll ts).2.finalize.offset

/-- The pushes of a call: padding for the whole area, then the arguments. -/
def pushedArea (result : Ty) (args : List Operand) : List Instr :=
  let size := ((firstOf result).addAll (args.map (·.type))).2.finalize.offset
  (if size % 16 != 0 then [.ir .argStackPadding none none none] else []) ++
    pushedArgs size (args.zip (placements result (args.map (·.type)))).reverse

theorem isPush_pushedArea (hi : i ∈ pushedArea result args) : IsPush i := by
  rcases List.mem_append.mp hi with hi | hi
  · split at hi
    · rw [List.mem_singleton.mp hi]
      exact ⟨.inr rfl, rfl⟩
    · exact (List.not_mem_nil hi).elim
  · exact isPush_pushedArgs hi

section

/-- All that is known about the size of the area. -/
theorem stackArea_bounds (result : Ty) (hargs : ∀ v ∈ args, v.type.IsArgument)
    (hfit : (args.map fun v => Allocation.room v.type).sum + 32 ≤ 2 ^ 63) :
    let last := ((firstOf result).addAll (args.map (·.type))).2
    0 ≤ last.offset.toInt ∧ last.offset.toInt ≤ last.finalize.offset.toInt ∧
      last.finalize.offset.toInt % 8 = 0 ∧ last.finalize.offset.toInt + 8 < 2 ^ 63 ∧
      (last.offset.toInt = 0 → last.finalize.offset.toInt = 0) := by
  have hsizes : ∀ t ∈ args.map (·.type), 0 ≤ t.size.toInt := by
    intro t ht
    obtain ⟨v, hv, rfl⟩ := List.mem_map.mp ht
    exact (hargs v hv).size_nonneg
  have hzero := congrArg Int64.toInt (offset_firstOf result)
  have hroom : (firstOf result).offset.toInt + ((args.map (·.type)).map Allocation.room).sum ≤ 2 ^ 63 - 1 := by
    rw [hzero, List.map_map]
    show 0 + ((args.map fun v => Allocation.room v.type).sum : Int) ≤ _
    omega
  have hfirst := inBounds_firstOf result
  obtain ⟨hbounds, -, hle⟩ := hfirst.addAll hsizes hroom
  have haligned := (Allocation.stackAligned_firstOf result).addAll hfirst hsizes hroom
  have hlast : ((firstOf result).addAll (args.map (·.type))).2.offset.toInt + 32 ≤ 2 ^ 63 := by
    rw [hzero, List.map_map] at hle
    have hle : _ ≤ 0 + ((args.map fun v => Allocation.room v.type).sum : Int) := hle
    omega
  obtain ⟨hle', hge, hmod, hempty⟩ := Allocation.finalize_bounds haligned hbounds (by omega)
  exact ⟨hbounds.nonneg, hle', hmod, by omega, hempty⟩

theorem stackArea_nonneg (result : Ty) (hargs : ∀ v ∈ args, v.type.IsArgument)
    (hfit : (args.map fun v => Allocation.room v.type).sum + 32 ≤ 2 ^ 63) :
    0 ≤ (stackArea result (args.map (·.type))).toInt ∧ (stackArea result (args.map (·.type))).toInt % 16 = 0 := by
  obtain ⟨hnonneg, hle, hmod, hlt, -⟩ := stackArea_bounds result hargs hfit
  obtain ⟨h16, hcases⟩ := areaSize_cases (Int.le_trans hnonneg hle) hmod hlt
  unfold stackArea
  rcases hcases with ⟨-, hsize⟩ | ⟨-, hsize⟩
  · omega
  · rw [hsize] at h16 ⊢
    omega

/-- **The pushes of a call fill the area below the stack pointer.**  They lower it by the size of the area,
and every argument on the stack is at its offset. -/
theorem foldl_push_area (value : Operand → BitVec 64) (m : Memory)
    (hargs : ∀ v ∈ args, CanPush env base (stackArea result (args.map (·.type))).toInt.toNat v)
    (hfit : (args.map fun v => Allocation.room v.type).sum + 32 ≤ 2 ^ 63) :
    ∃ m', (pushedArea result args).foldl (Instr.push env value)
        (base + (stackArea result (args.map (·.type))).toBitVec, m) = (base, m') ∧
      AllPushed env value m base 0 (args.zip (placements result (args.map (·.type)))) m' := by
  have htypes : ∀ v ∈ args, v.type.IsArgument := fun v hv => (hargs v hv).type
  obtain ⟨hnonneg, hle, hmod, hlt, hempty⟩ := stackArea_bounds result htypes hfit
  obtain ⟨harea, -⟩ := stackArea_nonneg result htypes hfit
  have htotal := (stackArea result (args.map (·.type))).toInt_lt
  obtain ⟨-, hcases⟩ := areaSize_cases (Int.le_trans hnonneg hle) hmod hlt
  change (_ ∧ (stackArea result (args.map (·.type))).toInt = _) ∨
    (_ ∧ stackArea result (args.map (·.type)) = _) at hcases
  have hzero := congrArg Int64.toInt (offset_firstOf result)
  change (firstOf result).offset.toInt = 0 at hzero
  unfold pushedArea placements
  dsimp only
  generalize hplaces : (firstOf result).addAll (args.map (·.type)) = placed at *
  have hinside : placed.2.finalize.offset.toInt ≤ (stackArea result (args.map (·.type))).toInt := by
    rcases hcases with ⟨-, h⟩ | ⟨-, h⟩
    · omega
    · exact Int.le_of_eq (by rw [h])
  obtain ⟨d, m', hd, -, -, -, hpushes, hall, -⟩ := foldl_push_args value (m := m)
    placed.2.finalize.offset (by omega) (inBounds_firstOf result) hargs (by omega)
    (by rw [hplaces]; exact hle) hmod (by omega) fun _ _ => rfl
  rw [bottom_eq_zero (inBounds_firstOf result) htypes hzero (by omega) (by rw [hplaces]; exact hempty)] at hd
  obtain rfl : d = 0 := by omega
  rw [hplaces] at hpushes hall
  rw [show base + BitVec.ofNat 64 0 = base by simp] at hpushes
  refine ⟨m', ?_, hall⟩
  rw [toBitVec_of_nonneg harea]
  rcases hcases with ⟨hpad, hsize⟩ | ⟨hpad, hsize⟩
  · rw [if_pos hpad, show (stackArea result (args.map (·.type))).toInt.toNat
      = placed.2.finalize.offset.toInt.toNat + 8 by omega]
    rw [List.singleton_append, List.foldl_cons, push_padding]
    exact hpushes
  · rw [hsize, if_neg (by simp [hpad])]
    exact hpushes

end

end Lowering

end Codegen
