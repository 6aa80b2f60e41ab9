/-
Variable arguments, from the call to the reads.

A caller places all arguments with one allocation.  The entry of the function called saves the
registers that its named parameters did not take, starting to read makes a record of the
allocation after the named parameters, and each read gives one argument and moves the record on
to the allocation after it.  So what is read is what was passed, in order, however registers and
stack are mixed.
-/
import Codegen.Proofs.Aggregates
import Codegen.Proofs.Entry

namespace Codegen

variable {events : Array Event} {α β : Type} {s₁ : Lowering}

namespace Lowering

section

variable {env : Addresses} {s s' : Lowering} {w w₀ : World} {list d : Operand} {pl : Places}
  {first last a : Allocation} {x : Argument} {n low : Int} {xs ys done todo args : List Argument} {o : Int64}
  {P : Instr → Prop} {i : Instr} {base : BitVec 64} {m : Nat} {b : LowerM Unit} {Q : Unit → Lowering → World → Prop}
  {events' : Array Event} {ds : List Operand}

/-! ### Starting to read -/

theorem toInt_shiftRight_three (x : Int64) : (x >>> 3).toInt = x.toInt / 8 := by
  show (x.toBitVec.sshiftRight 3).toInt = _
  rw [BitVec.toInt_sshiftRight, Int.shiftRight_eq_div_pow]
  rfl

theorem incomingIndex_eq (ho : 0 ≤ o.toInt) (hfit : o.toInt + 16 < 2 ^ 63) :
    incomingIndex o = (16 + o.toInt) / 8 := by
  rw [incomingIndex, toInt_shiftRight_three,
    toInt_add_of_nonneg (by decide) ho (by rw [show (16 : Int64).toInt = 16 from rfl]; omega)]
  rfl

theorem of?_incoming (env : Addresses) (ho : 0 ≤ o.toInt) (hmod : o.toInt % 8 = 0)
    (hfit : o.toInt + 16 < 2 ^ 63) (t : Ty) :
    env.of? (.slot (incomingIndex o) t) = some (env.frame + 16 + o.toBitVec) := by
  have hindex : 8 * incomingIndex o = ((16 + o.toInt.toNat : Nat) : Int) := by
    rw [incomingIndex_eq ho hfit]
    omega
  have hoffset : (Frame.slotOffset (incomingIndex o)).toBitVec = 16 + o.toBitVec := by
    rw [Addresses.toBitVec_slotOffset, hindex, BitVec.ofInt_natCast, BitVec.ofNat_add,
      toBitVec_of_nonneg ho]
    rfl
  show some (env.frame + (Frame.slotOffset (incomingIndex o) + 0).toBitVec) = _
  rw [Int64.add_zero, hoffset, BitVec.add_assoc]

/-- Memory after the fields of the record were written. -/
def startRecord (pl : Places) (first : Allocation) (m : Memory) : Memory :=
  (((m.store (pl.list + BitVec.ofNat 64 0) 4 (BitVec.ofNat 64 (savedAt .integer (first.taken .integer)))).store
    (pl.list + BitVec.ofNat 64 4) 4 (BitVec.ofNat 64 (savedAt .sse (first.taken .sse)))).store
    (pl.list + BitVec.ofNat 64 8) 8 (pl.base + first.offset.toBitVec)).store
    (pl.list + BitVec.ofNat 64 16) 8 pl.area

theorem record_startRecord (hfirst : first.InBounds) (m : Memory) :
    Record pl first (startRecord pl first m) := by
  have hsmall : ∀ c : Eightbyte, savedAt c (first.taken c) < 2 ^ 32 := fun c => by
    have := savedAt_le (hfirst.taken_le c)
    omega
  have hskip : ∀ (m : Memory) (i k j l : Nat) (y : BitVec 64), i + k ≤ j ∨ j + l ≤ i → i + k ≤ 24 →
      j + l ≤ 24 → l ≤ 8 → (m.store (pl.list + BitVec.ofNat 64 i) k y).load (pl.list + BitVec.ofNat 64 j) l
        = m.load (pl.list + BitVec.ofNat 64 j) l := fun m i k j l y h hi hj hl =>
    m.load_store_apart _ hl (Memory.apart_offsets _ h (by omega) (by omega))
  unfold startRecord
  refine ⟨fun c => ?_, ?_, ?_⟩
  · have hfield : fieldAt c = 0 ∨ fieldAt c = 4 := by cases c <;> decide
    rw [hskip _ 16 8 _ 4 _ (by omega) (by decide) (by omega) (by decide),
      hskip _ 8 8 _ 4 _ (by omega) (by decide) (by omega) (by decide)]
    cases c with
    | sse => exact Memory.load_store_uint _ _ (hsmall .sse)
    | _ =>
      rw [hskip _ 4 4 _ 4 _ (.inr (by decide)) (by decide) (by decide) (by decide)]
      exact Memory.load_store_uint _ _ (hsmall .integer)
  · rw [hskip _ 16 8 8 8 _ (by decide) (by decide) (by decide) (by decide)]
    exact Memory.load_store_same _ _ (by decide) fun i hi hi8 => absurd hi (by omega)
  · exact Memory.load_store_same _ _ (by decide) fun i hi hi8 => absurd hi (by omega)

theorem onlyRecord_startRecord (m : Memory) : OnlyRecord pl m (startRecord pl first m) := fun q hq =>
  calc startRecord pl first m q
    _ = _ := onlyRecord_store _ (by decide) _ q hq
    _ = _ := onlyRecord_store _ (by decide) _ q hq
    _ = _ := onlyRecord_store _ (by decide) _ q hq
    _ = m q := onlyRecord_store _ (by decide) _ q hq

theorem emits_startArgs (hP : Permissive low P) (hlist : Writable P list) (e : Entry) :
    EmitsFrom low P (startArgs list e) fun _ => True := by
  have haddress : ∀ t a b, EmitsFrom low P (compute .addressOf t a b) fun _ => True :=
    emits_compute_of (hP.ops .addressOf (by decide))
  refine emits_bind (emits_move hlist _ _ _) fun _ _ => emits_bind (emits_move hlist _ _ _) fun _ _ => ?_
  refine emits_bind (haddress _ _ _) fun _ _ => emits_bind (emits_move hlist _ _ _) fun _ _ => ?_
  exact emits_bind (haddress _ _ _) fun _ _ => emits_move hlist _ _ _

theorem appends_startArgs (list : Operand) (e : Entry) : Appends (startArgs list e) :=
  appends_of fun low => emits_startArgs (permissive_unlabelled low) (writable_unlabelled _) e

/-- **The record starts as that of the named parameters.** -/
theorem runs_startArgs {e : Entry} {area : Operand} (hlist : env.of? list = some pl.list)
    (harea : e.saveArea = some area) (hsave : env.of? area = some pl.area)
    (hbase : pl.base = env.frame + 16) (hfirst : first.InBounds)
    (hfit : first.offset.toInt + 16 < 2 ^ 63)
    (hgp : e.gpOffset = Int64.ofNat (savedAt .integer (first.taken .integer)))
    (hfp : e.fpOffset = Int64.ofNat (savedAt .sse (first.taken .sse)))
    (hstack : e.namedStack = first.offset) :
    Runs env (startArgs list e) s w fun _ _ w' =>
      Record pl first w'.memory ∧ OnlyRecord pl w.memory w'.memory := by
  have hincoming := of?_incoming env hfirst.nonneg hfirst.multiple hfit .char
  rw [← hbase, ← hstack] at hincoming
  have hvalue : ∀ c : Eightbyte, Ty.uint.fit (Int64.ofNat (savedAt c (first.taken c))).toBitVec
      = BitVec.ofNat 64 (savedAt c (first.taken c)) := fun c =>
    Ty.fit_uint_ofNat (by have := savedAt_le (hfirst.taken_le c); omega)
  refine runs_bind (runs_move hlist _ (by decide) (World.value?_const _ (by decide))) ?_
  rintro - s₁ _ - ⟨-, -, rfl⟩
  refine runs_bind (runs_move hlist _ (by decide) (World.value?_const _ (by decide))) ?_
  rintro - s₂ _ - ⟨-, -, rfl⟩
  refine runs_bind (runs_compute_addressOf (by simp) hincoming) ?_
  rintro _ s₃ _ - ⟨rfl, -, -, rfl⟩
  refine runs_bind (runs_move hlist _ (by simp) (World.value?_vreg _ (by simp))) ?_
  rintro - s₄ _ - ⟨-, -, rfl⟩
  rw [harea]
  refine runs_bind (runs_compute_addressOf (by simp) hsave) ?_
  rintro _ s₅ _ - ⟨rfl, -, -, rfl⟩
  refine (runs_move hlist _ (by simp) (World.value?_vreg _ (by simp))).mono ?_
  rintro - s₆ _ - ⟨-, -, rfl⟩
  simp only [World.regs_set_self, hgp, hfp, hvalue]
  rw [hstack]
  exact ⟨record_startRecord hfirst _, onlyRecord_startRecord _⟩

/-! ### Reading one argument -/

/-- Read an argument, whatever its type. -/
def fetchArgument (list d : Operand) : Build Unit :=
  if d.type.isAggregate then fetchAggregate list d (Eightbyte.classify d.type)
  else if d.type.isLongDouble then readHalves list d
  else readScalar list d

theorem emits_readHalves (hP : Permissive low P) {dst : Operand} (hlist : Writable P list) (hdst : Writable P dst) :
    EmitsFrom low P (readHalves list dst) fun _ => True := by
  have hadd : ∀ t a b, EmitsFrom low P (compute .add t a b) fun _ => True :=
    emits_compute_of (hP.ops .add (by decide))
  have hcopy : ∀ p o, EmitsFrom low P (copyWord dst p o) fun _ => True := fun p o =>
    emits_bind (emits_compute_of (hP.ops .indirect (by decide)) _ _ _) fun _ _ => emits_move hdst _ _ _
  rw [readHalves_eq]
  refine emits_bind (emits_compute_of (hP.ops .move (by decide)) _ _ _) fun _ _ => ?_
  refine emits_bind (emits_alignPointer hP _ _) fun _ _ => emits_bind (hcopy _ _) fun _ _ => ?_
  refine emits_bind (hadd _ _ _) fun _ _ => emits_bind (hcopy _ _) fun _ _ => ?_
  exact emits_bind (hadd _ _ _) fun _ _ => emits_move hlist _ _ _

theorem extends_fetchArgument (list d : Operand) (s : Lowering) :
    Extends (fun _ => True) s ((fetchArgument list d).run s).2 := by
  have hP := permissive_true s.fn.vregCount
  have hwritable : ∀ o, Writable (fun _ => True) o := fun _ _ _ _ => trivial
  have htarget : ∀ n, (fun _ => True) (Instr.target n) := fun _ => trivial
  suffices EmitsFrom s.fn.vregCount (fun _ => True) (fetchArgument list d) fun _ => True from
    (this s (Int.le_refl _)).2
  unfold fetchArgument
  split
  · exact emits_fetchAggregate hP (hwritable _) (hwritable _) htarget _
  · split
    · exact emits_readHalves hP (hwritable _) (hwritable _)
    · exact emits_readScalar hP (hwritable _) (fun _ _ => trivial) htarget

theorem Places.Receives.inMemory (h : pl.Receives env n x d) (hx : ∀ c, ¬ x.type.InOneRegister c) :
    ∃ p, pl.InMemory env x d p := by
  cases h with
  | register _ hc => exact absurd hc (hx _)
  | memory h => exact ⟨_, h⟩

/-- **Reading an argument gives the one passed next, and moves the record on past it.** -/
theorem runs_fetchArgument (hs : s.Numbered 2) (hr : Reader env list pl first last)
    (hcursor : Cursor pl first last w₀ a w.memory) (hnext : Next pl first last w₀ a x)
    (hd : pl.Receives env n x d) (hn : n ≤ s.fn.vregCount) (hx : x.type.IsArgument)
    (hpos : 0 < x.type.size.toInt) :
    RunsWith env 2 (fetchArgument list d) s w fun _ _ w' => Fetched env pl first last w₀ a x d w' := by
  unfold fetchArgument
  rw [hd.type_eq]
  obtain ⟨c, hc⟩ | hlong | ⟨hagg, -⟩ := hx.cases
  · rw [hc.notAggregate, hc.isLongDouble]
    exact runs_readScalar hs hr hcursor hnext hd hn hc
  · obtain ⟨p, hp⟩ := hd.inMemory fun c hc => absurd hc.span_le (by rw [hlong]; decide)
    rw [hlong]
    exact (runs_readHalves hr hcursor hnext hp hlong).weaken (Nat.zero_le _)
  · obtain ⟨p, hp⟩ := hd.inMemory fun c hc => by rw [hc.notAggregate] at hagg; exact nomatch hagg
    rw [if_pos hagg]
    exact runs_fetchAggregate hs hr hcursor hnext hp hagg hpos

/-! ### Instructions -/

/-- An argument can be read into the operand: memory, or a register in use if one register is enough. -/
structure CanRead (n : Int) (d : Operand) : Prop where
  type : d.type.IsArgument
  nonempty : 0 < d.type.size.toInt
  place : d.isMemory = true ∨ d.type.isAggregate = false ∧ d.type.isLongDouble = false ∧
    ∃ v, d.value = .vreg v ∧ v.id ≤ n

theorem argList_run (hs : s.fn.variadic = true) (hi : i.src1 = some list) (hlist : list.isMemory = true) :
    (argList i).run s = (pure list : LowerM Operand).run s := by
  unfold argList
  rw [hi]
  simp [hs, hlist]

theorem readAggregate_run (hd : d.isMemory = true) (hknown : Eightbyte.canClassify d.type = true) :
    readAggregate list d = liftM (fetchAggregate list d (Eightbyte.classify d.type)) := by
  unfold readAggregate
  simp only [hd, hknown]
  cases Eightbyte.classify d.type <;> rfl

theorem value_ne_param {o : Operand} (h : o.isMemory = true) (n : Int) : o.value ≠ .param n :=
  fun hv => by simp [Operand.isMemory, hv] at h

theorem CanRead.value_ne_param (h : CanRead n d) (k : Int) : d.value ≠ .param k := by
  rcases h.place with hmem | ⟨-, -, v, hv, -⟩
  · exact Lowering.value_ne_param hmem k
  · simp [hv]

/-- The instruction that starts reading arguments. -/
def startInstr (list : Operand) : Instr := .ir .vaStart none list none

/-- The instruction that reads an argument into `d`. -/
def readInstr (list d : Operand) : Instr := .ir .vaArg d list none

theorem lowerInstr_vaArg_run (hd : ∀ n, d.value ≠ .param n) (hlist : ∀ n, list.value ≠ .param n) :
    (lowerInstr (readInstr list d)).run s = (lowerVaArg (readInstr list d)).run s := by
  obtain ⟨value, t, offset⟩ := d
  obtain ⟨value', t', offset'⟩ := list
  cases value <;> cases value' <;> first | rfl | exact absurd rfl (hd _) | exact absurd rfl (hlist _)

theorem lowerInstr_vaStart_run (hlist : ∀ n, list.value ≠ .param n) :
    (lowerInstr (startInstr list)).run s = (lowerVaStart (startInstr list)).run s := by
  obtain ⟨value, t, offset⟩ := list
  cases value <;> first | rfl | exact absurd rfl (hlist _)

theorem lowerInstr_vaArg (hs : s.fn.variadic = true) (hlist : list.isMemory = true) (hd : CanRead n d) :
    (lowerInstr (readInstr list d)).run s = (liftM (fetchArgument list d) : LowerM Unit).run s := by
  rw [lowerInstr_vaArg_run hd.value_ne_param (value_ne_param hlist)]
  unfold lowerVaArg
  rw [StateT.run_bind, argList_run hs rfl hlist]
  have hplace := hd.place
  have htype := hd.type
  obtain ⟨value, t, offset⟩ := d
  unfold fetchArgument
  cases htype with
  | int w sign => rfl
  | pointer => rfl
  | float k =>
    cases k with
    | single => rfl
    | double => rfl
    | extended =>
      have hmem := hplace.resolve_right fun h => nomatch h.2.1
      show (readLongDouble list _).run s = _
      unfold readLongDouble
      simp only [hmem]
      rfl
  | aggregate hagg hknown =>
    have hmem := hplace.resolve_right fun h => by rw [hagg] at h; exact nomatch h.1
    rw [if_pos hagg, ← readAggregate_run hmem hknown]
    cases t with
    | struct => rfl
    | union => rfl
    | _ => exact nomatch hagg

theorem lowerInstr_vaStart (hs : s.fn.variadic = true) (hlist : list.isMemory = true) :
    (lowerInstr (startInstr list)).run s
      = (liftM (startArgs list s.entry) : LowerM Unit).run s := by
  rw [lowerInstr_vaStart_run (value_ne_param hlist)]
  unfold lowerVaStart
  rw [StateT.run_bind, argList_run hs rfl hlist]
  rfl

theorem lowerInstrs_vaArg (hlist : list.isMemory = true) (ds : List Operand) (hds : ∀ d ∈ ds, CanRead n d)
    (hs : s.fn.variadic = true) :
    ((ds.map (readInstr list)).forM lowerInstr).run s
      = (liftM (ds.forM (fetchArgument list)) : LowerM Unit).run s := by
  induction ds generalizing s with
  | nil => rfl
  | cons d ds ih =>
    show (lowerInstr (readInstr list d) >>= fun _ => (ds.map (readInstr list)).forM lowerInstr).run s
      = (liftM (fetchArgument list d >>= fun _ => ds.forM (fetchArgument list)) : LowerM Unit).run s
    rw [StateT.run_bind, lowerInstr_vaArg hs hlist (hds d (by simp))]
    exact ih (fun d hd => hds d (by simp [hd])) ((extends_fetchArgument list d s).variadic.trans hs)

/-! ### Reading all arguments -/

/-- The allocation after more arguments were placed. -/
def placed (a : Allocation) (xs : List Argument) : Allocation := (a.addAll (xs.map (·.type))).2

theorem placed_append (a : Allocation) (xs ys : List Argument) :
    placed a (xs ++ ys) = placed (placed a xs) ys := by
  rw [placed, List.map_append, Allocation.addAll_append]
  rfl

theorem placed_singleton (a : Allocation) (x : Argument) : placed a [x] = (a.add x.type).2 := rfl

theorem passed_of_append (h : Passed w base a (xs ++ ys)) : Passed w base (placed a xs) ys := by
  induction xs generalizing a with
  | nil => exact h
  | cons x xs ih => exact ih h.2

/-- The bytes that placing arguments may take on the stack. -/
def roomOf (xs : List Argument) : Nat := (xs.map fun x => Allocation.room x.type).sum

theorem roomOf_append (xs ys : List Argument) : roomOf (xs ++ ys) = roomOf xs + roomOf ys := by
  simp [roomOf]

theorem room_le_roomOf (hx : x ∈ xs) : Allocation.room x.type ≤ roomOf xs := by
  obtain ⟨before, rest, rfl⟩ := List.append_of_mem hx
  rw [roomOf_append, show roomOf (x :: rest) = Allocation.room x.type + roomOf rest from rfl]
  omega

theorem inBounds_placed (ha : a.InBounds) (hsizes : ∀ x ∈ xs, 0 ≤ x.type.size.toInt)
    (hfit : a.offset.toInt + roomOf xs ≤ 2 ^ 63 - 1) :
    (placed a xs).InBounds ∧ a.offset.toInt ≤ (placed a xs).offset.toInt ∧
      (placed a xs).offset.toInt ≤ a.offset.toInt + roomOf xs := by
  have hroom : roomOf xs = ((xs.map (·.type)).map Allocation.room).sum := by
    rw [List.map_map]
    rfl
  rw [hroom] at hfit ⊢
  refine ha.addAll (fun t ht => ?_) hfit
  obtain ⟨x, hx, rfl⟩ := List.mem_map.mp ht
  exact hsizes x hx

theorem taken_le_placed (ha : a.InBounds) (hsizes : ∀ x ∈ xs, 0 ≤ x.type.size.toInt)
    (hfit : a.offset.toInt + roomOf xs ≤ 2 ^ 63 - 1) (c : Eightbyte) : a.taken c ≤ (placed a xs).taken c := by
  induction xs generalizing a with
  | nil => exact Nat.le_refl _
  | cons x xs ih =>
    have hsum : roomOf (x :: xs) = Allocation.room x.type + roomOf xs := rfl
    have hx := hsizes x (by simp)
    obtain ⟨hadd, hle, hge⟩ := ha.add hx (by omega)
    have hstep : a.taken c ≤ (a.add x.type).2.taken c := by
      rcases Allocation.add_cases ha x.type with ⟨cs, -, -, -, htaken, -⟩ | ⟨-, htaken, -⟩
      · rw [htaken c]
        exact Nat.le_add_right _ _
      · exact Nat.le_of_eq (htaken c).symm
    exact Nat.le_trans hstep (ih hadd (fun y hy => hsizes y (by simp [hy])) (by omega))

/-- Arguments are expected: they were passed, placed from `first` on and up to `last`. -/
structure Expected (pl : Places) (first last : Allocation) (w₀ : World) (args : List Argument) : Prop where
  inBounds : first.InBounds
  sizes : ∀ x ∈ args, 0 ≤ x.type.size.toInt
  fit : first.offset.toInt + roomOf args ≤ 2 ^ 63 - 1
  passed : Passed w₀ pl.base first args
  last_eq : last = placed first args
  size : pl.size = last.offset.toInt.toNat

theorem Expected.next (h : Expected pl first last w₀ args) (hsplit : args = done ++ x :: todo) :
    Next pl first last w₀ (placed first done) x := by
  have hsizes := h.sizes
  have hfit := h.fit
  have hpassed := h.passed
  have hlast := h.last_eq
  rw [hsplit] at hsizes hfit hpassed hlast
  rw [placed_append, show x :: todo = [x] ++ todo from rfl, placed_append, placed_singleton] at hlast
  have hroom : roomOf (done ++ x :: todo) = roomOf done + (Allocation.room x.type + roomOf todo) :=
    roomOf_append done (x :: todo)
  have hdone : ∀ y ∈ done, 0 ≤ y.type.size.toInt := fun y hy => hsizes y (by simp [hy])
  have htodo : ∀ y ∈ todo, 0 ≤ y.type.size.toInt := fun y hy => hsizes y (by simp [hy])
  obtain ⟨hbounds, hle, hge⟩ := inBounds_placed h.inBounds hdone (by omega)
  obtain ⟨hbounds', hle', hge'⟩ := hbounds.add (hsizes x (by simp)) (by omega)
  refine ⟨hbounds, hsizes x (by simp), taken_le_placed h.inBounds hdone (by omega), fun c => ?_, ?_,
    by omega, (passed_of_append hpassed).1⟩
  · rw [hlast]
    exact taken_le_placed hbounds' htodo (by omega) c
  · obtain ⟨hbounds'', hle'', -⟩ := inBounds_placed hbounds' htodo (by omega)
    rw [h.size, hlast]
    omega

theorem forM_map (f : α → β) (g : β → Build Unit) (l : List α) : (l.map f).forM g = l.forM fun a => g (f a) := by
  induction l with
  | nil => rfl
  | cons a l ih => exact bind_congr fun _ => ih

/-- **Reading arguments one after another gives each of them in turn.** -/
theorem runs_fetchArguments (reads : List (Operand × Argument)) (hs : s.Numbered (reads.length * 2))
    (hn : n ≤ s.fn.vregCount) (hr : Reader env list pl first last) (hargs : Expected pl first last w₀ args)
    (hcursor : Cursor pl first last w₀ first w.memory) (hreads : reads.map (·.2) <+: args)
    (hd : ∀ r ∈ reads, pl.Receives env n r.2 r.1 ∧ r.2.type.IsArgument ∧ 0 < r.2.type.size.toInt) :
    RunsWith env (reads.length * 2) (reads.forM fun r => fetchArgument list r.1) s w fun _ _ w' =>
      ∀ r, reads.getLast? = some r → r.1.Holds env w' r.2 := by
  -- as many labels are left as the reads to come may take
  refine (runsWith_forM (I := fun done s' w' => s'.Numbered ((reads.length - done.length) * 2) ∧
    n ≤ s'.fn.vregCount ∧
    Cursor pl first last w₀ (placed first (done.map (·.2))) w'.memory ∧
    ∀ r, done.getLast? = some r → r.1.Holds env w' r.2) reads ?_
    ⟨hs, hn, hcursor, fun r h => nomatch h⟩).mono fun _ _ _ _ h => h.2.2.2
  rintro done ⟨d, x⟩ todo s₁ w₁ hsplit ⟨hs₁, hn₁, hcursor₁, -⟩
  obtain ⟨hd, hx, hpos⟩ := hd (d, x) (by rw [hsplit]; simp)
  obtain ⟨rest, hrest⟩ := hreads
  have hargsSplit : args = done.map (·.2) ++ x :: (todo.map (·.2) ++ rest) := by
    rw [← hrest, hsplit]
    simp
  have hnext := hargs.next hargsSplit
  have hleft : (reads.length - done.length) * 2 = (reads.length - (done ++ [(d, x)]).length) * 2 + 2 := by
    rw [hsplit, List.length_append, List.length_append, List.length_cons, List.length_singleton]
    omega
  rw [hleft] at hs₁
  refine (runs_fetchArgument (hs₁.mono (Nat.le_add_left _ _)) hr hcursor₁ hnext hd hn₁ hx hpos).mono
    fun _ s₂ w₂ hadv h => ?_
  refine ⟨hadv.numbered hs₁, Int.le_trans hn₁ hadv.vregs, ?_, fun r hr => ?_⟩
  · rw [List.map_append, placed_append]
    exact h.cursor
  · rw [List.getLast?_concat] at hr
    obtain rfl := Option.some.inj hr
    exact h.holds

theorem extends_fetchArguments (list : Operand) (ds : List Operand) (s : Lowering) :
    Extends (fun _ => True) s ((ds.forM (fetchArgument list)).run s).2 := by
  induction ds generalizing s with
  | nil => exact .refl s
  | cons d ds ih => exact (extends_fetchArgument list d s).trans (ih _)

/-! ### From the call to the reads -/

/-- Start reading arguments, and read one into each operand. -/
def readAll (list : Operand) (e : Entry) (ds : List Operand) : Build Unit := do
  startArgs list e
  ds.forM (fetchArgument list)

theorem extends_readAll (list : Operand) (e : Entry) (ds : List Operand) (s : Lowering) :
    Extends (fun _ => True) s ((readAll list e ds).run s).2 :=
  ((appends_startArgs list e s).mono fun _ _ => trivial).trans (extends_fetchArguments list ds _)

theorem readAll_append (list : Operand) (e : Entry) (ds ds' : List Operand) (s : Lowering) :
    ((readAll list e (ds ++ ds')).run s).2
      = ((ds'.forM (fetchArgument list)).run ((readAll list e ds).run s).2).2 := by
  have happend : ∀ s, (((ds ++ ds').forM (fetchArgument list)).run s).2
      = ((ds'.forM (fetchArgument list)).run ((ds.forM (fetchArgument list)).run s).2).2 := by
    induction ds with
    | nil => exact fun _ => rfl
    | cons d ds ih => exact fun _ => ih _
  exact happend _

/-- What lowering gives does not depend on where it is executed. -/
theorem LowersWith.of_run (h : LowersWith env m b s w Q) (hrun : (b.run s).run events = .ok ((), s') events') :
    ∃ w', Advances m s s' ∧
      (∀ code, s'.code <+: code → Executes env code (s.out.size, w) (s'.out.size, w')) ∧ Q () s' w' := by
  obtain ⟨_, s'', w', hrun', hadv, hreach, hq⟩ := h
  obtain ⟨events'', hrun'⟩ := hrun' events
  rw [hrun] at hrun'
  cases hrun'
  exact ⟨w', hadv, hreach, hq⟩

theorem lowerInstrs_reads (hs : s.fn.variadic = true) (hlist : list.isMemory = true)
    (hds : ∀ d ∈ ds, CanRead n d) :
    ((startInstr list :: ds.map (readInstr list)).forM lowerInstr).run s
      = (liftM (readAll list s.entry ds) : LowerM Unit).run s := by
  show (lowerInstr (startInstr list) >>= fun _ => (ds.map (readInstr list)).forM lowerInstr).run s = _
  rw [StateT.run_bind, lowerInstr_vaStart hs hlist]
  exact lowerInstrs_vaArg hlist ds hds ((appends_startArgs list s.entry s).variadic.trans hs)

/-- What is done after the entry, done in the state that the entry leaves. -/
theorem run_after_entry (b : LowerM Unit) (hentry : (lowerEntry.run s).run events = .ok ((), s₁) events') :
    ((lowerEntry >>= fun _ => b).run s).run events = (b.run s₁).run events' := by
  show EStateM.bind (lowerEntry.run s) (fun p => b.run p.2) events = _
  rw [EStateM.bind, show lowerEntry.run s events = .ok ((), s₁) events' from hentry]
  rfl

end

end Lowering

/-- A run of bytes: where it starts, and how many they are. -/
structure Memory.Run where
  start : BitVec 64
  length : Nat
  deriving DecidableEq

/-- Two runs have no address in common. -/
def Memory.Run.Apart (r r' : Memory.Run) : Prop := Memory.Apart r.start r.length r'.start r'.length

/-- The first bytes of an operand in memory. -/
def Addresses.run? (env : Addresses) (o : Operand) (n : Nat) : Option Memory.Run := (env.of? o).map (⟨·, n⟩)

open Lowering

namespace Function

/-- The function with code that starts reading arguments with `list`, and reads one into each operand. -/
def reading (f : Function) (list : Operand) (ds : List Operand) : Function :=
  { f with code := startInstr list :: ds.map (readInstr list) }

/-- The state in which lowering a function starts. -/
def lowering (f : Function) : Lowering := { fn := { f with addressTaken := markAddressTaken f } }

/-- How many instructions lowering the entry and the first `k` instructions gives. -/
def loweredSize (f : Function) (k : Nat) : Except Failure Nat :=
  Traced.result do
    let (_, s) ← (do lowerEntry; (f.code.take k).forM lowerInstr : LowerM Unit).run f.lowering
    return s.out.size

/-- The function can be called with arguments that are read into the operands, one after another. -/
structure CanReadInto (f : Function) (list : Operand) (ds : List Operand) : Prop where
  variadic : f.variadic = true
  result : Placement.canResultInMemory f.result = true
  params : ∀ t ∈ f.params, t.IsArgument
  few : f.params.length ≤ maxArgs
  list : list.isMemory = true
  reads : ∀ d ∈ ds, CanRead f.vregCount d
  room : ((f.params ++ ds.map (·.type)).map Allocation.room).sum < 2 ^ 63
  vregs : 26 ≤ f.vregCount
  labels : 0 ≤ f.labelCount

/-- The slots that lowering a function `f` to `g` has handed out. -/
def handedOut (f g : Function) (env : Addresses) : Memory.Run :=
  ⟨env.below g.stackSlots, 8 * (g.stackSlots - f.stackSlots).toNat⟩

/-- The allocation of a call with the arguments. -/
def allocation (f : Function) (args : List Argument) : Allocation := placed (firstOf f.result) args

/-- The arguments on the stack, in a call with the arguments. -/
def incoming (f : Function) (args : List Argument) (env : Addresses) : Memory.Run :=
  ⟨env.frame + 16, (f.allocation args).offset.toInt.toNat⟩

/-- The function was called: the arguments are where one allocation placed them, with the stack
arguments at a multiple of sixteen and the number of vector registers in the low byte of `rax`.  The
slots handed out in lowering it to `g`, the arguments on the stack, the list and the operands in
memory do not overlap. -/
structure Called (env : Addresses) (f g : Function) (list : Operand) (ds : List Operand)
    (named args : List Argument) (w : World) : Prop where
  named_types : named.map (·.type) = f.params
  arg_types : args.map (·.type) = ds.map (·.type)
  passed : Passed w (env.frame + 16) (firstOf f.result) (named ++ args)
  aligned : (env.frame + 16).toNat % 16 = 0
  vectors : (w.regs Reg.rax.pseudo).setWidth 8 = BitVec.ofNat 8 (f.allocation (named ++ args)).sseRegs
  incoming_apart : (f.incoming (named ++ args) env).Apart (f.handedOut g env)
  list_apart : ∀ r ∈ env.run? list recordSize,
    r.Apart (f.handedOut g env) ∧ r.Apart (f.incoming (named ++ args) env)
  reads_apart : ∀ d ∈ ds, ∀ r ∈ env.run? d d.type.size.toInt.toNat,
    r.Apart (f.handedOut g env) ∧ r.Apart (f.incoming (named ++ args) env) ∧
      ∀ l ∈ env.run? list recordSize, r.Apart l

theorem length_markAddressTaken (f : Function) : f.params.length ≤ (markAddressTaken f).length := by
  rw [markAddressTaken, length_foldl_of_step, List.length_append, List.length_replicate]
  · omega
  · intro marks i
    split
    · split <;> simp
    · rfl

/-- The result of a computation that goes on with a value. -/
theorem result_bind {x : Traced α} {k : α → Traced β} {a : α} {b : β} (hx : x.run #[] = .ok a events)
    (hk : (k a).run events = .ok b events) : (x >>= k).result = .ok b := by
  have hrun : (x >>= k).run #[] = .ok b events := by
    show EStateM.bind x k #[] = _
    rw [EStateM.bind, show x #[] = .ok a events from hx]
    exact hk
  rw [Traced.result, Traced.outcome, hrun]

section

variable {env : Addresses} {f g : Function} {list : Operand} {ds : List Operand} {named args : List Argument}
  {w : World} {n : Int} {q : BitVec 64} {k : Nat}

/-- Every argument has room on the stack, so there are not too many for the labels that reading them takes. -/
theorem CanReadInto.numbered (hf : f.CanReadInto list ds) :
    (f.reading list ds).lowering.Numbered (ds.length * 2 + 1) := by
  have hrooms : ∀ ts : List Ty, 16 * ts.length ≤ (ts.map Allocation.room).sum := by
    intro ts
    induction ts with
    | nil => exact Nat.le_refl _
    | cons t ts ih =>
      rw [List.map_cons, List.sum_cons, List.length_cons, Allocation.room]
      omega
  have hroom := hf.room
  have hds := hrooms (ds.map (·.type))
  rw [List.map_append, List.sum_append] at hroom
  rw [List.length_map] at hds
  exact numbered_of_nil rfl (Int64.le_iff_toInt_le.mp hf.labels) (by omega)

theorem CanReadInto.lowers_entry (hf : f.CanReadInto list ds) (env : Addresses) (w : World) :
    LowersWith env 1 lowerEntry (f.reading list ds).lowering w fun _ s' w' =>
      ∃ p, Entered env ((firstOf f.result).addAll f.params).2 p (f.reading list ds).lowering w s' w' := by
  have hroom := hf.room
  rw [List.map_append, List.sum_append] at hroom
  have hfit : (f.params.map Allocation.room).sum ≤ 2 ^ 63 - 1 := by omega
  exact lowers_lowerEntry (hf.numbered.mono (Nat.le_add_left _ _)) hf.vregs hf.variadic hf.result rfl hf.params
    (length_markAddressTaken (f.reading list ds)) hfit

/-- Lowering succeeds, and what it gives is read off the states it goes through. -/
theorem CanReadInto.lower_result (hf : f.CanReadInto list ds) :
    ∃ s₁ events, (lowerEntry.run (f.reading list ds).lowering).run #[] = .ok ((), s₁) events ∧
      s₁.fn.variadic = true ∧
      (f.reading list ds).lower.result = .ok (((readAll list s₁.entry ds).run s₁).2.entry,
        { ((readAll list s₁.entry ds).run s₁).2.fn with
          code := ((readAll list s₁.entry ds).run s₁).2.code }) ∧
      ∀ k, (f.reading list ds).loweredSize (k + 2)
        = .ok ((readAll list s₁.entry (ds.take (k + 1))).run s₁).2.out.size := by
  obtain ⟨_, s₁, _, hrun, hadv, -⟩ := hf.lowers_entry ⟨0, fun _ => 0⟩ ⟨fun _ => 0, fun _ => 0⟩
  obtain ⟨events, hentry⟩ := hrun #[]
  have hvariadic : s₁.fn.variadic = true := hadv.variadic.trans hf.variadic
  have hcode : s₁.fn.code = startInstr list :: ds.map (readInstr list) := by rw [hadv.fn]; rfl
  refine ⟨s₁, events, hentry, hvariadic, ?_, fun k => ?_⟩
  · have hbody : (lowerBody.run (f.reading list ds).lowering).run #[]
        = .ok ((), ((readAll list s₁.entry ds).run s₁).2) events := by
      refine (run_after_entry _ hentry).trans ?_
      show ((s₁.fn.code.forM lowerInstr).run s₁).run events = _
      rw [hcode, lowerInstrs_reads hvariadic hf.list hf.reads]
      rfl
    have hfew : ¬ (f.reading list ds).params.length > maxArgs := Nat.not_lt.mpr hf.few
    rw [lower, if_neg hfew]
    exact result_bind hbody rfl
  · have htake : ((f.reading list ds).code.take (k + 2))
        = startInstr list :: (ds.take (k + 1)).map (readInstr list) := by
      rw [reading, List.take_succ_cons, List.map_take]
    have hbody : ((do lowerEntry; ((f.reading list ds).code.take (k + 2)).forM lowerInstr : LowerM Unit).run
        (f.reading list ds).lowering).run #[]
        = .ok ((), ((readAll list s₁.entry (ds.take (k + 1))).run s₁).2) events := by
      refine (run_after_entry _ hentry).trans ?_
      rw [htake, lowerInstrs_reads hvariadic hf.list fun d hd => hf.reads d (List.mem_of_mem_take hd)]
      rfl
    exact result_bind hbody rfl

/-- Slots handed out by the entry are among those handed out in all. -/
theorem within_handedOut (hn : f.stackSlots ≤ n) (hg : n ≤ g.stackSlots)
    (hq : Memory.Within (env.below n) (8 * (n - f.stackSlots).toNat) q) :
    Memory.Within (f.handedOut g env).start (f.handedOut g env).length q := by
  have hbelow : env.below n = env.below g.stackSlots + BitVec.ofNat 64 (8 * (g.stackSlots - n).toNat) := by
    rw [← Addresses.below_sub]
    congr 1
    omega
  rw [hbelow] at hq
  refine hq.of_part ?_
  show _ ≤ 8 * (g.stackSlots - f.stackSlots).toNat
  omega

/-- The places that reading the arguments of a call is about. -/
def places (f : Function) (env : Addresses) (args : List Argument) (list area : BitVec 64) : Places :=
  ⟨list, area, (f.incoming args env).start, (f.incoming args env).length⟩

section

variable {l p : BitVec 64} {d : Operand} {x : Argument} {w₁ : World}

theorem Called.type_eq (h : Called env f g list ds named args w) (hd : ds[k]? = some d) (hx : args[k]? = some x) :
    d.type = x.type := by
  have hk := congrArg (·[k]?) h.arg_types
  simp only [List.getElem?_map, hd, hx] at hk
  exact (Option.some.inj hk).symm

theorem Called.sizes (h : Called env f g list ds named args w) (hf : f.CanReadInto list ds) :
    ∀ x ∈ named ++ args, 0 ≤ x.type.size.toInt := by
  intro x hx
  rcases List.mem_append.mp hx with hx | hx
  · have hmem : x.type ∈ f.params := by
      rw [← h.named_types]
      exact List.mem_map_of_mem hx
    exact (hf.params _ hmem).size_nonneg
  · have hmem : x.type ∈ ds.map (·.type) := by
      rw [← h.arg_types]
      exact List.mem_map_of_mem hx
    obtain ⟨d, hd, htype⟩ := List.mem_map.mp hmem
    rw [← htype]
    exact (hf.reads d hd).type.size_nonneg

theorem Called.room (h : Called env f g list ds named args w) (hf : f.CanReadInto list ds) :
    roomOf named + roomOf args < 2 ^ 63 := by
  have hroom := hf.room
  rw [← h.named_types, ← h.arg_types, ← List.map_append, List.map_map] at hroom
  rw [← roomOf_append]
  exact hroom

theorem Called.first_eq (h : Called env f g list ds named args w) :
    ((firstOf f.result).addAll f.params).2 = placed (firstOf f.result) named := by
  rw [← h.named_types]
  rfl

theorem Called.expected (h : Called env f g list ds named args w) (hf : f.CanReadInto list ds) :
    Expected (f.places env (named ++ args) l p) (placed (firstOf f.result) named)
      (f.allocation (named ++ args)) w args := by
  have hroom := h.room hf
  have hzero : (firstOf f.result).offset.toInt = 0 := by rw [offset_firstOf]; rfl
  obtain ⟨hbounds, hle, hge⟩ := inBounds_placed (inBounds_firstOf f.result)
    (fun x hx => h.sizes hf x (List.mem_append_left _ hx)) (by omega)
  exact ⟨hbounds, fun x hx => h.sizes hf x (List.mem_append_right _ hx), by omega,
    passed_of_append h.passed, placed_append _ _ _, rfl⟩

theorem Called.reader (h : Called env f g list ds named args w) (hf : f.CanReadInto list ds)
    (hl : env.of? list = some l)
    (harea : ∀ q, Memory.Within p areaBytes q →
      Memory.Within (f.handedOut g env).start (f.handedOut g env).length q) :
    Reader env list (f.places env (named ++ args) l p) (placed (firstOf f.result) named)
      (f.allocation (named ++ args)) := by
  have hroom := h.room hf
  have hzero : (firstOf f.result).offset.toInt = 0 := by rw [offset_firstOf]; rfl
  obtain ⟨hbounds, -, hge⟩ := inBounds_placed (inBounds_firstOf f.result) (h.sizes hf)
    (by rw [roomOf_append]; omega)
  obtain ⟨hfresh, hincoming⟩ := h.list_apart ⟨l, recordSize⟩ (by simp [Addresses.run?, hl])
  refine ⟨hl, fun q hq hin => hfresh q hq (harea q hin), hincoming, h.aligned, ?_, hbounds.taken_le⟩
  rw [roomOf_append] at hge
  show (f.allocation (named ++ args)).offset.toInt.toNat ≤ _
  unfold allocation
  omega

/-- The operands can receive the arguments. -/
theorem Called.receives (h : Called env f g list ds named args w) (hf : f.CanReadInto list ds)
    (hl : env.of? list = some l) (harea : ∀ q, Memory.Within p areaBytes q →
      Memory.Within (f.handedOut g env).start (f.handedOut g env).length q) (hd : ds[k]? = some d)
    (hx : args[k]? = some x) : (f.places env (named ++ args) l p).Receives env f.vregCount x d := by
  have htype := h.type_eq hd hx
  have hmem := List.mem_of_getElem? hd
  have hread := hf.reads d hmem
  rcases hread.place with hmemory | ⟨hagg, hlong, v, hv, hle⟩
  · obtain ⟨q, hq⟩ := env.exists_of? hmemory
    obtain ⟨hfresh, hincoming, hlist⟩ := h.reads_apart d hmem ⟨q, d.type.size.toInt.toNat⟩
      (by simp [Addresses.run?, hq])
    have hlist := hlist ⟨l, recordSize⟩ (by simp [Addresses.run?, hl])
    rw [htype] at hfresh hincoming hlist
    exact .memory ⟨hq, htype, hlist, fun b hb hin => hfresh b hb (harea b hin), hincoming⟩
  · obtain ⟨c, hc⟩ : ∃ c, x.type.InOneRegister c := by
      rw [← htype]
      obtain h | h | h := hread.type.cases
      · exact h
      · rw [h] at hlong; exact nomatch hlong
      · rw [h.1] at hagg; exact nomatch hagg
    obtain ⟨value, type, offset⟩ := d
    obtain rfl : value = .vreg v := hv
    obtain rfl : type = x.type := htype
    exact .register hle hc

/-- After the entry the arguments can still be read. -/
theorem Called.sources (h : Called env f g list ds named args w)
    (hlast : ∀ c, (f.allocation (named ++ args)).taken c ≤ c.capacity)
    (hentered : Entered env (placed (firstOf f.result) named) p (f.reading list ds).lowering w s₁ w₁)
    (hfresh : f.stackSlots ≤ s₁.fn.stackSlots) (hslots : s₁.fn.stackSlots ≤ g.stackSlots) :
    Sources (f.places env (named ++ args) l p) (placed (firstOf f.result) named)
      (f.allocation (named ++ args)) w w₁.memory := by
  refine ⟨fun c n hfirst hn j hj => ?_, fun j hj => hentered.kept.memory _ fun hq => ?_⟩
  · have hcapacity : n < c.capacity := Nat.lt_of_lt_of_le hn (hlast c)
    cases c with
    | sse =>
      -- a vector register holds an argument, so the caller said that there is one
      refine hentered.sses ?_ n hfirst hcapacity j hj
      have hle : (f.allocation (named ++ args)).sseRegs ≤ 8 := hlast .sse
      have hpos : n < (f.allocation (named ++ args)).sseRegs := hn
      rw [h.vectors]
      intro hzero
      have hmod : (f.allocation (named ++ args)).sseRegs % 2 ^ 8 = 0 := by
        rw [← BitVec.toNat_ofNat, hzero]
        rfl
      omega
    | _ => exact hentered.ints n hfirst hcapacity j hj
  · have hsize : (f.places env (named ++ args) l p).size < 2 ^ 64 := by
      have := (f.allocation (named ++ args)).offset.toInt_lt
      show (f.allocation (named ++ args)).offset.toInt.toNat < _
      omega
    exact h.incoming_apart _ (Memory.within_add _ hj (by omega)) (within_handedOut hfresh hslots hq)

end

/-- **Executing the reads after the entry leaves the arguments passed in the operands.** -/
theorem Called.runs_readAll {w₁ : World} {p : BitVec 64} (hf : f.CanReadInto list ds)
    (h : Called env f g list ds named args w)
    (hentered : Entered env ((firstOf f.result).addAll f.params).2 p (f.reading list ds).lowering w s₁ w₁)
    (hadv : Advances 1 (f.reading list ds).lowering s₁) (hslots : s₁.fn.stackSlots ≤ g.stackSlots) {d : Operand}
    {x : Argument} (hd : ds[k]? = some d) (hx : args[k]? = some x) :
    ∃ m, RunsWith env m (readAll list s₁.entry (ds.take (k + 1))) s₁ w₁ fun _ _ w' => d.Holds env w' x := by
  obtain ⟨l, hl⟩ := env.exists_of? hf.list
  rw [h.first_eq] at hentered
  have hfresh : f.stackSlots ≤ s₁.fn.stackSlots := hadv.slots
  have harea : ∀ q, Memory.Within p areaBytes q →
      Memory.Within (f.handedOut g env).start (f.handedOut g env).length q := by
    intro q hq
    obtain ⟨i, rfl, hinside⟩ := hentered.inside
    exact within_handedOut hfresh hslots (hq.of_part hinside)
  have hreader := h.reader hf hl harea
  have hexpected := h.expected hf (l := l) (p := p)
  have hsources := h.sources (l := l) hreader.last_le hentered hfresh hslots
  -- the record, as reading starts
  obtain ⟨area, hsave, hareaAddress⟩ := hentered.area
  have hfit : (placed (firstOf f.result) named).offset.toInt + 16 < 2 ^ 63 := by
    have hroom := hexpected.fit
    have hle : Allocation.room x.type ≤ roomOf args :=
      room_le_roomOf (List.mem_of_getElem? hx)
    unfold Allocation.room at hle
    omega
  refine ⟨((ds.zip args).take (k + 1)).length * 2, ?_⟩
  refine runs_bind (runs_startArgs (show env.of? list = some (f.places env (named ++ args) l p).list from hl)
    hsave hareaAddress rfl hexpected.inBounds hfit hentered.gpOffset hentered.fpOffset
    hentered.namedStack) ?_
  rintro - s₂ w₂ hadv₂ ⟨hrecord, honly⟩
  have hcursor : Cursor (f.places env (named ++ args) l p) (placed (firstOf f.result) named)
      (f.allocation (named ++ args)) w (placed (firstOf f.result) named) w₂.memory :=
    ⟨hrecord, hreader.sources hsources w₁.memory (fun _ _ => rfl) honly⟩
  -- one read after another
  have hlength : ds.length = args.length := by
    simpa using (congrArg List.length h.arg_types).symm
  have hfsts : ds.take (k + 1) = ((ds.zip args).take (k + 1)).map (·.1) := by
    rw [List.map_take, List.map_fst_zip (Nat.le_of_eq hlength)]
  have hsnds : ((ds.zip args).take (k + 1)).map (·.2) <+: args := by
    rw [List.map_take, List.map_snd_zip (Nat.le_of_eq hlength.symm)]
    exact List.take_prefix _ _
  have hmem : ∀ r ∈ (ds.zip args).take (k + 1), ∃ i : Nat, ds[i]? = some r.1 ∧ args[i]? = some r.2 := by
    intro r hr
    obtain ⟨i, hi⟩ := List.mem_iff_getElem?.mp (List.mem_of_mem_take hr)
    exact ⟨i, List.getElem?_zip_eq_some.mp hi⟩
  have hfew : ((ds.zip args).take (k + 1)).length * 2 ≤ ds.length * 2 := by
    rw [List.length_take, List.length_zip]
    omega
  rw [hfsts, forM_map]
  refine (runs_fetchArguments _ (hadv₂.numbered ((hadv.numbered hf.numbered).mono hfew))
    (Int.le_trans hadv.vregs hadv₂.vregs) hreader hexpected hcursor hsnds fun r hr => ?_).mono
    fun _ _ w' _ hlast => hlast (d, x) ?_
  · obtain ⟨i, hi, hi'⟩ := hmem r hr
    have hread := hf.reads r.1 (List.mem_of_getElem? hi)
    rw [← h.type_eq hi hi']
    exact ⟨h.receives hf hl harea hi hi', hread.type, hread.nonempty⟩
  · have hzip : (ds.zip args)[k]? = some (d, x) := List.getElem?_zip_eq_some.mpr ⟨hd, hx⟩
    rw [List.getLast?_take]
    simp [hzip]

end

/-- **What is read is what was passed.**  A variadic function that starts reading and reads into one
operand after another can be lowered; and wherever it is called, executing the lowered code up to the
end of the `k`-th read leaves the `k`-th variable argument in the `k`-th operand. -/
theorem variable_arguments_read_back (f : Function) (list : Operand) (ds : List Operand)
    (hf : f.CanReadInto list ds) :
    ∃ e g, (f.reading list ds).lower.result = .ok (e, g) ∧
      ∀ env named args w, Called env f g list ds named args w →
        ∀ (k : Nat) (d : Operand) (x : Argument), ds[k]? = some d → args[k]? = some x →
          ∃ pos w', (f.reading list ds).loweredSize (k + 2) = .ok pos ∧
            Executes env g.code (0, w) (pos, w') ∧ d.Holds env w' x := by
  obtain ⟨s₁, events, hentry, hvariadic, hresult, hsize⟩ := hf.lower_result
  refine ⟨_, _, hresult, fun env named args w h k d x hd hx => ?_⟩
  -- the entry, and the reads up to the one in question
  obtain ⟨w₁, hadv, hentryReach, p, hentered⟩ := (hf.lowers_entry env w).of_run hentry
  have hslots := Int.le_of_eq (extends_readAll list s₁.entry ds s₁).slots.symm
  obtain ⟨m, _, s₂, w₂, hrun, hadv₂, hreach, hholds⟩ := h.runs_readAll hf hentered hadv hslots hd hx
  refine ⟨s₂.out.size, w₂, by rw [hsize k, hrun], ?_, hholds⟩
  -- the other reads only add code
  have hsplit := readAll_append list s₁.entry (ds.take (k + 1)) (ds.drop (k + 1)) s₁
  rw [List.take_append_drop, hrun] at hsplit
  have hrest : s₂.code <+: ((readAll list s₁.entry ds).run s₁).2.code := by
    rw [hsplit]
    exact (extends_fetchArguments list _ s₂).prefix_code
  exact (hentryReach _ (hadv₂.prefix_code.trans hrest)).trans (hreach _ hrest)

/-- A variadic function with slots for a list and two results. -/
def tallying : Function :=
  { name := "tally", params := [.sint], addressTaken := [], result := .void, variadic := true
    stackSlots := 6 }

/-- A list in the three slots next to the frame base. -/
def tallyingList : Operand := .slot (-3) (.array .long 3)

/-- A number and a long double are read. -/
def tallyingReads : List Operand := [.slot (-4) .long, .slot (-6) .longDouble]

theorem tallying_canReadInto : tallying.CanReadInto tallyingList tallyingReads := by
  refine ⟨rfl, rfl, fun t ht => ?_, by decide, rfl, fun d hd => ?_, by decide, by decide, by decide⟩
  · obtain rfl := List.mem_singleton.mp ht
    exact .int _ _
  · simp only [tallyingReads, List.mem_cons, List.not_mem_nil, or_false] at hd
    rcases hd with rfl | rfl
    · exact ⟨.int _ _, by decide, .inl rfl⟩
    · exact ⟨.float _, by decide, .inl rfl⟩

/-- A frame base, with nothing else at a known place. -/
def tallyingFrame : Addresses := ⟨65536, fun _ => 0⟩

/-- Different words in the registers, none of them in use for vectors, and different bytes in memory. -/
def tallyingWorld : World :=
  ⟨fun v => if v = Reg.rax.pseudo then 0 else BitVec.ofInt 64 (1000003 * v), fun p => p.setWidth 8⟩

/-- The parameter, the number and the long double, as they are passed. -/
def tallyingArguments : List Argument :=
  [⟨.sint, byteOf (tallyingWorld.regs Reg.rdi.pseudo)⟩, ⟨.long, byteOf (tallyingWorld.regs Reg.rsi.pseudo)⟩,
    ⟨.longDouble, fun i => tallyingWorld.memory (tallyingFrame.frame + 16 + BitVec.ofNat 64 i)⟩]

variable {g : Function}

theorem tallying_called (hg : g.stackSlots = 28) :
    Called tallyingFrame tallying g tallyingList tallyingReads (tallyingArguments.take 1)
      (tallyingArguments.drop 1) tallyingWorld := by
  have hfresh : tallying.handedOut g tallyingFrame = ⟨65312, 176⟩ := by rw [handedOut, hg]; decide +kernel
  refine ⟨rfl, rfl, ⟨fun l hl => ?_, fun l hl => ?_, fun l hl => ?_, trivial⟩, by decide, by decide +kernel,
    ?_, fun r hr => ?_, fun d hd r hr => ?_⟩
  · obtain rfl := List.mem_singleton.mp (show l ∈ [⟨.int 0, none⟩] from hl)
    exact fun i _ => rfl
  · obtain rfl := List.mem_singleton.mp (show l ∈ [⟨.int 1, none⟩] from hl)
    exact fun i _ => rfl
  · obtain rfl := List.mem_singleton.mp (show l ∈ [⟨.stack 0 0, none⟩] from hl)
    exact fun i _ => rfl
  · rw [hfresh]
    exact (Memory.apart_of_le (by decide) (by decide)).symm
  · obtain rfl := Option.mem_some.mp hr
    rw [hfresh]
    exact ⟨(Memory.apart_of_le (by decide) (by decide)).symm, Memory.apart_of_le (by decide) (by decide)⟩
  · rw [hfresh]
    simp only [tallyingReads, List.mem_cons, List.not_mem_nil, or_false] at hd
    have hplace : r = ⟨65504, 8⟩ ∨ r = ⟨65488, 16⟩ := by
      rcases hd with rfl | rfl
      · exact .inl (Option.mem_some.mp hr).symm
      · exact .inr (Option.mem_some.mp hr).symm
    rcases hplace with rfl | rfl
    all_goals
      refine ⟨(Memory.apart_of_le (by decide) (by decide)).symm,
        Memory.apart_of_le (by decide) (by decide), fun l hl => ?_⟩
      obtain rfl := Option.mem_some.mp hl
      exact Memory.apart_of_le (by decide) (by decide)

/-- The long double, passed on the stack after a number in a register, is read into its slots. -/
theorem variable_arguments_read_back_tallying :
    ∃ e g, (tallying.reading tallyingList tallyingReads).lower.result = .ok (e, g) ∧
      Called tallyingFrame tallying g tallyingList tallyingReads (tallyingArguments.take 1)
        (tallyingArguments.drop 1) tallyingWorld ∧
      ∃ pos w', (tallying.reading tallyingList tallyingReads).loweredSize 3 = .ok pos ∧
        Executes tallyingFrame g.code (0, tallyingWorld) (pos, w') ∧
        (Operand.slot (-6) .longDouble).Holds tallyingFrame w'
          ⟨.longDouble, fun i => tallyingWorld.memory (tallyingFrame.frame + 16 + BitVec.ofNat 64 i)⟩ := by
  obtain ⟨e, g, hlower, hread⟩ := variable_arguments_read_back tallying tallyingList tallyingReads
    tallying_canReadInto
  have hslots : (tallying.reading tallyingList tallyingReads).lower.result.toOption.map (·.2.stackSlots)
      = some 28 := by decide +kernel
  rw [hlower] at hslots
  have hcalled := tallying_called (Option.some.inj hslots)
  exact ⟨e, g, hlower, hcalled, hread _ _ _ _ hcalled 1 _ _ rfl rfl⟩

end Function

end Codegen
