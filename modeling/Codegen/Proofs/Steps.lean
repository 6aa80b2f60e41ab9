/-
Steps of lowering that may fail.

`Yields` says what holds of the state that a step ends in, if it returns, and `Leaves` that it has only
written instructions that are as wanted.  What the steps that cannot fail write is known already.
-/
import Codegen.Proofs.Carrying
import Codegen.Proofs.Traced
import Codegen.Proofs.Variadic

namespace Codegen

namespace Lowering

/-! ### Lowering that may fail, without executing the code -/

/-- If a step of lowering returns, `Q` holds of what it returns and of the state it ends in; if it
fails, `fail` holds of the cause. -/
def Yields {α : Type} (x : LowerM α) (s : Lowering) (Q : α → Lowering → Prop) (fail : Failure → Prop) :
    Prop := Traced.Meets (x.run s) (fun p => Q p.1 p.2) fail

section yields

variable {α β : Type} {s : Lowering} {Q : α → Lowering → Prop} {R : β → Lowering → Prop} {fail : Failure → Prop}
  {e : Failure} {x : LowerM α} {f : Unit → LowerM β}

theorem yields_pure {a : α} (h : Q a s) : Yields (pure a) s Q fail := Traced.meets_pure h

theorem yields_throw (h : fail e) : Yields (throw e : LowerM α) s Q fail :=
  Traced.meets_throw h

theorem yields_bind {f : α → LowerM β} (hx : Yields x s Q fail) (hf : ∀ a s', Q a s' → Yields (f a) s' R fail) :
    Yields (x >>= f) s R fail :=
  Traced.meets_bind hx fun p hp => hf p.1 p.2 hp

theorem Yields.mono {R : α → Lowering → Prop} (h : Yields x s Q fail) (hQ : ∀ a s', Q a s' → R a s') :
    Yields x s R fail :=
  Traced.Meets.mono h (fun p hp => hQ p.1 p.2 hp) fun _ h => h

theorem yields_lift {b : Build α} (h : Q (b.run s).1 (b.run s).2) : Yields (liftM b) s Q fail :=
  fun _ => h

/-- Looking at the state, changing it and checking something, before other steps. -/
theorem yields_bind_get {f : Lowering → LowerM β} (h : Yields (f s) s R fail) : Yields (get >>= f) s R fail := h

theorem yields_bind_modify {g : Lowering → Lowering} (h : Yields (f ()) (g s) R fail) :
    Yields (modify g >>= f) s R fail := h

theorem yields_get {Q : Lowering → Lowering → Prop} (h : Q s s) : Yields get s Q fail := fun _ => h

theorem yields_modify {Q : Unit → Lowering → Prop} (f : Lowering → Lowering) (h : Q () (f s)) :
    Yields (modify f) s Q fail := fun _ => h

theorem yields_note {Q : Unit → Lowering → Prop} (n : Note) (h : Q () s) :
    Yields (note n) s Q fail := fun _ => h

theorem yields_bind_require {ok : Bool} {fault : Fault} (h : Yields (f ()) s R fun _ => True) :
    Yields (require ok fault >>= f) s R fun _ => True := by
  cases ok with
  | true => exact h
  | false => exact fun _ => trivial

theorem yields_refuse (cause : LowerError) : Yields (refuse cause : LowerM α) s Q fun _ => True :=
  yields_bind_get (yields_throw trivial)

theorem yields_unless {c : Prop} [Decidable c] {cause : LowerError} (hx : ¬ c → Yields x s Q fun _ => True) :
    Yields (if c then refuse cause >>= fun _ : PUnit => x else x) s Q fun _ => True := by
  by_cases hc : c
  · rw [if_pos hc]
    exact yields_bind (yields_refuse (Q := fun _ _ => False) cause) fun _ _ h => h.elim
  · rw [if_neg hc]
    exact hx hc

theorem yields_when {c : Prop} [Decidable c] {b : Build Unit} {k : Unit → LowerM β}
    (h : Yields (liftM (if c then b else pure ()) >>= k) s R fail) :
    Yields (if c then liftM b >>= k else k ()) s R fail := by
  by_cases hc : c
  · rw [if_pos hc] at h ⊢
    exact h
  · rw [if_neg hc] at h ⊢
    exact h

end yields

/-- If the step returns, it has appended instructions that all are as wanted, from any state in which the
registers up to `low` are taken. -/
def Leaves {α : Type} (low : Int) (P : Instr → Prop) (x : LowerM α) : Prop :=
  ∀ s, low ≤ s.fn.vregCount → Yields x s (fun _ s' => Written P s s') fun _ => True

section leaves

variable {α β : Type} {low : Int} {P : Instr → Prop} {x : LowerM α}

theorem leaves_pure (a : α) : Leaves low P (pure a) := fun s _ => yields_pure (.refl s)

theorem leaves_throw (e : Failure) : Leaves low P (throw e : LowerM α) := fun _ _ => yields_throw trivial

theorem Leaves.yields (hx : Leaves low P x) {s₀ s : Lowering} (hlow : low ≤ s₀.fn.vregCount) (h : Written P s₀ s) :
    Yields x s (fun _ s' => Written P s₀ s') fun _ => True :=
  (hx s (Int.le_trans hlow h.vregs)).mono fun _ _ h' => h.trans h'

theorem leaves_bind {f : α → LowerM β} (hx : Leaves low P x) (hf : ∀ a, Leaves low P (f a)) :
    Leaves low P (x >>= f) := fun s hs => yields_bind (hx s hs) fun a _ h => (hf a).yields hs h

theorem leaves_get : Leaves low P get := fun s _ => yields_get (.refl s)

theorem leaves_refuse (cause : LowerError) : Leaves low P (refuse cause : LowerM α) :=
  fun _ _ => yields_refuse cause

theorem leaves_lift {Q : α → Prop} {b : Build α} (h : EmitsFrom low P b Q) : Leaves low P (liftM b) :=
  fun s hs => yields_lift (h s hs).2.toWritten

theorem leaves_append {i : Instr} (hi : i.label = 0) (h : P i) : Leaves low P (liftM (append i)) :=
  fun s _ => yields_lift (Extends.push s h hi).toWritten

theorem leaves_require (ok : Bool) (fault : Fault) : Leaves low P (require ok fault) := by
  cases ok with
  | true => exact leaves_pure ()
  | false => exact leaves_throw _

theorem leaves_note (n : Note) : Leaves low P (note n) := fun s _ => yields_note n (.refl s)

theorem leaves_unless {c : Prop} [Decidable c] {cause : LowerError} (hx : ¬ c → Leaves low P x) :
    Leaves low P (if c then refuse cause >>= fun _ : PUnit => x else x) :=
  fun s hs => yields_unless fun hc => hx hc s hs

theorem written_freshSlot (t : Ty) (s : Lowering) : Written P s ((freshSlot t).run s).2 :=
  ⟨rfl, rfl, rfl, Int.le_refl _, [], (List.append_nil _).symm, by simp, labelled_old _ []⟩

end leaves

theorem yields_argList (i : Instr) (s : Lowering) :
    Yields (argList i) s (fun list s' => s' = s ∧ list.isMemory = true) fun _ => True := by
  refine yields_bind_get (yields_unless fun _ => ?_)
  split
  · split
    · next hlist => exact yields_pure ⟨rfl, hlist⟩
    · exact yields_refuse _
  · exact yields_refuse _

theorem leaves_argList_bind {low : Int} {P : Instr → Prop} {i : Instr} {k : Operand → LowerM Unit}
    (hP : Permissive low P) (hk : ∀ list, Writable P list → Leaves low P (k list)) :
    Leaves low P (argList i >>= k) := by
  intro s hs
  refine yields_bind (yields_argList i s) ?_
  rintro list s ⟨rfl, hlist⟩
  exact hk list ((hP.ops .move (by decide)).writable hlist) s hs

/-! ### Variable arguments -/

section permissive

variable {low : Int} {P : Instr → Prop} (hP : Permissive low P)

include hP

theorem leaves_lowerVaStart (i : Instr) : Leaves low P (lowerVaStart i) :=
  leaves_argList_bind hP fun _ hlist => leaves_bind leaves_get fun _ => leaves_lift (emits_startArgs hP hlist _)

theorem leaves_readAggregate (htarget : ∀ n, P (.target n)) {list : Operand} (hlist : Writable P list) (dst : Operand) :
    Leaves low P (readAggregate list dst) := by
  refine leaves_unless fun hmem => leaves_bind (leaves_require _ _) fun _ => ?_
  have hdst : Writable P dst := (hP.ops .move (by decide)).writable (by simpa using hmem)
  have h := leaves_lift (emits_fetchAggregate hP hlist hdst htarget (Eightbyte.classify dst.type))
  cases hclassify : Eightbyte.classify dst.type with
  | none => rw [hclassify] at h; exact h
  | some cs => rw [hclassify] at h; exact h

theorem leaves_lowerVaArg (htarget : ∀ n, P (.target n)) {i : Instr}
    (hdst : ∀ d, i.dst = some d → ∀ a b, P (.ir .indirect d a b)) :
    Leaves low P (lowerVaArg i) := by
  refine leaves_argList_bind hP fun list hlist => ?_
  split
  · exact leaves_refuse _
  · next dst hsome =>
      split
      · exact leaves_refuse _
      · exact leaves_refuse _
      · exact leaves_refuse _
      · exact leaves_throw _
      · split
        · exact leaves_readAggregate hP htarget hlist dst
        · split
          · exact leaves_unless fun hmem => leaves_lift (emits_readHalves hP hlist
              ((hP.ops .move (by decide)).writable (by simpa using hmem)))
          · exact leaves_lift (emits_readScalar hP hlist (hdst dst hsome) htarget)

end permissive

/-! ### One instruction of the body -/

/-- What is done with an instruction whose parameters are replaced. -/
theorem lowerReplaced_cases {P : LowerM Unit → Prop} (i : Instr) (hcollect : ∀ v, P (collectArg i v))
    (hexpanded : P (do
      if i.label != 0 then label i.label
      lowerExpanded { i with label := 0 })) (happend : P (append i)) :
    P (match i.op, i.src2 with
      | .ir .arg, some v => collectArg i v
      | op, _ =>
        match op with
        | .ir .ret | .ir .call | .ir .vaStart | .ir .vaArg => do
          if i.label != 0 then label i.label
          lowerExpanded { i with label := 0 }
        | _ => append i) := by
  split
  · exact hcollect _
  · split
    · exact hexpanded
    · exact hexpanded
    · exact hexpanded
    · exact hexpanded
    · exact happend

end Lowering

end Codegen
