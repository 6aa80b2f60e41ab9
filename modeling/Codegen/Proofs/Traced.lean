/-
Traced computations, seen from outside.

A traced computation returns a value or fails with a cause, and may add to the trace
on the way.  `Meets` says what is known of both outcomes at once, whatever the trace
was before; the rest of this file says how it is put together from the parts of a
computation, so that a stage is argued about step by step and no proof has to look at
how the trace is threaded through.
-/
import Codegen.Traced
import Codegen.Proofs.Lists

namespace Codegen.Traced

variable {α β σ : Type}

/-- Whatever the trace so far, the computation returns a value with `post` or fails with a cause that
has `fail`. -/
def Meets (x : Traced α) (post : α → Prop) (fail : Failure → Prop) : Prop :=
  ∀ events, match x.run events with
    | .ok a _ => post a
    | .error e _ => fail e

variable {x : Traced α} {post : α → Prop} {fail fail' : Failure → Prop} {events events' : Array Event} {e : Failure}
  {ok : Bool} {fault : Fault} {a : α} {r : Except Failure α} {f : α → Traced β}

/-! ### Reading an outcome off -/

theorem Meets.of_ok (h : Meets x post fail) (hrun : x.run events = .ok a events') : post a := by
  have := h events
  rw [hrun] at this
  exact this

theorem Meets.of_error (h : Meets x post fail) (hrun : x.run events = .error e events') : fail e := by
  have := h events
  rw [hrun] at this
  exact this

theorem Meets.of_result (h : Meets x post fail) (hresult : x.result = .ok a) : post a := by
  unfold result outcome at hresult
  cases hrun : x.run #[] with
  | ok b events =>
    rw [hrun] at hresult
    obtain rfl := Except.ok.inj hresult
    exact h.of_ok hrun
  | error e events =>
    rw [hrun] at hresult
    exact nomatch hresult

theorem exists_run_of_result (h : x.result.toOption.isSome = true) : ∃ a events, x.run #[] = .ok a events := by
  unfold result outcome at h
  cases hrun : x.run #[] with
  | ok a events => exact ⟨a, events, rfl⟩
  | error e events =>
    rw [hrun] at h
    exact nomatch h

theorem Meets.returns (h : Meets x post fun _ => False) (events : Array Event) :
    ∃ a events', x.run events = .ok a events' ∧ post a := by
  cases hrun : x.run events with
  | ok a events' => exact ⟨a, events', rfl, h.of_ok hrun⟩
  | error e events' => exact absurd (h.of_error hrun) id

theorem Meets.mono {post' : α → Prop}
    (h : Meets x post fail) (hpost : ∀ a, post a → post' a) (hfail : ∀ e, fail e → fail' e) :
    Meets x post' fail' := by
  intro events
  have := h events
  cases hrun : x.run events with
  | ok a events' => rw [hrun] at this; exact hpost a this
  | error e events' => rw [hrun] at this; exact hfail e this

/-- Whatever the trace so far, the computation has this outcome. -/
def Gives (x : Traced α) (r : Except Failure α) : Prop :=
  ∀ events, ∃ events', x.run events = match r with
    | .ok a => .ok a events'
    | .error e => .error e events'

theorem Gives.meets (h : Gives x r) (hr : match r with | .ok a => post a | .error e => fail e) :
    Meets x post fail := by
  intro events
  obtain ⟨events', hrun⟩ := h events
  rw [hrun]
  cases r with
  | ok a => exact hr
  | error e => exact hr

theorem gives_bind {r : Except Failure β} (hx : Gives x (.ok a)) (hf : Gives (f a) r) : Gives (x >>= f) r := by
  intro events
  obtain ⟨events₁, h₁⟩ := hx events
  obtain ⟨events', h'⟩ := hf events₁
  refine ⟨events', ?_⟩
  show EStateM.bind x f events = _
  unfold EStateM.bind
  rw [show x events = .ok a events₁ from h₁]
  exact h'

theorem gives_bind_error (hx : Gives x (.error e)) : Gives (x >>= f) (.error e) := by
  intro events
  obtain ⟨events', h⟩ := hx events
  refine ⟨events', ?_⟩
  show EStateM.bind x f events = _
  unfold EStateM.bind
  rw [show x events = .error e events' from h]

/-! ### The parts of a computation -/

theorem meets_pure (h : post a) : Meets (pure a : Traced α) post fail := fun _ => h

theorem meets_throw (h : fail e) : Meets (throw e : Traced α) post fail := fun _ => h

theorem meets_bind {post' : β → Prop} (hx : Meets x post fail) (hf : ∀ a, post a → Meets (f a) post' fail) :
    Meets (x >>= f) post' fail := by
  intro events
  have h := hx events
  show match EStateM.bind x f events with
    | .ok a _ => post' a
    | .error e _ => fail e
  unfold EStateM.bind
  cases hrun : x events with
  | ok a events' =>
    have ha : post a := by rw [show x.run events = x events from rfl, hrun] at h; exact h
    exact hf a ha events'
  | error e events' =>
    rw [show x.run events = x events from rfl, hrun] at h
    exact h

theorem meets_trivial (x : Traced α) : Meets x (fun _ => True) fun _ => True := by
  intro events
  split <;> trivial

theorem meets_note (function : String) (n : Note) :
    Meets (note function n) (fun _ => True) fail := fun _ => trivial

theorem meets_require {post : Unit → Prop} (hok : ok = true → post ())
    (hfault : ok = false → fail (.fault fault)) : Meets (require ok fault) post fail := by
  cases ok with
  | true => exact meets_pure (hok rfl)
  | false => exact meets_throw (hfault rfl)

theorem meets_ofExcept (hok : ∀ a, r = .ok a → post a) (herr : ∀ e, r = .error e → fail e) :
    Meets (ofExcept r) post fail := by
  cases r with
  | ok a => exact meets_pure (hok a rfl)
  | error e => exact meets_throw (herr e rfl)

/-! ### Going along a list -/

/-- An invariant of the elements gone through and the state reached is carried along a fold. -/
theorem meets_foldlM {step : σ → α → Traced σ} {I : List α → σ → Prop} (l : List α)
    (hstep : ∀ done a todo s, l = done ++ a :: todo → I done s → Meets (step s a) (I (done ++ [a])) fail) :
    ∀ s, I [] s → Meets (l.foldlM step s) (I l) fail := by
  have key : ∀ todo done s, l = done ++ todo → I done s →
      Meets (todo.foldlM step s) (I l) fail := by
    intro todo
    induction todo with
    | nil =>
      intro done s hl hinv
      rw [List.append_nil] at hl
      subst hl
      exact meets_pure hinv
    | cons a todo ih =>
      intro done s hl hinv
      refine meets_bind (hstep done a todo s hl hinv) fun s' hs' => ?_
      exact ih (done ++ [a]) s' (by simpa using hl) hs'
  intro s hinv
  exact key l [] s rfl hinv

/-- What each element's result satisfies, every element's result satisfies. -/
theorem meets_mapM {R : α → β → Prop} :
    ∀ l : List α, (∀ a ∈ l, Meets (f a) (R a) fail) →
      Meets (l.mapM f) (List.Forall₂ R l) fail := by
  intro l
  induction l with
  | nil => intro _; rw [List.mapM_nil]; exact meets_pure .nil
  | cons a rest ih =>
    intro h
    rw [List.mapM_cons]
    refine meets_bind (h a (by simp)) fun b hb => ?_
    refine meets_bind (ih fun a' ha' => h a' (by simp [ha'])) fun bs hbs => ?_
    exact meets_pure (.cons hb hbs)

end Codegen.Traced
