/-
Lists.

What is used of lists in general and not found in the library: how a list splits in two ways, last elements,
counts, and pairs that are looked up.
-/
import Mathlib.Data.List.Forall2
import Mathlib.Data.List.Nodup

namespace Codegen

variable {α β γ : Type} {l l' rest rest' pre post : List α} {x y : α} {P : α → Prop}

/-! ### Splitting -/

theorem exists_of_append_eq_left (h : l ++ rest = pre ++ x :: post) (hx : x ∉ l) :
    ∃ pre', pre = l ++ pre' ∧ rest = pre' ++ x :: post := by
  rcases List.append_eq_append_iff.mp h with ⟨pre', hpre, hrest⟩ | ⟨tail, hl, hrest⟩
  · exact ⟨pre', hpre, hrest⟩
  · cases tail with
    | nil => exact ⟨[], by simpa using hl.symm, hrest.symm⟩
    | cons y tail =>
      obtain ⟨rfl, -⟩ := List.cons.inj hrest
      exact absurd (by simp [hl]) hx

theorem exists_of_append_eq_right (h : l ++ rest = pre ++ x :: post) (hx : x ∉ rest) :
    ∃ post', l = pre ++ x :: post' ∧ post = post' ++ rest := by
  rcases List.append_eq_append_iff.mp h with ⟨pre', -, hrest⟩ | ⟨tail, hl, hrest⟩
  · exact absurd (by simp [hrest]) hx
  · cases tail with
    | nil => exact absurd (by rw [← List.nil_append rest, ← hrest]; simp) hx
    | cons y tail =>
      obtain ⟨rfl, hpost⟩ := List.cons.inj hrest
      exact ⟨tail, hl, hpost⟩

/-- What comes before the first element that is not so, that element and the rest are determined. -/
theorem eq_of_append_eq (h : l ++ x :: rest = l' ++ y :: rest') (hl : ∀ a ∈ l, P a) (hl' : ∀ a ∈ l', P a)
    (hx : ¬ P x) (hy : ¬ P y) :
    l = l' ∧ x = y ∧ rest = rest' := by
  induction l generalizing l' with
  | nil =>
    cases l' with
    | nil => exact ⟨rfl, List.cons.inj h⟩
    | cons b l' =>
      obtain ⟨rfl, -⟩ := List.cons.inj h
      exact absurd (hl' _ List.mem_cons_self) hx
  | cons a l ih =>
    cases l' with
    | nil =>
      obtain ⟨rfl, -⟩ := List.cons.inj h
      exact absurd (hl _ List.mem_cons_self) hy
    | cons b l' =>
      obtain ⟨rfl, htail⟩ := List.cons.inj h
      obtain ⟨rfl, hrest⟩ := ih htail (fun a ha => hl a (List.mem_cons_of_mem _ ha))
        fun a ha => hl' a (List.mem_cons_of_mem _ ha)
      exact ⟨rfl, hrest⟩

theorem exists_last (h : ∃ a ∈ l, P a) :
    ∃ pre a post, l = pre ++ a :: post ∧ P a ∧ ∀ b ∈ post, ¬ P b := by
  induction l with
  | nil =>
    obtain ⟨a, ha, -⟩ := h
    exact (List.not_mem_nil ha).elim
  | cons x l ih =>
    by_cases hl : ∃ a ∈ l, P a
    · obtain ⟨pre, a, post, rfl, ha, hpost⟩ := ih hl
      exact ⟨x :: pre, a, post, rfl, ha, hpost⟩
    · obtain ⟨a, ha, hP⟩ := h
      rcases List.mem_cons.mp ha with rfl | ha
      · exact ⟨[], a, l, rfl, hP, fun b hb hPb => hl ⟨b, hb, hPb⟩⟩
      · exact absurd ⟨a, ha, hP⟩ hl

/-! ### Elements -/

theorem exists_of_forall₂ {R : α → β → Prop} {l' : List β} (h : List.Forall₂ R l l') :
    ∀ {a : α}, a ∈ l → ∃ b ∈ l', R a b := by
  induction h with
  | nil => intro a ha; simp at ha
  | cons hab _ ih =>
    intro a ha
    rcases List.mem_cons.mp ha with rfl | ha
    · exact ⟨_, by simp, hab⟩
    · obtain ⟨b, hb, hr⟩ := ih ha
      exact ⟨b, by simp [hb], hr⟩

theorem map_eq_self_iff {f : α → α} : l.map f = l ↔ ∀ a ∈ l, f a = a := by
  conv_lhs => rw [← List.map_id l, List.map_map]
  exact List.map_inj_left

/-- A fold that keeps the length at every step keeps it. -/
theorem length_foldl_of_step {step : List β → α → List β}
    (h : ∀ marks a, (step marks a).length = marks.length) (l : List α) (marks : List β) :
    (l.foldl step marks).length = marks.length := by
  induction l generalizing marks with
  | nil => rfl
  | cons a l ih => rw [List.foldl_cons, ih, h]

/-- Two places of a list that pass a test are counted. -/
theorem two_le_countP {p : α → Bool} {j k : Nat} {a b : α} (hjk : j ≠ k)
    (hj : l[j]? = some a) (hk : l[k]? = some b) (ha : p a = true) (hb : p b = true) : 2 ≤ l.countP p := by
  have key : ∀ (j k : Nat) (a b : α), j < k → l[j]? = some a → l[k]? = some b → p a = true →
      p b = true → 2 ≤ l.countP p := by
    intro j k a b hlt hj hk ha hb
    have hfirst : 0 < (l.take k).countP p :=
      List.countP_pos_iff.mpr ⟨a, List.mem_of_getElem? (by rw [List.getElem?_take_of_lt hlt, hj]), ha⟩
    have hsecond : 0 < (l.drop k).countP p :=
      List.countP_pos_iff.mpr ⟨b, List.mem_of_getElem? (i := 0) (by simpa using hk), hb⟩
    rw [← List.take_append_drop k l, List.countP_append]
    omega
  rcases Nat.lt_or_gt_of_ne hjk with h | h
  · exact key j k a b h hj hk ha hb
  · exact key k j b a h hk hj hb ha

theorem nodup_eraseDups [DecidableEq α] (l : List α) : l.eraseDups.Nodup := by
  induction h : l.length using Nat.strongRecOn generalizing l with
  | _ n ih =>
    cases l with
    | nil => simp
    | cons a rest =>
      rw [List.eraseDups_cons, List.nodup_cons]
      refine ⟨by simp, ?_⟩
      have hle := List.length_filter_le (fun b => !b == a) rest
      have hlen : rest.length + 1 = n := by simpa using h
      exact ih _ (by omega) _ rfl

theorem partition_perm (q : α → Bool) (l : List α) :
    ((l.partition q).1 ++ (l.partition q).2).Perm l := by
  rw [List.partition_eq_filter_filter]
  exact List.filter_append_perm q l

/-! ### Looking up -/

section lookup

variable [BEq α] [LawfulBEq α] {k : α} {b : β} {c : γ}

theorem lookup_filterMap_of_some (g : α → β → Option γ) (hc : g k b = some c) :
    ∀ l : List (α × β), l.lookup k = some b →
      (l.filterMap fun e => (g e.1 e.2).map fun r => (e.1, r)).lookup k = some c := by
  intro l
  induction l with
  | nil => intro h; simp at h
  | cons e rest ih =>
    obtain ⟨k', b'⟩ := e
    intro h
    rw [List.lookup_cons] at h
    by_cases hk : (k == k') = true
    · simp only [hk] at h
      obtain rfl := Option.some.inj h
      rw [eq_of_beq hk] at hc ⊢
      simp [hc]
    · simp only [hk] at h
      rw [List.filterMap_cons]
      cases hg : g k' b' with
      | none => simpa [hg] using ih h
      | some c' =>
        simp only [Option.map_some, List.lookup_cons, hk]
        exact ih h

omit [LawfulBEq α] in
theorem lookup_filterMap_of_none (g : α → β → Option γ) {l : List (α × β)} (h : l.lookup k = none) :
    (l.filterMap fun e => (g e.1 e.2).map fun r => (e.1, r)).lookup k = none := by
  rw [List.lookup_eq_none_iff] at h ⊢
  intro e he
  obtain ⟨e', he', hmap⟩ := List.mem_filterMap.mp he
  obtain ⟨r, -, rfl⟩ := Option.map_eq_some_iff.mp hmap
  exact h e' he'

omit [LawfulBEq α] in
theorem lookup_map_snd (f : β → γ) (l : List (α × β)) (k : α) :
    (l.map fun e => (e.1, f e.2)).lookup k = (l.lookup k).map f := by
  induction l with
  | nil => rfl
  | cons e rest ih =>
    obtain ⟨k', b⟩ := e
    simp only [List.map_cons, List.lookup_cons]
    cases k == k' with
    | true => rfl
    | false => exact ih

end lookup

end Codegen
