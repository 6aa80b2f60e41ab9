/-
The arena list is a plain list of instructions.

The links make a ring: seen from the number -1, the first instruction comes after it and
the last one before it.  Read that way an insertion changes the ring between two
neighbours and a removal closes it again, at the ends of the code as in its middle.  So
one fact about paths settles both directions of the links.

What a sequence of edits leaves is compared with the same edits on a plain list whose
entries carry their numbers.
-/
import Codegen.Chain
import Mathlib.Data.List.SplitBy
import Mathlib.Data.List.Perm.Subperm

namespace Codegen

namespace Chain

/-! ### Paths -/

/-- Following `step` from `a` leads over `xs` to `b`. -/
def Path (step : Int → Option Int) : Int → List Int → Int → Prop
  | a, [], b => step a = some b
  | a, x :: xs, b => step a = some x ∧ Path step x xs b

namespace Path

variable {f f' : Int → Option Int} {a b x : Int} {xs ys zs : List Int}

theorem step_eq (h : Path f a xs b) : f a = some (xs.headD b) := by
  cases xs with
  | nil => exact h
  | cons x xs => exact h.1

theorem drop (h : Path f a (ys ++ zs) b) : Path f (ys.getLastD a) zs b := by
  induction ys generalizing a with
  | nil => exact h
  | cons y ys ih =>
    rw [List.getLastD_cons]
    exact ih h.2

/-- There is one way to the first meeting with `b`. -/
theorem unique (h : Path f a xs b) (h' : Path f a ys b) (hx : b ∉ xs) (hy : b ∉ ys) : xs = ys := by
  have heq := h.step_eq.symm.trans h'.step_eq
  induction xs generalizing a ys with
  | nil => cases ys <;> simp_all
  | cons x xs ih =>
    cases ys with
    | nil => simp_all
    | cons y ys =>
      obtain rfl : x = y := by simpa using heq
      rw [ih h.2 h'.2 (by simp_all) (by simp_all) (h.2.step_eq.symm.trans h'.2.step_eq)]

/-- Before it meets `b`, a path meets nothing twice. -/
theorem nodup (h : Path f a xs b) (hb : b ∉ xs) : xs.Nodup := by
  induction xs generalizing a with
  | nil => exact .nil
  | cons x xs ih =>
    refine List.nodup_cons.mpr ⟨fun hx => ?_, ih h.2 (by simp_all)⟩
    obtain ⟨ys, zs, rfl⟩ := List.append_of_mem hx
    have htail : Path f x zs b := h.2.drop.2
    have := congrArg List.length (h.2.unique htail (by simp_all) (by simp_all))
    simp only [List.length_append, List.length_cons] at this
    omega

/-- Start the same path somewhere else. -/
theorem restart (h : Path f a xs b) (hstart : f' x = f a) (hrest : ∀ y ∈ xs, f' y = f y) :
    Path f' x xs b := by
  induction xs generalizing a x with
  | nil => exact hstart.trans h
  | cons y xs ih =>
    exact ⟨hstart.trans h.1, ih h.2 (hrest y (by simp)) fun z hz => hrest z (by simp [hz])⟩

/-- Keep the first part of a path and go on differently. -/
theorem splice (h : Path f a (ys ++ zs) b) (hnodup : (a :: ys).Nodup)
    (hkeep : ∀ y ∈ a :: ys, y ≠ ys.getLastD a → f' y = f y)
    (htail : Path f' (ys.getLastD a) xs b) : Path f' a (ys ++ xs) b := by
  induction ys generalizing a with
  | nil => exact htail
  | cons y ys ih =>
    rw [List.getLastD_cons] at hkeep htail
    have hne : a ≠ ys.getLastD y := fun h => (List.nodup_cons.mp hnodup).1 (h ▸ List.getLastD_mem_cons)
    exact ⟨(hkeep a (by simp) hne).trans h.1,
      ih h.2 hnodup.of_cons (fun z hz => hkeep z (List.mem_cons_of_mem a hz)) htail⟩

/-- Lead a path over one more number. -/
theorem insert (h : Path f a (ys ++ zs) b) (hnodup : (a :: (ys ++ zs)).Nodup)
    (hnew : x ∉ a :: (ys ++ zs))
    (hf : ∀ y, f' y = if y = ys.getLastD a then some x
      else if y = x then some (zs.headD b) else f y) : Path f' a (ys ++ x :: zs) b := by
  have hlast : ys.getLastD a ∈ a :: ys := List.getLastD_mem_cons
  have hkeep : ∀ y ∈ a :: (ys ++ zs), y ≠ ys.getLastD a → f' y = f y := fun y hy hne => by
    rw [hf, if_neg hne, if_neg (by grind)]
  refine h.splice (hnodup.sublist (by simp)) (fun y hy => hkeep y (by grind)) ⟨by simp [hf], ?_⟩
  refine h.drop.restart ?_ fun y hy => hkeep y (by grind) ?_
  · rw [hf, if_neg fun heq => hnew (by grind), if_pos rfl, h.drop.step_eq]
  · grind

/-- Leave one number out. -/
theorem erase (h : Path f a (ys ++ x :: zs) b) (hnodup : (a :: (ys ++ x :: zs)).Nodup)
    (hf : ∀ y, y ≠ x → f' y = if y = ys.getLastD a then some (zs.headD b) else f y) :
    Path f' a (ys ++ zs) b := by
  have hlast : ys.getLastD a ∈ a :: ys := List.getLastD_mem_cons
  have hkeep : ∀ y ∈ a :: (ys ++ zs), y ≠ ys.getLastD a → f' y = f y := fun y hy hne => by
    rw [hf y (by grind), if_neg hne]
  refine h.splice (hnodup.sublist (by simp)) (fun y hy => hkeep y (by grind)) ?_
  refine h.drop.2.restart ?_ fun y hy => hkeep y (by grind) (by grind)
  rw [hf _ (by grind), if_pos rfl, h.drop.2.step_eq]

end Path

/-! ### The ring -/

/-- The number after `id`; after -1 comes the first instruction. -/
def after (c : Chain) (id : Int) : Option Int := if id = -1 then some c.first else c.next? id

/-- The number before `id`; before -1 comes the last instruction. -/
def before (c : Chain) (id : Int) : Option Int := if id = -1 then some c.last else c.prev? id

variable {c : Chain} {id p n a id' : Int} {i : Instr} {l : Link}

theorem link?_of_neg (c : Chain) (h : id < 0) : c.link? id = none := if_pos h

@[simp] theorem link?_update (c : Chain) (p : Int) (f : Link → Link) (id : Int) :
    (c.update p f).link? id = (c.link? id).map fun l => if id = p then f l else l := by
  by_cases hid : id < 0
  · simp [link?_of_neg, hid]
  · by_cases hp : p < 0
    · have hne : id ≠ p := by omega
      simp [update, hp, hne]
    · have heq : p.toNat = id.toNat ↔ id = p := by omega
      simp only [update, link?, hp, hid, if_false, List.getElem?_modify, heq]
      rfl

theorem update_eq (c : Chain) (p : Int) (f : Link → Link) : c.update p f =
    { c with links := if p < 0 then c.links else c.links.modify p.toNat f } := by
  unfold update
  split_ifs <;> rfl

theorem setNext_eq (c : Chain) (p n : Int) : c.setNext p n =
    { c.update p fun l => { l with next := n } with first := if p = -1 then n else c.first } := by
  unfold setNext update
  split_ifs <;> first | rfl | omega

theorem setPrev_eq (c : Chain) (n p : Int) : c.setPrev n p =
    { c.update n fun l => { l with prev := p } with last := if n = -1 then p else c.last } := by
  unfold setPrev update
  split_ifs <;> first | rfl | omega

@[simp] theorem link?_with (c : Chain) (first last length : Int) :
    link? ⟨c.links, first, last, length⟩ id = c.link? id := rfl

theorem update_store (c : Chain) (i : Instr) (f : Link → Link) :
    (c.store i).2.update c.links.length f =
      { c with links := c.links ++ [f { instr := i }], length := c.length + 1 } := by
  have hlinks : (c.links ++ [({ instr := i } : Link)]).modify c.links.length f
      = c.links ++ [f { instr := i }] := by
    apply List.ext_getElem?
    grind
  have hpos : ¬ (c.links.length : Int) < 0 := by omega
  simp [store, update, hlinks, hpos]

/-- Put an instruction between two neighbours. -/
def place (c : Chain) (p n : Int) (i : Instr) : Chain :=
  ({ c with links := c.links ++ [({ instr := i, next := n, prev := p } : Link)]
            length := c.length + 1 }.setPrev n c.links.length).setNext p c.links.length

theorem append_eq (c : Chain) (i : Instr) :
    c.append i = ((c.links.length : Int), c.place c.last (-1) i) := by
  have hstore : c.store i = ((c.links.length : Int), (c.store i).2) := rfl
  unfold append place
  rw [hstore]
  simp only [update_store]
  unfold setNext setPrev update
  split_ifs <;> first | rfl | omega

theorem insertBefore_eq (h : c.prev? id = some p) :
    c.insertBefore id i = (some (c.links.length : Int), c.place p id i) := by
  have hstore : c.store i = ((c.links.length : Int), (c.store i).2) := rfl
  have hne : id ≠ -1 := by
    rintro rfl
    cases h
  have hprev : (c.store i).2.prev? id = some p := by
    simp only [store, prev?, link?] at h ⊢
    grind
  unfold insertBefore place
  rw [if_neg hne, hstore]
  simp only [hprev, update_store]

theorem link?_stored (c : Chain) (l : Link) (length id : Int) :
    link? ⟨c.links ++ [l], c.first, c.last, length⟩ id =
      if id = c.links.length then some l else c.link? id := by
  unfold link?
  grind

/-- What is stored once an instruction is in place. -/
theorem link?_place (c : Chain) (i : Instr) (id : Int) (hp : p ≠ c.links.length)
    (hn : n ≠ c.links.length) :
    (c.place p n i).link? id =
      if id = c.links.length then some { instr := i, next := n, prev := p }
      else (c.link? id).map fun l =>
        { l with next := if id = p then (c.links.length : Int) else l.next
                 prev := if id = n then (c.links.length : Int) else l.prev } := by
  simp only [place, setNext_eq, setPrev_eq, link?_with, link?_update, link?_stored]
  by_cases hid : id = c.links.length
  · simp [hid, hp.symm, hn.symm]
  · cases c.link? id <;> simp only [hid, if_false, Option.map_none, Option.map_some]
    split_ifs <;> rfl

/-- What is stored once an instruction is unlinked. -/
theorem link?_remove (h : c.link? id = some l) (hlive : l.live = true) (id' : Int) :
    (c.remove id).2.link? id' = (c.link? id').map fun l' =>
      if id' = id then { l' with next := -1, prev := -1, live := false }
      else { l' with next := if id' = l.prev then l.next else l'.next
                     prev := if id' = l.next then l.prev else l'.prev } := by
  simp only [remove, h, hlive, Bool.not_true, Bool.false_eq_true, if_false, setNext_eq, setPrev_eq,
    link?_with, link?_update]
  cases c.link? id' <;> simp only [Option.map_none, Option.map_some]
  split_ifs <;> rfl

theorem after_place (c : Chain) (i : Instr) (id : Int) (hp : p ≠ c.links.length)
    (hn : n ≠ c.links.length) (hstored : p = -1 ∨ (c.link? p).isSome) :
    (c.place p n i).after id = if id = p then some (c.links.length : Int)
      else if id = c.links.length then some n else c.after id := by
  have hfirst : (c.place p n i).first = if p = -1 then (c.links.length : Int) else c.first := by
    simp [place, setNext_eq, setPrev_eq, update_eq]
  rw [after, next?, link?_place c i id hp hn, hfirst, after, next?]
  rcases hl : c.link? id with - | l <;> grind

theorem before_place (c : Chain) (i : Instr) (id : Int) (hp : p ≠ c.links.length)
    (hn : n ≠ c.links.length) (hstored : n = -1 ∨ (c.link? n).isSome) :
    (c.place p n i).before id = if id = n then some (c.links.length : Int)
      else if id = c.links.length then some p else c.before id := by
  have hlast : (c.place p n i).last = if n = -1 then (c.links.length : Int) else c.last := by
    simp [place, setNext_eq, setPrev_eq, update_eq]
  rw [before, prev?, link?_place c i id hp hn, hlast, before, prev?]
  rcases hl : c.link? id with - | l <;> grind

/-- The ring around an instruction that is unlinked. -/
theorem after_remove (h : c.link? id = some l) (hlive : l.live = true)
    (hstored : l.prev = -1 ∨ (c.link? l.prev).isSome) (hne : id' ≠ id) :
    (c.remove id).2.after id' = if id' = l.prev then some l.next else c.after id' := by
  have hfirst : (c.remove id).2.first = if l.prev = -1 then l.next else c.first := by
    simp [remove, h, hlive, setNext_eq, setPrev_eq, update_eq]
  rw [after, next?, link?_remove h hlive, hfirst, after, next?]
  rcases hl : c.link? id' with - | l' <;> grind

theorem before_remove (h : c.link? id = some l) (hlive : l.live = true)
    (hstored : l.next = -1 ∨ (c.link? l.next).isSome) (hne : id' ≠ id) :
    (c.remove id).2.before id' = if id' = l.next then some l.prev else c.before id' := by
  have hlast : (c.remove id).2.last = if l.next = -1 then l.prev else c.last := by
    simp [remove, h, hlive, setNext_eq, setPrev_eq, update_eq]
  rw [before, prev?, link?_remove h hlive, hlast, before, prev?]
  rcases hl : c.link? id' with - | l' <;> grind

/-! ### What is in the chain -/

/-- The chain is made of the numbers `ids`, in this order. -/
structure Spells (c : Chain) (ids : List Int) : Prop where
  forward : Path c.after (-1) ids (-1)
  backward : Path c.before (-1) ids.reverse (-1)
  members : ∀ id, c.contains id = true ↔ id ∈ ids
  length : c.length = ids.length

theorem contains_iff : c.contains id = true ↔ ∃ l, c.link? id = some l ∧ l.live = true := by
  unfold contains
  cases c.link? id <;> simp

theorem lt_length_of_link? (h : c.link? id = some l) : 0 ≤ id ∧ id < c.links.length := by
  unfold link? at h
  split_ifs at h with hneg
  have := (List.getElem?_eq_some_iff.mp h).1
  omega

namespace Spells

variable {ids ys zs : List Int}

theorem nodup (h : c.Spells ids) : (-1 :: ids).Nodup := by
  have hno : -1 ∉ ids := fun hm => by cases (h.members _).mpr hm
  exact List.nodup_cons.mpr ⟨hno, h.forward.nodup hno⟩

theorem nodup_reverse (h : c.Spells ids) : (-1 :: ids.reverse).Nodup :=
  ((List.reverse_perm ids).cons (-1)).nodup_iff.mpr h.nodup

/-- What is on the ring is stored. -/
theorem stored (h : c.Spells ids) (hid : id ∈ -1 :: ids) :
    id ≠ c.links.length ∧ (id = -1 ∨ (c.link? id).isSome) := by
  rcases List.mem_cons.mp hid with rfl | hid
  · exact ⟨by omega, .inl rfl⟩
  · obtain ⟨l, hl, -⟩ := contains_iff.mp ((h.members id).mpr hid)
    exact ⟨Int.ne_of_lt (lt_length_of_link? hl).2, .inr (by simp [hl])⟩

theorem last_mem (_ : c.Spells (ys ++ zs)) : ys.getLastD (-1) ∈ -1 :: (ys ++ zs) := by
  have := List.getLastD_mem_cons (l := ys) (a := -1)
  grind

theorem head_mem (_ : c.Spells (ys ++ zs)) : zs.headD (-1) ∈ -1 :: (ys ++ zs) := by
  cases zs <;> simp

/-- Putting an instruction between two neighbours inserts its number. -/
theorem place (h : c.Spells (ys ++ zs)) (i : Instr) :
    (c.place (ys.getLastD (-1)) (zs.headD (-1)) i).Spells (ys ++ (c.links.length : Int) :: zs) := by
  have hnew : (c.links.length : Int) ∉ -1 :: (ys ++ zs) := fun hm => (h.stored hm).1 rfl
  obtain ⟨hp, hp'⟩ := h.stored h.last_mem
  obtain ⟨hn, hn'⟩ := h.stored h.head_mem
  constructor
  · exact h.forward.insert h.nodup hnew fun y => after_place c i y hp hn hp'
  · have hback := h.backward
    have hnodup := h.nodup_reverse
    simp only [List.reverse_append, List.reverse_cons, List.append_assoc, List.singleton_append]
      at hback hnodup ⊢
    refine hback.insert hnodup (by simpa [or_comm] using hnew) fun y => ?_
    rw [before_place c i y hp hn hn']
    simp
  · intro id
    have := h.members id
    rw [contains, link?_place c i id hp hn]
    rw [contains] at this
    cases hl : c.link? id <;> grind
  · simp [Chain.place, setNext_eq, setPrev_eq, update_eq, h.length]
    omega

/-- Unlinking an instruction takes its number out and gives the next one. -/
theorem remove (h : c.Spells (ys ++ id :: zs)) :
    (c.remove id).1 = zs.headD (-1) ∧ (c.remove id).2.Spells (ys ++ zs) := by
  obtain ⟨l, hl, hlive⟩ := contains_iff.mp ((h.members id).mpr (by simp))
  have hid : id ≠ -1 := by
    rintro rfl
    cases hl
  have hnext : l.next = zs.headD (-1) := by
    simpa [after, hid, next?, hl] using h.forward.drop.2.step_eq
  have hback : Path c.before (-1) (zs.reverse ++ id :: ys.reverse) (-1) := by simpa using h.backward
  have hprev : l.prev = ys.getLastD (-1) := by
    simpa [before, hid, prev?, hl] using hback.drop.2.step_eq
  have hlast : l.prev ∈ -1 :: (ys ++ id :: zs) := by
    have := List.getLastD_mem_cons (l := ys) (a := -1)
    grind
  have hhead : l.next ∈ -1 :: (ys ++ id :: zs) := by cases zs <;> simp [hnext]
  refine ⟨by simp [Chain.remove, hl, hlive, hnext], ?_, ?_, fun id' => ?_, ?_⟩
  · refine h.forward.erase h.nodup fun y hy => ?_
    rw [after_remove hl hlive (h.stored hlast).2 hy, hprev, hnext]
  · rw [List.reverse_append]
    refine hback.erase (by simpa using h.nodup_reverse) fun y hy => ?_
    rw [before_remove hl hlive (h.stored hhead).2 hy, hprev, hnext]
    simp
  · have := h.members id'
    have := h.nodup
    rw [contains] at *
    rw [link?_remove hl hlive]
    cases hl : c.link? id' <;> grind
  · simp [Chain.remove, hl, hlive, setNext_eq, setPrev_eq, update_eq, h.length]
    omega

end Spells

/-! ### Walking along the links -/

/-- Following `step` from `id` until there is no instruction meets `ids`. -/
def Follows (step : Int → Option Int) : Int → List Int → Prop
  | id, [] => id = -1
  | id, x :: rest => id = x ∧ ∃ n, step x = some n ∧ Follows step n rest

/-- Walking until there is no instruction goes once around the ring. -/
theorem follows_iff {step f : Int → Option Int} (hstep : step (-1) = none) (hf : ∀ x, x ≠ -1 → f x = step x) {b : Int}
    {ids : List Int} (hab : f a = some b) : Follows step b ids ↔ Path f a ids (-1) ∧ -1 ∉ ids := by
  induction ids generalizing a b with
  | nil => simp [Follows, Path, hab]
  | cons x rest ih =>
    constructor
    · rintro ⟨rfl, n, hn, hrest⟩
      have hb : b ≠ -1 := by
        rintro rfl
        rw [hstep] at hn
        cases hn
      obtain ⟨hpath, hno⟩ := (ih ((hf b hb).trans hn)).mp hrest
      exact ⟨⟨hab, hpath⟩, by simp [hb.symm, hno]⟩
    · rintro ⟨⟨hx, hpath⟩, hno⟩
      obtain ⟨hne, hrest⟩ : -1 ≠ x ∧ -1 ∉ rest := by simpa using hno
      have hn := hpath.step_eq
      exact ⟨Option.some.inj (hab.symm.trans hx), _, (hf x hne.symm).symm.trans hn,
        (ih hn).mpr ⟨hpath, hrest⟩⟩

variable {ids : List Int}

theorem follows_next_iff : Follows c.next? c.first ids ↔ Path c.after (-1) ids (-1) ∧ -1 ∉ ids :=
  follows_iff rfl (fun _ h => if_neg h) (if_pos rfl)

theorem follows_prev_iff : Follows c.prev? c.last ids ↔ Path c.before (-1) ids (-1) ∧ -1 ∉ ids :=
  follows_iff rfl (fun _ h => if_neg h) (if_pos rfl)

theorem exists_link_of_follows (h : Follows c.next? a ids) (hid : id ∈ ids) : ∃ l, c.link? id = some l := by
  induction ids generalizing a with
  | nil => cases hid
  | cons x rest ih =>
    obtain ⟨rfl, n, hn, hrest⟩ := h
    rcases List.mem_cons.mp hid with rfl | hid
    · obtain ⟨l, hl, -⟩ := Option.map_eq_some_iff.mp hn
      exact ⟨l, hl⟩
    · exact ih hrest hid

theorem walk_of_follows {fuel : Nat} (h : Follows c.next? a ids) (hfuel : ids.length ≤ fuel) :
    c.walk fuel a = ids := by
  induction fuel generalizing a ids with
  | zero =>
    obtain rfl := List.eq_nil_of_length_eq_zero (Nat.le_zero.mp hfuel)
    rfl
  | succ fuel ih =>
    cases ids with
    | nil =>
      obtain rfl : a = -1 := h
      rfl
    | cons x rest =>
      obtain ⟨rfl, n, hn, hrest⟩ := h
      obtain ⟨l, hl, rfl⟩ := Option.map_eq_some_iff.mp hn
      simp only [walk, hl, ih hrest (by simpa using hfuel)]

/-- There are enough stored instructions for a walk that ends. -/
theorem length_le_of_follows (h : Follows c.next? c.first ids) : ids.length ≤ c.links.length := by
  obtain ⟨hpath, hno⟩ := follows_next_iff.mp h
  have hsub : ids ⊆ (List.range c.links.length).map Int.ofNat := by
    intro id hid
    obtain ⟨l, hl⟩ := exists_link_of_follows h hid
    have := lt_length_of_link? hl
    exact List.mem_map.mpr ⟨id.toNat, by simp; omega, by simp; omega⟩
  simpa using ((hpath.nodup hno).subperm hsub).length_le

theorem ids_of_follows (h : Follows c.next? c.first ids) : c.ids = ids :=
  walk_of_follows h (length_le_of_follows h)

theorem filterMap_instr? {code : List (Int × Instr)}
    (h : ∀ entry ∈ code, c.instr? entry.1 = some entry.2) :
    (code.map Prod.fst).filterMap c.instr? = code.map Prod.snd := by
  rw [List.filterMap_map, ← List.filterMap_eq_map]
  exact List.filterMap_congr h

/-! ### Edits -/

/-- One call on a chain. -/
inductive Edit
  | append (i : Instr)
  | before (anchor : Int) (i : Instr)
  | after (anchor : Int) (i : Instr)
  | remove (id : Int)

/-- The instruction that is added. -/
def Edit.instr? : Edit → Option Instr
  | .append i => some i
  | .before _ i => some i
  | .after _ i => some i
  | .remove _ => none

/-- Make a call: the number that is returned, if it returns, and the chain after it. -/
def edit (c : Chain) : Edit → Option Int × Chain
  | .append i => let (id, c) := c.append i; (some id, c)
  | .before anchor i => c.insertBefore anchor i
  | .after anchor i => c.insertAfter anchor i
  | .remove id => let (next, c) := c.remove id; (some next, c)

def edits (c : Chain) : List Edit → List (Option Int) × Chain
  | [] => ([], c)
  | e :: es =>
    let (answers, last) := (c.edit e).2.edits es
    ((c.edit e).1 :: answers, last)

end Chain

open Chain

/-- A plain list of instructions, each with its number, and all that were ever added to it. -/
structure Numbered where
  code : List (Int × Instr) := []
  added : List Instr := []

namespace Numbered

def ids (s : Numbered) : List Int := s.code.map Prod.fst

/-- Insert an instruction at a position; it gets the next number. -/
def insertAt (s : Numbered) (k : Nat) (i : Instr) : Int × Numbered :=
  (s.added.length, ⟨s.code.take k ++ ((s.added.length : Int), i) :: s.code.drop k, s.added ++ [i]⟩)

/-- An edit on the plain list, with the number it gives. -/
def edit (s : Numbered) : Edit → Int × Numbered
  | .append i => s.insertAt s.code.length i
  | .before anchor i => s.insertAt (if anchor = -1 then s.code.length else s.ids.idxOf anchor) i
  | .after anchor i => s.insertAt (if anchor = -1 then 0 else s.ids.idxOf anchor + 1) i
  | .remove id =>
    if id ∈ s.ids then
      (s.ids.getD (s.ids.idxOf id + 1) (-1), { s with code := s.code.eraseIdx (s.ids.idxOf id) })
    else (-1, s)

def edits (s : Numbered) : List Edit → List Int × Numbered
  | [] => ([], s)
  | e :: es =>
    let (answers, last) := (s.edit e).2.edits es
    ((s.edit e).1 :: answers, last)

/-- Is the anchor of an insertion in the list, or no instruction at all? -/
def allows (s : Numbered) : Edit → Bool
  | .before anchor _ => anchor == -1 || s.ids.contains anchor
  | .after anchor _ => anchor == -1 || s.ids.contains anchor
  | _ => true

def allowsAll (s : Numbered) : List Edit → Bool
  | [] => true
  | e :: es => s.allows e && (s.edit e).2.allowsAll es

end Numbered

namespace Chain

variable {c : Chain} {id p n : Int}

/-! ### One edit -/

theorem instr?_place (c : Chain) (i : Instr) (id : Int) (hp : p ≠ c.links.length)
    (hn : n ≠ c.links.length) :
    (c.place p n i).instr? id = if id = c.links.length then some i else c.instr? id := by
  rw [instr?, link?_place c i id hp hn, instr?]
  by_cases hid : id = c.links.length
  · simp [hid]
  · rw [if_neg hid, if_neg hid, Option.map_map]
    rfl

theorem remove_of_not_contains (h : c.contains id = false) : c.remove id = (-1, c) := by
  unfold remove
  unfold contains at h
  cases hl : c.link? id <;> simp_all

theorem instr?_remove (c : Chain) (id id' : Int) : (c.remove id).2.instr? id' = c.instr? id' := by
  by_cases h : c.contains id = true
  · obtain ⟨l, hl, hlive⟩ := contains_iff.mp h
    rw [instr?, link?_remove hl hlive, instr?]
    cases c.link? id' with
    | none => rfl
    | some l' =>
      simp only [Option.map_some]
      split_ifs <;> rfl
  · rw [remove_of_not_contains (by simpa using h)]

/-- A chain and the plain list it stands for. -/
structure Represents (c : Chain) (s : Numbered) : Prop where
  spells : c.Spells s.ids
  /-- What was ever added is stored under its number. -/
  stored : ∀ k : Nat, c.instr? k = s.added[k]?
  coded : ∀ entry ∈ s.code, c.instr? entry.1 = some entry.2

namespace Represents

variable {s : Numbered}

theorem length_links (h : c.Represents s) : c.links.length = s.added.length := by
  have hadded : c.links.map (·.instr) = s.added := by
    apply List.ext_getElem?
    intro k
    rw [← h.stored k, List.getElem?_map]
    rfl
  rw [← hadded, List.length_map]

variable {ys zs : List Int}

/-- Between two neighbours of the ring an instruction is where it is inserted in the list. -/
theorem place (h : c.Represents s) (hids : s.ids = ys ++ zs) (i : Instr) :
    (c.place (ys.getLastD (-1)) (zs.headD (-1)) i).Represents (s.insertAt ys.length i).2 := by
  have hspells := h.spells
  rw [hids] at hspells
  have hlen := h.length_links
  obtain ⟨hp, -⟩ := hspells.stored hspells.last_mem
  obtain ⟨hn, -⟩ := hspells.stored hspells.head_mem
  constructor
  · have hnew : (s.insertAt ys.length i).2.ids = ys ++ (c.links.length : Int) :: zs := by
      simp only [Numbered.ids] at hids
      simp [Numbered.ids, Numbered.insertAt, hids, hlen]
    rw [hnew]
    exact hspells.place i
  · intro j
    rw [instr?_place c i j hp hn, h.stored, hlen]
    simp only [Numbered.insertAt]
    grind
  · intro entry hentry
    rw [instr?_place c i _ hp hn]
    have hcases : entry = ((s.added.length : Int), i) ∨ entry ∈ s.code := by
      simp only [Numbered.insertAt, List.mem_append, List.mem_cons] at hentry
      rcases hentry with h | h | h
      · exact .inr (List.mem_of_mem_take h)
      · exact .inl h
      · exact .inr (List.mem_of_mem_drop h)
    rcases hcases with rfl | hmem
    · simp [hlen]
    · have hne : entry.1 ≠ c.links.length :=
        (h.spells.stored (List.mem_cons_of_mem _ (List.mem_map_of_mem hmem))).1
      rw [if_neg hne]
      exact h.coded entry hmem

/-- Inserting before a number of the ring, or before its end. -/
theorem insertBefore (h : c.Represents s) (hids : s.ids = ys ++ zs) (i : Instr) :
    (c.insertBefore (zs.headD (-1)) i).1 = some (s.insertAt ys.length i).1 ∧
      (c.insertBefore (zs.headD (-1)) i).2.Represents (s.insertAt ys.length i).2 := by
  have hback := h.spells.backward
  have hnodup := h.spells.nodup
  rw [hids] at hback hnodup
  rw [List.reverse_append] at hback
  have heq : c.insertBefore (zs.headD (-1)) i
      = (some (c.links.length : Int), c.place (ys.getLastD (-1)) (zs.headD (-1)) i) := by
    cases zs with
    | nil =>
      have hlast : c.last = ys.getLastD (-1) := by simpa [before] using hback.step_eq
      have happend : c.insertBefore (-1) i = (some (c.append i).1, (c.append i).2) := rfl
      rw [List.headD_nil, happend, append_eq, hlast]
    | cons z zs =>
      have hz : z ≠ -1 := by grind
      exact insertBefore_eq (by simpa [before, hz] using hback.drop.step_eq)
  rw [heq]
  exact ⟨by simp [Numbered.insertAt, h.length_links], h.place hids i⟩

/-- An edit of the chain is the same edit of the list. -/
theorem edit (h : c.Represents s) {e : Edit} (hallows : s.allows e = true) :
    (c.edit e).1 = some (s.edit e).1 ∧ (c.edit e).2.Represents (s.edit e).2 := by
  have hlen : s.code.length = s.ids.length := (List.length_map ..).symm
  have hmember : ∀ {id}, id ∈ s.ids → id ≠ -1 ∧ ∃ ys zs,
      s.ids = ys ++ id :: zs ∧ s.ids.idxOf id = ys.length := by
    intro id hid
    refine ⟨fun heq => (List.nodup_cons.mp h.spells.nodup).1 (heq ▸ hid), ?_⟩
    obtain ⟨ys, zs, hids, hno⟩ := List.eq_append_cons_of_mem hid
    exact ⟨ys, zs, hids, by simp [hids, List.idxOf_append_of_notMem hno]⟩
  cases e with
  | append i =>
    simp only [Numbered.edit, hlen]
    exact h.insertBefore (List.append_nil _).symm i
  | before anchor i =>
    simp only [Numbered.allows, Bool.or_eq_true, beq_iff_eq, List.contains_iff_mem] at hallows
    rcases hallows with rfl | hmem
    · simp only [Numbered.edit, if_true, hlen]
      exact h.insertBefore (List.append_nil _).symm i
    · obtain ⟨hne, ys, zs, hids, hk⟩ := hmember hmem
      simp only [Chain.edit, Numbered.edit, if_neg hne, hk]
      exact h.insertBefore hids i
  | after anchor i =>
    simp only [Numbered.allows, Bool.or_eq_true, beq_iff_eq, List.contains_iff_mem] at hallows
    rcases hallows with rfl | hmem
    · have hfirst : c.first = s.ids.headD (-1) := by simpa [after] using h.spells.forward.step_eq
      simp only [Chain.edit, Numbered.edit, insertAfter, if_true, hfirst]
      exact h.insertBefore (List.nil_append _).symm i
    · obtain ⟨hne, ys, zs, hids, hk⟩ := hmember hmem
      have hforward := h.spells.forward
      rw [hids] at hforward
      have hnext : c.next? anchor = some (zs.headD (-1)) := by
        simpa [after, hne] using hforward.drop.2.step_eq
      simp only [Chain.edit, Numbered.edit, insertAfter, if_neg hne, hk, hnext]
      have hsplit : s.ids = (ys ++ [anchor]) ++ zs := by simp [hids]
      simpa using h.insertBefore hsplit i
  | remove id =>
    by_cases hid : id ∈ s.ids
    · obtain ⟨-, ys, zs, hids, hk⟩ := hmember hid
      have hspells := h.spells
      rw [hids] at hspells
      obtain ⟨hnext, hspells⟩ := hspells.remove
      simp only [Chain.edit, Numbered.edit, if_pos hid, hk]
      refine ⟨?_, ?_, fun k => ?_, fun entry hentry => ?_⟩
      · rw [hnext, hids]
        cases zs <;> simp
      · have herase : (s.code.eraseIdx ys.length).map Prod.fst = ys ++ zs := by
          rw [← List.eraseIdx_map]
          exact (congrArg (List.eraseIdx · ys.length) hids).trans (by simp [List.eraseIdx_append_of_length_le])
        rw [Numbered.ids, herase]
        exact hspells
      · rw [instr?_remove, h.stored]
      · rw [instr?_remove]
        exact h.coded entry (List.mem_of_mem_eraseIdx hentry)
    · have hno : c.contains id = false := by simpa [hid] using h.spells.members id
      simpa only [Chain.edit, Numbered.edit, if_neg hid, remove_of_not_contains hno, true_and] using h

theorem edits (h : c.Represents s) {es : List Edit} (hallows : s.allowsAll es = true) :
    (c.edits es).1 = (s.edits es).1.map some ∧ (c.edits es).2.Represents (s.edits es).2 := by
  induction es generalizing c s with
  | nil => exact ⟨rfl, h⟩
  | cons e es ih =>
    obtain ⟨hfirst, hrest⟩ := Bool.and_eq_true_iff.mp hallows
    obtain ⟨hanswer, hstep⟩ := h.edit hfirst
    obtain ⟨hanswers, hlast⟩ := ih hstep hrest
    exact ⟨by simp [Chain.edits, Numbered.edits, hanswer, hanswers], hlast⟩

theorem follows_next (h : c.Represents s) : Follows c.next? c.first s.ids :=
  follows_next_iff.mpr ⟨h.spells.forward, (List.nodup_cons.mp h.spells.nodup).1⟩

theorem instrs_eq (h : c.Represents s) : c.instrs = s.code.map Prod.snd := by
  rw [instrs, ids_of_follows h.follows_next]
  exact filterMap_instr? h.coded

end Represents

theorem represents_empty : empty.Represents {} := by
  refine ⟨⟨rfl, rfl, fun id => ?_, rfl⟩, fun k => rfl, by simp⟩
  have : empty.link? id = none := by simp [link?, empty]
  simp [contains, this, Numbered.ids]

end Chain

/-! ### Numbers -/

/-- The answers to insertions. -/
def Edit.numbers {α : Type} (es : List Edit) (answers : List α) : List α :=
  (es.zip answers).filterMap fun (e, answer) => e.instr?.map fun _ => answer

theorem Edit.numbers_map {α β : Type} (es : List Edit) (answers : List α) (f : α → β) :
    Edit.numbers es (answers.map f) = (Edit.numbers es answers).map f := by
  simp only [Edit.numbers, List.zip_map_right, List.filterMap_map, List.map_filterMap]
  refine List.filterMap_congr fun x _ => ?_
  cases hx : x.1.instr? <;> simp [hx]

namespace Numbered

theorem edit_of_instr? (s : Numbered) {e : Edit} {i : Instr} (h : e.instr? = some i) :
    (s.edit e).1 = s.added.length ∧ (s.edit e).2.added = s.added ++ [i] := by
  cases e <;> cases h <;> exact ⟨rfl, rfl⟩

theorem added_of_instr?_eq_none (s : Numbered) {e : Edit} (h : e.instr? = none) :
    (s.edit e).2.added = s.added := by
  cases e <;> cases h
  simp only [edit]
  split <;> rfl

theorem added_edits (s : Numbered) (es : List Edit) :
    (s.edits es).2.added = s.added ++ es.filterMap Edit.instr? := by
  induction es generalizing s with
  | nil => simp [edits]
  | cons e es ih =>
    cases he : e.instr? with
    | none => simp [edits, ih, he, s.added_of_instr?_eq_none he]
    | some i => simp [edits, ih, he, s.edit_of_instr? he]

/-- Each insertion gets the next number. -/
theorem numbers_edits (s : Numbered) (es : List Edit) :
    Edit.numbers es (s.edits es).1 =
      (List.range' s.added.length (es.filterMap Edit.instr?).length).map Int.ofNat := by
  induction es generalizing s with
  | nil => rfl
  | cons e es ih =>
    have hcons : Edit.numbers (e :: es) (s.edits (e :: es)).1 =
        (e.instr?.map fun _ => (s.edit e).1).toList ++ Edit.numbers es ((s.edit e).2.edits es).1 := by
      cases he : e.instr? <;> simp [Edit.numbers, edits, he]
    rw [hcons, ih]
    cases he : e.instr? with
    | none => simp [he, s.added_of_instr?_eq_none he]
    | some i => simp [he, s.edit_of_instr? he, List.range'_succ]

end Numbered

namespace Chain

/--
**The arena list is a plain list.**

Make any edits on an empty chain, such that the anchor of each insertion is in the list at that
time or no instruction at all.  All of them return what the same edits on the plain list give.
Then the numbers and the instructions of the chain are those of the list, in order; following
the links forwards and backwards meets the numbers in order and in reverse; length and
membership are those of the list, and removing what is not in it gives no instruction and
changes nothing.  The numbers given to insertions are 0, 1, 2 and so on, so none is given twice, and
number k is still that of the k-th instruction that was inserted.
-/
theorem edits_refine (es : List Edit) (h : Numbered.allowsAll {} es = true) :
    let (answers, c) := empty.edits es
    let (expected, s) := Numbered.edits {} es
    let added := es.filterMap Edit.instr?
    answers = expected.map some ∧
      c.ids = s.ids ∧ c.instrs = s.code.map Prod.snd ∧
      Follows c.next? c.first s.ids ∧ Follows c.prev? c.last s.ids.reverse ∧
      c.length = s.code.length ∧ (∀ id, c.contains id = true ↔ id ∈ s.ids) ∧
      (∀ id, id ∉ s.ids → c.remove id = (-1, c)) ∧
      Edit.numbers es answers = (List.range added.length).map (fun k : Nat => some (k : Int)) ∧
      ∀ k : Nat, c.instr? k = added[k]? := by
  obtain ⟨hanswers, hrep⟩ := represents_empty.edits h
  have hspells := hrep.spells
  have hno := (List.nodup_cons.mp hspells.nodup).1
  refine ⟨hanswers, ids_of_follows hrep.follows_next, hrep.instrs_eq, hrep.follows_next,
    follows_prev_iff.mpr ⟨hspells.backward, by simpa using hno⟩,
    hspells.length.trans (by simp [Numbered.ids]), hspells.members, fun id hid => ?_, ?_, fun k => ?_⟩
  · exact remove_of_not_contains (by simpa [hid] using hspells.members id)
  · rw [hanswers, Edit.numbers_map, Numbered.numbers_edits, List.map_map]
    simp only [List.range_eq_range']
    rfl
  · rw [hrep.stored, Numbered.added_edits]
    rfl

/-- Insertions at both ends and in the middle, removals there, and one of what is not linked. -/
def mixedEdits : List Edit :=
  [.after (-1) (.target 1), .append (.target 2), .before 0 (.target 3), .after 0 (.target 4), .remove 0,
    .remove 0, .before (-1) (.target 5), .remove 4, .remove 2, .after 1 (.target 6)]

theorem mixedEdits_refine :
    Numbered.allowsAll {} mixedEdits = true ∧ (empty.edits mixedEdits).2.ids = [3, 1, 5] ∧
      (empty.edits mixedEdits).1 = [0, 1, 2, 3, 3, -1, 4, -1, 3, 5].map some := by
  have h := edits_refine mixedEdits (by decide)
  exact ⟨by decide, h.2.1.trans (by decide), h.1.trans (by decide)⟩

end Chain

end Codegen
