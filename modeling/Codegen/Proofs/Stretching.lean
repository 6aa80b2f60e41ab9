/-
Stretching over loops, in any order.

The intervals of all registers are stretched together: round after round, every register is
looked at for every loop, until a round changes nothing.  Nothing says in which order a round
visits loops and registers.  It does not matter: an interval that a round leaves alone is closed,
every interval on the way is part of the least closed one that holds the span of the register,
and a closed one is all of it.

A round that changes an interval covers one more loop with it, so there are at most as many such
rounds as there are loops, whatever the number of registers.
-/
import Codegen.Proofs.Interval
import Codegen.Proofs.Lists

namespace Codegen

namespace Interval

/-! ### Rounds of visits -/

/-- Let the first interval of an ordinary register grow over loops that it meets. -/
def grow (loops : List Interval) (v : Int) (segments : List Interval) : List Interval :=
  if Reg.isPseudo v then segments
  else match segments with
    | s :: rest => coverAll loops s :: rest
    | [] => []

/-- Look at one register for one loop. -/
def visited (x : Interval × Int) (entry : Int × List Interval) : Int × List Interval :=
  if entry.1 = x.2 then (entry.1, grow [x.1] entry.1 entry.2) else entry

/-- The same among all registers; the flag says whether anything has changed. -/
def visit (state : List (Int × List Interval) × Bool) (x : Interval × Int) :
    List (Int × List Interval) × Bool :=
  let grown := state.1.map (visited x)
  (grown, state.2 || decide (grown ≠ state.1))

def round (order : List (Interval × Int)) (ranges : List (Int × List Interval)) :
    List (Int × List Interval) × Bool :=
  order.foldl visit (ranges, false)

/-- The intervals after some rounds, and whether the last of them has changed anything.  The rounds
go on as long as that is so. -/
def afterRounds (order : Nat → List (Interval × Int)) (ranges : List (Int × List Interval)) :
    Nat → List (Int × List Interval) × Bool
  | 0 => (ranges, true)
  | n + 1 => round (order n) (afterRounds order ranges n).1

/-- The intervals of every register that is touched, before any loop is looked at. -/
def spans (code : List Instr) : List (Int × List Interval) :=
  (registers (Touch.ofCode code)).map fun v =>
    (v, Touch.segments ((Touch.ofCode code).filter (·.vreg == v)))

/-- A round looks at every register that has intervals for every backward jump, in any order. -/
def IsRound (code : List Instr) (order : List (Interval × Int)) : Prop :=
  ∀ l v, (l, v) ∈ order ↔ IsLoop code l ∧ v ∈ (spans code).map (·.1)

/-! ### What a round does to one register -/

/-- The loops for which an order visits a register, in that order. -/
def loopsOf (v : Int) (order : List (Interval × Int)) : List Interval :=
  (order.filter (·.2 = v)).map (·.1)

theorem mem_loopsOf {l : Interval} {v : Int} {order : List (Interval × Int)} :
    l ∈ loopsOf v order ↔ (l, v) ∈ order := by
  simp [loopsOf]

/-- In a round every register that has intervals is looked at for every loop. -/
theorem IsRound.mem_loopsOf_iff {code : List Instr} {order : List (Interval × Int)} {v : Int}
    (h : IsRound code order) (hv : v ∈ registers (Touch.ofCode code)) (l : Interval) :
    l ∈ loopsOf v order ↔ l ∈ loops code := by
  have hspan : v ∈ (spans code).map (·.1) := by simpa [spans] using hv
  rw [mem_loopsOf, h, mem_loops_iff, and_iff_left hspan]

theorem loopsOf_cons (v : Int) (x : Interval × Int) (order : List (Interval × Int)) :
    loopsOf v (x :: order) = loopsOf v [x] ++ loopsOf v order := by
  simp only [loopsOf, ← List.map_append, ← List.filter_append, List.singleton_append]

theorem coverAll_append (ls ls' : List Interval) (s : Interval) :
    coverAll (ls ++ ls') s = coverAll ls' (coverAll ls s) := List.foldl_append

theorem grow_append (ls ls' : List Interval) (v : Int) (segments : List Interval) :
    grow (ls ++ ls') v segments = grow ls' v (grow ls v segments) := by
  unfold grow
  split
  · rfl
  · cases segments with
    | nil => rfl
    | cons s rest => simp only [coverAll_append]

theorem grow_nil (v : Int) (segments : List Interval) : grow [] v segments = segments := by
  unfold grow
  split
  · rfl
  · cases segments <;> rfl

theorem visited_eq (x : Interval × Int) (entry : Int × List Interval) :
    visited x entry = (entry.1, grow (loopsOf entry.1 [x]) entry.1 entry.2) := by
  unfold visited
  by_cases h : entry.1 = x.2
  · simp [h, loopsOf]
  · simp [h, Ne.symm h, loopsOf, grow_nil]

/-- A round as a whole, register by register. -/
theorem foldl_visit_fst (order : List (Interval × Int)) (state : List (Int × List Interval) × Bool) :
    (order.foldl visit state).1
      = state.1.map fun entry => (entry.1, grow (loopsOf entry.1 order) entry.1 entry.2) := by
  induction order generalizing state with
  | nil => simp [loopsOf, grow_nil]
  | cons x order ih =>
    rw [List.foldl_cons, ih, visit, List.map_map]
    refine List.map_congr_left fun entry _ => ?_
    rw [Function.comp_apply, visited_eq]
    rw [← grow_append, ← loopsOf_cons]

variable {ls now segments ls' : List Interval} {s t l : Interval} {n : Nat} {v : Int} {e entry : Int × List Interval}

section settled

variable {loops : List Interval}

theorem closed_append : Closed (ls ++ ls') s ↔ Closed ls s ∧ Closed ls' s := by
  simp only [Closed, List.mem_append, or_imp, forall_and]

/-- There is nothing left to do for a register. -/
def Settled (loops : List Interval) (entry : Int × List Interval) : Prop :=
  Reg.isPseudo entry.1 = false → ∀ s ∈ entry.2.head?, Closed loops s

theorem grow_eq_self_iff : grow loops e.1 e.2 = e.2 ↔ Settled loops e := by
  obtain ⟨v, segments⟩ := e
  unfold grow Settled
  cases hv : Reg.isPseudo v with
  | true => simp
  | false =>
    cases segments with
    | nil => simp
    | cons s rest => simp [coverAll_eq_self_iff]

theorem settled_append : Settled (ls ++ ls') entry ↔ Settled ls entry ∧ Settled ls' entry := by
  simp only [Settled, closed_append]
  exact ⟨fun h => ⟨fun hv s hs => (h hv s hs).1, fun hv s hs => (h hv s hs).2⟩,
    fun h hv s hs => ⟨h.1 hv s hs, h.2 hv s hs⟩⟩

theorem visit_snd {state : List (Int × List Interval) × Bool} {x : Interval × Int} :
    (visit state x).2 = false ↔
      state.2 = false ∧ ∀ entry ∈ state.1, Settled (loopsOf entry.1 [x]) entry := by
  simp only [visit, Bool.or_eq_false_iff, decide_eq_false_iff_not, not_not, map_eq_self_iff,
    visited_eq, ← grow_eq_self_iff]
  simp only [Prod.ext_iff, true_and]

/-- A round says that it has changed nothing exactly if there was nothing left to do. -/
theorem foldl_visit_snd (order : List (Interval × Int)) (state : List (Int × List Interval) × Bool) :
    (order.foldl visit state).2 = false ↔
      state.2 = false ∧ ∀ entry ∈ state.1, Settled (loopsOf entry.1 order) entry := by
  induction order generalizing state with
  | nil => simp [loopsOf, Settled, Closed]
  | cons x order ih =>
    have hsplit : ∀ entry : Int × List Interval, Settled (loopsOf entry.1 (x :: order)) entry ↔
        Settled (loopsOf entry.1 [x]) entry ∧ Settled (loopsOf entry.1 order) entry := by
      intro entry
      rw [loopsOf_cons, settled_append]
    rw [List.foldl_cons, ih, visit_snd]
    simp only [hsplit]
    constructor
    · rintro ⟨⟨hflag, hx⟩, hrest⟩
      -- a visit that finds nothing to do leaves the intervals as they are
      have hsame : (visit state x).1 = state.1 :=
        map_eq_self_iff.mpr fun entry he => by
          rw [visited_eq, grow_eq_self_iff.mpr (hx entry he)]
      rw [hsame] at hrest
      exact ⟨hflag, fun entry he => ⟨hx entry he, hrest entry he⟩⟩
    · rintro ⟨hflag, hall⟩
      have hsame : (visit state x).1 = state.1 :=
        map_eq_self_iff.mpr fun entry he => by
          rw [visited_eq, grow_eq_self_iff.mpr (hall entry he).1]
      rw [hsame]
      exact ⟨⟨hflag, fun entry he => (hall entry he).1⟩, fun entry he => (hall entry he).2⟩

/-! ### The least closed interval -/

theorem cover_within (hs : s.Within t) (hl : s.overlaps l = true → l.Within t) : (cover s l).Within t := by
  unfold cover
  split
  · rename_i hov
    exact ⟨Nat.le_min.mpr ⟨hs.1, (hl hov).1⟩, Nat.max_le.mpr ⟨hs.2, (hl hov).2⟩⟩
  · exact hs

theorem coverAll_within (ht : Closed loops t) : ∀ {s}, s.Within t → (coverAll loops s).Within t := by
  induction loops with
  | nil => exact fun hs => hs
  | cons l rest ih =>
    intro s hs
    have hclosed : Closed rest t := fun l' hl' => ht l' (by simp [hl'])
    exact ih hclosed (cover_within hs fun hov => ht l (by simp) (overlaps_mono hs hov))

theorem stretchWithin_within (ht : Closed loops t) :
    ∀ (n : Nat) {s}, s.Within t → (stretchWithin loops n s).Within t := by
  intro n
  induction n with
  | zero => exact fun hs => hs
  | succ n ih =>
    intro s hs
    simp only [stretchWithin]
    split
    · exact hs
    · exact ih (coverAll_within ht hs)

/-- Nothing is covered that need not be. -/
theorem stretch_within (hs : s.Within t) (ht : Closed loops t) : (stretch loops s).Within t :=
  stretchWithin_within ht _ hs

theorem Within.antisymm (h : s.Within t) (h' : t.Within s) : s = t := by
  obtain ⟨first, last⟩ := s
  obtain ⟨first', last'⟩ := t
  simp only [Within] at h h'
  simp only [mk.injEq]
  omega

/-- A closed range on the way to the least one is the least one. -/
theorem eq_stretch_of_closed (hs : s.Within t) (ht : t.Within (stretch loops s)) (hclosed : Closed loops t) :
    t = stretch loops s :=
  ht.antisymm (stretch_within hs hclosed)

/-! ### Round after round -/

theorem closed_congr (hls : ∀ l, l ∈ ls ↔ l ∈ loops) : Closed ls s ↔ Closed loops s := by
  simp only [Closed, hls]

/-- What covering in some order has made of a range after some rounds. -/
structure Underway (loops : List Interval) (s : Interval) (n : Nat) (t : Interval) : Prop where
  within : s.Within t
  inside : t.Within (stretch loops s)
  /-- Unless all is done, each round has covered a loop. -/
  progress : Closed loops t ∨ (uncovered loops t).length + n ≤ loops.length

theorem Underway.start (loops : List Interval) (s : Interval) : Underway loops s 0 s :=
  ⟨.refl s, within_stretch loops s, .inr (List.length_filter_le _ _)⟩

theorem Underway.round (h : Underway loops s n t) (hls : ∀ l, l ∈ ls ↔ l ∈ loops) :
    Underway loops s (n + 1) (coverAll ls t) := by
  refine ⟨h.within.trans (within_coverAll ls t),
    coverAll_within ((closed_congr hls).mpr (closed_stretch loops s)) h.inside, ?_⟩
  by_cases hsame : coverAll ls t = t
  · rw [hsame]
    exact .inl ((closed_congr hls).mp (coverAll_eq_self_iff.mp hsame))
  · have hlt := uncovered_coverAll_lt (fun l hl => (hls l).mp hl) hsame
    rcases h.progress with hclosed | hle
    · exact absurd (coverAll_eq_self_iff.mpr ((closed_congr hls).mpr hclosed)) hsame
    · exact .inr (by omega)

theorem Underway.closed (h : Underway loops s n t) (hn : loops.length ≤ n) : Closed loops t := by
  rcases h.progress with hclosed | hle
  · exact hclosed
  · intro l hl _
    by_contra hout
    have := List.length_pos_of_mem (mem_uncovered.mpr ⟨hl, hout⟩)
    omega

/-- The intervals of one register, with its first one stretched. -/
def stretchFirst (loops : List Interval) (v : Int) (segments : List Interval) : List Interval :=
  if Reg.isPseudo v then segments
  else match segments with
    | s :: rest => stretch loops s :: rest
    | [] => []

/-- What the rounds have made of the intervals of one register. -/
inductive Entry.Underway (loops : List Interval) (n : Nat) (v : Int) :
    List Interval → List Interval → Prop
  | pseudo (segments : List Interval) (hv : Reg.isPseudo v = true) : Underway loops n v segments segments
  | empty : Underway loops n v [] []
  | ordinary {s t : Interval} (rest : List Interval) (hv : Reg.isPseudo v = false)
      (h : Interval.Underway loops s n t) : Underway loops n v (s :: rest) (t :: rest)

theorem Entry.Underway.start (loops : List Interval) (v : Int) (segments : List Interval) :
    Entry.Underway loops 0 v segments segments := by
  cases hv : Reg.isPseudo v with
  | true => exact .pseudo segments hv
  | false =>
    cases segments with
    | nil => exact .empty
    | cons s rest => exact .ordinary rest hv (.start loops s)

theorem Entry.Underway.round (h : Entry.Underway loops n v segments now) (hls : ∀ l, l ∈ ls ↔ l ∈ loops) :
    Entry.Underway loops (n + 1) v segments (grow ls v now) := by
  cases h with
  | pseudo _ hv =>
    rw [show grow ls v now = now from if_pos hv]
    exact .pseudo now hv
  | empty =>
    rw [show grow ls v [] = [] from ite_self _]
    exact .empty
  | ordinary rest hv h =>
    rw [grow, if_neg (by simp [hv])]
    exact .ordinary rest hv (h.round hls)

theorem Entry.Underway.settled (h : Entry.Underway loops n v segments now) (hn : loops.length ≤ n) :
    Settled loops (v, now) := by
  intro hv s hs
  cases h with
  | pseudo _ hpseudo => simp [hv] at hpseudo
  | empty => simp at hs
  | ordinary rest _ h =>
    obtain rfl : _ = s := by simpa using hs
    exact h.closed hn

theorem Entry.Underway.eq_of_settled (h : Entry.Underway loops n v segments now)
    (hsettled : Settled loops (v, now)) : now = stretchFirst loops v segments := by
  cases h with
  | pseudo _ hv => exact (if_pos hv).symm
  | empty => exact (ite_self _).symm
  | ordinary rest hv h =>
    rw [stretchFirst, if_neg (by simp [hv])]
    have hclosed := hsettled hv _ rfl
    exact congrArg (· :: rest) (eq_stretch_of_closed h.within h.inside hclosed)

end settled

/-! ### The registers of the code -/

section

variable {code : List Instr} {order : Nat → List (Interval × Int)}

/-- Every register is underway after every round. -/
theorem underway_afterRounds
    (horder : ∀ n, IsRound code (order n)) (n : Nat) :
    ∃ now : Int → List Interval,
      (afterRounds order (spans code) n).1
        = (registers (Touch.ofCode code)).map (fun v => (v, now v)) ∧
      ∀ v ∈ registers (Touch.ofCode code), Entry.Underway (loops code) n v
        (Touch.segments ((Touch.ofCode code).filter (·.vreg == v))) (now v) := by
  induction n with
  | zero => exact ⟨_, rfl, fun v _ => .start (loops code) v _⟩
  | succ n ih =>
    obtain ⟨now, hnow, hall⟩ := ih
    refine ⟨fun v => grow (loopsOf v (order n)) v (now v), ?_, fun v hv => ?_⟩
    · rw [afterRounds, round, foldl_visit_fst, hnow, List.map_map]
      rfl
    · exact (hall v hv).round ((horder n).mem_loopsOf_iff hv)

/-- The flag after a round: was there a register with something left to do? -/
theorem afterRounds_snd
    (horder : ∀ n, IsRound code (order n)) (n : Nat) :
    (afterRounds order (spans code) (n + 1)).2 = false ↔
      ∀ entry ∈ (afterRounds order (spans code) n).1, Settled (loops code) entry := by
  rw [afterRounds, round, foldl_visit_snd]
  simp only [true_and]
  obtain ⟨now, hnow, -⟩ := underway_afterRounds horder n
  refine forall₂_congr fun entry he => ?_
  have hv : entry.1 ∈ registers (Touch.ofCode code) := by
    rw [hnow] at he
    obtain ⟨v, hv, rfl⟩ := List.mem_map.mp he
    exact hv
  simp only [Settled, closed_congr ((horder n).mem_loopsOf_iff hv)]

/-- When there is nothing left to do, the intervals are those of the code. -/
theorem afterRounds_of_settled
    (horder : ∀ n, IsRound code (order n))
    (h : ∀ entry ∈ (afterRounds order (spans code) n).1, Settled (loops code) entry) :
    afterRounds order (spans code) (n + 1) = (ofCode code, false) := by
  have hflag := (afterRounds_snd horder n).mpr h
  obtain ⟨now, hnow, hall⟩ := underway_afterRounds horder n
  refine Prod.ext ?_ hflag
  rw [afterRounds, round, foldl_visit_fst, hnow, List.map_map]
  refine List.map_congr_left fun v hv => ?_
  have hsettled := h (v, now v) (by rw [hnow]; exact List.mem_map_of_mem hv)
  have hgrow : grow (loopsOf v (order n)) v (now v) = now v :=
    (grow_eq_self_iff (e := (v, now v))).mpr fun hord s hs =>
      (closed_congr ((horder n).mem_loopsOf_iff hv)).mpr (hsettled hord s hs)
  show (v, grow _ v (now v)) = (v, ofRegister (Touch.ofCode code) (loops code) v)
  rw [hgrow, (hall v hv).eq_of_settled hsettled]
  rfl

/-- The rounds end, after at most one more than there are loops, with the intervals of the code. -/
theorem exists_afterRounds_eq_ofCode
    (horder : ∀ n, IsRound code (order n)) :
    ∃ n ≤ (loops code).length + 1, (∀ k < n, (afterRounds order (spans code) k).2 = true) ∧
      afterRounds order (spans code) n = (ofCode code, false) := by
  have hsettles : ∀ entry ∈ (afterRounds order (spans code) (loops code).length).1,
      Settled (loops code) entry := by
    obtain ⟨now, hnow, hall⟩ := underway_afterRounds horder (loops code).length
    rw [hnow]
    intro entry he
    obtain ⟨v, hv, rfl⟩ := List.mem_map.mp he
    exact (hall v hv).settled (Nat.le_refl _)
  -- the first round before which there is nothing left to do is the last one
  obtain ⟨n, hn, hfirst⟩ := Nat.lt_wfRel.wf.has_min
    {n | ∀ entry ∈ (afterRounds order (spans code) n).1, Settled (loops code) entry}
    ⟨_, hsettles⟩
  have hle : n ≤ (loops code).length := Nat.le_of_not_lt fun hlt => hfirst _ hsettles hlt
  refine ⟨n + 1, by omega, fun k hk => ?_, afterRounds_of_settled horder hn⟩
  cases k with
  | zero => rfl
  | succ k =>
    rw [← Bool.not_eq_false]
    exact fun hflag => hfirst k ((afterRounds_snd horder k).mp hflag) (show k < n by omega)

theorem mem_foldl_visit_of_pseudo (hv : Reg.isPseudo v = true) (xs : List (Interval × Int))
    (state : List (Int × List Interval) × Bool) (segments : List Interval) :
    (v, segments) ∈ (xs.foldl visit state).1 ↔ (v, segments) ∈ state.1 := by
  rw [foldl_visit_fst, List.mem_map]
  constructor
  · rintro ⟨⟨u, segments'⟩, he, heq⟩
    obtain ⟨rfl, rfl⟩ := Prod.mk.inj heq
    rwa [show grow _ u segments' = segments' from if_pos hv]
  · exact fun he => ⟨_, he, by rw [show grow _ v segments = segments from if_pos hv]⟩

theorem mem_afterRounds_of_pseudo (hv : Reg.isPseudo v = true) (n : Nat) (segments : List Interval) :
    (v, segments) ∈ (afterRounds order (spans code) n).1 ↔ (v, segments) ∈ spans code := by
  induction n with
  | zero => rfl
  | succ n ih => rw [afterRounds, round, mem_foldl_visit_of_pseudo hv, ih]

end

/-! ### The span of a register -/

/-- Does the instruction read or write the register? -/
def Mentions (i : Instr) (v : Int) : Prop := v ∈ i.reads ∨ i.defined? = some v

/-- The range from the first mention of a register to the last, or from the start of the code if the
first mention is a read. -/
structure IsSpan (code : List Instr) (v : Int) (s : Interval) : Prop where
  first : ∃ p i, code[p]? = some i ∧ Mentions i v ∧
    (∀ q < p, ∀ j, code[q]? = some j → ¬ Mentions j v) ∧ s.first = if v ∈ i.reads then 0 else p
  last : ∃ i, code[s.last]? = some i ∧ Mentions i v ∧
    ∀ q > s.last, ∀ j, code[q]? = some j → ¬ Mentions j v

end Interval

variable {p : Nat}

namespace Touch

variable {i : Instr} {t : Touch}

theorem mem_ofInstr_ordinary (hv : Reg.isPseudo t.vreg = false) :
    t ∈ ofInstr i p ↔ t.pos = p ∧
      (t.writes = false ∧ t.vreg ∈ i.reads ∨ t.writes = true ∧ i.defined? = some t.vreg) := by
  have hcall : t.vreg ∉ Reg.callerSaved := by
    have hpseudo : ∀ v ∈ Reg.callerSaved, Reg.isPseudo v = true := by decide
    intro hmem
    simp [hpseudo _ hmem] at hv
  have hcalls : t ∉ (if i.op.isCall then Reg.callerSaved.map (⟨·, p, true⟩) else []) := by
    intro hmem
    split at hmem
    · obtain ⟨v, hsaved, rfl⟩ := List.mem_map.mp hmem
      exact hcall hsaved
    · simp at hmem
  simp only [ofInstr, List.mem_append, List.mem_map, Option.mem_toList, hcalls, or_false]
  constructor
  · rintro (⟨v, hread, rfl⟩ | ⟨v, hwrite, rfl⟩)
    · exact ⟨rfl, .inl ⟨rfl, hread⟩⟩
    · exact ⟨rfl, .inr ⟨rfl, hwrite⟩⟩
  · obtain ⟨v, pos, writes⟩ := t
    rintro ⟨rfl, ⟨rfl, hread⟩ | ⟨rfl, hwrite⟩⟩
    · exact .inl ⟨v, hread, rfl⟩
    · exact .inr ⟨v, hwrite, rfl⟩

end Touch

namespace Interval

variable {code : List Instr} {v : Int} {s s' : Interval}

theorem mentions_iff (hv : Reg.isPseudo v = false) :
    (∃ i, code[p]? = some i ∧ Mentions i v) ↔ ∃ t ∈ Touch.ofCode code, t.vreg = v ∧ t.pos = p := by
  constructor
  · rintro ⟨i, hi, hread | hwrite⟩
    · exact ⟨_, Touch.mem_ofCode_of_reads hi hread, rfl, rfl⟩
    · exact ⟨_, Touch.mem_ofCode_of_defined hi hwrite, rfl, rfl⟩
  · rintro ⟨t, ht, rfl, rfl⟩
    obtain ⟨i, hi, hmem⟩ := Touch.mem_ofCode.mp ht
    obtain ⟨-, ⟨-, hread⟩ | ⟨-, hwrite⟩⟩ := (Touch.mem_ofInstr_ordinary hv).mp hmem
    · exact ⟨i, hi, .inl hread⟩
    · exact ⟨i, hi, .inr hwrite⟩

/-- Before the loops are looked at, the interval of an ordinary register is its span. -/
theorem exists_isSpan (hv : Reg.isPseudo v = false) (ht : ∃ t ∈ Touch.ofCode code, t.vreg = v) :
    ∃ s, Touch.segments ((Touch.ofCode code).filter (·.vreg == v)) = [s] ∧ IsSpan code v s := by
  have hown : ∀ t, t ∈ (Touch.ofCode code).filter (·.vreg == v) ↔
      t ∈ Touch.ofCode code ∧ t.vreg = v := by simp
  have hsorted : ((Touch.ofCode code).filter (·.vreg == v)).Pairwise Touch.Before :=
    (Touch.pairwise_before_ofCode code).sublist List.filter_sublist
  cases htouches : (Touch.ofCode code).filter (·.vreg == v) with
  | nil =>
    obtain ⟨t, ht, htv⟩ := ht
    have := (hown t).mpr ⟨ht, htv⟩
    simp [htouches] at this
  | cons t rest =>
    rw [htouches] at hown hsorted
    have hord : ∀ t' ∈ t :: rest, Reg.isPseudo t'.vreg = false := fun t' ht' => by
      rw [((hown t').mp ht').2, hv]
    refine ⟨_, Touch.segments_cons hord, ?_, ?_⟩
    · -- the first touch: nothing mentions the register before it, and it is a read if any there is
      obtain ⟨hcode, rfl⟩ := (hown t).mp (by simp)
      obtain ⟨i, hi, hmem⟩ := Touch.mem_ofCode.mp hcode
      have hfirst := (List.pairwise_cons.mp hsorted).1
      have hleast : ∀ t' ∈ t :: rest, t' = t ∨ Touch.Before t t' := fun t' ht' =>
        (List.mem_cons.mp ht').imp id (hfirst t')
      obtain ⟨-, hmention⟩ := (Touch.mem_ofInstr_ordinary hv).mp hmem
      refine ⟨t.pos, i, hi, hmention.imp And.right And.right, fun q hq j hj hj' => ?_, ?_⟩
      · obtain ⟨t', ht', htv, rfl⟩ := (mentions_iff hv).mp ⟨j, hj, hj'⟩
        rcases hleast t' ((hown t').mpr ⟨ht', htv⟩) with rfl | hbefore
        · exact Nat.lt_irrefl _ hq
        · rcases hbefore with h | ⟨h, -⟩ <;> omega
      · by_cases hread : t.vreg ∈ i.reads
        · have hmem' := (hown _).mpr ⟨Touch.mem_ofCode_of_reads hi hread, rfl⟩
          have hwrites : t.writes = false := by
            rcases hleast _ hmem' with heq | hbefore
            · rw [← heq]
            · rcases hbefore with h | ⟨-, h⟩
              · exact absurd h (Nat.lt_irrefl _)
              · simpa using h
          rw [hwrites, if_pos hread]
          rfl
        · rcases hmention with ⟨-, h⟩ | ⟨hwrites, -⟩
          · exact absurd h hread
          · rw [if_pos hwrites, if_neg hread]
    · -- the last touch: nothing mentions the register after it
      have hlast := List.getLast_mem (l := t :: rest) (by simp)
      obtain ⟨i, hi, hmention⟩ := (mentions_iff hv).mpr
        ⟨_, ((hown _).mp hlast).1, ((hown _).mp hlast).2, rfl⟩
      refine ⟨i, hi, hmention, fun q hq j hj hj' => ?_⟩
      obtain ⟨t', ht', htv, rfl⟩ := (mentions_iff hv).mp ⟨j, hj, hj'⟩
      have := Touch.pos_le_getLast (hsorted.imp Touch.Before.pos_le) ((hown t').mpr ⟨ht', htv⟩)
      dsimp only at hq
      omega

theorem IsSpan.unique (h : IsSpan code v s) (h' : IsSpan code v s') : s = s' := by
  obtain ⟨p, i, hp, hm, hbefore, hfirst⟩ := h.first
  obtain ⟨p', i', hp', hm', hbefore', hfirst'⟩ := h'.first
  obtain ⟨j, hj, hmj, hafter⟩ := h.last
  obtain ⟨j', hj', hmj', hafter'⟩ := h'.last
  have hpp : p = p' := by
    rcases Nat.lt_trichotomy p p' with hlt | heq | hlt
    · exact absurd hm (hbefore' p hlt i hp)
    · exact heq
    · exact absurd hm' (hbefore p' hlt i' hp')
  have hll : s.last = s'.last := by
    rcases Nat.lt_trichotomy s.last s'.last with hlt | heq | hlt
    · exact absurd hmj' (hafter _ hlt j' hj')
    · exact heq
    · exact absurd hmj (hafter' _ hlt j hj)
  cases s
  cases s'
  simp_all

/-- Every backward jump that the range meets lies in it with its whole loop. -/
def HoldsLoops (code : List Instr) (s : Interval) : Prop :=
  ∀ l, IsLoop code l → s.first ≤ l.last → l.first ≤ s.last → l.Within s

theorem holdsLoops_iff : HoldsLoops code s ↔ Closed (loops code) s := by
  simp only [HoldsLoops, Closed, mem_loops_iff, overlaps_iff, and_imp]

/-- The least range that holds the span of a register and every loop that it meets. -/
structure IsLeastClosed (code : List Instr) (span s : Interval) : Prop where
  holds : span.Within s
  closed : HoldsLoops code s
  least : ∀ t, span.Within t → HoldsLoops code t → s.Within t

theorem isLeastClosed_stretch (code : List Instr) (span : Interval) :
    IsLeastClosed code span (stretch (loops code) span) :=
  ⟨within_stretch _ span, holdsLoops_iff.mpr (closed_stretch _ span),
    fun _ hspan ht => stretch_within hspan (holdsLoops_iff.mp ht)⟩

theorem mem_ofCode_ordinary (hv : Reg.isPseudo v = false) (ranges : List Interval) : (v, ranges) ∈ ofCode code ↔
      ∃ span s, IsSpan code v span ∧ IsLeastClosed code span s ∧ ranges = [s] := by
  rw [mem_ofCode]
  constructor
  · rintro ⟨ht, rfl⟩
    obtain ⟨span, hspan, hisSpan⟩ := exists_isSpan hv ht
    exact ⟨span, stretch (loops code) span, hisSpan, isLeastClosed_stretch _ _,
      by simp [ofRegister, hv, hspan]⟩
  · rintro ⟨span, s, hspan, hleast, rfl⟩
    obtain ⟨p, i, hp, hm, -, -⟩ := hspan.first
    obtain ⟨t, ht, htv, -⟩ := (mentions_iff hv).mp ⟨i, hp, hm⟩
    obtain ⟨span', hspan', hisSpan'⟩ := exists_isSpan hv ⟨t, ht, htv⟩
    obtain rfl := hspan.unique hisSpan'
    have hs : s = stretch (loops code) span := by
      have hstretch := isLeastClosed_stretch code span
      exact (hleast.least _ hstretch.holds hstretch.closed).antisymm
        (hstretch.least _ hleast.holds hleast.closed)
    exact ⟨⟨t, ht, htv⟩, by simp [ofRegister, hv, hspan', hs]⟩

/-- **Stretching ends, and its result does not depend on the order of the visits.**  The loops of the code are
its backward jumps.  Whatever the order in each round, and also if some visits are made more than once, the
rounds end with the intervals of the code: for an ordinary register the least interval that holds its span and
the loop of every backward jump that it meets.  The intervals of pseudo-registers stay as they are. -/
theorem stretching_any_order (code : List Instr) :
    (∀ l, l ∈ loops code ↔ IsLoop code l) ∧
    (∀ order : Nat → List (Interval × Int), (∀ n, IsRound code (order n)) →
      ∃ n ≤ (loops code).length + 1, (∀ k < n, (afterRounds order (spans code) k).2 = true) ∧
        afterRounds order (spans code) n = (ofCode code, false)) ∧
    (∀ v ranges, Reg.isPseudo v = false →
      ((v, ranges) ∈ ofCode code ↔
        ∃ span s, IsSpan code v span ∧ IsLeastClosed code span s ∧ ranges = [s])) ∧
    ∀ (order : Nat → List (Interval × Int)) (n : Nat) (v : Int) (ranges : List Interval),
      Reg.isPseudo v = true →
      ((v, ranges) ∈ (afterRounds order (spans code) n).1 ↔ (v, ranges) ∈ spans code) :=
  ⟨fun _ => mem_loops_iff, fun _ horder => exists_afterRounds_eq_ofCode horder,
    fun _ ranges hv => mem_ofCode_ordinary hv ranges,
    fun _ n _ ranges hv => mem_afterRounds_of_pseudo hv n ranges⟩

end Interval

end Codegen
