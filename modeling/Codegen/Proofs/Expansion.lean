/-
Templates with size letters.

Expansion and rendering read a template by two different scanners.  They agree on where an
operand mark ends: expanding again finds nothing to fill in, and so the renderer finds no mark
without a selector.  With a selector for its width the name of a register does not depend on
the type of the operand.
-/
import Codegen.Render
import Mathlib.Tactic.IntervalCases

namespace Codegen

namespace Template

open Selector (ofByte?)

/-- The four sizes have letters, and each letter selects a width. -/
theorem exists_sizeLetter {s : Int} (h : 1 ≤ s ∧ s ≤ 4) :
    ∃ letter, sizeLetter? s = some letter ∧ (ofByte? letter).isSome = true := by
  obtain ⟨hlo, hhi⟩ := h
  interval_cases s <;> exact ⟨_, rfl, rfl⟩

variable {a letter : UInt8}

theorem ne_percent (h : (ofByte? a).isSome = true) : a ≠ 0x25 := by
  rintro rfl
  cases h

theorem expandBytes_cons (ha : a ≠ 0x25) (rest : List UInt8) :
    expandBytes letter (a :: rest) = a :: expandBytes letter rest := by
  cases rest with
  | nil => rfl
  | cons b rest =>
    rw [expandBytes.eq_def]
    simp [ha]

theorem expandBytes_percent (rest : List UInt8) :
    expandBytes letter (0x25 :: 0x25 :: rest) = 0x25 :: 0x25 :: expandBytes letter rest := by
  rw [expandBytes.eq_def]
  rfl

theorem expandBytes_mark (c d : UInt8) (rest : List UInt8) :
    expandBytes letter (0x25 :: 0x76 :: c :: d :: rest) =
      if (ofByte? d).isSome then 0x25 :: 0x76 :: c :: expandBytes letter (d :: rest)
      else 0x25 :: 0x76 :: c :: letter :: expandBytes letter (d :: rest) := rfl

/-- What was filled in stays as it is. -/
theorem expandBytes_expandBytes (h : (ofByte? letter).isSome = true) (letter' : UInt8) (t : List UInt8) :
    expandBytes letter' (expandBytes letter t) = expandBytes letter t := by
  have hl := ne_percent h
  fun_induction expandBytes letter t with
  | case1 => rfl
  | case2 a => rfl
  | case3 a b rest ha ih => rw [expandBytes_cons (by simpa using ha), ih]
  | case4 a b rest ha hb ih =>
    obtain ⟨rfl, rfl⟩ : a = 0x25 ∧ b = 0x25 := by simpa using And.intro ha hb
    rw [expandBytes_percent, ih]
  | case5 a b rest ha hb hs ih => rw [expandBytes_cons hl, ih]
  | case6 a b ha hb hs hv =>
    obtain ⟨rfl, rfl⟩ : a = 0x25 ∧ b = 0x76 := by simpa using And.intro ha hv
    rfl
  | case7 a b ha hb hs hv c =>
    obtain ⟨rfl, rfl⟩ : a = 0x25 ∧ b = 0x76 := by simpa using And.intro ha hv
    rw [expandBytes_mark, if_pos h]
    rfl
  | case8 a b ha hb hs hv c d more hd ih =>
    obtain ⟨rfl, rfl⟩ : a = 0x25 ∧ b = 0x76 := by simpa using And.intro ha hv
    rw [expandBytes_cons (ne_percent hd)] at ih ⊢
    rw [expandBytes_mark, if_pos hd, ih]
  | case9 a b ha hb hs hv c d more hd ih =>
    obtain ⟨rfl, rfl⟩ : a = 0x25 ∧ b = 0x76 := by simpa using And.intro ha hv
    rw [expandBytes_mark, if_pos h, expandBytes_cons hl, ih]
  | case10 a b more ha hb hs hv ih =>
    have hcons : expandBytes letter (b :: more) = b :: expandBytes letter more :=
      expandBytes_cons (by simpa using hb) more
    rw [hcons] at ih ⊢
    rw [expandBytes.eq_def]
    simp only [ha, hb, hs, hv, Bool.false_eq_true, if_false, ih]

/-- Where there is nothing to fill in, every mark has its selector. -/
theorem plain_notMem_pieces (h : (ofByte? letter).isSome = true) {t : List UInt8}
    (ht : expandBytes letter t = t) (position : Nat) (m : Mark) :
    .operand m .plain ∉ pieces position t := by
  fun_induction pieces position t with
  | case1 => exact List.not_mem_nil
  | case2 position a rest ha ih =>
    rw [expandBytes_cons (by simpa using ha)] at ht
    simp [ih (List.cons.inj ht).2]
  | case3 position a ha rest ih =>
    obtain rfl : a = 0x25 := by simpa using ha
    rw [expandBytes_percent] at ht
    simp [ih (by simpa using ht)]
  | case4 => simp
  | case5 position a ha m' mark hm =>
    obtain rfl : a = 0x25 := by simpa using ha
    cases ht
  | case6 position a ha m' mark s more hm selector hs ih =>
    obtain rfl : a = 0x25 := by simpa using ha
    have hsome : (ofByte? s).isSome = true := by simp [hs]
    rw [expandBytes_mark, if_pos hsome, expandBytes_cons (ne_percent hsome)] at ht
    have hne : selector ≠ .plain := by
      rintro rfl
      unfold ofByte? at hs
      split_ifs at hs <;> cases hs
    simp [ih (by simpa using ht), hne.symm]
  | case7 position a ha m' mark s more hm hs ih =>
    obtain rfl : a = 0x25 := by simpa using ha
    rw [expandBytes_mark, hs] at ht
    obtain rfl : letter = s := by
      have := List.cons.inj (List.cons.inj (List.cons.inj (List.cons.inj ht).2).2).2
      exact this.1
    rw [hs] at h
    cases h
  | case8 => simp

end Template

open Template (Mark Selector Piece)

variable {o : Operand}

/-- At a selected width the text of a register does not depend on the type. -/
theorem Operand.render_withType {function text : String} {selector : Selector}
    (hreg : (∃ r, o.value = .preg r) ∨ ∃ v, o.value = .vreg v) (hplain : selector ≠ .plain) (hbits : selector ≠ .bits)
    (h : o.render function selector = .ok text) (type : Ty) :
    (o.withType type).render function selector = .ok text := by
  have hregister : ∀ {text}, o.registerText selector = .ok text →
      (o.withType type).registerText selector = .ok text := by
    intro text h
    have hlocation : (o.withType type).location = o.location := rfl
    unfold registerText at h ⊢
    rw [hlocation]
    split_ifs at h ⊢
    cases selector <;> simp_all [Selector.isHalf, Selector.widthOf]
  have hvalue : (o.withType type).value = o.value := rfl
  unfold render at h ⊢
  rw [hvalue]
  rcases hreg with ⟨r, hr⟩ | ⟨v, hv⟩
  · rw [hr] at h ⊢
    exact hregister h
  · rw [hv] at h ⊢
    dsimp only at h ⊢
    split_ifs at h ⊢
    · exact h
    · exact hregister h

namespace Instr

/-- Use the operand at a mark at another type. -/
def retype (i : Instr) (m : Mark) (type : Ty) : Instr :=
  match m with
  | .src1 => { i with src1 := i.src1.map (·.withType type) }
  | .src2 => { i with src2 := i.src2.map (·.withType type) }
  | .dst => { i with dst := i.dst.map (·.withType type) }

theorem marked_retype (i : Instr) (m m' : Mark) (type : Ty) : (i.retype m type).marked m' =
    if m' = m then (i.marked m').map (·.withType type) else i.marked m' := by
  cases m <;> cases m' <;> rfl

theorem template_retype (i : Instr) (m : Mark) (type : Ty) : (i.retype m type).template = i.template := by
  cases m <;> rfl

variable {function : String} {i : Instr} {m : Mark}

theorem renderPiece_retype {bytes : List UInt8} {piece : Piece} (ho : i.marked m = some o)
    (hreg : (∃ r, o.value = .preg r) ∨ ∃ v, o.value = .vreg v) (hplain : piece ≠ .operand m .plain)
    (hbits : piece ≠ .operand m .bits) (h : i.renderPiece function piece = .ok bytes) (type : Ty) :
    (i.retype m type).renderPiece function piece = .ok bytes := by
  cases piece with
  | byte b => exact h
  | bad position => cases h
  | operand m' selector =>
    simp only [renderPiece, marked_retype, template_retype] at h ⊢
    by_cases hm : m' = m
    · subst hm
      rw [if_pos rfl, ho]
      rw [ho] at h
      dsimp only [Option.map_some] at h ⊢
      cases hr : o.render function selector with
      | error cause =>
        rw [hr] at h
        cases h
      | ok text =>
        rw [hr] at h
        rw [Operand.render_withType hreg (by simpa using hplain) (by simpa using hbits) hr type]
        exact h
    · rw [if_neg hm]
      exact h

theorem mapM_renderPiece_retype {pieces : List Piece} {parts : List (List UInt8)} (ho : i.marked m = some o)
    (hreg : (∃ r, o.value = .preg r) ∨ ∃ v, o.value = .vreg v) (hplain : .operand m .plain ∉ pieces)
    (hbits : .operand m .bits ∉ pieces) (h : pieces.mapM (i.renderPiece function) = .ok parts) (type : Ty) :
    pieces.mapM ((i.retype m type).renderPiece function) = .ok parts := by
  induction pieces generalizing parts with
  | nil => exact h
  | cons piece pieces ih =>
    rw [List.mapM_cons] at h ⊢
    simp only [List.mem_cons, not_or] at hplain hbits
    cases hpiece : i.renderPiece function piece with
    | error e =>
      rw [hpiece] at h
      cases h
    | ok bytes =>
      cases hrest : pieces.mapM (i.renderPiece function) with
      | error e =>
        rw [hpiece, hrest] at h
        cases h
      | ok rest =>
        rw [hpiece, hrest] at h
        rw [renderPiece_retype ho hreg (Ne.symm hplain.1) (Ne.symm hbits.1) hpiece type,
          ih hplain.2 hbits.2 hrest]
        exact h

end Instr

namespace Template

/--
**Expansion is idempotent and complete.**

Filling in a size letter, and then another one, is filling in the first.  If the renderer accepts
an instruction whose template was filled in, every mark that it finds has a selector.  So a register
operand can be used at any other type, unless a selector asks for the bits of a constant at its
mark: the text stays the same.
-/
theorem expand_idempotent_complete (t : Template) {s s' : Int} (hs : 1 ≤ s ∧ s ≤ 4)
    (hs' : 1 ≤ s' ∧ s' ≤ 4) :
    ∃ letter letter', sizeLetter? s = some letter ∧ sizeLetter? s' = some letter' ∧
      (t.expand letter).expand letter' = t.expand letter ∧
      ∀ (function text : String) (i : Instr), i.template = t.expand letter →
        i.render function = .ok text →
        (∀ m, .operand m .plain ∉ pieces 0 i.template.bytes) ∧
        ∀ m o type, i.marked m = some o →
          ((∃ r, o.value = .preg r) ∨ ∃ v, o.value = .vreg v) →
          .operand m .bits ∉ pieces 0 i.template.bytes →
          (i.retype m type).render function = .ok text := by
  obtain ⟨letter, hletter, hsome⟩ := exists_sizeLetter hs
  obtain ⟨letter', hletter', -⟩ := exists_sizeLetter hs'
  refine ⟨letter, letter', hletter, hletter', ?_, fun function text i hi hrender => ?_⟩
  · simp only [expand, expandBytes_expandBytes hsome]
  · have hplain : ∀ m, .operand m .plain ∉ pieces 0 i.template.bytes := by
      rw [hi]
      exact plain_notMem_pieces hsome (expandBytes_expandBytes hsome letter t.bytes) 0
    refine ⟨hplain, fun m o type ho hreg hbits => ?_⟩
    unfold Instr.render at hrender ⊢
    rw [Instr.template_retype]
    cases hparts : (pieces 0 i.template.bytes).mapM (i.renderPiece function) with
    | error e =>
      rw [hparts] at hrender
      cases hrender
    | ok parts =>
      rw [hparts] at hrender
      rw [Instr.mapM_renderPiece_retype ho hreg (hplain m) hbits hparts type]
      exact hrender

/-- An addition at every size, with a percent sign of its own and a mark that has a selector. -/
def adding : Template := .ofString "add%s\t%v1, %vdq %%s"

def addingLong : Instr :=
  { op := .machine .add, dst := some (.preg .rax .long), src1 := some (.preg .rcx .long)
    template := adding.expand 0x6c }

theorem adding_complete :
    sizeLetter? 3 = some 0x6c ∧ (adding.expand 0x6c).expand 0x62 = adding.expand 0x6c ∧
      addingLong.render "f" = .ok "addl\t%ecx, %rax %s" ∧
      (addingLong.retype .src1 .char).render "f" = .ok "addl\t%ecx, %rax %s" := by
  obtain ⟨letter, letter', h, h', hidem, hcomplete⟩ :=
    expand_idempotent_complete adding (show 1 ≤ 3 ∧ (3 : Int) ≤ 4 by decide) (show 1 ≤ 1 ∧ (1 : Int) ≤ 4 by decide)
  obtain rfl : letter = 0x6c := (Option.some.inj (h.symm.trans rfl))
  obtain rfl : letter' = 0x62 := (Option.some.inj (h'.symm.trans rfl))
  have hrender : addingLong.render "f" = .ok "addl\t%ecx, %rax %s" := by rfl
  exact ⟨h, hidem, hrender, (hcomplete "f" _ addingLong rfl hrender).2 .src1 _ .char rfl (.inl ⟨_, rfl⟩)
    (by decide +kernel)⟩

end Template

end Codegen
