import YkUtil.Colorize.Joined

/-!
The order of the specifiers of a field does not matter, nor does an emphasis that
comes again: the rules look at what a list of specifiers contains, and the
sequence at what it selects.
-/

namespace YkUtil.Colorize

/-- Lists of specifiers with the same members, and the same colours as often. -/
structure Alike (specs specs' : List Specifier) : Prop where
  mem : ∀ sp, sp ∈ specs ↔ sp ∈ specs'
  fgPerm : (fgColors specs).Perm (fgColors specs')
  bgPerm : (bgColors specs).Perm (bgColors specs')

section Alike

variable {specs specs' : List Specifier} {col : Colorizer}

theorem Alike.of_perm (h : specs.Perm specs') : Alike specs specs' where
  mem _ := h.mem_iff
  fgPerm := h.filterMap _
  bgPerm := h.filterMap _

theorem Alike.symm (h : Alike specs specs') : Alike specs' specs where
  mem sp := (h.mem sp).symm
  fgPerm := h.fgPerm.symm
  bgPerm := h.bgPerm.symm

theorem Alike.trans {specs'' : List Specifier} (h : Alike specs specs')
    (h' : Alike specs' specs'') : Alike specs specs'' where
  mem sp := (h.mem sp).trans (h'.mem sp)
  fgPerm := h.fgPerm.trans h'.fgPerm
  bgPerm := h.bgPerm.trans h'.bgPerm

theorem Alike.decide_mem (h : Alike specs specs') (sp : Specifier) :
    decide (sp ∈ specs) = decide (sp ∈ specs') :=
  decide_eq_decide.mpr (h.mem sp)

theorem Alike.repeated {em : Emphasis} (h : .emphasis em ∈ specs) :
    Alike specs (.emphasis em :: specs) where
  mem sp := by
    rw [List.mem_cons]
    constructor
    · exact .inr
    · rintro (rfl | hmem)
      · exact h
      · exact hmem
  fgPerm := .refl _
  bgPerm := .refl _

theorem Alike.admissible (h : Alike specs specs') (hadmissible : Admissible specs) :
    Admissible specs' := by
  obtain ⟨⟨hfg, hbg⟩, halone⟩ := hadmissible
  rw [h.fgPerm.length_eq] at hfg
  rw [h.bgPerm.length_eq] at hbg
  refine ⟨⟨hfg, hbg⟩, ?_⟩
  intro hreset
  obtain ⟨hcolor, hem⟩ := halone ((h.mem _).mpr hreset)
  constructor
  · apply List.Perm.eq_nil
    rw [← hcolor]
    exact h.fgPerm.symm
  · intro em hmem
    exact hem em ((h.mem _).mpr hmem)

theorem head?_eq_of_perm {l l' : List RgbColor} (h : l.Perm l') (hle : l.length ≤ 1) :
    l.head? = l'.head? := by
  cases l with
  | nil => rw [h.symm.eq_nil]
  | cons color l =>
      rw [List.length_cons] at hle
      have hnil : l = [] := List.eq_nil_of_length_eq_zero (by omega)
      subst hnil
      rw [List.perm_singleton.mp h.symm]

theorem Alike.selects (h : Alike specs specs') (honce : ColorsOnce specs)
    (hselects : Selects specs col) : Selects specs' col where
  fgColor := hselects.fgColor.trans (head?_eq_of_perm h.fgPerm honce.fgOnce)
  bgColor := hselects.bgColor.trans (head?_eq_of_perm h.bgPerm honce.bgOnce)
  emphasis em := (hselects.emphasis em).trans (h.decide_mem _)
  reset := hselects.reset.trans (h.decide_mem _)
  fgReset := hselects.fgReset.trans (h.decide_mem _)
  bgReset := hselects.bgReset.trans (h.decide_mem _)

end Alike

section Texts

variable {texts texts' : List (List Char)} {specs specs' : List Specifier}

/-- Each reading of the first texts is like one of the second. -/
def ReadsAlike (texts texts' : List (List Char)) : Prop :=
  ∀ specs, List.Forall₂ Spells texts specs →
    ∃ specs', List.Forall₂ Spells texts' specs' ∧ Alike specs specs'

theorem readsAlike_of_perm (h : texts.Perm texts') : ReadsAlike texts texts' := by
  intro specs hspells
  obtain ⟨specs', hspells', hperm⟩ := List.perm_comp_forall₂ h.symm hspells
  exact ⟨specs', hspells', .of_perm hperm.symm⟩

theorem ReadsAlike.trans {texts'' : List (List Char)} (h : ReadsAlike texts texts')
    (h' : ReadsAlike texts' texts'') : ReadsAlike texts texts'' := by
  intro specs hspells
  obtain ⟨specs', hspells', halike⟩ := h specs hspells
  obtain ⟨specs'', hspells'', halike'⟩ := h' specs' hspells'
  exact ⟨specs'', hspells'', halike.trans halike'⟩

theorem mem_of_spells_emphasis {em : Emphasis} (hmem : em.name ∈ texts)
    (h : List.Forall₂ Spells texts specs) : .emphasis em ∈ specs := by
  induction h with
  | nil => cases hmem
  | cons hspells hmore ih =>
      rcases List.mem_cons.mp hmem with rfl | hmem
      · rw [spells_rightUnique hspells (.emphasis em)]
        exact List.mem_cons_self
      · exact List.mem_cons_of_mem _ (ih hmem)

theorem readsAlike_repeated {em : Emphasis} (hmem : em.name ∈ texts) :
    ReadsAlike texts (em.name :: texts) ∧ ReadsAlike (em.name :: texts) texts := by
  constructor
  · intro specs hspells
    exact ⟨_, .cons (.emphasis em) hspells, .repeated (mem_of_spells_emphasis hmem hspells)⟩
  · intro specs hspells
    cases hspells with
    | cons hem hmore =>
        rw [spells_rightUnique hem (.emphasis em)]
        exact ⟨_, hmore, (Alike.repeated (mem_of_spells_emphasis hmem hmore)).symm⟩

/-- Both fields are rejected, or both are accepted with one sequence. -/
def SameField (texts texts' : List (List Char)) (rest : List Char) : Prop :=
  (∃ sequence, readField (joinTexts texts) rest = .ok (rest, sequence) ∧
    readField (joinTexts texts') rest = .ok (rest, sequence)) ∨
  (∃ what, readField (joinTexts texts) rest = raise what) ∧
    ∃ what, readField (joinTexts texts') rest = raise what

theorem sameField_of_readsAlike (hsep : Separable texts) (hsep' : Separable texts')
    (hne : texts ≠ []) (hne' : texts' ≠ []) (h : ReadsAlike texts texts')
    (h' : ReadsAlike texts' texts) (rest : List Char) : SameField texts texts' rest := by
  by_cases hvalid : ∃ specs, List.Forall₂ Spells texts specs ∧ Admissible specs
  · obtain ⟨specs, hspells, hadmissible⟩ := hvalid
    obtain ⟨specs', hspells', halike⟩ := h specs hspells
    obtain ⟨col, hselects⟩ := exists_selects hadmissible.toColorsOnce
    have hselects' := halike.selects hadmissible.toColorsOnce hselects
    left
    refine ⟨col.colorize, ?_, ?_⟩
    · exact hsep.readField_ok hne hspells hadmissible hselects
    · exact hsep'.readField_ok hne' hspells' (halike.admissible hadmissible) hselects'
  · right
    refine ⟨hsep.readField_raise hne hvalid, hsep'.readField_raise hne' ?_⟩
    rintro ⟨specs', hspells', hadmissible⟩
    obtain ⟨specs, hspells, halike⟩ := h' specs' hspells'
    exact hvalid ⟨specs, hspells, halike.admissible hadmissible⟩

theorem Separable.perm (h : Separable texts) (hperm : texts.Perm texts') : Separable texts' :=
  fun text hmem => h text (hperm.mem_iff.mpr hmem)

theorem Separable.repeated (h : Separable texts) {text : List Char} (hmem : text ∈ texts) :
    Separable (text :: texts) := by
  intro text' hmem'
  rcases List.mem_cons.mp hmem' with rfl | hmore
  · exact h _ hmem
  · exact h _ hmore

/-- For every list of texts that can stand between bars, however it is permuted, and
wherever an emphasis of it is put in again. -/
theorem field_order_irrelevant (texts : List (List Char)) (hne : texts ≠ [])
    (hsep : Separable texts) (rest : List Char) :
    (∀ texts', texts.Perm texts' → SameField texts texts' rest) ∧
      ∀ em : Emphasis, em.name ∈ texts → ∀ texts', (em.name :: texts).Perm texts' →
        SameField texts texts' rest := by
  constructor
  · intro texts' hperm
    have hne' : texts' ≠ [] := fun hnil => hne (List.Perm.eq_nil (hnil ▸ hperm))
    exact sameField_of_readsAlike hsep (hsep.perm hperm) hne hne' (readsAlike_of_perm hperm)
      (readsAlike_of_perm hperm.symm) rest
  · intro em hmem texts' hperm
    have hne' : texts' ≠ [] := fun hnil => absurd (List.Perm.eq_nil (hnil ▸ hperm)) (by simp)
    obtain ⟨hrepeat, hrepeat'⟩ := readsAlike_repeated hmem
    exact sameField_of_readsAlike hsep ((hsep.repeated hmem).perm hperm) hne hne'
      (hrepeat.trans (readsAlike_of_perm hperm)) ((readsAlike_of_perm hperm.symm).trans hrepeat')
      rest

theorem field_order_irrelevant_red_bold :
    SameField ["red".toList, Emphasis.bold.name] [Emphasis.bold.name, "red".toList] [] ∧
      SameField ["red".toList, Emphasis.bold.name]
        [Emphasis.bold.name, "red".toList, Emphasis.bold.name] [] := by
  have hsep : Separable ["red".toList, Emphasis.bold.name] := by
    intro text hmem
    rcases List.mem_pair.mp hmem with rfl | rfl
    · simp [StopFree]
    · change "bold".toList ≠ [] ∧ StopFree "bold".toList
      simp [StopFree]
  obtain ⟨hperm, hrepeat⟩ := field_order_irrelevant
    ["red".toList, Emphasis.bold.name] (List.cons_ne_nil _ _) hsep []
  constructor
  · apply hperm
    exact .swap _ _ []
  · apply hrepeat .bold
    · exact List.mem_cons_of_mem _ List.mem_cons_self
    · exact .refl _

end Texts

end YkUtil.Colorize
