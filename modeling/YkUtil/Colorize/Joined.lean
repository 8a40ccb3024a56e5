import YkUtil.Colorize.Parts
import Mathlib.Data.List.Perm.Basic

/-!
Fields joined from a list of texts. What such a field is read as depends on the
specifiers its texts spell, and not on their order; next to `reset` the parser
looks for some of the other specifiers only.
-/

namespace YkUtil.Colorize

open YkUtil.Lib.Outcome

/-- The texts with a bar between them. -/
def joinTexts (texts : List (List Char)) : List Char :=
  ['|'].intercalate texts

/-- Texts that can stand between bars. -/
def Separable (texts : List (List Char)) : Prop :=
  ∀ text ∈ texts, text ≠ [] ∧ StopFree text

section Spells

variable {text : List Char} {sp sp' : Specifier}

theorem Specifier.add_injective (h : sp.add {} = sp'.add {}) : sp = sp' := by
  have hflag {em em' : Emphasis} (hem : em.flag = em'.flag) : em = em' := by
    cases em <;> cases em' <;> first | rfl | cases hem
  cases sp <;> cases sp' <;> simp [Specifier.add, Colorizer.setFgColor, Colorizer.setBgColor] at h
  case emphasis em em' => rw [hflag h]
  all_goals simp_all

/-- No text spells two specifiers. -/
theorem spells_rightUnique : Relator.RightUnique Spells := by
  intro text sp sp' h h'
  apply Specifier.add_injective
  have hparse : parseSpecifier text [] {} = sp.add {} := parseSpecifier_of_spells h
  rw [← hparse, parseSpecifier_of_spells h']

end Spells

section Joined

variable {texts : List (List Char)} {specs : List Specifier} {rest : List Char}

theorem mem_joinTexts {c : Char} (h : c ∈ joinTexts texts) :
    c = '|' ∨ ∃ text ∈ texts, c ∈ text := by
  induction texts with
  | nil => cases h
  | cons text texts ih =>
      cases texts with
      | nil =>
          rw [joinTexts, List.intercalate_singleton] at h
          exact .inr ⟨text, List.mem_cons_self, h⟩
      | cons text' texts =>
          rw [joinTexts, List.intercalate_cons_cons, List.mem_append, List.mem_append] at h
          rcases h with (htext | hbar) | hmore
          · exact .inr ⟨text, List.mem_cons_self, htext⟩
          · exact .inl (List.mem_singleton.mp hbar)
          · rcases ih hmore with hbar | ⟨text'', hmem, hc⟩
            · exact .inl hbar
            · exact .inr ⟨text'', List.mem_cons_of_mem _ hmem, hc⟩

theorem Separable.no_bracket (h : Separable texts) : ']' ∉ joinTexts texts := by
  intro hmem
  rcases mem_joinTexts hmem with hbar | ⟨text, htext, hclose⟩
  · cases hbar
  · exact ((h text htext).2 _ hclose).2 rfl

theorem Separable.parts (h : Separable texts) (hne : texts ≠ []) :
    parts (joinTexts texts) = texts := by
  apply List.splitOn_intercalate _ _ hne
  intro text hmem hbar
  exact ((h text hmem).2 _ hbar).1 rfl

theorem Separable.head (h : Separable texts) : (joinTexts texts).head? ≠ some '|' := by
  cases texts with
  | nil => simp [joinTexts]
  | cons text texts =>
      obtain ⟨hne, hfree⟩ := h text List.mem_cons_self
      obtain ⟨c, s, rfl⟩ := List.exists_cons_of_ne_nil hne
      have hbar := (hfree c List.mem_cons_self).1
      cases texts with
      | nil => simpa [joinTexts] using hbar
      | cons text' texts => simpa [joinTexts, List.intercalate_cons_cons] using hbar

/-- The field of the texts is read as what they spell. -/
theorem Separable.spelled_iff (h : Separable texts) (hne : texts ≠ []) :
    Spelled (joinTexts texts) specs ↔ List.Forall₂ Spells texts specs := by
  rw [spelled_plain_iff h.head, h.parts hne]

theorem Separable.readField_ok (h : Separable texts) (hne : texts ≠ [])
    (hspells : List.Forall₂ Spells texts specs) (hadmissible : Admissible specs)
    {col : Colorizer} (hselects : Selects specs col) :
    readField (joinTexts texts) rest = .ok (rest, col.colorize) :=
  readField_of_spelled h.no_bracket ((h.spelled_iff hne).mpr hspells) hadmissible hselects

theorem Separable.readField_raise (h : Separable texts) (hne : texts ≠ [])
    (hnot : ¬ ∃ specs, List.Forall₂ Spells texts specs ∧ Admissible specs) :
    ∃ what, readField (joinTexts texts) rest = raise what := by
  apply readField_of_not_spelled h.no_bracket
  simp only [h.spelled_iff hne]
  exact hnot

end Joined

/-! Specifiers next to `reset`. -/

section Reset

variable {words : List Word} {specs : List Specifier} {rest : List Char}

/-- `reset` and another specifier. -/
structure Mixed (specs : List Specifier) : Prop where
  reset : .reset ∈ specs
  other : ∃ sp ∈ specs, sp ≠ .reset

/-- What is noticed next to `reset`: a colour for the text or an emphasis, after
the loop, and a second background, as it is anywhere. -/
def ClashesWithReset (specs : List Specifier) : Prop :=
  fgColors specs ≠ [] ∨ (∃ em, .emphasis em ∈ specs) ∨ 1 < (bgColors specs).length

theorem admissible_iff_of_reset (hreset : .reset ∈ specs) :
    Admissible specs ↔ ¬ ClashesWithReset specs := by
  constructor
  · intro h
    obtain ⟨hfg, hem⟩ := h.resetAlone hreset
    rintro (hcolor | ⟨em, hmem⟩ | htwice)
    · exact hcolor hfg
    · exact hem em hmem
    · exact absurd h.bgOnce (Nat.not_le_of_lt htwice)
  · intro h
    simp only [ClashesWithReset, not_or, not_exists, Decidable.not_not, Nat.not_lt] at h
    obtain ⟨hfg, hem, hbg⟩ := h
    refine ⟨⟨?_, hbg⟩, fun _ => ⟨hfg, hem⟩⟩
    rw [hfg]
    exact Nat.zero_le 1

theorem separable_words (words : List Word) : Separable (words.map Word.text) := by
  intro text hmem
  obtain ⟨w, -, rfl⟩ := List.mem_map.mp hmem
  refine ⟨?_, w.free⟩
  obtain ⟨c, s, heq, -⟩ := spells_startsLower w.spells
  rw [heq]
  exact List.cons_ne_nil c s

theorem joinWords_eq (words : List Word) : joinWords words = joinTexts (words.map Word.text) := by
  induction words with
  | nil => rfl
  | cons w words ih =>
      cases words with
      | nil => simp [joinWords, joinTexts]
      | cons w' words =>
          rw [joinWords, ih]
          · simp [joinTexts, List.intercalate_cons_cons]
          · exact List.cons_ne_nil w' words

theorem forall₂_words (words : List Word) :
    List.Forall₂ Spells (words.map Word.text) (words.map Word.specifier) := by
  rw [List.forall₂_map_left_iff, List.forall₂_map_right_iff, List.forall₂_same]
  intro w _
  exact w.spells

/-- Next to `reset`, what does not clash with it is dropped. -/
theorem readField_reset (hreset : .reset ∈ words.map Word.specifier)
    (h : ¬ ClashesWithReset (words.map Word.specifier)) :
    readField (joinWords words) rest = .ok (rest, "\x1b[0m".toList) := by
  have hne : words.map Word.text ≠ [] := by
    simpa using List.ne_nil_of_mem hreset
  have hadmissible := (admissible_iff_of_reset hreset).mpr h
  obtain ⟨col, hselects⟩ := exists_selects hadmissible.toColorsOnce
  have hcol : col.reset = true := by
    rw [hselects.reset]
    exact decide_eq_true hreset
  rw [joinWords_eq, (separable_words words).readField_ok hne (forall₂_words words) hadmissible
    hselects, Colorizer.colorize, if_pos hcol]

theorem readField_clash (hreset : .reset ∈ words.map Word.specifier)
    (h : ClashesWithReset (words.map Word.specifier)) (rest : List Char) :
    ∃ what, readField (joinWords words) rest = raise what := by
  have hne : words.map Word.text ≠ [] := by
    simpa using List.ne_nil_of_mem hreset
  rw [joinWords_eq]
  apply (separable_words words).readField_raise hne
  rintro ⟨specs, hspells, hadmissible⟩
  obtain rfl := List.right_unique_forall₂' spells_rightUnique hspells (forall₂_words words)
  exact (admissible_iff_of_reset hreset).mp hadmissible h

/-- For every list of specifiers and whatever follows the field: it is rejected if
`reset` stands next to another specifier, if and only if one of those next to it
clashes. -/
theorem reset_rejected_iff (words : List Word) (rest : List Char) :
    (Mixed (words.map Word.specifier) → ∃ what, readField (joinWords words) rest = raise what) ↔
      (Mixed (words.map Word.specifier) → ClashesWithReset (words.map Word.specifier)) := by
  constructor
  · intro hrejected hmixed
    by_contra hnot
    obtain ⟨what, hthrow⟩ := hrejected hmixed
    cases hthrow.symm.trans (readField_reset hmixed.reset hnot)
  · intro hclash hmixed
    exact readField_clash hmixed.reset (hclash hmixed) rest

/-- `[reset|bg:red]`: the background is dropped. -/
theorem background_next_to_reset_accepted : ¬ ∀ (words : List Word) (rest : List Char),
    Mixed (words.map Word.specifier) →
      ∃ what, readField (joinWords words) rest = raise what := by
  intro hall
  have hcolor : ColorText "red".toList 0xFF0000 := .named (by decide +kernel)
  let words : List Word :=
    [⟨"reset".toList, .reset, .reset, by simp [StopFree]⟩,
      ⟨"bg:".toList ++ "red".toList, .bg 0xFF0000, .bg hcolor, by simp [StopFree]⟩]
  have hmixed : Mixed (words.map Word.specifier) :=
    ⟨List.mem_cons_self, .bg 0xFF0000, by simp [words], by simp⟩
  have hclash : ¬ ClashesWithReset (words.map Word.specifier) := by
    rintro (hfg | ⟨em, hem⟩ | hbg)
    · exact hfg rfl
    · simp [words] at hem
    · exact absurd hbg (Nat.lt_irrefl 1)
  obtain ⟨what, hthrow⟩ := hall words [] hmixed
  cases hthrow.symm.trans (readField_reset hmixed.reset hclash)

end Reset

end YkUtil.Colorize
