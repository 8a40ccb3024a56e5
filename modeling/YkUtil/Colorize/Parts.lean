import YkUtil.Colorize.Template
import Mathlib.Data.List.Forall2
import Mathlib.Data.List.Induction

/-!
A field taken apart at its bars. The loop of `do_parse` passes over a bar before
it reads a specifier, so the parts are read one by one, but for an empty first
part, which is passed over with its bar.
-/

namespace YkUtil.Colorize

open YkUtil.Lib.Outcome

/-- The specifiers of a field, one after the other. -/
def addAll : List Specifier → Colorizer → Parse Colorizer
  | [], col => .ok col
  | sp :: specs, col => sp.add col >>= addAll specs

structure ColorsOnce (specs : List Specifier) : Prop where
  fgOnce : (fgColors specs).length ≤ 1
  bgOnce : (bgColors specs).length ≤ 1

/-- The rules on duplicate colours and on `reset`. -/
structure Admissible (specs : List Specifier) : Prop extends ColorsOnce specs where
  resetAlone : .reset ∈ specs → fgColors specs = [] ∧ ∀ em, .emphasis em ∉ specs

/-- What `split` makes of the text between the brackets. -/
def parts (body : List Char) : List (List Char) := body.splitOn '|'

/-- A bar in front of the first specifier is passed over. -/
inductive Spelled : List Char → List Specifier → Prop where
  | plain {body : List Char} {specs : List Specifier}
      (h : List.Forall₂ Spells (parts body) specs) : Spelled body specs
  | bar {body : List Char} {specs : List Specifier}
      (h : List.Forall₂ Spells (parts body) specs) : Spelled ('|' :: body) specs

/-! What is added up, and what can be. -/

section Selects

variable {specs done : List Specifier} {sp : Specifier} {col col' : Colorizer}

theorem Selects.unique (h : Selects specs col) (h' : Selects specs col') : col = col' := by
  have hem : col.emphasis = col'.emphasis :=
    emphasis_ext fun em => (h.emphasis em).trans (h'.emphasis em).symm
  have hfg := h.fgColor.trans h'.fgColor.symm
  have hbg := h.bgColor.trans h'.bgColor.symm
  have hreset := h.reset.trans h'.reset.symm
  have hfgReset := h.fgReset.trans h'.fgReset.symm
  have hbgReset := h.bgReset.trans h'.bgReset.symm
  cases col
  cases col'
  cases hem
  cases hfg
  cases hbg
  cases hreset
  cases hfgReset
  cases hbgReset
  rfl

theorem eq_nil_of_not_isSome {colors : List RgbColor} (h : ¬ colors.head?.isSome) :
    colors = [] := by
  cases colors with
  | nil => rfl
  | cons color colors => exact absurd rfl h

/-- A colour is added only where there is none yet. -/
theorem Selects.once_of_add (h : Selects specs col) (honce : ColorsOnce specs)
    (hadd : sp.add col = .ok col') : ColorsOnce (specs ++ [sp]) := by
  have hfg := honce.fgOnce
  have hbg := honce.bgOnce
  constructor
  · rw [fgColors_append, List.length_append]
    cases sp with
    | fg color =>
        simp only [Specifier.add, Colorizer.setFgColor] at hadd
        split at hadd
        · cases hadd
        · rename_i hnone
          rw [h.fgColor] at hnone
          rw [eq_nil_of_not_isSome hnone]
          exact Nat.le_refl _
    | _ => exact hfg
  · rw [bgColors_append, List.length_append]
    cases sp with
    | bg color =>
        simp only [Specifier.add, Colorizer.setBgColor] at hadd
        split at hadd
        · cases hadd
        · rename_i hnone
          rw [h.bgColor] at hnone
          rw [eq_nil_of_not_isSome hnone]
          exact Nat.le_refl _
    | _ => exact hbg

theorem ColorsOnce.of_append (h : ColorsOnce (done ++ sp :: specs)) : ColorsOnce (done ++ [sp]) :=
  ⟨length_le_of_append sp specs _ h.fgOnce, length_le_of_append sp specs _ h.bgOnce⟩

/-- The specifiers can be added exactly if no colour comes twice, and then they
select what they say. -/
theorem addAll_iff (h : Selects done col) (honce : ColorsOnce done) :
    addAll specs col = .ok col' ↔
      ColorsOnce (done ++ specs) ∧ Selects (done ++ specs) col' := by
  induction specs generalizing done col with
  | nil =>
      rw [List.append_nil]
      constructor
      · intro hadd
        cases hadd
        exact ⟨honce, h⟩
      · rintro ⟨-, h'⟩
        rw [addAll, h.unique h']
  | cons sp specs ih =>
      rw [addAll, bind_eq_ok]
      constructor
      · rintro ⟨next, hadd, hrest⟩
        have honce' := h.once_of_add honce hadd
        obtain ⟨next', hadd', hselects⟩ := h.add sp honce'.fgOnce honce'.bgOnce
        obtain rfl : next = next' := Except.ok.inj (hadd.symm.trans hadd')
        rw [List.append_cons]
        exact (ih hselects honce').mp hrest
      · rintro ⟨honceAll, hselectsAll⟩
        have honce' := honceAll.of_append
        obtain ⟨next, hadd, hselects⟩ := h.add sp honce'.fgOnce honce'.bgOnce
        rw [List.append_cons] at honceAll hselectsAll
        exact ⟨next, hadd, (ih hselects honce').mpr ⟨honceAll, hselectsAll⟩⟩

theorem colorsOnce_nil : ColorsOnce [] := ⟨Nat.zero_le _, Nat.zero_le _⟩

theorem addAll_start : addAll specs {} = .ok col ↔ ColorsOnce specs ∧ Selects specs col :=
  addAll_iff selects_nil colorsOnce_nil

theorem exists_selects (honce : ColorsOnce specs) : ∃ col, Selects specs col := by
  induction specs using List.reverseRecOn with
  | nil => exact ⟨{}, selects_nil⟩
  | append_singleton specs sp ih =>
      have hfg := honce.fgOnce
      have hbg := honce.bgOnce
      rw [fgColors_append, List.length_append] at hfg
      rw [bgColors_append, List.length_append] at hbg
      obtain ⟨col, h⟩ := ih ⟨by omega, by omega⟩
      obtain ⟨col', -, h'⟩ := h.add sp honce.fgOnce honce.bgOnce
      exact ⟨col', h'⟩

end Selects

/-! The parts of a field, and its specifiers. -/

section Parts

variable {body rest spec : List Char} {specs : List Specifier} {col col' : Colorizer}

theorem parts_of_stopFree (h : StopFree spec) : parts spec = [spec] :=
  List.splitOn_eq_singleton fun hmem => (h _ hmem).1 rfl

theorem parts_append (h : StopFree spec) (s : List Char) :
    parts (spec ++ '|' :: s) = spec :: parts s :=
  List.splitOn_append_cons_self_of_not_mem (fun hmem => (h _ hmem).1 rfl) s

theorem specifiers_parts {s : List Char} (h : Specifiers s col rest col') :
    ∃ body specs, s = body ++ ']' :: rest ∧ List.Forall₂ Spells (parts body) specs ∧
      addAll specs col = .ok col' := by
  induction h with
  | @last spec rest sp col col' hfree hspells hadd =>
      refine ⟨spec, [sp], rfl, ?_, ?_⟩
      · rw [parts_of_stopFree hfree]
        exact .cons hspells .nil
      · rw [addAll, hadd]
        rfl
  | @more spec s rest sp col next col' hfree hspells hadd hrest ih =>
      obtain ⟨body, specs, rfl, hparts, hall⟩ := ih
      refine ⟨spec ++ '|' :: body, sp :: specs, by simp, ?_, ?_⟩
      · rw [parts_append hfree]
        exact .cons hspells hparts
      · rw [addAll, hadd]
        exact hall

theorem specifiers_of_parts (hbody : ']' ∉ body) (hparts : List.Forall₂ Spells (parts body) specs)
    (hall : addAll specs col = .ok col') : Specifiers (body ++ ']' :: rest) col rest col' := by
  induction hn : body.length using Nat.strong_induction_on generalizing body specs col with
  | _ n ih =>
    rcases stopFree_cases body with hfree | ⟨spec, c, s, rfl, hfree, hc⟩
    · rw [parts_of_stopFree hfree] at hparts
      cases hparts with
      | cons hspells hnil =>
          cases hnil
          obtain ⟨next, hadd, hlast⟩ := bind_eq_ok.mp hall
          cases hlast
          exact .last hfree hspells hadd
    · have hbar : c = '|' := by
        rcases hc with rfl | rfl
        · rfl
        · exact absurd (List.mem_append_right _ List.mem_cons_self) hbody
      subst hbar
      rw [parts_append hfree] at hparts
      cases hparts with
      | cons hspells hmore =>
          obtain ⟨next, hadd, hrest⟩ := bind_eq_ok.mp hall
          have hs : ']' ∉ s := fun hmem =>
            hbody (List.mem_append_right _ (List.mem_cons_of_mem _ hmem))
          have hlt : s.length < n := by
            rw [List.length_append, List.length_cons] at hn
            omega
          rw [List.append_assoc]
          exact .more hfree hspells hadd (ih s.length hlt hs hmore hrest rfl)

/-- The text of a field, by its parts. -/
theorem specifiers_iff_parts (hbody : ']' ∉ body) :
    Specifiers (body ++ ']' :: rest) {} rest col ↔ ∃ specs,
      List.Forall₂ Spells (parts body) specs ∧ ColorsOnce specs ∧ Selects specs col := by
  constructor
  · intro h
    obtain ⟨body', specs, heq, hparts, hall⟩ := specifiers_parts h
    obtain rfl := List.append_cancel_right heq
    exact ⟨specs, hparts, addAll_start.mp hall⟩
  · rintro ⟨specs, hparts, hselects⟩
    exact specifiers_of_parts hbody hparts (addAll_start.mpr hselects)

/-- The text of a field, up to its closing bracket. -/
theorem fieldText_iff_spelled (hbody : ']' ∉ body) :
    FieldText (body ++ ']' :: rest) col rest ↔
      ∃ specs, Spelled body specs ∧ Admissible specs ∧ Selects specs col := by
  constructor
  · rintro ⟨s, hstart, hspecs, halone⟩
    have hadmissible {specs : List Specifier} (honce : ColorsOnce specs)
        (hselects : Selects specs col) : Admissible specs :=
      {honce with resetAlone := hselects.resetAlone_iff.mp halone}
    generalize hit : body ++ ']' :: rest = it at hstart
    cases hstart with
    | bar s =>
        cases body with
        | nil => cases hit
        | cons d body =>
            obtain ⟨rfl, rfl⟩ := List.cons.inj hit
            have hbody' : ']' ∉ body := fun hmem => hbody (List.mem_cons_of_mem _ hmem)
            obtain ⟨specs, hparts, honce, hselects⟩ := (specifiers_iff_parts hbody').mp hspecs
            exact ⟨specs, .bar hparts, hadmissible honce hselects, hselects⟩
    | first hc s =>
        rw [← hit] at hspecs
        obtain ⟨specs, hparts, honce, hselects⟩ := (specifiers_iff_parts hbody).mp hspecs
        exact ⟨specs, .plain hparts, hadmissible honce hselects, hselects⟩
  · rintro ⟨specs, hspelled, hadmissible, hselects⟩
    have halone := hselects.resetAlone_iff.mpr hadmissible.resetAlone
    cases hspelled with
    | plain hparts =>
        have hspecs : Specifiers (body ++ ']' :: rest) {} rest col :=
          (specifiers_iff_parts hbody).mpr ⟨specs, hparts, hadmissible.toColorsOnce, hselects⟩
        exact ⟨_, (specifiers_startsLower hspecs).start, hspecs, halone⟩
    | @bar body _ hparts =>
        have hbody' : ']' ∉ body := fun hmem => hbody (List.mem_cons_of_mem _ hmem)
        exact ⟨body ++ ']' :: rest, .bar _, (specifiers_iff_parts hbody').mpr
          ⟨specs, hparts, hadmissible.toColorsOnce, hselects⟩, halone⟩

theorem unclosed_no_bracket {s : List Char} (h : Unclosed s col) : ']' ∉ s := by
  induction h with
  | valid hfree hspells hadd => exact fun hmem => (hfree _ hmem).2 rfl
  | cutOff hfree hcut => exact fun hmem => (hfree _ hmem).2 rfl
  | more hfree hspells hadd hrest ih =>
      intro hmem
      rcases List.mem_append.mp hmem with hmem | hmem
      · exact (hfree _ hmem).2 rfl
      · rcases List.mem_cons.mp hmem with heq | hmem
        · cases heq
        · exact ih hmem

theorem unclosedField_no_bracket {s : List Char} (h : UnclosedField s) : ']' ∉ s := by
  obtain ⟨s', hstart, hopen⟩ := h
  have hnot := unclosed_no_bracket hopen
  cases hstart with
  | bar s =>
      intro hmem
      rcases List.mem_cons.mp hmem with heq | hmem
      · cases heq
      · exact hnot hmem
  | first hc s => exact hnot

/-- Where a character comes first, a text is split there in one way. -/
theorem split_unique {c : Char} {s s' t t' : List Char} (hs : c ∉ s) (hs' : c ∉ s')
    (h : s ++ c :: t = s' ++ c :: t') : s = s' ∧ t = t' := by
  have hbefore {b r : List Char} (hb : c ∉ b) : (b ++ c :: r).takeWhile (· ≠ c) = b := by
    have hall : ∀ d ∈ b, decide (d ≠ c) = true := by
      intro d hd
      rw [decide_eq_true_iff]
      rintro rfl
      exact hb hd
    rw [List.takeWhile_append_of_pos hall]
    simp
  have hsame : s = s' := by
    rw [← hbefore (r := t) hs, h, hbefore hs']
  rw [hsame] at h
  exact ⟨hsame, (List.cons.inj (List.append_cancel_left h)).2⟩

theorem fieldText_rest {rest' : List Char} (hbody : ']' ∉ body)
    (h : FieldText (body ++ ']' :: rest) col rest') : rest' = rest := by
  obtain ⟨body', heq, hbody', -⟩ := fieldText_split h
  exact (split_unique hbody hbody' heq).2.symm

/-- A field with its closing bracket, as `colorize` reads and writes it. -/
def readField (body rest : List Char) : Parse (List Char × List Char) :=
  (colorizingScanner backInserter).onReplacementField ((body ++ ']' :: rest).length + 1)
    (body ++ ']' :: rest) []

theorem readField_of_spelled (hbody : ']' ∉ body) (hspelled : Spelled body specs)
    (hadmissible : Admissible specs) (hselects : Selects specs col) :
    readField body rest = .ok (rest, col.colorize) := by
  have hfield : FieldText (body ++ ']' :: rest) col rest :=
    (fieldText_iff_spelled hbody).mpr ⟨specs, hspelled, hadmissible, hselects⟩
  rw [readField, onReplacementField_of_fieldText colorizingScanner_interprets hfield
    (Nat.lt_succ_self _), backInserter_copy, List.nil_append]

/-- Any other field throws. -/
theorem readField_of_not_spelled (hbody : ']' ∉ body)
    (h : ¬ ∃ specs, Spelled body specs ∧ Admissible specs) (rest : List Char) :
    ∃ what, readField body rest = raise what := by
  cases body with
  | nil => exact ⟨_, rfl⟩
  | cons c body =>
      have hc : c ≠ ']' := fun heq => hbody (heq ▸ List.mem_cons_self)
      rcases doParse_cases hc (body ++ ']' :: rest) with
        ⟨col, rest', hfield⟩ | hopen | ⟨what, hthrow⟩
      · obtain rfl := fieldText_rest hbody hfield
        obtain ⟨specs, hspelled, hadmissible, -⟩ := (fieldText_iff_spelled hbody).mp hfield
        exact absurd ⟨specs, hspelled, hadmissible⟩ h
      · exact absurd (List.mem_cons_of_mem _ (List.mem_append_right _ List.mem_cons_self))
          (unclosedField_no_bracket hopen)
      · refine ⟨what, ?_⟩
        rw [readField, List.cons_append, Scanner.onReplacementField, deref, ok_bind, if_neg hc,
          colorizingScanner_interprets.colorize_eq, hthrow _ (Nat.lt_succ_self _), raise_bind,
          raise_bind]

theorem readField_ok_iff (hbody : ']' ∉ body) :
    (∃ out, readField body rest = .ok out) ↔ ∃ specs, Spelled body specs ∧ Admissible specs := by
  constructor
  · rintro ⟨out, hout⟩
    by_contra hnot
    obtain ⟨what, hthrow⟩ := readField_of_not_spelled hbody hnot rest
    cases hout.symm.trans hthrow
  · rintro ⟨specs, hspelled, hadmissible⟩
    obtain ⟨col, hselects⟩ := exists_selects hadmissible.toColorsOnce
    exact ⟨_, readField_of_spelled hbody hspelled hadmissible hselects⟩

/-- Each part is a valid specifier, and together they keep the rules. -/
def SplitValid (body : List Char) : Prop :=
  ∃ specs, List.Forall₂ Spells (parts body) specs ∧ Admissible specs

/-- Before the first bar the part is empty. -/
theorem not_parts_bar (body : List Char) : ¬ List.Forall₂ Spells (parts ('|' :: body)) specs := by
  intro hparts
  have hsplit : parts ([] ++ '|' :: body) = [] :: parts body :=
    parts_append (fun c hc => by cases hc) body
  rw [List.nil_append] at hsplit
  rw [hsplit] at hparts
  cases hparts with
  | cons hspells hmore =>
      obtain ⟨c, t, heq, -⟩ := spells_startsLower hspells
      cases heq

theorem spelled_bar_iff : Spelled ('|' :: body) specs ↔ List.Forall₂ Spells (parts body) specs := by
  constructor
  · intro h
    cases h with
    | plain hparts => exact absurd hparts (not_parts_bar body)
    | bar hparts => exact hparts
  · exact .bar

theorem spelled_plain_iff (h : body.head? ≠ some '|') :
    Spelled body specs ↔ List.Forall₂ Spells (parts body) specs := by
  constructor
  · intro hspelled
    cases hspelled with
    | plain hparts => exact hparts
    | bar hparts => exact absurd rfl h
  · exact .plain

/-- For every text between the brackets, and whatever follows it: the field is
accepted exactly if its parts are valid, if and only if the text is not a bar with
a text behind it whose parts are. -/
theorem field_accepted_iff (body rest : List Char) (hbody : ']' ∉ body) :
    ((∃ out, readField body rest = .ok out) ↔ SplitValid body) ↔
      ¬ ∃ body', body = '|' :: body' ∧ SplitValid body' := by
  rw [readField_ok_iff hbody]
  by_cases hbar : body.head? = some '|'
  · obtain ⟨body', rfl⟩ := List.head?_eq_some_iff.mp hbar
    have hnot : ¬ SplitValid ('|' :: body') := fun ⟨specs, hparts, _⟩ => not_parts_bar body' hparts
    simp only [spelled_bar_iff, hnot, iff_false]
    constructor
    · rintro hrejected ⟨body'', heq, hvalid⟩
      obtain ⟨-, rfl⟩ := List.cons.inj heq
      exact hrejected hvalid
    · exact fun hnone hvalid => hnone ⟨body', rfl, hvalid⟩
  · simp only [spelled_plain_iff hbar]
    refine iff_of_true Iff.rfl ?_
    rintro ⟨body', rfl, -⟩
    exact hbar rfl

theorem field_accepted_iff_red :
    (∃ out, readField "red".toList [] = .ok out) ↔ SplitValid "red".toList := by
  refine (field_accepted_iff "red".toList [] (by decide)).mpr ?_
  rintro ⟨body', heq, -⟩
  cases heq

/-- `[|red]`: the first part is empty. -/
theorem leading_bar_accepted : ¬ ∀ body rest : List Char, ']' ∉ body →
    ((∃ out, readField body rest = .ok out) ↔ SplitValid body) := by
  intro hall
  obtain ⟨specs, hparts, -⟩ := (hall "|red".toList [] (by decide)).mp ⟨_, rfl⟩
  exact not_parts_bar "red".toList hparts

end Parts

end YkUtil.Colorize
