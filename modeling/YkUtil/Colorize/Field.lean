import YkUtil.Colorize.Specifier

/-!
What the loop of `do_parse` does with the text of a field. The text is taken
specifier by specifier; a specifier ends before a bar, before the bracket that
closes the field, or, when there is neither, with the string.
-/

namespace YkUtil.Colorize

open YkUtil.Lib.Outcome

def StopFree (s : List Char) : Prop :=
  ∀ c ∈ s, c ≠ '|' ∧ c ≠ ']'

/-- `Specifiers s col rest col'`: from the start of a specifier, `s` is read up to
the bracket before `rest`, and adds to `col` what makes it `col'`. -/
inductive Specifiers : List Char → Colorizer → List Char → Colorizer → Prop where
  | last {spec rest : List Char} {sp : Specifier} {col col' : Colorizer} (hfree : StopFree spec)
      (hspells : Spells spec sp) (hadd : sp.add col = .ok col') :
      Specifiers (spec ++ ']' :: rest) col rest col'
  | more {spec s rest : List Char} {sp : Specifier} {col col' col'' : Colorizer}
      (hfree : StopFree spec) (hspells : Spells spec sp) (hadd : sp.add col = .ok col')
      (hrest : Specifiers s col' rest col'') :
      Specifiers (spec ++ '|' :: s) col rest col''

/-- The specifier that ends with the string is valid, or is cut off. -/
inductive Unclosed : List Char → Colorizer → Prop where
  | valid {spec : List Char} {sp : Specifier} {col col' : Colorizer} (hfree : StopFree spec)
      (hspells : Spells spec sp) (hadd : sp.add col = .ok col') : Unclosed spec col
  | cutOff {spec : List Char} {col : Colorizer} (hfree : StopFree spec) (hcut : CutOff spec) :
      Unclosed spec col
  | more {spec s : List Char} {sp : Specifier} {col col' : Colorizer}
      (hfree : StopFree spec) (hspells : Spells spec sp) (hadd : sp.add col = .ok col')
      (hrest : Unclosed s col') : Unclosed (spec ++ '|' :: s) col

/-- A bar before the start of a specifier is passed over, also before the first. -/
inductive Start : List Char → List Char → Prop where
  | bar (s : List Char) : Start ('|' :: s) s
  | first {c : Char} (hc : c ≠ '|' ∧ c ≠ ']') (s : List Char) : Start (c :: s) (c :: s)

/-- `reset` is independently specified. -/
def ResetAlone (col : Colorizer) : Prop :=
  col.reset = true → col.fgColor = none ∧ col.emphasis = 0

/-- The text of a field after its opening bracket, and what is left of the string. -/
def FieldText (s : List Char) (col : Colorizer) (rest : List Char) : Prop :=
  ∃ s', Start s s' ∧ Specifiers s' {} rest col ∧ ResetAlone col

/-- A field that is opened, not closed, and valid as far as it goes. -/
def UnclosedField (s : List Char) : Prop :=
  ∃ s', Start s s' ∧ Unclosed s' {}

section StopFree

variable {spec s : List Char}

theorem stopFree_cases (s : List Char) :
    StopFree s ∨ ∃ spec c rest, s = spec ++ c :: rest ∧ StopFree spec ∧ (c = '|' ∨ c = ']') := by
  induction s with
  | nil => exact .inl (by simp [StopFree])
  | cons d s ih =>
    by_cases hd : d = '|' ∨ d = ']'
    · exact .inr ⟨[], d, s, rfl, by simp [StopFree], hd⟩
    · have hd' : d ≠ '|' ∧ d ≠ ']' := not_or.mp hd
      rcases ih with hfree | ⟨spec, c, rest, rfl, hfree, hc⟩
      · exact .inl (List.forall_mem_cons.mpr ⟨hd', hfree⟩)
      · exact .inr ⟨d :: spec, c, rest, rfl, List.forall_mem_cons.mpr ⟨hd', hfree⟩, hc⟩

theorem findStop_of_stopFree (h : StopFree s) : findStop s = none := by
  rw [findStop, List.findIdx?_eq_none_iff]
  intro c hc
  simpa using h c hc

theorem findStop_append {c : Char} {rest : List Char} (h : StopFree spec)
    (hc : c = '|' ∨ c = ']') : findStop (spec ++ c :: rest) = some spec.length := by
  have hspec := findStop_of_stopFree h
  rw [findStop] at hspec
  rw [findStop, List.findIdx?_append, hspec, List.findIdx?_cons, if_pos (by simpa using hc)]
  simp

end StopFree

theorem advance_append (s rest : List Char) : advance (s ++ rest) s.length = .ok rest := by
  simp [advance]

section Loop

variable {it s spec rest : List Char} {col col' : Colorizer} {bound : Nat}

theorem doParseLoop_close (bound : Nat) (rest : List Char) (col : Colorizer) :
    doParseLoop (bound + 1) (']' :: rest) col = .ok (']' :: rest, col) := rfl

theorem doParseLoop_some {len : Nat} (hstart : Start it s) (hfind : findStop s = some len) :
    doParseLoop (bound + 1) it col = (do
      let result ← parseSpecifier (s.take len) (s.drop len) col
      let it ← advance s len
      doParseLoop bound it result) := by
  cases hstart with
  | bar s => simp only [doParseLoop, Char.reduceEq, ↓reduceIte, hfind]
  | first hc s => simp only [doParseLoop, hc.1, hc.2, ↓reduceIte, hfind]

/-- One iteration, for a specifier with a bar or a bracket after it. -/
theorem doParseLoop_stop {c : Char} (hstart : Start it (spec ++ c :: rest))
    (hfree : StopFree spec) (hc : c = '|' ∨ c = ']') :
    doParseLoop (bound + 1) it col =
      parseSpecifier spec (c :: rest) col >>= doParseLoop bound (c :: rest) := by
  rw [doParseLoop_some hstart (findStop_append hfree hc)]
  simp only [List.take_left, List.drop_left, advance_append, ok_bind]

/-- One iteration, for a specifier that ends with the string. -/
theorem doParseLoop_open (hstart : Start it spec) (hfree : StopFree spec) :
    doParseLoop (bound + 1) it col =
      parseSpecifier spec [] col >>= fun _ => .error .outOfRange := by
  have hfind := findStop_of_stopFree hfree
  cases hstart with
  | bar s => simp only [doParseLoop, Char.reduceEq, ↓reduceIte, hfind]
  | first hc s => simp only [doParseLoop, hc.1, hc.2, ↓reduceIte, hfind]

theorem Start.pos (h : Start it s) : 0 < it.length := by
  cases h with
  | bar s => exact Nat.succ_pos _
  | first hc s => exact Nat.succ_pos _

/-- Each iteration moves the position forward. -/
theorem Start.length_lt {c : Char} (h : Start it (spec ++ c :: rest)) (hc : c = '|' ∨ c = ']') :
    (c :: rest).length < it.length := by
  generalize hs : spec ++ c :: rest = s at h
  have hlength := congrArg List.length hs
  simp only [List.length_append, List.length_cons] at hlength ⊢
  cases h with
  | bar s =>
    simp only [List.length_cons]
    omega
  | @first d hd s =>
    cases spec with
    | nil =>
      simp only [List.nil_append, List.cons.injEq] at hs
      obtain ⟨rfl, rfl⟩ := hs
      rcases hc with rfl | rfl
      · exact absurd rfl hd.1
      · exact absurd rfl hd.2
    | cons e spec =>
      simp only [List.length_cons] at hlength ⊢
      omega

/-- Enough iterations: one for each character left, and one to stop. -/
theorem doParseLoop_of_specifiers (h : Specifiers s col rest col') (hstart : Start it s)
    (hbound : it.length < bound) : doParseLoop bound it col = .ok (']' :: rest, col') := by
  induction h generalizing it bound with
  | @last spec rest sp col col' hfree hspells hadd =>
    have hpos := hstart.pos
    obtain ⟨n, rfl⟩ : ∃ n, bound = n + 2 := ⟨bound - 2, by omega⟩
    rw [doParseLoop_stop hstart hfree (.inr rfl), parseSpecifier_of_spells hspells, hadd, ok_bind,
      doParseLoop_close]
  | @more spec s rest sp col col' col'' hfree hspells hadd hrest ih =>
    obtain ⟨n, rfl⟩ : ∃ n, bound = n + 1 := ⟨bound - 1, by omega⟩
    have hlt := hstart.length_lt (.inl rfl)
    rw [doParseLoop_stop hstart hfree (.inl rfl), parseSpecifier_of_spells hspells, hadd, ok_bind]
    exact ih (.bar s) (by omega)

theorem doParseLoop_of_unclosed (h : Unclosed s col) (hstart : Start it s)
    (hbound : it.length < bound) : doParseLoop bound it col = .error .outOfRange := by
  induction h generalizing it bound with
  | valid hfree hspells hadd =>
    obtain ⟨n, rfl⟩ : ∃ n, bound = n + 1 := ⟨bound - 1, by omega⟩
    rw [doParseLoop_open hstart hfree, parseSpecifier_of_spells hspells, hadd, ok_bind]
  | cutOff hfree hcut =>
    obtain ⟨n, rfl⟩ : ∃ n, bound = n + 1 := ⟨bound - 1, by omega⟩
    rw [doParseLoop_open hstart hfree, parseSpecifier_of_cutOff hcut, error_bind]
  | @more spec s sp col col' hfree hspells hadd hrest ih =>
    obtain ⟨n, rfl⟩ : ∃ n, bound = n + 1 := ⟨bound - 1, by omega⟩
    have hlt := hstart.length_lt (.inl rfl)
    rw [doParseLoop_stop hstart hfree (.inl rfl), parseSpecifier_of_spells hspells, hadd, ok_bind]
    exact ih (.bar s) (by omega)

theorem follows_cons {c : Char} (hc : c = '|' ∨ c = ']') (rest : List Char) :
    Follows (c :: rest) := by
  intro d hd
  obtain rfl : c = d := by simpa using hd
  exact hc

/-- Any other field throws. -/
theorem doParseLoop_cases (s : List Char) (col : Colorizer) :
    (∃ rest col', Specifiers s col rest col') ∨ Unclosed s col ∨
      ∃ what, ∀ it bound, Start it s → it.length < bound →
        doParseLoop bound it col = raise what := by
  induction hn : s.length using Nat.strong_induction_on generalizing s col with
  | _ n ih =>
    rcases stopFree_cases s with hfree | ⟨spec, c, rest, rfl, hfree, hc⟩
    · have hnil : Follows [] := by simp [Follows]
      rcases parseSpecifier_cases hnil col with
        ⟨sp, col', hspells, hadd⟩ | ⟨-, hcut⟩ | ⟨what, hthrow⟩
      · exact .inr (.inl (.valid hfree hspells hadd))
      · exact .inr (.inl (.cutOff hfree hcut))
      · refine .inr (.inr ⟨what, ?_⟩)
        intro it bound hstart hbound
        obtain ⟨k, rfl⟩ : ∃ k, bound = k + 1 := ⟨bound - 1, by omega⟩
        rw [doParseLoop_open hstart hfree, hthrow, raise_bind]
    · rcases parseSpecifier_cases (follows_cons hc rest) col with
        ⟨sp, col', hspells, hadd⟩ | ⟨hnil, -⟩ | ⟨what, hthrow⟩
      · rcases hc with rfl | rfl
        · have hlt : rest.length < n := by
            simp only [List.length_append, List.length_cons] at hn
            omega
          rcases ih rest.length hlt rest col' rfl with
            ⟨rest', col'', hmore⟩ | hmore | ⟨what, hthrow⟩
          · exact .inl ⟨rest', col'', .more hfree hspells hadd hmore⟩
          · exact .inr (.inl (.more hfree hspells hadd hmore))
          · refine .inr (.inr ⟨what, ?_⟩)
            intro it bound hstart hbound
            obtain ⟨k, rfl⟩ : ∃ k, bound = k + 1 := ⟨bound - 1, by omega⟩
            have hlt := hstart.length_lt (.inl rfl)
            rw [doParseLoop_stop hstart hfree (.inl rfl), parseSpecifier_of_spells hspells, hadd,
              ok_bind]
            exact hthrow _ _ (.bar rest) (by omega)
        · exact .inl ⟨rest, col', .last hfree hspells hadd⟩
      · cases hnil
      · refine .inr (.inr ⟨what, ?_⟩)
        intro it bound hstart hbound
        obtain ⟨k, rfl⟩ : ∃ k, bound = k + 1 := ⟨bound - 1, by omega⟩
        rw [doParseLoop_stop hstart hfree hc, hthrow, raise_bind]

end Loop

section DoParse

variable {s rest : List Char} {col : Colorizer} {bound : Nat}

theorem start_exists {c : Char} (hc : c ≠ ']') (s : List Char) : ∃ s', Start (c :: s) s' := by
  by_cases hbar : c = '|'
  · subst hbar
    exact ⟨s, .bar s⟩
  · exact ⟨c :: s, .first ⟨hbar, hc⟩ s⟩

theorem not_resetAlone_iff :
    (col.reset && (col.fgColor.isSome || col.emphasis != 0)) = true ↔ ¬ ResetAlone col := by
  simp [ResetAlone, Option.isSome_iff_ne_none]
  tauto

theorem doParse_eq {it : List Char} (h : doParseLoop bound s {} = .ok (it, col)) :
    (ResetAlone col ∧ doParse bound s = .ok (it, col)) ∨
      (¬ ResetAlone col ∧ doParse bound s = raise "reset must be independently specified") := by
  rw [doParse, h, ok_bind]
  by_cases halone : ResetAlone col
  · refine .inl ⟨halone, if_neg ?_⟩
    rw [not_resetAlone_iff]
    exact not_not_intro halone
  · exact .inr ⟨halone, if_pos (not_resetAlone_iff.mpr halone)⟩

theorem doParse_of_fieldText (h : FieldText s col rest) (hbound : s.length < bound) :
    doParse bound s = .ok (']' :: rest, col) := by
  obtain ⟨s', hstart, hspecs, halone⟩ := h
  rcases doParse_eq (doParseLoop_of_specifiers hspecs hstart hbound) with ⟨-, hok⟩ | ⟨hnot, -⟩
  · exact hok
  · exact absurd halone hnot

theorem doParse_of_unclosed (h : UnclosedField s) (hbound : s.length < bound) :
    doParse bound s = .error .outOfRange := by
  obtain ⟨s', hstart, hopen⟩ := h
  rw [doParse, doParseLoop_of_unclosed hopen hstart hbound, error_bind]

theorem doParse_cases {c : Char} (hc : c ≠ ']') (s : List Char) :
    (∃ col rest, FieldText (c :: s) col rest) ∨ UnclosedField (c :: s) ∨
      ∃ what, ∀ bound, (c :: s).length < bound → doParse bound (c :: s) = raise what := by
  obtain ⟨s', hstart⟩ := start_exists hc s
  rcases doParseLoop_cases s' {} with ⟨rest, col, hspecs⟩ | hopen | ⟨what, hthrow⟩
  · by_cases halone : ResetAlone col
    · exact .inl ⟨col, rest, s', hstart, hspecs, halone⟩
    · refine .inr (.inr ⟨"reset must be independently specified", ?_⟩)
      intro bound hbound
      rcases doParse_eq (doParseLoop_of_specifiers hspecs hstart hbound) with ⟨h, -⟩ | ⟨-, hthrow⟩
      · exact absurd h halone
      · exact hthrow
  · exact .inr (.inl ⟨s', hstart, hopen⟩)
  · refine .inr (.inr ⟨what, ?_⟩)
    intro bound hbound
    rw [doParse, hthrow _ _ hstart hbound, raise_bind]

/-- The text of a field ends with the first closing bracket, and nothing after that
matters. -/
theorem specifiers_split {s : List Char} {col col' : Colorizer}
    (h : Specifiers s col rest col') : ∃ body, s = body ++ ']' :: rest ∧ ']' ∉ body ∧
      ∀ rest', Specifiers (body ++ ']' :: rest') col rest' col' := by
  induction h with
  | @last spec rest sp col col' hfree hspells hadd =>
    refine ⟨spec, rfl, ?_, fun rest' => .last hfree hspells hadd⟩
    intro hmem
    exact (hfree _ hmem).2 rfl
  | @more spec s rest sp col col' col'' hfree hspells hadd hrest ih =>
    obtain ⟨body, rfl, hbody, hany⟩ := ih
    refine ⟨spec ++ '|' :: body, by simp, ?_, ?_⟩
    · intro hmem
      rcases List.mem_append.mp hmem with hmem | hmem
      · exact (hfree _ hmem).2 rfl
      · rcases List.mem_cons.mp hmem with h | h
        · cases h
        · exact hbody h
    · intro rest'
      rw [List.append_assoc]
      exact .more hfree hspells hadd (hany rest')

theorem fieldText_split (h : FieldText s col rest) :
    ∃ body, s = body ++ ']' :: rest ∧ ']' ∉ body ∧
      ∀ rest', FieldText (body ++ ']' :: rest') col rest' := by
  obtain ⟨s', hstart, hspecs, halone⟩ := h
  obtain ⟨body, hs', hbody, hany⟩ := specifiers_split hspecs
  cases hstart with
  | bar =>
    refine ⟨'|' :: body, by rw [hs']; rfl, ?_, ?_⟩
    · intro hmem
      rcases List.mem_cons.mp hmem with h | h
      · cases h
      · exact hbody h
    · intro rest'
      exact ⟨body ++ ']' :: rest', .bar _, hany rest', halone⟩
  | @first c hc t =>
    refine ⟨body, hs', hbody, ?_⟩
    intro rest'
    cases body with
    | nil => exact absurd (List.cons.inj hs').1 hc.2
    | cons d body =>
      obtain ⟨rfl, -⟩ := List.cons.inj hs'
      exact ⟨_, .first hc _, hany rest', halone⟩

/-- What the text of a field starts with, which is neither a bracket nor an escape. -/
def StartsField (s : List Char) : Prop :=
  ∃ c t, s = c :: t ∧ (c = '|' ∨ c.isLower = true)

theorem StartsLower.append {s : List Char} (h : StartsLower s) (t : List Char) :
    StartsLower (s ++ t) := by
  obtain ⟨c, s, rfl, hc⟩ := h
  exact ⟨c, s ++ t, rfl, hc⟩

theorem Start.startsField {it s : List Char} (h : Start it s) (hs : StartsLower s) :
    StartsField it := by
  cases h with
  | bar s => exact ⟨'|', s, rfl, .inl rfl⟩
  | first hc s =>
    obtain ⟨c, t, heq, hlower⟩ := hs
    exact ⟨c, t, heq, .inr hlower⟩

theorem specifiers_startsLower {col' : Colorizer} (h : Specifiers s col rest col') :
    StartsLower s := by
  cases h with
  | last hfree hspells hadd => exact (spells_startsLower hspells).append _
  | more hfree hspells hadd hrest => exact (spells_startsLower hspells).append _

theorem StartsLower.start (h : StartsLower s) : Start s s := by
  obtain ⟨c, t, rfl, hc⟩ := h
  apply Start.first
  constructor
  all_goals
    rintro rfl
    cases hc

theorem fieldText_startsField (h : FieldText s col rest) : StartsField s := by
  obtain ⟨s', hstart, hspecs, -⟩ := h
  exact hstart.startsField (specifiers_startsLower hspecs)

theorem fieldText_unique {col' : Colorizer} {rest' : List Char} (h : FieldText s col rest)
    (h' : FieldText s col' rest') : col = col' ∧ rest = rest' := by
  have heq := doParse_of_fieldText h (Nat.lt_succ_self _)
  rw [doParse_of_fieldText h' (Nat.lt_succ_self _)] at heq
  simp only [Except.ok.injEq, Prod.mk.injEq, List.cons.injEq, true_and] at heq
  exact ⟨heq.2.symm, heq.1.symm⟩

theorem unclosedField_startsField (h : UnclosedField s) : StartsField s := by
  obtain ⟨s', hstart, hopen⟩ := h
  apply hstart.startsField
  cases hopen with
  | valid hfree hspells hadd => exact spells_startsLower hspells
  | cutOff hfree hcut => exact cutOff_startsLower hcut
  | more hfree hspells hadd hrest => exact (spells_startsLower hspells).append _

theorem StartsField.ne {c : Char} (h : StartsField (c :: s)) : c ≠ '[' ∧ c ≠ ']' ∧ c ≠ '\x1b' := by
  obtain ⟨d, t, heq, hd⟩ := h
  obtain ⟨rfl, rfl⟩ := List.cons.inj heq
  refine ⟨?_, ?_, ?_⟩
  all_goals
    rintro rfl
    simp at hd

end DoParse

end YkUtil.Colorize
