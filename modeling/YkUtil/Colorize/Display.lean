import YkUtil.Lib.Screen
import YkUtil.Colorize.Terminal

/-!
What a markup string means: characters, each shown as the fields before it say.
`colorize` is a translation of this language into the one of terminals, and keeps
the meaning: a terminal that is fed its output shows these characters in this way.
-/

namespace YkUtil.Colorize

open YkUtil.Lib.Outcome
open YkUtil.Lib.Sgr (Cell Screen Terminal encode interpret)

/-- How a terminal shows characters after a field. -/
def restyle (specs : List Specifier) (pen : Terminal) : Terminal :=
  if .reset ∈ specs then .plain else select specs pen

/-- The cells of a markup string, and how a character after it would be shown. -/
inductive Means : List Char → Terminal → List Cell → Terminal → Prop
  | nil {pen : Terminal} : Means [] pen [] pen
  | char {c : Char} {s : List Char} {cells : List Cell} {pen pen' : Terminal}
      (hc : c ≠ '[' ∧ c ≠ ']') (hrest : Means s pen cells pen') :
      Means (c :: s) pen ((c, pen) :: cells) pen'
  | left {s : List Char} {cells : List Cell} {pen pen' : Terminal} (hright : ']' ∈ s)
      (hrest : Means s pen cells pen') : Means ('[' :: '[' :: s) pen (('[', pen) :: cells) pen'
  | right {s : List Char} {cells : List Cell} {pen pen' : Terminal}
      (hrest : Means s pen cells pen') : Means (']' :: ']' :: s) pen ((']', pen) :: cells) pen'
  | field {body s : List Char} {specs : List Specifier} {cells : List Cell} {pen pen' : Terminal}
      (hbody : ']' ∉ body) (hspelled : Spelled body specs) (hadmissible : Admissible specs)
      (hrest : Means s (restyle specs pen) cells pen') :
      Means ('[' :: (body ++ ']' :: s)) pen cells pen'

section Sequence

variable {specs : List Specifier} {col : Colorizer}

theorem interpret_restyle (h : Selects specs col) (hadmissible : Admissible specs)
    (hne : specs ≠ []) : ∃ params, params ≠ [] ∧ col.colorize = encode params ∧
      ∀ pen, interpret params pen = some (restyle specs pen) := by
  by_cases hreset : .reset ∈ specs
  · refine ⟨[0], List.cons_ne_nil _ _, ?_, fun pen => ?_⟩
    · rw [Colorizer.colorize, h.reset, decide_eq_true hreset]
      rfl
    · rw [restyle, if_pos hreset]
      rfl
  · refine ⟨sgrCodes specs, sgrCodes_ne_nil hne hreset, ?_, fun pen => ?_⟩
    · rw [Colorizer.colorize, h.reset, decide_eq_false hreset,
        h.codes_eq hadmissible.fgOnce hadmissible.bgOnce]
      rfl
    · rw [restyle, if_neg hreset]
      exact interpret_sgrCodes hadmissible.toColorsOnce pen

/-- The sequence of a field changes how the terminal goes on. -/
theorem feed_colorize (h : Selects specs col) (hadmissible : Admissible specs)
    (hne : specs ≠ []) {s : Screen} (hidle : s.reading = none) :
    s.feed col.colorize = some {s with pen := restyle specs s.pen} := by
  obtain ⟨params, hparams, hbytes, hpen⟩ := interpret_restyle h hadmissible hne
  rw [hbytes]
  exact Screen.feed_encode hidle hparams (hpen s.pen)

end Sequence

section Means

variable {str : List Char} {segs : List Segment} {cells : List Cell} {pen pen' : Terminal}

theorem exists_means (h : Reads str segs) (pen : Terminal) :
    ∃ cells pen', Means str pen cells pen' := by
  induction h generalizing pen with
  | nil => exact ⟨[], pen, .nil⟩
  | char hc hrest ih =>
      obtain ⟨cells, pen', hmeans⟩ := ih pen
      exact ⟨_, pen', .char hc hmeans⟩
  | left hright hrest ih =>
      obtain ⟨cells, pen', hmeans⟩ := ih pen
      exact ⟨_, pen', .left hright hmeans⟩
  | right hrest ih =>
      obtain ⟨cells, pen', hmeans⟩ := ih pen
      exact ⟨_, pen', .right hmeans⟩
  | field hfield hrest ih =>
      obtain ⟨body, rfl, hbody, -⟩ := fieldText_split hfield
      obtain ⟨specs, hspelled, hadmissible, -⟩ := (fieldText_iff_spelled hbody).mp hfield
      obtain ⟨cells, pen', hmeans⟩ := ih (restyle specs pen)
      exact ⟨cells, pen', .field hbody hspelled hadmissible hmeans⟩

/-- One more character, shown as the terminal stands. -/
theorem feed_char {s t : Screen} {c : Char} {out : List Char} (hidle : s.reading = none)
    (hc : c ≠ '\x1b')
    (h : Screen.feed {s with cells := s.cells ++ [(c, s.pen)]} out = some t) :
    s.feed (c :: out) = some t := by
  have hone := @Screen.feed_text s [c] hidle (by simpa using Ne.symm hc)
  rw [← List.singleton_append, Screen.feed_append, hone]
  exact h

/-- The segments of a string are written as these cells. -/
structure WrittenAs (str : List Char) (segs : List Segment) (pen : Terminal) (cells : List Cell)
    (pen' : Terminal) : Prop where
  plain : segs.flatMap Segment.plain = cells.map Prod.fst
  colored : '\x1b' ∉ str → ∀ before, Screen.feed ⟨pen, none, before⟩
    (segs.flatMap Segment.colored) = some ⟨pen', none, before ++ cells⟩

theorem WrittenAs.char (h : WrittenAs str segs pen cells pen') (c : Char) (front : List Char)
    (hc : '\x1b' ∉ front → c ≠ '\x1b') :
    WrittenAs (front ++ str) (.char c :: segs) pen ((c, pen) :: cells) pen' := by
  constructor
  · rw [List.flatMap_cons, h.plain]
    rfl
  · intro hesc before
    rw [List.mem_append, not_or] at hesc
    have hafter := h.colored hesc.2 (before ++ [(c, pen)])
    rw [List.append_assoc] at hafter
    exact feed_char rfl (hc hesc.1) hafter

theorem WrittenAs.field {body : List Char} {specs : List Specifier} {col : Colorizer}
    (h : WrittenAs str segs (restyle specs pen) cells pen') (hselects : Selects specs col)
    (hadmissible : Admissible specs) (hne : specs ≠ []) :
    WrittenAs ('[' :: (body ++ ']' :: str)) (.field col :: segs) pen cells pen' := by
  refine ⟨h.plain, fun hesc before => ?_⟩
  have htail : '\x1b' ∉ str := fun hmem => hesc
    (List.mem_cons_of_mem _ (List.mem_append_right _ (List.mem_cons_of_mem _ hmem)))
  have hsequence := @feed_colorize _ _ hselects hadmissible hne ⟨pen, none, before⟩ rfl
  rw [List.flatMap_cons, Segment.colored, Screen.feed_append, hsequence]
  exact h.colored htail before

/-- A markup string is read as segments that are written as what it means. -/
theorem Means.reads (h : Means str pen cells pen') :
    ∃ segs, Reads str segs ∧ WrittenAs str segs pen cells pen' := by
  induction h with
  | nil => exact ⟨[], .nil, rfl, fun _ before => by simp [Screen.feed]⟩
  | @char c s cells pen pen' hc hrest ih =>
      obtain ⟨segs, hreads, hwritten⟩ := ih
      exact ⟨_, .char hc hreads, hwritten.char c [c] fun hesc =>
        (List.ne_of_not_mem_cons hesc).symm⟩
  | @left s cells pen pen' hright hrest ih =>
      obtain ⟨segs, hreads, hwritten⟩ := ih
      exact ⟨_, .left hright hreads, hwritten.char '[' ['[', '['] fun _ => by decide⟩
  | @right s cells pen pen' hrest ih =>
      obtain ⟨segs, hreads, hwritten⟩ := ih
      exact ⟨_, .right hreads, hwritten.char ']' [']', ']'] fun _ => by decide⟩
  | @field body s specs cells pen pen' hbody hspelled hadmissible hrest ih =>
      obtain ⟨segs, hreads, hwritten⟩ := ih
      obtain ⟨col, hselects⟩ := exists_selects hadmissible.toColorsOnce
      have hfield : FieldText (body ++ ']' :: s) col s :=
        (fieldText_iff_spelled hbody).mpr ⟨specs, hspelled, hadmissible, hselects⟩
      exact ⟨_, .field hfield hreads,
        hwritten.field hselects hadmissible (spelled_ne_nil hspelled)⟩

theorem reads_of_colorize {out : List Char} (h : colorize {} str = .ok out) :
    ∃ segs, Reads str segs := by
  rcases scan_cases str with hreads | hover | ⟨what, hthrow⟩
  · exact hreads
  · cases h.symm.trans (colorizeTo_of_fails (fails_of_overruns hover) {})
  · cases h.symm.trans (colorizeTo_of_fails hthrow {})

/-- For every string without an escape character, and a terminal in any state: the
string means these cells, and this state after them, if and only if `colorize`
accepts it and the terminal, fed its output, shows these cells and is in this state.
Without colours the output is the characters of the cells. -/
theorem colorize_displays (str : List Char) (pen : Terminal) (hesc : '\x1b' ∉ str)
    (cells : List Cell) (pen' : Terminal) :
    (Means str pen cells pen' ↔ ∃ out, colorize {} str = .ok out ∧
      (Screen.start pen).feed out = some ⟨pen', none, cells⟩) ∧
    (Means str pen cells pen' → colorize ⟨false⟩ str = .ok (cells.map Prod.fst)) := by
  have hshows {cells : List Cell} {pen' : Terminal} (h : Means str pen cells pen') :
      ∃ out, colorize {} str = .ok out ∧
        (Screen.start pen).feed out = some ⟨pen', none, cells⟩ := by
    obtain ⟨segs, hreads, hwritten⟩ := h.reads
    exact ⟨_, colorize_of_reads hreads, hwritten.colored hesc []⟩
  refine ⟨⟨hshows, ?_⟩, fun h => ?_⟩
  · rintro ⟨out, hout, hfeed⟩
    obtain ⟨segs, hreads⟩ := reads_of_colorize hout
    obtain ⟨cells', last, hmeans⟩ := exists_means hreads pen
    obtain ⟨out', hout', hfeed'⟩ := hshows hmeans
    cases hout.symm.trans hout'
    cases hfeed.symm.trans hfeed'
    exact hmeans
  · obtain ⟨segs, hreads, hwritten⟩ := h.reads
    rw [colorize, colorizeTo_plain_of_reads hreads, backInserter_copy, List.nil_append,
      hwritten.plain]

/-- `[red]a[[[bg:blue|bold]]]`: a red character, a red bracket, and a bracket that is
bold and on blue as well. -/
theorem colorize_displays_two_fields : ∃ out,
    colorize {} "[red]a[[[bg:blue|bold]]]".toList = .ok out ∧
      (Screen.start .plain).feed out = some
        ⟨select [.bg 0x0000FF, .emphasis .bold] (select [.fg 0xFF0000] .plain), none,
          [('a', select [.fg 0xFF0000] .plain), ('[', select [.fg 0xFF0000] .plain),
            (']', select [.bg 0x0000FF, .emphasis .bold] (select [.fg 0xFF0000] .plain))]⟩ := by
  have hred : Spelled "red".toList [.fg 0xFF0000] :=
    .plain (.cons (.color (.named (by decide +kernel))) .nil)
  have hparts : parts "bg:blue|bold".toList =
      ["bg:".toList ++ "blue".toList, Emphasis.bold.name] := by
    decide
  have hblue : Spelled "bg:blue|bold".toList [.bg 0x0000FF, .emphasis .bold] := by
    apply Spelled.plain
    rw [hparts]
    exact .cons (.bg (.named (by decide +kernel))) (.cons (.emphasis .bold) .nil)
  have hmeans : Means "[red]a[[[bg:blue|bold]]]".toList .plain _ _ :=
    @Means.field "red".toList _ _ _ _ _ (by decide) hred
      ⟨⟨Nat.le_refl 1, Nat.zero_le 1⟩, by simp⟩
      (.char (by decide) (.left (by decide) (@Means.field "bg:blue|bold".toList _ _ _ _ _
        (by decide) hblue ⟨⟨Nat.zero_le 1, Nat.le_refl 1⟩, by simp⟩ (.right .nil))))
  exact (colorize_displays _ .plain (by decide) _ _).1.mp hmeans

end Means

end YkUtil.Colorize
