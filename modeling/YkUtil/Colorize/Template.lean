import YkUtil.Colorize.Agreement

/-!
Templates of text and fields, rendered to markup and colorized. A field is a list
of specifiers that select at most one colour for the text and one for the
background; its sequence is given by what they select, without the accumulator
of the parser.
-/

namespace YkUtil.Colorize

/-- A specifier as it is written. -/
structure Word where
  text : List Char
  specifier : Specifier
  spells : Spells text specifier
  free : StopFree text

def Specifier.fgColor? : Specifier → Option RgbColor
  | fg color => some color
  | _ => none

def Specifier.bgColor? : Specifier → Option RgbColor
  | bg color => some color
  | _ => none

def fgColors (specs : List Specifier) : List RgbColor :=
  specs.filterMap Specifier.fgColor?

def bgColors (specs : List Specifier) : List RgbColor :=
  specs.filterMap Specifier.bgColor?

structure Field where
  words : List Word
  ne_nil : words ≠ []
  fgOnce : (fgColors (words.map Word.specifier)).length ≤ 1
  bgOnce : (bgColors (words.map Word.specifier)).length ≤ 1
  resetAlone : .reset ∈ words.map Word.specifier →
    fgColors (words.map Word.specifier) = [] ∧
      ∀ em, .emphasis em ∉ words.map Word.specifier

/-- Red, green and blue. -/
def channels (rgb : RgbColor) : List Nat :=
  [rgb / 65536 % 256, rgb / 256 % 256, rgb % 256]

/-- The parameters of the sequence for what is selected. -/
def sgrCodes (specs : List Specifier) : List Nat :=
  (Emphasis.all.filter fun em => .emphasis em ∈ specs).map emphasisToValue ++
    (if .fgReset ∈ specs then [39] else []) ++
    (if .bgReset ∈ specs then [49] else []) ++
    (fgColors specs).flatMap (fun rgb => 38 :: 2 :: channels rgb) ++
    (bgColors specs).flatMap fun rgb => 48 :: 2 :: channels rgb

namespace Field

def specifiers (f : Field) : List Specifier :=
  f.words.map Word.specifier

def sequence (f : Field) : List Char :=
  if .reset ∈ f.specifiers then "\x1b[0m".toList
  else "\x1b[".toList ++ [';'].intercalate ((sgrCodes f.specifiers).map (Nat.toDigits 10)) ++ ['m']

end Field

/-- The words with a bar between them. -/
def joinWords : List Word → List Char
  | [] => []
  | [w] => w.text
  | w :: ws => w.text ++ '|' :: joinWords ws

inductive Chunk where
  | text (s : List Char)
  | field (f : Field)

def renderChar (c : Char) : List Char :=
  if c = '[' ∨ c = ']' then [c, c] else [c]

def Chunk.render : Chunk → List Char
  | text s => s.flatMap renderChar
  | field f => '[' :: joinWords f.words ++ [']']

def Chunk.output : Chunk → List Char
  | text s => s
  | field f => f.sequence

def Chunk.Closes : Chunk → Prop
  | text s => ']' ∈ s
  | field _ => True

/-- Each `[` of the text has a `]` of the text or a field after it. -/
def Followed : List Chunk → Prop
  | [] => True
  | .text s :: t =>
    (∀ a b, s = a ++ '[' :: b → ']' ∈ b ∨ ∃ chunk ∈ t, chunk.Closes) ∧ Followed t
  | .field _ :: t => Followed t

/-! What the words of a field add up to. -/

theorem getRgb_eq_channels (rgb : RgbColor) : getRgb rgb = channels rgb := by
  have hmask : ∀ x : Nat, x &&& 0xFF = x % 256 := by
    intro x
    exact Nat.and_two_pow_sub_one_eq_mod x 8
  simp only [getRgb, channels, hmask, Nat.shiftRight_eq_div_pow]

/-- `col` is what `specs` select. -/
structure Selects (specs : List Specifier) (col : Colorizer) : Prop where
  fgColor : col.fgColor = (fgColors specs).head?
  bgColor : col.bgColor = (bgColors specs).head?
  emphasis : ∀ em : Emphasis, col.emphasis.getLsbD em.bit = decide (.emphasis em ∈ specs)
  reset : col.reset = decide (.reset ∈ specs)
  fgReset : col.fgReset = decide (.fgReset ∈ specs)
  bgReset : col.bgReset = decide (.bgReset ∈ specs)

theorem selects_nil : Selects [] {} where
  fgColor := rfl
  bgColor := rfl
  emphasis em := by simp
  reset := rfl
  fgReset := rfl
  bgReset := rfl

theorem flag_getLsbD (em em' : Emphasis) :
    em.flag.getLsbD em'.bit = decide (em' = em) := by
  cases em <;> cases em' <;> rfl

theorem fgColors_append (specs : List Specifier) (sp : Specifier) :
    fgColors (specs ++ [sp]) = fgColors specs ++ fgColors [sp] :=
  List.filterMap_append

theorem bgColors_append (specs : List Specifier) (sp : Specifier) :
    bgColors (specs ++ [sp]) = bgColors specs ++ bgColors [sp] :=
  List.filterMap_append

theorem eq_nil_of_append_singleton {colors : List RgbColor} {color : RgbColor}
    (h : colors.length + [color].length ≤ 1) : colors = [] := by
  apply List.eq_nil_of_length_eq_zero
  rw [List.length_singleton] at h
  omega

/-- Adding one specifier. -/
theorem Selects.add {specs : List Specifier} {col : Colorizer} (h : Selects specs col)
    (sp : Specifier) (hfg : (fgColors (specs ++ [sp])).length ≤ 1)
    (hbg : (bgColors (specs ++ [sp])).length ≤ 1) :
    ∃ col', sp.add col = .ok col' ∧ Selects (specs ++ [sp]) col' := by
  obtain ⟨hfgColor, hbgColor, hemphasis, hreset, hfgReset, hbgReset⟩ := h
  rw [fgColors_append, List.length_append] at hfg
  rw [bgColors_append, List.length_append] at hbg
  cases sp with
  | reset =>
    refine ⟨_, rfl, ?_⟩
    constructor <;> simp_all [fgColors, bgColors, Specifier.fgColor?, Specifier.bgColor?]
  | emphasis em =>
    refine ⟨_, rfl, ?_⟩
    constructor <;>
      simp_all [fgColors, bgColors, Specifier.fgColor?, Specifier.bgColor?, flag_getLsbD]
  | fg color =>
    have hsingle : fgColors [.fg color] = [color] := rfl
    have hnone : fgColors specs = [] := by
      rw [hsingle] at hfg
      exact eq_nil_of_append_singleton hfg
    rw [hnone] at hfgColor
    refine ⟨{ col with fgColor := some color }, ?_, ?_⟩
    · rw [Specifier.add, Colorizer.setFgColor, hfgColor]
      rfl
    · have hother : bgColors [.fg color] = [] := rfl
      constructor <;> simp_all [fgColors_append, bgColors_append]
  | bg color =>
    have hsingle : bgColors [.bg color] = [color] := rfl
    have hnone : bgColors specs = [] := by
      rw [hsingle] at hbg
      exact eq_nil_of_append_singleton hbg
    rw [hnone] at hbgColor
    refine ⟨{ col with bgColor := some color }, ?_, ?_⟩
    · rw [Specifier.add, Colorizer.setBgColor, hbgColor]
      rfl
    · have hother : fgColors [.bg color] = [] := rfl
      constructor <;> simp_all [fgColors_append, bgColors_append]
  | fgReset =>
    refine ⟨_, rfl, ?_⟩
    constructor <;> simp_all [fgColors, bgColors, Specifier.fgColor?, Specifier.bgColor?]
  | bgReset =>
    refine ⟨_, rfl, ?_⟩
    constructor <;> simp_all [fgColors, bgColors, Specifier.fgColor?, Specifier.bgColor?]

theorem length_le_of_append {done : List Specifier} (sp : Specifier) (specs : List Specifier)
    (proj : Specifier → Option RgbColor)
    (h : ((done ++ sp :: specs).filterMap proj).length ≤ 1) :
    ((done ++ [sp]).filterMap proj).length ≤ 1 := by
  rw [List.append_cons, List.filterMap_append, List.length_append] at h
  omega

/-- The words are read one after the other, up to the closing bracket. -/
theorem specifiers_joinWords {words : List Word} (hne : words ≠ []) {done : List Specifier}
    {col : Colorizer} (h : Selects done col)
    (hfg : (fgColors (done ++ words.map Word.specifier)).length ≤ 1)
    (hbg : (bgColors (done ++ words.map Word.specifier)).length ≤ 1) (rest : List Char) :
    ∃ col', Specifiers (joinWords words ++ ']' :: rest) col rest col' ∧
      Selects (done ++ words.map Word.specifier) col' := by
  induction words generalizing done col with
  | nil => exact absurd rfl hne
  | cons w words ih =>
    rw [List.map_cons] at hfg hbg
    obtain ⟨col', hadd, hselects⟩ := h.add w.specifier
      (length_le_of_append _ _ _ hfg) (length_le_of_append _ _ _ hbg)
    cases words with
    | nil => exact ⟨col', .last w.free w.spells hadd, hselects⟩
    | cons w' words =>
      rw [List.append_cons] at hfg hbg
      obtain ⟨col'', hmore, hselects'⟩ := ih (List.cons_ne_nil _ _) hselects hfg hbg
      refine ⟨col'', ?_, ?_⟩
      · rw [joinWords, List.append_assoc]
        · exact .more w.free w.spells hadd hmore
        · simp
      · rw [List.map_cons, List.append_cons]
        exact hselects'

theorem head?_toList {α : Type} {l : List α} (h : l.length ≤ 1) : l.head?.toList = l := by
  cases l with
  | nil => rfl
  | cons a l =>
    rw [List.length_cons] at h
    rw [List.eq_nil_of_length_eq_zero (by omega : l.length = 0)]
    rfl

theorem Selects.codes_eq {specs : List Specifier} {col : Colorizer} (h : Selects specs col)
    (hfg : (fgColors specs).length ≤ 1) (hbg : (bgColors specs).length ≤ 1) :
    col.codes = sgrCodes specs := by
  have hbits : eachBit col.emphasis = Emphasis.all.filter fun em => .emphasis em ∈ specs := by
    apply List.filter_congr
    intro em hem
    exact h.emphasis em
  have hfgColors := head?_toList hfg
  have hbgColors := head?_toList hbg
  rw [← h.fgColor] at hfgColors
  rw [← h.bgColor] at hbgColors
  rw [Colorizer.codes, sgrCodes, hbits, h.fgReset, h.bgReset, ← hfgColors, ← hbgColors]
  cases col.fgColor <;> cases col.bgColor <;> simp [getRgb_eq_channels]

theorem exists_bit {i : Nat} (hi : i < 8) : ∃ em : Emphasis, em.bit = i := by
  have hbits : ∀ j < 8, ∃ em ∈ Emphasis.all, em.bit = j := by decide
  obtain ⟨em, -, hem⟩ := hbits i hi
  exact ⟨em, hem⟩

theorem emphasis_ext {flags flags' : BitVec 8}
    (h : ∀ em : Emphasis, flags.getLsbD em.bit = flags'.getLsbD em.bit) : flags = flags' := by
  apply BitVec.eq_of_getLsbD_eq
  intro i hi
  obtain ⟨em, rfl⟩ := exists_bit hi
  exact h em

theorem Selects.resetAlone_iff {specs : List Specifier} {col : Colorizer}
    (h : Selects specs col) : ResetAlone col ↔
      (.reset ∈ specs → fgColors specs = [] ∧ ∀ em, .emphasis em ∉ specs) := by
  have hem : col.emphasis = 0 ↔ ∀ em, .emphasis em ∉ specs := by
    constructor
    · intro hzero em hmem
      have hbit := h.emphasis em
      rw [hzero, decide_eq_true hmem] at hbit
      simp at hbit
    · intro hnone
      apply emphasis_ext
      intro em
      rw [h.emphasis em, decide_eq_false (hnone em)]
      simp
  rw [ResetAlone, h.reset, decide_eq_true_iff, h.fgColor, List.head?_eq_none_iff, hem]

/-- A field is read as what its words select, and written as its sequence. -/
theorem fieldText_render (f : Field) (rest : List Char) :
    ∃ col, FieldText (joinWords f.words ++ ']' :: rest) col rest ∧ col.colorize = f.sequence := by
  obtain ⟨col, hspecs, hselects⟩ :=
    specifiers_joinWords f.ne_nil selects_nil (by simpa using f.fgOnce) (by simpa using f.bgOnce)
      rest
  rw [List.nil_append] at hselects
  have hselects : Selects f.specifiers col := hselects
  have halone := hselects.resetAlone_iff.mpr f.resetAlone
  refine ⟨col, ⟨_, (specifiers_startsLower hspecs).start, hspecs, halone⟩, ?_⟩
  · rw [Colorizer.colorize, Field.sequence, hselects.reset,
      hselects.codes_eq f.fgOnce f.bgOnce]
    simp

/-! The text of a template. -/

section Text

variable {s rest : List Char} {segs : List Segment}

theorem mem_renderChars_iff : ']' ∈ s.flatMap renderChar ↔ ']' ∈ s := by
  induction s with
  | nil => rfl
  | cons c s ih =>
    rw [List.flatMap_cons, List.mem_append, ih, List.mem_cons, renderChar]
    split <;> simp

theorem reads_text (h : Reads rest segs)
    (hright : ∀ a b, s = a ++ '[' :: b → ']' ∈ b ∨ ']' ∈ rest) :
    Reads (s.flatMap renderChar ++ rest) (s.map Segment.char ++ segs) := by
  induction s with
  | nil => exact h
  | cons c s ih =>
    have htail : ∀ a b, s = a ++ '[' :: b → ']' ∈ b ∨ ']' ∈ rest := by
      rintro a b rfl
      exact hright (c :: a) b rfl
    have hrest := ih htail
    by_cases hleft : c = '['
    · subst hleft
      apply Reads.left _ hrest
      rw [List.mem_append, mem_renderChars_iff]
      exact hright [] s rfl
    · by_cases hclose : c = ']'
      · subst hclose
        exact .right hrest
      · have hplain : renderChar c = [c] := if_neg (not_or.mpr ⟨hleft, hclose⟩)
        rw [List.flatMap_cons, hplain]
        exact .char ⟨hleft, hclose⟩ hrest

theorem reads_text_inv (h : Reads (s.flatMap renderChar ++ rest) segs) :
    (∃ segs', Reads rest segs') ∧ ∀ a b, s = a ++ '[' :: b → ']' ∈ b ∨ ']' ∈ rest := by
  induction s generalizing segs with
  | nil =>
    refine ⟨⟨segs, h⟩, ?_⟩
    intro a b hs
    simp at hs
  | cons c s ih =>
    rw [List.flatMap_cons, List.append_assoc] at h
    by_cases hleft : c = '['
    · subst hleft
      change Reads ('[' :: '[' :: (s.flatMap renderChar ++ rest)) segs at h
      obtain ⟨hright, segs', -, hrest⟩ := reads_left_inv h
      obtain ⟨hsegs, htail⟩ := ih hrest
      refine ⟨hsegs, ?_⟩
      intro a b hs
      cases a with
      | nil =>
        obtain ⟨-, rfl⟩ := List.cons.inj hs
        rwa [List.mem_append, mem_renderChars_iff] at hright
      | cons d a => exact htail a b (List.cons.inj hs).2
    · have htail : ∃ segs', Reads (s.flatMap renderChar ++ rest) segs' := by
        by_cases hclose : c = ']'
        · subst hclose
          obtain ⟨s', segs', hs, -, hrest⟩ := reads_right_inv h
          obtain ⟨-, rfl⟩ := List.cons.inj hs
          exact ⟨segs', hrest⟩
        · have hplain : renderChar c = [c] := if_neg (not_or.mpr ⟨hleft, hclose⟩)
          rw [hplain] at h
          obtain ⟨segs', -, hrest⟩ := reads_char_inv ⟨hleft, hclose⟩ h
          exact ⟨segs', hrest⟩
      obtain ⟨segs', h'⟩ := htail
      obtain ⟨hsegs, hfollow⟩ := ih h'
      refine ⟨hsegs, ?_⟩
      intro a b hs
      cases a with
      | nil => exact absurd (List.cons.inj hs).1 hleft
      | cons d a => exact hfollow a b (List.cons.inj hs).2

end Text

theorem mem_render_iff (t : List Chunk) :
    ']' ∈ t.flatMap Chunk.render ↔ ∃ chunk ∈ t, chunk.Closes := by
  rw [List.mem_flatMap]
  constructor
  · rintro ⟨chunk, hmem, hclose⟩
    refine ⟨chunk, hmem, ?_⟩
    cases chunk with
    | text s => exact mem_renderChars_iff.mp hclose
    | field f => trivial
  · rintro ⟨chunk, hmem, hclose⟩
    refine ⟨chunk, hmem, ?_⟩
    cases chunk with
    | text s => exact mem_renderChars_iff.mpr hclose
    | field f => simp [Chunk.render]

theorem render_field_append (f : Field) (rest : List Char) :
    (Chunk.field f).render ++ rest = '[' :: (joinWords f.words ++ ']' :: rest) := by
  rw [Chunk.render, List.append_assoc]
  rfl

theorem reads_render (t : List Chunk) (h : Followed t) :
    ∃ segs, Reads (t.flatMap Chunk.render) segs ∧
      segs.flatMap Segment.colored = t.flatMap Chunk.output := by
  induction t with
  | nil => exact ⟨[], .nil, rfl⟩
  | cons chunk t ih =>
    cases chunk with
    | text s =>
      obtain ⟨hfollow, hrest⟩ := h
      obtain ⟨segs, hreads, houtput⟩ := ih hrest
      refine ⟨s.map Segment.char ++ segs, ?_, ?_⟩
      · apply reads_text hreads
        intro a b hs
        rw [mem_render_iff]
        exact hfollow a b hs
      · rw [colored_chars, houtput, List.flatMap_cons, Chunk.output]
    | field f =>
      obtain ⟨segs, hreads, houtput⟩ := ih h
      obtain ⟨col, hfield, hsequence⟩ := fieldText_render f (t.flatMap Chunk.render)
      refine ⟨.field col :: segs, ?_, ?_⟩
      · rw [List.flatMap_cons, render_field_append]
        exact .field hfield hreads
      · rw [List.flatMap_cons, houtput, List.flatMap_cons, Segment.colored, hsequence,
          Chunk.output]

theorem followed_of_reads (t : List Chunk) {segs : List Segment}
    (h : Reads (t.flatMap Chunk.render) segs) : Followed t := by
  induction t generalizing segs with
  | nil => trivial
  | cons chunk t ih =>
    rw [List.flatMap_cons] at h
    cases chunk with
    | text s =>
      obtain ⟨⟨segs', hrest⟩, hfollow⟩ := reads_text_inv h
      refine ⟨?_, ih hrest⟩
      intro a b hs
      rw [← mem_render_iff]
      exact hfollow a b hs
    | field f =>
      obtain ⟨col, hfield, -⟩ := fieldText_render f (t.flatMap Chunk.render)
      rw [render_field_append] at h
      obtain ⟨segs', -, hrest⟩ := reads_field_inv hfield h
      exact ih hrest

/-- `colorize` gives back the text with the sequences of the fields exactly when
each `[` of the text has a `]` or a field somewhere after it. -/
theorem colorize_render_iff (t : List Chunk) :
    colorize {} (t.flatMap Chunk.render) = .ok (t.flatMap Chunk.output) ↔ Followed t := by
  constructor
  · intro h
    rcases scan_cases (t.flatMap Chunk.render) with ⟨segs, hreads⟩ | hover | ⟨what, hthrow⟩
    · exact followed_of_reads t hreads
    · cases h.symm.trans (colorizeTo_of_fails (fails_of_overruns hover) {})
    · cases h.symm.trans (colorizeTo_of_fails hthrow {})
  · intro h
    obtain ⟨segs, hreads, houtput⟩ := reads_render t h
    rw [colorize_of_reads hreads, houtput]

example : colorize {} "[red][[[green]]]".toList =
    .ok "\x1b[38;2;255;0;0m[\x1b[38;2;0;128;0m]".toList := by decide +kernel

/-- An escaped `[` at the end is taken for a field without its end. -/
theorem trailing_bracket_rejected :
    ¬ ∀ t : List Chunk,
      colorize {} (t.flatMap Chunk.render) = .ok (t.flatMap Chunk.output) := by
  intro h
  exact absurd (h [.text ['[']]) (by decide)

end YkUtil.Colorize
