import YkUtil.Colorize.Parts

/-!
The form `rgb(r,g,b)`, as the one specifier of a field. The parser looks for the
closing parenthesis behind the third number and not for the end of the specifier
behind the parenthesis.
-/

namespace YkUtil.Colorize

open YkUtil.Lib.Outcome

/-- The parenthesis is the last character. -/
inductive RgbForm : List Char → RgbColor → Prop where
  | mk {dr dg db : List Char} {r g b : Nat} (hr : ByteText dr r) (hg : ByteText dg g)
      (hb : ByteText db b) :
      RgbForm ("rgb(".toList ++ dr ++ ',' :: dg ++ ',' :: db ++ [')']) (r * 65536 + g * 256 + b)

/-- What stands before the form: nothing, `fg:` or `bg:`. -/
inductive Layer where
  | bare
  | fg
  | bg
  deriving DecidableEq

namespace Layer

def mark : Layer → List Char
  | bare => []
  | fg => "fg:".toList
  | bg => "bg:".toList

/-- The colour is added to what is selected. -/
def select (col : Colorizer) : Layer → RgbColor → Parse Colorizer
  | bare | fg => col.setFgColor
  | bg => col.setBgColor

/-- The colour is all that is selected. -/
def colorizer (rgb : RgbColor) : Layer → Colorizer
  | bare | fg => { fgColor := some rgb }
  | bg => { bgColor := some rgb }

theorem select_start (layer : Layer) (rgb : RgbColor) :
    layer.select {} rgb = .ok (layer.colorizer rgb) := by
  cases layer <;> rfl

end Layer

section RgbForm

variable {text form ignored : List Char} {color : RgbColor}

theorem ByteText.not_mem {digits : List Char} {value : Nat} (h : ByteText digits value) :
    ')' ∉ digits := by
  intro hmem
  cases h.isDigit _ hmem

/-- The form ends with its only closing parenthesis. -/
theorem RgbForm.split (h : RgbForm form color) : ∃ s, form = s ++ [')'] ∧ ')' ∉ s := by
  cases h with
  | mk hr hg hb =>
      refine ⟨_, rfl, ?_⟩
      simp only [List.mem_append, List.mem_cons, not_or]
      exact ⟨⟨⟨by decide, hr.not_mem⟩, by decide, hg.not_mem⟩, by decide, hb.not_mem⟩

theorem rgbText_iff : RgbText text color ↔
    ∃ form ignored, RgbForm form color ∧ text = form ++ ignored := by
  constructor
  · rintro ⟨hr, hg, hb, ignored⟩
    exact ⟨_, ignored, .mk hr hg hb, by simp⟩
  · rintro ⟨form, ignored, ⟨hr, hg, hb⟩, rfl⟩
    have htext := RgbText.mk hr hg hb ignored
    simpa using htext

theorem RgbForm.rgbText (h : RgbForm text color) : RgbText text color :=
  rgbText_iff.mpr ⟨text, [], h, (List.append_nil _).symm⟩

theorem RgbText.unique {color' : RgbColor} (h : RgbText text color) (h' : RgbText text color') :
    color = color' := by
  have hparse : parseRgb text [] = .ok (some color) := parseRgb_of_rgbText h
  rw [parseRgb_of_rgbText h'] at hparse
  cases hparse
  rfl

/-- A form with text behind it is no form. -/
theorem RgbForm.not_append {color' : RgbColor} (h : RgbForm form color) (hne : ignored ≠ []) :
    ¬ RgbForm (form ++ ignored) color' := by
  intro h'
  obtain ⟨s, rfl, hs⟩ := h.split
  obtain ⟨s', heq, hs'⟩ := h'.split
  rw [List.append_assoc] at heq
  exact hne (split_unique hs hs' heq).2

end RgbForm

section Parse

variable {text after : List Char} {color : RgbColor} {col : Colorizer}

theorem colorText_rgb (hrgb : "rgb(".toList <+: text) (h : ColorText text color) :
    RgbText text color := by
  cases h with
  | rgb h => exact h
  | named h => exact absurd hrgb (not_isPrefix_of_nameToColor h)

theorem rgb_ne_reset (hrgb : "rgb(".toList <+: text) : text ≠ "reset".toList := by
  rintro rfl
  exact absurd hrgb (by decide)

/-- All three places parse the form in the same way. -/
theorem parseSpecifier_rgb (layer : Layer) (hrgb : "rgb(".toList <+: text) (after : List Char)
    (col : Colorizer) :
    ∃ otherwise, parseSpecifier (layer.mark ++ text) after col =
      parseColor text after (layer.select col) otherwise := by
  have hreset := rgb_ne_reset hrgb
  cases layer with
  | bare =>
      change ∃ otherwise, parseSpecifier text after col = _
      rw [parseSpecifier, if_neg hreset]
      exact ⟨_, rfl⟩
  | fg =>
      change ∃ otherwise, parseSpecifier ("fg:".toList ++ text) after col = _
      rw [parseSpecifier_fg, parseLayer_ne hreset]
      exact ⟨_, rfl⟩
  | bg =>
      change ∃ otherwise, parseSpecifier ("bg:".toList ++ text) after col = _
      rw [parseSpecifier_bg, parseLayer_ne hreset]
      exact ⟨_, rfl⟩

/-- The text is a colour, whatever follows its parenthesis, or is cut off by the
end of the string, or throws. -/
theorem parseSpecifier_rgb_cases (layer : Layer) (hrgb : "rgb(".toList <+: text)
    (hafter : Follows after) :
    (∃ color, RgbText text color ∧
      parseSpecifier (layer.mark ++ text) after {} = .ok (layer.colorizer color)) ∨
    (after = [] ∧ RgbCut text ∧
      parseSpecifier (layer.mark ++ text) after {} = .error .outOfRange) ∨
    (¬ ∃ color, RgbText text color) ∧ ¬ (after = [] ∧ RgbCut text) ∧
      ∃ what, parseSpecifier (layer.mark ++ text) after {} = raise what := by
  obtain ⟨otherwise, hparse⟩ := parseSpecifier_rgb layer hrgb after {}
  rw [hparse]
  rcases parseColor_cases hafter with ⟨color, hcolor⟩ | hnone | ⟨hnil, hcut⟩ | ⟨what, hthrow⟩
  · refine .inl ⟨color, colorText_rgb hrgb hcolor, ?_⟩
    rw [parseColor_of_colorText hcolor, layer.select_start]
  · exact absurd hrgb hnone.1
  · subst hnil
    exact .inr (.inl ⟨rfl, hcut, parseColor_of_rgbCut hcut⟩)
  · refine .inr (.inr ⟨?_, ?_, what, hthrow _ _⟩)
    · rintro ⟨color, htext⟩
      have hcolor : parseColor text after (fun _ => .ok {}) (.ok {}) = .ok {} :=
        parseColor_of_colorText (.rgb htext)
      cases hcolor.symm.trans (hthrow _ _)
    · rintro ⟨rfl, hcut⟩
      have hrange : parseColor text [] (fun _ => .ok {}) (.ok {}) = .error .outOfRange :=
        parseColor_of_rgbCut hcut
      cases hrange.symm.trans (hthrow _ _)

theorem Layer.stopFree (layer : Layer) (hfree : StopFree text) : StopFree (layer.mark ++ text) := by
  have hmark : StopFree layer.mark := by
    cases layer <;> simp [StopFree, Layer.mark]
  intro c hc
  rcases List.mem_append.mp hc with hc | hc
  · exact hmark c hc
  · exact hfree c hc

theorem Layer.start (layer : Layer) (hrgb : "rgb(".toList <+: text) (after : List Char) :
    Start (layer.mark ++ text ++ after) (layer.mark ++ text ++ after) := by
  obtain ⟨s, rfl⟩ := hrgb
  apply StartsLower.start
  cases layer with
  | bare => exact ⟨'r', _, rfl, rfl⟩
  | fg => exact ⟨'f', _, rfl, rfl⟩
  | bg => exact ⟨'b', _, rfl, rfl⟩

/-- `do_parse` on the specifier and what follows it. -/
def parseOne (layer : Layer) (text after : List Char) : Parse (List Char × Colorizer) :=
  doParse ((layer.mark ++ text ++ after).length + 1) (layer.mark ++ text ++ after)

theorem parseOne_closed (layer : Layer) (hfree : StopFree text) (hrgb : "rgb(".toList <+: text)
    (rest : List Char) :
    (∃ color, RgbText text color ∧
      parseOne layer text (']' :: rest) = .ok (']' :: rest, layer.colorizer color)) ∨
    (¬ ∃ color, RgbText text color) ∧
      ∃ what, parseOne layer text (']' :: rest) = raise what := by
  have hstart := layer.start hrgb (']' :: rest)
  have hloop (n : Nat) (col : Colorizer) :
      doParseLoop (n + 1) (layer.mark ++ text ++ ']' :: rest) col =
        parseSpecifier (layer.mark ++ text) (']' :: rest) col >>= doParseLoop n (']' :: rest) :=
    doParseLoop_stop hstart (layer.stopFree hfree) (.inr rfl)
  rcases parseSpecifier_rgb_cases layer hrgb (follows_cons (.inr rfl) rest) with
    ⟨color, htext, hparse⟩ | ⟨hnil, -, -⟩ | ⟨hnone, -, what, hthrow⟩
  · refine .inl ⟨color, htext, ?_⟩
    have hclosed : doParseLoop ((layer.mark ++ text ++ ']' :: rest).length + 1)
        (layer.mark ++ text ++ ']' :: rest) {} = .ok (']' :: rest, layer.colorizer color) := by
      rw [hloop, hparse, ok_bind, List.length_append, List.length_cons, ← Nat.add_assoc,
        doParseLoop_close]
    rw [parseOne, doParse, hclosed, ok_bind]
    cases layer <;> rfl
  · cases hnil
  · refine .inr ⟨hnone, what, ?_⟩
    rw [parseOne, doParse, hloop, hthrow, raise_bind, raise_bind]

theorem parseOne_open (layer : Layer) (hfree : StopFree text) (hrgb : "rgb(".toList <+: text) :
    ((∃ color, RgbText text color) ∨ RgbCut text) ∧ parseOne layer text [] = .error .outOfRange ∨
    ¬ ((∃ color, RgbText text color) ∨ RgbCut text) ∧
      ∃ what, parseOne layer text [] = raise what := by
  have hstart := layer.start hrgb []
  have hnil : Follows [] := by simp [Follows]
  rw [parseOne]
  rw [List.append_nil] at hstart ⊢
  rw [doParse, doParseLoop_open hstart (layer.stopFree hfree)]
  rcases parseSpecifier_rgb_cases layer hrgb hnil with
    ⟨color, htext, hparse⟩ | ⟨-, hcut, hparse⟩ | ⟨hnone, hnot, what, hthrow⟩
  · rw [hparse]
    exact .inl ⟨.inl ⟨color, htext⟩, rfl⟩
  · rw [hparse]
    exact .inl ⟨.inr hcut, rfl⟩
  · rw [hthrow]
    refine .inr ⟨?_, what, rfl⟩
    rintro (htext | hcut)
    · exact hnone htext
    · exact hnot ⟨rfl, hcut⟩

/-- The specifier is accepted as the form says, and throws unless it is the form. -/
structure RgbExact (layer : Layer) (text after : List Char) : Prop where
  accepts : ∀ color, RgbForm text color →
    ∃ it, parseOne layer text after = .ok (it, layer.colorizer color)
  throws : (¬ ∃ color, RgbForm text color) → ∃ what, parseOne layer text after = raise what

/-- Something stands behind the parenthesis, or the string ends where the closing
bracket or a delimiter is read. -/
def RgbDefect (text after : List Char) : Prop :=
  (∃ form color ignored, RgbForm form color ∧ ignored ≠ [] ∧ text = form ++ ignored) ∨
    after = [] ∧ ((∃ color, RgbText text color) ∨ RgbCut text)

/-- Every text but the form throws, and the form does not. -/
theorem rgbExact_of_throws {layer : Layer} (hnone : ¬ ∃ color, RgbText text color)
    (hthrow : ∃ what, parseOne layer text after = raise what) : RgbExact layer text after where
  accepts color hform := absurd ⟨color, hform.rgbText⟩ hnone
  throws _ := hthrow

theorem not_rgbForm_of_ignored (h : ∃ form color ignored, RgbForm form color ∧ ignored ≠ [] ∧
    text = form ++ ignored) : ¬ ∃ color, RgbForm text color := by
  obtain ⟨form, color, ignored, hform, hne, rfl⟩ := h
  rintro ⟨color', hform'⟩
  exact hform.not_append hne hform'

/-- At the end of the string there is nothing that could be read behind the
parenthesis. -/
theorem rgbExact_open (layer : Layer) (hfree : StopFree text) (hrgb : "rgb(".toList <+: text) :
    RgbExact layer text [] ↔ ¬ RgbDefect text [] := by
  rcases parseOne_open layer hfree hrgb with ⟨htext, hout⟩ | ⟨hnone, hthrow⟩
  · refine iff_of_false ?_ (not_not_intro (.inr ⟨rfl, htext⟩))
    intro hexact
    by_cases hform : ∃ color, RgbForm text color
    · obtain ⟨color, hform⟩ := hform
      obtain ⟨it, hok⟩ := hexact.accepts color hform
      cases hout.symm.trans hok
    · obtain ⟨what, hthrow⟩ := hexact.throws hform
      cases hout.symm.trans hthrow
  · refine iff_of_true (rgbExact_of_throws (fun htext => hnone (.inl htext)) hthrow) ?_
    rintro (⟨form, color, ignored, hform, -, heq⟩ | ⟨-, htext⟩)
    · apply hnone
      exact .inl ⟨color, rgbText_iff.mpr ⟨form, ignored, hform, heq⟩⟩
    · exact hnone htext

/-- In a closed field a text is accepted for the form it begins with. -/
theorem rgbExact_closed (layer : Layer) (hfree : StopFree text) (hrgb : "rgb(".toList <+: text)
    (rest : List Char) :
    RgbExact layer text (']' :: rest) ↔ ¬ RgbDefect text (']' :: rest) := by
  rcases parseOne_closed layer hfree hrgb rest with ⟨color, htext, hok⟩ | ⟨hnone, hthrow⟩
  · constructor
    · rintro hexact (hignored | ⟨hnil, -⟩)
      · obtain ⟨what, hthrow⟩ := hexact.throws (not_rgbForm_of_ignored hignored)
        cases hok.symm.trans hthrow
      · cases hnil
    · intro hnot
      obtain ⟨form, ignored, hform, heq⟩ := rgbText_iff.mp htext
      have hempty : ignored = [] := by
        by_contra hne
        exact hnot (.inl ⟨form, color, ignored, hform, hne, heq⟩)
      rw [hempty, List.append_nil] at heq
      refine ⟨?_, fun hnone => absurd ⟨color, heq ▸ hform⟩ hnone⟩
      intro color' hform'
      obtain rfl := htext.unique hform'.rgbText
      exact ⟨_, hok⟩
  · refine iff_of_true (rgbExact_of_throws hnone hthrow) ?_
    rintro (⟨form, color, ignored, hform, -, heq⟩ | ⟨hnil, -⟩)
    · apply hnone
      exact ⟨color, rgbText_iff.mpr ⟨form, ignored, hform, heq⟩⟩
    · cases hnil

/-- For every text that begins with the mark of the form, at all three places, in a
closed field or at the end of the string: it is accepted as the form says, and
throws otherwise, if and only if it does not have the defect. -/
theorem rgb_exact_iff (layer : Layer) (text after : List Char) (hfree : StopFree text)
    (hrgb : "rgb(".toList <+: text) (hafter : after = [] ∨ ∃ rest, after = ']' :: rest) :
    RgbExact layer text after ↔ ¬ RgbDefect text after := by
  rcases hafter with hnil | ⟨rest, hclosed⟩
  · subst hnil
    exact rgbExact_open layer hfree hrgb
  · subst hclosed
    exact rgbExact_closed layer hfree hrgb rest

theorem rgb_exact_iff_bg : RgbExact .bg "rgb(1,2,3)".toList "]".toList := by
  apply (rgb_exact_iff .bg "rgb(1,2,3)".toList "]".toList (by simp [StopFree]) (by decide)
    (.inr ⟨[], rfl⟩)).mpr
  have hbyte (d : Char) (value : Nat) (hd : d.isDigit = true) (hvalue : digitsValue [d] = value)
      (hle : value ≤ 255) : ByteText [d] value :=
    ⟨List.cons_ne_nil _ _, by simpa using hd, hvalue, hle⟩
  have hform : RgbForm "rgb(1,2,3)".toList (1 * 65536 + 2 * 256 + 3) :=
    .mk (hbyte '1' 1 rfl rfl (by decide)) (hbyte '2' 2 rfl rfl (by decide))
      (hbyte '3' 3 rfl rfl (by decide))
  rintro (hignored | ⟨hnil, -⟩)
  · exact not_rgbForm_of_ignored hignored ⟨_, hform⟩
  · cases hnil

/-- `[rgb(1,2,3)x]`: nothing looks at the `x`. -/
theorem text_behind_parenthesis_accepted : ¬ ∀ (layer : Layer) (text after : List Char),
    StopFree text → "rgb(".toList <+: text → (after = [] ∨ ∃ rest, after = ']' :: rest) →
      RgbExact layer text after := by
  intro hall
  have hexact := hall .bare "rgb(1,2,3)x".toList "]".toList (by simp [StopFree]) (by decide)
    (.inr ⟨[], rfl⟩)
  have hok : parseOne .bare "rgb(1,2,3)x".toList "]".toList =
      .ok ("]".toList, { fgColor := some 66051 }) := by decide
  have hnone : ¬ ∃ color, RgbForm "rgb(1,2,3)x".toList color := by
    rintro ⟨color, hform⟩
    obtain ⟨s, heq, -⟩ := hform.split
    have hlast : "rgb(1,2,3)x".toList.getLast? = some ')' := by
      rw [heq, List.getLast?_concat]
    exact absurd hlast (by decide)
  obtain ⟨what, hthrow⟩ := hexact.throws hnone
  cases hok.symm.trans hthrow

end Parse

end YkUtil.Colorize
