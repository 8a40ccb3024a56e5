import YkUtil.Lib.Outcome
import YkUtil.Colorize.Code
import Mathlib.Algebra.Order.Ring.Nat
import Mathlib.Data.List.TakeWhile

/-!
The texts a specifier can have and what each selects, and the two ways in which the
parser of a specifier ends without an exception: the specifier is one of those
texts, or an `rgb(` is cut off by the end of the string after a number.
-/

namespace YkUtil.Colorize

open YkUtil.Lib.Outcome

/-- Characters that follow a specifier in the string, if any. -/
def Follows (after : List Char) : Prop :=
  ∀ c ∈ after.head?, c = '|' ∨ c = ']'

/-- Decimal digits for a number of one byte. -/
structure ByteText (digits : List Char) (value : Nat) : Prop where
  ne_nil : digits ≠ []
  isDigit : ∀ d ∈ digits, d.isDigit = true
  value_eq : digitsValue digits = value
  le : value ≤ 255

/-- Whatever follows the closing parenthesis is ignored. -/
inductive RgbText : List Char → RgbColor → Prop where
  | mk {dr dg db : List Char} {r g b : Nat} (hr : ByteText dr r) (hg : ByteText dg g)
      (hb : ByteText db b) (ignored : List Char) :
      RgbText ("rgb(".toList ++ dr ++ ',' :: dg ++ ',' :: db ++ ')' :: ignored)
        (r * 65536 + g * 256 + b)

/-- An `rgb(` that ends right after one of its numbers. -/
inductive RgbCut : List Char → Prop where
  | red {dr : List Char} {r : Nat} (hr : ByteText dr r) : RgbCut ("rgb(".toList ++ dr)
  | green {dr dg : List Char} {r g : Nat} (hr : ByteText dr r) (hg : ByteText dg g) :
      RgbCut ("rgb(".toList ++ dr ++ ',' :: dg)
  | blue {dr dg db : List Char} {r g b : Nat} (hr : ByteText dr r) (hg : ByteText dg g)
      (hb : ByteText db b) : RgbCut ("rgb(".toList ++ dr ++ ',' :: dg ++ ',' :: db)

inductive ColorText : List Char → RgbColor → Prop where
  | rgb {s : List Char} {color : RgbColor} (h : RgbText s color) : ColorText s color
  | named {s : List Char} {color : RgbColor} (h : nameToColor s = some color) : ColorText s color

/-- What one specifier selects. -/
inductive Specifier where
  | reset
  | emphasis (em : Emphasis)
  | fg (color : RgbColor)
  | bg (color : RgbColor)
  | fgReset
  | bgReset
  deriving DecidableEq

inductive Spells : List Char → Specifier → Prop where
  | reset : Spells "reset".toList .reset
  | color {s : List Char} {color : RgbColor} (h : ColorText s color) : Spells s (.fg color)
  | emphasis (em : Emphasis) : Spells em.name (.emphasis em)
  | fgReset : Spells ("fg:".toList ++ "reset".toList) .fgReset
  | fg {s : List Char} {color : RgbColor} (h : ColorText s color) :
      Spells ("fg:".toList ++ s) (.fg color)
  | bgReset : Spells ("bg:".toList ++ "reset".toList) .bgReset
  | bg {s : List Char} {color : RgbColor} (h : ColorText s color) :
      Spells ("bg:".toList ++ s) (.bg color)

inductive CutOff : List Char → Prop where
  | plain {s : List Char} (h : RgbCut s) : CutOff s
  | fg {s : List Char} (h : RgbCut s) : CutOff ("fg:".toList ++ s)
  | bg {s : List Char} (h : RgbCut s) : CutOff ("bg:".toList ++ s)

/-- A colour is selected at most once for the text and once for the background. -/
def Specifier.add : Specifier → Colorizer → Parse Colorizer
  | reset, col => .ok { col with reset := true }
  | emphasis em, col => .ok { col with emphasis := col.emphasis ||| em.flag }
  | fg color, col => col.setFgColor color
  | bg color, col => col.setBgColor color
  | fgReset, col => .ok { col with fgReset := true }
  | bgReset, col => .ok { col with bgReset := true }

@[simp] theorem raise_bind {α β : Type} (what : String) (f : α → Parse β) :
    (raise what >>= f) = raise what := rfl

/-! Numbers and the `rgb` form. -/

theorem fromChars_append {digits rest : List Char} {value : Nat} (h : ByteText digits value)
    (hrest : ∀ c ∈ rest.head?, c.isDigit = false) :
    fromChars (digits ++ rest) = .ok (value, rest) := by
  have hstop : rest.takeWhile Char.isDigit = [] ∧ rest.dropWhile Char.isDigit = rest := by
    cases rest with
    | nil => exact ⟨rfl, rfl⟩
    | cons c rest =>
      have hc : c.isDigit = false := hrest c rfl
      simp [hc]
  have htake : (digits ++ rest).takeWhile Char.isDigit = digits := by
    rw [List.takeWhile_append_of_pos h.isDigit, hstop.1, List.append_nil]
  have hdrop : (digits ++ rest).dropWhile Char.isDigit = rest := by
    rw [List.dropWhile_append_of_pos h.isDigit, hstop.2]
  have hle := h.le
  simp only [fromChars, htake, hdrop, h.value_eq, h.ne_nil, false_or]
  rw [if_neg (by omega)]

theorem fromChars_eq_ok {chars ptr : List Char} {value : Nat}
    (h : fromChars chars = .ok (value, ptr)) :
    ∃ digits, ByteText digits value ∧ chars = digits ++ ptr := by
  simp only [fromChars] at h
  split at h
  · cases h
  · rename_i hvalid
    obtain ⟨hne, hle⟩ := not_or.mp hvalid
    simp only [Except.ok.injEq, Prod.mk.injEq] at h
    obtain ⟨hvalue, hptr⟩ := h
    refine ⟨chars.takeWhile Char.isDigit, ⟨hne, ?_, hvalue, by omega⟩, ?_⟩
    · intro d hd
      exact List.mem_takeWhile_imp hd
    · rw [← hptr, List.takeWhile_append_dropWhile]

/-- A number that is not one throws. -/
theorem fromChars_eq_error {chars : List Char} {e : Fault} (h : fromChars chars = .error e) :
    e = .colorizeError "invalid number" := by
  simp only [fromChars] at h
  split at h
  · cases h
    rfl
  · cases h

section Expect

variable {c : Char} {what : String} {ptr after : List Char}

theorem expect_cons : expect c what (c :: ptr) after = .ok ptr := by
  simp [expect, deref]

theorem expect_eq_ok {ptr' : List Char} (hc : c ≠ '|' ∧ c ≠ ']') (hafter : Follows after)
    (h : expect c what ptr after = .ok ptr') : ptr = c :: ptr' := by
  cases ptr with
  | cons d ptr =>
    by_cases hd : d = c
    · simp_all [expect, deref]
    · simp [expect, deref, hd, raise] at h
  | nil =>
    cases after with
    | nil => simp [expect, deref] at h
    | cons d after =>
      have hd : d ≠ c := by
        rcases hafter d rfl with rfl | rfl
        · exact hc.1.symm
        · exact hc.2.symm
      simp [expect, deref, hd, raise] at h

theorem expect_outOfRange : expect c what ptr after = .error .outOfRange ↔ ptr ++ after = [] := by
  cases hs : ptr ++ after with
  | nil => simp [expect, hs, deref]
  | cons d s => by_cases hd : d = c <;> simp [expect, hs, deref, hd, raise]

theorem expect_ne_unfinished : expect c what ptr after ≠ .error .unfinished := by
  cases hs : ptr ++ after with
  | nil => simp [expect, hs, deref]
  | cons d s => by_cases hd : d = c <;> simp [expect, hs, deref, hd, raise]

end Expect

theorem pack_eq {r g b : Nat} (hg : g < 256) (hb : b < 256) :
    r <<< 16 ||| g <<< 8 ||| b = r * 65536 + g * 256 + b := by
  have hlow : g <<< 8 ||| b = g * 256 + b := by
    rw [← Nat.shiftLeft_add_eq_or_of_lt (by omega : b < 2 ^ 8), Nat.shiftLeft_eq]
  rw [Nat.or_assoc, hlow, ← Nat.shiftLeft_add_eq_or_of_lt (by omega : g * 256 + b < 2 ^ 16),
    Nat.shiftLeft_eq]
  omega

section ParseRgb

variable {spec after : List Char}

theorem parseRgb_append (s : List Char) :
    parseRgb ("rgb(".toList ++ s) after = (do
      let (r, ptr1) ← fromChars s
      let ptr1 ← expect ',' "invalid delimiter" ptr1 after
      let (g, ptr2) ← fromChars ptr1
      let ptr2 ← expect ',' "invalid delimiter" ptr2 after
      let (b, ptr3) ← fromChars ptr2
      let _ ← expect ')' "unmatched right parenthesis" ptr3 after
      .ok (some (r <<< 16 ||| g <<< 8 ||| b))) := by
  rw [parseRgb, if_pos (by simp), show (4 : Nat) = "rgb(".toList.length from rfl, List.drop_left]

theorem parseRgb_of_rgbText {color : RgbColor} (h : RgbText spec color) :
    parseRgb spec after = .ok (some color) := by
  obtain ⟨hr, hg, hb, ignored⟩ := h
  simp only [List.append_assoc, parseRgb_append, List.cons_append]
  rw [fromChars_append hr (by simp)]
  simp only [ok_bind, expect_cons]
  rw [fromChars_append hg (by simp)]
  simp only [ok_bind, expect_cons]
  rw [fromChars_append hb (by simp)]
  simp only [ok_bind, expect_cons]
  rw [pack_eq (by have := hg.le; omega) (by have := hb.le; omega)]

theorem parseRgb_of_not_isPrefix (h : ¬ "rgb(".toList <+: spec) :
    parseRgb spec after = .ok none := by
  rw [parseRgb, if_neg]
  simpa using h

theorem rgbText_isPrefix {color : RgbColor} (h : RgbText spec color) : "rgb(".toList <+: spec := by
  obtain ⟨hr, hg, hb, ignored⟩ := h
  simp only [List.append_assoc]
  apply List.prefix_append

theorem rgbCut_isPrefix (h : RgbCut spec) : "rgb(".toList <+: spec := by
  cases h with
  | red hr => apply List.prefix_append
  | green hr hg =>
    rw [List.append_assoc]
    apply List.prefix_append
  | blue hr hg hb =>
    simp only [List.append_assoc]
    apply List.prefix_append

theorem parseRgb_eq_ok {s : List Char} {color : Option RgbColor} (hafter : Follows after)
    (h : parseRgb ("rgb(".toList ++ s) after = .ok color) :
    ∃ rgb, color = some rgb ∧ RgbText ("rgb(".toList ++ s) rgb := by
  rw [parseRgb_append] at h
  obtain ⟨⟨r, p1⟩, hr, hrun⟩ := bind_eq_ok.mp h
  obtain ⟨q1, hq1, hrun1⟩ := bind_eq_ok.mp hrun
  obtain ⟨⟨g, p2⟩, hg, hrun2⟩ := bind_eq_ok.mp hrun1
  obtain ⟨q2, hq2, hrun3⟩ := bind_eq_ok.mp hrun2
  obtain ⟨⟨b, p3⟩, hb, hrun4⟩ := bind_eq_ok.mp hrun3
  obtain ⟨q3, hq3, hcolor⟩ := bind_eq_ok.mp hrun4
  obtain ⟨dr, hdr, rfl⟩ := fromChars_eq_ok hr
  obtain ⟨dg, hdg, hp1⟩ := fromChars_eq_ok hg
  obtain ⟨db, hdb, hp2⟩ := fromChars_eq_ok hb
  have hc1 := expect_eq_ok (by decide) hafter hq1
  have hc2 := expect_eq_ok (by decide) hafter hq2
  have hc3 := expect_eq_ok (by decide) hafter hq3
  have hgle := hdg.le
  have hble := hdb.le
  rw [pack_eq (by omega) (by omega)] at hcolor
  refine ⟨_, (Except.ok.inj hcolor).symm, ?_⟩
  rw [hc1, hp1, hc2, hp2, hc3]
  have htext := RgbText.mk hdr hdg hdb q3
  simpa only [List.append_assoc, List.cons_append] using htext

/-- The delimiter after the number is read past the end of the string. -/
theorem parseRgb_of_rgbCut (h : RgbCut spec) : parseRgb spec [] = .error .outOfRange := by
  have hnil : ∀ {c : Char} {what : String}, expect c what [] [] = .error .outOfRange := by
    intro c what
    apply expect_outOfRange.mpr
    rfl
  have hend : ∀ {digits : List Char} {value : Nat}, ByteText digits value →
      fromChars digits = .ok (value, []) := by
    intro digits value hd
    have h : fromChars (digits ++ []) = .ok (value, []) := fromChars_append hd (by simp)
    rwa [List.append_nil] at h
  cases h with
  | red hr =>
    rw [parseRgb_append, hend hr]
    simp only [ok_bind, hnil, error_bind]
  | green hr hg =>
    rw [List.append_assoc, parseRgb_append, fromChars_append hr (by simp)]
    simp only [ok_bind, expect_cons, hend hg, hnil, error_bind]
  | blue hr hg hb =>
    simp only [List.append_assoc, parseRgb_append, List.cons_append]
    rw [fromChars_append hr (by simp)]
    simp only [ok_bind, expect_cons]
    rw [fromChars_append hg (by simp)]
    simp only [ok_bind, expect_cons, hend hb, hnil, error_bind]

theorem rgbCut_of_parseRgb {s : List Char} (hafter : Follows after)
    (h : parseRgb ("rgb(".toList ++ s) after = .error .outOfRange) :
    after = [] ∧ RgbCut ("rgb(".toList ++ s) := by
  rw [parseRgb_append] at h
  rcases bind_eq_error.mp h with hr | ⟨⟨r, p1⟩, hr, hrun⟩
  · cases fromChars_eq_error hr
  obtain ⟨dr, hdr, rfl⟩ := fromChars_eq_ok hr
  rcases bind_eq_error.mp hrun with hq1 | ⟨q1, hq1, hrun1⟩
  · obtain ⟨rfl, rfl⟩ := List.append_eq_nil_iff.mp (expect_outOfRange.mp hq1)
    exact ⟨rfl, by simpa using RgbCut.red hdr⟩
  have hc1 := expect_eq_ok (by decide) hafter hq1
  rcases bind_eq_error.mp hrun1 with hg | ⟨⟨g, p2⟩, hg, hrun2⟩
  · cases fromChars_eq_error hg
  obtain ⟨dg, hdg, hp1⟩ := fromChars_eq_ok hg
  rcases bind_eq_error.mp hrun2 with hq2 | ⟨q2, hq2, hrun3⟩
  · obtain ⟨rfl, rfl⟩ := List.append_eq_nil_iff.mp (expect_outOfRange.mp hq2)
    exact ⟨rfl, by simpa [hc1, hp1] using RgbCut.green hdr hdg⟩
  have hc2 := expect_eq_ok (by decide) hafter hq2
  rcases bind_eq_error.mp hrun3 with hb | ⟨⟨b, p3⟩, hb, hrun4⟩
  · cases fromChars_eq_error hb
  obtain ⟨db, hdb, hp2⟩ := fromChars_eq_ok hb
  rcases bind_eq_error.mp hrun4 with hq3 | ⟨q3, hq3, hcolor⟩
  · obtain ⟨rfl, rfl⟩ := List.append_eq_nil_iff.mp (expect_outOfRange.mp hq3)
    exact ⟨rfl, by simpa [hc1, hp1, hc2, hp2] using RgbCut.blue hdr hdg hdb⟩
  cases hcolor

/-- The string ends where a delimiter is read. -/
theorem parseRgb_outOfRange (hafter : Follows after) :
    parseRgb spec after = .error .outOfRange ↔ after = [] ∧ RgbCut spec := by
  constructor
  · intro h
    by_cases hspec : "rgb(".toList <+: spec
    · obtain ⟨s, rfl⟩ := hspec
      exact rgbCut_of_parseRgb hafter h
    · rw [parseRgb_of_not_isPrefix hspec] at h
      cases h
  · rintro ⟨rfl, hcut⟩
    exact parseRgb_of_rgbCut hcut

theorem parseRgb_ne_unfinished : parseRgb spec after ≠ .error .unfinished := by
  have hnumber : ∀ chars, fromChars chars ≠ .error .unfinished := by
    intro chars h
    cases fromChars_eq_error h
  by_cases hspec : "rgb(".toList <+: spec
  · obtain ⟨s, rfl⟩ := hspec
    rw [parseRgb_append]
    apply bind_ne_error (hnumber _)
    intro r
    apply bind_ne_error expect_ne_unfinished
    intro ptr1
    apply bind_ne_error (hnumber _)
    intro g
    apply bind_ne_error expect_ne_unfinished
    intro ptr2
    apply bind_ne_error (hnumber _)
    intro b
    apply bind_ne_error expect_ne_unfinished
    simp
  · rw [parseRgb_of_not_isPrefix hspec]
    simp

end ParseRgb

/-! Colours, layers and whole specifiers. -/

/-- Neither an `rgb` form, good or bad, nor a name. -/
def NoColor (spec : List Char) : Prop :=
  ¬ "rgb(".toList <+: spec ∧ nameToColor spec = none

section ParseColor

variable {spec after : List Char} {onColor : RgbColor → Parse Colorizer}
  {otherwise : Parse Colorizer}

theorem not_isPrefix_of_nameToColor {color : RgbColor} (h : nameToColor spec = some color) :
    ¬ "rgb(".toList <+: spec := by
  intro hspec
  have hparen : '(' ∈ spec := hspec.subset (by decide)
  have hlower := nameToColor_isLower h '(' hparen
  cases hlower

theorem parseColor_of_colorText {color : RgbColor} (h : ColorText spec color) :
    parseColor spec after onColor otherwise = onColor color := by
  cases h with
  | rgb h => rw [parseColor, parseRgb_of_rgbText h, ok_bind]
  | named h =>
    rw [parseColor, parseRgb_of_not_isPrefix (not_isPrefix_of_nameToColor h), ok_bind]
    simp only [h]

theorem parseColor_of_noColor (h : NoColor spec) :
    parseColor spec after onColor otherwise = otherwise := by
  rw [parseColor, parseRgb_of_not_isPrefix h.1, ok_bind]
  simp only [h.2]

theorem parseColor_of_rgbCut (h : RgbCut spec) :
    parseColor spec [] onColor otherwise = .error .outOfRange := by
  rw [parseColor, parseRgb_of_rgbCut h, error_bind]

theorem parseColor_cases (hafter : Follows after) :
    (∃ color, ColorText spec color) ∨ NoColor spec ∨ (after = [] ∧ RgbCut spec) ∨
      ∃ what, ∀ onColor otherwise, parseColor spec after onColor otherwise = raise what := by
  cases hrgb : parseRgb spec after with
  | error e =>
    cases e with
    | colorizeError what =>
      refine .inr (.inr (.inr ⟨what, ?_⟩))
      intro onColor otherwise
      rw [parseColor, hrgb, error_bind, raise]
    | outOfRange => exact .inr (.inr (.inl ((parseRgb_outOfRange hafter).mp hrgb)))
    | unfinished => exact absurd hrgb parseRgb_ne_unfinished
  | ok color =>
    by_cases hspec : "rgb(".toList <+: spec
    · obtain ⟨s, rfl⟩ := hspec
      obtain ⟨rgb, -, htext⟩ := parseRgb_eq_ok hafter hrgb
      exact .inl ⟨rgb, .rgb htext⟩
    · cases hname : nameToColor spec with
      | some color => exact .inl ⟨color, .named hname⟩
      | none => exact .inr (.inl ⟨hspec, hname⟩)

end ParseColor

section ParseSpecifier

variable {spec after : List Char} {col : Colorizer}

theorem colorText_ne_reset {color : RgbColor} (h : ColorText spec color) :
    spec ≠ "reset".toList := by
  rintro rfl
  cases h with
  | rgb h => exact absurd (rgbText_isPrefix h) (by decide)
  | named h =>
    rw [nameToColor_reset] at h
    cases h

theorem parseLayer_reset {what : String} {onReset : Colorizer}
    {onColor : RgbColor → Parse Colorizer} :
    parseLayer what onReset onColor "reset".toList after = .ok onReset := by
  rw [parseLayer, if_pos rfl]

theorem parseLayer_ne {what : String} {onReset : Colorizer}
    {onColor : RgbColor → Parse Colorizer} (h : spec ≠ "reset".toList) :
    parseLayer what onReset onColor spec after = parseColor spec after onColor (raise what) := by
  rw [parseLayer, if_neg h]

/-- With a colon in it a text is no colour. -/
theorem noColor_layer {s : List Char} (hcolon : ':' ∈ s) (hrgb : ¬ "rgb(".toList <+: s) :
    NoColor s :=
  ⟨hrgb, nameToColor_eq_none hcolon rfl⟩

theorem parseSpecifier_fg (s : List Char) :
    parseSpecifier ("fg:".toList ++ s) after col =
      parseLayer "fg prefix must precede color name or reset" { col with fgReset := true }
        col.setFgColor s after := by
  have hcolon : ':' ∈ "fg:".toList ++ s := List.mem_append_left s (by decide)
  have hreset : "fg:".toList ++ s ≠ "reset".toList := by simp
  have hcolor : NoColor ("fg:".toList ++ s) := noColor_layer hcolon (by simp)
  rw [parseSpecifier, if_neg hreset, parseColor_of_noColor hcolor]
  simp only [nameToEmphasis_eq_none hcolon rfl]
  rw [if_pos (by simp), show (3 : Nat) = "fg:".toList.length from rfl, List.drop_left]

theorem parseSpecifier_bg (s : List Char) :
    parseSpecifier ("bg:".toList ++ s) after col =
      parseLayer "bg prefix must precede color name or reset" { col with bgReset := true }
        col.setBgColor s after := by
  have hcolon : ':' ∈ "bg:".toList ++ s := List.mem_append_left s (by decide)
  have hreset : "bg:".toList ++ s ≠ "reset".toList := by simp
  have hcolor : NoColor ("bg:".toList ++ s) := noColor_layer hcolon (by simp)
  rw [parseSpecifier, if_neg hreset, parseColor_of_noColor hcolor]
  simp only [nameToEmphasis_eq_none hcolon rfl]
  rw [if_neg (by simp), if_pos (by simp), show (3 : Nat) = "bg:".toList.length from rfl,
    List.drop_left]

/-- A specifier is parsed as what its text selects. -/
theorem parseSpecifier_of_spells {sp : Specifier} (h : Spells spec sp) :
    parseSpecifier spec after col = sp.add col := by
  cases h with
  | reset => rw [parseSpecifier, if_pos rfl, Specifier.add]
  | color h =>
    rw [parseSpecifier, if_neg (colorText_ne_reset h), parseColor_of_colorText h, Specifier.add]
  | emphasis em =>
    have hreset : em.name ≠ "reset".toList := by cases em <;> decide
    have hcolor : NoColor em.name := ⟨by cases em <;> decide, nameToColor_emphasis em⟩
    rw [parseSpecifier, if_neg hreset, parseColor_of_noColor hcolor]
    simp only [nameToEmphasis_name, Specifier.add]
  | fgReset => rw [parseSpecifier_fg, parseLayer_reset, Specifier.add]
  | fg h =>
    rw [parseSpecifier_fg, parseLayer_ne (colorText_ne_reset h), parseColor_of_colorText h,
      Specifier.add]
  | bgReset => rw [parseSpecifier_bg, parseLayer_reset, Specifier.add]
  | bg h =>
    rw [parseSpecifier_bg, parseLayer_ne (colorText_ne_reset h), parseColor_of_colorText h,
      Specifier.add]

theorem rgbCut_ne_reset (h : RgbCut spec) : spec ≠ "reset".toList := by
  rintro rfl
  exact absurd (rgbCut_isPrefix h) (by decide)

/-- At the end of the string the delimiter after the number is read past it. -/
theorem parseSpecifier_of_cutOff (h : CutOff spec) :
    parseSpecifier spec [] col = .error .outOfRange := by
  cases h with
  | plain h => rw [parseSpecifier, if_neg (rgbCut_ne_reset h), parseColor_of_rgbCut h]
  | fg h => rw [parseSpecifier_fg, parseLayer_ne (rgbCut_ne_reset h), parseColor_of_rgbCut h]
  | bg h => rw [parseSpecifier_bg, parseLayer_ne (rgbCut_ne_reset h), parseColor_of_rgbCut h]

theorem parseLayer_cases (spec : List Char) {what : String} (hafter : Follows after) :
    spec = "reset".toList ∨ (∃ color, ColorText spec color) ∨ (after = [] ∧ RgbCut spec) ∨
      ∃ what', ∀ onReset onColor, parseLayer what onReset onColor spec after = raise what' := by
  by_cases hreset : spec = "reset".toList
  · exact .inl hreset
  · rcases parseColor_cases hafter with hcolor | hnone | hcut | ⟨what', hthrow⟩
    · exact .inr (.inl hcolor)
    · refine .inr (.inr (.inr ⟨what, ?_⟩))
      intro onReset onColor
      rw [parseLayer_ne hreset, parseColor_of_noColor hnone]
    · exact .inr (.inr (.inl hcut))
    · refine .inr (.inr (.inr ⟨what', ?_⟩))
      intro onReset onColor
      rw [parseLayer_ne hreset, hthrow]

theorem spells_or_throws (hafter : Follows after) (col : Colorizer) :
    (∃ sp, Spells spec sp) ∨ (after = [] ∧ CutOff spec) ∨
      ∃ what, parseSpecifier spec after col = raise what := by
  by_cases hreset : spec = "reset".toList
  · exact .inl ⟨.reset, hreset ▸ .reset⟩
  rcases parseColor_cases hafter with ⟨color, hcolor⟩ | hnone | ⟨hend, hcut⟩ | ⟨what, hthrow⟩
  · exact .inl ⟨.fg color, .color hcolor⟩
  · cases hem : nameToEmphasis spec with
    | some em => exact .inl ⟨.emphasis em, nameToEmphasis_eq_some hem ▸ .emphasis em⟩
    | none =>
      by_cases hfg : "fg:".toList <+: spec
      · obtain ⟨s, rfl⟩ := hfg
        rcases parseLayer_cases s hafter with
          rfl | ⟨color, hcolor⟩ | ⟨hend, hcut⟩ | ⟨what, hthrow⟩
        · exact .inl ⟨.fgReset, .fgReset⟩
        · exact .inl ⟨.fg color, .fg hcolor⟩
        · exact .inr (.inl ⟨hend, .fg hcut⟩)
        · exact .inr (.inr ⟨what, by rw [parseSpecifier_fg, hthrow]⟩)
      · by_cases hbg : "bg:".toList <+: spec
        · obtain ⟨s, rfl⟩ := hbg
          rcases parseLayer_cases s hafter with
            rfl | ⟨color, hcolor⟩ | ⟨hend, hcut⟩ | ⟨what, hthrow⟩
          · exact .inl ⟨.bgReset, .bgReset⟩
          · exact .inl ⟨.bg color, .bg hcolor⟩
          · exact .inr (.inl ⟨hend, .bg hcut⟩)
          · exact .inr (.inr ⟨what, by rw [parseSpecifier_bg, hthrow]⟩)
        · refine .inr (.inr ⟨"invalid specifier", ?_⟩)
          rw [parseSpecifier, if_neg hreset, parseColor_of_noColor hnone]
          simp only [hem]
          rw [if_neg (by simpa using hfg), if_neg (by simpa using hbg)]
  · exact .inr (.inl ⟨hend, .plain hcut⟩)
  · exact .inr (.inr ⟨what, by rw [parseSpecifier, if_neg hreset, hthrow]⟩)

theorem Specifier.add_cases (sp : Specifier) (col : Colorizer) :
    (∃ col', sp.add col = .ok col') ∨
      sp.add col = raise "multiple colors must not be specified" := by
  cases sp with
  | fg color =>
    rw [Specifier.add, Colorizer.setFgColor]
    split
    · exact .inr rfl
    · exact .inl ⟨_, rfl⟩
  | bg color =>
    rw [Specifier.add, Colorizer.setBgColor]
    split
    · exact .inr rfl
    · exact .inl ⟨_, rfl⟩
  | _ => exact .inl ⟨_, rfl⟩

/-- A specifier that is not added, and not cut off, throws. -/
theorem parseSpecifier_cases (hafter : Follows after) (col : Colorizer) :
    (∃ sp col', Spells spec sp ∧ sp.add col = .ok col') ∨ (after = [] ∧ CutOff spec) ∨
      ∃ what, parseSpecifier spec after col = raise what := by
  rcases spells_or_throws hafter col with ⟨sp, hspells⟩ | hcut | hthrow
  · rcases sp.add_cases col with ⟨col', hadd⟩ | hadd
    · exact .inl ⟨sp, col', hspells, hadd⟩
    · exact .inr (.inr ⟨_, (parseSpecifier_of_spells hspells).trans hadd⟩)
  · exact .inr (.inl hcut)
  · exact .inr (.inr hthrow)

/-- A word of the markup starts with a lower case letter. -/
def StartsLower (s : List Char) : Prop :=
  ∃ c t, s = c :: t ∧ c.isLower = true

theorem rgbCut_startsLower (h : RgbCut spec) : StartsLower spec := by
  obtain ⟨t, rfl⟩ := rgbCut_isPrefix h
  exact ⟨'r', _, rfl, rfl⟩

theorem colorText_startsLower {color : RgbColor} (h : ColorText spec color) :
    StartsLower spec := by
  cases h with
  | rgb h =>
    obtain ⟨t, rfl⟩ := rgbText_isPrefix h
    exact ⟨'r', _, rfl, rfl⟩
  | named h =>
    cases spec with
    | nil => exact absurd rfl (nameToColor_ne_nil h)
    | cons c t => exact ⟨c, t, rfl, nameToColor_isLower h c (List.mem_cons_self ..)⟩

theorem spells_startsLower {sp : Specifier} (h : Spells spec sp) : StartsLower spec := by
  cases h with
  | reset => exact ⟨'r', _, rfl, rfl⟩
  | color h => exact colorText_startsLower h
  | emphasis em => cases em <;> exact ⟨_, _, rfl, rfl⟩
  | fgReset => exact ⟨'f', _, rfl, rfl⟩
  | fg h => exact ⟨'f', _, rfl, rfl⟩
  | bgReset => exact ⟨'b', _, rfl, rfl⟩
  | bg h => exact ⟨'b', _, rfl, rfl⟩

theorem cutOff_startsLower (h : CutOff spec) : StartsLower spec := by
  cases h with
  | plain h => exact rgbCut_startsLower h
  | fg h => exact ⟨'f', _, rfl, rfl⟩
  | bg h => exact ⟨'b', _, rfl, rfl⟩

end ParseSpecifier

end YkUtil.Colorize
