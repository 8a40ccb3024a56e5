import YkUtil.Lib.Sgr
import YkUtil.Colorize.Joined

/-!
What a terminal does with the sequence of a field: it shows what the specifiers
of the field select, from whatever it showed before.
-/

namespace YkUtil.Colorize

open YkUtil.Lib.Outcome
open YkUtil.Lib.Sgr (Attr Hue Terminal interpret encode decode decode_encode interpret_attrs
  interpret_foreground interpret_background)

def Emphasis.attr : Emphasis → Attr
  | bold => .bold
  | faint => .faint
  | italic => .italic
  | underline => .underline
  | blink => .blink
  | reverse => .reverse
  | conceal => .conceal
  | strike => .strike

def hue (rgb : RgbColor) : Hue :=
  .rgb (rgb / 65536 % 256) (rgb / 256 % 256) (rgb % 256)

/-- A colour that is selected stands over one that is reset. -/
def selectHue (color : Option RgbColor) (reset : Bool) (before : Hue) : Hue :=
  match color with
  | some rgb => hue rgb
  | none => if reset then .default else before

/-- The terminal shows what it did before and what is selected. -/
def select (specs : List Specifier) (t : Terminal) : Terminal where
  attr a := t.attr a || decide (∃ em ∈ Emphasis.all, .emphasis em ∈ specs ∧ em.attr = a)
  foreground := selectHue (fgColors specs).head? (.fgReset ∈ specs) t.foreground
  background := selectHue (bgColors specs).head? (.bgReset ∈ specs) t.background

section Codes

variable {specs : List Specifier} {ps : List Nat} {t : Terminal} {colors : List RgbColor}

theorem emphasisToValue_eq (em : Emphasis) : emphasisToValue em = em.attr.param := by
  cases em <;> rfl

theorem interpret_emphases (ems : List Emphasis) :
    interpret (ems.map emphasisToValue ++ ps) t =
      interpret ps (t.setAll (ems.map Emphasis.attr)) := by
  have hparams : ems.map emphasisToValue = (ems.map Emphasis.attr).map Attr.param := by
    rw [List.map_map]
    exact List.map_congr_left fun em _ => emphasisToValue_eq em
  rw [hparams, interpret_attrs]

theorem interpret_fgReset (reset : Prop) [Decidable reset] :
    interpret ((if reset then [39] else []) ++ ps) t =
      interpret ps { t with foreground := selectHue none reset t.foreground } := by
  by_cases hreset : reset <;> simp [hreset, selectHue, interpret]

theorem interpret_bgReset (reset : Prop) [Decidable reset] :
    interpret ((if reset then [49] else []) ++ ps) t =
      interpret ps { t with background := selectHue none reset t.background } := by
  by_cases hreset : reset <;> simp [hreset, selectHue, interpret]

theorem channel_lt (rgb : RgbColor) :
    rgb / 65536 % 256 < 256 ∧ rgb / 256 % 256 < 256 ∧ rgb % 256 < 256 := by
  refine ⟨?_, ?_, ?_⟩
  all_goals exact Nat.mod_lt _ (by omega)

theorem interpret_fgColor (color : Option RgbColor) :
    interpret (color.toList.flatMap (fun rgb => 38 :: 2 :: channels rgb) ++ ps) t =
      interpret ps { t with foreground := selectHue color false t.foreground } := by
  cases color with
  | none => rfl
  | some rgb => exact interpret_foreground (channel_lt rgb)

theorem interpret_bgColor (color : Option RgbColor) :
    interpret (color.toList.flatMap (fun rgb => 48 :: 2 :: channels rgb) ++ ps) t =
      interpret ps { t with background := selectHue color false t.background } := by
  cases color with
  | none => rfl
  | some rgb => exact interpret_background (channel_lt rgb)

theorem selectHue_selectHue (color : Option RgbColor) (reset : Bool) (before : Hue) :
    selectHue color false (selectHue none reset before) = selectHue color reset before := by
  cases color <;> cases reset <;> rfl

theorem mem_emphases (a : Attr) :
    a ∈ (Emphasis.all.filter fun em => .emphasis em ∈ specs).map Emphasis.attr ↔
      ∃ em ∈ Emphasis.all, .emphasis em ∈ specs ∧ em.attr = a := by
  simp only [List.mem_map, List.mem_filter, decide_eq_true_iff, and_assoc]

/-- The resets stand before the colours. -/
theorem interpret_sgrCodes (honce : ColorsOnce specs) (t : Terminal) :
    interpret (sgrCodes specs) t = some (select specs t) := by
  have hfg := head?_toList honce.fgOnce
  have hbg := head?_toList honce.bgOnce
  have hcodes := List.append_nil (sgrCodes specs)
  rw [← hcodes, sgrCodes, ← hfg, ← hbg]
  simp only [List.append_assoc]
  rw [interpret_emphases, interpret_fgReset, interpret_bgReset, interpret_fgColor,
    interpret_bgColor]
  simp only [Terminal.setAll, selectHue_selectHue, mem_emphases, interpret, select]

theorem sgrCodes_ne_nil (hne : specs ≠ []) (hreset : .reset ∉ specs) : sgrCodes specs ≠ [] := by
  obtain ⟨sp, hmem⟩ := List.exists_mem_of_ne_nil specs hne
  intro hnil
  simp only [sgrCodes, List.append_eq_nil_iff, List.map_eq_nil_iff, List.filter_eq_nil_iff,
    List.flatMap_eq_nil_iff, decide_eq_true_iff] at hnil
  obtain ⟨⟨⟨⟨hem, hfgReset⟩, hbgReset⟩, hfg⟩, hbg⟩ := hnil
  cases sp with
  | reset => exact hreset hmem
  | emphasis em => exact hem em em.mem_all hmem
  | fg color => cases hfg color (List.mem_filterMap.mpr ⟨_, hmem, rfl⟩)
  | bg color => cases hbg color (List.mem_filterMap.mpr ⟨_, hmem, rfl⟩)
  | fgReset => simp [hmem] at hfgReset
  | bgReset => simp [hmem] at hbgReset

end Codes

section Shows

variable {body rest : List Char} {specs : List Specifier} {col : Colorizer}

/-- One sequence, which takes every terminal to what is selected. -/
def Shows (bytes : List Char) (specs : List Specifier) : Prop :=
  ∃ params, decode bytes = some params ∧ params ≠ [] ∧
    ∀ t, interpret params t = some (select specs t)

theorem shows_colorize (h : Selects specs col) (honce : ColorsOnce specs) (hne : specs ≠ [])
    (hreset : .reset ∉ specs) : Shows col.colorize specs := by
  have hcol : col.reset = false := by
    rw [h.reset]
    exact decide_eq_false hreset
  have hcodes : col.codes = sgrCodes specs := h.codes_eq honce.fgOnce honce.bgOnce
  have hbytes : col.colorize = encode (sgrCodes specs) := by
    rw [Colorizer.colorize, hcol, hcodes]
    rfl
  have hparams := sgrCodes_ne_nil hne hreset
  refine ⟨sgrCodes specs, ?_, hparams, interpret_sgrCodes honce⟩
  rw [hbytes, decode_encode hparams]

theorem spelled_ne_nil (h : Spelled body specs) : specs ≠ [] := by
  have hparts {s : List Char} (hspells : List.Forall₂ Spells (parts s) specs) : specs ≠ [] := by
    rintro rfl
    exact List.splitOn_ne_nil _ _ (List.forall₂_nil_right_iff.mp hspells)
  cases h with
  | plain hspells => exact hparts hspells
  | bar hspells => exact hparts hspells

theorem spelled_unique {specs' : List Specifier} (h : Spelled body specs)
    (h' : Spelled body specs') : specs = specs' := by
  cases h with
  | plain hspells =>
      cases h' with
      | plain hspells' => exact List.right_unique_forall₂' spells_rightUnique hspells hspells'
      | bar hspells' => exact absurd hspells (not_parts_bar _)
  | bar hspells =>
      exact List.right_unique_forall₂' spells_rightUnique hspells (spelled_bar_iff.mp h')

/-- Specifiers that are all `reset` keep the rules. -/
theorem admissible_of_resets (h : ∀ sp ∈ specs, sp = .reset) : Admissible specs := by
  have hnone (proj : Specifier → Option RgbColor) (hreset : proj .reset = none) :
      specs.filterMap proj = [] := by
    apply List.filterMap_eq_nil_iff.mpr
    intro sp hmem
    rw [h sp hmem, hreset]
  have hfg : fgColors specs = [] := hnone _ rfl
  have hbg : bgColors specs = [] := hnone _ rfl
  refine ⟨⟨?_, ?_⟩, fun _ => ⟨hfg, fun em hmem => ?_⟩⟩
  · rw [hfg]
    exact Nat.zero_le 1
  · rw [hbg]
    exact Nat.zero_le 1
  · cases h _ hmem

/-- For every text between the brackets, and whatever follows it: if the field is
accepted, it spells specifiers, and unless one is `reset` its sequence shows them;
a field of nothing but `reset` is accepted and has the reset sequence. -/
theorem field_shows (body rest : List Char) (hbody : ']' ∉ body) :
    (∀ out, readField body rest = .ok out →
      (∃ specs, Spelled body specs) ∧
        ∀ specs, Spelled body specs → .reset ∉ specs → Shows out.2 specs) ∧
      ∀ specs, Spelled body specs → (∀ sp ∈ specs, sp = .reset) →
        readField body rest = .ok (rest, "\x1b[0m".toList) := by
  constructor
  · intro out hout
    obtain ⟨specs, hspelled, hadmissible⟩ := (readField_ok_iff hbody).mp ⟨out, hout⟩
    obtain ⟨col, hselects⟩ := exists_selects hadmissible.toColorsOnce
    have hcol : readField body rest = .ok (rest, col.colorize) :=
      readField_of_spelled hbody hspelled hadmissible hselects
    cases hout.symm.trans hcol
    refine ⟨⟨specs, hspelled⟩, ?_⟩
    intro specs' hspelled' hreset
    obtain rfl := spelled_unique hspelled hspelled'
    exact shows_colorize hselects hadmissible.toColorsOnce (spelled_ne_nil hspelled) hreset
  · intro specs hspelled hall
    have hadmissible := admissible_of_resets hall
    obtain ⟨col, hselects⟩ := exists_selects hadmissible.toColorsOnce
    obtain ⟨sp, hmem⟩ := List.exists_mem_of_ne_nil specs (spelled_ne_nil hspelled)
    have hcol : col.reset = true := by
      rw [hselects.reset]
      exact decide_eq_true (hall sp hmem ▸ hmem)
    rw [readField_of_spelled hbody hspelled hadmissible hselects, Colorizer.colorize, if_pos hcol]

theorem field_shows_red_bold : Shows "\x1b[1;39;38;2;255;0;0m".toList
    [.fgReset, .fg 0xFF0000, .emphasis .bold] := by
  have hparts : parts "fg:reset|red|bold".toList =
      ["fg:".toList ++ "reset".toList, "red".toList, Emphasis.bold.name] := by decide
  have hred : Spells "red".toList (.fg 0xFF0000) := .color (.named (by decide +kernel))
  have hspelled : Spelled "fg:reset|red|bold".toList [.fgReset, .fg 0xFF0000, .emphasis .bold] := by
    apply Spelled.plain
    rw [hparts]
    exact .cons .fgReset (.cons hred (.cons (.emphasis .bold) .nil))
  have hok : readField "fg:reset|red|bold".toList [] =
      .ok ([], "\x1b[1;39;38;2;255;0;0m".toList) := by decide +kernel
  exact ((field_shows "fg:reset|red|bold".toList [] (by decide)).1 _ hok).2 _ hspelled (by simp)

end Shows

end YkUtil.Colorize
