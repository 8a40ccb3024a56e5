import Mathlib.Data.List.Basic

/-!
The colours and emphases a colour field can name, and the escape sequence for what
a field has selected. Characters are those of the source's `char`; a string is
the list of them.
-/

namespace YkUtil.Colorize

/-- `rgb_color`: eight bits each of red, green and blue, red the highest. -/
abbrev RgbColor := Nat

def getRgb (rgb : RgbColor) : List Nat :=
  [(rgb >>> 16) &&& 0xFF, (rgb >>> 8) &&& 0xFF, rgb &&& 0xFF]

/-- The rows of `color_lookup_table` before it is sorted, with the value of each
enumerator in its place. -/
def colorLookupTable : List (String × RgbColor) :=
  [("black", 0x000000), ("dimgray", 0x696969), ("gray", 0x808080), ("darkgray", 0xA9A9A9),
   ("silver", 0xC0C0C0), ("lightgray", 0xD3D3D3), ("gainsboro", 0xDCDCDC),
   ("whitesmoke", 0xF5F5F5), ("white", 0xFFFFFF), ("red", 0xFF0000), ("orangered", 0xFF4500),
   ("darkorange", 0xFF8C00), ("orange", 0xFFA500), ("gold", 0xFFD700), ("yellow", 0xFFFF00),
   ("chartreuse", 0x7FFF00), ("lime", 0x00FF00), ("springgreen", 0x00FF7F), ("aqua", 0x00FFFF),
   ("cyan", 0x00FFFF), ("deepskyblue", 0x00BFFF), ("blue", 0x0000FF), ("fuchsia", 0xFF00FF),
   ("magenta", 0xFF00FF), ("snow", 0xFFFAFA), ("rosybrown", 0xBC8F8F), ("lightcoral", 0xF08080),
   ("indianred", 0xCD5C5C), ("brown", 0xA52A2A), ("firebrick", 0xB22222), ("maroon", 0x800000),
   ("darkred", 0x8B0000), ("mistyrose", 0xFFE4E1), ("salmon", 0xFA8072), ("tomato", 0xFF6347),
   ("darksalmon", 0xE9967A), ("coral", 0xFF7F50), ("lightsalmon", 0xFFA07A),
   ("sienna", 0xA0522D), ("seashell", 0xFFF5EE), ("chocolate", 0xD2691E),
   ("saddlebrown", 0x8B4513), ("sandybrown", 0xF4A460), ("peachpuff", 0xFFDAB9),
   ("peru", 0xCD853F), ("linen", 0xFAF0E6), ("bisque", 0xFFE4C4), ("burlywood", 0xDEB887),
   ("antiquewhite", 0xFAEBD7), ("tan", 0xD2B48C), ("navajowhite", 0xFFDEAD),
   ("blanchedalmond", 0xFFEBCD), ("papayawhip", 0xFFEFD5), ("moccasin", 0xFFE4B5),
   ("wheat", 0xF5DEB3), ("oldlace", 0xFDF5E6), ("floralwhite", 0xFFFAF0),
   ("darkgoldenrod", 0xB8860B), ("goldenrod", 0xDAA520), ("cornsilk", 0xFFF8DC),
   ("lemonchiffon", 0xFFFACD), ("khaki", 0xF0E68C), ("palegoldenrod", 0xEEE8AA),
   ("darkkhaki", 0xBDB76B), ("ivory", 0xFFFFF0), ("beige", 0xF5F5DC), ("lightyellow", 0xFFFFE0),
   ("lightgoldenrodyellow", 0xFAFAD2), ("olive", 0x808000), ("olivedrab", 0x6B8E23),
   ("yellowgreen", 0x9ACD32), ("darkolivegreen", 0x556B2F), ("greenyellow", 0xADFF2F),
   ("lawngreen", 0x7CFC00), ("honeydew", 0xF0FFF0), ("darkseagreen", 0x8FBC8F),
   ("palegreen", 0x98FB98), ("lightgreen", 0x90EE90), ("forestgreen", 0x228B22),
   ("limegreen", 0x32CD32), ("darkgreen", 0x006400), ("green", 0x008000),
   ("seagreen", 0x2E8B57), ("mediumseagreen", 0x3CB371), ("mintcream", 0xF5FFFA),
   ("mediumspringgreen", 0x00FA9A), ("mediumaquamarine", 0x66CDAA), ("aquamarine", 0x7FFFD4),
   ("turquoise", 0x40E0D0), ("lightseagreen", 0x20B2AA), ("mediumturquoise", 0x48D1CC),
   ("azure", 0xF0FFFF), ("lightcyan", 0xE0FFFF), ("paleturquoise", 0xAFEEEE),
   ("darkslategray", 0x2F4F4F), ("teal", 0x008080), ("darkcyan", 0x008B8B),
   ("darkturquoise", 0x00CED1), ("cadetblue", 0x5F9EA0), ("powderblue", 0xB0E0E6),
   ("lightblue", 0xADD8E6), ("skyblue", 0x87CEEB), ("lightskyblue", 0x87CEFA),
   ("steelblue", 0x4682B4), ("aliceblue", 0xF0F8FF), ("dodgerblue", 0x1E90FF),
   ("lightslategray", 0x778899), ("slategray", 0x708090), ("lightsteelblue", 0xB0C4DE),
   ("cornflowerblue", 0x6495ED), ("royalblue", 0x4169E1), ("ghostwhite", 0xF8F8FF),
   ("lavender", 0xE6E6FA), ("midnightblue", 0x191970), ("navy", 0x000080),
   ("darkblue", 0x00008B), ("mediumblue", 0x0000CD), ("slateblue", 0x6A5ACD),
   ("darkslateblue", 0x483D8B), ("mediumslateblue", 0x7B68EE), ("mediumpurple", 0x9370DB),
   ("rebeccapurple", 0x663399), ("blueviolet", 0x8A2BE2), ("indigo", 0x4B0082),
   ("darkorchid", 0x9932CC), ("darkviolet", 0x9400D3), ("mediumorchid", 0xBA55D3),
   ("thistle", 0xD8BFD8), ("plum", 0xDDA0DD), ("violet", 0xEE82EE), ("purple", 0x800080),
   ("darkmagenta", 0x8B008B), ("orchid", 0xDA70D6), ("mediumvioletred", 0xC71585),
   ("deeppink", 0xFF1493), ("hotpink", 0xFF69B4), ("lavenderblush", 0xFFF0F5),
   ("palevioletred", 0xDB7093), ("crimson", 0xDC143C), ("pink", 0xFFC0CB),
   ("lightpink", 0xFFB6C1)]

/-- The lower bound in the sorted table, compared with the name: since the names
are distinct it is a row exactly when the row has that name. -/
def nameToColor (name : List Char) : Option RgbColor :=
  (colorLookupTable.find? fun row => row.1.toList = name).map Prod.snd

inductive Emphasis where
  | bold
  | faint
  | italic
  | underline
  | blink
  | reverse
  | conceal
  | strike
  deriving DecidableEq

namespace Emphasis

/-- The enumerators in the order of their bits. -/
def all : List Emphasis := [bold, faint, italic, underline, blink, reverse, conceal, strike]

def bit : Emphasis → Nat
  | bold => 0
  | faint => 1
  | italic => 2
  | underline => 3
  | blink => 4
  | reverse => 5
  | conceal => 6
  | strike => 7

/-- The value of the enumerator. -/
def flag (em : Emphasis) : BitVec 8 := 1#8 <<< em.bit

def name : Emphasis → List Char
  | bold => "bold".toList
  | faint => "faint".toList
  | italic => "italic".toList
  | underline => "underline".toList
  | blink => "blink".toList
  | reverse => "reverse".toList
  | conceal => "conceal".toList
  | strike => "strike".toList

end Emphasis

/-- `none` is the empty set of flags that the source returns for an unknown name. -/
def nameToEmphasis (name : List Char) : Option Emphasis :=
  Emphasis.all.find? fun em => em.name = name

def emphasisToValue : Emphasis → Nat
  | .bold => 1
  | .faint => 2
  | .italic => 3
  | .underline => 4
  | .blink => 5
  | .reverse => 7
  | .conceal => 8
  | .strike => 9

/-- `each_bit`, the lowest bit first. -/
def eachBit (flags : BitVec 8) : List Emphasis :=
  Emphasis.all.filter fun em => flags.getLsbD em.bit

theorem Emphasis.mem_all (em : Emphasis) : em ∈ Emphasis.all := by
  cases em <;> decide

theorem nameToEmphasis_name (em : Emphasis) : nameToEmphasis em.name = some em := by
  cases em <;> rfl

theorem nameToEmphasis_eq_some {name : List Char} {em : Emphasis}
    (h : nameToEmphasis name = some em) : em.name = name := by
  simpa using List.find?_some h

theorem Emphasis.name_isLower (em : Emphasis) : em.name.all Char.isLower = true := by
  cases em <;> rfl

theorem nameToEmphasis_eq_none {name : List Char} {c : Char} (hc : c ∈ name)
    (hlower : c.isLower = false) : nameToEmphasis name = none := by
  cases h : nameToEmphasis name with
  | none => rfl
  | some em =>
    rw [← nameToEmphasis_eq_some h] at hc
    have hlower' := List.all_eq_true.mp em.name_isLower c hc
    rw [hlower] at hlower'
    cases hlower'

/-- The names of colours are lower case letters, and no other words of the markup. -/
theorem colorLookupTable_names :
    ∀ row ∈ colorLookupTable, row.1.toList.all Char.isLower = true ∧ row.1.toList ≠ [] ∧
      row.1.toList ≠ "reset".toList ∧ ∀ em ∈ Emphasis.all, row.1.toList ≠ em.name := by
  decide +kernel

section NameToColor

variable {name : List Char}

theorem nameToColor_eq_some {color : RgbColor} (h : nameToColor name = some color) :
    ∃ row ∈ colorLookupTable, row.1.toList = name := by
  obtain ⟨row, hrow, -⟩ := Option.map_eq_some_iff.mp h
  exact ⟨row, List.mem_of_find?_eq_some hrow, by simpa using List.find?_some hrow⟩

theorem nameToColor_isLower {color : RgbColor} (h : nameToColor name = some color) :
    ∀ c ∈ name, c.isLower = true := by
  obtain ⟨row, hrow, rfl⟩ := nameToColor_eq_some h
  exact List.all_eq_true.mp (colorLookupTable_names row hrow).1

theorem nameToColor_ne_nil {color : RgbColor} (h : nameToColor name = some color) :
    name ≠ [] := by
  obtain ⟨row, hrow, rfl⟩ := nameToColor_eq_some h
  exact (colorLookupTable_names row hrow).2.1

theorem nameToColor_reset : nameToColor "reset".toList = none := by
  cases h : nameToColor "reset".toList with
  | none => rfl
  | some color =>
    obtain ⟨row, hrow, hname⟩ := nameToColor_eq_some h
    exact absurd hname (colorLookupTable_names row hrow).2.2.1

theorem nameToColor_emphasis (em : Emphasis) : nameToColor em.name = none := by
  cases h : nameToColor em.name with
  | none => rfl
  | some color =>
    obtain ⟨row, hrow, hname⟩ := nameToColor_eq_some h
    exact absurd hname ((colorLookupTable_names row hrow).2.2.2 em em.mem_all)

/-- A text with a character that is not a lower case letter names no colour. -/
theorem nameToColor_eq_none {c : Char} (hc : c ∈ name) (hlower : c.isLower = false) :
    nameToColor name = none := by
  cases h : nameToColor name with
  | none => rfl
  | some color =>
    have hlower' := nameToColor_isLower h c hc
    rw [hlower] at hlower'
    cases hlower'

end NameToColor

end YkUtil.Colorize
