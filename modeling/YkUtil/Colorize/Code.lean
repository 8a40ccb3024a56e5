import YkUtil.Colorize.Color

/-!
The parser of a colour field, the scanner of a markup string and the functions
over them. A position in a string is the list of characters from it to the end
of the string. Positions are formed by `advance` and read by `deref`, which fail
outside the string, and each loop runs for at most `bound` iterations.
-/

namespace YkUtil.Colorize

/-- What ends a scan that does not return. `colorizeError` is the exception;
`outOfRange` is a position outside the string, formed or read; `unfinished` is a
loop still running after the iterations it was given. -/
inductive Fault where
  | colorizeError (what : String)
  | outOfRange
  | unfinished
  deriving DecidableEq

abbrev Parse := Except Fault

def raise {α : Type} (what : String) : Parse α := .error (.colorizeError what)

def deref : List Char → Parse Char
  | [] => .error .outOfRange
  | c :: _ => .ok c

def advance (pc : List Char) (count : Nat) : Parse (List Char) :=
  if count ≤ pc.length then .ok (pc.drop count) else .error .outOfRange

/-- `find` of `string_view`; `none` is `npos`, which is larger than any position. -/
def find (c : Char) (s : List Char) : Option Nat :=
  s.findIdx? fun d => d = c

/-- `find_first_of("|]")`. -/
def findStop (s : List Char) : Option Nat :=
  s.findIdx? fun d => d = '|' ∨ d = ']'

/-- What a field selects: the members of `colorizer`, and of `do_parse_result`
next to its iterator. -/
structure Colorizer where
  fgColor : Option RgbColor := none
  bgColor : Option RgbColor := none
  emphasis : BitVec 8 := 0
  reset : Bool := false
  fgReset : Bool := false
  bgReset : Bool := false
  deriving DecidableEq

namespace Colorizer

/-- The numbers that `colorize` appends, in order. -/
def codes (col : Colorizer) : List Nat :=
  (eachBit col.emphasis).map emphasisToValue ++
    (if col.fgReset then [39] else []) ++
    (if col.bgReset then [49] else []) ++
    (match col.fgColor with
      | some rgb => 38 :: 2 :: getRgb rgb
      | none => []) ++
    (match col.bgColor with
      | some rgb => 48 :: 2 :: getRgb rgb
      | none => [])

def colorize (col : Colorizer) : List Char :=
  if col.reset then "\x1b[0m".toList
  else "\x1b[".toList ++ [';'].intercalate (col.codes.map (Nat.toDigits 10)) ++ ['m']

def setFgColor (col : Colorizer) (rgb : RgbColor) : Parse Colorizer :=
  if col.fgColor.isSome then raise "multiple colors must not be specified"
  else .ok { col with fgColor := some rgb }

def setBgColor (col : Colorizer) (rgb : RgbColor) : Parse Colorizer :=
  if col.bgColor.isSome then raise "multiple colors must not be specified"
  else .ok { col with bgColor := some rgb }

end Colorizer

def digitsValue (digits : List Char) : Nat :=
  digits.foldl (fun value d => 10 * value + (d.toNat - '0'.toNat)) 0

/-- `from_chars` into a `uint8_t`, with the position after the digits. -/
def fromChars (chars : List Char) : Parse (Nat × List Char) :=
  let digits := chars.takeWhile Char.isDigit
  if digits = [] ∨ 255 < digitsValue digits then raise "invalid number"
  else .ok (digitsValue digits, chars.dropWhile Char.isDigit)

/-- `if (*ptr++ != c) throw colorize_error(what)`. The pointer is inside a
specifier or at its end; `after` is what follows the specifier, so that the
character read need not belong to it. -/
def expect (c : Char) (what : String) (ptr after : List Char) : Parse (List Char) := do
  let d ← deref (ptr ++ after)
  if d = c then .ok ptr.tail else raise what

def parseRgb (spec after : List Char) : Parse (Option RgbColor) :=
  if "rgb(".toList.isPrefixOf spec then do
    let (r, ptr1) ← fromChars (spec.drop 4)
    let ptr1 ← expect ',' "invalid delimiter" ptr1 after
    let (g, ptr2) ← fromChars ptr1
    let ptr2 ← expect ',' "invalid delimiter" ptr2 after
    let (b, ptr3) ← fromChars ptr2
    let _ ← expect ')' "unmatched right parenthesis" ptr3 after
    .ok (some (r <<< 16 ||| g <<< 8 ||| b))
  else .ok none

/-- The branches that try `parse_rgb` and then `name_to_color`. -/
def parseColor (spec after : List Char) (onColor : RgbColor → Parse Colorizer)
    (otherwise : Parse Colorizer) : Parse Colorizer := do
  match ← parseRgb spec after with
  | some rgb => onColor rgb
  | none =>
    match nameToColor spec with
    | some color => onColor color
    | none => otherwise

/-- The branches for `fg:` and `bg:`, after the colon. -/
def parseLayer (what : String) (onReset : Colorizer) (onColor : RgbColor → Parse Colorizer)
    (spec after : List Char) : Parse Colorizer :=
  if spec = "reset".toList then .ok onReset
  else parseColor spec after onColor (raise what)

/-- The body of the loop of `do_parse`, for one specifier. -/
def parseSpecifier (spec after : List Char) (result : Colorizer) : Parse Colorizer :=
  if spec = "reset".toList then .ok { result with reset := true }
  else
    parseColor spec after result.setFgColor <|
      match nameToEmphasis spec with
      | some em => .ok { result with emphasis := result.emphasis ||| em.flag }
      | none =>
        if "fg:".toList.isPrefixOf spec then
          parseLayer "fg prefix must precede color name or reset"
            { result with fgReset := true } result.setFgColor (spec.drop 3) after
        else if "bg:".toList.isPrefixOf spec then
          parseLayer "bg prefix must precede color name or reset"
            { result with bgReset := true } result.setBgColor (spec.drop 3) after
        else raise "invalid specifier"

def doParseLoop : Nat → List Char → Colorizer → Parse (List Char × Colorizer)
  | 0, _, _ => .error .unfinished
  | bound + 1, it, result =>
    match it with
    | [] => .ok (it, result)
    | c :: it' =>
      if c = ']' then .ok (it, result)
      else
        let rest := if c = '|' then it' else it
        match findStop rest with
        | some len => do
          let result ← parseSpecifier (rest.take len) (rest.drop len) result
          let it ← advance rest len
          doParseLoop bound it result
        | none => do
          -- `substr` stops at the end; `it += npos` leaves the string.
          let _ ← parseSpecifier rest [] result
          .error .outOfRange

def doParse (bound : Nat) (pc : List Char) : Parse (List Char × Colorizer) := do
  let (it, result) ← doParseLoop bound pc {}
  if result.reset && (result.fgColor.isSome || result.emphasis != 0) then
    raise "reset must be independently specified"
  else .ok (it, result)

/-- The virtual functions of `detail::scanner`. `onChars` is given the characters
from the position to `last`; `colorize` also moves the position. -/
structure Scanner (σ : Type) where
  onChars : List Char → σ → σ
  colorize : Nat → List Char → σ → Parse (List Char × σ)

namespace Scanner

variable {σ : Type}

def onReplacementField (S : Scanner σ) (bound : Nat) (pc : List Char) (out : σ) :
    Parse (List Char × σ) := do
  let next ← deref pc
  if next = ']' then raise "empty color specifier"
  else
    let (pc, out) ← S.colorize bound pc out
    match pc with
    | [] => raise "unmatched left brace"
    | c :: pc => if c = ']' then .ok (pc, out) else raise "unmatched left brace"

/-- The loop of `scan`, with the positions of the next brackets that it keeps. -/
def scanLoop (S : Scanner σ) (bound : Nat) :
    Nat → List Char → Option Nat → Option Nat → σ → Parse σ
  | 0, _, _, _, _ => .error .unfinished
  | n + 1, fmt, leftBracket, rightBracket, out =>
    let noBracket : Parse σ := .ok (S.onChars fmt out)
    let left (l : Nat) : Parse σ :=
      if l + 1 = fmt.length then raise "unmatched left bracket"
      else do
        let next ← deref (fmt.drop (l + 1))
        if rightBracket = none ∧ next = '[' then raise "unmatched left bracket"
        else
          let last := if next = '[' then l + 1 else l
          let pc ← advance fmt (last + 1)
          let out := S.onChars (fmt.take last) out
          if next = '[' then
            S.scanLoop bound n pc (find '[' pc) (rightBracket.map (· - (l + 2))) out
          else
            let (pc, out) ← S.onReplacementField bound pc out
            S.scanLoop bound n pc (find '[' pc) (find ']' pc) out
    let right (r : Nat) : Parse σ :=
      if r + 1 = fmt.length then raise "unmatched right bracket"
      else do
        let next ← deref (fmt.drop (r + 1))
        if next = ']' then
          let pc ← advance fmt (r + 2)
          let out := S.onChars (fmt.take (r + 1)) out
          S.scanLoop bound n pc (leftBracket.map (· - (r + 2))) (find ']' pc) out
        else raise "unmatched right bracket"
    if fmt = [] then .ok out
    else
      match leftBracket, rightBracket with
      | none, none => noBracket
      | some l, none => left l
      | none, some r => right r
      | some l, some r =>
        if l = r then noBracket else if l < r then left l else right r

def scan (S : Scanner σ) (bound : Nat) (str : List Char) (out : σ) : Parse σ :=
  S.scanLoop bound bound str (find '[' str) (find ']' str) out

end Scanner

/-- An output iterator by what `*it = c; ++it` does to it. -/
structure OutputIterator (ω : Type) where
  put : ω → Char → ω

/-- `std::ranges::copy`. -/
def OutputIterator.copy {ω : Type} (it : OutputIterator ω) (chars : List Char) (out : ω) : ω :=
  chars.foldl it.put out

section Scanners

variable {ω : Type}

def checkingScanner : Scanner Unit where
  onChars _ out := out
  colorize bound pc out := do
    let (pc, _) ← doParse bound pc
    .ok (pc, out)

def noopScanner (it : OutputIterator ω) : Scanner ω where
  onChars := it.copy
  colorize bound pc out := do
    let (pc, _) ← doParse bound pc
    .ok (pc, out)

def colorizingScanner (it : OutputIterator ω) : Scanner ω where
  onChars := it.copy
  colorize bound pc out := do
    let (pc, c) ← doParse bound pc
    .ok (pc, it.copy c.colorize out)

end Scanners

/-- The constructors of `basic_colorize_format_string` and of
`basic_colorize_string` from a literal. -/
def checkString (str : List Char) : Parse Unit :=
  checkingScanner.scan (str.length + 1) str ()

structure ColorizeConfig where
  needColor : Bool := true

def colorizeTo {ω : Type} (it : OutputIterator ω) (out : ω) (cfg : ColorizeConfig)
    (col : List Char) : Parse ω :=
  if cfg.needColor then (colorizingScanner it).scan (col.length + 1) col out
  else (noopScanner it).scan (col.length + 1) col out

def backInserter : OutputIterator (List Char) where
  put str c := str ++ [c]

def countingIterator : OutputIterator Nat where
  put count _ := count + 1

/-- An iterator into the array of a `basic_fixed_string`. A write past the array is
recorded in `overrun`. -/
structure ArrayCursor where
  data : List Char
  pos : Nat
  overrun : Bool
  deriving DecidableEq

def arrayIterator : OutputIterator ArrayCursor where
  put cur c :=
    if cur.pos < cur.data.length then
      { cur with data := cur.data.set cur.pos c, pos := cur.pos + 1 }
    else { cur with overrun := true }

def colorize (cfg : ColorizeConfig) (col : List Char) : Parse (List Char) :=
  colorizeTo backInserter [] cfg col

def colorizedSize (col : List Char) : Parse Nat :=
  colorizeTo countingIterator 0 {} col

/-- `static_colorize_string`: the array has a zero after the `size` characters. -/
def staticColorizeString (str : List Char) : Parse ArrayCursor := do
  let size ← colorizedSize str
  colorizeTo arrayIterator ⟨List.replicate (size + 1) '\x00', 0, false⟩ {} str

/-- `std::format`: the next argument's text for each `{}`. -/
def format : List Char → List (List Char) → List Char
  | '\x7b' :: '\x7d' :: fmt, arg :: args => arg ++ format fmt args
  | c :: fmt, args => c :: format fmt args
  | [], _ => []

def formatColorize (fmt : List Char) (args : List (List Char)) : Parse (List Char) :=
  colorize {} (format fmt args)

def colorizeFormat (fmt : List Char) (args : List (List Char)) : Parse (List Char) := do
  let col ← colorize {} fmt
  .ok (format col args)

end YkUtil.Colorize
