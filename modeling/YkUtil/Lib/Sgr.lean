import Mathlib.Data.List.Basic

/-!
Select graphic rendition: the sequences by which a terminal is told how to show
text. A sequence is an escape and a bracket, decimal parameters with semicolons
between them, and an `m`; the parameters are carried out from the left, and
`none` is a parameter that is not known here.
-/

namespace YkUtil.Lib.Sgr

inductive Attr where
  | bold
  | faint
  | italic
  | underline
  | blink
  | rapidBlink
  | reverse
  | conceal
  | strike
  deriving DecidableEq

inductive Hue where
  | default
  | rgb (r g b : Nat)
  | indexed (i : Nat)
  deriving DecidableEq

structure Terminal where
  attr : Attr → Bool
  foreground : Hue
  background : Hue

/-- The parameter that sets the attribute. -/
def Attr.param : Attr → Nat
  | bold => 1
  | faint => 2
  | italic => 3
  | underline => 4
  | blink => 5
  | rapidBlink => 6
  | reverse => 7
  | conceal => 8
  | strike => 9

def Attr.all : List Attr :=
  [bold, faint, italic, underline, blink, rapidBlink, reverse, conceal, strike]

def Attr.ofParam (n : Nat) : Option Attr := all.find? fun a => a.param = n

def Terminal.plain : Terminal := ⟨fun _ => false, .default, .default⟩

def Terminal.setAll (t : Terminal) (attrs : List Attr) : Terminal :=
  { t with attr := fun a => t.attr a || decide (a ∈ attrs) }

def interpret : List Nat → Terminal → Option Terminal
  | [], t => some t
  | 0 :: ps, _ => interpret ps .plain
  | 39 :: ps, t => interpret ps { t with foreground := .default }
  | 49 :: ps, t => interpret ps { t with background := .default }
  | 38 :: 2 :: r :: g :: b :: ps, t =>
    if r < 256 ∧ g < 256 ∧ b < 256 then interpret ps { t with foreground := .rgb r g b } else none
  | 48 :: 2 :: r :: g :: b :: ps, t =>
    if r < 256 ∧ g < 256 ∧ b < 256 then interpret ps { t with background := .rgb r g b } else none
  | n :: ps, t =>
    match Attr.ofParam n with
    | some a => interpret ps (t.setAll [a])
    | none => none

def encode (params : List Nat) : List Char :=
  "\x1b[".toList ++ [';'].intercalate (params.map (Nat.toDigits 10)) ++ ['m']

def number (digits : List Char) : Option Nat :=
  if digits ≠ [] ∧ digits.all Char.isDigit then some (Nat.ofDigitChars 10 digits 0) else none

/-- The parameters of one sequence. -/
def decode : List Char → Option (List Nat)
  | '\x1b' :: '[' :: s =>
    if s.getLast? = some 'm' then (s.dropLast.splitOn ';').mapM number else none
  | _ => none

/-! A sequence is read as it was written. -/

section Decode

variable {params : List Nat}

theorem number_toDigits (n : Nat) : number (Nat.toDigits 10 n) = some n := by
  have hdigits : (Nat.toDigits 10 n).all Char.isDigit = true := by
    rw [List.all_eq_true]
    intro c hc
    exact Nat.isDigit_of_mem_toDigits (by omega) (by omega) hc
  rw [number, if_pos ⟨Nat.toDigits_ne_nil, hdigits⟩, Nat.ofDigitChars_ten_toDigits]

theorem mapM_number (params : List Nat) :
    (params.map (Nat.toDigits 10)).mapM number = some params := by
  induction params with
  | nil => rfl
  | cons n params ih => simp [number_toDigits, ih]

theorem decode_encode (h : params ≠ []) : decode (encode params) = some params := by
  have hsplit : ([';'].intercalate (params.map (Nat.toDigits 10))).splitOn ';' =
      params.map (Nat.toDigits 10) := by
    apply List.splitOn_intercalate
    · intro digits hmem hsemi
      obtain ⟨n, -, rfl⟩ := List.mem_map.mp hmem
      cases Nat.isDigit_of_mem_toDigits (by omega) (by omega) hsemi
    · simpa using h
  change decode ('\x1b' :: '[' :: ([';'].intercalate (params.map (Nat.toDigits 10)) ++ ['m'])) = _
  rw [decode, if_pos List.getLast?_concat, List.dropLast_concat, hsplit, mapM_number]

end Decode

/-! What the parameters do, from the left. -/

section Interpret

variable {ps : List Nat} {t : Terminal} {attrs : List Attr} {r g b : Nat}

theorem interpret_attr (a : Attr) :
    interpret (a.param :: ps) t = interpret ps (t.setAll [a]) := by
  cases a <;> rfl

theorem Terminal.setAll_nil : t.setAll [] = t := by
  simp [Terminal.setAll]

theorem Terminal.setAll_cons (a : Attr) : (t.setAll [a]).setAll attrs = t.setAll (a :: attrs) := by
  simp [Terminal.setAll, Bool.or_assoc, Bool.decide_or]

theorem interpret_attrs :
    interpret (attrs.map Attr.param ++ ps) t = interpret ps (t.setAll attrs) := by
  induction attrs generalizing t with
  | nil => rw [Terminal.setAll_nil, List.map_nil, List.nil_append]
  | cons a attrs ih =>
      rw [List.map_cons, List.cons_append, interpret_attr, ih, Terminal.setAll_cons]

theorem interpret_foreground (h : r < 256 ∧ g < 256 ∧ b < 256) :
    interpret (38 :: 2 :: r :: g :: b :: ps) t =
      interpret ps { t with foreground := .rgb r g b } := by
  rw [interpret, if_pos h]

theorem interpret_background (h : r < 256 ∧ g < 256 ∧ b < 256) :
    interpret (48 :: 2 :: r :: g :: b :: ps) t =
      interpret ps { t with background := .rgb r g b } := by
  rw [interpret, if_pos h]

end Interpret

end YkUtil.Lib.Sgr
