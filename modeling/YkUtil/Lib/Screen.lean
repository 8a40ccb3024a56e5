import YkUtil.Lib.Sgr

/-!
A terminal that is fed characters one by one. An escape starts a sequence, which is
carried out at its `m`; any other character is shown as the sequences before it say.
A sequence that is not known stops the terminal.
-/

namespace YkUtil.Lib.Sgr

/-- A character as it is shown. -/
abbrev Cell := Char × Terminal

/-- How the next character will be shown, the sequence that is being read, and
what has been shown. -/
structure Screen where
  pen : Terminal
  reading : Option (List Char)
  cells : List Cell

namespace Screen

def start (pen : Terminal) : Screen := ⟨pen, none, []⟩

def put (s : Screen) (c : Char) : Option Screen :=
  match s.reading with
  | none =>
    if c = '\x1b' then some {s with reading := some [c]}
    else some {s with cells := s.cells ++ [(c, s.pen)]}
  | some chars =>
    if c = 'm' then do
      let params ← decode (chars ++ [c])
      let pen ← interpret params s.pen
      some {s with pen := pen, reading := none}
    else some {s with reading := some (chars ++ [c])}

def feed (s : Screen) : List Char → Option Screen
  | [] => some s
  | c :: rest => (s.put c).bind fun t => t.feed rest

section Feed

variable {s t : Screen} {text rest : List Char} {params : List Nat} {pen : Terminal}

theorem feed_append (first second : List Char) :
    s.feed (first ++ second) = (s.feed first).bind fun t => t.feed second := by
  induction first generalizing s with
  | nil => rfl
  | cons c first ih =>
      rw [List.cons_append, feed, feed, Option.bind_assoc]
      congr 1
      funext t
      exact ih

theorem feed_text (hidle : s.reading = none) (htext : '\x1b' ∉ text) :
    s.feed text = some {s with cells := s.cells ++ text.map fun c => (c, s.pen)} := by
  induction text generalizing s with
  | nil => simp [feed]
  | cons c text ih =>
      have hc := List.ne_of_not_mem_cons htext
      have htail := List.not_mem_of_not_mem_cons htext
      rw [feed, put, hidle]
      simp only [if_neg (Ne.symm hc), Option.bind_some]
      rw [ih rfl htail, List.append_assoc]
      rfl

/-- The characters of a sequence before its `m`. -/
theorem feed_reading {chars : List Char} (hreading : s.reading = some chars) (htext : 'm' ∉ text) :
    s.feed text = some {s with reading := some (chars ++ text)} := by
  induction text generalizing s chars with
  | nil => simp [feed, ← hreading]
  | cons c text ih =>
      have hc := List.ne_of_not_mem_cons htext
      have htail := List.not_mem_of_not_mem_cons htext
      rw [feed, put, hreading]
      simp only [if_neg (Ne.symm hc), Option.bind_some]
      rw [ih rfl htail, List.append_assoc]
      rfl

theorem not_mem_encoded (params : List Nat) :
    'm' ∉ [';'].intercalate (params.map (Nat.toDigits 10)) := by
  have hdigits (n : Nat) : 'm' ∉ Nat.toDigits 10 n := by
    intro hmem
    cases Nat.isDigit_of_mem_toDigits (by omega) (by omega) hmem
  induction params with
  | nil => simp
  | cons n params ih =>
      cases params with
      | nil => simpa using hdigits n
      | cons n' params =>
          rw [List.map_cons, List.map_cons, List.intercalate_cons_cons, List.mem_append,
            List.mem_append]
          rintro ((hmem | hsemi) | hmore)
          · exact hdigits n hmem
          · cases List.mem_singleton.mp hsemi
          · exact ih hmore

/-- A sequence is carried out, and shows nothing itself. -/
theorem feed_encode (hidle : s.reading = none) (hne : params ≠ [])
    (hpen : interpret params s.pen = some pen) :
    s.feed (encode params) = some {s with pen := pen} := by
  have hdecode := decode_encode hne
  have hm : 'm' ∉ '[' :: [';'].intercalate (params.map (Nat.toDigits 10)) :=
    List.not_mem_cons_of_ne_of_not_mem (by decide) (not_mem_encoded params)
  change decode (['\x1b'] ++ ('[' :: [';'].intercalate (params.map (Nat.toDigits 10))) ++ ['m']) =
    _ at hdecode
  change s.feed ('\x1b' :: (('[' :: [';'].intercalate (params.map (Nat.toDigits 10))) ++ ['m'])) = _
  rw [feed, put, hidle]
  simp only [if_true, Option.bind_some]
  rw [feed_append, feed_reading rfl hm, Option.bind_some, feed, put]
  simp only [if_true]
  rw [hdecode]
  simp [hpen, feed]

end Feed

end Screen

end YkUtil.Lib.Sgr
