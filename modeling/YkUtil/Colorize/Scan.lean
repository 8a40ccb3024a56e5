import YkUtil.Colorize.Field

/-!
What `scan` does with a markup string, character by character. The loop of `scan`
goes from bracket to bracket, with the positions of the next `[` and of the next
`]` kept from one iteration to the next; `Reads` reads the same string without
them. A scanner is taken for its two callbacks.
-/

namespace YkUtil.Colorize

open YkUtil.Lib.Outcome

/-- What a scan comes across: a character of the text, or a field. -/
inductive Segment where
  | char (c : Char)
  | field (col : Colorizer)

/-- A `[` in the text is doubled, and the scanner takes it for text only if there is
a `]` anywhere after it. -/
inductive Reads : List Char → List Segment → Prop where
  | nil : Reads [] []
  | char {c : Char} {s : List Char} {segs : List Segment} (hc : c ≠ '[' ∧ c ≠ ']')
      (hrest : Reads s segs) : Reads (c :: s) (.char c :: segs)
  | left {s : List Char} {segs : List Segment} (hright : ']' ∈ s) (hrest : Reads s segs) :
      Reads ('[' :: '[' :: s) (.char '[' :: segs)
  | right {s : List Char} {segs : List Segment} (hrest : Reads s segs) :
      Reads (']' :: ']' :: s) (.char ']' :: segs)
  | field {s rest : List Char} {col : Colorizer} {segs : List Segment}
      (hfield : FieldText s col rest) (hrest : Reads rest segs) :
      Reads ('[' :: s) (.field col :: segs)

/-- After markup that is read, a field that is not closed. -/
inductive Overruns : List Char → Prop where
  | char {c : Char} {s : List Char} (hc : c ≠ '[' ∧ c ≠ ']') (hrest : Overruns s) :
      Overruns (c :: s)
  | left {s : List Char} (hright : ']' ∈ s) (hrest : Overruns s) : Overruns ('[' :: '[' :: s)
  | right {s : List Char} (hrest : Overruns s) : Overruns (']' :: ']' :: s)
  | field {s rest : List Char} {col : Colorizer} (hfield : FieldText s col rest)
      (hrest : Overruns rest) : Overruns ('[' :: s)
  | unclosed {s : List Char} (hopen : UnclosedField s) : Overruns ('[' :: s)

def BracketFree (s : List Char) : Prop :=
  ∀ c ∈ s, c ≠ '[' ∧ c ≠ ']'

section Find

variable {txt s : List Char}

theorem find_eq_none {c : Char} (h : c ∉ s) : find c s = none := by
  rw [find, List.findIdx?_eq_none_iff]
  intro d hd
  rw [decide_eq_false_iff_not]
  rintro rfl
  exact h hd

theorem find_eq_none_iff {c : Char} : find c s = none ↔ c ∉ s := by
  refine ⟨?_, find_eq_none⟩
  intro h hc
  rw [find, List.findIdx?_eq_none_iff] at h
  have := h c hc
  simp at this

theorem find_append {c : Char} (h : c ∉ txt) :
    find c (txt ++ s) = (find c s).map (· + txt.length) := by
  have htxt := find_eq_none h
  rw [find] at htxt
  rw [find, List.findIdx?_append, htxt, Option.none_or, find]

theorem find_cons_self (c : Char) (s : List Char) : find c (c :: s) = some 0 := by
  simp [find, List.findIdx?_cons]

theorem find_cons_ne {c d : Char} (h : d ≠ c) (s : List Char) :
    find c (d :: s) = (find c s).map (· + 1) := by
  simp [find, List.findIdx?_cons, h]

theorem BracketFree.left (h : BracketFree txt) : '[' ∉ txt :=
  fun hmem => (h _ hmem).1 rfl

theorem BracketFree.right (h : BracketFree txt) : ']' ∉ txt :=
  fun hmem => (h _ hmem).2 rfl

end Find

/-- The loop at the start of `fmt`, with the positions it keeps there. -/
def Scanner.loopAt {σ : Type} (S : Scanner σ) (bound n : Nat) (fmt : List Char) (out : σ) :
    Parse σ :=
  S.scanLoop bound n fmt (find '[' fmt) (find ']' fmt) out

section Steps

variable {σ : Type} (S : Scanner σ) {bound n : Nat} {txt s : List Char} {out : σ}

/-- No bracket is left. -/
theorem loopAt_text (h : BracketFree txt) (hne : txt ≠ []) :
    S.loopAt bound (n + 1) txt out = .ok (S.onChars txt out) := by
  rw [Scanner.loopAt, find_eq_none h.left, find_eq_none h.right]
  simp only [Scanner.scanLoop, hne, ↓reduceIte]

theorem loopAt_nil : S.loopAt bound (n + 1) [] out = .ok out := rfl

/-- The branch of the loop for a `[` that comes before the next `]`, if any. -/
theorem scanLoop_left {fmt : List Char} {l : Nat} {right : Option Nat} (hne : fmt ≠ [])
    (hlt : ∀ r ∈ right, l < r) :
    S.scanLoop bound (n + 1) fmt (some l) right out =
      if l + 1 = fmt.length then raise "unmatched left bracket"
      else (do
        let next ← deref (fmt.drop (l + 1))
        if right = none ∧ next = '[' then raise "unmatched left bracket"
        else
          let last := if next = '[' then l + 1 else l
          let pc ← advance fmt (last + 1)
          let out := S.onChars (fmt.take last) out
          if next = '[' then
            S.scanLoop bound n pc (find '[' pc) (right.map (· - (l + 2))) out
          else
            let (pc, out) ← S.onReplacementField bound pc out
            S.loopAt bound n pc out) := by
  cases right with
  | none =>
    simp only [Scanner.scanLoop, hne, ↓reduceIte]
    rfl
  | some r =>
    have hr : l < r := hlt r rfl
    simp only [Scanner.scanLoop, hne, ↓reduceIte, hr, Nat.ne_of_lt hr]
    rfl

theorem scanLoop_right {fmt : List Char} {r : Nat} {left : Option Nat} (hne : fmt ≠ [])
    (hlt : ∀ l ∈ left, r < l) :
    S.scanLoop bound (n + 1) fmt left (some r) out =
      if r + 1 = fmt.length then raise "unmatched right bracket"
      else (do
        let next ← deref (fmt.drop (r + 1))
        if next = ']' then
          let pc ← advance fmt (r + 2)
          let out := S.onChars (fmt.take (r + 1)) out
          S.scanLoop bound n pc (left.map (· - (r + 2))) (find ']' pc) out
        else raise "unmatched right bracket") := by
  cases left with
  | none =>
    simp only [Scanner.scanLoop, hne, ↓reduceIte]
  | some l =>
    have hl : r < l := hlt l rfl
    simp only [Scanner.scanLoop, hne, ↓reduceIte, Nat.ne_of_gt hl, Nat.not_lt_of_gt hl]

theorem find_left (h : BracketFree txt) : find '[' (txt ++ '[' :: s) = some txt.length := by
  rw [find_append h.left, find_cons_self, Option.map_some, Nat.zero_add]

theorem find_right (h : BracketFree txt) : find ']' (txt ++ ']' :: s) = some txt.length := by
  rw [find_append h.right, find_cons_self, Option.map_some, Nat.zero_add]

/-- `find` for the bracket that is not at the end of the text. -/
theorem find_past {b c : Char} (htxt : c ∉ txt) (hbc : b ≠ c) :
    find c (txt ++ b :: s) = (find c s).map (· + (txt.length + 1)) := by
  rw [find_append htxt, find_cons_ne hbc, Option.map_map]
  congr 1
  funext k
  simp only [Function.comp_apply]
  omega

theorem find_past_lt {b c : Char} (htxt : c ∉ txt) (hbc : b ≠ c) :
    ∀ k ∈ find c (txt ++ b :: s), txt.length < k := by
  intro k hk
  rw [find_past htxt hbc] at hk
  obtain ⟨j, -, rfl⟩ := Option.map_eq_some_iff.mp hk
  omega

theorem drop_past {c : Char} : (txt ++ c :: s).drop (txt.length + 1) = s := by
  rw [← List.drop_drop, List.drop_left, List.drop_one, List.tail_cons]

theorem advance_past {c : Char} : advance (txt ++ c :: s) (txt.length + 1) = .ok s := by
  rw [advance, if_pos (by simp), drop_past]

theorem advance_past_two {c d : Char} :
    advance (txt ++ c :: d :: s) (txt.length + 2) = .ok s := by
  rw [advance, if_pos (by simp), ← List.drop_drop, List.drop_left]
  rfl

theorem take_past {c : Char} : (txt ++ c :: s).take (txt.length + 1) = txt ++ [c] := by
  have hlength : txt.length + 1 = (txt ++ [c]).length := by simp
  rw [hlength, List.append_cons txt c s, List.take_left]

/-- The position kept for the other bracket, after an escape. -/
theorem find_kept {b c : Char} (htxt : c ∉ txt) (hbc : b ≠ c) :
    (find c (txt ++ b :: b :: s)).map (· - (txt.length + 2)) = find c s := by
  rw [find_past htxt hbc, find_cons_ne hbc, Option.map_map, Option.map_map]
  cases find c s with
  | none => rfl
  | some k =>
    rw [Option.map_some, Option.some_inj]
    simp only [Function.comp_apply]
    omega

theorem loopAt_leftEnd (h : BracketFree txt) :
    S.loopAt bound (n + 1) (txt ++ ['[']) out = raise "unmatched left bracket" := by
  rw [Scanner.loopAt, find_left h, scanLoop_left S (by simp) (find_past_lt h.right (by decide)),
    if_pos (by simp)]

theorem loopAt_left (h : BracketFree txt) (hright : ']' ∈ s) :
    S.loopAt bound (n + 1) (txt ++ '[' :: '[' :: s) out =
      S.loopAt bound n s (S.onChars (txt ++ ['[']) out) := by
  have hfind : find ']' (txt ++ '[' :: '[' :: s) ≠ none := by
    rw [Ne, find_eq_none_iff]
    simp [hright]
  rw [Scanner.loopAt, find_left h, scanLoop_left S (by simp) (find_past_lt h.right (by decide)),
    if_neg (by simp), drop_past]
  simp only [deref, ok_bind, hfind, false_and, ↓reduceIte, advance_past_two, take_past,
    find_kept h.right (by decide : '[' ≠ ']')]
  rfl

theorem loopAt_leftDangling (h : BracketFree txt) (hright : ']' ∉ s) :
    S.loopAt bound (n + 1) (txt ++ '[' :: '[' :: s) out = raise "unmatched left bracket" := by
  have hfind : find ']' (txt ++ '[' :: '[' :: s) = none := by
    apply find_eq_none
    simp [h.right, hright]
  rw [Scanner.loopAt, find_left h, scanLoop_left S (by simp) (find_past_lt h.right (by decide)),
    if_neg (by simp), drop_past]
  simp only [deref, ok_bind, hfind, true_and, ↓reduceIte]

theorem loopAt_field {c : Char} (h : BracketFree txt) (hc : c ≠ '[') :
    S.loopAt bound (n + 1) (txt ++ '[' :: c :: s) out =
      S.onReplacementField bound (c :: s) (S.onChars txt out) >>= fun (pc, out) =>
        S.loopAt bound n pc out := by
  rw [Scanner.loopAt, find_left h, scanLoop_left S (by simp) (find_past_lt h.right (by decide)),
    if_neg (by simp), drop_past]
  simp only [deref, ok_bind, hc, and_false, ↓reduceIte, advance_past, List.take_left]

theorem loopAt_rightEnd (h : BracketFree txt) :
    S.loopAt bound (n + 1) (txt ++ [']']) out = raise "unmatched right bracket" := by
  rw [Scanner.loopAt, find_right h, scanLoop_right S (by simp) (find_past_lt h.left (by decide)),
    if_pos (by simp)]

theorem loopAt_right (h : BracketFree txt) :
    S.loopAt bound (n + 1) (txt ++ ']' :: ']' :: s) out =
      S.loopAt bound n s (S.onChars (txt ++ [']']) out) := by
  rw [Scanner.loopAt, find_right h, scanLoop_right S (by simp) (find_past_lt h.left (by decide)),
    if_neg (by simp), drop_past]
  simp only [deref, ok_bind, ↓reduceIte, advance_past_two, take_past,
    find_kept h.left (by decide : ']' ≠ '[')]
  rfl

theorem loopAt_rightSingle {c : Char} (h : BracketFree txt) (hc : c ≠ ']') :
    S.loopAt bound (n + 1) (txt ++ ']' :: c :: s) out = raise "unmatched right bracket" := by
  rw [Scanner.loopAt, find_right h, scanLoop_right S (by simp) (find_past_lt h.left (by decide)),
    if_neg (by simp), drop_past]
  simp only [deref, ok_bind, hc, ↓reduceIte]

end Steps

/-- A scanner that writes text as it comes, and does `emit` for a field it has parsed. -/
structure Scanner.Interprets {σ : Type} (S : Scanner σ) (emit : Colorizer → σ → σ) : Prop where
  onChars_nil : ∀ out, S.onChars [] out = out
  onChars_append : ∀ s t out, S.onChars (s ++ t) out = S.onChars t (S.onChars s out)
  colorize_eq : ∀ bound pc out, S.colorize bound pc out =
    doParse bound pc >>= fun (pc, col) => .ok (pc, emit col out)

/-- What is left of the callbacks of a scan once its positions are forgotten. -/
def Scanner.replay {σ : Type} (S : Scanner σ) (emit : Colorizer → σ → σ) :
    List Segment → σ → σ
  | [], out => out
  | .char c :: segs, out => S.replay emit segs (S.onChars [c] out)
  | .field col :: segs, out => S.replay emit segs (emit col out)

section Interprets

variable {σ : Type} {S : Scanner σ} {emit : Colorizer → σ → σ} {bound n : Nat}
  {txt s rest : List Char}

theorem BracketFree.concat {c : Char} (h : BracketFree txt) (hc : c ≠ '[' ∧ c ≠ ']') :
    BracketFree (txt ++ [c]) := by
  intro d hd
  rcases List.mem_append.mp hd with hd | hd
  · exact h d hd
  · obtain rfl : d = c := by simpa using hd
    exact hc

theorem bracketFree_nil : BracketFree [] := by
  simp [BracketFree]

theorem onReplacementField_of_fieldText (hS : S.Interprets emit) {col : Colorizer}
    (h : FieldText s col rest) (hbound : s.length < bound) (out : σ) :
    S.onReplacementField bound s out = .ok (rest, emit col out) := by
  obtain ⟨c, t, rfl, hc⟩ := fieldText_startsField h
  have hne := StartsField.ne ⟨c, t, rfl, hc⟩
  rw [Scanner.onReplacementField, deref, ok_bind, if_neg hne.2.1, hS.colorize_eq,
    doParse_of_fieldText h hbound]
  simp only [ok_bind, ↓reduceIte]

theorem fieldText_length_lt {col : Colorizer} (h : FieldText s col rest) :
    rest.length < s.length := by
  obtain ⟨body, rfl, -, -⟩ := fieldText_split h
  simp
  omega

/-- The text that has been passed but not yet given to `onChars` is `txt`. -/
theorem loopAt_of_reads (hS : S.Interprets emit) {segs : List Segment} (h : Reads s segs)
    (htxt : BracketFree txt) (hn : (txt ++ s).length < n) (hbound : (txt ++ s).length < bound)
    (out : σ) :
    S.loopAt bound n (txt ++ s) out = .ok (S.replay emit segs (S.onChars txt out)) := by
  induction h generalizing txt n out with
  | nil =>
    obtain ⟨n, rfl⟩ : ∃ m, n = m + 1 := ⟨n - 1, by omega⟩
    rw [List.append_nil, Scanner.replay]
    by_cases hne : txt = []
    · rw [hne, loopAt_nil, hS.onChars_nil]
    · exact loopAt_text S htxt hne
  | @char c s segs hc hrest ih =>
    rw [List.append_cons] at hn hbound ⊢
    rw [ih (htxt.concat hc) hn hbound, Scanner.replay, hS.onChars_append]
  | @left s segs hright hrest ih =>
    obtain ⟨n, rfl⟩ : ∃ m, n = m + 1 := ⟨n - 1, by omega⟩
    simp only [List.length_append, List.length_cons] at hn hbound
    rw [loopAt_left S htxt hright, ← List.nil_append s,
      ih bracketFree_nil (by simp; omega) (by simp; omega), hS.onChars_nil, Scanner.replay,
      hS.onChars_append]
  | @right s segs hrest ih =>
    obtain ⟨n, rfl⟩ : ∃ m, n = m + 1 := ⟨n - 1, by omega⟩
    simp only [List.length_append, List.length_cons] at hn hbound
    rw [loopAt_right S htxt, ← List.nil_append s,
      ih bracketFree_nil (by simp; omega) (by simp; omega), hS.onChars_nil, Scanner.replay,
      hS.onChars_append]
  | @field s rest col segs hfield hrest ih =>
    obtain ⟨n, rfl⟩ : ∃ m, n = m + 1 := ⟨n - 1, by omega⟩
    simp only [List.length_append, List.length_cons] at hn hbound
    have hlt := fieldText_length_lt hfield
    obtain ⟨c, t, rfl, hc⟩ := fieldText_startsField hfield
    have hne := StartsField.ne ⟨c, t, rfl, hc⟩
    have hloop := ih (n := n) bracketFree_nil (by simp; omega) (by simp; omega)
      (emit col (S.onChars txt out))
    rw [List.nil_append, hS.onChars_nil] at hloop
    rw [loopAt_field S htxt hne.1, onReplacementField_of_fieldText hS hfield (by omega), ok_bind,
      Scanner.replay]
    exact hloop

end Interprets

/-- Every scanner fails with `e`, with any text before the string still pending. -/
def Fails (s : List Char) (e : Fault) : Prop :=
  ∀ (σ : Type) (S : Scanner σ) (emit : Colorizer → σ → σ) (bound n : Nat) (txt : List Char)
    (out : σ), S.Interprets emit → BracketFree txt → (txt ++ s).length < n →
    (txt ++ s).length < bound → S.loopAt bound n (txt ++ s) out = .error e

section Fails

variable {s rest : List Char} {e : Fault}

theorem Fails.char {c : Char} (hc : c ≠ '[' ∧ c ≠ ']') (h : Fails s e) :
    Fails (c :: s) e := by
  intro σ S emit bound n txt out hS htxt hn hbound
  rw [List.append_cons] at hn hbound ⊢
  exact h σ S emit bound n (txt ++ [c]) out hS (htxt.concat hc) hn hbound

/-- After an iteration of the loop no text is pending. -/
theorem Fails.loopAt (h : Fails s e) {σ : Type} {S : Scanner σ} {emit : Colorizer → σ → σ}
    (hS : S.Interprets emit) {bound n : Nat} (hn : s.length < n) (hbound : s.length < bound)
    (out : σ) : S.loopAt bound n s out = .error e :=
  h σ S emit bound n [] out hS bracketFree_nil hn hbound

theorem Fails.left (hright : ']' ∈ s) (h : Fails s e) : Fails ('[' :: '[' :: s) e := by
  intro σ S emit bound n txt out hS htxt hn hbound
  obtain ⟨n, rfl⟩ : ∃ m, n = m + 1 := ⟨n - 1, by omega⟩
  simp only [List.length_append, List.length_cons] at hn hbound
  rw [loopAt_left S htxt hright]
  exact h.loopAt hS (by omega) (by omega) _

theorem Fails.right (h : Fails s e) : Fails (']' :: ']' :: s) e := by
  intro σ S emit bound n txt out hS htxt hn hbound
  obtain ⟨n, rfl⟩ : ∃ m, n = m + 1 := ⟨n - 1, by omega⟩
  simp only [List.length_append, List.length_cons] at hn hbound
  rw [loopAt_right S htxt]
  exact h.loopAt hS (by omega) (by omega) _

theorem Fails.field {col : Colorizer} (hfield : FieldText s col rest) (h : Fails rest e) :
    Fails ('[' :: s) e := by
  intro σ S emit bound n txt out hS htxt hn hbound
  obtain ⟨n, rfl⟩ : ∃ m, n = m + 1 := ⟨n - 1, by omega⟩
  simp only [List.length_append, List.length_cons] at hn hbound
  have hlt := fieldText_length_lt hfield
  obtain ⟨c, t, rfl, hc⟩ := fieldText_startsField hfield
  have hne := StartsField.ne ⟨c, t, rfl, hc⟩
  rw [loopAt_field S htxt hne.1, onReplacementField_of_fieldText hS hfield (by omega), ok_bind]
  exact h.loopAt hS (by omega) (by omega) _

theorem fails_leftEnd : Fails ['['] (.colorizeError "unmatched left bracket") := by
  intro σ S emit bound n txt out hS htxt hn hbound
  obtain ⟨n, rfl⟩ : ∃ m, n = m + 1 := ⟨n - 1, by omega⟩
  exact loopAt_leftEnd S htxt

theorem fails_leftDangling (h : ']' ∉ s) :
    Fails ('[' :: '[' :: s) (.colorizeError "unmatched left bracket") := by
  intro σ S emit bound n txt out hS htxt hn hbound
  obtain ⟨n, rfl⟩ : ∃ m, n = m + 1 := ⟨n - 1, by omega⟩
  exact loopAt_leftDangling S htxt h

theorem fails_right (h : ∀ s', s ≠ ']' :: s') :
    Fails (']' :: s) (.colorizeError "unmatched right bracket") := by
  intro σ S emit bound n txt out hS htxt hn hbound
  obtain ⟨n, rfl⟩ : ∃ m, n = m + 1 := ⟨n - 1, by omega⟩
  cases s with
  | nil => exact loopAt_rightEnd S htxt
  | cons c s =>
    apply loopAt_rightSingle S htxt
    rintro rfl
    exact h s rfl

theorem fails_empty : Fails ('[' :: ']' :: s) (.colorizeError "empty color specifier") := by
  intro σ S emit bound n txt out hS htxt hn hbound
  obtain ⟨n, rfl⟩ : ∃ m, n = m + 1 := ⟨n - 1, by omega⟩
  rw [loopAt_field S htxt (by decide), Scanner.onReplacementField, deref, ok_bind, if_pos rfl]
  rfl

theorem fails_field {c : Char} (hc : c ≠ '[' ∧ c ≠ ']')
    (h : ∀ bound, (c :: s).length < bound → doParse bound (c :: s) = .error e) :
    Fails ('[' :: c :: s) e := by
  intro σ S emit bound n txt out hS htxt hn hbound
  obtain ⟨n, rfl⟩ : ∃ m, n = m + 1 := ⟨n - 1, by omega⟩
  simp only [List.length_append, List.length_cons] at hn hbound
  have hparse := h bound (by simp only [List.length_cons]; omega)
  rw [loopAt_field S htxt hc.1, Scanner.onReplacementField, deref, ok_bind, if_neg hc.2,
    hS.colorize_eq, hparse, error_bind, error_bind, error_bind]

/-- A field that is not closed leads every scanner out of the string. -/
theorem fails_of_overruns (h : Overruns s) : Fails s .outOfRange := by
  induction h with
  | char hc hrest ih => exact ih.char hc
  | left hright hrest ih => exact ih.left hright
  | right hrest ih => exact ih.right
  | field hfield hrest ih => exact ih.field hfield
  | unclosed hopen =>
    obtain ⟨c, t, rfl, hc⟩ := unclosedField_startsField hopen
    have hne := StartsField.ne ⟨c, t, rfl, hc⟩
    apply fails_field ⟨hne.1, hne.2.1⟩
    intro bound hbound
    exact doParse_of_unclosed hopen hbound

end Fails

/-! What has been read before the rest of a string. -/

section Inversion

variable {s rest : List Char} {segs : List Segment}

theorem reads_char_inv {c : Char} (hc : c ≠ '[' ∧ c ≠ ']') (h : Reads (c :: s) segs) :
    ∃ segs', segs = .char c :: segs' ∧ Reads s segs' := by
  cases h with
  | char _ hrest => exact ⟨_, rfl, hrest⟩
  | left _ _ => exact absurd rfl hc.1
  | right _ => exact absurd rfl hc.2
  | field _ _ => exact absurd rfl hc.1

theorem reads_left_inv (h : Reads ('[' :: '[' :: s) segs) :
    ']' ∈ s ∧ ∃ segs', segs = .char '[' :: segs' ∧ Reads s segs' := by
  cases h with
  | char hc _ => exact absurd rfl hc.1
  | left hright hrest => exact ⟨hright, _, rfl, hrest⟩
  | field hfield _ => exact absurd rfl (fieldText_startsField hfield).ne.1

theorem reads_right_inv (h : Reads (']' :: s) segs) :
    ∃ s' segs', s = ']' :: s' ∧ segs = .char ']' :: segs' ∧ Reads s' segs' := by
  cases h with
  | char hc _ => exact absurd rfl hc.2
  | right hrest => exact ⟨_, _, rfl, rfl, hrest⟩

theorem reads_field_inv {col : Colorizer} (hfield : FieldText s col rest)
    (h : Reads ('[' :: s) segs) : ∃ segs', segs = .field col :: segs' ∧ Reads rest segs' := by
  cases h with
  | char hc _ => exact absurd rfl hc.1
  | left _ _ => exact absurd rfl (fieldText_startsField hfield).ne.1
  | field hfield' hrest =>
    obtain ⟨rfl, rfl⟩ := fieldText_unique hfield hfield'
    exact ⟨_, rfl, hrest⟩

end Inversion

/-- A string is read, or runs past its end, or every scanner throws. -/
def Settled (s : List Char) : Prop :=
  (∃ segs, Reads s segs) ∨ Overruns s ∨ ∃ what, Fails s (.colorizeError what)

/-! Each iteration of the loop leaves a string that settles the whole. -/

section Settled

variable {s rest : List Char}

theorem Settled.char {c : Char} (hc : c ≠ '[' ∧ c ≠ ']') (h : Settled s) : Settled (c :: s) := by
  rcases h with ⟨segs, h⟩ | h | ⟨what, h⟩
  · exact .inl ⟨_, .char hc h⟩
  · exact .inr (.inl (.char hc h))
  · exact .inr (.inr ⟨what, h.char hc⟩)

theorem Settled.left (h : Settled s) : Settled ('[' :: '[' :: s) := by
  by_cases hright : ']' ∈ s
  · rcases h with ⟨segs, h⟩ | h | ⟨what, h⟩
    · exact .inl ⟨_, .left hright h⟩
    · exact .inr (.inl (.left hright h))
    · exact .inr (.inr ⟨what, h.left hright⟩)
  · exact .inr (.inr ⟨_, fails_leftDangling hright⟩)

theorem Settled.right (h : Settled s) : Settled (']' :: ']' :: s) := by
  rcases h with ⟨segs, h⟩ | h | ⟨what, h⟩
  · exact .inl ⟨_, .right h⟩
  · exact .inr (.inl (.right h))
  · exact .inr (.inr ⟨what, h.right⟩)

theorem Settled.field {col : Colorizer} (hfield : FieldText s col rest) (h : Settled rest) :
    Settled ('[' :: s) := by
  rcases h with ⟨segs, h⟩ | h | ⟨what, h⟩
  · exact .inl ⟨_, .field hfield h⟩
  · exact .inr (.inl (.field hfield h))
  · exact .inr (.inr ⟨what, h.field hfield⟩)

/-- A `[` that is no escape, if what follows each field of its own is settled. -/
theorem settled_open {c : Char} (hc : c ≠ '[')
    (h : ∀ col rest, FieldText (c :: s) col rest → Settled rest) : Settled ('[' :: c :: s) := by
  by_cases hempty : c = ']'
  · subst hempty
    exact .inr (.inr ⟨_, fails_empty⟩)
  · rcases doParse_cases hempty s with ⟨col, rest, hfield⟩ | hopen | ⟨what, hthrow⟩
    · exact (h col rest hfield).field hfield
    · exact .inr (.inl (.unclosed hopen))
    · exact .inr (.inr ⟨what, fails_field ⟨hc, hempty⟩ hthrow⟩)

end Settled

theorem scan_cases (s : List Char) :
    (∃ segs, Reads s segs) ∨ Overruns s ∨ ∃ what, Fails s (.colorizeError what) := by
  change Settled s
  induction hlength : s.length using Nat.strong_induction_on generalizing s with
  | _ k ih =>
    have hshorter : ∀ t, t.length < s.length → Settled t := by
      intro t ht
      exact ih t.length (hlength ▸ ht) t rfl
    cases s with
    | nil => exact .inl ⟨[], .nil⟩
    | cons c s =>
      by_cases hleft : c = '['
      · subst hleft
        cases s with
        | nil => exact .inr (.inr ⟨_, fails_leftEnd⟩)
        | cons d s =>
          by_cases hescape : d = '['
          · subst hescape
            exact (hshorter s (by simp only [List.length_cons]; omega)).left
          · apply settled_open hescape
            intro col rest hfield
            have hlt := fieldText_length_lt hfield
            exact hshorter rest (Nat.lt_succ_of_lt hlt)
      · by_cases hright : c = ']'
        · subst hright
          by_cases hescape : ∃ s', s = ']' :: s'
          · obtain ⟨s, rfl⟩ := hescape
            exact (hshorter s (by simp only [List.length_cons]; omega)).right
          · refine .inr (.inr ⟨_, fails_right ?_⟩)
            intro s' hs
            exact hescape ⟨s', hs⟩
        · exact (hshorter s (Nat.lt_succ_self _)).char ⟨hleft, hright⟩

end YkUtil.Colorize
