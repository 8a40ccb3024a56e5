import YkUtil.Colorize.Agreement

/-!
Whether a scan keeps to its string. Every loop iteration moves the position
forward, so that a scan of `n` characters ends within `n + 1` iterations of either
loop. It ends by returning or by throwing `colorize_error`, except that a field
without its closing bracket lets the position go past the end: `it += npos` after
its last specifier, or a delimiter read after the last number of an `rgb(`.
-/

namespace YkUtil.Colorize

/-- The scan has returned, or has thrown `colorize_error`. -/
def Ends {α : Type} (r : Parse α) : Prop :=
  (∃ a, r = .ok a) ∨ ∃ what, r = .error (.colorizeError what)

instance {α : Type} (r : Parse α) : Decidable (Ends r) :=
  match r with
  | .ok a => .isTrue (.inl ⟨a, rfl⟩)
  | .error (.colorizeError what) => .isTrue (.inr ⟨what, rfl⟩)
  | .error .outOfRange => .isFalse (by simp [Ends])
  | .error .unfinished => .isFalse (by simp [Ends])

section Interprets

variable {σ : Type} {S : Scanner σ} {emit : Colorizer → σ → σ} {str : List Char} {bound : Nat}

theorem scan_outOfRange_iff (hS : S.Interprets emit) (hbound : str.length < bound) (out : σ) :
    S.scan bound str out = .error .outOfRange ↔ Overruns str := by
  constructor
  · intro h
    rcases scan_cases str with ⟨segs, hreads⟩ | hover | ⟨what, hthrow⟩
    · have hok := loopAt_of_reads hS hreads bracketFree_nil hbound hbound out
      cases h.symm.trans hok
    · exact hover
    · have herror := hthrow.loopAt hS hbound hbound out
      cases h.symm.trans herror
  · intro hover
    exact (fails_of_overruns hover).loopAt hS hbound hbound out

theorem scan_ne_unfinished (hS : S.Interprets emit) (hbound : str.length < bound) (out : σ) :
    S.scan bound str out ≠ .error .unfinished := by
  intro h
  rcases scan_cases str with ⟨segs, hreads⟩ | hover | ⟨what, hthrow⟩
  · have hok := loopAt_of_reads hS hreads bracketFree_nil hbound hbound out
    cases h.symm.trans hok
  · have herror := (scan_outOfRange_iff hS hbound out).mpr hover
    cases h.symm.trans herror
  · have herror := hthrow.loopAt hS hbound hbound out
    cases h.symm.trans herror

theorem ends_scan_iff (hS : S.Interprets emit) (hbound : str.length < bound) (out : σ) :
    Ends (S.scan bound str out) ↔ ¬ Overruns str := by
  have hrange := scan_outOfRange_iff hS hbound out
  have hended := scan_ne_unfinished hS hbound out
  rw [← hrange]
  cases hr : S.scan bound str out with
  | ok a => simp [Ends]
  | error e =>
    cases e with
    | colorizeError what => simp [Ends]
    | outOfRange => simp [Ends]
    | unfinished => exact absurd hr hended

end Interprets

/-- Exactly the strings that stop inside a field, with every specifier so far valid
or an `rgb(` cut off after a number, lead a scanner out of the string. All others
end in each scanner within an iteration for each character and one more. -/
theorem scanners_end_iff {ω : Type} (it : OutputIterator ω) (out : ω) (str : List Char)
    {bound : Nat} (hbound : str.length < bound) :
    (Ends (checkingScanner.scan bound str ()) ↔ ¬ Overruns str) ∧
      (Ends ((noopScanner it).scan bound str out) ↔ ¬ Overruns str) ∧
      (Ends ((colorizingScanner it).scan bound str out) ↔ ¬ Overruns str) :=
  ⟨ends_scan_iff checkingScanner_interprets hbound (),
    ends_scan_iff noopScanner_interprets hbound out,
    ends_scan_iff colorizingScanner_interprets hbound out⟩

theorem scanners_end_iff_red :
    (Ends (checkingScanner.scan 5 "[red".toList ()) ↔ ¬ Overruns "[red".toList) ∧
      (Ends ((noopScanner backInserter).scan 5 "[red".toList []) ↔ ¬ Overruns "[red".toList) ∧
      (Ends ((colorizingScanner backInserter).scan 5 "[red".toList []) ↔
        ¬ Overruns "[red".toList) :=
  scanners_end_iff backInserter [] "[red".toList (by decide)

/-- The field is not closed, and both of its specifiers are valid. -/
theorem unclosed_field_overruns :
    ¬ ∀ (str : List Char) (bound : Nat), str.length < bound →
      Ends (checkingScanner.scan bound str ()) := by
  intro h
  exact absurd (h "[bold|faint".toList 12 (by decide)) (by decide +kernel)

end YkUtil.Colorize
