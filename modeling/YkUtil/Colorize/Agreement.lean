import YkUtil.Colorize.Scan

/-!
The three scanners and the output iterators on one string. All of them read the
same segments, so that they succeed on the same strings, and their outputs differ
in what is written for a segment and in what is kept of a character written.
-/

namespace YkUtil.Colorize

open YkUtil.Lib.Outcome

def Segment.plain : Segment → List Char
  | .char c => [c]
  | .field _ => []

def Segment.colored : Segment → List Char
  | .char c => [c]
  | .field col => col.colorize

theorem colored_chars (txt : List Char) (segs : List Segment) :
    (txt.map Segment.char ++ segs).flatMap Segment.colored =
      txt ++ segs.flatMap Segment.colored := by
  rw [List.flatMap_append, List.flatMap_map]
  exact congrArg (· ++ segs.flatMap Segment.colored) (List.flatMap_singleton' txt)

/-! The scanners, each by what it does with a segment. -/

section Scanners

variable {ω : Type} {it : OutputIterator ω}

theorem checkingScanner_interprets : checkingScanner.Interprets fun _ out => out where
  onChars_nil _ := rfl
  onChars_append _ _ _ := rfl
  colorize_eq _ _ _ := rfl

theorem noopScanner_interprets : (noopScanner it).Interprets fun _ out => out where
  onChars_nil _ := rfl
  onChars_append _ _ _ := List.foldl_append
  colorize_eq _ _ _ := rfl

theorem colorizingScanner_interprets :
    (colorizingScanner it).Interprets fun col out => it.copy col.colorize out where
  onChars_nil _ := rfl
  onChars_append _ _ _ := List.foldl_append
  colorize_eq _ _ _ := rfl

theorem OutputIterator.copy_append (s t : List Char) (out : ω) :
    it.copy (s ++ t) out = it.copy t (it.copy s out) :=
  List.foldl_append

/-- A scanner that copies something for each segment copies all of it. -/
theorem replay_eq_copy {S : Scanner ω} {emit : Colorizer → ω → ω} (write : Segment → List Char)
    (hchar : ∀ c out, S.onChars [c] out = it.copy (write (.char c)) out)
    (hfield : ∀ col out, emit col out = it.copy (write (.field col)) out)
    (segs : List Segment) (out : ω) :
    S.replay emit segs out = it.copy (segs.flatMap write) out := by
  induction segs generalizing out with
  | nil => rfl
  | cons seg segs ih =>
    rw [List.flatMap_cons, it.copy_append]
    cases seg with
    | char c => rw [Scanner.replay, hchar, ih]
    | field col => rw [Scanner.replay, hfield, ih]

theorem noopScanner_replay (segs : List Segment) (out : ω) :
    (noopScanner it).replay (fun _ out => out) segs out =
      it.copy (segs.flatMap Segment.plain) out :=
  replay_eq_copy Segment.plain (fun _ _ => rfl) (fun _ _ => rfl) segs out

theorem colorizingScanner_replay (segs : List Segment) (out : ω) :
    (colorizingScanner it).replay (fun col out => it.copy col.colorize out) segs out =
      it.copy (segs.flatMap Segment.colored) out :=
  replay_eq_copy Segment.colored (fun _ _ => rfl) (fun _ _ => rfl) segs out

end Scanners

/-! What the output iterators make of the characters written. -/

theorem backInserter_copy (s out : List Char) : backInserter.copy s out = out ++ s := by
  induction s generalizing out with
  | nil => exact (List.append_nil out).symm
  | cons c s ih => exact (ih (out ++ [c])).trans (List.append_cons out c s).symm

theorem countingIterator_copy (s : List Char) (count : Nat) :
    countingIterator.copy s count = count + s.length := by
  induction s generalizing count with
  | nil => rfl
  | cons c s ih =>
    rw [List.length_cons, ← Nat.add_assoc, Nat.add_right_comm]
    exact ih (count + 1)

/-- As long as there is room, each character goes to its place. -/
theorem arrayIterator_copy (s before after : List Char) (h : s.length ≤ after.length) :
    arrayIterator.copy s ⟨before ++ after, before.length, false⟩ =
      ⟨before ++ s ++ after.drop s.length, before.length + s.length, false⟩ := by
  induction s generalizing before after with
  | nil => simp [OutputIterator.copy]
  | cons c s ih =>
    cases after with
    | nil => simp at h
    | cons d after =>
      have hroom : s.length ≤ after.length := by simpa using h
      have hput : arrayIterator.put ⟨before ++ d :: after, before.length, false⟩ c =
          ⟨(before ++ [c]) ++ after, (before ++ [c]).length, false⟩ := by
        simp [arrayIterator]
      have hcopy := ih (before ++ [c]) after hroom
      rw [OutputIterator.copy, List.foldl_cons, hput]
      rw [OutputIterator.copy] at hcopy
      rw [hcopy]
      simp
      omega

section Runs

variable {ω : Type} {it : OutputIterator ω} {out : ω} {str : List Char} {segs : List Segment}

theorem checkString_of_reads (h : Reads str segs) : checkString str = .ok () :=
  loopAt_of_reads checkingScanner_interprets h bracketFree_nil (Nat.lt_succ_self _)
    (Nat.lt_succ_self _) ()

theorem colorizeTo_of_reads (h : Reads str segs) :
    colorizeTo it out {} str = .ok (it.copy (segs.flatMap Segment.colored) out) := by
  rw [← colorizingScanner_replay]
  exact loopAt_of_reads colorizingScanner_interprets h bracketFree_nil (Nat.lt_succ_self _)
    (Nat.lt_succ_self _) out

theorem colorizeTo_plain_of_reads (h : Reads str segs) :
    colorizeTo it out ⟨false⟩ str = .ok (it.copy (segs.flatMap Segment.plain) out) := by
  rw [← noopScanner_replay]
  exact loopAt_of_reads noopScanner_interprets h bracketFree_nil (Nat.lt_succ_self _)
    (Nat.lt_succ_self _) out

theorem colorize_of_reads (h : Reads str segs) :
    colorize {} str = .ok (segs.flatMap Segment.colored) := by
  rw [colorize, colorizeTo_of_reads h, backInserter_copy, List.nil_append]

theorem colorizedSize_of_reads (h : Reads str segs) :
    colorizedSize str = .ok (segs.flatMap Segment.colored).length := by
  rw [colorizedSize, colorizeTo_of_reads h, countingIterator_copy, Nat.zero_add]

theorem staticColorizeString_of_reads (h : Reads str segs) :
    staticColorizeString str = .ok ⟨segs.flatMap Segment.colored ++ ['\x00'],
      (segs.flatMap Segment.colored).length, false⟩ := by
  have hcopy := arrayIterator_copy (segs.flatMap Segment.colored) []
    (List.replicate ((segs.flatMap Segment.colored).length + 1) '\x00') (by simp)
  rw [staticColorizeString, colorizedSize_of_reads h, ok_bind, colorizeTo_of_reads h]
  simpa using hcopy

theorem checkString_of_fails {e : Fault} (h : Fails str e) : checkString str = .error e :=
  h.loopAt checkingScanner_interprets (Nat.lt_succ_self _) (Nat.lt_succ_self _) ()

theorem colorizeTo_of_fails {e : Fault} (h : Fails str e) (cfg : ColorizeConfig) :
    colorizeTo it out cfg str = .error e := by
  rw [colorizeTo]
  split
  · exact h.loopAt colorizingScanner_interprets (Nat.lt_succ_self _) (Nat.lt_succ_self _) out
  · exact h.loopAt noopScanner_interprets (Nat.lt_succ_self _) (Nat.lt_succ_self _) out

end Runs

/-- A string is rejected by all scanners with the same failure, or accepted by
all. Then it has segments of which the coloured output is the characters and the
sequences of the fields, and the plain output is the characters alone; the size is
that of the coloured output, and the array of that size is filled to its end. -/
theorem scanners_agree (str : List Char) :
    (∃ e, e ≠ .unfinished ∧ checkString str = .error e ∧ colorize ⟨false⟩ str = .error e ∧
      colorize ⟨true⟩ str = .error e ∧ colorizedSize str = .error e ∧
      staticColorizeString str = .error e) ∨
    ∃ segs, Reads str segs ∧ checkString str = .ok () ∧
      colorize ⟨false⟩ str = .ok (segs.flatMap Segment.plain) ∧
      colorize ⟨true⟩ str = .ok (segs.flatMap Segment.colored) ∧
      colorizedSize str = .ok (segs.flatMap Segment.colored).length ∧
      staticColorizeString str = .ok ⟨segs.flatMap Segment.colored ++ ['\x00'],
        (segs.flatMap Segment.colored).length, false⟩ := by
  have hfails : ∀ e, Fails str e → checkString str = .error e ∧ colorize ⟨false⟩ str = .error e ∧
      colorize ⟨true⟩ str = .error e ∧ colorizedSize str = .error e ∧
      staticColorizeString str = .error e := by
    intro e h
    have hsize : colorizedSize str = .error e := colorizeTo_of_fails h _
    refine ⟨checkString_of_fails h, colorizeTo_of_fails h _, colorizeTo_of_fails h _, hsize, ?_⟩
    rw [staticColorizeString, hsize, error_bind]
  rcases scan_cases str with ⟨segs, h⟩ | h | ⟨what, h⟩
  · refine .inr ⟨segs, h, checkString_of_reads h, ?_, colorize_of_reads h,
      colorizedSize_of_reads h, staticColorizeString_of_reads h⟩
    rw [colorize, colorizeTo_plain_of_reads h, backInserter_copy, List.nil_append]
  · exact .inl ⟨_, by simp, hfails _ (fails_of_overruns h)⟩
  · exact .inl ⟨_, by simp, hfails _ h⟩

example : colorizedSize "[red]foo".toList = .ok 18 := by decide +kernel

/-! A markup string that another one is appended to. -/

section Append

variable {s t rest : List Char} {segs segs' : List Segment}

theorem fieldText_append {col : Colorizer} (h : FieldText s col rest) (t : List Char) :
    FieldText (s ++ t) col (rest ++ t) := by
  obtain ⟨body, rfl, -, hany⟩ := fieldText_split h
  rw [List.append_assoc]
  exact hany (rest ++ t)

theorem Reads.append (h : Reads s segs) (h' : Reads t segs') : Reads (s ++ t) (segs ++ segs') := by
  induction h with
  | nil => exact h'
  | char hc hrest ih => exact .char hc ih
  | left hright hrest ih => exact .left (List.mem_append_left t hright) ih
  | right hrest ih => exact .right ih
  | field hfield hrest ih => exact .field (fieldText_append hfield t) ih

theorem Fails.after {e : Fault} (h : Fails t e) (hreads : Reads s segs) : Fails (s ++ t) e := by
  induction hreads with
  | nil => exact h
  | char hc hrest ih => exact ih.char hc
  | left hright hrest ih => exact ih.left (List.mem_append_left t hright)
  | right hrest ih => exact ih.right
  | field hfield hrest ih => exact ih.field (fieldText_append hfield t)

/-- What is written for the segments of a string, with or without colours. -/
theorem exists_write (cfg : ColorizeConfig) : ∃ write : Segment → List Char,
    ∀ {ω : Type} (it : OutputIterator ω) (out : ω) {str : List Char} {segs : List Segment},
      Reads str segs → colorizeTo it out cfg str = .ok (it.copy (segs.flatMap write) out) := by
  obtain ⟨needColor⟩ := cfg
  cases needColor
  · exact ⟨Segment.plain, fun it out _ _ h => colorizeTo_plain_of_reads h⟩
  · exact ⟨Segment.colored, fun it out _ _ h => colorizeTo_of_reads h⟩

/-- For every output iterator, with or without colours: where a string is accepted, what
is appended to it is written after it, or fails, as it would on its own. So markup
strings that are accepted can be put together. -/
theorem colorizeTo_append {ω : Type} (it : OutputIterator ω) (out out' : ω)
    (cfg : ColorizeConfig) (s t : List Char) (h : colorizeTo it out cfg s = .ok out') :
    colorizeTo it out cfg (s ++ t) = colorizeTo it out' cfg t := by
  obtain ⟨write, hwrite⟩ := exists_write cfg
  have hreads : ∃ segs, Reads s segs := by
    rcases scan_cases s with hreads | hover | ⟨what, hthrow⟩
    · exact hreads
    · cases h.symm.trans (colorizeTo_of_fails (fails_of_overruns hover) cfg)
    · cases h.symm.trans (colorizeTo_of_fails hthrow cfg)
  obtain ⟨segs, hreads⟩ := hreads
  obtain rfl := Except.ok.inj ((hwrite it out hreads).symm.trans h)
  have hfails {e : Fault} (hfail : Fails t e) : colorizeTo it out cfg (s ++ t) =
      colorizeTo it (it.copy (segs.flatMap write) out) cfg t := by
    rw [colorizeTo_of_fails (hfail.after hreads) cfg, colorizeTo_of_fails hfail cfg]
  rcases scan_cases t with ⟨segs', hreads'⟩ | hover | ⟨what, hthrow⟩
  · rw [hwrite it out (hreads.append hreads'), hwrite it _ hreads', List.flatMap_append,
      OutputIterator.copy_append]
  · exact hfails (fails_of_overruns hover)
  · exact hfails hthrow

/-- The text appended to a field fails on its own. -/
theorem colorizeTo_append_field :
    colorizeTo countingIterator 0 {} ("[red]".toList ++ "foo]".toList) =
      colorizeTo countingIterator 15 {} "foo]".toList :=
  colorizeTo_append countingIterator 0 15 {} "[red]".toList "foo]".toList (by decide +kernel)

end Append

end YkUtil.Colorize
