import Mathlib.Data.List.Basic

/-!
`std::views::split` by a pattern. A part ends where the pattern first occurs, and the
next one starts after it; a pattern at the end leaves an empty part behind it, an empty
range has no parts, and an empty pattern makes a part of each element.
-/

namespace YkUtil.Lib

variable {α : Type*} [DecidableEq α]

/-- Where the pattern first occurs, as `std::ranges::search` finds it. -/
def search (pattern : List α) : List α → Option Nat
  | [] => if pattern = [] then some 0 else none
  | c :: s => if pattern.isPrefixOf (c :: s) then some 0 else (search pattern s).map (· + 1)

/-- Where the part at the start of `s` ends, and where the next one starts. -/
def findNext (pattern s : List α) : Nat × Nat :=
  match search pattern s with
  | none => (s.length, s.length)
  | some b => if pattern = [] ∧ b ≠ s.length then (b + 1, b + 1) else (b, b + pattern.length)

/-- The parts from an iterator on. It is not at the end of the range, so that there are
at most as many parts as the range has elements, and one more. -/
def splitFrom (pattern : List α) : Nat → List α → List (List α)
  | 0, _ => []
  | bound + 1, s =>
    let next := findNext pattern s
    s.take next.1 ::
      if next.1 = s.length then []
      else if next.2 = s.length then [[]]
      else splitFrom pattern bound (s.drop next.2)

def splitView (pattern s : List α) : List (List α) :=
  if s = [] then [] else splitFrom pattern s.length s

/-- A text that can stand before the pattern, which does not occur earlier. -/
def Separable (pattern text : List α) : Prop :=
  text ≠ [] ∧ search pattern (text ++ pattern) = some text.length

section Search

variable {pattern s text rest : List α}

theorem search_eq_some_iff {n : Nat} : search pattern s = some n ↔
    n ≤ s.length ∧ pattern <+: s.drop n ∧ ∀ m < n, ¬ pattern <+: s.drop m := by
  induction s generalizing n with
  | nil =>
      simp only [search, Option.ite_none_right_eq_some, Option.some.injEq, List.length_nil,
        List.drop_nil, List.prefix_nil, Nat.le_zero]
      constructor
      · rintro ⟨hpattern, rfl⟩
        exact ⟨rfl, hpattern, fun m hm => absurd hm (Nat.not_lt_zero m)⟩
      · rintro ⟨rfl, hpattern, -⟩
        exact ⟨hpattern, rfl⟩
  | cons c s ih =>
      rw [search]
      by_cases hhere : pattern <+: c :: s
      · rw [if_pos (List.isPrefixOf_iff_prefix.mpr hhere), Option.some.injEq]
        constructor
        · rintro rfl
          exact ⟨Nat.zero_le _, hhere, fun m hm => absurd hm (Nat.not_lt_zero m)⟩
        · rintro ⟨-, -, hfirst⟩
          by_contra hne
          exact hfirst 0 (by omega) hhere
      · rw [if_neg (fun h => hhere (List.isPrefixOf_iff_prefix.mp h)), Option.map_eq_some_iff]
        constructor
        · rintro ⟨k, hk, rfl⟩
          obtain ⟨hle, hoccurs, hfirst⟩ := ih.mp hk
          refine ⟨Nat.succ_le_succ hle, hoccurs, fun m hm => ?_⟩
          cases m with
          | zero => exact hhere
          | succ m => exact hfirst m (by omega)
        · rintro ⟨hle, hoccurs, hfirst⟩
          cases n with
          | zero => exact absurd hoccurs hhere
          | succ n =>
              refine ⟨n, ih.mpr ⟨Nat.le_of_succ_le_succ hle, hoccurs, fun m hm => ?_⟩, rfl⟩
              exact hfirst (m + 1) (by omega)

theorem Separable.pattern_ne_nil (h : Separable pattern text) : pattern ≠ [] := by
  rintro rfl
  have hempty := (search_eq_some_iff.mp h.2).2.2 0 (List.length_pos_iff.mpr h.1)
  exact hempty List.nil_prefix

/-- What follows the pattern makes no difference. -/
theorem Separable.search_append (h : Separable pattern text) (rest : List α) :
    search pattern (text ++ (pattern ++ rest)) = some text.length := by
  obtain ⟨-, -, hfirst⟩ := search_eq_some_iff.mp h.2
  refine search_eq_some_iff.mpr ⟨by simp, ?_, fun m hm hoccurs => hfirst m hm ?_⟩
  · rw [List.drop_left]
    exact List.prefix_append pattern rest
  · rw [← List.append_assoc, List.drop_append_of_le_length (by simp; omega)] at hoccurs
    exact List.prefix_of_prefix_length_le hoccurs (List.prefix_append _ _) (by simp; omega)

theorem Separable.search_eq_none (h : Separable pattern text) : search pattern text = none := by
  obtain ⟨-, -, hfirst⟩ := search_eq_some_iff.mp h.2
  rw [Option.eq_none_iff_forall_ne_some]
  intro n hn
  obtain ⟨hle, hoccurs, -⟩ := search_eq_some_iff.mp hn
  have hlength := hoccurs.length_le
  have hpattern := List.length_pos_iff.mpr h.pattern_ne_nil
  rw [List.length_drop] at hlength
  refine hfirst n (by omega) ?_
  rw [List.drop_append_of_le_length hle]
  exact hoccurs.trans (List.prefix_append _ _)

end Search

section Join

variable {pattern text : List α} {texts : List (List α)}

theorem splitFrom_last (h : Separable pattern text) (bound : Nat) :
    splitFrom pattern (bound + 1) text = [text] := by
  simp [splitFrom, findNext, h.search_eq_none]

theorem splitFrom_more (h : Separable pattern text) {rest : List α} (hrest : rest ≠ [])
    (bound : Nat) : splitFrom pattern (bound + 1) (text ++ (pattern ++ rest)) =
      text :: splitFrom pattern bound rest := by
  have hpattern := List.length_pos_iff.mpr h.pattern_ne_nil
  have hlength := List.length_pos_iff.mpr hrest
  have hnext : findNext pattern (text ++ (pattern ++ rest)) =
      (text.length, text.length + pattern.length) := by
    rw [findNext, h.search_append]
    exact if_neg fun hempty => h.pattern_ne_nil hempty.1
  have hdrop : (text ++ (pattern ++ rest)).drop (text.length + pattern.length) = rest := by
    rw [← List.append_assoc, ← List.length_append, List.drop_left]
  rw [splitFrom, hnext]
  simp only [List.take_left, hdrop, List.length_append]
  rw [if_neg (by omega), if_neg (by omega)]

theorem joined_ne_nil (h : ∀ text ∈ texts, Separable pattern text) (hne : texts ≠ []) :
    pattern.intercalate texts ≠ [] := by
  cases texts with
  | nil => exact absurd rfl hne
  | cons text texts =>
      have htext := (h text List.mem_cons_self).1
      cases texts with
      | nil => simpa using htext
      | cons text' texts =>
          rw [List.intercalate_cons_cons, List.append_assoc]
          exact List.append_ne_nil_of_left_ne_nil htext _

theorem splitFrom_joined (h : ∀ text ∈ texts, Separable pattern text) (hne : texts ≠ [])
    {bound : Nat} (hbound : texts.length ≤ bound) :
    splitFrom pattern bound (pattern.intercalate texts) = texts := by
  induction texts generalizing bound with
  | nil => exact absurd rfl hne
  | cons text texts ih =>
      obtain ⟨bound, rfl⟩ : ∃ k, bound = k + 1 := ⟨bound - 1, by simp at hbound; omega⟩
      have htext := h text List.mem_cons_self
      cases texts with
      | nil =>
          rw [List.intercalate_singleton]
          exact splitFrom_last htext bound
      | cons text' texts =>
          have hmore : ∀ t ∈ text' :: texts, Separable pattern t := fun t ht =>
            h t (List.mem_cons_of_mem _ ht)
          rw [List.intercalate_cons_cons, List.append_assoc,
            splitFrom_more htext (joined_ne_nil hmore (List.cons_ne_nil _ _)),
            ih hmore (List.cons_ne_nil _ _) (Nat.le_of_succ_le_succ hbound)]

theorem length_le_joined (h : ∀ text ∈ texts, Separable pattern text) :
    texts.length ≤ (pattern.intercalate texts).length := by
  induction texts with
  | nil => exact Nat.zero_le _
  | cons text texts ih =>
      have hone := List.length_pos_iff.mpr (h text List.mem_cons_self).1
      have hmore := ih fun t ht => h t (List.mem_cons_of_mem _ ht)
      cases texts with
      | nil =>
          rw [List.intercalate_singleton]
          exact hone
      | cons text' texts =>
          rw [List.intercalate_cons_cons, List.length_append, List.length_append]
          rw [List.length_cons]
          omega

/-- Texts that were joined with the pattern are the parts, also when there are none. -/
theorem splitView_joined (h : ∀ text ∈ texts, Separable pattern text) :
    splitView pattern (pattern.intercalate texts) = texts := by
  by_cases hne : texts = []
  · rw [hne, List.intercalate_nil]
    rfl
  · rw [splitView, if_neg (joined_ne_nil h hne), splitFrom_joined h hne (length_le_joined h)]

end Join

end YkUtil.Lib
