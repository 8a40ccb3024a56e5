import Mathlib.Data.List.Basic

/-!
A list of lists read as one list. A place is named by the index of a segment
and an offset in it; `before` says how far into the whole list the segment
starts.
-/

namespace YkUtil.Lib.Segments

universe u v

variable {α : Type u}

def before (segments : List (List α)) (i : Nat) : Nat :=
  (segments.take i).flatten.length

@[simp] theorem before_zero (segments : List (List α)) : before segments 0 = 0 := rfl

theorem before_succ (segments : List (List α)) (i : Nat) :
    before segments (i + 1) = before segments i + (segments.getD i []).length := by
  unfold before
  rw [List.take_add_one, List.flatten_append, List.length_append, List.getD_eq_getElem?_getD]
  cases segments[i]? with
  | none => rfl
  | some segment => simp

theorem before_le_succ (segments : List (List α)) (i : Nat) :
    before segments i ≤ before segments (i + 1) := by
  rw [before_succ]
  exact Nat.le_add_right _ _

theorem before_mono (segments : List (List α)) {i j : Nat} (h : i ≤ j) :
    before segments i ≤ before segments j := by
  induction h with
  | refl => exact Nat.le_refl _
  | step _ ih => exact Nat.le_trans ih (before_le_succ segments _)

theorem before_length (segments : List (List α)) :
    before segments segments.length = segments.flatten.length := by
  rw [before, List.take_length]

theorem before_map {β : Type v} (f : α → β) (segments : List (List α)) (i : Nat) :
    before (segments.map (List.map f)) i = before segments i := by
  unfold before
  rw [← List.map_take, ← List.map_flatten, List.length_map]

/-- The element at a place of the whole list, counted through the segments. -/
theorem getElem?_flatten (segments : List (List α)) (i offset : Nat)
    (h : offset < (segments.getD i []).length) :
    segments.flatten[before segments i + offset]? = (segments.getD i [])[offset]? := by
  have hi : i < segments.length := by
    by_contra hout
    rw [List.getD_eq_getElem?_getD, List.getElem?_eq_none (Nat.le_of_not_lt hout)] at h
    exact absurd h (Nat.not_lt_zero _)
  have hget : segments.getD i [] = segments[i] := by
    rw [List.getD_eq_getElem?_getD, List.getElem?_eq_getElem hi]
    rfl
  have hsplit : segments.flatten =
      (segments.take i).flatten ++ (segments[i] ++ (segments.drop (i + 1)).flatten) := by
    calc segments.flatten
        = (segments.take i ++ segments[i] :: segments.drop (i + 1)).flatten := by
          rw [List.getElem_cons_drop, List.take_append_drop]
      _ = _ := by rw [List.flatten_append, List.flatten_cons]
  rw [hget] at h ⊢
  rw [hsplit, before, List.getElem?_append_right (Nat.le_add_right _ _), Nat.add_sub_cancel_left,
    List.getElem?_append_left h]

end YkUtil.Lib.Segments
