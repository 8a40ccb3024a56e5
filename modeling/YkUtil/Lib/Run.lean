import Mathlib.Data.List.Basic

/-!
Leading runs. Every list starts with a run of any given element, perhaps of length
zero, and the length of the run and what follows it are determined by the list.
-/

namespace YkUtil.Lib

variable {α : Type*} {b : α}

/-- `s` is `b` repeated `n` times, and then `t`, which does not go on with `b`. -/
structure Run (b : α) (s : List α) (n : Nat) (t : List α) : Prop where
  eq : s = List.replicate n b ++ t
  stop : t.head? ≠ some b

namespace Run

variable {s t q : List α} {n : Nat}

theorem zero (h : s.head? ≠ some b) : Run b s 0 s :=
  ⟨rfl, h⟩

theorem eq_of_zero (h : Run b s 0 t) : s = t := h.eq

theorem cons (h : Run b s n t) : Run b (b :: s) (n + 1) t :=
  ⟨by rw [h.eq]; rfl, h.stop⟩

theorem tail (h : Run b s (n + 1) t) : ∃ s', s = b :: s' ∧ Run b s' n t :=
  ⟨_, h.eq, rfl, h.stop⟩

theorem exists_run [DecidableEq α] (b : α) (s : List α) : ∃ n t, Run b s n t := by
  induction s with
  | nil => exact ⟨0, [], zero (by simp)⟩
  | cons c s ih =>
    by_cases hc : c = b
    · subst hc
      obtain ⟨n, t, h⟩ := ih
      exact ⟨n + 1, t, h.cons⟩
    · exact ⟨0, c :: s, zero (by simpa using hc)⟩

theorem unique {n' : Nat} {t' : List α} (h : Run b s n t) (h' : Run b s n' t') :
    n = n' ∧ t = t' := by
  induction n generalizing s n' with
  | zero =>
    cases n' with
    | zero => exact ⟨rfl, h.eq.symm.trans h'.eq⟩
    | succ n' =>
      obtain ⟨s', rfl, -⟩ := h'.tail
      have ht : b :: s' = t := h.eq
      exact absurd (congrArg List.head? ht).symm h.stop
  | succ n ih =>
    obtain ⟨s', rfl, hs⟩ := h.tail
    cases n' with
    | zero =>
      have ht : b :: s' = t' := h'.eq
      exact absurd (congrArg List.head? ht).symm h'.stop
    | succ n' =>
      obtain ⟨s'', heq, hs'⟩ := h'.tail
      obtain ⟨-, rfl⟩ := List.cons.inj heq
      obtain ⟨rfl, rfl⟩ := ih hs hs'
      exact ⟨rfl, rfl⟩

/-- A run goes on behind a list that is nothing else. -/
theorem append (hq : Run b q n []) {m : Nat} (h : Run b s m t) : Run b (q ++ s) (n + m) t := by
  refine ⟨?_, h.stop⟩
  rw [hq.eq, h.eq, List.append_nil, List.replicate_add, List.append_assoc]

/-- What ends the run of a list ends it in front of any other. -/
theorem append_right (hq : Run b q n t) (hne : t ≠ []) (s : List α) :
    Run b (q ++ s) n (t ++ s) := by
  refine ⟨by rw [hq.eq, List.append_assoc], ?_⟩
  cases t with
  | nil => exact absurd rfl hne
  | cons c t => exact hq.stop

end Run

end YkUtil.Lib
