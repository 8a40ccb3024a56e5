import Mathlib.Algebra.BigOperators.Group.List.Basic
import Mathlib.Algebra.Order.Group.Defs
import Mathlib.Tactic.Abel

/-!
Differences against a remembered value. Each value of a list is compared with
the one that is remembered, and takes its place unless it is dropped. What is
dropped before the end is counted again with the values behind it.
-/

namespace YkUtil.Lib.Differences

variable {G : Type*} [AddCommGroup G]

/-- What is remembered behind a value, which is kept or dropped. -/
def next (prev : G) (x : G × Bool) : G := if x.2 then x.1 else prev

def remembered (prev : G) (xs : List (G × Bool)) : G := xs.foldl next prev

def differences (prev : G) : List (G × Bool) → List G
  | [] => []
  | x :: rest => (x.1 - prev) :: differences (next prev x) rest

/-- The differences that are dropped before the last value. -/
def repeated (prev : G) : List (G × Bool) → G
  | [] | [_] => 0
  | x :: y :: rest => (x.1 - next prev x) + repeated (next prev x) (y :: rest)

def final (xs : List (G × Bool)) : G := (xs.map Prod.fst).getLastD 0

theorem sum_differences (prev : G) (x : G × Bool) (xs : List (G × Bool)) :
    (differences prev (x :: xs)).sum = final (x :: xs) - prev + repeated prev (x :: xs) := by
  induction xs generalizing prev x with
  | nil => simp [differences, repeated, final]
  | cons y rest ih =>
      have hlast : final (x :: y :: rest) = final (y :: rest) := by simp [final]
      rw [differences, List.sum_cons, ih, repeated, hlast]
      abel

variable [PartialOrder G] [IsOrderedAddMonoid G]

/-- Where the values never decrease, only the first difference can be negative. -/
theorem differences_nonneg_iff (prev : G) (x : G × Bool) (xs : List (G × Bool))
    (hmono : ((x :: xs).map Prod.fst).Pairwise (· ≤ ·)) :
    (∀ d ∈ differences prev (x :: xs), 0 ≤ d) ↔ prev ≤ x.1 := by
  constructor
  · intro hall
    exact sub_nonneg.mp (hall _ List.mem_cons_self)
  · intro hle
    induction xs generalizing prev x with
    | nil =>
        intro d hd
        rw [differences, differences, List.mem_singleton] at hd
        rw [hd]
        exact sub_nonneg.mpr hle
    | cons y rest ih =>
        intro d hd
        rw [List.map_cons, List.pairwise_cons] at hmono
        rcases List.mem_cons.mp hd with rfl | hd
        · exact sub_nonneg.mpr hle
        · have hxy : x.1 ≤ y.1 := hmono.1 y.1 (by simp)
          have hnext : next prev x ≤ y.1 := by
            unfold next
            split
            · exact hxy
            · exact hle.trans hxy
          exact ih (next prev x) y hmono.2 hnext d hd

end YkUtil.Lib.Differences
