import Mathlib.Order.Lattice
import YkUtil.Lib.ThreeWay

/-!
The comparison of values of an indexed family: the smaller index first, and two values of
one index as that index compares them. It has the laws of an ordering exactly when the
comparison at each index has them.
-/

namespace YkUtil.Lib.ThreeWay

universe v

variable {ι : Type} [LinearOrder ι] {El : ι → Type v} (cmp : (i : ι) → El i → El i → Verdict)

def indexed (x y : Σ i, El i) : Verdict :=
  if h : x.1 = y.1 then cmp y.1 (h ▸ x.2) y.2
  else if x.1 < y.1 then .less
  else .greater

variable {cmp} {i j : ι}

@[simp] theorem indexed_same (a b : El i) : indexed cmp ⟨i, a⟩ ⟨i, b⟩ = cmp i a b := by
  simp [indexed]

theorem indexed_of_lt (h : i < j) (a : El i) (b : El j) : indexed cmp ⟨i, a⟩ ⟨j, b⟩ = .less := by
  simp [indexed, ne_of_lt h, h]

theorem indexed_of_gt (h : j < i) (a : El i) (b : El j) :
    indexed cmp ⟨i, a⟩ ⟨j, b⟩ = .greater := by
  simp [indexed, ne_of_gt h, not_lt_of_gt h]

/-- Two values that differ in the index are never taken for one another. -/
theorem eq_of_indexed_equivalent {a : El i} {b : El j}
    (h : indexed cmp ⟨i, a⟩ ⟨j, b⟩ = .equivalent) : i = j := by
  rcases lt_trichotomy i j with hlt | heq | hgt
  · rw [indexed_of_lt hlt] at h
    cases h
  · exact heq
  · rw [indexed_of_gt hgt] at h
    cases h

theorem le_of_indexed_less {a : El i} {b : El j} (h : indexed cmp ⟨i, a⟩ ⟨j, b⟩ = .less) :
    i ≤ j := by
  rcases lt_trichotomy i j with hlt | heq | hgt
  · exact le_of_lt hlt
  · exact le_of_eq heq
  · rw [indexed_of_gt hgt] at h
    cases h

theorem Coherent.indexed (h : ∀ i, Coherent (cmp i)) : Coherent (ThreeWay.indexed cmp) where
  mirror := by
    rintro ⟨i, a⟩ ⟨j, b⟩
    rcases lt_trichotomy i j with hlt | rfl | hgt
    · rw [indexed_of_lt hlt, indexed_of_gt hlt]
      rfl
    · simpa using (h i).mirror a b
    · rw [indexed_of_lt hgt, indexed_of_gt hgt]
      rfl
  congr := by
    rintro ⟨i, a⟩ ⟨j, b⟩ ⟨k, c⟩ hequiv
    obtain rfl := eq_of_indexed_equivalent hequiv
    rw [indexed_same] at hequiv
    rcases lt_trichotomy i k with hlt | rfl | hgt
    · rw [indexed_of_lt hlt, indexed_of_lt hlt]
    · simpa using (h i).congr a b c hequiv
    · rw [indexed_of_gt hgt, indexed_of_gt hgt]
  trans := by
    rintro ⟨i, a⟩ ⟨j, b⟩ ⟨k, c⟩ hab hbc
    have hij := le_of_indexed_less hab
    have hjk := le_of_indexed_less hbc
    rcases lt_or_eq_of_le (le_trans hij hjk) with hlt | rfl
    · exact indexed_of_lt hlt a c
    · obtain rfl := le_antisymm hij hjk
      rw [indexed_same] at hab hbc ⊢
      exact (h i).trans a b c hab hbc

/-- Each of the comparisons is the common one, seen from its index. -/
theorem comap_indexed (cmp : (i : ι) → El i → El i → Verdict) (i : ι) :
    comap (Sigma.mk i) (indexed cmp) = cmp i := by
  funext a b
  exact indexed_same a b

theorem Coherent.indexed_iff : Coherent (ThreeWay.indexed cmp) ↔ ∀ i, Coherent (cmp i) := by
  constructor
  · intro h i
    rw [← comap_indexed cmp i]
    exact h.comap (Sigma.mk i)
  · exact Coherent.indexed

theorem Lawful.indexed_iff : Lawful (ThreeWay.indexed cmp) ↔ ∀ i, Lawful (cmp i) := by
  constructor
  · intro h i
    rw [← comap_indexed cmp i]
    exact h.comap (Sigma.mk i)
  · intro h
    refine ⟨Coherent.indexed fun i => (h i).toCoherent, ?_⟩
    rintro ⟨i, a⟩
    simpa using (h i).refl a

end YkUtil.Lib.ThreeWay
