import Mathlib.Data.Fin.VecNotation
import Mathlib.Data.Int.Order.Basic
import YkUtil.Compare.Comparator

/-!
Comparators combined with `promote`. A weak first comparator gives a lawful
result whatever the second is. A partial one sends every unordered pair to the
second comparator, whose verdicts need not fit between its own.
-/

namespace YkUtil.Compare

open Lib.ThreeWay

universe u

variable {From To : Category} {α : Type u} {promotable : isPromotable From To = true}
  {comp1 : Comparator From α} {comp2 : Comparator To α}

theorem promoteComparator_mirror (h1 : Coherent comp1.verdicts) (h2 : Lawful comp2.verdicts)
    (x y : α) : (promoteComparator promotable comp1 comp2).verdicts y x =
      ((promoteComparator promotable comp1 comp2).verdicts x y).swap := by
  rw [promoteComparator_verdicts]
  exact h1.fallback_mirror h2.toCoherent x y

theorem promoteComparator_lawful_iff (h1 : Coherent comp1.verdicts)
    (h2 : Lawful comp2.verdicts) :
    Lawful (promoteComparator promotable comp1 comp2).verdicts ↔
      Compatible comp1.verdicts comp2.verdicts := by
  rw [promoteComparator_verdicts]
  exact Lawful.fallback_iff h1 h2

theorem compatible_of_ordered (h1 : Coherent comp1.verdicts) (hweak : From ≠ .partialOrdering) :
    Compatible comp1.verdicts comp2.verdicts :=
  .of_decided h1 (comp1.verdicts_ordered hweak)

theorem promoteComparator_strictWeakOrder
    (h : Lawful (promoteComparator promotable comp1 comp2).verdicts)
    (hto : To ≠ .partialOrdering) :
    IsStrictWeakOrder α fun x y =>
      (promoteComparator promotable comp1 comp2).verdicts x y = .less :=
  h.strictWeakOrder (Comparator.verdicts_ordered _ hto)

/-- Swapping the arguments always mirrors the result. All the laws hold when
the first comparator is weak; when it is partial they hold exactly if the
second follows its order. A lawful weak or strong result is a strict weak
order. -/
theorem promote_lawful (promotable : isPromotable From To = true)
    (comp1 : Comparator From α) (comp2 : Comparator To α)
    (h1 : Lawful comp1.verdicts) (h2 : Lawful comp2.verdicts) :
    (∀ x y, (promoteComparator promotable comp1 comp2).verdicts y x =
      ((promoteComparator promotable comp1 comp2).verdicts x y).swap) ∧
    (From = .weakOrdering → Lawful (promoteComparator promotable comp1 comp2).verdicts) ∧
    (Lawful (promoteComparator promotable comp1 comp2).verdicts ↔
      Compatible comp1.verdicts comp2.verdicts) ∧
    (To ≠ .partialOrdering → Compatible comp1.verdicts comp2.verdicts →
      IsStrictWeakOrder α fun x y =>
        (promoteComparator promotable comp1 comp2).verdicts x y = .less) := by
  have hiff : Lawful (promoteComparator promotable comp1 comp2).verdicts ↔
      Compatible comp1.verdicts comp2.verdicts := promoteComparator_lawful_iff h1.toCoherent h2
  refine ⟨promoteComparator_mirror h1.toCoherent h2, ?_, hiff, ?_⟩
  · rintro rfl
    apply hiff.mpr
    exact compatible_of_ordered h1.toCoherent (by decide)
  · intro hto hcompatible
    exact promoteComparator_strictWeakOrder (hiff.mpr hcompatible) hto

/-- Three values of which 0 comes before 1 and no other pair is ordered. -/
def onePair : Comparator .partialOrdering (Fin 3) := fun x y =>
  { verdict :=
      if x = y then .equivalent
      else if x = 0 ∧ y = 1 then .less
      else if x = 1 ∧ y = 0 then .greater
      else .unordered
    ordered := fun hne => absurd rfl hne }

theorem onePair_lawful : Lawful onePair.verdicts where
  mirror := by decide
  congr := by decide
  trans := by decide
  refl := by decide

/-- The three values by a key. -/
def byKey (key : Fin 3 → Int) : Comparator .strongOrdering (Fin 3) :=
  extractComparator compareThreeWay key

theorem byKey_lawful (key : Fin 3 → Int) : Lawful (byKey key).verdicts :=
  compareThreeWay_lawful.comap key

theorem promote_lawful_onePair :
    IsStrictWeakOrder (Fin 3) fun x y =>
      (promoteComparator rfl onePair (byKey fun x => x.val)).verdicts x y = .less :=
  (promote_lawful rfl onePair (byKey fun x => x.val) onePair_lawful (byKey_lawful _)).2.2.2
    (by decide) ⟨by decide, by decide⟩

/-- With the keys 3, 1 and 2 the first comparator puts 0 before 1, and the
second 1 before 2 and 2 before 0: the strong ordering returned is a cycle. -/
theorem promote_cycle :
    Lawful onePair.verdicts ∧ Lawful (byKey ![3, 1, 2]).verdicts ∧
      ¬Lawful (promoteComparator rfl onePair (byKey ![3, 1, 2])).verdicts := by
  refine ⟨onePair_lawful, byKey_lawful _, ?_⟩
  intro h
  have hless := h.trans 0 1 2 (by decide) (by decide)
  revert hless
  decide

end YkUtil.Compare
