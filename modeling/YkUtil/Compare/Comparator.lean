import Mathlib.Order.Lattice
import YkUtil.Lib.ThreeWay

/-!
The comparators of the compare module. Each returns one of the three ordering
categories of the language, and the category of a combined comparator is
computed from those of its parts.
-/

namespace YkUtil.Compare

open Lib.ThreeWay

universe u

inductive Category where
  | partialOrdering
  | weakOrdering
  | strongOrdering
  deriving DecidableEq, Repr

/-- A value of the ordering type of a category. Only a partial ordering can say
that two values are unordered. -/
structure Result (cat : Category) where
  verdict : Verdict
  ordered : cat ≠ .partialOrdering → verdict ≠ .unordered
  deriving DecidableEq

/-- The conversions between the ordering types, from a stronger to a weaker. -/
def Category.convertsTo : Category → Category → Bool
  | _, .partialOrdering => true
  | .partialOrdering, _ => false
  | _, .weakOrdering => true
  | .weakOrdering, .strongOrdering => false
  | .strongOrdering, .strongOrdering => true

def commonComparisonCategory : Category → Category → Category
  | .partialOrdering, _ => .partialOrdering
  | _, .partialOrdering => .partialOrdering
  | .weakOrdering, _ => .weakOrdering
  | _, .weakOrdering => .weakOrdering
  | .strongOrdering, .strongOrdering => .strongOrdering

theorem convertsTo_ordered {source target : Category} (h : source.convertsTo target = true)
    (hne : target ≠ .partialOrdering) : source ≠ .partialOrdering := by
  rintro rfl
  cases target <;> simp_all [Category.convertsTo]

theorem convertsTo_common_left (cat1 cat2 : Category) :
    cat1.convertsTo (commonComparisonCategory cat1 cat2) = true := by
  cases cat1 <;> cases cat2 <;> rfl

theorem convertsTo_common_right (cat1 cat2 : Category) :
    cat2.convertsTo (commonComparisonCategory cat1 cat2) = true := by
  cases cat1 <;> cases cat2 <;> rfl

theorem commonComparisonCategory_assoc (cat1 cat2 cat3 : Category) :
    commonComparisonCategory (commonComparisonCategory cat1 cat2) cat3 =
      commonComparisonCategory cat1 (commonComparisonCategory cat2 cat3) := by
  cases cat1 <;> cases cat2 <;> cases cat3 <;> rfl

@[simp] theorem commonComparisonCategory_strong (cat : Category) :
    commonComparisonCategory .strongOrdering cat = cat := by
  cases cat <;> rfl

@[simp] theorem commonComparisonCategory_strong_right (cat : Category) :
    commonComparisonCategory cat .strongOrdering = cat := by
  cases cat <;> rfl

variable {cat cat1 cat2 source target : Category} {α β : Type u}

def Result.convert (res : Result source) (h : source.convertsTo target = true) : Result target where
  verdict := res.verdict
  ordered hne := res.ordered (convertsTo_ordered h hne)

def Result.less : Result cat := ⟨.less, fun _ => by decide⟩

def Result.greater : Result cat := ⟨.greater, fun _ => by decide⟩

/-- A function of two arguments that returns an ordering. -/
abbrev Comparator (cat : Category) (α : Type u) : Type u := α → α → Result cat

def Comparator.verdicts (comp : Comparator cat α) (x y : α) : Verdict :=
  (comp x y).verdict

theorem Comparator.verdicts_ordered (comp : Comparator cat α) (hne : cat ≠ .partialOrdering)
    (x y : α) : comp.verdicts x y ≠ .unordered :=
  (comp x y).ordered hne

/-- The built-in `<=>` of a type with a total order. -/
def compareThreeWay [LinearOrder β] : Comparator .strongOrdering β := fun x y =>
  if x < y then .less
  else if x = y then ⟨.equivalent, fun _ => by decide⟩
  else .greater

/-- `threeWay` is the `<=>` of what `func` returns. -/
def extractComparator (threeWay : Comparator cat β) (func : α → β) : Comparator cat α :=
  fun x y => threeWay (func x) (func y)

def thenComparator (comp1 : Comparator cat1 α) (comp2 : Comparator cat2 α) :
    Comparator (commonComparisonCategory cat1 cat2) α := fun x y =>
  let res := comp1 x y
  if res.verdict = .equivalent then (comp2 x y).convert (convertsTo_common_right cat1 cat2)
  else res.convert (convertsTo_common_left cat1 cat2)

def isPromotable : Category → Category → Bool
  | .partialOrdering, .partialOrdering => true
  | .partialOrdering, .weakOrdering => true
  | .partialOrdering, .strongOrdering => true
  | .weakOrdering, .weakOrdering => true
  | .weakOrdering, .strongOrdering => true
  | _, _ => false

/-- The call operator exists for promotable categories only. -/
def promoteComparator {From To : Category} (_promotable : isPromotable From To = true)
    (comp1 : Comparator From α) (comp2 : Comparator To α) : Comparator To α := fun x y =>
  let res := comp1 x y
  if same : From = To then
    if From = .partialOrdering then
      if res.verdict = .equivalent ∨ res.verdict = .unordered then comp2 x y else same ▸ res
    else
      if res.verdict = .equivalent then comp2 x y else same ▸ res
  else
    if res.verdict = .less then .less
    else if res.verdict = .greater then .greater
    else comp2 x y

section ThreeWay

variable [LinearOrder β] {x y : β}

theorem compareThreeWay_of_lt (h : x < y) : compareThreeWay.verdicts x y = .less := by
  simp [Comparator.verdicts, compareThreeWay, h, Result.less]

theorem compareThreeWay_self (x : β) : compareThreeWay.verdicts x x = .equivalent := by
  simp [Comparator.verdicts, compareThreeWay]

theorem compareThreeWay_of_gt (h : y < x) : compareThreeWay.verdicts x y = .greater := by
  simp [Comparator.verdicts, compareThreeWay, lt_asymm h, ne_of_gt h, Result.greater]

theorem compareThreeWay_less_iff : compareThreeWay.verdicts x y = .less ↔ x < y := by
  rcases lt_trichotomy x y with h | rfl | h
  · simp [compareThreeWay_of_lt h, h]
  · simp [compareThreeWay_self]
  · simp [compareThreeWay_of_gt h, lt_asymm h]

theorem compareThreeWay_equivalent_iff :
    compareThreeWay.verdicts x y = .equivalent ↔ x = y := by
  rcases lt_trichotomy x y with h | rfl | h
  · simp [compareThreeWay_of_lt h, ne_of_lt h]
  · simp [compareThreeWay_self]
  · simp [compareThreeWay_of_gt h, ne_of_gt h]

theorem compareThreeWay_lawful :
    Lawful (compareThreeWay : Comparator .strongOrdering β).verdicts where
  mirror x y := by
    rcases lt_trichotomy x y with h | rfl | h
    · rw [compareThreeWay_of_lt h, compareThreeWay_of_gt h]
      rfl
    · rw [compareThreeWay_self]
      rfl
    · rw [compareThreeWay_of_lt h, compareThreeWay_of_gt h]
      rfl
  congr x y z hxy := by
    rw [compareThreeWay_equivalent_iff.mp hxy]
  trans x y z hxy hyz := by
    rw [compareThreeWay_less_iff] at hxy hyz ⊢
    exact lt_trans hxy hyz
  refl := compareThreeWay_self

end ThreeWay

theorem extractComparator_verdicts (threeWay : Comparator cat β) (func : α → β) :
    (extractComparator threeWay func).verdicts = comap func threeWay.verdicts := rfl

theorem thenComparator_verdicts (comp1 : Comparator cat1 α) (comp2 : Comparator cat2 α) :
    (thenComparator comp1 comp2).verdicts = lexicographic comp1.verdicts comp2.verdicts := by
  funext x y
  unfold Comparator.verdicts thenComparator lexicographic
  by_cases h : (comp1 x y).verdict = .equivalent
  · simp [h, Result.convert]
  · simp [h, Result.convert]

/-- The two spellings of the choice, one by the verdicts that go to the second
comparator and one by those that do not, are the same. -/
theorem promoteComparator_verdicts {From To : Category} (promotable : isPromotable From To = true)
    (comp1 : Comparator From α) (comp2 : Comparator To α) :
    (promoteComparator promotable comp1 comp2).verdicts =
      fallback comp1.verdicts comp2.verdicts := by
  funext x y
  have hordered := (comp1 x y).ordered
  unfold Comparator.verdicts promoteComparator fallback Open
  by_cases same : From = To
  · subst same
    by_cases hcat : From = .partialOrdering
    · cases hverdict : (comp1 x y).verdict <;> simp [hcat, hverdict]
    · have hne := hordered hcat
      cases hverdict : (comp1 x y).verdict <;> simp_all
  · cases hverdict : (comp1 x y).verdict <;> simp [same, hverdict, Result.less, Result.greater]

end YkUtil.Compare
