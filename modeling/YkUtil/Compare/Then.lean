import Mathlib.Data.Int.Order.Basic
import YkUtil.Compare.Comparator

/-!
Comparators chained with `then`. The chain is the tree of the calls that built
it, so `a | then(b) | then(c)` and `a | then(b | then(c))` are both covered.
-/

namespace YkUtil.Compare

open Lib.ThreeWay

universe u

variable {cat cat1 cat2 : Category} {α β : Type u}

theorem extractComparator_lawful {threeWay : Comparator cat β} (h : Lawful threeWay.verdicts)
    (func : α → β) : Lawful (extractComparator threeWay func).verdicts := by
  rw [extractComparator_verdicts]
  exact h.comap func

theorem thenComparator_lawful {comp1 : Comparator cat1 α} {comp2 : Comparator cat2 α}
    (h1 : Lawful comp1.verdicts) (h2 : Lawful comp2.verdicts) :
    Lawful (thenComparator comp1 comp2).verdicts := by
  rw [thenComparator_verdicts]
  exact h1.lexicographic h2

inductive Chain (α : Type u) : Category → Type u where
  | single {cat : Category} (comp : Comparator cat α) : Chain α cat
  | andThen {cat1 cat2 : Category} (comp1 : Chain α cat1) (comp2 : Chain α cat2) :
      Chain α (commonComparisonCategory cat1 cat2)

/-- The comparator that the calls of `then` return. -/
def Chain.comparator : {cat : Category} → Chain α cat → Comparator cat α
  | _, .single comp => comp
  | _, .andThen comp1 comp2 => thenComparator comp1.comparator comp2.comparator

/-- The comparators that were chained, each with its category. -/
def Chain.components : {cat : Category} → Chain α cat → List (Σ cat, Comparator cat α)
  | cat, .single comp => [⟨cat, comp⟩]
  | _, .andThen comp1 comp2 => comp1.components ++ comp2.components

/-- The category common to a list of comparators. -/
def commonCategory (comps : List (Σ cat, Comparator cat α)) : Category :=
  comps.foldr (fun comp cat => commonComparisonCategory comp.1 cat) .strongOrdering

theorem commonCategory_append (comps more : List (Σ cat, Comparator cat α)) :
    commonCategory (comps ++ more) =
      commonComparisonCategory (commonCategory comps) (commonCategory more) := by
  induction comps with
  | nil => exact (commonComparisonCategory_strong _).symm
  | cons comp comps ih =>
      change commonComparisonCategory comp.1 (commonCategory (comps ++ more)) = _
      rw [ih, ← commonComparisonCategory_assoc]
      rfl

theorem Chain.category (chain : Chain α cat) : commonCategory chain.components = cat := by
  induction chain with
  | single comp => exact commonComparisonCategory_strong_right _
  | andThen comp1 comp2 ih1 ih2 =>
      rw [Chain.components, commonCategory_append, ih1, ih2]

theorem Chain.comparator_lawful (chain : Chain α cat)
    (h : ∀ comp ∈ chain.components, Lawful comp.2.verdicts) : Lawful chain.comparator.verdicts := by
  induction chain with
  | single comp => exact h _ (List.mem_singleton_self _)
  | andThen comp1 comp2 ih1 ih2 =>
      apply thenComparator_lawful
      · apply ih1
        intro comp hmem
        exact h comp (List.mem_append_left _ hmem)
      · apply ih2
        intro comp hmem
        exact h comp (List.mem_append_right _ hmem)

theorem Chain.equivalent_iff (chain : Chain α cat) (x y : α) :
    chain.comparator.verdicts x y = .equivalent ↔
      ∀ comp ∈ chain.components, comp.2.verdicts x y = .equivalent := by
  induction chain with
  | single comp => simp [Chain.comparator, Chain.components]
  | andThen comp1 comp2 ih1 ih2 =>
      rw [Chain.comparator, thenComparator_verdicts, lexicographic_equivalent_iff, ih1, ih2]
      simp only [Chain.components, List.mem_append, or_imp, forall_and]

/-- A chain of lawful comparators is lawful, has the category common to them
all, and finds two values equivalent exactly when each of them does. -/
theorem then_chain_lawful (chain : Chain α cat)
    (h : ∀ comp ∈ chain.components, Lawful comp.2.verdicts) :
    Lawful chain.comparator.verdicts ∧ cat = commonCategory chain.components ∧
      ∀ x y, chain.comparator.verdicts x y = .equivalent ↔
        ∀ comp ∈ chain.components, comp.2.verdicts x y = .equivalent :=
  ⟨chain.comparator_lawful h, chain.category.symm, chain.equivalent_iff⟩

/-- Pairs of numbers by the first component, then by the second. -/
theorem then_chain_lawful_pair :
    Lawful (thenComparator (extractComparator compareThreeWay (Prod.fst : Int × Int → Int))
      (extractComparator compareThreeWay Prod.snd)).verdicts := by
  let chain : Chain (Int × Int) .strongOrdering :=
    .andThen (.single (extractComparator compareThreeWay Prod.fst))
      (.single (extractComparator compareThreeWay Prod.snd))
  apply (then_chain_lawful chain _).1
  intro comp hmem
  simp only [chain, Chain.components, List.singleton_append, List.mem_cons,
    List.not_mem_nil, or_false] at hmem
  rcases hmem with rfl | rfl
  · exact extractComparator_lawful compareThreeWay_lawful Prod.fst
  · exact extractComparator_lawful compareThreeWay_lawful Prod.snd

end YkUtil.Compare
