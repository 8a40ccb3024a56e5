import Mathlib.Order.Fin.Basic
import YkUtil.Compare.Comparator
import YkUtil.Lib.IndexedOrder

/-!
The comparison of boost variants: by `which()`, and two values of one alternative by the
order that the standard library finds for its type. The category is the one that the
alternatives have in common. The variants themselves are a parameter.
-/

namespace YkUtil.Variant

open Compare Lib.ThreeWay

universe u v w x

variable {Ty : Type u} {El : Ty → Type v} {variant : List Ty} {target : Category}

/-- `<=>` of each type, and what its own `strong_order`, `weak_order` and `partial_order`
are, if it has them. -/
structure TypeOrders (El : Ty → Type v) where
  category : Ty → Category
  threeWay : (t : Ty) → Comparator (category t) (El t)
  own : (t : Ty) → (target : Category) → Option (Comparator target (El t))

variable (ops : TypeOrders El)

/-- `std::compare_strong_order_fallback` and the ones for the two other categories. -/
def compareOrderFallback (t : Ty) (h : (ops.category t).convertsTo target = true) :
    Comparator target (El t) :=
  match ops.own t target with
  | some order => order
  | none => fun x y => (ops.threeWay t x y).convert h

/-- `calc_category` -/
def calcCategory : List Ty → Category
  | [] => .strongOrdering
  | t :: ts => commonComparisonCategory (ops.category t) (calcCategory ts)

theorem strong_convertsTo (target : Category) :
    Category.strongOrdering.convertsTo target = true := by
  cases target <;> rfl

theorem convertsTo_trans {cat1 cat2 cat3 : Category} (h : cat1.convertsTo cat2 = true)
    (h' : cat2.convertsTo cat3 = true) : cat1.convertsTo cat3 = true := by
  cases cat1 <;> cases cat2 <;> cases cat3 <;> simp_all [Category.convertsTo]

theorem convertsTo_calcCategory {t : Ty} (h : t ∈ variant) :
    (ops.category t).convertsTo (calcCategory ops variant) = true := by
  induction variant with
  | nil => cases h
  | cons first rest ih =>
      rcases List.mem_cons.mp h with rfl | hrest
      · exact convertsTo_common_left _ _
      · exact convertsTo_trans (ih hrest) (convertsTo_common_right _ _)

/-- `boost::variant<Ts...>`: its objects, what `which()` returns, what they hold, and
`boost::apply_visitor` on two of them. -/
structure BoostVariant (El : Ty → Type v) (variant : List Ty) (R : Type w) where
  Obj : Type x
  which : Obj → Nat
  content : Obj → Σ i : Fin variant.length, El (variant.get i)
  applyVisitor : ((t u : Ty) → t ∈ variant → u ∈ variant → El t → El u → R) → Obj → Obj → R

/-- What is known of them: `which()` is the position of the alternative that is held, a
visitor is called with what is held, and every value of an alternative can be held, at one of
the positions of its type. -/
structure BoostVariant.Documented {R : Type w} (bv : BoostVariant El variant R) : Prop where
  which_eq : ∀ x, bv.which x = (bv.content x).1
  visits : ∀ vis x y, bv.applyVisitor vis x y =
    vis _ _ (variant.get_mem (bv.content x).1) (variant.get_mem (bv.content y).1)
      (bv.content x).2 (bv.content y).2
  holds : ∀ j, ∃ i, variant.get i = variant.get j ∧ ∀ a, ∃ x, bv.content x = ⟨i, a⟩

/-- The order that is asked about two values of an alternative. -/
def alternativeOrder (variant : List Ty) (i : Fin variant.length) :
    Comparator (calcCategory ops variant) (El (variant.get i)) :=
  compareOrderFallback ops (variant.get i) (convertsTo_calcCategory ops (variant.get_mem i))

/-- The order is that of the type, at whatever position. -/
theorem alternativeOrder_verdicts {P : {β : Type v} → (β → β → Verdict) → Prop}
    {i j : Fin variant.length} (htype : variant.get i = variant.get j)
    (h : P (alternativeOrder ops variant i).verdicts) :
    P (alternativeOrder ops variant j).verdicts := by
  have hall (t u : Ty) (ht : (ops.category t).convertsTo (calcCategory ops variant) = true)
      (hu : (ops.category u).convertsTo (calcCategory ops variant) = true) (heq : t = u)
      (hp : P (compareOrderFallback ops t ht).verdicts) :
      P (compareOrderFallback ops u hu).verdicts := by
    subst heq
    exact hp
  exact hall _ _ _ _ htype h

section Compare

variable [DecidableEq Ty]

/-- The visitor of `compare_impl`, on alternatives of any two types. -/
def compareVisitor (t u : Ty) (_ : t ∈ variant) (hu : u ∈ variant) (a : El t) (b : El u) :
    Result (calcCategory ops variant) :=
  if h : t = u then compareOrderFallback ops u (convertsTo_calcCategory ops hu) (h ▸ a) b
  else ⟨.equivalent, fun _ => by decide⟩

variable (bv : BoostVariant El variant (Result (calcCategory ops variant)))

/-- `compare_impl::apply` -/
def compareApply : Comparator (calcCategory ops variant) bv.Obj := fun lhs rhs =>
  if bv.which lhs ≠ bv.which rhs then
    (compareThreeWay (bv.which lhs) (bv.which rhs)).convert (strong_convertsTo _)
  else bv.applyVisitor (compareVisitor ops) lhs rhs

variable {bv}

/-- Variants are compared as the alternatives that they hold. -/
theorem compareApply_verdicts (hbv : bv.Documented) :
    (compareApply ops bv).verdicts =
      comap bv.content (indexed fun i => (alternativeOrder ops variant i).verdicts) := by
  funext x y
  simp only [Comparator.verdicts, compareApply, comap, hbv.which_eq, hbv.visits]
  generalize bv.content x = a
  generalize bv.content y = b
  obtain ⟨i, a⟩ := a
  obtain ⟨j, b⟩ := b
  rcases lt_trichotomy i j with hlt | rfl | hgt
  · have hval : (i : Nat) < j := hlt
    rw [indexed_of_lt hlt, if_pos (ne_of_lt hval)]
    exact compareThreeWay_of_lt hval
  · rw [indexed_same]
    simp [compareVisitor, alternativeOrder, Comparator.verdicts]
  · have hval : (j : Nat) < i := hgt
    rw [indexed_of_gt hgt, if_pos (ne_of_gt hval)]
    exact compareThreeWay_of_gt hval

/-- What passes to the orders of values by their keys passes from the variants to the
alternatives. -/
theorem alternativeOrder_of_compareApply (hbv : bv.Documented)
    {P : {β : Type v} → (β → β → Verdict) → Prop}
    (hcomap : ∀ i, (key : El (variant.get i) → bv.Obj) →
      P (comap key (compareApply ops bv).verdicts))
    (j : Fin variant.length) : P (alternativeOrder ops variant j).verdicts := by
  obtain ⟨i, htype, hheld⟩ := hbv.holds j
  choose object hobject using hheld
  have hsame : comap object (compareApply ops bv).verdicts =
      (alternativeOrder ops variant i).verdicts := by
    rw [compareApply_verdicts ops hbv]
    funext a b
    simp only [comap, hobject, indexed_same]
  exact alternativeOrder_verdicts ops htype (hsame ▸ hcomap i object)

/-- For any alternatives, repeated ones included: the comparison of the variants is lawful
exactly if the order of each alternative is, and the same without reflexivity, for types
with a NaN. Variants that hold different alternatives are ordered by them, and never
equivalent or unordered. -/
theorem boost_compare_lawful_iff (hbv : bv.Documented) :
    (Lawful (compareApply ops bv).verdicts ↔
      ∀ i, Lawful (alternativeOrder ops variant i).verdicts) ∧
    (Coherent (compareApply ops bv).verdicts ↔
      ∀ i, Coherent (alternativeOrder ops variant i).verdicts) ∧
    ∀ x y : bv.Obj, bv.which x < bv.which y →
      (compareApply ops bv x y).verdict = .less ∧
        (compareApply ops bv y x).verdict = .greater := by
  have hverdicts := compareApply_verdicts ops hbv
  refine ⟨⟨fun h => ?_, fun h => ?_⟩, ⟨fun h => ?_, fun h => ?_⟩, ?_⟩
  · exact alternativeOrder_of_compareApply ops hbv (P := Lawful) fun _ key => h.comap key
  · rw [hverdicts]
    exact (Lawful.indexed_iff.mpr h).comap bv.content
  · exact alternativeOrder_of_compareApply ops hbv (P := Coherent) fun _ key => h.comap key
  · rw [hverdicts]
    exact (Coherent.indexed_iff.mpr h).comap bv.content
  · intro x y hlt
    have hindex : (bv.content x).1 < (bv.content y).1 := by
      rwa [hbv.which_eq, hbv.which_eq] at hlt
    constructor
    · exact (congrFun (congrFun hverdicts x) y).trans (indexed_of_lt hindex _ _)
    · exact (congrFun (congrFun hverdicts y) x).trans (indexed_of_gt hindex _ _)

end Compare

/-- An object that is the position of its alternative and what it holds. -/
def sigmaVariant (El : Ty → Type v) (variant : List Ty) (R : Type w) :
    BoostVariant El variant R where
  Obj := Σ i : Fin variant.length, El (variant.get i)
  which x := x.1
  content := id
  applyVisitor vis x y := vis _ _ (variant.get_mem x.1) (variant.get_mem y.1) x.2 y.2

theorem sigmaVariant_documented {R : Type w} : (sigmaVariant El variant R).Documented where
  which_eq _ := rfl
  visits _ _ _ := rfl
  holds j := ⟨j, rfl, fun a => ⟨⟨j, a⟩, rfl⟩⟩

inductive Number where
  | int
  | unsigned
  deriving DecidableEq

def Number.Carrier : Number → Type
  | .int => Int
  | .unsigned => Nat

def numberOrders : TypeOrders Number.Carrier where
  category _ := .strongOrdering
  threeWay
    | .int => (compareThreeWay : Comparator _ Int)
    | .unsigned => (compareThreeWay : Comparator _ Nat)
  own _ _ := none

theorem boost_compare_int_unsigned :
    Lawful (compareApply numberOrders (sigmaVariant _ [.int, .unsigned] _)).verdicts :=
  (boost_compare_lawful_iff numberOrders sigmaVariant_documented).1.mpr fun i => by
    match i with
    | 0 => exact (compareThreeWay_lawful : Lawful (compareThreeWay : Comparator _ Int).verdicts)
    | 1 => exact (compareThreeWay_lawful : Lawful (compareThreeWay : Comparator _ Nat).verdicts)

end YkUtil.Variant
