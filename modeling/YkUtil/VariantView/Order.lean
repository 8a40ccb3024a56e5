import YkUtil.Compare.Comparator
import YkUtil.VariantView.Access

/-!
Equality, ordering and hashing of views. The two comparisons look for
uninitialised views before they ask for the variants below, the hash does not.
-/

namespace YkUtil.VariantView

open Compare Lib.ThreeWay

universe u v w

variable {Ty : Type u} {El : Ty → Type v} {variant : List Ty} {H : Type w} {cat : Category}
  {va vb vc : ViewType variant}

/-- The operations of the variant type, with the category of its `<=>`. -/
structure VariantOps (El : Ty → Type v) (variant : List Ty) (cat : Category) (H : Type w) where
  equal : VariantState El variant → VariantState El variant → Bool
  threeWay : Comparator cat (VariantState El variant)
  hash : VariantState El variant → H

structure VariantOps.Ordered (ops : VariantOps El variant cat H) : Prop where
  lawful : Lawful ops.threeWay.verdicts
  equal_iff : ∀ x y, ops.equal x y = true ↔ ops.threeWay.verdicts x y = .equivalent
  hash_eq : ∀ x y, ops.equal x y = true → ops.hash x = ops.hash y

def View.invalid (a : View El va) : Bool := a.base.isNone

/-- `base()`, which has no result where its assertion fails. -/
def View.checkedBase (a : View El va) : Option (VariantState El variant) := a.base

variable (ops : VariantOps El variant cat H) (a : View El va) (b : View El vb) (c : View El vc)

/-- `operator==` -/
def equal : Option Bool :=
  if a.invalid then
    if b.invalid then some true else some false
  else if b.invalid then some false
  else a.checkedBase.bind fun x => b.checkedBase.map fun y => ops.equal x y

/-- `operator<=>` -/
def threeWay : Option (Result cat) :=
  if a.invalid then
    if b.invalid then some ⟨.equivalent, fun _ => by decide⟩ else some .less
  else if b.invalid then some .greater
  else a.checkedBase.bind fun x => b.checkedBase.map fun y => ops.threeWay x y

/-- `std::hash` and `hash_value` -/
def hash : Option H := a.checkedBase.map ops.hash

def compared : Option Verdict := (threeWay ops a b).map (·.verdict)

/-- An uninitialised view is one more value of the variant, below the others. -/
theorem compared_eq :
    compared ops a b = some (withBottom ops.threeWay.verdicts a.base b.base) := by
  obtain ⟨base⟩ := a
  obtain ⟨base'⟩ := b
  cases base <;> cases base' <;> rfl

variable {ops}

theorem equal_eq (h : ops.Ordered) :
    equal ops a b =
      some (decide (withBottom ops.threeWay.verdicts a.base b.base = .equivalent)) := by
  obtain ⟨base⟩ := a
  obtain ⟨base'⟩ := b
  match base, base' with
  | none, none => rfl
  | none, some _ => rfl
  | some _, none => rfl
  | some x, some y =>
      change some (ops.equal x y) = some (decide (ops.threeWay.verdicts x y = .equivalent))
      rw [Option.some_inj, Bool.eq_iff_iff, h.equal_iff, decide_eq_true_iff]

theorem equal_iff (h : ops.Ordered) :
    equal ops a b = some true ↔ withBottom ops.threeWay.verdicts a.base b.base = .equivalent := by
  rw [equal_eq a b h, Option.some_inj, decide_eq_true_iff]

variable (ops)

/-- The laws of the two comparisons for three views. -/
structure OrderLaws : Prop where
  equal_refl : equal ops a a = some true
  equal_symm : equal ops a b = equal ops b a
  equal_trans : equal ops a b = some true → equal ops b c = some true →
    equal ops a c = some true
  refl : compared ops a a = some .equivalent
  mirror : compared ops b a = (compared ops a b).map .swap
  congr : compared ops a b = some .equivalent → compared ops a c = compared ops b c
  trans : compared ops a b = some .less → compared ops b c = some .less →
    compared ops a c = some .less
  bottom : a.invalid = true → b.invalid = false → compared ops a b = some .less
  equivalent_iff : equal ops a b = some true ↔ compared ops a b = some .equivalent
  equal_defined : equal ops a b ≠ none
  threeWay_defined : threeWay ops a b ≠ none

/-- Those of the hash as well. -/
structure ViewLaws : Prop extends OrderLaws ops a b c where
  hash_eq : equal ops a b = some true → hash ops a = hash ops b
  hash_defined : hash ops a ≠ none ∧ hash ops b ≠ none ∧ hash ops c ≠ none

variable {ops}

theorem hash_eq_of_equal (h : ops.Ordered) (hequal : equal ops a b = some true) :
    hash ops a = hash ops b := by
  obtain ⟨base⟩ := a
  obtain ⟨base'⟩ := b
  match base, base' with
  | none, none => rfl
  | none, some _ => cases hequal
  | some _, none => cases hequal
  | some x, some y => exact congrArg some (h.hash_eq x y (Option.some_inj.mp hequal))

theorem hash_ne_none_iff (ops : VariantOps El variant cat H) (a : View El va) :
    hash ops a ≠ none ↔ a.invalid = false := by
  obtain ⟨base⟩ := a
  cases base with
  | none => exact iff_of_false (fun h => h rfl) nofun
  | some x => exact iff_of_true nofun rfl

theorem orderLaws (h : ops.Ordered) : OrderLaws ops a b c := by
  have hlawful := h.lawful.withBottom
  constructor
  case equal_refl => exact (equal_iff a a h).mpr (hlawful.refl _)
  case equal_symm =>
    rw [equal_eq a b h, equal_eq b a h, Option.some_inj, decide_eq_decide]
    exact ⟨hlawful.symm, hlawful.symm⟩
  case equal_trans =>
    rw [equal_iff a b h, equal_iff b c h, equal_iff a c h]
    exact hlawful.equivalence.trans
  case refl =>
    rw [compared_eq]
    exact congrArg some (hlawful.refl _)
  case mirror =>
    rw [compared_eq, compared_eq, Option.map_some]
    exact congrArg some (hlawful.mirror _ _)
  case congr =>
    rw [compared_eq, compared_eq, compared_eq, Option.some_inj, Option.some_inj]
    exact hlawful.congr _ _ _
  case trans =>
    rw [compared_eq, compared_eq, compared_eq, Option.some_inj, Option.some_inj, Option.some_inj]
    exact hlawful.trans _ _ _
  case bottom =>
    intro ha hb
    have hnone : a.base = none := Option.isNone_iff_eq_none.mp ha
    obtain ⟨y, hy⟩ := Option.isSome_iff_exists.mp (Option.isNone_eq_false_iff.mp hb)
    rw [compared_eq, hnone, hy]
    rfl
  case equivalent_iff => rw [equal_iff a b h, compared_eq, Option.some_inj]
  case equal_defined =>
    rw [equal_eq a b h]
    exact nofun
  case threeWay_defined =>
    intro hnone
    have hcompared := compared_eq ops a b
    rw [compared, hnone] at hcompared
    cases hcompared

/-- The two comparisons have all their laws on uninitialised views as well; the
hash takes an uninitialised view for a variant. -/
theorem viewLaws_iff (h : ops.Ordered) (a : View El va) (b : View El vb) (c : View El vc) :
    OrderLaws ops a b c ∧
      (ViewLaws ops a b c ↔ a.invalid = false ∧ b.invalid = false ∧ c.invalid = false) := by
  refine ⟨orderLaws a b c h, ?_⟩
  rw [← hash_ne_none_iff ops a, ← hash_ne_none_iff ops b, ← hash_ne_none_iff ops c]
  constructor
  · intro hlaws
    exact hlaws.hash_defined
  · intro hdefined
    exact ⟨orderLaws a b c h, hash_eq_of_equal a b h, hdefined⟩

/-- The state of a variant with one alternative, a number, as a number. -/
def numberKey (x : VariantState (fun _ : Bool => Nat) [true]) : Nat := x.elim 0 (·.2 + 1)

def numberOps : VariantOps (fun _ : Bool => Nat) [true] .strongOrdering Nat where
  equal x y := decide (numberKey x = numberKey y)
  threeWay := extractComparator compareThreeWay numberKey
  hash := numberKey

theorem numberOps_ordered : numberOps.Ordered where
  lawful := compareThreeWay_lawful.comap numberKey
  equal_iff _ _ := decide_eq_true_iff.trans compareThreeWay_equivalent_iff.symm
  hash_eq _ _ := of_decide_eq_true

def numberView : ViewType [true] := ⟨false, [true], List.cons_ne_nil _ _, fun _ hmem => hmem⟩

def viewOf (value : Nat) : View (fun _ : Bool => Nat) numberView := ⟨some (some ⟨0, value⟩)⟩

theorem viewLaws_numbers : ViewLaws numberOps (viewOf 1) (viewOf 1) (viewOf 2) :=
  (viewLaws_iff numberOps_ordered (viewOf 1) (viewOf 1) (viewOf 2)).2.mpr ⟨rfl, rfl, rfl⟩

/-- An uninitialised view has no hash. -/
theorem uninitialized_not_viewLaws :
    numberOps.Ordered ∧ ∀ a : View (fun _ : Bool => Nat) numberView, a.base = none →
      equal numberOps a a = some true ∧ hash numberOps a = none ∧
        ¬ViewLaws numberOps a a a := by
  refine ⟨numberOps_ordered, ?_⟩
  rintro ⟨base⟩ rfl
  refine ⟨rfl, rfl, ?_⟩
  intro hlaws
  exact hlaws.hash_defined.1 rfl

end YkUtil.VariantView
