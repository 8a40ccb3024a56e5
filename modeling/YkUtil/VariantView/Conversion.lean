import Mathlib.Data.List.Basic
import Mathlib.Logic.Relation

/-!
Which variant views convert to which. A view type is the constness of the
variant under it and the alternatives it lists; the checks on conversions see
nothing else.
-/

namespace YkUtil.VariantView

universe u

variable {Ty : Type u} [DecidableEq Ty] {variant : List Ty}

/-- `variant_view<Variant, Ts...>`, with its two checks on `Ts`. -/
structure ViewType (variant : List Ty) where
  isConst : Bool
  alternatives : List Ty
  nonempty : alternatives ≠ []
  inVariant : ∀ t ∈ alternatives, t ∈ variant
  deriving DecidableEq

def isInVariantView (view : ViewType variant) (t : Ty) : Bool :=
  view.alternatives.any fun u => decide (u = t)

def areAllInVariantView (view : ViewType variant) (ts : List Ty) : Bool :=
  ts.all (isInVariantView view)

def ViewType.removeConst (view : ViewType variant) : ViewType variant :=
  {view with isConst := false}

/-- The converting constructor: its constraint, then its assertion. The source
is the argument `other`, and both arguments of the assertion are made from its
alternatives `Us`. -/
def constructible (target source : ViewType variant) : Bool :=
  (target.isConst || !source.isConst) &&
    areAllInVariantView source.removeConst source.alternatives

/-- An assignment is the defaulted one, the template for non-const sources, or
a conversion followed by the defaulted one. -/
def assignable (target source : ViewType variant) : Bool :=
  decide (target = source) || !source.isConst || constructible target source

inductive Step : ViewType variant → ViewType variant → Prop where
  | convert {source target : ViewType variant} :
      constructible target source = true → Step source target
  | subview {source target : ViewType variant} :
      target.isConst = source.isConst → constructible target source = true → Step source target
  | assign {source target : ViewType variant} :
      assignable target source = true → Step source target

/-- A chain of conversions, calls of `subview` and assignments that compiles. -/
def Chain (start result : ViewType variant) : Prop :=
  Relation.ReflTransGen Step start result

variable {source target start result : ViewType variant}

theorem isInVariantView_iff {view : ViewType variant} {t : Ty} :
    isInVariantView view t = true ↔ t ∈ view.alternatives := by
  simp [isInVariantView]

theorem areAllInVariantView_iff {view : ViewType variant} {ts : List Ty} :
    areAllInVariantView view ts = true ↔ ∀ t ∈ ts, t ∈ view.alternatives := by
  simp [areAllInVariantView, isInVariantView_iff]

/-- The assertion asks whether the source contains its own alternatives. -/
theorem areAllInVariantView_self (view : ViewType variant) :
    areAllInVariantView view.removeConst view.alternatives = true :=
  areAllInVariantView_iff.mpr fun _ hmem => hmem

/-- So a construction is checked for constness and nothing else. -/
theorem constructible_iff :
    constructible target source = true ↔ target.isConst = true ∨ source.isConst = false := by
  rw [constructible, areAllInVariantView_self]
  simp

/-- The alternatives of the result are among those of the start. -/
def Narrows (start result : ViewType variant) : Prop :=
  ∀ t ∈ result.alternatives, t ∈ start.alternatives

/-- A step that passes the assertion with the target's alternatives in it. -/
def CheckedStep (source target : ViewType variant) : Prop :=
  Step source target ∧ areAllInVariantView source.removeConst target.alternatives = true

theorem checked_chain_narrows (h : Relation.ReflTransGen CheckedStep start result) :
    Narrows start result := by
  induction h with
  | refl => exact fun _ hmem => hmem
  | tail _ hstep ih =>
      intro t hmem
      apply ih
      exact areAllInVariantView_iff.mp hstep.2 t hmem

omit [DecidableEq Ty] in
theorem variant_ne_nil (view : ViewType variant) : variant ≠ [] := by
  obtain ⟨first, hfirst⟩ := List.exists_mem_of_ne_nil _ view.nonempty
  exact List.ne_nil_of_mem (view.inVariant first hfirst)

/-- The view with every alternative, which `subview` gives of any view. -/
def ViewType.widest (view : ViewType variant) : ViewType variant where
  isConst := view.isConst
  alternatives := variant
  nonempty := variant_ne_nil view
  inVariant _ hmem := hmem

theorem step_widest (view : ViewType variant) : Step view view.widest :=
  .subview rfl (constructible_iff.mpr (Bool.eq_false_or_eq_true view.isConst))

/-- What compiles stays within the starting view only if that view has every
alternative already. Chains whose steps pass the assertion with the target's
alternatives in place of the source's do narrow. -/
theorem chain_narrows_iff (start : ViewType variant) :
    ((∀ result, Chain start result → Narrows start result) ↔
      ∀ t ∈ variant, t ∈ start.alternatives) ∧
    ∀ result, Relation.ReflTransGen CheckedStep start result → Narrows start result := by
  refine ⟨⟨?_, ?_⟩, fun result => checked_chain_narrows⟩
  · intro h
    exact h start.widest (.single (step_widest start))
  · intro hfull result _ t hmem
    exact hfull t (result.inVariant t hmem)

/-- With the alternatives numbered, a view of the first widens to the first two. -/
theorem subview_widens :
    ∃ start result : ViewType [0, 1, 2], start.alternatives = [0] ∧
      result.alternatives = [0, 1] ∧ Chain start result ∧ ¬Narrows start result := by
  let start : ViewType [0, 1, 2] := ⟨false, [0], by decide, by decide⟩
  let result : ViewType [0, 1, 2] := ⟨false, [0, 1], by decide, by decide⟩
  refine ⟨start, result, rfl, rfl, ?_, ?_⟩
  · exact .single (.subview rfl (by decide))
  · intro hnarrows
    have hone := hnarrows 1 (by decide)
    revert hone
    decide

end YkUtil.VariantView
