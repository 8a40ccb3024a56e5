import YkUtil.VariantView.Conversion

/-!
Reading a variant through a view. `visit` asks the view which alternatives it
has and `get<I>` counts in them; `get<T>`, on a view or on a pointer to one, and
`holds_alternative` go to the variant below without asking.
-/

namespace YkUtil.VariantView

universe u v w

variable {Ty : Type u} [DecidableEq Ty] {El : Ty → Type v} {R : Type w} {variant : List Ty}

/-- The state of a variant: its active alternative, or none if it is valueless. -/
abbrev VariantState (El : Ty → Type v) (variant : List Ty) : Type v :=
  Option (Σ i : Fin variant.length, El (variant.get i))

/-- A view; no variant is below an uninitialised one. -/
structure View (El : Ty → Type v) (view : ViewType variant) where
  base : Option (VariantState El variant)

inductive AccessFault where
  | uninitializedVariantView
  | badVariantAccess
  deriving DecidableEq

section Variant

/-! `std::variant`. The getters only compile for a type that is there once. -/

def stdVisit (vis : (t : Ty) → El t → Except AccessFault R) :
    VariantState El variant → Except AccessFault R
  | none => .error .badVariantAccess
  | some ⟨i, x⟩ => vis (variant.get i) x

def stdGet (T : Ty) : VariantState El variant → Except AccessFault (El T)
  | none => .error .badVariantAccess
  | some ⟨i, x⟩ => if h : variant.get i = T then .ok (h ▸ x) else .error .badVariantAccess

def stdGetIf (T : Ty) : VariantState El variant → Option (El T)
  | none => none
  | some ⟨i, x⟩ => if h : variant.get i = T then some (h ▸ x) else none

def stdHoldsAlternative (T : Ty) : VariantState El variant → Bool
  | none => false
  | some ⟨i, _⟩ => decide (variant.get i = T)

end Variant

variable {view : ViewType variant}

/-- The constrained overload is the better match for a type outside the view. -/
def supersetTypeCatcher (view : ViewType variant) (vis : (t : Ty) → El t → R) (t : Ty) (x : El t) :
    Except AccessFault R :=
  if isInVariantView view t then .ok (vis t x) else .error .badVariantAccess

/-- `apply_visit` -/
def applyVisit (vis : (t : Ty) → El t → R) (v : View El view) : Except AccessFault R :=
  match v.base with
  | none => .error .uninitializedVariantView
  | some base => stdVisit (supersetTypeCatcher view vis) base

/-- `apply_get<T>` of a view -/
def applyGet (T : Ty) (v : View El view) : Except AccessFault (El T) :=
  match v.base with
  | none => .error .uninitializedVariantView
  | some base => stdGet T base

/-- `apply_get<T>` of a pointer to a view -/
def applyGetPtr (T : Ty) (v : View El view) : Option (El T) :=
  match v.base with
  | none => none
  | some base => stdGetIf T base

/-- `apply_get<I>` of a view, with `pack_indexing_t<I, Ts...>` -/
def applyGetAt (I : Fin view.alternatives.length) (v : View El view) :
    Except AccessFault (El (view.alternatives.get I)) :=
  applyGet (view.alternatives.get I) v

def holdsAlternative (T : Ty) (v : View El view) : Bool :=
  match v.base with
  | none => false
  | some base => stdHoldsAlternative T base

/-- The active alternative below a view. -/
def View.content (v : View El view) : Option (Σ t, El t) :=
  v.base.join.map fun ⟨i, x⟩ => ⟨variant.get i, x⟩

/-- The alternative that `visit` calls its visitor with. -/
def visited (v : View El view) : Except AccessFault (Σ t, El t) := applyVisit Sigma.mk v

variable {T : Ty} {v : View El view}

/-- Whatever the visitor is, it is called with that alternative or not at all. -/
theorem applyVisit_eq (vis : (t : Ty) → El t → R) (v : View El view) :
    applyVisit vis v = (visited v).map fun content => vis content.1 content.2 := by
  obtain ⟨base⟩ := v
  match base with
  | none => rfl
  | some none => rfl
  | some (some ⟨i, x⟩) =>
      simp only [visited, applyVisit, stdVisit, supersetTypeCatcher]
      split <;> rfl

theorem visited_eq_ok_iff {content : Σ t, El t} :
    visited v = .ok content ↔ v.content = some content ∧ content.1 ∈ view.alternatives := by
  obtain ⟨base⟩ := v
  match base with
  | none => exact iff_of_false nofun (fun h => nomatch h.1)
  | some none => exact iff_of_false nofun (fun h => nomatch h.1)
  | some (some ⟨i, x⟩) =>
      change supersetTypeCatcher view Sigma.mk (variant.get i) x = .ok content ↔
        some ⟨variant.get i, x⟩ = some content ∧ _
      rw [supersetTypeCatcher]
      by_cases hmem : isInVariantView view (variant.get i) = true
      · rw [if_pos hmem]
        constructor
        · intro h
          cases h
          exact ⟨rfl, isInVariantView_iff.mp hmem⟩
        · rintro ⟨h, -⟩
          cases h
          rfl
      · rw [if_neg hmem]
        refine iff_of_false nofun ?_
        rintro ⟨h, hin⟩
        cases h
        exact hmem (isInVariantView_iff.mpr hin)

theorem applyGet_eq_ok_iff {x : El T} : applyGet T v = .ok x ↔ v.content = some ⟨T, x⟩ := by
  obtain ⟨base⟩ := v
  match base with
  | none => exact iff_of_false nofun nofun
  | some none => exact iff_of_false nofun nofun
  | some (some ⟨i, x'⟩) =>
      change stdGet T (some ⟨i, x'⟩) = .ok x ↔ some (Sigma.mk (variant.get i) x') = some ⟨T, x⟩
      rw [stdGet]
      by_cases htype : variant.get i = T
      · subst htype
        rw [dif_pos rfl]
        simp
      · rw [dif_neg htype]
        refine iff_of_false nofun ?_
        intro h
        cases h
        exact htype rfl

/-- The getters are one: a pointer is null when the other throws. -/
theorem applyGetPtr_eq (T : Ty) (v : View El view) : applyGetPtr T v = (applyGet T v).toOption := by
  obtain ⟨base⟩ := v
  match base with
  | none => rfl
  | some none => rfl
  | some (some ⟨i, x⟩) =>
      simp only [applyGetPtr, applyGet, stdGetIf, stdGet]
      split <;> rfl

theorem holdsAlternative_eq (T : Ty) (v : View El view) :
    holdsAlternative T v = (applyGet T v).toOption.isSome := by
  obtain ⟨base⟩ := v
  match base with
  | none => rfl
  | some none => rfl
  | some (some ⟨i, x⟩) =>
      simp only [holdsAlternative, applyGet, stdHoldsAlternative, stdGet]
      by_cases htype : variant.get i = T
      · rw [dif_pos htype, decide_eq_true htype]
        rfl
      · rw [dif_neg htype, decide_eq_false htype]
        rfl

/-- The four ways to ask for an alternative agree. -/
structure Agree (T : Ty) (v : View El view) : Prop where
  get : ∀ x, applyGet T v = .ok x ↔ visited v = .ok ⟨T, x⟩
  pointer : ∀ x, applyGetPtr T v = some x ↔ visited v = .ok ⟨T, x⟩
  holds : holdsAlternative T v = true ↔ ∃ x, visited v = .ok ⟨T, x⟩

theorem agree_of_get (h : ∀ x, applyGet T v = .ok x ↔ visited v = .ok ⟨T, x⟩) : Agree T v := by
  have hpointer : ∀ x, applyGetPtr T v = some x ↔ visited v = .ok ⟨T, x⟩ := by
    intro x
    rw [applyGetPtr_eq, ← h]
    cases applyGet T v <;> simp [Except.toOption]
  refine ⟨h, hpointer, ?_⟩
  rw [holdsAlternative_eq, ← applyGetPtr_eq, Option.isSome_iff_exists]
  exact exists_congr hpointer

/-- An index counts in the view, so it names none of those. -/
theorem applyGetAt_agree (I : Fin view.alternatives.length) (v : View El view) :
    Agree (view.alternatives.get I) v :=
  agree_of_get fun x => by
    rw [applyGet_eq_ok_iff, visited_eq_ok_iff]
    exact ⟨fun h => ⟨h, List.get_mem _ _⟩, And.left⟩

/-- Of the alternatives 0 and 1 the view has 0 and the variant holds 1. -/
def hidden : View (fun _ : Nat => Nat)
    (⟨false, [0], by decide, by decide⟩ : ViewType [0, 1]) :=
  ⟨some (some ⟨1, 5⟩)⟩

end YkUtil.VariantView
