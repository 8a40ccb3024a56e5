import YkUtil.Ranges.Traversal

/-!
The conversion of an iterator to its const form. The views seen as const hold
the same elements through another reference type, so a const iterator is an
iterator of the concatenation with that conversion applied to every element.
-/

namespace YkUtil.Ranges

open Lib.Segments

universe u v

variable {α : Type u} {β : Type v} {c : ConcatView α} (asConst : α → β)

/-- The concatenation of the views seen as const. -/
def ConcatView.constViews (c : ConcatView α) : ConcatView β where
  views := c.views.map (List.map asConst)
  positive := by
    rw [List.length_map]
    exact c.positive

theorem count_constViews : (c.constViews asConst).count = c.count := List.length_map _

theorem view_constViews (n : Nat) :
    (c.constViews asConst).view n = (c.view n).map asConst := by
  simp only [ConcatView.view, ConcatView.constViews, List.getD_eq_getElem?_getD, List.getElem?_map]
  cases c.views[n]? with
  | none => rfl
  | some view => rfl

inductive Fault where
  | badVariantAccess
  | abort
  deriving DecidableEq

/-- `std::ranges::iterator_t` of one of the views. -/
def InnerIterator (c : ConcatView α) (n : Nat) : Type := {pos : Nat // pos ≤ (c.view n).length}

/-- The conversion between the iterators of one view and of that view as const. -/
def InnerIterator.toConst {n : Nat} (inner : InnerIterator c n) :
    InnerIterator (c.constViews asConst) n :=
  ⟨inner.val, by
    rw [view_constViews, List.length_map]
    exact inner.property⟩

/-- The variant `iter_` of an iterator that may still be value-initialised, when
its inner iterator belongs to no view. -/
structure BaseIter (c : ConcatView α) where
  index : Nat
  index_lt : index < c.count
  inner : Option (InnerIterator c index)

namespace BaseIter

/-- Default initialisation holds the first alternative, value-initialised. -/
def default (c : ConcatView α) : BaseIter c := ⟨0, c.positive, none⟩

def emplace (n : Nat) (h : n < c.count) (inner : InnerIterator c n) : BaseIter c :=
  ⟨n, h, some inner⟩

end BaseIter

namespace Iterator

def baseIter (it : Iterator c) : BaseIter c := .emplace it.index it.index_lt ⟨it.pos, it.pos_le⟩

/-- `std::get<Idx>(iter_)` -/
def get (Idx : Nat) (it : Iterator c) : Except Fault (InnerIterator c Idx) :=
  if h : it.index = Idx then .ok ⟨it.pos, h ▸ it.pos_le⟩ else .error .badVariantAccess

end Iterator

def invokeWithRuntimeIndexImpl {γ : Type u} {count : Nat}
    (f : (Idx : Nat) → Idx < count → Except Fault γ) (Idx : Nat) (hIdx : Idx < count)
    (index : Nat) : Except Fault γ :=
  if Idx = index then f Idx hIdx
  else if h : Idx + 1 < count then invokeWithRuntimeIndexImpl f (Idx + 1) h index
  else .error .abort
termination_by count - Idx

def invokeWithRuntimeIndex {γ : Type u} {count : Nat} (hcount : 0 < count)
    (f : (Idx : Nat) → Idx < count → Except Fault γ) (index : Nat) : Except Fault γ :=
  invokeWithRuntimeIndexImpl f 0 hcount index

/-- The converting constructor. Its initialiser list sets `parent_` only, and
the index it dispatches on is read from the object it is initialising. -/
def Iterator.toConst (it : Iterator c) : Except Fault (BaseIter (c.constViews asConst)) :=
  let self := BaseIter.default (c.constViews asConst)
  invokeWithRuntimeIndex (c.constViews asConst).positive
    (fun Idx h => (it.get Idx).map fun inner => .emplace Idx h (inner.toConst asConst)) self.index

/-- The dispatch finds every index from its start on that a view has. -/
theorem invokeWithRuntimeIndexImpl_of_le {γ : Type u} {count : Nat}
    (f : (Idx : Nat) → Idx < count → Except Fault γ) (Idx : Nat) (hIdx : Idx < count)
    (index : Nat) (hindex : index < count) (hle : Idx ≤ index) :
    invokeWithRuntimeIndexImpl f Idx hIdx index = f index hindex := by
  fun_induction invokeWithRuntimeIndexImpl f Idx hIdx index with
  | case1 => rfl
  | case2 Idx hIdx hne hnext ih => exact ih (Nat.lt_of_le_of_ne hle hne)
  | case3 Idx hIdx hne hlast => omega

theorem invokeWithRuntimeIndex_eq {γ : Type u} {count : Nat} (hcount : 0 < count)
    (f : (Idx : Nat) → Idx < count → Except Fault γ) (index : Nat) (hindex : index < count) :
    invokeWithRuntimeIndex hcount f index = f index hindex :=
  invokeWithRuntimeIndexImpl_of_le f 0 hcount index hindex (Nat.zero_le _)

namespace Iterator

/-- The place of an iterator, in the const views. -/
def constPlace (it : Iterator c) : Iterator (c.constViews asConst) where
  index := it.index
  pos := it.pos
  index_lt := by
    rw [count_constViews]
    exact it.index_lt
  pos_le := by
    rw [view_constViews, List.length_map]
    exact it.pos_le

/-- The object being constructed is in the first view, so only the iterators
of that view are converted. -/
theorem toConst_eq (it : Iterator c) :
    it.toConst asConst =
      if it.index = 0 then .ok (it.constPlace asConst).baseIter else .error .badVariantAccess := by
  have hdispatch := invokeWithRuntimeIndex_eq (c.constViews asConst).positive
    (fun Idx h => (it.get Idx).map fun inner =>
      BaseIter.emplace Idx h (inner.toConst asConst)) 0 (c.constViews asConst).positive
  change invokeWithRuntimeIndex _ _ 0 = _
  rw [hdispatch, get]
  obtain ⟨index, pos, hindex, hpos⟩ := it
  by_cases hzero : index = 0
  · subst hzero
    rfl
  · rw [dif_neg hzero, if_neg hzero]
    rfl

theorem constPlace_rank (it : Iterator c) : (it.constPlace asConst).rank = it.rank := by
  change before (c.views.map (List.map asConst)) it.index + it.pos = _
  rw [before_map]
  rfl

theorem constPlace_canonical {it : Iterator c} (h : it.Canonical) :
    (it.constPlace asConst).Canonical := by
  intro hlast
  rw [count_constViews] at hlast
  change it.pos < ((c.constViews asConst).view it.index).length
  rw [view_constViews, List.length_map]
  exact h hlast

theorem constPlace_deref (it : Iterator c) :
    (it.constPlace asConst).deref = it.deref.map asConst := by
  change ((c.constViews asConst).view it.index)[it.pos]? = _
  rw [view_constViews, List.getElem?_map]
  rfl

end Iterator

/-- `begin` incremented a number of times. -/
def ConcatView.incremented (c : ConcatView α) : Nat → Option (Iterator c)
  | 0 => some c.beginIterator
  | n + 1 => (c.incremented n).bind Iterator.increment

theorem incremented_eq_some_iff {n : Nat} {it : Iterator c} :
    c.incremented n = some it ↔ it.Canonical ∧ it.rank = n := by
  induction n generalizing it with
  | zero =>
      obtain ⟨hcanonical, hrank⟩ := beginIterator_spec c
      constructor
      · intro h
        cases h
        exact ⟨hcanonical, hrank⟩
      · intro ⟨hit, hzero⟩
        exact congrArg some (hcanonical.eq_of_rank hit (hrank.trans hzero.symm))
  | succ n ih =>
      rw [ConcatView.incremented, Option.bind_eq_some_iff]
      constructor
      · rintro ⟨prior, hprior, hstep⟩
        obtain ⟨hcanonical, hrank⟩ := Iterator.increment_moves hstep
        have hn := (ih.mp hprior).2
        exact ⟨hcanonical, by omega⟩
      · intro ⟨hit, hn⟩
        obtain ⟨prior, hprior⟩ := Iterator.prev_isSome it (by omega)
        obtain ⟨hcanonical, hrank⟩ := Iterator.prev_moves it prior hprior
        exact ⟨prior, ih.mpr ⟨hcanonical, by omega⟩, decrement_increment hit hprior⟩

/-- What a conversion has to give: the same view and place in it, so the same
element, and the const iterator that as many increments reach. -/
structure ConvertsTo (it : Iterator c) (result : Iterator (c.constViews asConst)) : Prop where
  converts : it.toConst asConst = .ok result.baseIter
  index : result.index = it.index
  pos : result.pos = it.pos
  deref : result.deref = it.deref.map asConst
  counted : ∃ n, c.incremented n = some it
  reached : ∀ n, c.incremented n = some it → (c.constViews asConst).incremented n = some result

/-- The conversion works for the iterators in the first view and for no other. -/
theorem toConst_iff (it : Iterator c) (h : Reachable it) :
    (∃ result, ConvertsTo asConst it result) ↔ it.index = 0 := by
  have heq := it.toConst_eq asConst
  constructor
  · rintro ⟨result, hresult⟩
    by_contra hindex
    rw [if_neg hindex, hresult.converts] at heq
    cases heq
  · intro hindex
    rw [if_pos hindex] at heq
    have hcanonical := Iterator.constPlace_canonical asConst h.canonical
    refine ⟨it.constPlace asConst, heq, rfl, rfl, it.constPlace_deref asConst, ?_, ?_⟩
    · exact ⟨it.rank, incremented_eq_some_iff.mpr ⟨h.canonical, rfl⟩⟩
    · intro n hn
      apply incremented_eq_some_iff.mpr
      exact ⟨hcanonical, (it.constPlace_rank asConst).trans (incremented_eq_some_iff.mp hn).2⟩

/-- Two views of one element, each iterator named by its view. -/
def pair : ConcatView Nat := ⟨[[1], [2]], by decide⟩

def pairFirst : Iterator pair := ⟨0, 0, by decide, by decide⟩

def pairSecond : Iterator pair := ⟨1, 0, by decide, by decide⟩

theorem pairFirst_reachable : Reachable pairFirst := by
  have hrank : pairFirst.rank = 0 := by decide
  have hcanonical : pairFirst.Canonical := by
    intro _
    decide
  rw [hcanonical.eq_begin_iff.mpr hrank]
  exact .atBegin

theorem pairSecond_reachable : Reachable pairSecond := by
  have hrank : pairSecond.rank = 1 := by decide
  have hcanonical : pairSecond.Canonical := by
    intro _
    decide
  obtain ⟨prior, hprior⟩ := Iterator.prev_isSome pairSecond (by omega)
  obtain ⟨hprior', hmoved⟩ := Iterator.prev_moves pairSecond prior hprior
  have hbegin := hprior'.eq_begin_iff.mpr (by omega)
  have hstep := decrement_increment hcanonical hprior
  rw [hbegin] at hstep
  exact .increment .atBegin hstep

theorem toConst_first : ∃ result, ConvertsTo some pairFirst result :=
  (toConst_iff some pairFirst pairFirst_reachable).mpr rfl

/-- An iterator that has left the first view is not converted. -/
theorem toConst_second_fails :
    Reachable pairSecond ∧ pairSecond.toConst some = .error .badVariantAccess ∧
      ¬∃ result, ConvertsTo some pairSecond result := by
  have hfails : pairSecond.toConst some = .error .badVariantAccess := pairSecond.toConst_eq some
  refine ⟨pairSecond_reachable, hfails, ?_⟩
  rintro ⟨result, hresult⟩
  have hok := hresult.converts
  rw [hfails] at hok
  cases hok

end YkUtil.Ranges
