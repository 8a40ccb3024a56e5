import YkUtil.Ranges.Concat

/-!
Where an iterator stands in the concatenation. Around empty views one place has
many spellings; the iterators that the operations produce use only one of them,
the last view that the place belongs to.
-/

namespace YkUtil.Ranges

open Lib.Segments

universe u

variable {α : Type u} {c : ConcatView α}

def ConcatView.elements (c : ConcatView α) : List α := c.views.flatten

namespace Iterator

/-- The number of elements before an iterator. -/
def rank (it : Iterator c) : Nat := before c.views it.index + it.pos

/-- Only in the last view may an iterator stand at the end. -/
def Canonical (it : Iterator c) : Prop :=
  it.index + 1 < c.count → it.pos < (c.view it.index).length

theorem rank_le_before (it : Iterator c) : it.rank ≤ before c.views (it.index + 1) := by
  rw [before_succ]
  exact Nat.add_le_add_left it.pos_le _

theorem before_le_length {n : Nat} (h : n ≤ c.count) : before c.views n ≤ c.elements.length := by
  rw [ConcatView.elements, ← before_length]
  exact before_mono _ h

theorem rank_le (it : Iterator c) : it.rank ≤ c.elements.length :=
  Nat.le_trans it.rank_le_before (before_le_length it.index_lt)

theorem rank_lt_of_pos_lt {it : Iterator c} (h : it.pos < (c.view it.index).length) :
    it.rank < before c.views (it.index + 1) := by
  rw [before_succ]
  exact Nat.add_lt_add_left h _

theorem Canonical.pos_lt_iff {it : Iterator c} (h : it.Canonical) :
    it.pos < (c.view it.index).length ↔ it.rank < c.elements.length := by
  constructor
  · intro hpos
    exact Nat.lt_of_lt_of_le (rank_lt_of_pos_lt hpos) (before_le_length it.index_lt)
  · intro hrank
    by_cases hlast : it.index + 1 < c.count
    · exact h hlast
    · have hindex : it.index + 1 = c.count := Nat.le_antisymm it.index_lt (Nat.le_of_not_lt hlast)
      have hlength : before c.views (it.index + 1) = c.elements.length := by
        rw [hindex, ConcatView.elements, ← before_length]
        rfl
      rw [before_succ] at hlength
      unfold rank at hrank
      rw [← hlength] at hrank
      exact Nat.lt_of_add_lt_add_left hrank

theorem Canonical.index_le {x y : Iterator c} (hx : x.Canonical) (h : y.rank ≤ x.rank) :
    y.index ≤ x.index := by
  by_contra hlt
  have hsucc : x.index + 1 ≤ y.index := Nat.lt_of_not_le hlt
  have hxlt := rank_lt_of_pos_lt (hx (Nat.lt_of_le_of_lt hsucc y.index_lt))
  have hle : before c.views (x.index + 1) ≤ y.rank :=
    Nat.le_trans (before_mono _ hsucc) (Nat.le_add_right _ _)
  exact absurd (Nat.le_trans hle h) (Nat.not_le_of_lt hxlt)

/-- One place has one canonical iterator. -/
theorem Canonical.eq_of_rank {x y : Iterator c} (hx : x.Canonical) (hy : y.Canonical)
    (h : x.rank = y.rank) : x = y := by
  have hindex : x.index = y.index :=
    Nat.le_antisymm (hy.index_le (Nat.le_of_eq h)) (hx.index_le (Nat.le_of_eq h.symm))
  apply ext_index hindex
  unfold rank at h
  rw [hindex] at h
  exact Nat.add_left_cancel h

theorem Canonical.deref {it : Iterator c} (h : it.Canonical) :
    it.deref = c.elements[it.rank]? := by
  by_cases hpos : it.pos < (c.view it.index).length
  · exact (getElem?_flatten c.views it.index it.pos hpos).symm
  · have hrank := mt h.pos_lt_iff.mpr hpos
    rw [Iterator.deref, List.getElem?_eq_none (Nat.le_of_not_lt hpos),
      List.getElem?_eq_none (Nat.le_of_not_lt hrank)]

theorem rank_emplaceBegin (n : Nat) (h : n < c.count) :
    (emplaceBegin n h : Iterator c).rank = before c.views n := rfl

theorem rank_emplaceEnd (n : Nat) (h : n < c.count) :
    (emplaceEnd n h : Iterator c).rank = before c.views (n + 1) :=
  (before_succ c.views n).symm

theorem satisfy_spec (it : Iterator c) : it.satisfy.Canonical ∧ it.satisfy.rank = it.rank := by
  fun_induction satisfy it with
  | case1 it hnext hend ih =>
      refine ⟨ih.1, ?_⟩
      rw [ih.2, rank_emplaceBegin, before_succ, rank, hend]
      rfl
  | case2 it hnext hend => exact ⟨fun _ => Nat.lt_of_le_of_ne it.pos_le hend, rfl⟩
  | case3 it hlast => exact ⟨fun hnext => absurd hnext hlast, rfl⟩

theorem innerAdd_spec {it it' : Iterator c} {steps : Nat} (h : it.innerAdd steps = some it') :
    it'.index = it.index ∧ it'.pos = it.pos + steps ∧ it'.rank = it.rank + steps := by
  unfold innerAdd at h
  split at h
  · cases h
    exact ⟨rfl, rfl, (Nat.add_assoc _ _ _).symm⟩
  · cases h

theorem innerSub_spec {it it' : Iterator c} {steps : Nat} (h : it.innerSub steps = some it') :
    it'.index = it.index ∧ it'.pos + steps = it.pos ∧ it'.rank + steps = it.rank := by
  unfold innerSub at h
  split at h
  case isTrue hle =>
    cases h
    refine ⟨rfl, Nat.sub_add_cancel hle, ?_⟩
    rw [rank, rank, Nat.add_assoc, Nat.sub_add_cancel hle]
  case isFalse => cases h

theorem innerAdd_isSome {it : Iterator c} {steps : Nat}
    (h : it.pos + steps ≤ (c.view it.index).length) : ∃ it', it.innerAdd steps = some it' :=
  ⟨_, dif_pos h⟩

theorem innerSub_isSome {it : Iterator c} {steps : Nat} (h : steps ≤ it.pos) :
    ∃ it', it.innerSub steps = some it' :=
  ⟨_, if_pos h⟩

/-- In the last view an iterator goes as far as the concatenation does. -/
theorem innerAdd_last {it : Iterator c} {steps : Nat} (hlast : ¬it.index + 1 < c.count)
    (h : it.rank + steps ≤ c.elements.length) : ∃ it', it.innerAdd steps = some it' := by
  apply innerAdd_isSome
  have hindex : it.index + 1 = c.count := Nat.le_antisymm it.index_lt (Nat.le_of_not_lt hlast)
  rw [ConcatView.elements, ← before_length] at h
  change it.rank + steps ≤ before c.views c.count at h
  rw [← hindex, before_succ, rank, Nat.add_assoc] at h
  exact Nat.le_of_add_le_add_left h

/-- A canonical iterator `n` places further on. -/
def Moves (it : Iterator c) (n : Int) (it' : Iterator c) : Prop :=
  it'.Canonical ∧ (it'.rank : Int) = it.rank + n

theorem increment_moves {it it' : Iterator c} (h : it.increment = some it') : it.Moves 1 it' := by
  obtain ⟨next, hnext, rfl⟩ := Option.map_eq_some_iff.mp h
  obtain ⟨hcanonical, hrank⟩ := satisfy_spec next
  refine ⟨hcanonical, ?_⟩
  rw [hrank, (innerAdd_spec hnext).2.2]
  rfl

theorem increment_isSome {it : Iterator c} (hit : it.Canonical)
    (h : it.rank < c.elements.length) : ∃ it', it.increment = some it' := by
  have hroom : it.pos + 1 ≤ (c.view it.index).length := hit.pos_lt_iff.mpr h
  obtain ⟨next, hnext⟩ := innerAdd_isSome hroom
  exact ⟨next.satisfy, by rw [increment, hnext]; rfl⟩

theorem moves_of_innerAdd {it it' : Iterator c} {steps : Nat} (h : it.innerAdd steps = some it')
    (hroom : it.index + 1 < c.count → it.pos + steps < (c.view it.index).length) :
    it.Moves steps it' := by
  obtain ⟨hindex, hpos, hrank⟩ := innerAdd_spec h
  refine ⟨?_, by rw [hrank, Int.natCast_add]⟩
  intro hnext
  rw [hindex] at hnext ⊢
  rw [hpos]
  exact hroom hnext

theorem moves_of_innerSub {it it' : Iterator c} {steps : Nat} (hsteps : 0 < steps)
    (h : it.innerSub steps = some it') : it.Moves (-steps) it' := by
  obtain ⟨hindex, hpos, hrank⟩ := innerSub_spec h
  refine ⟨?_, by omega⟩
  intro _
  have hle := it.pos_le
  rw [hindex]
  omega

theorem prev_moves (it : Iterator c) : ∀ it', it.prev = some it' → it.Moves (-1) it' := by
  fun_induction prev it with
  | case1 it hfirst => exact fun it' h => moves_of_innerSub Nat.one_pos h
  | case2 it hfirst hbegin ih =>
      intro it' h
      obtain ⟨hcanonical, hrank⟩ := ih it' h
      refine ⟨hcanonical, ?_⟩
      rw [hrank, rank_emplaceEnd, rank, hbegin, Nat.sub_add_cancel (Nat.pos_of_ne_zero hfirst)]
      rfl
  | case3 it hfirst hbegin => exact fun it' h => moves_of_innerSub Nat.one_pos h

theorem prev_isSome (it : Iterator c) : 0 < it.rank → ∃ it', it.prev = some it' := by
  fun_induction prev it with
  | case1 it hfirst =>
      intro h
      apply innerSub_isSome
      rw [rank, hfirst, before_zero, Nat.zero_add] at h
      exact h
  | case2 it hfirst hbegin ih =>
      intro h
      apply ih
      rw [rank_emplaceEnd, Nat.sub_add_cancel (Nat.pos_of_ne_zero hfirst)]
      rw [rank, hbegin] at h
      exact h
  | case3 it hfirst hbegin => exact fun _ => innerSub_isSome (Nat.pos_of_ne_zero hbegin)

/-- The offset passed along is always the place in the current view. -/
theorem advanceFwd_moves (it : Iterator c) (offset steps : Nat) (hoffset : offset = it.pos) :
    ∀ it', it.advanceFwd offset steps = some it' → it.Moves steps it' := by
  fun_induction advanceFwd it offset steps with
  | case1 it offset steps hnext hin =>
      intro it' h
      apply moves_of_innerAdd h
      intro _
      rw [← hoffset]
      exact hin
  | case2 it offset steps hnext hout ih =>
      intro it' h
      obtain ⟨hcanonical, hrank⟩ := ih rfl it' h
      refine ⟨hcanonical, ?_⟩
      have hle : (c.view it.index).length ≤ offset + steps := Nat.le_of_not_lt hout
      have hsucc : before c.views (it.index + 1) =
          before c.views it.index + (c.view it.index).length := before_succ _ _
      rw [hrank, rank_emplaceBegin, hsucc, rank, ← hoffset]
      omega
  | case3 it offset steps hlast =>
      intro it' h
      exact moves_of_innerAdd h fun hnext => absurd hnext hlast

theorem advanceFwd_isSome (it : Iterator c) (offset steps : Nat) (hoffset : offset = it.pos) :
    it.rank + steps ≤ c.elements.length → ∃ it', it.advanceFwd offset steps = some it' := by
  fun_induction advanceFwd it offset steps with
  | case1 it offset steps hnext hin =>
      intro _
      apply innerAdd_isSome
      rw [← hoffset]
      exact Nat.le_of_lt hin
  | case2 it offset steps hnext hout ih =>
      intro h
      apply ih rfl
      have hle : (c.view it.index).length ≤ offset + steps := Nat.le_of_not_lt hout
      have hsucc : before c.views (it.index + 1) =
          before c.views it.index + (c.view it.index).length := before_succ _ _
      rw [rank, ← hoffset] at h
      rw [rank_emplaceBegin, hsucc]
      omega
  | case3 it offset steps hlast => exact innerAdd_last hlast

theorem advanceBwd_moves (it : Iterator c) (offset steps : Nat) (hoffset : offset = it.pos)
    (hsteps : 0 < steps) :
    ∀ it', it.advanceBwd offset steps = some it' → it.Moves (-steps) it' := by
  fun_induction advanceBwd it offset steps with
  | case1 it offset steps hfirst => exact fun it' h => moves_of_innerSub hsteps h
  | case2 it offset steps hfirst hin => exact fun it' h => moves_of_innerSub hsteps h
  | case3 it offset steps hfirst hout ih =>
      intro it' h
      have hlt : offset < steps := Nat.lt_of_not_le hout
      obtain ⟨hcanonical, hrank⟩ := ih rfl (Nat.sub_pos_of_lt hlt) it' h
      refine ⟨hcanonical, ?_⟩
      rw [hrank, rank_emplaceEnd, Nat.sub_add_cancel (Nat.pos_of_ne_zero hfirst), rank, ← hoffset]
      omega

theorem advanceBwd_isSome (it : Iterator c) (offset steps : Nat) (hoffset : offset = it.pos) :
    steps ≤ it.rank → ∃ it', it.advanceBwd offset steps = some it' := by
  fun_induction advanceBwd it offset steps with
  | case1 it offset steps hfirst =>
      intro h
      apply innerSub_isSome
      rw [rank, hfirst, before_zero, Nat.zero_add] at h
      exact h
  | case2 it offset steps hfirst hin =>
      intro _
      apply innerSub_isSome
      rw [← hoffset]
      exact hin
  | case3 it offset steps hfirst hout ih =>
      intro h
      apply ih rfl
      rw [rank, ← hoffset] at h
      rw [rank_emplaceEnd, Nat.sub_add_cancel (Nat.pos_of_ne_zero hfirst)]
      omega

theorem advance_moves {it it' : Iterator c} {n : Int} (hit : it.Canonical)
    (h : it.advance n = some it') : it.Moves n it' := by
  unfold advance at h
  split at h
  case isTrue hpos =>
    have hmoves := advanceFwd_moves it it.pos n.toNat rfl it' h
    rw [Int.toNat_of_nonneg (Int.le_of_lt hpos)] at hmoves
    exact hmoves
  case isFalse hnonpos =>
    split at h
    case isTrue hneg =>
      have hmoves := advanceBwd_moves it it.pos (-n).toNat rfl (by omega) it' h
      rw [Int.toNat_of_nonneg (by omega), Int.neg_neg] at hmoves
      exact hmoves
    case isFalse hnonneg =>
      cases h
      exact ⟨hit, by omega⟩

theorem advance_isSome {it : Iterator c} {n : Int} (hlow : 0 ≤ it.rank + n)
    (hhigh : it.rank + n ≤ c.elements.length) : ∃ it', it.advance n = some it' := by
  unfold advance
  split
  case isTrue hpos => exact advanceFwd_isSome it it.pos n.toNat rfl (by omega)
  case isFalse hnonpos =>
    split
    case isTrue hneg => exact advanceBwd_isSome it it.pos (-n).toNat rfl (by omega)
    case isFalse hnonneg => exact ⟨it, rfl⟩

end Iterator

theorem beginIterator_spec (c : ConcatView α) :
    c.beginIterator.Canonical ∧ c.beginIterator.rank = 0 :=
  (Iterator.emplaceBegin 0 c.positive).satisfy_spec

theorem endIterator_spec (c : ConcatView α) :
    c.endIterator.Canonical ∧ c.endIterator.rank = c.elements.length := by
  have hcount : c.count - 1 + 1 = c.count := Nat.sub_add_cancel c.positive
  constructor
  · intro hnext
    change c.count - 1 + 1 < c.count at hnext
    exact absurd hcount (Nat.ne_of_lt hnext)
  · rw [ConcatView.endIterator, Iterator.rank_emplaceEnd, hcount, ConcatView.elements,
      ← before_length]
    rfl

theorem Iterator.isSentinel_iff {it : Iterator c} :
    it.isSentinel = true ↔ it = c.endIterator := by
  simp only [isSentinel, Bool.and_eq_true, beq_iff_eq]
  constructor
  · rintro ⟨hindex, hpos⟩
    exact ext_index hindex hpos
  · rintro rfl
    exact ⟨rfl, rfl⟩

end YkUtil.Ranges
