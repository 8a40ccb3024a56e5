import YkUtil.Ranges.Traversal

/-!
Moving an iterator by any number of places at once. `advance_fwd` and
`advance_bwd` leap over views; they arrive where single steps do.
-/

namespace YkUtil.Ranges

universe u

variable {α : Type u} {c : ConcatView α}

namespace Iterator

/-- `operator-=` -/
def retreat (it : Iterator c) (n : Int) : Option (Iterator c) := it.advance (-n)

/-- `it + n` stays between `begin` and `end`. -/
def InRange (it : Iterator c) (n : Int) : Prop :=
  0 ≤ it.rank + n ∧ it.rank + n ≤ c.elements.length

variable {it it' it'' : Iterator c} {n m : Int}

theorem Moves.trans (h : it.Moves n it') (h' : it'.Moves m it'') : it.Moves (n + m) it'' := by
  refine ⟨h'.1, ?_⟩
  rw [h'.2, h.2, Int.add_assoc]

theorem Moves.eq (h : it.Moves n it') (h' : it.Moves n it'') : it' = it'' := by
  apply h.1.eq_of_rank h'.1
  exact Int.ofNat.inj (h.2.trans h'.2.symm)

theorem advance_inRange (hit : it.Canonical) (h : it.InRange n) :
    ∃ it', it.advance n = some it' ∧ it.Moves n it' := by
  obtain ⟨it', hadvance⟩ := advance_isSome h.1 h.2
  exact ⟨it', hadvance, advance_moves hit hadvance⟩

theorem Moves.deref (h : it.Moves n it') : it'.deref = c.elements[(it.rank + n).toNat]? := by
  rw [h.1.deref, ← h.2, Int.toNat_natCast]

/-- What `+=` does is undone by `-=`. -/
theorem advance_retreat (hit : it.Canonical) (h : it.advance n = some it') :
    it'.retreat n = some it := by
  have hmoves := advance_moves hit h
  have hrank := hmoves.2
  have hle := it.rank_le
  obtain ⟨back, hback, hmoves'⟩ := advance_inRange (n := -n) hmoves.1 ⟨by omega, by omega⟩
  have heq : back = it := hmoves'.1.eq_of_rank hit (by
    have hrank' := hmoves'.2
    omega)
  rw [retreat, hback, heq]

end Iterator

open Iterator

end YkUtil.Ranges
