import YkUtil.Ranges.Position

/-!
Traversing a concatenation from either end. Every iterator that the operations
can produce is canonical, so the loops can be followed by rank alone.
-/

namespace YkUtil.Ranges

universe u

variable {α : Type u} {c : ConcatView α} {it it' : Iterator c}

/-- The iterators that can be made from `begin` and `end`. -/
inductive Reachable : Iterator c → Prop where
  | atBegin : Reachable c.beginIterator
  | atEnd : Reachable c.endIterator
  | increment {it it' : Iterator c} : Reachable it → it.increment = some it' → Reachable it'
  | decrement {it it' : Iterator c} : Reachable it → it.decrement = some it' → Reachable it'
  | advance {it it' : Iterator c} {n : Int} :
      Reachable it → it.advance n = some it' → Reachable it'

theorem Reachable.canonical (h : Reachable it) : it.Canonical := by
  induction h with
  | atBegin => exact (beginIterator_spec c).1
  | atEnd => exact (endIterator_spec c).1
  | increment _ hstep _ => exact (Iterator.increment_moves hstep).1
  | decrement _ hstep _ => exact (Iterator.prev_moves _ _ hstep).1
  | advance _ hstep ih => exact (Iterator.advance_moves ih hstep).1

theorem Iterator.Canonical.eq_end_iff (h : it.Canonical) :
    it = c.endIterator ↔ it.rank = c.elements.length := by
  obtain ⟨hcanonical, hrank⟩ := endIterator_spec c
  constructor
  · rintro rfl
    exact hrank
  · intro hit
    exact h.eq_of_rank hcanonical (hit.trans hrank.symm)

theorem Iterator.Canonical.eq_begin_iff (h : it.Canonical) :
    it = c.beginIterator ↔ it.rank = 0 := by
  obtain ⟨hcanonical, hrank⟩ := beginIterator_spec c
  constructor
  · rintro rfl
    exact hrank
  · intro hit
    exact h.eq_of_rank hcanonical (hit.trans hrank.symm)

theorem increment_decrement (hit : it.Canonical) (h : it.increment = some it') :
    it'.decrement = some it := by
  obtain ⟨-, hrank⟩ := Iterator.increment_moves h
  obtain ⟨back, hback⟩ := Iterator.prev_isSome it' (by omega)
  obtain ⟨hcanonical, hrank'⟩ := Iterator.prev_moves it' back hback
  have heq : back = it := hcanonical.eq_of_rank hit (by omega)
  rw [Iterator.decrement, hback, heq]

theorem decrement_increment (hit : it.Canonical) (h : it.decrement = some it') :
    it'.increment = some it := by
  obtain ⟨hcanonical, hrank⟩ := Iterator.prev_moves it it' h
  have hle := it.rank_le
  obtain ⟨forth, hforth⟩ := Iterator.increment_isSome hcanonical (by omega)
  obtain ⟨hcanonical', hrank'⟩ := Iterator.increment_moves hforth
  have heq : forth = it := hcanonical'.eq_of_rank hit (by omega)
  rw [hforth, heq]

/-- `for (; !done(it); ++it) visit(*it)`, where a loop that runs out of fuel or
leaves its view has no result. -/
def forward (done : Iterator c → Bool) : Nat → Iterator c → Option (List α)
  | 0, _ => none
  | fuel + 1, it =>
    if done it then some []
    else
      it.deref.bind fun value =>
      it.increment.bind fun next =>
      (forward done fuel next).map (value :: ·)

/-- `while (it != begin) visit(*--it)` -/
def backward : Nat → Iterator c → Option (List α)
  | 0, _ => none
  | fuel + 1, it =>
    if it = c.beginIterator then some []
    else
      it.decrement.bind fun prior =>
      prior.deref.bind fun value =>
      (backward fuel prior).map (value :: ·)

theorem forward_eq {done : Iterator c → Bool}
    (hdone : ∀ it, done it = true ↔ it = c.endIterator) (fuel : Nat) (hit : it.Canonical)
    (hfuel : c.elements.length < it.rank + fuel) :
    forward done fuel it = some (c.elements.drop it.rank) := by
  induction fuel generalizing it with
  | zero => exact absurd hfuel (Nat.not_lt_of_le it.rank_le)
  | succ fuel ih =>
      have hend := (hdone it).trans hit.eq_end_iff
      rw [forward]
      split
      case isTrue h => rw [hend.mp h, List.drop_length]
      case isFalse h =>
        have hlt : it.rank < c.elements.length := Nat.lt_of_le_of_ne it.rank_le (mt hend.mpr h)
        obtain ⟨next, hnext⟩ := Iterator.increment_isSome hit hlt
        obtain ⟨hcanonical, hrank⟩ := Iterator.increment_moves hnext
        have hsucc : next.rank = it.rank + 1 := by omega
        have hrest := ih hcanonical (by omega)
        rw [hit.deref, List.getElem?_eq_getElem hlt, hnext]
        simp only [Option.bind_some, hrest, hsucc, Option.map_some,
          List.drop_eq_getElem_cons hlt]

theorem backward_eq (fuel : Nat) (hit : it.Canonical) (hfuel : it.rank < fuel) :
    backward fuel it = some (c.elements.take it.rank).reverse := by
  induction fuel generalizing it with
  | zero => exact absurd hfuel (Nat.not_lt_zero _)
  | succ fuel ih =>
      rw [backward]
      split
      case isTrue h => rw [hit.eq_begin_iff.mp h, List.take_zero, List.reverse_nil]
      case isFalse h =>
        have hpos : 0 < it.rank := Nat.pos_of_ne_zero (mt hit.eq_begin_iff.mpr h)
        obtain ⟨prior, hprior⟩ := Iterator.prev_isSome it hpos
        obtain ⟨hcanonical, hrank⟩ := Iterator.prev_moves it prior hprior
        have hsucc : it.rank = prior.rank + 1 := by omega
        have hle := it.rank_le
        have hlt : prior.rank < c.elements.length := by omega
        have hrest := ih hcanonical (by omega)
        rw [Iterator.decrement, hprior]
        simp only [Option.bind_some, Option.map_some, hcanonical.deref,
          List.getElem?_eq_getElem hlt, hrest, hsucc, List.take_succ_eq_append_getElem hlt,
          List.reverse_append, List.reverse_singleton, List.singleton_append]

/-- The loop from `begin` visits the concatenation in order and stops at `end`,
the loop from `end` visits it in reverse, and a step either way is undone by
the opposite step. -/
theorem concat_traversal (c : ConcatView α) :
    (∀ fuel, c.elements.length < fuel →
      forward (· = c.endIterator) fuel c.beginIterator = some c.elements ∧
      forward Iterator.isSentinel fuel c.beginIterator = some c.elements ∧
      backward fuel c.endIterator = some c.elements.reverse) ∧
    ∀ it : Iterator c, Reachable it →
      (it ≠ c.endIterator → ∃ next, it.increment = some next ∧ next.decrement = some it) ∧
      (it ≠ c.beginIterator → ∃ prior, it.decrement = some prior ∧ prior.increment = some it) := by
  obtain ⟨hbegin, hzero⟩ := beginIterator_spec c
  obtain ⟨hend, hlength⟩ := endIterator_spec c
  constructor
  · intro fuel hfuel
    have hfuel' : c.elements.length < c.beginIterator.rank + fuel := by omega
    refine ⟨?_, ?_, ?_⟩
    · rw [forward_eq (fun it => decide_eq_true_iff) fuel hbegin hfuel', hzero, List.drop_zero]
    · rw [forward_eq (fun it => Iterator.isSentinel_iff) fuel hbegin hfuel', hzero,
        List.drop_zero]
    · rw [backward_eq fuel hend (by omega), hlength, List.take_length]
  · intro it hit
    have hcanonical := hit.canonical
    constructor
    · intro hne
      have hlt : it.rank < c.elements.length :=
        Nat.lt_of_le_of_ne it.rank_le (mt hcanonical.eq_end_iff.mpr hne)
      obtain ⟨next, hnext⟩ := Iterator.increment_isSome hcanonical hlt
      exact ⟨next, hnext, increment_decrement hcanonical hnext⟩
    · intro hne
      have hpos : 0 < it.rank := Nat.pos_of_ne_zero (mt hcanonical.eq_begin_iff.mpr hne)
      obtain ⟨prior, hprior⟩ := Iterator.prev_isSome it hpos
      exact ⟨prior, hprior, decrement_increment hcanonical hprior⟩

/-- Empty views in front, in the middle and at the back. -/
def gaps : ConcatView Nat := ⟨[[], [1, 2], [], [3], []], by decide⟩

theorem concat_traversal_gaps :
    backward 4 gaps.endIterator = some [3, 2, 1] ∧
      ∃ next, gaps.beginIterator.increment = some next ∧
        next.decrement = some gaps.beginIterator := by
  constructor
  · exact ((concat_traversal gaps).1 4 (by decide)).2.2
  · apply ((concat_traversal gaps).2 gaps.beginIterator .atBegin).1
    intro heq
    have hrank := congrArg Iterator.rank heq
    rw [(beginIterator_spec gaps).2, (endIterator_spec gaps).2] at hrank
    cases hrank

end YkUtil.Ranges
