import YkUtil.Lib.Segments

/-!
The concatenation of a pack of views and its iterator. A view is the list of
its elements; an iterator into it is an offset that is at most its length.
Moving an iterator out of its view is undefined behaviour, modelled by `none`.
-/

namespace YkUtil.Ranges

universe u

variable {α : Type u}

structure ConcatView (α : Type u) where
  views : List (List α)
  /-- `sizeof...(Views) > 0` -/
  positive : 0 < views.length

namespace ConcatView

/-- `sizeof...(Views)` -/
def count (c : ConcatView α) : Nat := c.views.length

def view (c : ConcatView α) (n : Nat) : List α := c.views.getD n []

end ConcatView

/-- The variant `iter_`: which view the iterator is in, and where. -/
structure Iterator (c : ConcatView α) where
  index : Nat
  pos : Nat
  index_lt : index < c.count
  pos_le : pos ≤ (c.view index).length

namespace Iterator

variable {c : ConcatView α}

theorem ext_index {x y : Iterator c} (hindex : x.index = y.index) (hpos : x.pos = y.pos) :
    x = y := by
  cases x
  cases y
  cases hindex
  cases hpos
  rfl

/-- `operator==` compares the variants: the alternative, then the value. -/
instance : DecidableEq (Iterator c) := fun x y =>
  decidable_of_iff (x.index = y.index ∧ x.pos = y.pos)
    ⟨fun h => ext_index h.1 h.2, fun h => ⟨congrArg index h, congrArg pos h⟩⟩

/-- The begin of one of the views. -/
def emplaceBegin (n : Nat) (h : n < c.count) : Iterator c :=
  ⟨n, 0, h, Nat.zero_le _⟩

/-- The end of one of the views. -/
def emplaceEnd (n : Nat) (h : n < c.count) : Iterator c :=
  ⟨n, (c.view n).length, h, Nat.le_refl _⟩

/-- `std::get<N>(iter_) += steps` -/
def innerAdd (it : Iterator c) (steps : Nat) : Option (Iterator c) :=
  if h : it.pos + steps ≤ (c.view it.index).length then
    some ⟨it.index, it.pos + steps, it.index_lt, h⟩
  else none

/-- `std::get<N>(iter_) -= steps` -/
def innerSub (it : Iterator c) (steps : Nat) : Option (Iterator c) :=
  if steps ≤ it.pos then
    some ⟨it.index, it.pos - steps, it.index_lt, Nat.le_trans (Nat.sub_le _ _) it.pos_le⟩
  else none

def satisfy (it : Iterator c) : Iterator c :=
  if h : it.index + 1 < c.count then
    if it.pos = (c.view it.index).length then satisfy (emplaceBegin (it.index + 1) h) else it
  else it
termination_by c.count - it.index
decreasing_by
  simp only [emplaceBegin]
  omega

def prev (it : Iterator c) : Option (Iterator c) :=
  if it.index = 0 then it.innerSub 1
  else if it.pos = 0 then
    prev (emplaceEnd (it.index - 1) (Nat.lt_of_le_of_lt (Nat.sub_le _ _) it.index_lt))
  else it.innerSub 1
termination_by it.index
decreasing_by
  simp only [emplaceEnd]
  omega

/-- `operator*`; no element is at the end of a view. -/
def deref (it : Iterator c) : Option α := (c.view it.index)[it.pos]?

/-- `operator++` -/
def increment (it : Iterator c) : Option (Iterator c) :=
  (it.innerAdd 1).map satisfy

/-- `operator--` -/
def decrement (it : Iterator c) : Option (Iterator c) := it.prev

def advanceFwd (it : Iterator c) (offset steps : Nat) : Option (Iterator c) :=
  if h : it.index + 1 < c.count then
    if offset + steps < (c.view it.index).length then it.innerAdd steps
    else
      advanceFwd (emplaceBegin (it.index + 1) h) 0
        (offset + steps - (c.view it.index).length)
  else it.innerAdd steps
termination_by c.count - it.index
decreasing_by
  simp only [emplaceBegin]
  omega

def advanceBwd (it : Iterator c) (offset steps : Nat) : Option (Iterator c) :=
  if it.index = 0 then it.innerSub steps
  else if steps ≤ offset then it.innerSub steps
  else
    advanceBwd (emplaceEnd (it.index - 1) (Nat.lt_of_le_of_lt (Nat.sub_le _ _) it.index_lt))
      (c.view (it.index - 1)).length (steps - offset)
termination_by it.index
decreasing_by
  simp only [emplaceEnd]
  omega

/-- `operator+=` -/
def advance (it : Iterator c) (n : Int) : Option (Iterator c) :=
  if 0 < n then it.advanceFwd it.pos n.toNat
  else if n < 0 then it.advanceBwd it.pos (-n).toNat
  else some it

/-- Comparison with `std::default_sentinel`. -/
def isSentinel (it : Iterator c) : Bool :=
  it.index == c.count - 1 && it.pos == (c.view (c.count - 1)).length

end Iterator

namespace ConcatView

variable (c : ConcatView α)

def beginIterator : Iterator c := (Iterator.emplaceBegin 0 c.positive).satisfy

def endIterator : Iterator c :=
  .emplaceEnd (c.count - 1) (Nat.sub_lt c.positive Nat.one_pos)

end ConcatView

end YkUtil.Ranges
