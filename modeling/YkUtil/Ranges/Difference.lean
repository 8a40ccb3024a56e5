import YkUtil.Lib.IntegerType
import YkUtil.Ranges.RandomAccess

/-!
Distances between iterators, and their order. A distance is put together from
what is left of one view, the sizes of the views in between and what is passed
of the other view; the order is that of the variants. Both agree with the
number of elements in front of the iterators, as long as the types of the sizes and of
the distances have room for the numbers: the sizes are added up before they become a
distance, and `size` adds them in an unsigned type.
-/

namespace YkUtil.Ranges

open Lib Segments

universe u

variable {α : Type u} {c : ConcatView α}

namespace ConcatView

/-- `std::ranges::size` of a view. -/
def sizeAt (c : ConcatView α) (n : Nat) : Int := (c.view n).length

/-- `(0 + ... + size)` over `make_index_range<first, last>`, for views with this size
type. -/
def sizes (sizeType : IntegerType) (c : ConcatView α) (first last : Nat) : Option Int :=
  sizeType.promoted.addAll 0 ((List.range (last - first)).map fun k => c.sizeAt (first + k))

/-- `(CT(sizes) + ...)` -/
def size (sizeType : IntegerType) (c : ConcatView α) : Option Int :=
  sizeType.makeUnsigned.promoted.addAllRight
    (c.views.map fun view => sizeType.makeUnsigned.convert view.length)

/-- The size of a view and the distances in it are numbers of their types. -/
def ViewsFit (sizeType difference : IntegerType) (c : ConcatView α) : Prop :=
  ∀ view ∈ c.views, (view.length : Int) ≤ sizeType.max ∧ (view.length : Int) ≤ difference.max

variable {sizeType difference : IntegerType} {first last : Nat}

theorem sum_lengths (views : List (List α)) :
    (views.map fun view => (view.length : Int)).sum = views.flatten.length := by
  induction views with
  | nil => rfl
  | cons view rest ih =>
      rw [List.map_cons, List.sum_cons, ih, List.flatten_cons, List.length_append]
      rfl

theorem size_eq (hviews : c.ViewsFit sizeType difference)
    (hfits : c.elements.length ≤ sizeType.makeUnsigned.promoted.max) :
    c.size sizeType = some (c.elements.length : Int) := by
  have hconvert : (c.views.map fun view => sizeType.makeUnsigned.convert view.length) =
      c.views.map fun view => (view.length : Int) := by
    refine List.map_congr_left fun view hview => ?_
    exact IntegerType.convert_of_le_max _ (Int.natCast_nonneg _)
      ((hviews view hview).1.trans sizeType.max_le_makeUnsigned_max)
  rw [size, hconvert, IntegerType.addAllRight_of_le_max, sum_lengths]
  · rfl
  · intro n hn
    obtain ⟨view, -, rfl⟩ := List.mem_map.mp hn
    exact Int.natCast_nonneg _
  · rw [sum_lengths]
    exact hfits

end ConcatView

namespace Iterator

/-- The difference from an iterator to one in a later view. -/
def differenceLater (sizeType difference : IntegerType) (x y : Iterator c) : Option Int :=
  let dy : Int := (c.view y.index).length - y.pos
  let dx : Int := x.pos
  (c.sizes sizeType (y.index + 1) x.index).bind fun s =>
    (difference.add dy (difference.convert s)).bind fun d => difference.add d dx

/-- `x - y` -/
def difference (sizeType difference : IntegerType) (x y : Iterator c) : Option Int :=
  if x.index > y.index then differenceLater sizeType difference x y
  else if x.index < y.index then (differenceLater sizeType difference y x).map Neg.neg
  else some (x.pos - y.pos)

/-- `x < y`, the order of the variants: the alternative, then the value. -/
def lt (x y : Iterator c) : Prop :=
  x.index < y.index ∨ x.index = y.index ∧ x.pos < y.pos

instance (x y : Iterator c) : Decidable (x.lt y) := inferInstanceAs (Decidable (_ ∨ _))

/-- `x <=> y` -/
def threeWay (x y : Iterator c) : Ordering :=
  (compare x.index y.index).then (compare x.pos y.pos)

variable {x y z : Iterator c}

variable {sizeType difference : IntegerType}

theorem threeWay_lt_iff : x.threeWay y = .lt ↔ x.lt y := by
  rw [threeWay, lt, Ordering.then_eq_lt, Nat.compare_eq_lt, Nat.compare_eq_eq, Nat.compare_eq_lt]

end Iterator

open Iterator

variable {sizeType difference : IntegerType}

/-- Three times `iota(0, n)`. -/
def threeIotas (n : Nat) : ConcatView Nat :=
  {views := List.replicate 3 (List.range n)
   positive := Nat.succ_pos 2}

namespace threeIotas

variable {n : Nat}

theorem view_length {k : Nat} (hk : k < 3) : ((threeIotas n).view k).length = n := by
  have hget : (threeIotas n).view k = List.range n := by
    rw [ConcatView.view, threeIotas, List.getD_eq_getElem?_getD, List.getElem?_replicate,
      if_pos hk, Option.getD_some]
  rw [hget, List.length_range]

theorem before_next {k : Nat} (hk : k < 3) :
    before (threeIotas n).views (k + 1) = before (threeIotas n).views k + n := by
  rw [before_succ]
  exact congrArg _ (view_length hk)

theorem length : (threeIotas n).elements.length = 3 * n := by
  have hend : before (threeIotas n).views 3 = (threeIotas n).elements.length := before_length _
  have hzero : before (threeIotas n).views 0 = 0 := rfl
  rw [← hend, before_next (by decide), before_next (by decide), before_next (by decide), hzero]
  omega

theorem size_eq : (threeIotas n).size sizeType = sizeType.makeUnsigned.promoted.addAllRight
    (List.replicate 3 (sizeType.makeUnsigned.convert n)) := by
  rw [ConcatView.size, threeIotas, List.map_replicate, List.length_range]

end threeIotas

end YkUtil.Ranges
