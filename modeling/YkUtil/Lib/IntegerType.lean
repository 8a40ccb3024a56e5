import Mathlib.Algebra.Order.BigOperators.Group.List
import Mathlib.Algebra.Order.Ring.Int
import Mathlib.Algebra.Order.Ring.Nat
import Mathlib.Tactic.TypeStar

/-!
Integer types of a given width, signed or not. A conversion keeps the bits that
the type has room for, so it keeps the number exactly when the type has it. A sum wraps
in an unsigned type, and has no value where it overflows a signed one.
-/

namespace YkUtil.Lib

structure IntegerType where
  width : Nat
  signed : Bool
  width_pos : 0 < width

def int32 : IntegerType := {width := 32, signed := true, width_pos := by decide}

def int64 : IntegerType := {width := 64, signed := true, width_pos := by decide}

namespace IntegerType

variable (ty : IntegerType)

/-- `std::make_unsigned_t` -/
def makeUnsigned : IntegerType := {ty with signed := false}

/-- The type of an operand: one that is narrower than `int` is promoted to it. -/
def promoted : IntegerType := if ty.width < 32 then int32 else ty

/-- The number that the bits stand for. -/
def read (bits : BitVec ty.width) : Int :=
  if ty.signed then bits.toInt else bits.toNat

/-- `static_cast` of a number to the type. -/
def cast (n : Int) : BitVec ty.width := BitVec.ofInt ty.width n

def max : Int :=
  if ty.signed then 2 ^ (ty.width - 1) - 1 else 2 ^ ty.width - 1

theorem read_le_max (bits : BitVec ty.width) : ty.read bits ≤ ty.max := by
  unfold read max
  split
  · have hlt := bits.toInt_lt
    omega
  · have hlt : (bits.toNat : Int) < 2 ^ ty.width := by exact_mod_cast bits.isLt
    omega

theorem read_cast_of_le_max {n : Int} (hn : 0 ≤ n) (hmax : n ≤ ty.max) :
    ty.read (ty.cast n) = n := by
  have hpos := ty.width_pos
  unfold read cast max at *
  split
  · rename_i hsigned
    rw [if_pos hsigned] at hmax
    apply BitVec.toInt_ofInt_eq_self hpos
    · have hneg : -(2 : Int) ^ (ty.width - 1) ≤ 0 := by simp
      omega
    · omega
  · rename_i hsigned
    rw [if_neg hsigned] at hmax
    rw [BitVec.toNat_ofInt, Int.toNat_of_nonneg (Int.emod_nonneg _ (by simp))]
    apply Int.emod_eq_of_lt hn
    push_cast
    omega

/-- The type keeps the bits that a number of it is read from. -/
theorem cast_read (bits : BitVec ty.width) : ty.cast (ty.read bits) = bits := by
  unfold cast read
  split
  · exact BitVec.ofInt_toInt
  · rw [BitVec.ofInt_natCast, BitVec.ofNat_toNat, BitVec.setWidth_eq]

theorem cast_add (m n : Int) : ty.cast (m + n) = ty.cast m + ty.cast n :=
  BitVec.ofInt_add m n

/-- The number that `n` becomes in the type. -/
def convert (n : Int) : Int := ty.read (ty.cast n)

theorem convert_of_le_max {n : Int} (hn : 0 ≤ n) (hmax : n ≤ ty.max) : ty.convert n = n :=
  ty.read_cast_of_le_max hn hmax

theorem convert_le_max (n : Int) : ty.convert n ≤ ty.max :=
  ty.read_le_max (ty.cast n)

/-- Sums may be converted once or after each addition. -/
theorem convert_convert_add (m n : Int) : ty.convert (ty.convert m + n) = ty.convert (m + n) := by
  unfold convert
  rw [cast_add, cast_read, ← cast_add]

theorem max_le_makeUnsigned_max : ty.max ≤ ty.makeUnsigned.max := by
  unfold max makeUnsigned
  have hle : (2 : Int) ^ (ty.width - 1) ≤ 2 ^ ty.width :=
    pow_le_pow_right₀ (by decide) (Nat.sub_le _ _)
  split
  · simp only [Bool.false_eq_true, if_false]
    omega
  · exact Int.le_refl _

/-- `m + n` in the type. -/
def add (m n : Int) : Option Int :=
  if ty.signed = true ∧ ty.convert (m + n) ≠ m + n then none else some (ty.convert (m + n))

/-- `(m + ... + ns)` -/
def addAll (m : Int) (ns : List Int) : Option Int := ns.foldlM ty.add m

/-- `(ns + ...)` -/
def addAllRight (ns : List Int) : Option Int := ns.foldrM ty.add 0

variable {ty} {m n v : Int} {ns : List Int}

theorem add_of_le_max (h : 0 ≤ m + n) (hmax : m + n ≤ ty.max) : ty.add m n = some (m + n) := by
  have hsame := ty.convert_of_le_max h hmax
  rw [add, if_neg (fun hno => hno.2 hsame), hsame]

theorem addAllRight_of_le_max (hns : ∀ n ∈ ns, 0 ≤ n) (hmax : ns.sum ≤ ty.max) :
    ty.addAllRight ns = some ns.sum := by
  induction ns with
  | nil => rfl
  | cons n ns ih =>
      have hn := hns n List.mem_cons_self
      have hrest : ∀ k ∈ ns, 0 ≤ k := fun k hk => hns k (List.mem_cons_of_mem _ hk)
      have hsum : 0 ≤ ns.sum := List.sum_nonneg hrest
      rw [List.sum_cons] at hmax ⊢
      have hright : List.foldrM ty.add 0 ns = some ns.sum := ih hrest (by omega)
      rw [addAllRight, List.foldrM_cons, hright]
      exact add_of_le_max (by omega) hmax

/-- All ones: the greatest number of a wider type becomes the greatest of an
unsigned type, and minus one in a signed type. -/
theorem read_cast_all_ones {k : Nat} (hk : ty.width ≤ k) :
    ty.read (ty.cast (2 ^ k - 1)) = if ty.signed then -1 else ty.max := by
  have hpos := ty.width_pos
  have hsplit : (2 : Int) ^ k - 1 = -1 + (2 ^ ty.width : Nat) * 2 ^ (k - ty.width) := by
    push_cast
    rw [← pow_add, Nat.add_sub_cancel' hk]
    omega
  have htwo : (2 : Int) ≤ 2 ^ ty.width := by
    calc (2 : Int) = 2 ^ 1 := rfl
      _ ≤ 2 ^ ty.width := pow_le_pow_right₀ (by omega) hpos
  unfold read cast max
  split
  · rw [BitVec.toInt_ofInt, hsplit, Int.add_mul_bmod_self_left]
    apply Int.bmod_eq_of_le <;> push_cast <;> omega
  · rw [BitVec.toNat_ofInt, Int.toNat_of_nonneg (Int.emod_nonneg _ (by simp)), hsplit,
      Int.add_mul_emod_self_left]
    push_cast
    rw [← Int.add_emod_right]
    rw [Int.emod_eq_of_lt (by omega) (by omega)]
    omega

end IntegerType

end YkUtil.Lib
