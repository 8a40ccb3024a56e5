import YkUtil.Exec.Scheduler.Lifecycle
import YkUtil.Lib.IntegerType

/-!
The constructor of `scheduler_stats` for a range that knows its size. The size
comes in the range's own integer type and is kept in a `long long`.
-/

namespace YkUtil.Exec

open YkUtil.Lib

/-- `UNPREDICTABLE`. -/
def unpredictable : BitVec longLong.width := longLong.cast (-1)

def tooManyProducerInputs : InvalidArgument := ⟨"too many producer inputs"⟩

/-- The greatest `long long`, in the type of the size. -/
def sizeLimit (ty : IntegerType) : BitVec ty.width := ty.cast longLong.max

/-- What becomes of `producer_input_total`. Both sides of the comparison have the
type of the size, so it compares their numbers. -/
def inputTotal (ty : IntegerType) (rawSize : BitVec ty.width) :
    Except InvalidArgument (BitVec longLong.width) :=
  if ty.read rawSize > ty.read (sizeLimit ty) then .error tooManyProducerInputs
  else .ok (longLong.cast (ty.read rawSize))

namespace SchedulerStats

/-- The statistics of a range that says its size. -/
def ofSize (ty : IntegerType) (rawSize : BitVec ty.width) :
    Except InvalidArgument SchedulerStats :=
  (inputTotal ty rawSize).map fun total =>
    ofInputs (total != unpredictable) (longLong.read total).toNat

end SchedulerStats

variable {ty : IntegerType}

theorem read_sizeLimit_of_wide (hwide : 64 ≤ ty.width) :
    ty.read (sizeLimit ty) = longLong.max := by
  apply ty.read_cast_of_le_max (by decide)
  have hpow : (2 : Int) ^ 63 ≤ 2 ^ (ty.width - 1) := pow_le_pow_right₀ (by decide) (by omega)
  have hpow' : (2 : Int) ^ (ty.width - 1) ≤ 2 ^ ty.width :=
    pow_le_pow_right₀ (by decide) (by omega)
  rw [longLong_max]
  unfold IntegerType.max
  split <;> omega

/-- A narrower type has only the low bits of the limit, and these are ones. -/
theorem read_sizeLimit_of_narrow (hnarrow : ty.width < 64) :
    ty.read (sizeLimit ty) = if ty.signed then -1 else ty.max :=
  ty.read_cast_all_ones (Nat.lt_succ_iff.mp hnarrow)

theorem le_longLong_of_narrow (hnarrow : ty.width < 64) (rawSize : BitVec ty.width) :
    ty.read rawSize ≤ longLong.max := by
  have hpow : (2 : Int) ^ ty.width ≤ 2 ^ 63 := pow_le_pow_right₀ (by decide) (by omega)
  have hpow' : (2 : Int) ^ (ty.width - 1) ≤ 2 ^ ty.width :=
    pow_le_pow_right₀ (by decide) (by omega)
  have hmax := ty.read_le_max rawSize
  rw [longLong_max]
  unfold IntegerType.max at hmax
  split at hmax <;> omega

theorem longLong_read_cast {n : Int} (hn : 0 ≤ n) (hmax : n ≤ longLong.max) :
    longLong.read (longLong.cast n) = n ∧ longLong.cast n ≠ unpredictable := by
  have hread := longLong.read_cast_of_le_max hn hmax
  refine ⟨hread, fun heq => ?_⟩
  rw [heq] at hread
  have hminus : longLong.read unpredictable = -1 := by decide
  omega

/-- The constructor answers a size as it should: it rejects what a `long long`
has no room for, and keeps the rest exactly. -/
structure SizeKept (ty : IntegerType) (rawSize : BitVec ty.width) : Prop where
  throws_iff : inputTotal ty rawSize = .error tooManyProducerInputs ↔
    longLong.max < ty.read rawSize
  total_eq : ∀ total, inputTotal ty rawSize = .ok total →
    longLong.read total = ty.read rawSize ∧ total ≠ unpredictable

theorem SizeKept.of_limit {rawSize : BitVec ty.width} (hsize : 0 ≤ ty.read rawSize)
    (hlimit : ty.read (sizeLimit ty) < ty.read rawSize ↔ longLong.max < ty.read rawSize) :
    SizeKept ty rawSize := by
  by_cases hbig : longLong.max < ty.read rawSize
  · have hthrow : ty.read rawSize > ty.read (sizeLimit ty) := hlimit.mpr hbig
    refine ⟨?_, ?_⟩ <;> rw [inputTotal, if_pos hthrow]
    · exact iff_of_true rfl hbig
    · intro total htotal
      cases htotal
  · have hkeep : ¬ ty.read rawSize > ty.read (sizeLimit ty) := fun h => hbig (hlimit.mp h)
    refine ⟨?_, ?_⟩ <;> rw [inputTotal, if_neg hkeep]
    · exact iff_of_false (fun h => by cases h) hbig
    · intro total htotal
      cases htotal
      exact longLong_read_cast hsize (Int.not_lt.mp hbig)

/-- The statistics are those of the range, as the master thread makes them. -/
theorem SizeKept.ofSize_eq {α : Type*} {inputs : List α} {rawSize : BitVec ty.width}
    (hkept : SizeKept ty rawSize) (hsize : ty.read rawSize = inputs.length) :
    SchedulerStats.ofSize ty rawSize = SchedulerStats.ofRange true inputs := by
  have hmany : TooMany true inputs ↔ longLong.max < ty.read rawSize := by
    have hmax : longLong.max = countMax := rfl
    rw [TooMany, hmax, hsize, Int.ofNat_lt, eq_self, true_and]
  unfold SchedulerStats.ofSize SchedulerStats.ofRange
  cases htotal : inputTotal ty rawSize with
  | error e =>
      have he : e = tooManyProducerInputs := by
        unfold inputTotal at htotal
        split at htotal <;> cases htotal
        rfl
      subst he
      rw [if_pos (hmany.mpr (hkept.throws_iff.mp htotal))]
      rfl
  | ok total =>
      obtain ⟨hread, hne⟩ := hkept.total_eq total htotal
      have hfits : ¬ TooMany true inputs := by
        intro h
        rw [hkept.throws_iff.mpr (hmany.mp h)] at htotal
        cases htotal
      rw [if_neg hfits, Except.map, hread, hsize, bne_iff_ne.mpr hne, Int.toNat_natCast]

/-- For every integer type of the size and every size that is not negative, the
constructor throws exactly for what exceeds a `long long`, and keeps the size
otherwise, if and only if the type is unsigned or at least 64 bits wide. -/
theorem size_kept_iff (ty : IntegerType) (rawSize : BitVec ty.width)
    (hsize : 0 ≤ ty.read rawSize) :
    SizeKept ty rawSize ↔ ty.signed = false ∨ 64 ≤ ty.width := by
  constructor
  · intro hkept
    by_contra hother
    obtain ⟨hsigned, hnarrow⟩ : ty.signed = true ∧ ty.width < 64 := by
      simpa only [not_or, Bool.not_eq_false, Nat.not_le] using hother
    have hlimit := read_sizeLimit_of_narrow hnarrow
    rw [hsigned, if_pos rfl] at hlimit
    have hthrow : inputTotal ty rawSize = .error tooManyProducerInputs := by
      rw [inputTotal, if_pos (by omega)]
    have hbig := hkept.throws_iff.mp hthrow
    have hle := le_longLong_of_narrow hnarrow rawSize
    omega
  · intro hfits
    apply SizeKept.of_limit hsize
    by_cases hwide : 64 ≤ ty.width
    · rw [read_sizeLimit_of_wide hwide]
    · have hunsigned : ty.signed = false := hfits.resolve_right hwide
      have hnarrow : ty.width < 64 := Nat.not_le.mp hwide
      rw [read_sizeLimit_of_narrow hnarrow, hunsigned, if_neg Bool.false_ne_true]
      have hmax := ty.read_le_max rawSize
      have hle := le_longLong_of_narrow hnarrow rawSize
      exact iff_of_false (by omega) (by omega)

/-- A container whose `size()` returns an `int`. -/
theorem size_kept_iff_int32 : ¬ SizeKept int32 0 := fun hkept =>
  absurd ((size_kept_iff int32 0 (by decide)).mp hkept) (by decide)

/-- Three inputs, and a size of type `int`. -/
theorem small_signed_size_rejected :
    ¬ ∀ (ty : IntegerType) (rawSize : BitVec ty.width), 0 ≤ ty.read rawSize →
      SizeKept ty rawSize := by
  intro hall
  have hthrow : inputTotal int32 3 = .error tooManyProducerInputs := by decide
  exact absurd ((hall int32 3 (by decide)).throws_iff.mp hthrow) (by decide)

end YkUtil.Exec
