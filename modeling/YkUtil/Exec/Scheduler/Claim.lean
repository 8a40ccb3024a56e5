import YkUtil.Exec.Scheduler.Stats

/-!
The first block of `do_worker_producer`, which claims a chunk. The chunk size is a
`long long`, and `std::ranges::advance` takes a number of the difference type of the
range's iterator, which may be narrower: the iterator moves by what is left of the chunk
size in that type, and the rest that is not moved is taken from the whole chunk size.
-/

namespace YkUtil.Exec

open YkUtil.Lib

/-- `it_first`, the number of inputs from there to `it_last`, and `count`. -/
structure Chunk where
  first : Nat
  inputs : Nat
  count : Int
  deriving DecidableEq

/-- `std::ranges::advance(it, n, end)` with `it` at `pos`: how far the iterator moves, and
the rest that is returned. There is no answer where `n` is negative in the difference
type, as the call does not allow it. -/
def rangesAdvance (difference : IntegerType) (inputs pos : Nat) (n : Int) : Option (Nat × Int) :=
  if difference.convert n < 0 then none
  else
    let moved := min (difference.convert n).toNat (inputs - pos)
    some (moved, difference.convert n - moved)

/-- The chunk that starts at `pos`. -/
def takeChunk (difference : IntegerType) (inputs pos : Nat) (chunkSize : Int) : Option Chunk :=
  (rangesAdvance difference inputs pos chunkSize).map fun moved =>
    {first := pos, inputs := moved.1, count := unsignedLongLong.convert (chunkSize - moved.2)}

/-- What the block comes to. -/
inductive ClaimResult where
  | noInput
  | undefined
  | takes (chunk : Chunk) (stats : SchedulerStats) (error : Option LogicError)

def claimBlock (difference : IntegerType) (inputs pos : Nat) (chunkSize : Int)
    (stats : SchedulerStats) : ClaimResult :=
  if pos = inputs then .noInput
  else match takeChunk difference inputs pos chunkSize with
    | none => .undefined
    | some chunk =>
        let stats' := {stats with
          producerInputConsumed := longLong.convert (stats.producerInputConsumed + chunk.count)}
        if pos + chunk.inputs = inputs then
          .takes chunk stats'.setProducerInputConsumedAll.1 stats'.setProducerInputConsumedAll.2
        else .takes chunk stats' none

/-- `set_producer_chunk_size` throws on a size below one. Its parameter is a `long long`. -/
def newChunkSize (stored chunkSize : Int) : Int :=
  if longLong.convert chunkSize < 1 then stored else longLong.convert chunkSize

theorem one_le_newChunkSize {stored : Int} (h : 1 ≤ stored) (chunkSize : Int) :
    1 ≤ newChunkSize stored chunkSize := by
  unfold newChunkSize
  split
  · exact h
  · omega

variable {difference : IntegerType} {inputs pos : Nat} {chunkSize : Int} {chunk : Chunk}

theorem takeChunk_bounds (h : takeChunk difference inputs pos chunkSize = some chunk) :
    chunk.first = pos ∧ chunk.inputs ≤ inputs - pos := by
  simp only [takeChunk, rangesAdvance, Option.map_eq_some_iff, Option.ite_none_left_eq_some,
    Option.some.injEq] at h
  obtain ⟨moved, ⟨-, rfl⟩, rfl⟩ := h
  exact ⟨rfl, Nat.min_le_right _ _⟩

/-- A claim raises the flag when it reaches the end. -/
theorem claimBlock_of_take {stats : SchedulerStats} (hne : pos ≠ inputs)
    (hflag : stats.producerInputConsumedAll = false)
    (htake : takeChunk difference inputs pos chunkSize = some chunk) :
    claimBlock difference inputs pos chunkSize stats = .takes chunk {stats with
      producerInputConsumed := longLong.convert (stats.producerInputConsumed + chunk.count)
      producerInputConsumedAll := decide (pos + chunk.inputs = inputs)} none := by
  rw [claimBlock, if_neg hne, htake]
  by_cases hlast : pos + chunk.inputs = inputs
  · simp only [if_pos hlast, hflag, SchedulerStats.setProducerInputConsumedAll,
      Bool.false_eq_true, if_false, decide_eq_true hlast]
  · simp only [if_neg hlast, decide_eq_false hlast]
    rw [← hflag]

/-- The inputs that a chunk should have. -/
def chunkInputs (inputs pos : Nat) (chunkSize : Int) : Nat := min chunkSize.toNat (inputs - pos)

/-- The difference type has the chunk size, and a `long long` the inputs claimed so far. -/
structure ChunkFits (difference : IntegerType) (inputs pos : Nat) (chunkSize : Int) : Prop where
  size : chunkSize ≤ difference.max
  claimed : (pos + chunkInputs inputs pos chunkSize : Nat) ≤ longLong.max

instance : Decidable (ChunkFits difference inputs pos chunkSize) :=
  decidable_of_iff (chunkSize ≤ difference.max ∧
    (pos + chunkInputs inputs pos chunkSize : Nat) ≤ longLong.max)
    ⟨fun h => ⟨h.1, h.2⟩, fun h => ⟨h.size, h.claimed⟩⟩

/-- Then the chunk is as large as it should be, and counts its inputs. -/
theorem takeChunk_of_fits (hfits : ChunkFits difference inputs pos chunkSize)
    (hsize : 1 ≤ chunkSize) : takeChunk difference inputs pos chunkSize =
      some {
        first := pos
        inputs := chunkInputs inputs pos chunkSize
        count := chunkInputs inputs pos chunkSize} := by
  have hconvert : difference.convert chunkSize = chunkSize :=
    difference.convert_of_le_max (by omega) hfits.size
  have hnot : ¬ chunkSize < 0 := by omega
  have hmax : longLong.max ≤ unsignedLongLong.max := by decide
  have hclaimed := hfits.claimed
  have hcount : unsignedLongLong.convert (chunkInputs inputs pos chunkSize) =
      chunkInputs inputs pos chunkSize :=
    unsignedLongLong.convert_of_le_max (by omega) (by omega)
  simp only [takeChunk, rangesAdvance, hconvert, if_neg hnot, Option.map_some]
  rw [← chunkInputs, Int.sub_sub_self, hcount]

end YkUtil.Exec
