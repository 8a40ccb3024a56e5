import YkUtil.Lib.IntegerType

/-!
`scheduler_stats`: what the workers have claimed, finished and counted so far.
-/

namespace YkUtil.Exec

open YkUtil.Lib

/-- `count_type`. -/
def longLong : IntegerType := int64

/-- `unsigned long long`. -/
def unsignedLongLong : IntegerType := int64.makeUnsigned

theorem longLong_max : longLong.max = 2 ^ 63 - 1 := rfl

/-- `std::logic_error`, by the call that throws it. -/
inductive LogicError where
  | consumedAllTwice
  | processedAllTwice
  | countMismatch (total : Nat) (processed : Int)
  deriving DecidableEq

/-- `producerInputTotal` is `none` where the source has `UNPREDICTABLE`. One chunk can
raise the counts of the inputs by any number, so these are numbers of `count_type` and
wrap. -/
structure SchedulerStats where
  producerInputTotal : Option Nat
  producerInputConsumed : Int
  producerInputProcessed : Int
  producerOutput : Nat
  consumerInputProcessed : Nat
  producerInputConsumedAll : Bool
  producerInputProcessedAll : Bool
  deriving DecidableEq

namespace SchedulerStats

/-- The statistics of a range of `inputs` elements, which may not know its own
size. -/
def ofInputs (sized : Bool) (inputs : Nat) : SchedulerStats :=
  {producerInputTotal := if sized then some inputs else none
   producerInputConsumed := 0
   producerInputProcessed := 0
   producerOutput := 0
   consumerInputProcessed := 0
   producerInputConsumedAll := false
   producerInputProcessedAll := false}

/-- Both setters leave the statistics as they are when the exception leaves
them, and the exception with them. -/
def setProducerInputConsumedAll (stats : SchedulerStats) : SchedulerStats × Option LogicError :=
  if stats.producerInputConsumedAll then (stats, some .consumedAllTwice)
  else ({stats with producerInputConsumedAll := true}, none)

def setProducerInputProcessedAll (stats : SchedulerStats) : SchedulerStats × Option LogicError :=
  if stats.producerInputProcessedAll then (stats, some .processedAllTwice)
  else
    let stats' := {stats with producerInputProcessedAll := true}
    match stats.producerInputTotal with
    | none => (stats', none)
    | some total =>
        if stats.producerInputProcessed ≠ total then
          (stats', some (.countMismatch total stats.producerInputProcessed))
        else (stats', none)

def isConsumerInputProcessedAll (stats : SchedulerStats) : Bool :=
  stats.consumerInputProcessed == stats.producerOutput

def isAllTaskDone (stats : SchedulerStats) : Bool :=
  stats.producerInputProcessedAll && stats.isConsumerInputProcessedAll

theorem isAllTaskDone_iff (stats : SchedulerStats) : stats.isAllTaskDone = true ↔
    stats.producerInputProcessedAll = true ∧
      stats.consumerInputProcessed = stats.producerOutput := by
  simp [isAllTaskDone, isConsumerInputProcessedAll]

end SchedulerStats

end YkUtil.Exec
