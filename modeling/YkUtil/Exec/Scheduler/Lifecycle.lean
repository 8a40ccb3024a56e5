import YkUtil.Lib.TransitionSystem
import YkUtil.Exec.Scheduler.Workers

/-!
The calls of the master thread. `start` checks the `is_running` flag of the statistics,
and nothing raises it. The blocks of the workers run in between, in any order.
`set_producer_inputs` and `reset_same_inputs_for_next_execution` check the flag too, but
cannot be called: both assign `{producer_inputs_}` to the statistics, whose constructors
from a range are explicit.
-/

namespace YkUtil.Exec

open YkUtil.Lib

/-- `std::invalid_argument`. -/
structure InvalidArgument where
  what : String
  deriving DecidableEq

/-- `std::numeric_limits<scheduler_stats::count_type>::max()`. -/
def countMax : Nat := 9223372036854775807

/-- The size of a `sized` range exceeds the count type of the statistics. -/
def TooMany {α : Type*} (sized : Bool) (inputs : List α) : Prop :=
  sized = true ∧ countMax < inputs.length

instance {α : Type*} (sized : Bool) (inputs : List α) : Decidable (TooMany sized inputs) :=
  inferInstanceAs (Decidable (_ ∧ _))

/-- The constructor of `scheduler_stats`. -/
def SchedulerStats.ofRange {α : Type*} (sized : Bool) (inputs : List α) :
    Except InvalidArgument SchedulerStats :=
  if TooMany sized inputs then .error ⟨"too many producer inputs"⟩
  else .ok (.ofInputs sized inputs.length)

/-- What a scheduler is constructed with; its constructor has not thrown. A
`lazy` one has a default-constructed range. -/
structure LifecycleConfig (α : Type*) where
  sized : Bool
  lazy : Bool
  inputs : List α
  workerLimit : Nat
  difference : IntegerType
  fits : ¬ TooMany sized inputs

/-- `pos` is the claim iterator. `workers` are the launched threads in order, and
`started` holds from a `start` that has launched them to the end of `abort`. -/
structure Lifecycle (α : Type*) where
  inputs : List α
  pos : Nat
  chunkSize : Int
  stats : SchedulerStats
  isRunning : Bool
  workers : List WorkerKind
  started : Bool

inductive LifecycleAction (α : Type*) where
  | start
  | setProducerChunkSize (chunkSize : Int)
  | claim
  | report (count : Int) (gate : Nat)
  | consume (gate : Nat)
  | abort

namespace Lifecycle

variable {α : Type*}

/-- The two fixed workers and `launch_rest`. -/
def launch (workerLimit : Nat) (workers : List WorkerKind) : List WorkerKind :=
  let fixed := workers ++ [.fixedConsumer, .fixedProducer]
  fixed ++ List.replicate (workerLimit - fixed.length) .dynamicWorker

def start (workerLimit : Nat) (s : Lifecycle α) : Lifecycle α × Option InvalidArgument :=
  if s.isRunning then
    (s, some ⟨"Cannot start the scheduler while the jobs are running"⟩)
  else if s.stats.producerInputProcessedAll then
    (s, some ⟨"Cannot start the scheduler after a successful iteration." ++
      " If this is your intended action, call: reset_same_inputs_for_next_execution()"⟩)
  else ({s with workers := launch workerLimit s.workers, started := true}, none)

/-- The first block of `do_worker_producer`. -/
def claim (difference : IntegerType) (s : Lifecycle α) : Option (Lifecycle α) :=
  match claimBlock difference s.inputs.length s.pos s.chunkSize s.stats with
  | .noInput => some s
  | .undefined => none
  | .takes chunk stats _ => some {s with pos := s.pos + chunk.inputs, stats := stats}

def setProducerChunkSize (s : Lifecycle α) (chunkSize : Int) : Lifecycle α :=
  {s with chunkSize := newChunkSize s.chunkSize chunkSize}

/-- The blocks of the workers need a worker. -/
def step (cfg : LifecycleConfig α) (s : Lifecycle α) : LifecycleAction α → Option (Lifecycle α)
  | .start => some (s.start cfg.workerLimit).1
  | .setProducerChunkSize chunkSize => some (s.setProducerChunkSize chunkSize)
  | .claim => if s.workers = [] then none else s.claim cfg.difference
  | .report count gate =>
      if s.workers = [] then none
      else some {s with stats := (Scheduler.reportChunk s.stats count gate).1}
  | .consume gate =>
      if s.workers = [] then none
      else some {s with stats := {s.stats with
        consumerInputProcessed := s.stats.consumerInputProcessed + gate}}
  | .abort => some {s with workers := [], started := false}

def system (cfg : LifecycleConfig α) : TransitionSystem (Lifecycle α) (LifecycleAction α) :=
  {init :=
    {inputs := cfg.inputs
     pos := if cfg.lazy then cfg.inputs.length else 0
     chunkSize := 1
     stats := .ofInputs cfg.sized cfg.inputs.length
     isRunning := false
     workers := []
     started := false}
   step := step cfg}

/-- A call that throws and leaves everything as it was. -/
def Rejected (s : Lifecycle α) (result : Lifecycle α × Option InvalidArgument) : Prop :=
  result.2.isSome = true ∧ result.1 = s

variable {cfg : LifecycleConfig α} {s : Lifecycle α}

theorem start_isRunning (h : s.isRunning = false) (workerLimit : Nat) :
    (s.start workerLimit).1.isRunning = false := by
  unfold start
  split
  · exact h
  · split <;> exact h

/-- No path raises the flag. -/
theorem isRunning_false (h : (system cfg).Reachable s) : s.isRunning = false := by
  refine (system cfg).invariant (P := fun s => s.isRunning = false) rfl ?_ h
  intro s a t _ hs hstep
  cases a with
  | start =>
      cases hstep
      exact start_isRunning hs _
  | claim =>
      simp only [system, step, Option.ite_none_left_eq_some] at hstep
      obtain ⟨_, hstep⟩ := hstep
      unfold claim at hstep
      split at hstep <;> cases hstep
      · exact hs
      · exact hs
  | report count gate | consume gate =>
      simp only [system, step, Option.ite_none_left_eq_some] at hstep
      obtain ⟨_, hstep⟩ := hstep
      cases hstep
      exact hs
  | setProducerChunkSize | abort =>
      cases hstep
      exact hs

/-- For any inputs, chunk sizes and blocks of any workers in any order, started
or not: a `start` throws and leaves everything as it was if and only if the processed
inputs are complete. -/
theorem running_calls_rejected_iff (h : (system cfg).Reachable s) :
    Rejected s (s.start cfg.workerLimit) ↔ s.stats.producerInputProcessedAll = true := by
  have hflag := isRunning_false h
  unfold start
  rw [if_neg (by simp [hflag])]
  split
  · rename_i hall
    exact iff_of_true ⟨rfl, rfl⟩ hall
  · rename_i hall
    refine iff_of_false (fun hrejected => ?_) hall
    cases hrejected.1

/-- One input, reported and not yet consumed: a further start is rejected. -/
theorem running_calls_rejected_iff_reported :
    ∃ s : Lifecycle Nat, (system ⟨true, false, [5], 2, int32, by decide⟩).Reachable s ∧
      s.started = true ∧ s.stats.isAllTaskDone = false ∧ Rejected s (s.start 2) := by
  obtain ⟨s, hrun, hs⟩ :=
    (system (α := Nat) ⟨true, false, [5], 2, int32, by decide⟩).exists_of_map
      [.start, .claim, .report 1 1] (b := (true, false, true))
      (fun s => (s.started, s.stats.isAllTaskDone, s.stats.producerInputProcessedAll)) rfl
  simp only [Prod.mk.injEq] at hs
  obtain ⟨hstarted, hdone, hall⟩ := hs
  exact ⟨s, hrun.reachable, hstarted, hdone, (running_calls_rejected_iff hrun.reachable).mpr hall⟩

/-- Two workers have claimed an input each; a second start is accepted, and launches two
more fixed workers. -/
theorem running_calls_accepted :
    ∃ s : Lifecycle Nat, (system ⟨true, false, [5, 6, 7], 2, int32, by decide⟩).Reachable s ∧
      s.started = true ∧ s.stats.isAllTaskDone = false ∧ s.pos = 2 ∧ (s.start 2).2 = none ∧
      (s.start 2).1.workers = [.fixedConsumer, .fixedProducer, .fixedConsumer, .fixedProducer] := by
  obtain ⟨s, hrun, hs⟩ :=
    (system (α := Nat) ⟨true, false, [5, 6, 7], 2, int32, by decide⟩).exists_of_map
      [.start, .claim, .claim]
      (b := (true, false, 2, none,
        [.fixedConsumer, .fixedProducer, .fixedConsumer, .fixedProducer]))
      (fun s => (s.started, s.stats.isAllTaskDone, s.pos, (s.start 2).2, (s.start 2).1.workers)) rfl
  simp only [Prod.mk.injEq] at hs
  exact ⟨s, hrun.reachable, hs⟩

end Lifecycle

end YkUtil.Exec
