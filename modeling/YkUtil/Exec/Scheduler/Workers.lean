import YkUtil.Lib.TransitionSystem
import YkUtil.Lib.ThreadSum
import YkUtil.Exec.Scheduler.Claim

/-!
The workers of a `multi_push`/`multi_pop` scheduler. A worker is a program
counter and takes one step at a time: a lock-protected block, a step of a user
function, or a queue operation. The user functions may push and pop any number
of values. The queue keeps at most `capacity` values and gives out any of them.
There is no stop, no close and no exception from a user function.
-/

namespace YkUtil.Exec

open YkUtil.Lib

/-- A scheduler as it is started. The input range has `inputs` elements and
may be `sized`; a `lazy` one was default-constructed with the scheduler, whose
claim iterator then starts at the end of the range. `difference` is the difference
type of the iterator. -/
structure SchedulerConfig where
  inputs : Nat
  sized : Bool
  lazy : Bool
  capacity : Nat
  workers : Nat
  difference : IntegerType

/-- Where `last_producer_input_it_` starts. -/
def SchedulerConfig.first (cfg : SchedulerConfig) : Nat := if cfg.lazy then cfg.inputs else 0

inductive WorkerKind where
  | fixedConsumer
  | fixedProducer
  | dynamicWorker
  deriving DecidableEq

/-- `start` launches a fixed consumer, a fixed producer and dynamic workers for
the rest. -/
def WorkerKind.ofId (id : Nat) : WorkerKind :=
  if id = 0 then .fixedConsumer else if id = 1 then .fixedProducer else .dynamicWorker

/-- Where a worker is. `gate` is the count of its gate, which `mark_access`
raises before the queue operation. A worker that produces has claimed `chunk`
and is in the producer function of the first of its last `left` inputs; one
that consumes has popped the values `taken` in this call. Of one that has made an
undefined call nothing is known. -/
inductive WorkerPc (T : Type*) where
  | claim
  | produce (chunk : Chunk) (left gate : Nat)
  | push (chunk : Chunk) (left gate : Nat) (v : T)
  | producerUpdate (chunk : Chunk) (gate : Nat)
  | consume (gate : Nat) (taken : List T)
  | pop (gate : Nat) (taken : List T)
  | consumerUpdate (gate : Nat) (taken : List T)
  | left
  | threw (error : LogicError)
  | undefined
  deriving DecidableEq

structure Scheduler (W : Nat) (T : Type*) where
  pos : Nat
  chunkSize : Int
  stats : SchedulerStats
  queue : List T
  pc : Fin W → WorkerPc T
  pushed : Multiset T
  settled : Multiset T
  notifies : Nat

/-- The step of a worker, with what the user function or the scheduler of the
threads decides. `reachesOne` is the outcome of `p_c_ratio >= 1.0`, a division
of doubles. -/
inductive WorkerAction (T : Type*) where
  | claim
  | callPush (v : T)
  | push
  | endInput
  | producerUpdate (reachesOne : Bool)
  | callPop
  | pop (index : Nat)
  | endCall
  | consumerUpdate (reachesOne : Bool)

inductive SchedulerAction (W : Nat) (T : Type*) where
  | worker (id : Fin W) (action : WorkerAction T)
  | setProducerChunkSize (chunkSize : Int)

namespace Scheduler

variable {W : Nat} {T : Type*}

/-- A worker starts `do_worker_consumer`. -/
def startConsumer : WorkerPc T := .consume 0 []

/-- What the loop of each kind of worker does with the result of
`do_worker_producer`. A false result carries the ratio 0.0. -/
def afterProducer (kind : WorkerKind) (ok reachesOne : Bool) : WorkerPc T :=
  match kind with
  | .fixedProducer => if ok then .claim else startConsumer
  | .dynamicWorker => if ok then (if reachesOne then startConsumer else .claim) else startConsumer
  | .fixedConsumer => startConsumer

/-- The same for `do_worker_consumer`. -/
def afterConsumer (kind : WorkerKind) (ok reachesOne : Bool) : WorkerPc T :=
  match kind with
  | .fixedProducer | .fixedConsumer => if ok then startConsumer else .left
  | .dynamicWorker => if ok then (if reachesOne then startConsumer else .claim) else .left

/-- Worker `id` goes on at `pc`. -/
def move (s : Scheduler W T) (id : Fin W) (pc : WorkerPc T) : Scheduler W T :=
  {s with pc := Function.update s.pc id pc}

/-- The loop over the inputs of a chunk, with a new gate. -/
def enterChunk (chunk : Chunk) : WorkerPc T :=
  if chunk.inputs = 0 then .producerUpdate chunk 0 else .produce chunk chunk.inputs 0

/-- The first block of `do_worker_producer`. -/
def claim (cfg : SchedulerConfig) (s : Scheduler W T) (id : Fin W) : Scheduler W T :=
  match claimBlock cfg.difference cfg.inputs s.pos s.chunkSize s.stats with
  | .noInput => s.move id (afterProducer (.ofId id) false false)
  | .undefined => s.move id .undefined
  | .takes chunk stats none =>
      {s with pos := s.pos + chunk.inputs, stats := stats}.move id (enterChunk chunk)
  | .takes chunk stats (some error) =>
      {s with pos := s.pos + chunk.inputs, stats := stats}.move id (.threw error)

/-- What the second block of `do_worker_producer` makes of the statistics. -/
def reportChunk (stats : SchedulerStats) (count : Int) (gate : Nat) :
    SchedulerStats × Option LogicError :=
  let stats' := {stats with
    producerInputProcessed := longLong.convert (stats.producerInputProcessed + count)
    producerOutput := stats.producerOutput + gate}
  if stats'.producerInputConsumedAll ∧
      stats'.producerInputConsumed ≤ stats'.producerInputProcessed then
    stats'.setProducerInputProcessedAll
  else (stats', none)

/-- The second block of `do_worker_producer`. -/
def producerUpdate (s : Scheduler W T) (id : Fin W) (chunk : Chunk) (gate : Nat)
    (reachesOne : Bool) : Scheduler W T :=
  match reportChunk s.stats chunk.count gate with
  | (stats, some error) => {s with stats := stats}.move id (.threw error)
  | (stats, none) =>
      if stats.isAllTaskDone then
        {s with stats := stats, notifies := s.notifies + 1}.move id
          (afterProducer (.ofId id) false false)
      else if stats.producerInputConsumedAll then
        {s with stats := stats}.move id (afterProducer (.ofId id) false false)
      else {s with stats := stats}.move id (afterProducer (.ofId id) true reachesOne)

/-- The block of `do_worker_consumer`. The values of the call are settled. -/
def consumerUpdate (s : Scheduler W T) (id : Fin W) (gate : Nat) (taken : List T)
    (reachesOne : Bool) : Scheduler W T :=
  let stats := {s.stats with
    consumerInputProcessed := s.stats.consumerInputProcessed + gate}
  let s' := {s with stats := stats, settled := s.settled + taken}
  if stats.isAllTaskDone then
    {s' with notifies := s.notifies + 1}.move id (afterConsumer (.ofId id) false false)
  else s'.move id (afterConsumer (.ofId id) true reachesOne)

def workerStep (cfg : SchedulerConfig) (s : Scheduler W T) (id : Fin W) :
    WorkerPc T → WorkerAction T → Option (Scheduler W T)
  | .claim, .claim => some (s.claim cfg id)
  | .produce chunk left gate, .callPush v => some (s.move id (.push chunk left (gate + 1) v))
  | .push chunk left gate v, .push =>
      if s.queue.length < cfg.capacity then
        some ({s with queue := s.queue ++ [v], pushed := s.pushed + {v}}.move id
          (.produce chunk left gate))
      else none
  | .produce chunk left gate, .endInput =>
      if left ≤ 1 then some (s.move id (.producerUpdate chunk gate))
      else some (s.move id (.produce chunk (left - 1) gate))
  | .producerUpdate chunk gate, .producerUpdate reachesOne =>
      some (s.producerUpdate id chunk gate reachesOne)
  | .consume gate taken, .callPop => some (s.move id (.pop (gate + 1) taken))
  | .pop gate taken, .pop index =>
      match s.queue[index]? with
      | none => none
      | some v =>
          some ({s with queue := s.queue.eraseIdx index}.move id (.consume gate (taken ++ [v])))
  | .consume gate taken, .endCall => some (s.move id (.consumerUpdate gate taken))
  | .consumerUpdate gate taken, .consumerUpdate reachesOne =>
      some (s.consumerUpdate id gate taken reachesOne)
  | _, _ => none

/-- Everything a worker's step can be. -/
inductive WorkerStep (cfg : SchedulerConfig) (s : Scheduler W T) (id : Fin W) :
    WorkerAction T → Scheduler W T → Prop where
  | endOfInput (hpc : s.pc id = .claim) (hend : s.pos = cfg.inputs) :
      WorkerStep cfg s id .claim (s.move id startConsumer)
  | claims (hpc : s.pc id = .claim) (hmore : s.pos ≠ cfg.inputs) :
      WorkerStep cfg s id .claim (s.claim cfg id)
  | callsPush {chunk : Chunk} {left gate : Nat} (v : T) (hpc : s.pc id = .produce chunk left gate) :
      WorkerStep cfg s id (.callPush v) (s.move id (.push chunk left (gate + 1) v))
  | pushes {chunk : Chunk} {left gate : Nat} {v : T} (hpc : s.pc id = .push chunk left gate v)
      (hroom : s.queue.length < cfg.capacity) :
      WorkerStep cfg s id .push ({s with
        queue := s.queue ++ [v]
        pushed := s.pushed + {v}}.move id (.produce chunk left gate))
  | endsInput {chunk : Chunk} {left gate : Nat} (hpc : s.pc id = .produce chunk left gate)
      (hleft : 1 < left) :
      WorkerStep cfg s id .endInput (s.move id (.produce chunk (left - 1) gate))
  | endsChunk {chunk : Chunk} {left gate : Nat} (hpc : s.pc id = .produce chunk left gate)
      (hleft : left ≤ 1) :
      WorkerStep cfg s id .endInput (s.move id (.producerUpdate chunk gate))
  | reports {chunk : Chunk} {gate : Nat} (reachesOne : Bool)
      (hpc : s.pc id = .producerUpdate chunk gate) :
      WorkerStep cfg s id (.producerUpdate reachesOne) (s.producerUpdate id chunk gate reachesOne)
  | callsPop {gate : Nat} {taken : List T} (hpc : s.pc id = .consume gate taken) :
      WorkerStep cfg s id .callPop (s.move id (.pop (gate + 1) taken))
  | pops {gate : Nat} {taken : List T} {index : Nat} {v : T} (hpc : s.pc id = .pop gate taken)
      (hv : s.queue[index]? = some v) :
      WorkerStep cfg s id (.pop index) ({s with
        queue := s.queue.eraseIdx index}.move id (.consume gate (taken ++ [v])))
  | endsCall {gate : Nat} {taken : List T} (hpc : s.pc id = .consume gate taken) :
      WorkerStep cfg s id .endCall (s.move id (.consumerUpdate gate taken))
  | settles {gate : Nat} {taken : List T} (reachesOne : Bool)
      (hpc : s.pc id = .consumerUpdate gate taken) :
      WorkerStep cfg s id (.consumerUpdate reachesOne) (s.consumerUpdate id gate taken reachesOne)

theorem afterProducer_false (kind : WorkerKind) (reachesOne : Bool) :
    afterProducer kind false reachesOne = startConsumer (T := T) := by
  cases kind <;> rfl

theorem claim_of_end {cfg : SchedulerConfig} {s : Scheduler W T} {id : Fin W}
    (hend : s.pos = cfg.inputs) : s.claim cfg id = s.move id startConsumer := by
  rw [claim, claimBlock, if_pos hend]
  simp only [afterProducer_false]

theorem workerStep_cases {cfg : SchedulerConfig} {s t : Scheduler W T} {id : Fin W}
    {action : WorkerAction T} (h : s.workerStep cfg id (s.pc id) action = some t) :
    WorkerStep cfg s id action t := by
  cases hpc : s.pc id <;> cases action <;> rw [hpc] at h <;>
    simp only [workerStep, reduceCtorEq, Option.some.injEq] at h
  case claim.claim =>
    subst h
    by_cases hend : s.pos = cfg.inputs
    · rw [claim_of_end hend]
      exact .endOfInput hpc hend
    · exact .claims hpc hend
  case produce.callPush chunk left gate v =>
    subst h
    exact .callsPush v hpc
  case produce.endInput chunk left gate =>
    split at h <;> cases h
    · exact .endsChunk hpc (by assumption)
    · exact .endsInput hpc (by omega)
  case push.push chunk left gate v =>
    split at h <;> cases h
    exact .pushes hpc (by assumption)
  case producerUpdate.producerUpdate chunk gate reachesOne =>
    subst h
    exact .reports reachesOne hpc
  case consume.callPop gate taken =>
    subst h
    exact .callsPop hpc
  case consume.endCall gate taken =>
    subst h
    exact .endsCall hpc
  case pop.pop gate taken index =>
    split at h <;> cases h
    exact .pops hpc (by assumption)
  case consumerUpdate.consumerUpdate gate taken reachesOne =>
    subst h
    exact .settles reachesOne hpc

def setProducerChunkSize (s : Scheduler W T) (chunkSize : Int) : Scheduler W T :=
  {s with chunkSize := newChunkSize s.chunkSize chunkSize}

def step (cfg : SchedulerConfig) (s : Scheduler W T) :
    SchedulerAction W T → Option (Scheduler W T)
  | .worker id action => s.workerStep cfg id (s.pc id) action
  | .setProducerChunkSize chunkSize => some (s.setProducerChunkSize chunkSize)

/-- Every worker is at the head of its loop; a dynamic worker starts as a
producer. -/
def start (cfg : SchedulerConfig) (T : Type*) : Scheduler cfg.workers T :=
  {pos := cfg.first
   chunkSize := 1
   stats := .ofInputs cfg.sized cfg.inputs
   queue := []
   pc := fun id => if id.val = 0 then startConsumer else .claim
   pushed := 0
   settled := 0
   notifies := 0}

/-- The interleavings of the workers. -/
def system (cfg : SchedulerConfig) (T : Type*) :
    TransitionSystem (Scheduler cfg.workers T) (SchedulerAction cfg.workers T) :=
  {init := start cfg T, step := step cfg}

end Scheduler

end YkUtil.Exec
