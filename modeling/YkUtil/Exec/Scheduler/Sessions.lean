import YkUtil.Exec.Scheduler.Shutdown

/-!
Schedulers one after another on the same `worker_pool`. The destructor of a
scheduler halts the pool, and `halt` leaves the stop source as it is, so the
pool stays stopped: the workers of the next scheduler look for a stop first and
leave, and `wait_for_all_tasks` returns at once. A scheduler whose counts have gone
wrong may wake its master too early; then one of its workers throws in the end.
-/

namespace YkUtil.Exec

open YkUtil.Lib

/-- Where the master thread is: outside the scheduler, in `wait_for_all_tasks`
after the wait on `task_done_cv_`, or in the destructor, which joins the
threads. -/
inductive MasterPhase where
  | outside
  | woken
  | aborting
  deriving DecidableEq

/-- A scheduler that has been started and not yet destroyed. -/
structure Session (T : Type*) where
  cfg : StoppableConfig
  run : StoppableScheduler cfg.workers T
  phase : MasterPhase

/-- The pool, with the number of schedulers that were destroyed on it. Its
thread list is empty between two schedulers. -/
structure WorkerPool (T : Type*) where
  workerLimit : Nat
  stopRequested : Bool
  destroyed : Nat
  current : Option (Session T)

/-- The steps of the workers of the current scheduler and of the master thread.
No user function throws, and nobody but `abort` and a worker's thread halts the pool. -/
inductive PoolAction (T : Type*) where
  | setWorkerLimit (workerLimit : Int)
  | start (cfg : StoppableConfig)
  | worker (id : Nat) (action : WorkerAction T)
  | checkStop (id : Nat)
  | accessFails (id : Nat)
  | setProducerChunkSize (chunkSize : Int)
  | waitWakes
  | waitReturns
  | abort
  | destroyed

namespace WorkerPc

variable {T : Type*}

/-- The thread function has returned. -/
def ended : WorkerPc T → Bool
  | .left | .threw _ => true
  | _ => false

instance (pc : WorkerPc T) : Decidable pc.InChunk :=
  match pc with
  | .produce .. | .push .. | .producerUpdate .. => inferInstanceAs (Decidable True)
  | .claim | .consume .. | .pop .. | .consumerUpdate .. | .left | .threw _ | .undefined =>
      inferInstanceAs (Decidable False)

theorem outside_of_atLoop {pc : WorkerPc T} (h : pc.atLoop = true) :
    pc.thrown ≠ true ∧ ¬ pc.InChunk := by
  cases pc with
  | claim | consume => exact ⟨Bool.false_ne_true, fun hno => hno⟩
  | _ => cases h

end WorkerPc

namespace Session

variable {T : Type*}

def isAllTaskDone (x : Session T) : Bool := x.run.sched.stats.isAllTaskDone

/-- Every thread can be joined. -/
def Joinable (x : Session T) : Prop := ∀ id, (x.run.sched.pc id).ended = true

instance (x : Session T) : Decidable x.Joinable :=
  inferInstanceAs (Decidable (∀ _ : Fin _, _ = true))

/-- Nothing has thrown, and every chunk has been reported. -/
def Quiet (x : Session T) : Prop :=
  ∀ id, (x.run.sched.pc id).thrown ≠ true ∧ ¬ (x.run.sched.pc id).InChunk

instance (x : Session T) : Decidable x.Quiet :=
  inferInstanceAs (Decidable (∀ _ : Fin _, _ ∧ _))

/-- A step of the scheduler itself. -/
def act (x : Session T) (a : StoppableAction x.cfg.workers T) : Option (Session T) :=
  (StoppableScheduler.step x.cfg x.run a).map fun run =>
    {cfg := x.cfg, run := run, phase := x.phase}

def closeQueue (x : Session T) : Session T := {x with run := {x.run with closed := true}}

end Session

namespace WorkerPool

variable {T : Type*}

/-- `set_worker_limit` throws on a limit below two. -/
def setWorkerLimit (p : WorkerPool T) (workerLimit : Int) : WorkerPool T :=
  if workerLimit < 2 then p else {p with workerLimit := workerLimit.toNat}

/-- `start` launches two fixed workers and `launch_rest` the others up to the
limit. -/
def launched (p : WorkerPool T) : Nat := 2 + (p.workerLimit - 2)

/-- The current scheduler goes on as `x`. The stop source is the pool's. -/
def resume (p : WorkerPool T) (x : Session T) : WorkerPool T :=
  {p with stopRequested := x.run.stopRequested, current := some x}

def onWorker (p : WorkerPool T) (x : Session T) (id : Nat)
    (a : Fin x.cfg.workers → StoppableAction x.cfg.workers T) : Option (WorkerPool T) :=
  if h : id < x.cfg.workers then (x.act (a ⟨id, h⟩)).map p.resume else none

/-- `wait_for_all_tasks` after the wait: a stop closes the queue and joins the
threads. -/
def waitReturns (p : WorkerPool T) (x : Session T) : Option (WorkerPool T) :=
  if p.stopRequested then
    if x.Joinable then some (p.resume {x.closeQueue with phase := .outside}) else none
  else some (p.resume {x with phase := .outside})

/-- `abort` closes the queue and halts the pool. -/
def abort (p : WorkerPool T) (x : Session T) : WorkerPool T :=
  {p with
    stopRequested := true
    current := some {x with
      run := {x.run with closed := true, stopRequested := true}
      phase := .aborting}}

def sessionStep (p : WorkerPool T) (x : Session T) : PoolAction T → Option (WorkerPool T)
  | .worker id action => p.onWorker x id fun id => .worker id action
  | .checkStop id => p.onWorker x id .checkStop
  | .accessFails id => p.onWorker x id .accessFails
  | .setProducerChunkSize chunkSize => (x.act (.setProducerChunkSize chunkSize)).map p.resume
  | .waitWakes =>
      if x.phase = .outside ∧ (x.isAllTaskDone = true ∨ p.stopRequested = true) then
        some (p.resume {x with phase := .woken})
      else none
  | .waitReturns => if x.phase = .woken then p.waitReturns x else none
  | .abort => if x.phase = .outside then some (p.abort x) else none
  | .destroyed =>
      if x.phase = .aborting ∧ x.Joinable then
        some {p with destroyed := p.destroyed + 1, current := none}
      else none
  | .setWorkerLimit workerLimit => some (p.setWorkerLimit workerLimit)
  | .start _ => none

def step (p : WorkerPool T) (a : PoolAction T) : Option (WorkerPool T) :=
  match p.current, a with
  | none, .setWorkerLimit workerLimit => some (p.setWorkerLimit workerLimit)
  | none, .start cfg =>
      if cfg.workers = p.launched then
        some (p.resume
          {cfg := cfg, run := StoppableScheduler.start cfg T p.stopRequested, phase := .outside})
      else none
  | none, _ => none
  | some x, a => p.sessionStep x a

def system (hardwareConcurrency : Nat) (T : Type*) :
    TransitionSystem (WorkerPool T) (PoolAction T) :=
  {init :=
    {workerLimit := max 2 hardwareConcurrency
     stopRequested := false
     destroyed := 0
     current := none}
   step := step}

end WorkerPool

namespace Scheduler

variable {W : Nat} {T : Type*} {cfg : SchedulerConfig} {s t : Scheduler W T} {id : Fin W}
  {pc : WorkerPc T}

/-- An exception has left a block, or will: the input counts as processed, and a chunk
has not been reported yet. -/
def Doomed (s : Scheduler W T) : Prop :=
  (∃ id, (s.pc id).thrown = true) ∨
    (s.stats.producerInputProcessedAll = true ∧ ∃ id, (s.pc id).InChunk)

/-- Worker `id` goes on at `pc`, and stays in its chunk. -/
theorem Doomed.move (h : Doomed s) (hpc : t.pc = Function.update s.pc id pc)
    (hstats : t.stats = s.stats) (hthrown : (s.pc id).thrown = true → pc.thrown = true)
    (hchunk : (s.pc id).InChunk → pc.InChunk) : Doomed t := by
  have hself : t.pc id = pc := by rw [hpc, Function.update_self]
  have hothers {other : Fin W} (hne : other ≠ id) : t.pc other = s.pc other := by
    rw [hpc, Function.update_of_ne hne]
  rcases h with ⟨other, hother⟩ | ⟨hset, other, hother⟩
  · refine .inl ⟨other, ?_⟩
    by_cases heq : other = id
    · subst heq
      rw [hself]
      exact hthrown hother
    · rwa [hothers heq]
  · refine .inr ⟨hstats ▸ hset, other, ?_⟩
    by_cases heq : other = id
    · subst heq
      rw [hself]
      exact hchunk hother
    · rwa [hothers heq]

/-- A worker that has thrown is not the one that moves. -/
theorem not_thrown_of_step {action : WorkerAction T}
    (hstep : s.workerStep cfg id (s.pc id) action = some t) : (s.pc id).thrown ≠ true := by
  intro hthrown
  cases hpc : s.pc id with
  | threw error =>
      rw [hpc] at hstep
      cases action <;> cases hstep
  | _ => simp [hpc, WorkerPc.thrown] at hthrown

/-- The setter throws where the flag is up already. -/
theorem reportChunk_twice {stats : SchedulerStats} {count : Int} (output : Nat)
    (hset : stats.producerInputProcessedAll = true) (hall : stats.producerInputConsumedAll = true)
    (hcounts : stats.producerInputConsumed =
      longLong.convert (stats.producerInputProcessed + count)) :
    (reportChunk stats count output).2 = some .processedAllTwice := by
  simp [reportChunk, SchedulerStats.setProducerInputProcessedAll, hset, hall, hcounts]

theorem processed_stays (hinput : InputInv cfg s) {action : WorkerAction T}
    (hstep : s.workerStep cfg id (s.pc id) action = some t)
    (hset : s.stats.producerInputProcessedAll = true) :
    t.stats.producerInputProcessedAll = true := by
  cases workerStep_cases hstep with
  | claims _ hmore => exact absurd (hinput.consumedAll.mp (hinput.processed hset)).2 hmore
  | @reports chunk gate reachesOne =>
      rcases producerUpdate_cases s id chunk gate reachesOne with
        ⟨_, -, heq⟩ | ⟨_, _, _, -, heq, -⟩ <;> rw [heq]
      · simp [Scheduler.move, reportChunk_stats, hset]
      · simp [Scheduler.move, reportChunk_stats, hset]
  | settles reachesOne =>
      obtain ⟨_, _, _, heq, _⟩ := consumerUpdate_eq s id _ _ reachesOne
      rw [heq]
      exact hset
  | _ => exact hset

/-- A report leaves another chunk out, or throws. -/
theorem doomed_of_report (hinput : InputInv cfg s) {chunk : Chunk} {gate : Nat}
    {reachesOne : Bool} (hpc : s.pc id = .producerUpdate chunk gate)
    (hset : s.stats.producerInputProcessedAll = true) :
    Doomed (s.producerUpdate id chunk gate reachesOne) := by
  rcases producerUpdate_cases s id chunk gate reachesOne with
    ⟨error, -, heq⟩ | ⟨ok, r, n, hnone, heq, -⟩ <;> rw [heq]
  · exact .inl ⟨id, by simp [Scheduler.move, WorkerPc.thrown]⟩
  · by_cases hothers : ∀ other, other ≠ id → ¬ (s.pc other).InChunk
    · rw [reportChunk_twice gate hset (hinput.processed hset)
        (hinput.consumed_of_last hpc hothers)] at hnone
      cases hnone
    · push Not at hothers
      obtain ⟨other, hne, hother⟩ := hothers
      refine .inr ⟨?_, other, ?_⟩
      · simp [Scheduler.move, reportChunk_stats, hset]
      · simpa only [Scheduler.move, Function.update_of_ne hne] using hother

theorem Doomed.workerStep (h : Doomed s) (hinput : InputInv cfg s) {action : WorkerAction T}
    (hstep : s.workerStep cfg id (s.pc id) action = some t) : Doomed t := by
  rcases h with ⟨other, hother⟩ | ⟨hset, other, hother⟩
  · have hne : other ≠ id := by
      rintro rfl
      exact not_thrown_of_step hstep hother
    exact .inl ⟨other, by rwa [workerStep_pc_of_ne hne hstep]⟩
  · have hflag := processed_stays hinput hstep hset
    by_cases heq : other = id
    · subst heq
      cases workerStep_cases hstep with
      | callsPush | pushes | endsInput | endsChunk =>
          exact .inr ⟨hflag, other, by simp [Scheduler.move, WorkerPc.InChunk]⟩
      | reports _ hpc => exact doomed_of_report hinput hpc hset
      | endOfInput hpc | claims hpc | callsPop hpc | pops hpc | endsCall hpc | settles _ hpc =>
          rw [hpc] at hother
          exact hother.elim
    · exact .inr ⟨hflag, other, by rwa [workerStep_pc_of_ne heq hstep]⟩

end Scheduler

namespace Session

variable {T : Type*} {x y : Session T}

/-- The steps of a worker that does not throw. -/
def Works {W : Nat} : StoppableAction W T → Prop
  | .worker _ _ | .checkStop _ | .accessFails _ | .setProducerChunkSize _ => True
  | _ => False

/-- A scheduler on a pool that has not been stopped. -/
structure Live (x : Session T) : Prop where
  phase : x.phase ≠ .aborting
  inv : Scheduler.BaseInv x.cfg.toSchedulerConfig x.run.sched
  isOpen : x.run.closed = false
  notStopped : x.run.stopRequested = false
  woken : x.phase = .woken →
    x.isAllTaskDone = true ∧ Scheduler.Finished x.cfg.toSchedulerConfig x.run.sched

/-- A scheduler one of whose workers has thrown or will. -/
structure Broken (x : Session T) : Prop where
  input : Scheduler.InputInv x.cfg.toSchedulerConfig x.run.sched
  doomed : x.run.sched.Doomed

/-- A scheduler that was started on a stopped pool: no worker gets past the
stop check. -/
structure Skipped (x : Session T) : Prop where
  stopped : x.run.stopRequested = true
  entered : ∀ id, x.run.entered id = false
  head : ∀ id, (x.run.sched.pc id).atLoop = true ∨ x.run.sched.pc id = .left
  notDone : x.isAllTaskDone = false

theorem act_eq {a : StoppableAction x.cfg.workers T} (h : x.act a = some y) :
    ∃ run, StoppableScheduler.step x.cfg x.run a = some run ∧
      y = {cfg := x.cfg, run := run, phase := x.phase} := by
  simp only [Session.act, Option.map_eq_some_iff] at h
  obtain ⟨run, hrun, rfl⟩ := h
  exact ⟨run, hrun, rfl⟩

theorem act_phase {a : StoppableAction x.cfg.workers T} (h : x.act a = some y) :
    y.phase = x.phase := by
  obtain ⟨run, -, rfl⟩ := act_eq h
  rfl

/-- Nobody takes a stop back. -/
theorem act_stopRequested {a : StoppableAction x.cfg.workers T} (h : x.act a = some y)
    (hstop : x.run.stopRequested = true) : y.run.stopRequested = true := by
  obtain ⟨run, hrun, rfl⟩ := act_eq h
  cases StoppableScheduler.step_cases hrun with
  | blockThrows | throws | stops => rfl
  | _ => exact hstop

theorem Broken.act (h : x.Broken) {a : StoppableAction x.cfg.workers T}
    (hstep : x.act a = some y) : y.Broken := by
  obtain ⟨run, hrun, rfl⟩ := act_eq hstep
  refine ⟨StoppableScheduler.inputInv_step h.input hrun, ?_⟩
  cases StoppableScheduler.step_cases hrun with
  | works _ _ hworks | blockThrows _ _ hworks => exact h.doomed.workerStep h.input hworks
  | leaves _ _ _ hpc =>
      obtain ⟨hthrown, hin⟩ := WorkerPc.outside_of_atLoop hpc
      exact h.doomed.move rfl rfl (fun hthrew => absurd hthrew hthrown)
        (fun hchunk => absurd hchunk hin)
  | pushFails _ _ hpc =>
      exact h.doomed.move rfl rfl (fun hthrown => by simp [hpc, WorkerPc.thrown] at hthrown)
        (fun _ => trivial)
  | popFails _ _ hpc =>
      exact h.doomed.move rfl rfl (fun hthrown => by simp [hpc, WorkerPc.thrown] at hthrown)
        (fun hin => by simp [hpc, WorkerPc.InChunk] at hin)
  | setsChunkSize => exact h.doomed
  | enters | throws | closes | stops => exact h.doomed

/-- A step before the first destructor. A worker that throws breaks the scheduler. -/
theorem Live.act (h : x.Live) {a : StoppableAction x.cfg.workers T} (ha : Works a)
    (hstep : x.act a = some y) : y.Live ∨ y.Broken := by
  obtain ⟨run, hrun, rfl⟩ := act_eq hstep
  have hkeeps {b : SchedulerAction x.cfg.workers T}
      (hb : Scheduler.step x.cfg.toSchedulerConfig x.run.sched b = some run.sched)
      (hclosed : run.closed = x.run.closed) (hstop : run.stopRequested = x.run.stopRequested) :
      Live {cfg := x.cfg, run := run, phase := x.phase} := by
    refine ⟨h.phase, h.inv.step hb, hclosed.trans h.isOpen, hstop.trans h.notStopped,
      fun hwoken => ?_⟩
    obtain ⟨hdone, hfinished⟩ := h.woken hwoken
    obtain ⟨hstats, hstays⟩ := h.inv.values.finished_step hfinished hb
    exact ⟨(congrArg SchedulerStats.isAllTaskDone hstats).trans hdone, hstays⟩
  cases StoppableScheduler.step_cases hrun with
  | @works id action _ _ _ hworks => exact .inl (hkeeps (b := .worker id action) hworks rfl rfl)
  | @blockThrows id action _ _ _ hworks hthrown =>
      exact .inr ⟨h.inv.input.workerStep hworks, .inl ⟨id, hthrown⟩⟩
  | leaves _ hstop => simp [h.notStopped] at hstop
  | enters =>
      exact .inl ⟨h.phase, h.inv, h.isOpen, h.notStopped, h.woken⟩
  | setsChunkSize chunkSize =>
      exact .inl (hkeeps (b := .setProducerChunkSize chunkSize) rfl rfl rfl)
  | pushFails _ hclosed | popFails _ hclosed => simp [h.isOpen] at hclosed
  | throws | closes | stops => exact absurd ha id

/-- The wait of the master thread ends with everything finished, or in a scheduler that
is broken. -/
theorem Live.wakes (h : x.Live) (hdone : x.isAllTaskDone = true) :
    Live {x with phase := .woken} ∨ x.Broken := by
  by_cases hout : ∀ id, ¬ (x.run.sched.pc id).InChunk
  · have hend := (h.inv.input.claimed_of_done hdone).2
    have hcounts := ((SchedulerStats.isAllTaskDone_iff _).mp hdone).2
    exact .inl ⟨by simp, h.inv, h.isOpen, h.notStopped,
      fun _ => ⟨hdone, hend, hout, (h.inv.values.settled_iff hout).mp hcounts⟩⟩
  · obtain ⟨id, hid⟩ := not_forall_not.mp hout
    exact .inr ⟨h.inv.input, .inr ⟨((SchedulerStats.isAllTaskDone_iff _).mp hdone).1, id, hid⟩⟩

theorem Skipped.act (h : x.Skipped) {a : StoppableAction x.cfg.workers T}
    (hstep : x.act a = some y) : y.Skipped := by
  obtain ⟨run, hrun, rfl⟩ := act_eq hstep
  have hhead {id : Fin x.cfg.workers} {pc : WorkerPc T} (hpc : x.run.sched.pc id = pc) :
      pc.atLoop = true ∨ pc = .left := hpc ▸ h.head id
  cases StoppableScheduler.step_cases hrun with
  | works _ hentered => simp [h.entered] at hentered
  | blockThrows _ hentered | throws _ hentered => simp [h.entered] at hentered
  | @leaves id =>
      refine ⟨h.stopped, h.entered, fun other => ?_, h.notDone⟩
      by_cases heq : other = id
      · rw [heq]
        exact .inr (Function.update_self _ _ _)
      · simpa only [StoppableScheduler.move, Scheduler.move, Function.update_of_ne heq] using
          h.head other
  | enters _ hstop => simp [h.stopped] at hstop
  | pushFails _ _ hpc => simpa [WorkerPc.atLoop] using hhead hpc
  | popFails _ _ hpc => simpa [WorkerPc.atLoop] using hhead hpc
  | closes => exact ⟨h.stopped, h.entered, h.head, h.notDone⟩
  | stops => exact ⟨rfl, h.entered, h.head, h.notDone⟩
  | setsChunkSize => exact ⟨h.stopped, h.entered, h.head, h.notDone⟩

theorem live_start (cfg : StoppableConfig) :
    Live {cfg := cfg, run := StoppableScheduler.start cfg T false, phase := .outside} := by
  have hinv : Scheduler.BaseInv cfg.toSchedulerConfig (Scheduler.start cfg.toSchedulerConfig T) :=
    ⟨Scheduler.inputInv_start cfg.toSchedulerConfig, Scheduler.valueInv_start cfg.toSchedulerConfig⟩
  exact ⟨by simp, hinv, rfl, rfl, by simp⟩

theorem skipped_start (cfg : StoppableConfig) :
    Skipped {cfg := cfg, run := StoppableScheduler.start cfg T true, phase := .outside} := by
  refine ⟨rfl, fun _ => rfl, fun id => .inl ?_, rfl⟩
  simp only [StoppableScheduler.start, Scheduler.start]
  split <;> rfl

end Session

namespace WorkerPool

variable {T : Type*}

/-- The shapes of the pool. It is stopped from the first destructor on. -/
inductive PoolInv (p : WorkerPool T) : Prop where
  | unused (hdestroyed : p.destroyed = 0) (hstop : p.stopRequested = false)
      (hcurrent : p.current = none)
  | live (hdestroyed : p.destroyed = 0) (hstop : p.stopRequested = false) {x : Session T}
      (hcurrent : p.current = some x) (hlive : x.Live)
  | broken {x : Session T} (hcurrent : p.current = some x) (hphase : x.phase ≠ .aborting)
      (hbroken : x.Broken)
  | aborting {x : Session T} (hcurrent : p.current = some x)
      (hphase : x.phase = .aborting) (hstop : p.stopRequested = true)
      (hrun : x.run.stopRequested = true)
  | stopped (hdestroyed : 0 < p.destroyed) (hstop : p.stopRequested = true)
      (hcurrent : ∀ x, p.current = some x → x.Skipped)

theorem onWorker_eq {p q : WorkerPool T} {x : Session T} {id : Nat}
    {f : Fin x.cfg.workers → StoppableAction x.cfg.workers T}
    (h : p.onWorker x id f = some q) : ∃ id y, x.act (f id) = some y ∧ q = p.resume y := by
  unfold onWorker at h
  split at h
  · obtain ⟨y, hy, rfl⟩ := Option.map_eq_some_iff.mp h
    exact ⟨_, y, hy, rfl⟩
  · cases h

/-- A step of the current scheduler, of its master thread, or of its end. -/
inductive SessionStep (p : WorkerPool T) (x : Session T) : WorkerPool T → Prop where
  | acts {y : Session T} {a : StoppableAction x.cfg.workers T} (ha : Session.Works a)
      (hact : x.act a = some y) : SessionStep p x (p.resume y)
  | wakes (hphase : x.phase = .outside)
      (hwakes : x.isAllTaskDone = true ∨ p.stopRequested = true) :
      SessionStep p x (p.resume {x with phase := .woken})
  | returns {q : WorkerPool T} (hphase : x.phase = .woken)
      (hreturns : p.waitReturns x = some q) : SessionStep p x q
  | aborts (hphase : x.phase = .outside) : SessionStep p x (p.abort x)
  | ends (hphase : x.phase = .aborting) :
      SessionStep p x {p with destroyed := p.destroyed + 1, current := none}
  | setsLimit (workerLimit : Int) : SessionStep p x (p.setWorkerLimit workerLimit)

variable {p q : WorkerPool T} {a : PoolAction T} {x : Session T}

theorem sessionStep_cases (h : p.sessionStep x a = some q) : SessionStep p x q := by
  cases a with
  | worker id action | checkStop id | accessFails id =>
      simp only [sessionStep] at h
      obtain ⟨_, y, hy, rfl⟩ := onWorker_eq h
      exact .acts (by trivial) hy
  | setProducerChunkSize chunkSize =>
      simp only [sessionStep, Option.map_eq_some_iff] at h
      obtain ⟨y, hy, rfl⟩ := h
      exact .acts (by trivial) hy
  | waitWakes =>
      simp only [sessionStep, Option.ite_none_right_eq_some, Option.some.injEq] at h
      obtain ⟨⟨hphase, hwakes⟩, rfl⟩ := h
      exact .wakes hphase hwakes
  | waitReturns =>
      simp only [sessionStep, Option.ite_none_right_eq_some] at h
      exact .returns h.1 h.2
  | abort =>
      simp only [sessionStep, Option.ite_none_right_eq_some, Option.some.injEq] at h
      obtain ⟨hphase, rfl⟩ := h
      exact .aborts hphase
  | destroyed =>
      simp only [sessionStep, Option.ite_none_right_eq_some, Option.some.injEq] at h
      obtain ⟨⟨hphase, _⟩, rfl⟩ := h
      exact .ends hphase
  | setWorkerLimit workerLimit =>
      cases h
      exact .setsLimit workerLimit
  | start cfg => cases h

theorem PoolInv.start (h : PoolInv p) (hnone : p.current = none) (cfg : StoppableConfig) :
    PoolInv (p.resume
      {cfg := cfg, run := StoppableScheduler.start cfg T p.stopRequested, phase := .outside}) := by
  cases h with
  | unused hdestroyed hstop =>
      rw [hstop]
      exact .live hdestroyed rfl rfl (Session.live_start cfg)
  | live _ _ hcurrent | broken hcurrent | aborting hcurrent => simp [hnone] at hcurrent
  | stopped hdestroyed hstop =>
      rw [hstop]
      refine .stopped hdestroyed rfl fun y hy => ?_
      cases hy
      exact Session.skipped_start cfg

/-- A step while the pool has not been stopped. -/
theorem PoolInv.liveStep (hdestroyed : p.destroyed = 0) (hstop : p.stopRequested = false)
    (hcurrent : p.current = some x) (h : x.Live) (hstep : SessionStep p x q) : PoolInv q := by
  cases hstep with
  | acts ha hact =>
      rcases h.act ha hact with hlive | hbroken
      · exact .live hdestroyed hlive.notStopped rfl hlive
      · exact .broken rfl (Session.act_phase hact ▸ h.phase) hbroken
  | wakes _ hwakes =>
      rcases h.wakes (hwakes.resolve_right (by simp [hstop])) with hlive | hbroken
      · exact .live hdestroyed hlive.notStopped rfl hlive
      · exact .broken rfl (by simp) ⟨hbroken.input, hbroken.doomed⟩
  | returns _ hreturns =>
      simp only [waitReturns, hstop, Bool.false_eq_true, if_false, Option.some.injEq] at hreturns
      subst hreturns
      exact .live hdestroyed h.notStopped rfl ⟨by simp, h.inv, h.isOpen, h.notStopped, by simp⟩
  | aborts => exact .aborting rfl rfl rfl rfl
  | ends hphase => exact absurd hphase h.phase
  | setsLimit workerLimit =>
      unfold setWorkerLimit
      split <;> exact .live hdestroyed hstop hcurrent h

/-- What the return of the wait makes of the current scheduler. -/
theorem waitReturns_eq (h : p.waitReturns x = some q) : ∃ closed,
    q = p.resume {x with run := {x.run with closed := closed}, phase := .outside} := by
  unfold waitReturns at h
  split at h
  · simp only [Option.ite_none_right_eq_some, Option.some.injEq] at h
    obtain ⟨_, rfl⟩ := h
    exact ⟨true, rfl⟩
  · cases h
    exact ⟨x.run.closed, rfl⟩

/-- A broken scheduler stays broken to its end. -/
theorem broken_step (hcurrent : p.current = some x) (h : x.Broken) (hstep : SessionStep p x q) :
    (∃ y, q.current = some y ∧ y.Broken ∧ q.destroyed = p.destroyed) ∨
      q.destroyed = p.destroyed + 1 := by
  cases hstep with
  | acts _ hact => exact .inl ⟨_, rfl, h.act hact, rfl⟩
  | wakes | aborts => exact .inl ⟨_, rfl, ⟨h.input, h.doomed⟩, rfl⟩
  | returns _ hreturns =>
      obtain ⟨_, rfl⟩ := waitReturns_eq hreturns
      exact .inl ⟨_, rfl, ⟨h.input, h.doomed⟩, rfl⟩
  | ends => exact .inr rfl
  | setsLimit workerLimit =>
      unfold setWorkerLimit
      split <;> exact .inl ⟨x, hcurrent, h, rfl⟩

theorem PoolInv.brokenStep (hcurrent : p.current = some x) (hphase : x.phase ≠ .aborting)
    (h : x.Broken) (hstep : SessionStep p x q) : PoolInv q := by
  cases hstep with
  | acts _ hact => exact .broken rfl (Session.act_phase hact ▸ hphase) (h.act hact)
  | wakes => exact .broken rfl (by simp) ⟨h.input, h.doomed⟩
  | returns _ hreturns =>
      obtain ⟨_, rfl⟩ := waitReturns_eq hreturns
      exact .broken rfl (by simp) ⟨h.input, h.doomed⟩
  | aborts => exact .aborting rfl rfl rfl rfl
  | ends haborting => exact absurd haborting hphase
  | setsLimit workerLimit =>
      unfold setWorkerLimit
      split <;> exact .broken hcurrent hphase h

/-- A step on a stopped pool. -/
theorem PoolInv.stoppedStep (hdestroyed : 0 < p.destroyed)
    (hcurrent : p.current = some x) (h : x.Skipped) (hstep : SessionStep p x q)
    (hstop : p.stopRequested = true) : PoolInv q := by
  have hresume {y : Session T} (hy : y.Skipped) : PoolInv (p.resume y) :=
    .stopped hdestroyed hy.stopped fun z hz => by
      cases hz
      exact hy
  cases hstep with
  | acts _ hact => exact hresume (h.act hact)
  | wakes => exact hresume ⟨h.stopped, h.entered, h.head, h.notDone⟩
  | returns _ hreturns =>
      obtain ⟨_, rfl⟩ := waitReturns_eq hreturns
      exact hresume ⟨h.stopped, h.entered, h.head, h.notDone⟩
  | aborts =>
      refine .stopped hdestroyed rfl fun z hz => ?_
      cases hz
      exact ⟨rfl, h.entered, h.head, h.notDone⟩
  | ends => exact .stopped (Nat.succ_pos _) hstop fun z hz => by cases hz
  | setsLimit workerLimit =>
      unfold setWorkerLimit
      split <;> exact .stopped hdestroyed hstop fun z hz => by
        rw [hcurrent] at hz
        cases hz
        exact h

/-- The destructor runs to its end. -/
theorem PoolInv.abortingStep (hcurrent : p.current = some x) (hphase : x.phase = .aborting)
    (hstop : p.stopRequested = true) (hrun : x.run.stopRequested = true)
    (hstep : SessionStep p x q) : PoolInv q := by
  cases hstep with
  | acts _ hact =>
      have hstays := Session.act_stopRequested hact hrun
      exact .aborting rfl ((Session.act_phase hact).trans hphase) hstays hstays
  | wakes hother | aborts hother | returns hother => simp [hphase] at hother
  | ends => exact .stopped (Nat.succ_pos _) hstop fun z hz => by cases hz
  | setsLimit workerLimit =>
      unfold setWorkerLimit
      split <;> exact .aborting hcurrent hphase hstop hrun

theorem PoolInv.step (h : PoolInv p) (hstep : WorkerPool.step p a = some q) : PoolInv q := by
  cases hcurrent : p.current with
  | none =>
      cases a <;> simp only [WorkerPool.step, hcurrent, reduceCtorEq, Option.some.injEq,
        Option.ite_none_right_eq_some] at hstep
      case setWorkerLimit workerLimit =>
        subst hstep
        unfold setWorkerLimit
        split
        · exact h
        · cases h with
          | unused hdestroyed hstop => exact .unused hdestroyed hstop hcurrent
          | live _ _ hsome | broken hsome | aborting hsome => simp [hcurrent] at hsome
          | stopped hdestroyed hstop hskipped => exact .stopped hdestroyed hstop hskipped
      case start cfg =>
        obtain ⟨_, rfl⟩ := hstep
        exact h.start hcurrent cfg
  | some x =>
      have hsession : p.sessionStep x a = some q := by
        simpa only [WorkerPool.step, hcurrent] using hstep
      have hcases := sessionStep_cases hsession
      cases h with
      | unused _ _ hnone => simp [hcurrent] at hnone
      | live hdestroyed hstop hsome hlive =>
          cases hcurrent.symm.trans hsome
          exact PoolInv.liveStep hdestroyed hstop hcurrent hlive hcases
      | broken hsome hphase hbroken =>
          cases hcurrent.symm.trans hsome
          exact PoolInv.brokenStep hcurrent hphase hbroken hcases
      | aborting hsome hphase hstop hrun =>
          cases hcurrent.symm.trans hsome
          exact PoolInv.abortingStep hcurrent hphase hstop hrun hcases
      | stopped hdestroyed hstop hskipped =>
          exact PoolInv.stoppedStep hdestroyed hcurrent (hskipped x hcurrent) hcases hstop

theorem poolInv_of_reachable {hardwareConcurrency : Nat}
    (h : (system hardwareConcurrency T).Reachable p) : PoolInv p :=
  (system hardwareConcurrency T).invariant (.unused rfl rfl rfl)
    (fun _ _ _ _ hs hstep => hs.step hstep) h

/-- `is_all_task_done()` of the current scheduler. -/
def allTaskDone (p : WorkerPool T) : Prop := ∃ x, p.current = some x ∧ x.isAllTaskDone = true

/-- The workers of the current scheduler have thrown nothing, and can go on until every
chunk is reported without throwing. -/
def NothingThrows (hardwareConcurrency : Nat) (p : WorkerPool T) : Prop :=
  ∃ acts q x, (system hardwareConcurrency T).exec p acts = some q ∧
    q.destroyed = p.destroyed ∧ q.current = some x ∧ x.Quiet

theorem destroyed_le (h : WorkerPool.step p a = some q) : p.destroyed ≤ q.destroyed := by
  have hlimit (workerLimit : Int) : p.destroyed ≤ (p.setWorkerLimit workerLimit).destroyed := by
    unfold setWorkerLimit
    split <;> exact Nat.le_refl _
  cases hcurrent : p.current with
  | none =>
      cases a <;> simp only [WorkerPool.step, hcurrent, reduceCtorEq, Option.some.injEq,
        Option.ite_none_right_eq_some] at h
      case setWorkerLimit workerLimit => exact h ▸ hlimit workerLimit
      case start cfg =>
        obtain ⟨_, rfl⟩ := h
        exact Nat.le_refl _
  | some x =>
      have hsession : p.sessionStep x a = some q := by
        simpa only [WorkerPool.step, hcurrent] using h
      cases sessionStep_cases hsession with
      | acts | wakes | aborts => exact Nat.le_refl _
      | returns _ hreturns =>
          obtain ⟨_, rfl⟩ := waitReturns_eq hreturns
          exact Nat.le_refl _
      | ends => exact Nat.le_succ _
      | setsLimit workerLimit => exact hlimit workerLimit

/-- In a broken scheduler something has thrown, or will. -/
theorem not_nothingThrows {hardwareConcurrency : Nat} (hcurrent : p.current = some x)
    (h : x.Broken) : ¬ NothingThrows hardwareConcurrency p := by
  rintro ⟨acts, r, y, hexec, hsame, hy, hquiet⟩
  have hruns := (system hardwareConcurrency T).exec_induction
    (P := fun _ q => (∃ y, q.current = some y ∧ y.Broken ∧ q.destroyed = p.destroyed) ∨
      p.destroyed < q.destroyed) (u := p) (.inl ⟨x, hcurrent, h, rfl⟩) (by
    rintro _ q b t (⟨z, hz, hbroken, heq⟩ | hlater) hstep
    · have hsession : q.sessionStep z b = some t := by
        simpa only [system, WorkerPool.step, hz] using hstep
      rcases broken_step hz hbroken (sessionStep_cases hsession) with
        ⟨w, hw, hstays, hcount⟩ | hends
      · exact .inl ⟨w, hw, hstays, hcount.trans heq⟩
      · exact .inr (by omega)
    · exact .inr (hlater.trans_le (destroyed_le hstep)))
  rcases hruns acts r hexec with ⟨z, hz, hbroken, -⟩ | hlater
  · cases hy.symm.trans hz
    rcases hbroken.doomed with ⟨id, hthrown⟩ | ⟨-, id, hin⟩
    · exact (hquiet id).1 hthrown
    · exact (hquiet id).2 hin
  · omega

/-- For any sequence of schedulers on one pool, with any configurations and
interleavings, in which no worker throws: a `wait_for_all_tasks` that returns does so with
all tasks done if and only if no scheduler has been destroyed on the pool before. -/
theorem wait_returns_done_iff {hardwareConcurrency : Nat}
    (h : (system hardwareConcurrency T).Reachable p)
    (hstep : (system hardwareConcurrency T).step p .waitReturns = some q)
    (hthrows : NothingThrows hardwareConcurrency q) :
    q.allTaskDone ↔ p.destroyed = 0 := by
  cases hcurrent : p.current with
  | none => simp [system, WorkerPool.step, hcurrent] at hstep
  | some x =>
      have hwait : x.phase = .woken ∧ p.waitReturns x = some q := by
        simpa only [system, WorkerPool.step, hcurrent, sessionStep,
          Option.ite_none_right_eq_some] using hstep
      obtain ⟨hphase, hreturns⟩ := hwait
      obtain ⟨closed, rfl⟩ := waitReturns_eq hreturns
      cases poolInv_of_reachable h with
      | unused _ _ hnone => simp [hcurrent] at hnone
      | live hdestroyed _ hsome hlive =>
          cases hcurrent.symm.trans hsome
          exact iff_of_true ⟨_, rfl, (hlive.woken hphase).1⟩ hdestroyed
      | broken hsome _ hbroken =>
          cases hcurrent.symm.trans hsome
          exact absurd hthrows (not_nothingThrows rfl ⟨hbroken.input, hbroken.doomed⟩)
      | aborting hsome haborting =>
          cases hcurrent.symm.trans hsome
          simp [haborting] at hphase
      | stopped hdestroyed _ hskipped =>
          have hnot := (hskipped x hcurrent).notDone
          refine iff_of_false ?_ (Nat.ne_of_gt hdestroyed)
          rintro ⟨y, hy, hdone⟩
          cases hy
          exact Bool.noConfusion (hnot.symm.trans hdone)

/-- One scheduler with one input: its wait returns with the input done. -/
theorem wait_returns_done_iff_first :
    ∃ p q : WorkerPool Nat, (system 2 Nat).Reachable p ∧ p.destroyed = 0 ∧
      (system 2 Nat).step p .waitReturns = some q ∧ q.allTaskDone := by
  obtain ⟨p, hrun, hp⟩ := (system 2 Nat).exists_of_map
    [.start ⟨⟨1, true, false, 1, 2, int32⟩, false⟩, .checkStop 1, .worker 1 .claim,
      .worker 1 (.callPush 7), .worker 1 .push, .worker 1 .endInput,
      .worker 1 (.producerUpdate false), .checkStop 0, .worker 0 .callPop, .worker 0 (.pop 0),
      .worker 0 .endCall, .worker 0 (.consumerUpdate false), .waitWakes]
    (b := (0, some (some true)))
    (fun p => (p.destroyed, ((system 2 Nat).step p .waitReturns).map fun q =>
      q.current.map fun x => decide x.Quiet)) rfl
  simp only [Prod.mk.injEq, Option.map_eq_some_iff, decide_eq_true_eq] at hp
  obtain ⟨hdestroyed, q, hstep, x, hcurrent, hquiet⟩ := hp
  exact ⟨p, q, hrun.reachable, hdestroyed, hstep,
    (wait_returns_done_iff hrun.reachable hstep ⟨[], q, x, rfl, rfl, hcurrent, hquiet⟩).mpr
      hdestroyed⟩

/-- A scheduler is created, started, waited for and destroyed, and then another
one with one input: its wait returns and nothing has been consumed. -/
theorem second_scheduler_skipped :
    ∃ p q : WorkerPool Nat, ∃ x, (system 2 Nat).Reachable p ∧
      (system 2 Nat).step p .waitReturns = some q ∧ q.current = some x ∧ x.cfg.inputs = 1 ∧
      x.isAllTaskDone = false ∧ x.run.sched.stats.producerInputConsumed = 0 ∧
      NothingThrows 2 q := by
  obtain ⟨p, hrun, hp⟩ := (system 2 Nat).exists_of_map
    [.start ⟨⟨1, true, false, 1, 2, int32⟩, false⟩, .checkStop 1, .worker 1 .claim,
      .worker 1 (.callPush 7), .worker 1 .push, .worker 1 .endInput,
      .worker 1 (.producerUpdate false), .checkStop 0, .worker 0 .callPop, .worker 0 (.pop 0),
      .worker 0 .endCall, .worker 0 (.consumerUpdate false), .waitWakes, .waitReturns, .abort,
      .checkStop 1, .destroyed, .start ⟨⟨1, true, false, 1, 2, int32⟩, false⟩, .checkStop 0,
      .checkStop 1, .waitWakes]
    (b := some (some (1, false, 0, true)))
    (fun p => ((system 2 Nat).step p .waitReturns).map fun q => q.current.map fun x =>
      (x.cfg.inputs, x.isAllTaskDone, x.run.sched.stats.producerInputConsumed,
        decide x.Quiet)) rfl
  simp only [Option.map_eq_some_iff, Prod.mk.injEq, decide_eq_true_eq] at hp
  obtain ⟨q, hstep, x, hcurrent, hinputs, hdone, hconsumed, hquiet⟩ := hp
  exact ⟨p, q, x, hrun.reachable, hstep, hcurrent, hinputs, hdone, hconsumed,
    [], q, x, rfl, rfl, hcurrent, hquiet⟩

end WorkerPool

end YkUtil.Exec
