import YkUtil.Exec.CvQueue.Progress
import YkUtil.Exec.Scheduler.OnQueueProgress

/-!
The scheduler on a `cv_queue`. A call is a sequence of critical sections with waits in
between. A wait ends when there is something to do for it, and the wakeups for nothing are
bounded, so the workers come to rest with all values delivered.
-/

namespace YkUtil.Exec.OnQueue

open YkUtil.Lib

universe u

variable {W : Nat} {T : Type u}

deriving instance DecidableEq for CvQueue.Op

/-- `queue_traits` of a `cv_queue`, which asks for no stop token. -/
def cvQueueOp : QueueCall T → CvQueue.Op T
  | .cancelableBoundedPush v => .pushWait false v
  | .cancelablePop => .popWait false

def cvQueueReturned : CvQueueEvent T → Option (Returned T)
  | .pushed _ => some .pushed
  | .popped v => some (.popped v)
  | _ => none

/-- A call runs its sections, and wakes up for no reason. -/
def cvQueueInternal : CvQueue.Action (Fin W) T → Bool
  | .lock _ _ | .wake _ => true
  | _ => false

def cvQueueTraits (qcfg : CvQueueConfig) (W : Nat) (T : Type u) (capacity : Nat) :
    QueueTraits W T (CvQueue.System (Fin W) T) (CvQueue.Action (Fin W) T) where
  system := CvQueue.system (Fin W) T qcfg capacity
  call id call := .invoke id (cvQueueOp call)
  internal := cvQueueInternal
  results s := s.history.map fun entry => (entry.1, cvQueueReturned entry.2)

/-- An open queue of the given capacity that only the workers use. -/
structure CvQueueServing (capacity : Nat) (q : CvQueue.System (Fin W) T)
    (calls : Fin W → Option (QueueCall T)) (stored : List T) : Prop where
  stored : stored.Perm q.queue.buf
  calls : ∀ id, q.call id = (calls id).map cvQueueOp
  opened : q.queue.closed = false
  capacity : q.queue.capacity = capacity

section Serves

variable {qcfg : CvQueueConfig} {capacity : Nat} {q : CvQueue.System (Fin W) T}
  {calls : Fin W → Option (QueueCall T)} {stored : List T} {id : Fin W}

/-- On an open queue `push_wait` pushes where there is room and waits where there is none. -/
theorem pushWait_open {q : CvQueue (Fin W) T} (hopen : q.closed = false) (v : T) (pick : Nat) :
    q.pushWait qcfg id v false pick =
      if (q.buf.length : Int) < q.capacity then
        (CvQueue.traitsPush qcfg q v pick, some (.pushed v))
      else ({q with notFull := q.notFull.wait id}, none) := by
  simp [CvQueue.pushWait, CvQueue.pushWaitCond, CvQueue.pushWaitCondError, hopen]

theorem popWait_open {q : CvQueue (Fin W) T} (hopen : q.closed = false) (pick : Nat) :
    q.popWait qcfg id false pick =
      if q.buf = [] then some ({q with notEmpty := q.notEmpty.wait id}, none)
      else (CvQueue.traitsPop qcfg q pick).map fun (v, q') => (q', some (.popped v)) := by
  by_cases hbuf : q.buf = []
  · simp [CvQueue.popWait, CvQueue.popWaitCond, hopen, hbuf]
  · simp [CvQueue.popWait, CvQueue.popWaitCond, CvQueue.popWaitCondError, hopen, hbuf]

theorem CvQueueServing.invoke (h : CvQueueServing capacity q calls stored) (call : QueueCall T)
    (hidle : calls id = none) : ∃ q', CvQueue.step qcfg q (.invoke id (cvQueueOp call)) = some q' ∧
      CvQueueServing capacity q' (Function.update calls id (some call)) stored := by
  have hnone : q.call id = none := by rw [h.calls id, hidle, Option.map_none]
  have havailable : (cvQueueOp call).available qcfg = true := by
    cases call <;> rfl
  have hstep : CvQueue.step qcfg q (.invoke id (cvQueueOp call)) = some {q with
      call := Function.update q.call id (some (cvQueueOp call))
      stopRequested := Function.update q.stopRequested id false} :=
    CvQueue.Calls.step_invoke hnone havailable
  refine ⟨_, hstep, h.stored, fun other => ?_, h.opened, h.capacity⟩
  by_cases heq : other = id
  · subst heq
    simp
  · simp [heq, h.calls other]

/-- A call that returns is over. -/
theorem CvQueueServing.finish (h : CvQueueServing capacity q calls stored)
    {queue : CvQueue (Fin W) T} {event : CvQueueEvent T} {stored' : List T}
    (hstored : stored'.Perm queue.buf) (hopen : queue.closed = false)
    (hcapacity : queue.capacity = q.queue.capacity) :
    CvQueueServing capacity (q.finish id queue (some event)) (Function.update calls id none)
      stored' := by
  refine ⟨hstored, fun other => ?_, hopen, hcapacity.trans h.capacity⟩
  by_cases heq : other = id
  · subst heq
    simp [CvQueue.System.finish]
  · simp [CvQueue.System.finish, heq, h.calls other]

theorem CvQueueServing.lock [DecidableEq T] (h : CvQueueServing capacity q calls stored)
    {pick : Nat} {q' : CvQueue.System (Fin W) T}
    (hstep : CvQueue.step qcfg q (.lock id pick) = some q') :
    Answer (cvQueueTraits qcfg W T capacity) capacity (CvQueueServing capacity) q calls stored
      q' := by
  obtain ⟨op, queue, event, hop, -, hrun, rfl⟩ := CvQueue.lock_inv hstep
  have hcalls := h.calls id
  rw [hop] at hcalls
  obtain ⟨call, hcall, rfl⟩ := Option.map_eq_some_iff.mp hcalls.symm
  cases call with
  | cancelableBoundedPush v =>
      simp only [cvQueueOp, CvQueue.Op.run, CvQueue.Op.hasToken_pushWait, Bool.false_and,
        pushWait_open h.opened, Option.some.injEq] at hrun
      split at hrun <;> cases hrun
      · rename_i hroom
        have hsame := CvQueue.traitsPush_toContainer qcfg q.queue v pick
        simp only [CvQueue.toContainer, BoundedContainer.Container.mk.injEq, h.opened,
          Bool.not_false, Bool.not_eq_true'] at hsame
        obtain ⟨hbuf, hcapacity, hopen⟩ := hsame
        rw [h.capacity, Int.ofNat_lt, ← h.stored.length_eq] at hroom
        refine .pushed hcall hroom (by simp [cvQueueTraits, CvQueue.System.finish, cvQueueReturned])
          (h.finish ?_ hopen hcapacity)
        rw [hbuf]
        exact h.stored.append_right [v]
      · exact .nothing rfl ⟨h.stored, h.calls, h.opened, h.capacity⟩
  | cancelablePop =>
      simp only [cvQueueOp, CvQueue.Op.run, CvQueue.Op.hasToken_popWait, Bool.false_and,
        popWait_open h.opened] at hrun
      split at hrun
      · cases hrun
        exact .nothing rfl ⟨h.stored, h.calls, h.opened, h.capacity⟩
      · obtain ⟨⟨v, queue'⟩, hpop, heq⟩ := Option.map_eq_some_iff.mp hrun
        cases heq
        obtain ⟨rest, htake, hsame⟩ := CvQueue.traitsPop_eq_some hpop
        simp only [CvQueue.toContainer, BoundedContainer.Container.mk.injEq, h.opened,
          Bool.not_false, Bool.not_eq_true'] at hsame
        obtain ⟨hbuf, hcapacity, hopen⟩ := hsame
        have hperm := h.stored.trans (BoundedContainer.take_perm htake)
        have hv : v ∈ stored := hperm.mem_iff.mpr List.mem_cons_self
        refine .popped hcall hv (by simp [cvQueueTraits, CvQueue.System.finish, cvQueueReturned])
          (h.finish ?_ hopen hcapacity)
        rw [hbuf]
        exact ((List.perm_cons_erase hv).symm.trans hperm).cons_inv

theorem cvQueue_serves (qcfg : CvQueueConfig) (W : Nat) (T : Type u)
    [DecidableEq T] (capacity : Nat) :
    Serves (cvQueueTraits qcfg W T capacity) capacity (CvQueueServing capacity) where
  start := ⟨List.Perm.nil, fun _ => rfl, rfl, rfl⟩
  call call h hidle := h.invoke call hidle
  answer := by
    intro q calls stored action q' h hinternal hstep
    cases action with
    | lock id pick => exact h.lock hstep
    | wake id =>
        cases hstep
        exact .nothing rfl ⟨h.stored, h.calls, h.opened, h.capacity⟩
    | invoke | requestStop => cases hinternal

/-- Where the queue could answer a call, some caller runs. -/
theorem CvQueueServing.runs_of_enabled (h : CvQueueServing capacity q calls stored)
    (hsettled : CvQueue.Settled qcfg capacity q)
    (henabled : Enabled capacity calls stored) :
    ∃ id op, q.call id = some op ∧ ¬ q.queue.Waiting id := by
  have hfull := hsettled.full
  rw [CvQueue.FullWhileWaiting, hsettled.capacity_eq] at hfull
  have hempty := hsettled.empty
  have hlength := h.stored.length_eq
  rcases henabled with ⟨id, v, hcall, hroom⟩ | ⟨id, hcall, hne⟩
  · have hop : q.call id = some (.pushWait false v) := by
      rw [h.calls id, hcall]
      rfl
    refine ⟨id, _, hop, ?_⟩
    rintro (hmem | hmem)
    · have hlong := (hfull (List.ne_nil_of_mem hmem)).1
      omega
    · cases (hsettled.placed.kind hop).2 hmem
  · have hop : q.call id = some (.popWait false) := by
      rw [h.calls id, hcall]
      rfl
    refine ⟨id, _, hop, ?_⟩
    rintro (hmem | hmem)
    · cases (hsettled.placed.kind hop).1 hmem
    · have hbuf := (hempty (List.ne_nil_of_mem hmem)).1
      exact hne (List.perm_nil.mp (hbuf ▸ h.stored))

end Serves

section Delivery

variable [DecidableEq T] {qcfg : CvQueueConfig} {cfg : SchedulerConfig} {produce : Nat → List T}
  {s t : OnQueue cfg.workers T (CvQueue.System (Fin cfg.workers) T)} {id : Fin cfg.workers}
  {acts : List (OnQueueAction cfg.workers T (CvQueue.Action (Fin cfg.workers) T))}

def cvQueueSystem (qcfg : CvQueueConfig) (cfg : SchedulerConfig) (produce : Nat → List T) :
    TransitionSystem (OnQueue cfg.workers T (CvQueue.System (Fin cfg.workers) T))
      (OnQueueAction cfg.workers T (CvQueue.Action (Fin cfg.workers) T)) :=
  system cfg (cvQueueTraits qcfg cfg.workers T cfg.capacity) produce

/-- The workers do not set the capacity, and may be any number of producers and consumers. -/
def cvQueueGood (qcfg : CvQueueConfig) (q : CvQueue.System (Fin W) T)
    (a : CvQueue.Action (Fin W) T) : Prop :=
  CvQueue.KeepsRoles qcfg q a ∧ CvQueue.KeepsCapacity a

theorem simulates_cvQueue (hproducers : qcfg.isMultiProducer = true)
    (hconsumers : qcfg.isMultiConsumer = true) (cfg : SchedulerConfig) (produce : Nat → List T) :
    Simulation (cvQueueSystem qcfg cfg produce)
      (CvQueue.system (Fin cfg.workers) T qcfg cfg.capacity) (cvQueueGood qcfg) OnQueue.queue
      (Linked (CvQueueServing cfg.capacity))
      (Below (cvQueueTraits qcfg cfg.workers T cfg.capacity)) := by
  refine simulates_queue (cvQueue_serves qcfg cfg.workers T cfg.capacity) produce
    (fun q id call => ⟨⟨fun _ hsingle => ?_, fun _ hsingle => ?_⟩, ?_⟩) fun q action h => ?_
  · simp [CvQueueConfig.isSingleProducer, hproducers] at hsingle
  · simp [CvQueueConfig.isSingleConsumer, hconsumers] at hsingle
  · cases call <;> rfl
  · cases action with
    | lock | wake => exact ⟨trivial, trivial⟩
    | invoke | requestStop => cases h

/-- The steps of the queue of one kind. -/
def isQueueStep (p : CvQueue.Action (Fin W) T → Bool) :
    OnQueueAction W T (CvQueue.Action (Fin W) T) → Bool
  | .queue action => p action
  | _ => false

/-- A worker that does not run makes no call, so that its calls are bounded as well. -/
theorem countP_lock_le (hproducers : qcfg.isMultiProducer = true)
    (hconsumers : qcfg.isMultiConsumer = true)
    (h : (cvQueueSystem qcfg cfg produce).Reaches acts s) :
    acts.countP (isQueueStep CvQueue.Action.isLock) ≤
      (cfg.workers + 1) * acts.countP OnQueueAction.isWorker +
        acts.countP (isQueueStep CvQueue.Action.isWake) := by
  obtain ⟨labels, hbelow, hrun⟩ := (simulates_cvQueue hproducers hconsumers cfg produce).run h
  have hsections := CvQueue.countP_isLock_le hrun.reaches
  have hlocks : acts.countP (isQueueStep CvQueue.Action.isLock) ≤
      labels.reduceOption.countP CvQueue.Action.isLock :=
    countP_le_reduceOption hbelow fun a label hlabel hlock => by
      cases a with
      | queue action => exact ⟨action, hlabel.1, hlock⟩
      | worker | setProducerChunkSize => cases hlock
  have hinvokes : labels.reduceOption.countP CvQueue.Action.isInvoke ≤
      acts.countP OnQueueAction.isWorker :=
    reduceOption_countP_le hbelow fun a b hlabel hinvoke => by
      cases a with
      | worker id action => rfl
      | queue action =>
          obtain ⟨heq, hinternal⟩ := hlabel
          cases heq
          change cvQueueInternal b = true at hinternal
          cases b with
          | invoke | requestStop => cases hinternal
          | lock | wake => cases hinvoke
      | setProducerChunkSize => cases hlabel
  have hwakes : labels.reduceOption.countP CvQueue.Action.isWake ≤
      acts.countP (isQueueStep CvQueue.Action.isWake) :=
    reduceOption_countP_le hbelow fun a b hlabel hwake => by
      cases a with
      | worker id action =>
          obtain ⟨call, -, rfl⟩ := Option.map_eq_some_iff.mp hlabel.symm
          cases hwake
      | queue action =>
          cases hlabel.1
          exact hwake
      | setProducerChunkSize => cases hlabel
  have hstops : labels.reduceOption.countP CvQueue.Action.isRequestStop = 0 := by
    refine Nat.le_zero.mp ((reduceOption_countP_le (p := fun _ => false) hbelow ?_).trans_eq ?_)
    · intro a b hlabel hstop
      cases a with
      | worker id action =>
          obtain ⟨call, -, rfl⟩ := Option.map_eq_some_iff.mp hlabel.symm
          cases hstop
      | queue action =>
          obtain ⟨heq, hinternal⟩ := hlabel
          cases heq
          change cvQueueInternal b = true at hinternal
          cases b with
          | invoke | requestStop => cases hinternal
          | lock | wake => cases hstop
      | setProducerChunkSize => cases hlabel
    · simp
  rw [CvQueue.budget, hstops, Nat.mul_zero, Nat.add_zero, Fintype.card_fin] at hsections
  have hmul := Nat.mul_le_mul_left (cfg.workers + 1) hinvokes
  omega

/-- No worker has a step to take, in a call of the queue or outside. -/
def CvQueueAtRest (qcfg : CvQueueConfig) (cfg : SchedulerConfig) (produce : Nat → List T)
    (s : OnQueue cfg.workers T (CvQueue.System (Fin cfg.workers) T)) : Prop :=
  (∀ id action, (cvQueueSystem qcfg cfg produce).step s (.worker id action) = none) ∧
    ∀ id pick, (cvQueueSystem qcfg cfg produce).step s (.queue (.lock id pick)) = none

/-- Where no worker has a step to take, the queue holds up none that it could let go. -/
theorem job_atRest (hproducers : qcfg.isMultiProducer = true)
    (hconsumers : qcfg.isMultiConsumer = true)
    (h : (cvQueueSystem qcfg cfg produce).Reaches acts s)
    (hrest : CvQueueAtRest qcfg cfg produce s) : Job.AtRest cfg produce s.job := by
  have hserves := cvQueue_serves qcfg cfg.workers T cfg.capacity
  have hsim := simulates_cvQueue hproducers hconsumers cfg produce
  have hlinked := hsim.invariant h.reachable
  obtain ⟨labels, -, hrun⟩ := hsim.run h
  intro id action
  by_contra hsome
  obtain ⟨job, hjob⟩ := Option.ne_none_iff_exists'.mp hsome
  by_cases haccess : action.accesses = true
  · obtain ⟨caller, op, hop, hruns⟩ := CvQueueServing.runs_of_enabled hlinked
      (CvQueue.settled_of_run hrun) (enabled_of_access haccess hjob)
    obtain ⟨q, hq⟩ := Option.isSome_iff_exists.mp (CvQueue.lock_isSome qcfg hop hruns 0)
    have hlock := hrest.2 caller 0
    simp only [cvQueueSystem, system, OnQueue.step, cvQueueTraits, cvQueueInternal, if_true,
      Option.map_eq_none_iff] at hlock
    cases hlock.symm.trans hq
  · rw [Bool.not_eq_true] at haccess
    obtain ⟨t, hstep, -⟩ := hlinked.worker_enabled hserves haccess hjob
    cases (hrest.1 id action).symm.trans hstep

/-- For a `cv_queue` with a buffer that grows as needed in the `mpmc` mode, at least two
workers, a capacity of at least one and an input to claim, as long as the claims fit: the
workers take, the critical sections of their calls included, a number of steps that depends
on the workers, the inputs and the values only, with one more for each spurious wakeup; and
when none of them has a step to take, none is left waiting: the tasks are done, all values
are settled and the queue is empty. -/
theorem delivers_on_cv_queue (hproducers : qcfg.isMultiProducer = true)
    (hconsumers : qcfg.isMultiConsumer = true) (hworkers : 2 ≤ cfg.workers)
    (hcapacity : 1 ≤ cfg.capacity) (hinputs : cfg.first < cfg.inputs)
    (h : (cvQueueSystem qcfg cfg produce).GoodRun (Fits cfg) acts s) :
    acts.countP OnQueueAction.isWorker + acts.countP (isQueueStep CvQueue.Action.isLock) ≤
      (cfg.workers + 2) * (3 * cfg.workers + 3 * (cfg.inputs - cfg.first) +
        7 * (Job.total cfg produce).card) + acts.countP (isQueueStep CvQueue.Action.isWake) ∧
    (CvQueueAtRest qcfg cfg produce s →
      s.job.run.stats.isAllTaskDone = true ∧ s.job.run.settled = Job.total cfg produce ∧
        s.queue.queue.buf = []) := by
  have hserves := cvQueue_serves qcfg cfg.workers T cfg.capacity
  have hsim := simulates_job hserves produce
  constructor
  · have hworker := countP_isWorker_le hserves h
    have hlock := countP_lock_le hproducers hconsumers h.reaches
    have hmul := (Nat.succ_mul (cfg.workers + 1) _).symm.trans_le
      (Nat.mul_le_mul_left (cfg.workers + 2) hworker)
    omega
  · intro hrest
    obtain ⟨labels, -, hrun⟩ := job_of_run hserves h
    obtain ⟨hdone, hsettled, hqueue⟩ := Job.delivered_of_atRest hworkers hcapacity hinputs
      hrun (job_atRest hproducers hconsumers h.reaches hrest)
    have hstored := (hsim.invariant h.reaches.reachable).stored
    rw [hqueue] at hstored
    exact ⟨hdone, hsettled, List.nil_perm.mp hstored⟩

/-- The fixed consumer waits for a value, which the second of two inputs has. -/
theorem delivers_on_cv_queue_two_inputs :
    ∃ acts s, (cvQueueSystem ⟨.mpmc, .deque, 9⟩ ⟨2, true, false, 1, 2, int32⟩
        fun i => List.replicate i 7).Reaches acts s ∧
      acts.countP OnQueueAction.isWorker = 11 ∧
      acts.countP (isQueueStep CvQueue.Action.isLock) = 4 ∧
      s.job.run.stats.isAllTaskDone = true ∧ s.job.run.settled = {7} := by
  obtain ⟨s, hrun, hs⟩ := ((cvQueueSystem ⟨.mpmc, .deque, 9⟩ ⟨2, true, false, 1, 2, int32⟩
      fun i => List.replicate i 7).restrict (Fits ⟨2, true, false, 1, 2, int32⟩)).exists_of_map
    [.worker 0 .callPop, .queue (.lock 0 0), .worker 1 .claim, .worker 1 .endInput,
      .worker 1 (.producerUpdate false), .worker 1 .claim, .worker 1 (.callPush 7),
      .queue (.lock 1 0), .worker 1 .endInput, .worker 1 (.producerUpdate false),
      .queue (.lock 0 0), .worker 0 .endCall, .worker 0 (.consumerUpdate false),
      .worker 1 .callPop, .queue (.lock 1 0)]
    (b := (.left, .pop 1 [], none, [1])) (fun s => (s.job.run.pc 0, s.job.run.pc 1,
      s.queue.call 0, s.queue.queue.notEmpty.waiting)) (by decide +kernel)
  simp only [Prod.mk.injEq] at hs
  obtain ⟨hconsumer, hproducer, hcall, hwaiting⟩ := hs
  have hgood := TransitionSystem.GoodRun.of_restrict hrun
  have hrest : CvQueueAtRest ⟨.mpmc, .deque, 9⟩ ⟨2, true, false, 1, 2, int32⟩
      (fun i => List.replicate i 7) s := by
    refine ⟨Fin.forall_fin_two.mpr ⟨fun action => ?_, fun action => ?_⟩,
      Fin.forall_fin_two.mpr ⟨fun pick => ?_, fun pick => ?_⟩⟩
    · cases action <;>
        simp [cvQueueSystem, system, step, Job.step, hconsumer, Job.next, Scheduler.workerStep]
    · cases action <;>
        simp [cvQueueSystem, system, step, Job.step, hproducer, Job.next, Scheduler.workerStep,
          WorkerAction.accesses]
    · have hnone : CvQueue.step ⟨.mpmc, .deque, 9⟩ s.queue (.lock 0 pick) = none :=
        CvQueue.Calls.step_lock_eq_none (.inl hcall)
      simp [cvQueueSystem, system, step, cvQueueTraits, CvQueue.system, hnone]
    · have hwaits : s.queue.queue.Waiting 1 := .inr (by simp [hwaiting])
      have hnone : CvQueue.step ⟨.mpmc, .deque, 9⟩ s.queue (.lock 1 pick) = none :=
        CvQueue.Calls.step_lock_eq_none (.inr hwaits)
      simp [cvQueueSystem, system, step, cvQueueTraits, CvQueue.system, hnone]
  obtain ⟨hdone, hsettled, -⟩ := (delivers_on_cv_queue rfl rfl (Nat.le_refl 2) (Nat.le_refl 1)
    (by decide) hgood).2 hrest
  exact ⟨_, s, hgood.reaches, rfl, rfl, hdone, hsettled.trans rfl⟩

end Delivery

end YkUtil.Exec.OnQueue
