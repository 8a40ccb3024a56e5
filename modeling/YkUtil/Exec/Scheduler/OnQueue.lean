import YkUtil.Lib.Simulation
import YkUtil.Exec.Scheduler.Delivery
import YkUtil.Exec.Scheduler.Shutdown

/-!
The scheduler on a queue that takes its time. A gate access is a call of `queue_traits`: the
worker is in it for as many steps of the queue as it needs, and goes on when it returns. The
queue is a parameter, with what it has to do for its callers; then nothing can be seen of the
steps inside the calls, and what is known of the scheduler whose accesses are single steps
holds for every such queue.
-/

namespace YkUtil.Exec

open YkUtil.Lib

universe u

inductive QueueCall (T : Type u) where
  | cancelableBoundedPush (v : T)
  | cancelablePop

/-- What a call has returned true with. -/
inductive Returned (T : Type u) where
  | pushed
  | popped (v : T)

/-- A queue type and its `queue_traits`, used by the workers. `internal` says which actions
are steps of the calls that are going on; `results` lists the calls that have returned, with
nothing for a false one. -/
structure QueueTraits (W : Nat) (T S A : Type u) where
  system : TransitionSystem S A
  call : Fin W → QueueCall T → A
  internal : A → Bool
  results : S → List (Fin W × Option (Returned T))

/-- The workers of a job and the queue. The queue in the state of the job lists the values
of the pushes that have returned and that no pop has returned. -/
structure OnQueue (W : Nat) (T S : Type u) where
  job : Job W T
  queue : S

inductive OnQueueAction (W : Nat) (T A : Type u) where
  | worker (id : Fin W) (action : WorkerAction T)
  | queue (action : A)
  | setProducerChunkSize (chunkSize : Int)

variable {W : Nat} {T S A : Type u}

def OnQueueAction.isWorker : OnQueueAction W T A → Bool
  | .worker _ _ => true
  | _ => false

/-- The call that a worker is in. -/
def WorkerPc.call : WorkerPc T → Option (QueueCall T)
  | .push _ _ _ v => some (.cancelableBoundedPush v)
  | .pop _ _ => some .cancelablePop
  | _ => none

/-- The call that an action of a worker begins. -/
def WorkerAction.begins : WorkerAction T → Option (QueueCall T)
  | .callPush v => some (.cancelableBoundedPush v)
  | .callPop => some .cancelablePop
  | _ => none

/-- The worker's call has returned, and the worker goes on. -/
def Job.resume [DecidableEq T] (s : Job W T) : Fin W × Option (Returned T) → Job W T
  | (id, some .pushed) =>
      match s.run.pc id with
      | .push count left gate v =>
          {s with run := {s.run with
            queue := s.run.queue ++ [v]
            pushed := s.run.pushed + {v}}.move id (.produce count left gate)}
      | _ => s
  | (id, some (.popped v)) =>
      match s.run.pc id with
      | .pop gate taken =>
          {s with run := {s.run with
            queue := s.run.queue.erase v}.move id (.consume gate (taken ++ [v]))}
      | _ => s
  | (_, none) => s

namespace OnQueue

section Calls

variable {cfg : SchedulerConfig} {id : Fin W}

theorem call_afterProducer (kind : WorkerKind) (ok r : Bool) :
    (Scheduler.afterProducer kind ok r : WorkerPc T).call = none := by
  cases kind <;> cases ok <;> cases r <;> rfl

theorem call_enterChunk (chunk : Chunk) :
    (Scheduler.enterChunk chunk : WorkerPc T).call = none := by
  unfold Scheduler.enterChunk
  split <;> rfl

theorem call_afterConsumer (kind : WorkerKind) (ok r : Bool) :
    (Scheduler.afterConsumer kind ok r : WorkerPc T).call = none := by
  cases kind <;> cases ok <;> cases r <;> rfl

/-- An action that is not the end of an access begins the call it should, and leaves the
queue to the others. -/
theorem workerStep_call {s t : Scheduler W T} {action : WorkerAction T}
    (haccess : action.accesses = false)
    (hstep : s.workerStep cfg id (s.pc id) action = some t) :
    t.queue = s.queue ∧ (s.pc id).call = none ∧ (t.pc id).call = action.begins := by
  have hself (u : Scheduler W T) (pc : WorkerPc T) : (u.move id pc).pc id = pc :=
    Function.update_self _ _ _
  cases Scheduler.workerStep_cases hstep with
  | pushes => cases haccess
  | pops => cases haccess
  | claims hpc =>
      unfold Scheduler.claim
      split <;> refine ⟨rfl, by rw [hpc]; rfl, ?_⟩ <;> rw [hself]
      · exact call_afterProducer _ _ _
      · rfl
      · exact call_enterChunk _
      · rfl
  | @reports chunk gate reachesOne hpc =>
      rcases Scheduler.producerUpdate_cases s id chunk gate reachesOne with
        ⟨_, -, heq⟩ | ⟨ok, r, _, -, heq, -⟩ <;> rw [heq, hself]
      · exact ⟨rfl, by rw [hpc]; rfl, rfl⟩
      · exact ⟨rfl, by rw [hpc]; rfl, call_afterProducer _ _ _⟩
  | settles reachesOne hpc =>
      obtain ⟨ok, r, n, heq, -⟩ := Scheduler.consumerUpdate_eq s id _ _ reachesOne
      rw [heq, hself]
      exact ⟨rfl, by rw [hpc]; rfl, call_afterConsumer _ _ _⟩
  | endOfInput hpc | callsPush _ hpc | endsInput hpc | endsChunk hpc | callsPop hpc
  | endsCall hpc =>
      exact ⟨rfl, by rw [hpc]; rfl, by rw [hself]; rfl⟩

/-- The calls that the workers are in. -/
def callsOf (s : Job W T) (id : Fin W) : Option (QueueCall T) := (s.run.pc id).call

theorem callsOf_update {s t : Job W T} {call : Option (QueueCall T)} (pc : WorkerPc T)
    (hpc : t.run.pc = Function.update s.run.pc id pc) (hcall : pc.call = call) :
    callsOf t = Function.update (callsOf s) id call := by
  funext other
  by_cases heq : other = id
  · subst heq
    simp [callsOf, hpc, hcall]
  · simp [callsOf, hpc, heq]

end Calls

variable [DecidableEq T]

def step (traits : QueueTraits W T S A) (cfg : SchedulerConfig) (produce : Nat → List T)
    (s : OnQueue W T S) : OnQueueAction W T A → Option (OnQueue W T S)
  | .worker id action =>
      if action.accesses then none
      else (Job.step cfg produce s.job (.worker id action)).bind fun job =>
        match action.begins with
        | none => some {s with job := job}
        | some call => (traits.system.step s.queue (traits.call id call)).map fun queue =>
            {job := job, queue := queue}
  | .queue action =>
      if traits.internal action then (traits.system.step s.queue action).map fun queue =>
        {job := ((traits.results queue).drop (traits.results s.queue).length).foldl Job.resume s.job
         queue := queue}
      else none
  | .setProducerChunkSize chunkSize =>
      (Job.step cfg produce s.job (.setProducerChunkSize chunkSize)).map
        fun job => {s with job := job}

/-- A scheduler that has been started on a new queue. -/
def system (cfg : SchedulerConfig) (traits : QueueTraits cfg.workers T S A)
    (produce : Nat → List T) :
    TransitionSystem (OnQueue cfg.workers T S) (OnQueueAction cfg.workers T A) :=
  {init :=
    {job := {run := Scheduler.start cfg T, todo := fun _ => []}
     queue := traits.system.init}
   step := step traits cfg produce}

/-- The action is no claim, or the claim fits. -/
def Fits (cfg : SchedulerConfig) (s : OnQueue W T S) : OnQueueAction W T A → Prop
  | .worker _ action => Scheduler.ClaimFits cfg s.job.run action
  | _ => True

instance (cfg : SchedulerConfig) (s : OnQueue W T S) (a : OnQueueAction W T A) :
    Decidable (Fits cfg s a) :=
  match a with
  | .worker _ action => inferInstanceAs (Decidable (Scheduler.ClaimFits cfg s.job.run action))
  | .queue _ | .setProducerChunkSize _ => inferInstanceAs (Decidable True)

/-- What a step of the queue is for its callers: nothing, or the return of one call, of a
push that had room or a pop of a value that is stored. -/
inductive Answer (traits : QueueTraits W T S A) (capacity : Nat)
    (inv : S → (Fin W → Option (QueueCall T)) → List T → Prop) (q : S)
    (calls : Fin W → Option (QueueCall T)) (stored : List T) (q' : S) : Prop where
  | nothing (hresults : traits.results q' = traits.results q) (hinv : inv q' calls stored)
  | pushed {id : Fin W} {v : T} (hcall : calls id = some (.cancelableBoundedPush v))
      (hroom : stored.length < capacity)
      (hresults : traits.results q' = traits.results q ++ [(id, some .pushed)])
      (hinv : inv q' (Function.update calls id none) (stored ++ [v]))
  | popped {id : Fin W} {v : T} (hcall : calls id = some .cancelablePop) (hv : v ∈ stored)
      (hresults : traits.results q' = traits.results q ++ [(id, some (.popped v))])
      (hinv : inv q' (Function.update calls id none) (stored.erase v))

/-- The queue does for its callers what a bounded container does: `inv` says which calls are
going on and which values are stored, in some order. -/
structure Serves (traits : QueueTraits W T S A) (capacity : Nat)
    (inv : S → (Fin W → Option (QueueCall T)) → List T → Prop) : Prop where
  start : inv traits.system.init (fun _ => none) []
  call : ∀ {q calls stored id} (call : QueueCall T), inv q calls stored → calls id = none →
    ∃ q', traits.system.step q (traits.call id call) = some q' ∧
      inv q' (Function.update calls id (some call)) stored
  answer : ∀ {q calls stored action q'}, inv q calls stored → traits.internal action = true →
    traits.system.step q action = some q' → Answer traits capacity inv q calls stored q'

section Workers

variable {cfg : SchedulerConfig} {id : Fin W}

/-- A push that returns is the access of its worker. -/
theorem resume_pushed {s : Job W T} {v : T}
    (hcall : callsOf s id = some (.cancelableBoundedPush v))
    (hroom : s.run.queue.length < cfg.capacity) (produce : Nat → List T) :
    Job.step cfg produce s (.worker id .push) = some (s.resume (id, some .pushed)) ∧
      callsOf (s.resume (id, some .pushed)) = Function.update (callsOf s) id none ∧
      (s.resume (id, some .pushed)).run.queue = s.run.queue ++ [v] := by
  cases hpc : s.run.pc id with
  | push count left gate w =>
      obtain rfl : w = v := by
        simpa [callsOf, hpc, WorkerPc.call] using hcall
      have hresume : s.resume (id, some .pushed) =
          {s with run := {s.run with
            queue := s.run.queue ++ [w]
            pushed := s.run.pushed + {w}}.move id (.produce count left gate)} := by
        simp only [Job.resume, hpc]
      rw [hresume]
      refine ⟨?_, callsOf_update (.produce count left gate) rfl rfl, rfl⟩
      simp [Job.step, hpc, Job.next, WorkerPc.onePop, Scheduler.workerStep, hroom, Job.go]
  | _ =>
      rw [callsOf, hpc] at hcall
      cases hcall

theorem resume_popped {s : Job W T} {v : T} (hcall : callsOf s id = some .cancelablePop)
    (hv : v ∈ s.run.queue) (cfg : SchedulerConfig) (produce : Nat → List T) :
    Job.step cfg produce s (.worker id (.pop (s.run.queue.idxOf v))) =
        some (s.resume (id, some (.popped v))) ∧
      callsOf (s.resume (id, some (.popped v))) = Function.update (callsOf s) id none ∧
      (s.resume (id, some (.popped v))).run.queue = s.run.queue.erase v := by
  cases hpc : s.run.pc id with
  | pop gate taken =>
      have hresume : s.resume (id, some (.popped v)) =
          {s with run := {s.run with
            queue := s.run.queue.erase v}.move id (.consume gate (taken ++ [v]))} := by
        simp only [Job.resume, hpc]
      rw [hresume]
      refine ⟨?_, callsOf_update (.consume gate (taken ++ [v])) rfl rfl, rfl⟩
      simp [Job.step, hpc, Job.next, WorkerPc.onePop, Scheduler.workerStep, Job.go,
        List.getElem?_idxOf hv]
  | _ =>
      rw [callsOf, hpc] at hcall
      cases hcall

end Workers

section Runs

variable {cfg : SchedulerConfig} {traits : QueueTraits cfg.workers T S A}
  {produce : Nat → List T} {inv : S → (Fin cfg.workers → Option (QueueCall T)) → List T → Prop}
  {s t : OnQueue cfg.workers T S} {id : Fin cfg.workers}
  {acts : List (OnQueueAction cfg.workers T A)}

/-- The queue and the workers agree. -/
def Linked (inv : S → (Fin cfg.workers → Option (QueueCall T)) → List T → Prop)
    (s : OnQueue cfg.workers T S) : Prop :=
  inv s.queue (callsOf s.job) s.job.run.queue

theorem worker_inv {action : WorkerAction T}
    (hstep : step traits cfg produce s (.worker id action) = some t) :
    action.accesses = false ∧ (Job.system cfg produce).step s.job (.worker id action) = some t.job ∧
      (action.begins = none ∧ t.queue = s.queue ∨ ∃ call, action.begins = some call ∧
        traits.system.step s.queue (traits.call id call) = some t.queue) := by
  simp only [step, Option.ite_none_left_eq_some, Option.bind_eq_some_iff, Bool.not_eq_true] at hstep
  obtain ⟨haccess, job, hjob, hbegins⟩ := hstep
  cases hcall : action.begins with
  | none =>
      rw [hcall] at hbegins
      cases hbegins
      exact ⟨haccess, hjob, .inl ⟨rfl, rfl⟩⟩
  | some call =>
      simp only [hcall, Option.map_eq_some_iff] at hbegins
      obtain ⟨queue, hqueue, rfl⟩ := hbegins
      exact ⟨haccess, hjob, .inr ⟨call, rfl, hqueue⟩⟩

/-- What a worker's own step does to its call. -/
theorem callsOf_step {action : WorkerAction T} {job job' : Job cfg.workers T}
    (haccess : action.accesses = false)
    (hstep : (Job.system cfg produce).step job (.worker id action) = some job') :
    job'.run.queue = job.run.queue ∧ callsOf job id = none ∧
      callsOf job' = Function.update (callsOf job) id action.begins := by
  have hrun := (Job.run_of_step hstep).2
  obtain ⟨hqueue, hidle, hcall⟩ := workerStep_call haccess hrun
  refine ⟨hqueue, hidle, funext fun other => ?_⟩
  by_cases heq : other = id
  · subst heq
    rw [Function.update_self]
    exact hcall
  · rw [Function.update_of_ne heq, callsOf, callsOf, Scheduler.workerStep_pc_of_ne heq hrun]

theorem Linked.worker (hserves : Serves traits cfg.capacity inv) (h : Linked inv s)
    {action : WorkerAction T} (hstep : step traits cfg produce s (.worker id action) = some t) :
    Linked inv t := by
  obtain ⟨haccess, hjob, hcases⟩ := worker_inv hstep
  obtain ⟨hstored, hidle, hcalls⟩ := callsOf_step haccess hjob
  rw [Linked, hstored, hcalls]
  rcases hcases with ⟨hnone, hqueue⟩ | ⟨call, hcall, hqueue⟩
  · rw [hnone, hqueue, ← hidle, Function.update_eq_self]
    exact h
  · obtain ⟨q, hq, hinv⟩ := hserves.call call h hidle
    obtain rfl := Option.some.inj (hq.symm.trans hqueue)
    rw [hcall]
    exact hinv

/-- A step of the queue is no step of the job, or the access of one of the workers. -/
theorem Linked.answer (hserves : Serves traits cfg.capacity inv) (h : Linked inv s) {action : A}
    (hstep : step traits cfg produce s (.queue action) = some t) :
    Linked inv t ∧ traits.system.step s.queue action = some t.queue ∧
      (traits.results t.queue = traits.results s.queue ∧ t.job = s.job ∨
        ∃ id access, access.accesses = true ∧
          (Job.system cfg produce).step s.job (.worker id access) = some t.job) := by
  simp only [step, Option.ite_none_right_eq_some, Option.map_eq_some_iff] at hstep
  obtain ⟨hinternal, queue, hqueue, rfl⟩ := hstep
  cases hserves.answer h hinternal hqueue with
  | nothing hresults hinv =>
      have hnone : (traits.results queue).drop (traits.results s.queue).length = [] := by
        rw [hresults, List.drop_length]
      rw [hnone]
      exact ⟨hinv, hqueue, .inl ⟨hresults, rfl⟩⟩
  | pushed hcall hroom hresults hinv =>
      rw [hresults, List.drop_left]
      obtain ⟨hjob, hcalls, hstored⟩ := resume_pushed hcall hroom produce
      refine ⟨?_, hqueue, .inr ⟨_, _, rfl, hjob⟩⟩
      rw [Linked, List.foldl_cons, List.foldl_nil, hcalls, hstored]
      exact hinv
  | popped hcall hv hresults hinv =>
      rw [hresults, List.drop_left]
      obtain ⟨hjob, hcalls, hstored⟩ := resume_popped hcall hv cfg produce
      refine ⟨?_, hqueue, .inr ⟨_, _, rfl, hjob⟩⟩
      rw [Linked, List.foldl_cons, List.foldl_nil, hcalls, hstored]
      exact hinv

theorem Linked.step {a : OnQueueAction cfg.workers T A} (hserves : Serves traits cfg.capacity inv)
    (h : Linked inv s) (hstep : OnQueue.step traits cfg produce s a = some t) : Linked inv t := by
  cases a with
  | worker id action => exact h.worker hserves hstep
  | queue action => exact (h.answer hserves hstep).1
  | setProducerChunkSize chunkSize =>
      cases hstep
      exact h

theorem linked_start (hserves : Serves traits cfg.capacity inv) (produce : Nat → List T) :
    Linked inv (system cfg traits produce).init := by
  have hcalls : callsOf (system cfg traits produce).init.job = fun _ => none := by
    funext id
    simp only [callsOf, system, Scheduler.start]
    split <;> rfl
  rw [Linked, hcalls]
  exact hserves.start

/-- What an action is for the workers: an access for each step that returns from a call. -/
def Behind (a : OnQueueAction cfg.workers T A) (label : Option (SchedulerAction cfg.workers T)) :
    Prop :=
  match a with
  | .worker id action => label = some (.worker id action)
  | .queue _ => ∀ b, label = some b → ∃ id access, b = .worker id access ∧ access.accesses = true
  | .setProducerChunkSize chunkSize => label = some (.setProducerChunkSize chunkSize)

/-- The scheduler whose accesses are single steps does what this one does. -/
theorem simulates_job (hserves : Serves traits cfg.capacity inv) (produce : Nat → List T) :
    Simulation (system cfg traits produce) (Job.system cfg produce) (fun _ _ => True)
      OnQueue.job (Linked inv) Behind := by
  refine ⟨⟨linked_start hserves produce, rfl⟩, fun s a t h hstep => h.step hserves hstep, ?_⟩
  intro s a t h hstep
  change step traits cfg produce s a = some t at hstep
  cases a with
  | worker id action => exact .inr ⟨_, trivial, (worker_inv hstep).2.1, rfl⟩
  | queue action =>
      obtain ⟨-, -, ⟨-, hsame⟩ | ⟨id, access, haccess, hjob⟩⟩ := h.answer hserves hstep
      · exact .inl ⟨hsame, fun b hb => by cases hb⟩
      · refine .inr ⟨.worker id access, trivial, hjob, ?_⟩
        rintro b ⟨⟩
        exact ⟨id, access, rfl, haccess⟩
  | setProducerChunkSize chunkSize =>
      cases hstep
      exact .inr ⟨_, trivial, rfl, rfl⟩

/-- What an action is for the queue. -/
def Below (traits : QueueTraits cfg.workers T S A) (a : OnQueueAction cfg.workers T A)
    (label : Option A) : Prop :=
  match a with
  | .worker id action => label = action.begins.map (traits.call id)
  | .queue action => label = some action ∧ traits.internal action = true
  | .setProducerChunkSize _ => label = none

/-- The queue does what it does for any threads. -/
theorem simulates_queue {good : S → A → Prop} (hserves : Serves traits cfg.capacity inv)
    (produce : Nat → List T) (hcalls : ∀ q id call, good q (traits.call id call))
    (hinternal : ∀ q action, traits.internal action = true → good q action) :
    Simulation (system cfg traits produce) traits.system good OnQueue.queue (Linked inv)
      (Below traits) := by
  refine ⟨⟨linked_start hserves produce, rfl⟩, fun s a t h hstep => h.step hserves hstep, ?_⟩
  intro s a t h hstep
  change step traits cfg produce s a = some t at hstep
  cases a with
  | worker id action =>
      obtain ⟨-, -, ⟨hnone, hsame⟩ | ⟨call, hcall, hqueue⟩⟩ := worker_inv hstep
      · exact .inl ⟨hsame, by rw [Below, hnone]; rfl⟩
      · exact .inr ⟨_, hcalls _ _ _, hqueue, by rw [Below, hcall]; rfl⟩
  | queue action =>
      have hgood := (Option.ite_none_right_eq_some.mp hstep).1
      exact .inr ⟨action, hinternal _ _ hgood, (h.answer hserves hstep).2.1, rfl, hgood⟩
  | setProducerChunkSize chunkSize =>
      cases hstep
      exact .inl ⟨rfl, rfl⟩

/-- Where the claims fit, those of the job behind fit. -/
theorem job_of_run (hserves : Serves traits cfg.capacity inv)
    (h : (system cfg traits produce).GoodRun (Fits cfg) acts s) :
    ∃ labels, List.Forall₂ Behind acts labels ∧
      (Job.system cfg produce).GoodRun (Job.Fits cfg) labels.reduceOption s.job := by
  refine (simulates_job hserves produce).goodRun (fun s a b hfits hbehind _ => ?_) h
  cases a with
  | worker id action =>
      cases hbehind
      exact hfits
  | queue action =>
      obtain ⟨id, access, rfl, haccess⟩ := hbehind b rfl
      cases access with
      | push | pop => trivial
      | _ => cases haccess
  | setProducerChunkSize chunkSize =>
      cases hbehind
      trivial

theorem countP_isWorker_le (hserves : Serves traits cfg.capacity inv)
    (h : (system cfg traits produce).GoodRun (Fits cfg) acts s) :
    acts.countP OnQueueAction.isWorker ≤
      3 * cfg.workers + 3 * (cfg.inputs - cfg.first) + 7 * (Job.total cfg produce).card := by
  obtain ⟨labels, hbehind, hrun⟩ := job_of_run hserves h
  have hle : acts.countP OnQueueAction.isWorker ≤ labels.reduceOption.countP Job.isWorker :=
    countP_le_reduceOption hbehind fun a label hlabel hworker => by
      cases a with
      | worker id action => exact ⟨_, hlabel, rfl⟩
      | queue | setProducerChunkSize => cases hworker
  exact hle.trans (Job.countP_isWorker_le hrun)

end Runs

end OnQueue

end YkUtil.Exec
