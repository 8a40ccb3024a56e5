import YkUtil.Exec.Scheduler.OnQueue

/-!
That a scheduler gets its work done on a queue that takes its time. The queue has to answer
the calls that it can answer; that nobody waits for a value that never comes is then what is
known of the workers.
-/

namespace YkUtil.Exec

open YkUtil.Lib

universe u

namespace OnQueue

variable {W : Nat} {T S A : Type u} [DecidableEq T] {cfg : SchedulerConfig}
  {traits : QueueTraits cfg.workers T S A} {produce : Nat → List T}
  {inv : S → (Fin cfg.workers → Option (QueueCall T)) → List T → Prop}
  {s t : OnQueue cfg.workers T S} {id : Fin cfg.workers}
  {acts : List (OnQueueAction cfg.workers T A)}

/-- What a worker can do by itself it can do whatever the queue is doing. -/
theorem Linked.worker_enabled (hserves : Serves traits cfg.capacity inv) (h : Linked inv s)
    {action : WorkerAction T} {job : Job cfg.workers T} (haccess : action.accesses = false)
    (hjob : (Job.system cfg produce).step s.job (.worker id action) = some job) :
    ∃ t, OnQueue.step traits cfg produce s (.worker id action) = some t ∧ t.job = job := by
  obtain ⟨-, hidle, -⟩ := callsOf_step haccess hjob
  change Job.step cfg produce s.job (.worker id action) = some job at hjob
  cases hcall : action.begins with
  | none => exact ⟨{s with job := job}, by simp [OnQueue.step, haccess, hjob, hcall], rfl⟩
  | some call =>
      obtain ⟨q, hq, -⟩ := hserves.call call h hidle
      exact ⟨{job := job, queue := q}, by simp [OnQueue.step, haccess, hjob, hcall, hq], rfl⟩

/-- There is room for a push that is going on, or a value for a pop. -/
def Enabled (capacity : Nat) (calls : Fin W → Option (QueueCall T)) (stored : List T) : Prop :=
  (∃ id v, calls id = some (.cancelableBoundedPush v) ∧ stored.length < capacity) ∨
    ∃ id, calls id = some .cancelablePop ∧ stored ≠ []

theorem enabled_of_access {access : WorkerAction T} {job job' : Job cfg.workers T}
    (haccess : access.accesses = true)
    (hjob : (Job.system cfg produce).step job (.worker id access) = some job') :
    Enabled cfg.capacity (callsOf job) job.run.queue := by
  have hrun := (Job.run_of_step hjob).2
  generalize job'.run = run at hrun
  cases Scheduler.workerStep_cases hrun with
  | pushes hpc hroom => exact .inl ⟨id, _, by rw [callsOf, hpc]; rfl, hroom⟩
  | pops hpc hv =>
      refine .inr ⟨id, by rw [callsOf, hpc]; rfl, ?_⟩
      intro hnil
      rw [hnil] at hv
      cases hv
  | _ => cases haccess

/-- Where the queue could answer one of the calls, the threads that are in a call can bring
about that some call returns. -/
def Answers (traits : QueueTraits W T S A) (capacity : Nat)
    (inv : S → (Fin W → Option (QueueCall T)) → List T → Prop) : Prop :=
  ∀ q calls stored, inv q calls stored → Enabled capacity calls stored →
    ∃ acts q', (∀ a ∈ acts, traits.internal a = true) ∧ traits.system.exec q acts = some q' ∧
      traits.results q' ≠ traits.results q

/-- The first call to return is an access of the job. -/
theorem Linked.returns (hserves : Serves traits cfg.capacity inv) (h : Linked inv s)
    (produce : Nat → List T) {steps : List A} {q : S}
    (hinternal : ∀ a ∈ steps, traits.internal a = true)
    (hexec : traits.system.exec s.queue steps = some q)
    (hresults : traits.results q ≠ traits.results s.queue) :
    ∃ more t id access, (system cfg traits produce).exec s more = some t ∧ Linked inv t ∧
      (Job.system cfg produce).step s.job (.worker id access) = some t.job := by
  induction steps generalizing s with
  | nil =>
      cases hexec
      exact absurd rfl hresults
  | cons a rest ih =>
      obtain ⟨q₁, hq₁, hrest⟩ := Option.bind_eq_some_iff.mp hexec
      obtain ⟨t, hstep⟩ : ∃ t, OnQueue.step traits cfg produce s (.queue a) = some t := by
        simp [OnQueue.step, hinternal a List.mem_cons_self, hq₁]
      obtain ⟨hlinked, hqueue, hcases⟩ := h.answer hserves hstep
      obtain rfl := Option.some.inj (hq₁.symm.trans hqueue)
      rcases hcases with ⟨hsame, hjob⟩ | ⟨id, access, -, hjob⟩
      · rw [← hsame] at hresults
        obtain ⟨more, u, id, access, hmore, hu, haccess⟩ :=
          ih hlinked (fun b hb => hinternal b (List.mem_cons_of_mem _ hb)) hrest hresults
        refine ⟨.queue a :: more, u, id, access, ?_, hu, hjob ▸ haccess⟩
        exact Option.bind_eq_some_iff.mpr ⟨t, hstep, hmore⟩
      · refine ⟨[.queue a], t, id, access, ?_, hlinked, hjob⟩
        exact Option.bind_eq_some_iff.mpr ⟨t, hstep, rfl⟩

/-- Where the job is not at rest, the scheduler can make a step of it. -/
theorem Linked.advances (hserves : Serves traits cfg.capacity inv)
    (hanswers : Answers traits cfg.capacity inv) (h : Linked inv s)
    (hmoves : ¬ Job.AtRest cfg produce s.job) :
    ∃ more t id action, (system cfg traits produce).exec s more = some t ∧ Linked inv t ∧
      (Job.system cfg produce).step s.job (.worker id action) = some t.job := by
  simp only [Job.AtRest, not_forall] at hmoves
  obtain ⟨id, action, hsome⟩ := hmoves
  obtain ⟨job, hjob⟩ := Option.ne_none_iff_exists'.mp hsome
  by_cases haccess : action.accesses = true
  · obtain ⟨steps, q, hinternal, hexec, hresults⟩ :=
      hanswers _ _ _ h (enabled_of_access haccess hjob)
    exact h.returns hserves produce hinternal hexec hresults
  · rw [Bool.not_eq_true] at haccess
    obtain ⟨t, hstep, rfl⟩ := h.worker_enabled hserves haccess hjob
    refine ⟨[.worker id action], t, id, action, ?_, h.worker hserves hstep, hjob⟩
    exact Option.bind_eq_some_iff.mpr ⟨t, hstep, rfl⟩

/-- Where the chunk size fits, the next step of a worker does. -/
theorem goodRun_snoc {job job' : Job cfg.workers T} {labels : List (SchedulerAction cfg.workers T)}
    {action : WorkerAction T} (hmax : cfg.inputs ≤ longLong.max)
    (hsize : job.run.chunkSize ≤ cfg.difference.max)
    (h : (Job.system cfg produce).GoodRun (Job.Fits cfg) labels job)
    (hstep : (Job.system cfg produce).step job (.worker id action) = some job') :
    (Job.system cfg produce).GoodRun (Job.Fits cfg) (labels ++ [.worker id action]) job' ∧
      (labels ++ [SchedulerAction.worker id action]).countP Job.isWorker =
        labels.countP Job.isWorker + 1 := by
  have hinput := (Job.baseInv_of_reachable h.reaches.reachable).input
  refine ⟨h.snoc (hinput.claimFits hsize hmax action) hstep, ?_⟩
  rw [List.countP_append]
  rfl

/-- The job has a bounded number of steps to make, so that it comes to rest. -/
theorem Linked.rests (hserves : Serves traits cfg.capacity inv)
    (hanswers : Answers traits cfg.capacity inv) (hmax : cfg.inputs ≤ longLong.max) (n : Nat)
    (h : Linked inv s) (hsize : s.job.run.chunkSize ≤ cfg.difference.max)
    {labels : List (SchedulerAction cfg.workers T)}
    (hjob : (Job.system cfg produce).GoodRun (Job.Fits cfg) labels s.job)
    (hn : 3 * cfg.workers + 3 * (cfg.inputs - cfg.first) + 7 * (Job.total cfg produce).card ≤
      labels.countP Job.isWorker + n) :
    ∃ more t labels', (system cfg traits produce).exec s more = some t ∧
      (Job.system cfg produce).GoodRun (Job.Fits cfg) labels' t.job ∧
      Job.AtRest cfg produce t.job := by
  induction n generalizing s labels with
  | zero =>
      by_cases hrest : Job.AtRest cfg produce s.job
      · exact ⟨[], s, labels, rfl, hjob, hrest⟩
      · obtain ⟨more, t, id, action, -, -, hstep⟩ := h.advances hserves hanswers hrest
        obtain ⟨hgood, hcount⟩ := goodRun_snoc hmax hsize hjob hstep
        have hbound := Job.countP_isWorker_le hgood
        omega
  | succ n ih =>
      by_cases hrest : Job.AtRest cfg produce s.job
      · exact ⟨[], s, labels, rfl, hjob, hrest⟩
      · obtain ⟨more, t, id, action, hmore, hlinked, hstep⟩ := h.advances hserves hanswers hrest
        obtain ⟨hgood, hcount⟩ := goodRun_snoc hmax hsize hjob hstep
        have hsame := Scheduler.workerStep_chunkSize (Job.run_of_step hstep).2
        obtain ⟨further, u, labels', hfurther, hu, hresting⟩ := ih hlinked (hsame ▸ hsize) hgood
          (by omega)
        refine ⟨more ++ further, u, labels', ?_, hu, hresting⟩
        rw [TransitionSystem.exec_append, hmore]
        exact hfurther

/-- From every state the workers can still get all the work done. -/
theorem finishes (hserves : Serves traits cfg.capacity inv)
    (hanswers : Answers traits cfg.capacity inv) (hworkers : 2 ≤ cfg.workers)
    (hcapacity : 1 ≤ cfg.capacity) (hinputs : cfg.first < cfg.inputs)
    (hmax : cfg.inputs ≤ longLong.max) (h : (system cfg traits produce).GoodRun (Fits cfg) acts s)
    (hsize : s.job.run.chunkSize ≤ cfg.difference.max) :
    ∃ more t, (system cfg traits produce).exec s more = some t ∧
      t.job.run.stats.isAllTaskDone = true ∧ t.job.run.settled = Job.total cfg produce ∧
      t.job.run.queue = [] := by
  have hlinked := (simulates_job hserves produce).invariant h.reaches.reachable
  obtain ⟨labels, -, hrun⟩ := job_of_run hserves h
  obtain ⟨more, t, labels', hmore, hjob, hrest⟩ :=
    hlinked.rests hserves hanswers hmax _ hsize hrun (Nat.le_add_left _ _)
  exact ⟨more, t, hmore, Job.delivered_of_atRest hworkers hcapacity hinputs hjob hrest⟩

end OnQueue

end YkUtil.Exec
