import YkUtil.Exec.Scheduler.Shutdown

/-!
What `abort` can rely on. The queue is closed and a stop is requested, while the
workers are anywhere; then their threads are joined. The counters for the input stay
exact whatever fails, as long as the claims fit, so a chunk that dies with its worker
keeps the tasks from being done. No worker waits any more, and each has a bounded number
of steps before it.
-/

namespace YkUtil.Exec

open YkUtil.Lib

namespace WorkerPc

variable {T : Type*}

/-- The steps of a worker in the body of its loop until it looks for a stop again, if it
does not access its gate any more. -/
def exitCost (unclaimed : Nat) : WorkerPc T → Nat
  | .claim => unclaimed + 4
  | .produce _ inputs _ => inputs + 3
  | .push _ inputs _ _ => inputs + 4
  | .consume _ _ => 3
  | .pop _ _ => 4
  | .producerUpdate _ _ | .consumerUpdate _ _ => 2
  | .left | .threw _ | .undefined => 0

end WorkerPc

namespace StoppableAction

variable {W : Nat} {T : Type*}

/-- The action is a step of the worker. -/
def isStepOf (id : Fin W) : StoppableAction W T → Bool
  | .worker other _ | .checkStop other | .accessFails other | .throws other => other = id
  | .close | .requestStop | .setProducerChunkSize _ => false

/-- The worker's user function accesses its gate. -/
def startsAccessOf (id : Fin W) : StoppableAction W T → Bool
  | .worker other (.callPush _) | .worker other .callPop => other = id
  | _ => false

end StoppableAction

namespace StoppableScheduler

section Frame

variable {W : Nat} {T : Type*} {cfg : StoppableConfig} {s t : StoppableScheduler W T}
  {a : StoppableAction W T} {id : Fin W}

theorem workerStep_pos_le {cfg : SchedulerConfig} {s t : Scheduler W T} {action : WorkerAction T}
    (h : Scheduler.InputInv cfg s) (hstep : s.workerStep cfg id (s.pc id) action = some t) :
    s.pos ≤ t.pos := by
  cases Scheduler.workerStep_cases hstep with
  | claims _ hmore =>
      rcases Scheduler.claim_cases id h hmore with ⟨-, heq⟩ | ⟨chunk, -, heq⟩ <;> rw [heq]
      · exact Nat.le_refl _
      · exact Nat.le_add_right _ _
  | @reports chunk gate reachesOne =>
      rcases Scheduler.producerUpdate_cases s id chunk gate reachesOne with
        ⟨_, -, heq⟩ | ⟨_, _, _, -, heq, -⟩ <;> rw [heq] <;> exact Nat.le_refl _
  | settles reachesOne =>
      obtain ⟨ok, r, n, heq, -⟩ := Scheduler.consumerUpdate_eq s id _ _ reachesOne
      rw [heq]
      exact Nat.le_refl _
  | _ => exact Nat.le_refl _

/-- What the others do to a worker: they may claim inputs. -/
theorem step_frame (h : Scheduler.InputInv cfg.toSchedulerConfig s.sched)
    (hother : a.isStepOf id = false) (hstep : step cfg s a = some t) :
    t.sched.pc id = s.sched.pc id ∧ t.entered id = s.entered id ∧ t.gone id = s.gone id ∧
      s.sched.pos ≤ t.sched.pos := by
  cases step_cases hstep with
  | @works other _ _ _ _ hworks =>
      have hne : id ≠ other := fun heq => by simp [StoppableAction.isStepOf, heq] at hother
      exact ⟨Scheduler.workerStep_pc_of_ne hne hworks, Function.update_of_ne hne _ _, rfl,
        workerStep_pos_le h hworks⟩
  | @blockThrows other _ _ _ _ hworks =>
      have hne : id ≠ other := fun heq => by simp [StoppableAction.isStepOf, heq] at hother
      exact ⟨Scheduler.workerStep_pc_of_ne hne hworks, Function.update_of_ne hne _ _,
        Function.update_of_ne hne _ _, workerStep_pos_le h hworks⟩
  | @leaves other | @pushFails other | @popFails other =>
      have hne : id ≠ other := fun heq => by simp [StoppableAction.isStepOf, heq] at hother
      exact ⟨Function.update_of_ne hne _ _, rfl, rfl, Nat.le_refl _⟩
  | @enters other =>
      have hne : id ≠ other := fun heq => by simp [StoppableAction.isStepOf, heq] at hother
      exact ⟨rfl, Function.update_of_ne hne _ _, rfl, Nat.le_refl _⟩
  | @throws other =>
      have hne : id ≠ other := fun heq => by simp [StoppableAction.isStepOf, heq] at hother
      exact ⟨rfl, rfl, Function.update_of_ne hne _ _, Nat.le_refl _⟩
  | closes | stops | setsChunkSize => exact ⟨rfl, rfl, rfl, Nat.le_refl _⟩

/-- A worker that an exception has ended takes no step. -/
theorem gone_of_isStepOf (hown : a.isStepOf id = true) (hstep : step cfg s a = some t) :
    s.gone id = false := by
  cases step_cases hstep with
  | works hgone | blockThrows hgone | leaves hgone | enters hgone | pushFails hgone
  | popFails hgone | throws hgone =>
      simp only [StoppableAction.isStepOf, decide_eq_true_eq] at hown
      exact hown ▸ hgone
  | closes | stops | setsChunkSize => cases hown

/-- A request stays. -/
theorem step_keeps_requests (hstep : step cfg s a = some t) :
    (s.closed = true → t.closed = true) ∧ (s.stopRequested = true → t.stopRequested = true) := by
  cases step_cases hstep with
  | throws | blockThrows => exact ⟨id, fun _ => rfl⟩
  | closes => exact ⟨fun _ => rfl, id⟩
  | stops => exact ⟨id, fun _ => rfl⟩
  | _ => exact ⟨id, id⟩

end Frame

section Head

variable {W : Nat} {T : Type*} {cfg : StoppableConfig} {s t : StoppableScheduler W T}
  {a : StoppableAction W T} {id : Fin W}

/-- A worker that is not in the body of its loop is at its head, or has left; one that
an exception has left behind is gone. -/
structure AtHead (cfg : StoppableConfig) (s : StoppableScheduler W T) : Prop where
  input : Scheduler.InputInv cfg.toSchedulerConfig s.sched
  head : ∀ id, s.gone id = false → s.entered id = false →
    (s.sched.pc id).atLoop = true ∨ s.sched.pc id = .left
  threw : ∀ id, (s.sched.pc id).thrown = true → s.gone id = true

theorem atHead_start (cfg : StoppableConfig) (stopRequested : Bool) :
    AtHead cfg (start cfg T stopRequested) where
  input := Scheduler.inputInv_start cfg.toSchedulerConfig
  head := by
    intro id _ _
    left
    simp only [start, Scheduler.start]
    split <;> rfl
  threw := by
    intro id hthrown
    rcases Scheduler.start_head (T := T) cfg.toSchedulerConfig id with hhead | hhead
    · rw [start, hhead] at hthrown
      cases hthrown
    · rw [start, hhead] at hthrown
      cases hthrown

/-- The body of the loop ends at its head or behind the loop, or with an exception. -/
theorem head_of_leaves_body {action : WorkerAction T} {sched : Scheduler W T}
    (hstep : s.sched.workerStep cfg.toSchedulerConfig id (s.sched.pc id) action = some sched)
    (hthrown : (sched.pc id).thrown = false) (hstays : s.staysEntered cfg action = false) :
    (sched.pc id).atLoop = true ∨ sched.pc id = .left := by
  have hself (u : Scheduler W T) (pc : WorkerPc T) : (u.move id pc).pc id = pc :=
    Function.update_self _ _ _
  cases Scheduler.workerStep_cases hstep with
  | endOfInput =>
      rw [hself]
      exact .inl rfl
  | claims _ hmore => simp [staysEntered, hmore] at hstays
  | @reports chunk gate reachesOne hpc =>
      rcases Scheduler.producerUpdate_cases s.sched id chunk gate reachesOne with
        ⟨_, -, heq⟩ | ⟨ok, r, _, -, heq, -⟩
      · rw [heq, hself] at hthrown
        cases hthrown
      · rw [heq, hself]
        left
        cases WorkerKind.ofId id.val <;> cases ok <;> cases r <;> rfl
  | settles reachesOne hpc =>
      obtain ⟨ok, r, n, heq, -⟩ := Scheduler.consumerUpdate_eq s.sched id _ _ reachesOne
      rw [heq, hself]
      cases WorkerKind.ofId id.val <;> cases ok <;> cases r <;>
        first
          | exact .inl rfl
          | exact .inr rfl
  | _ => cases hstays

/-- A step of worker `id`, after which it is at the head of its loop if it is neither in
the body nor gone. -/
theorem AtHead.worker (h : AtHead cfg s) (hstep : StoppableScheduler.step cfg s a = some t)
    (hown : a.isStepOf id = true)
    (hhead : t.gone id = false → t.entered id = false →
      (t.sched.pc id).atLoop = true ∨ t.sched.pc id = .left)
    (hthrew : (t.sched.pc id).thrown = true → t.gone id = true) : AtHead cfg t := by
  have hothers (other : Fin W) (hne : other ≠ id) : t.sched.pc other = s.sched.pc other ∧
      t.entered other = s.entered other ∧ t.gone other = s.gone other := by
    have hnot : a.isStepOf other = false := by
      cases a <;> simp only [StoppableAction.isStepOf, decide_eq_true_eq] at hown <;>
        first
          | exact decide_eq_false (hown ▸ hne.symm)
          | cases hown
    obtain ⟨hpc, hentered, hgone, -⟩ := step_frame h.input hnot hstep
    exact ⟨hpc, hentered, hgone⟩
  refine ⟨inputInv_step h.input hstep, fun other hgone hout => ?_, fun other hthrown => ?_⟩
  · by_cases heq : other = id
    · subst heq
      exact hhead hgone hout
    · obtain ⟨hpc, hentered, hsame⟩ := hothers other heq
      rw [hpc]
      exact h.head other (hsame ▸ hgone) (hentered ▸ hout)
  · by_cases heq : other = id
    · subst heq
      exact hthrew hthrown
    · obtain ⟨hpc, -, hsame⟩ := hothers other heq
      rw [hsame]
      exact h.threw other (hpc ▸ hthrown)

theorem AtHead.step (h : AtHead cfg s) (hstep : StoppableScheduler.step cfg s a = some t) :
    AtHead cfg t := by
  have hown {id : Fin W} : decide (id = id) = true := decide_eq_true rfl
  cases step_cases hstep with
  | works _ _ hworks hthrown =>
      refine h.worker hstep hown (fun _ hout => ?_) (fun hthrew => ?_)
      · simp only [Function.update_self] at hout
        exact head_of_leaves_body hworks hthrown hout
      · exact Bool.noConfusion (hthrown.symm.trans hthrew)
  | blockThrows => 
      refine h.worker hstep hown (fun hgone _ => ?_) (fun _ => ?_)
      · simp [caught] at hgone
      · simp [caught]
  | leaves =>
      refine h.worker hstep hown (fun _ _ => .inr (Function.update_self _ _ _)) (fun hthrew => ?_)
      simp [move, Scheduler.move, WorkerPc.thrown] at hthrew
  | enters =>
      refine h.worker hstep hown (fun _ hout => ?_) (h.threw _)
      simp at hout
  | pushFails hgone _ hpc | popFails hgone _ hpc =>
      refine h.worker hstep hown (fun _ hout => ?_) (fun hthrew => ?_)
      · have hhead := h.head _ hgone hout
        rw [hpc] at hhead
        rcases hhead with hloop | hleft
        · cases hloop
        · cases hleft
      · simp [move, Scheduler.move, WorkerPc.thrown] at hthrew
  | @throws id =>
      refine h.worker hstep hown (fun hgone _ => ?_) (fun _ => ?_)
      · simp [caught] at hgone
      · simp [caught]
  | closes | stops | setsChunkSize =>
      exact ⟨inputInv_step h.input hstep, h.head, h.threw⟩

/-- A worker elsewhere is in the body of its loop. -/
theorem AtHead.entered (h : AtHead cfg s) {pc : WorkerPc T} (hgone : s.gone id = false)
    (hpc : s.sched.pc id = pc) (hloop : pc.atLoop = false) (hleft : pc ≠ .left) :
    s.entered id = true := by
  by_contra hout
  rw [Bool.not_eq_true] at hout
  rcases h.head id hgone hout with hhead | hended
  · rw [hpc, hloop] at hhead
    cases hhead
  · exact hleft (hpc.symm.trans hended)

theorem atHead_of_reachable {s : StoppableScheduler cfg.workers T}
    (h : (system cfg T).Reachable s) : AtHead cfg s :=
  (system cfg T).invariant (atHead_start cfg false) (fun _ _ _ _ hs hstep => hs.step hstep) h

end Head

section Chunks

variable {W : Nat} {T : Type*} {cfg : StoppableConfig} {s t : StoppableScheduler W T}
  {a : StoppableAction W T} {id : Fin W}

theorem chunkInv_of_run {acts : List (StoppableAction cfg.workers T)}
    {s : StoppableScheduler cfg.workers T} (h : (system cfg T).GoodRun (Fits cfg) acts s) :
    Scheduler.ChunkInv cfg.toSchedulerConfig s.sched :=
  h.invariant (Scheduler.chunkInv_start cfg.toSchedulerConfig)
    fun _ _ _ _ hfits hs hstep => chunkInv_step hs hfits hstep

/-- The worker's thread has ended in the middle of a chunk. -/
def LostChunk (s : StoppableScheduler W T) (id : Fin W) : Prop :=
  s.gone id = true ∧ (s.sched.pc id).InChunk

theorem LostChunk.step (h : LostChunk s id)
    (hinput : Scheduler.InputInv cfg.toSchedulerConfig s.sched)
    (hstep : StoppableScheduler.step cfg s a = some t) : LostChunk t id := by
  cases hown : a.isStepOf id with
  | false =>
      obtain ⟨hpc, -, hgone, -⟩ := step_frame hinput hown hstep
      rw [LostChunk, hpc, hgone]
      exact h
  | true =>
      have hgone := gone_of_isStepOf hown hstep
      rw [h.1] at hgone
      cases hgone

theorem LostChunk.not_done (h : LostChunk s id)
    (hchunks : Scheduler.ChunkInv cfg.toSchedulerConfig s.sched) :
    s.sched.stats.isAllTaskDone = false := by
  by_contra hdone
  rw [Bool.not_eq_false] at hdone
  have hall := ((SchedulerStats.isAllTaskDone_iff _).mp hdone).1
  exact (hchunks.processedAll.mp hall).2 id h.2

/-- In a run whose claims fit, with the queue closed, a stop requested and exceptions
thrown at any point: the inputs claimed are those processed and those of the chunks that
are out, the flags for the input say so, and none of the scheduler's own checks throws. A
chunk whose worker an exception has ended stays out, so the tasks are never done from
then on. -/
theorem input_exact_whatever_fails {before after : List (StoppableAction cfg.workers T)}
    {u s : StoppableScheduler cfg.workers T} (hbefore : (system cfg T).Reaches before u)
    (hrun : (system cfg T).GoodRun (Fits cfg) (before ++ after) s) :
    s.sched.stats.producerInputConsumed =
      s.sched.stats.producerInputProcessed + (heldBy WorkerPc.chunk s.sched.pc : Nat) ∧
    (s.sched.stats.producerInputProcessedAll = true ↔
      s.sched.stats.producerInputConsumedAll = true ∧ ∀ id, ¬ (s.sched.pc id).InChunk) ∧
    (∀ id error, s.sched.pc id ≠ .threw error) ∧
    ∀ id, LostChunk u id → LostChunk s id ∧ s.sched.stats.isAllTaskDone = false := by
  have hchunks := chunkInv_of_run hrun
  refine ⟨hchunks.outstanding, hchunks.processedAll, fun id error hpc => ?_, fun id hlost => ?_⟩
  · have hsound := hchunks.sound id
    rw [hpc] at hsound
    exact hsound
  · have hstays : LostChunk s id := hrun.invariant_from (P := fun s => LostChunk s id) hbefore hlost
      fun _ _ _ _ hs _ hlost hstep => LostChunk.step hlost (chunkInv_of_run hs).toInputInv hstep
    exact ⟨hstays, hstays.not_done hchunks⟩

/-- The producer throws at the only input; the consumer is told that the queue is closed. -/
theorem input_exact_whatever_fails_throw :
    ∃ u s : StoppableScheduler 2 Nat,
      (system ⟨⟨1, true, false, 1, 2, int32⟩, false⟩ Nat).Reaches
        [.checkStop 0, .worker 0 .callPop, .checkStop 1, .worker 1 .claim, .throws 1] u ∧
      (system ⟨⟨1, true, false, 1, 2, int32⟩, false⟩ Nat).Reaches
        ([.checkStop 0, .worker 0 .callPop, .checkStop 1, .worker 1 .claim, .throws 1] ++
          [.close, .accessFails 0, .worker 0 .endCall, .worker 0 (.consumerUpdate true)]) s ∧
      s.sched.stats.producerInputConsumed = 1 ∧ s.sched.stats.producerInputProcessed = 0 ∧
      LostChunk s 1 ∧ s.sched.stats.isAllTaskDone = false := by
  obtain ⟨u, hbefore, hu⟩ := (system ⟨⟨1, true, false, 1, 2, int32⟩, false⟩ Nat).exists_of_map
    [.checkStop 0, .worker 0 .callPop, .checkStop 1, .worker 1 .claim, .throws 1]
    (b := (true, .produce ⟨0, 1, 1⟩ 1 0)) (fun u => (u.gone 1, u.sched.pc 1)) rfl
  obtain ⟨s, hrun, hs⟩ :=
    ((system ⟨⟨1, true, false, 1, 2, int32⟩, false⟩ Nat).restrict
      (Fits ⟨⟨1, true, false, 1, 2, int32⟩, false⟩)).exists_of_map
      ([.checkStop 0, .worker 0 .callPop, .checkStop 1, .worker 1 .claim, .throws 1] ++
        [.close, .accessFails 0, .worker 0 .endCall, .worker 0 (.consumerUpdate true)])
      (b := (1, 0))
      (fun s => (s.sched.stats.producerInputConsumed, s.sched.stats.producerInputProcessed)) rfl
  simp only [Prod.mk.injEq] at hu hs
  have hgood := TransitionSystem.GoodRun.of_restrict hrun
  have hlost : LostChunk u 1 := ⟨hu.1, by rw [hu.2]; trivial⟩
  exact ⟨u, s, hbefore, hgood.reaches, hs.1, hs.2,
    (input_exact_whatever_fails hbefore hgood).2.2.2 1 hlost⟩

end Chunks

section Exit

variable {cfg : StoppableConfig} {T : Type*} {s t u : StoppableScheduler cfg.workers T}
  {a : StoppableAction cfg.workers T} {id : Fin cfg.workers}

/-- The worker's thread is over, or will be without another step, or has made an undefined
call. -/
def Ended (s : StoppableScheduler cfg.workers T) (id : Fin cfg.workers) : Prop :=
  s.gone id = true ∨ s.sched.pc id = .left ∨ s.sched.pc id = .undefined

/-- The steps a worker has left when a stop is requested. -/
def exitSteps (s : StoppableScheduler cfg.workers T) (id : Fin cfg.workers) : Nat :=
  if s.gone id then 0
  else if s.entered id then (s.sched.pc id).exitCost (cfg.inputs - s.sched.pos)
  else if (s.sched.pc id).atLoop then 1 else 0

theorem exitCost_mono (pc : WorkerPc T) {m n : Nat} (h : m ≤ n) :
    pc.exitCost m ≤ pc.exitCost n := by
  cases pc with
  | claim => exact Nat.add_le_add_right h 4
  | _ => exact Nat.le_refl _

/-- Outside the body of its loop a worker has one step at most. -/
theorem exitSteps_out (h : s.entered id = false) : exitSteps s id ≤ 1 := by
  unfold exitSteps
  rw [h]
  split
  · exact Nat.zero_le 1
  · rw [if_neg Bool.false_ne_true]
    split
    · exact Nat.le_refl 1
    · exact Nat.zero_le 1

theorem exitSteps_in (hgone : s.gone id = false) (h : s.entered id = true) :
    exitSteps s id = (s.sched.pc id).exitCost (cfg.inputs - s.sched.pos) := by
  rw [exitSteps, hgone, h, if_neg Bool.false_ne_true, if_pos rfl]

theorem exitSteps_ended (h : Ended s id) : exitSteps s id = 0 := by
  unfold exitSteps
  rcases h with hgone | hleft | hundefined
  · rw [if_pos hgone]
  · rw [hleft]
    simp [WorkerPc.exitCost, WorkerPc.atLoop]
  · rw [hundefined]
    simp [WorkerPc.exitCost, WorkerPc.atLoop]

theorem exitCost_pos {action : WorkerAction T} {sched : Scheduler cfg.workers T} (unclaimed : Nat)
    (hworks : s.sched.workerStep cfg.toSchedulerConfig id (s.sched.pc id) action = some sched) :
    0 < (s.sched.pc id).exitCost unclaimed := by
  cases Scheduler.workerStep_cases hworks with
  | endOfInput hpc | claims hpc | callsPush _ hpc | pushes hpc | endsInput hpc | endsChunk hpc
  | reports _ hpc | callsPop hpc | pops hpc | endsCall hpc | settles _ hpc =>
      rw [hpc]
      simp [WorkerPc.exitCost]

theorem exitSteps_works {action : WorkerAction T} {sched : Scheduler cfg.workers T}
    (h : Scheduler.InputInv cfg.toSchedulerConfig s.sched) (hgone : s.gone id = false)
    (hentered : s.entered id = true)
    (hworks : s.sched.workerStep cfg.toSchedulerConfig id (s.sched.pc id) action = some sched) :
    exitSteps {s with
      sched := sched
      entered := Function.update s.entered id (s.staysEntered cfg action)} id + 1 ≤
    exitSteps s id + 2 * ((StoppableAction.worker id action).startsAccessOf id).toNat := by
  have hself (u : Scheduler cfg.workers T) (pc : WorkerPc T) : (u.move id pc).pc id = pc :=
    Function.update_self _ _ _
  rw [exitSteps_in hgone hentered]
  cases hstays : s.staysEntered cfg action with
  | false =>
      have hout : exitSteps {s with
          sched := sched
          entered := Function.update s.entered id false} id ≤ 1 :=
        exitSteps_out (Function.update_self _ _ _)
      have hin : 2 ≤ (s.sched.pc id).exitCost (cfg.inputs - s.sched.pos) := by
        cases Scheduler.workerStep_cases hworks with
        | endOfInput hpc => simp [hpc, WorkerPc.exitCost]
        | claims hpc => simp [hpc, WorkerPc.exitCost]
        | reports _ hpc => simp [hpc, WorkerPc.exitCost]
        | settles _ hpc => simp [hpc, WorkerPc.exitCost]
        | _ => cases hstays
      omega
  | true =>
      rw [exitSteps_in (s := {s with
        sched := sched
        entered := Function.update s.entered id true}) hgone (Function.update_self _ _ _)]
      cases Scheduler.workerStep_cases hworks with
      | endOfInput _ hend => simp [staysEntered, hend] at hstays
      | claims hpc hmore =>
          rcases Scheduler.claim_cases id h hmore with ⟨-, heq⟩ | ⟨chunk, htake, heq⟩
          · rw [heq, hself, hpc]
            simp only [WorkerPc.exitCost]
            omega
          · have hinputs := (takeChunk_bounds htake).2
            rw [heq, hpc]
            simp only [Scheduler.claimed, hself, Scheduler.enterChunk]
            split <;> simp only [WorkerPc.exitCost] <;> omega
      | reports => cases hstays
      | settles => cases hstays
      | callsPush _ hpc | callsPop hpc =>
          rw [hself, hpc]
          simp [WorkerPc.exitCost, StoppableAction.startsAccessOf]
      | pushes hpc | endsInput hpc | endsChunk hpc | pops hpc | endsCall hpc =>
          rw [hself, hpc]
          simp only [WorkerPc.exitCost]
          omega

/-- Once a stop is requested, every step of a worker is one of those it has left. -/
theorem exitSteps_step (id : Fin cfg.workers) (h : AtHead cfg s) (hstop : s.stopRequested = true)
    (hstep : step cfg s a = some t) :
    exitSteps t id + (a.isStepOf id).toNat ≤ exitSteps s id + 2 * (a.startsAccessOf id).toNat := by
  cases hown : a.isStepOf id with
  | false =>
      obtain ⟨hpc, hentered, hgone, hpos⟩ := step_frame h.input hown hstep
      have hcost := exitCost_mono (s.sched.pc id) (Nat.sub_le_sub_left hpos cfg.inputs)
      have hsteps : exitSteps t id ≤ exitSteps s id := by
        unfold exitSteps
        rw [hpc, hentered, hgone]
        split
        · exact Nat.le_refl 0
        · split
          · exact hcost
          · exact Nat.le_refl _
      exact hsteps.trans (Nat.le_add_right _ _)
  | true =>
      have hgone := gone_of_isStepOf hown hstep
      cases step_cases hstep with
      | works _ hentered hworks =>
          simp only [StoppableAction.isStepOf, decide_eq_true_eq] at hown
          subst hown
          exact exitSteps_works h.input hgone hentered hworks
      | @blockThrows other _ _ _ hentered hworks =>
          simp only [StoppableAction.isStepOf, decide_eq_true_eq] at hown
          subst hown
          have hpos := exitCost_pos (cfg.inputs - s.sched.pos) hworks
          rw [exitSteps_ended (.inl (Function.update_self _ _ _)), exitSteps_in hgone hentered]
          simp only [Bool.toNat_true]
          omega
      | leaves _ _ hout hloop =>
          simp only [StoppableAction.isStepOf, decide_eq_true_eq] at hown
          subst hown
          rw [exitSteps_ended (.inr (.inl (Function.update_self _ _ _))), exitSteps, hgone, hout,
            if_neg Bool.false_ne_true, if_neg Bool.false_ne_true, if_pos hloop]
          exact Nat.le_add_right _ _
      | enters _ hrunning =>
          rw [hstop] at hrunning
          cases hrunning
      | pushFails _ _ hpc | popFails _ _ hpc =>
          simp only [StoppableAction.isStepOf, decide_eq_true_eq] at hown
          subst hown
          have hentered := h.entered hgone hpc rfl (by rintro ⟨⟩)
          rw [exitSteps_in (s := s.move _ _) hgone hentered, exitSteps_in hgone hentered, hpc]
          simp only [move, Scheduler.move, Function.update_self, WorkerPc.exitCost, Bool.toNat_true]
          omega
      | @throws other _ _ hentered hgate =>
          simp only [StoppableAction.isStepOf, decide_eq_true_eq] at hown
          subst hown
          rw [exitSteps_ended (.inl (Function.update_self _ _ _)), exitSteps_in hgone hentered]
          cases hpc : s.sched.pc other <;> rw [hpc] at hgate <;> cases hgate
          · simp only [WorkerPc.exitCost, Bool.toNat_true]
            omega
          · simp only [WorkerPc.exitCost, Bool.toNat_true]
            omega
      | closes | stops | setsChunkSize => cases hown

/-- With the queue closed as well, no worker waits. -/
theorem AtHead.enabled (h : AtHead cfg s) (hclosed : s.closed = true) (id : Fin cfg.workers)
    (hruns : ¬ Ended s id) :
    ∃ a t, a.isStepOf id = true ∧ a.startsAccessOf id = false ∧
      StoppableScheduler.step cfg s a = some t := by
  rw [Ended, not_or, not_or, Bool.not_eq_true] at hruns
  obtain ⟨hgone, hleft, hdefined⟩ := hruns
  cases hentered : s.entered id with
  | false =>
      rcases h.head id hgone hentered with hloop | hended
      · exact ⟨.checkStop id, _, decide_eq_true rfl, rfl, if_pos ⟨hgone, hentered, hloop⟩⟩
      · exact absurd hended hleft
  | true =>
      have hworks (action : WorkerAction T) {sched : Scheduler cfg.workers T}
          (haccess : action.accesses = false)
          (hstarts : (StoppableAction.worker id action).startsAccessOf id = false)
          (hstep : s.sched.workerStep cfg.toSchedulerConfig id (s.sched.pc id) action =
            some sched) :
          ∃ a t, a.isStepOf id = true ∧ a.startsAccessOf id = false ∧
            StoppableScheduler.step cfg s a = some t := by
        have hguard : s.gone id = false ∧ s.entered id = true ∧
            (action.accesses = true → s.closed = true → cfg.needStopTokenForCancel = true) :=
          ⟨hgone, hentered, fun haccesses => by rw [haccess] at haccesses; cases haccesses⟩
        refine ⟨.worker id action, s.worked cfg id action sched, decide_eq_true rfl, hstarts, ?_⟩
        rw [StoppableScheduler.step, if_pos hguard, hstep, Option.map_some]
      have hfails {t : StoppableScheduler cfg.workers T}
          (hstep : s.accessFails id (s.sched.pc id) = some t) :
          ∃ a t, a.isStepOf id = true ∧ a.startsAccessOf id = false ∧
            StoppableScheduler.step cfg s a = some t :=
        ⟨.accessFails id, t, decide_eq_true rfl, rfl, (if_pos ⟨hgone, hclosed⟩).trans hstep⟩
      cases hpc : s.sched.pc id with
      | claim => exact hworks .claim rfl rfl (by rw [hpc]; rfl)
      | produce chunk inputs gate =>
          have hends : ∃ sched, s.sched.workerStep cfg.toSchedulerConfig id (s.sched.pc id)
              .endInput = some sched := by
            rw [hpc]
            simp only [Scheduler.workerStep]
            split
            · exact ⟨_, rfl⟩
            · exact ⟨_, rfl⟩
          exact hworks .endInput rfl rfl hends.choose_spec
      | push => exact hfails (by rw [hpc]; rfl)
      | producerUpdate chunk gate =>
          exact hworks (.producerUpdate true) rfl rfl (by rw [hpc]; rfl)
      | consume gate taken => exact hworks .endCall rfl rfl (by rw [hpc]; rfl)
      | pop => exact hfails (by rw [hpc]; rfl)
      | consumerUpdate gate taken =>
          exact hworks (.consumerUpdate true) rfl rfl (by rw [hpc]; rfl)
      | left => exact absurd hpc hleft
      | threw error =>
          have hthrown := h.threw id (by rw [hpc]; rfl)
          rw [hgone] at hthrown
          cases hthrown
      | undefined => exact absurd hpc hdefined

/-- From any state with the queue closed and a stop requested, however the threads go on:
a worker takes at most the steps that were left of its chunk, of one more claim or of its
call, and two for each access that its user function starts; and while its thread has not
ended, it has a step that is not such an access and for which it waits for nobody. So a
thread can be joined as soon as its user function gives up. A claim with a chunk size that is
negative in the difference type has no defined outcome, and counts as an end here. -/
theorem abort_ends {before after : List (StoppableAction cfg.workers T)}
    (hbefore : (system cfg T).Reaches before u) (hclosed : u.closed = true)
    (hstop : u.stopRequested = true) (hafter : (system cfg T).exec u after = some s)
    (id : Fin cfg.workers) :
    after.countP (StoppableAction.isStepOf id) ≤
      (u.sched.pc id).exitCost (cfg.inputs - u.sched.pos) + 1 +
        2 * after.countP (StoppableAction.startsAccessOf id) ∧
    (Ended s id ∨
      ∃ a t, a.isStepOf id = true ∧ a.startsAccessOf id = false ∧ step cfg s a = some t) := by
  have hinv : ∀ acts s, (system cfg T).exec u acts = some s →
      AtHead cfg s ∧ s.closed = true ∧ s.stopRequested = true ∧
        exitSteps s id + acts.countP (StoppableAction.isStepOf id) ≤
          exitSteps u id + 2 * acts.countP (StoppableAction.startsAccessOf id) := by
    refine (system cfg T).exec_induction
      ⟨atHead_of_reachable hbefore.reachable, hclosed, hstop, Nat.le_refl _⟩ ?_
    intro acts s a t ⟨hhead, hclosed, hstop, hsteps⟩ hstep
    have hkeeps := step_keeps_requests hstep
    refine ⟨hhead.step hstep, hkeeps.1 hclosed, hkeeps.2 hstop, ?_⟩
    have hone := exitSteps_step id hhead hstop hstep
    rw [List.countP_append, List.countP_append, List.countP_singleton, List.countP_singleton]
    cases hown : a.isStepOf id <;> cases hstarts : a.startsAccessOf id <;>
      simp only [hown, hstarts, Bool.toNat_true, Bool.toNat_false] at hone ⊢ <;> simp <;> omega
  obtain ⟨hhead, hclosed', -, hsteps⟩ := hinv after s hafter
  constructor
  · have hstart : exitSteps u id ≤ (u.sched.pc id).exitCost (cfg.inputs - u.sched.pos) + 1 := by
      unfold exitSteps
      split
      · omega
      · split
        · omega
        · split <;> omega
    omega
  · by_cases hended : Ended s id
    · exact .inl hended
    · exact .inr (hhead.enabled hclosed' id hended)

/-- A consumer waits for a value when the queue is closed and a stop is requested. -/
theorem abort_ends_pop :
    ∃ u : StoppableScheduler 2 Nat, (system ⟨⟨1, true, false, 1, 2, int32⟩, false⟩ Nat).Reaches
        [.checkStop 0, .worker 0 .callPop, .close, .requestStop] u ∧
      ∀ after s, (system ⟨⟨1, true, false, 1, 2, int32⟩, false⟩ Nat).exec u after = some s →
        after.countP (StoppableAction.isStepOf 0) ≤
          5 + 2 * after.countP (StoppableAction.startsAccessOf 0) := by
  obtain ⟨u, hbefore, hu⟩ := (system ⟨⟨1, true, false, 1, 2, int32⟩, false⟩ Nat).exists_of_map
    [.checkStop 0, .worker 0 .callPop, .close, .requestStop]
    (b := (.pop 1 [], true, true)) (fun u => (u.sched.pc 0, u.closed, u.stopRequested)) rfl
  simp only [Prod.mk.injEq] at hu
  obtain ⟨hpc, hclosed, hstop⟩ := hu
  refine ⟨u, hbefore, fun after s hafter => ?_⟩
  have hsteps := (abort_ends hbefore hclosed hstop hafter 0).1
  rw [hpc] at hsteps
  exact hsteps

end Exit

end StoppableScheduler

end YkUtil.Exec
