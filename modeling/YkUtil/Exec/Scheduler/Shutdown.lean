import YkUtil.Exec.Scheduler.Progress

/-!
The scheduler around a shutdown: the queue may be closed and a stop requested
at any point, a user function may throw, and the workers look for a stop at the
head of their loops only. A gate is counted before the queue operation, so an
operation that then fails is counted too. The counters agree with the queue in
every run without such a failure whose claims fit.
-/

namespace YkUtil.Exec

open YkUtil.Lib

/-- With `needStopTokenForCancel` the queue itself is never closed: its
operations look at a stop token, and one that is under way may still succeed. -/
structure StoppableConfig extends SchedulerConfig where
  needStopTokenForCancel : Bool

/-- A scheduler whose worker has `entered` the body of its loop or waits at the
loop condition, and is `gone` when an exception has ended its thread. -/
structure StoppableScheduler (W : Nat) (T : Type*) where
  sched : Scheduler W T
  closed : Bool
  stopRequested : Bool
  entered : Fin W → Bool
  gone : Fin W → Bool

/-- `close` is `close_queue`; `requestStop` is `halt`, by the scheduler or by
anybody else who has the pool. -/
inductive StoppableAction (W : Nat) (T : Type*) where
  | worker (id : Fin W) (action : WorkerAction T)
  | checkStop (id : Fin W)
  | accessFails (id : Fin W)
  | throws (id : Fin W)
  | close
  | requestStop
  | setProducerChunkSize (chunkSize : Int)

namespace WorkerAction

variable {T : Type*}

/-- The queue operation of a gate succeeds. -/
def accesses : WorkerAction T → Bool
  | .push | .pop _ => true
  | _ => false

end WorkerAction

namespace WorkerPc

variable {T : Type*}

/-- Where the loop condition can be evaluated. -/
def atLoop : WorkerPc T → Bool
  | .claim | .consume _ _ => true
  | _ => false

/-- An exception has left a block. -/
def thrown : WorkerPc T → Bool
  | .threw _ => true
  | _ => false

theorem ChunkSound.not_thrown {pc : WorkerPc T} (h : pc.ChunkSound) : pc.thrown = false := by
  cases pc with
  | threw => exact h.elim
  | _ => rfl

/-- The worker is in a user function, outside the queue, and its gate has been
accessed so often. -/
def inUserFunction : WorkerPc T → Option Nat
  | .produce _ _ gate | .consume gate _ => some gate
  | _ => none

/-- The worker is in a producer or consumer call that has not been counted
yet. A consumer call that has not accessed its gate holds nothing, like a worker
at the head of its loop. -/
def Calling : WorkerPc T → Prop
  | .consume gate _ => gate ≠ 0
  | .pop _ _ | .consumerUpdate _ _ => True
  | pc => pc.InChunk

end WorkerPc

/-- No exception leaves a block where the claims have fitted. -/
theorem Scheduler.ChunkInv.not_thrown {W : Nat} {T : Type*} {cfg : SchedulerConfig}
    {s t : Scheduler W T} {id : Fin W} {action : WorkerAction T} (h : Scheduler.ChunkInv cfg s)
    (hfits : Scheduler.ClaimFits cfg s action)
    (hstep : s.workerStep cfg id (s.pc id) action = some t) : (t.pc id).thrown ≠ true := by
  rw [((h.workerStep hfits hstep).sound id).not_thrown]
  exact Bool.false_ne_true

namespace StoppableScheduler

variable {W : Nat} {T : Type*}

/-- Worker `id` goes on at `pc`. -/
def move (s : StoppableScheduler W T) (id : Fin W) (pc : WorkerPc T) : StoppableScheduler W T :=
  {s with sched := s.sched.move id pc}

/-- The handler of the worker's thread: an exception ends the thread and requests a stop. -/
def caught (s : StoppableScheduler W T) (id : Fin W) : StoppableScheduler W T :=
  {s with gone := Function.update s.gone id true, stopRequested := true}

/-- Whether the worker is still in the body of its loop after a step. -/
def staysEntered (cfg : StoppableConfig) (s : StoppableScheduler W T) : WorkerAction T → Bool
  | .claim => s.sched.pos != cfg.inputs
  | .producerUpdate _ | .consumerUpdate _ => false
  | _ => true

/-- `while (!stop_token.stop_requested())`. A producer that stops producing
looks twice, which is like looking once. -/
def checkStop (s : StoppableScheduler W T) (id : Fin W) : StoppableScheduler W T :=
  if s.stopRequested then s.move id .left
  else {s with entered := Function.update s.entered id true}

/-- `push_wait` or `pop_wait` returns false. The gate stays counted. -/
def accessFails (s : StoppableScheduler W T) (id : Fin W) :
    WorkerPc T → Option (StoppableScheduler W T)
  | .push chunk left gate _ => some (s.move id (.produce chunk left gate))
  | .pop gate taken => some (s.move id (.consume gate taken))
  | _ => none

/-- An exception leaves the user function. -/
def throws (s : StoppableScheduler W T) (id : Fin W) (pc : WorkerPc T) :
    Option (StoppableScheduler W T) :=
  pc.inUserFunction.map fun _ => s.caught id

/-- The worker's own step has led to `sched`, or out of its block by an exception. -/
def worked (cfg : StoppableConfig) (s : StoppableScheduler W T) (id : Fin W)
    (action : WorkerAction T) (sched : Scheduler W T) : StoppableScheduler W T :=
  let s' := {s with
    sched := sched
    entered := Function.update s.entered id (s.staysEntered cfg action)}
  if (sched.pc id).thrown then s'.caught id else s'

def step (cfg : StoppableConfig) (s : StoppableScheduler W T) :
    StoppableAction W T → Option (StoppableScheduler W T)
  | .worker id action =>
      if s.gone id = false ∧ s.entered id = true ∧
          (action.accesses = true → s.closed = true → cfg.needStopTokenForCancel = true) then
        (s.sched.workerStep cfg.toSchedulerConfig id (s.sched.pc id) action).map
          (s.worked cfg id action)
      else none
  | .checkStop id =>
      if s.gone id = false ∧ s.entered id = false ∧ (s.sched.pc id).atLoop = true then
        some (s.checkStop id)
      else none
  | .accessFails id =>
      if s.gone id = false ∧ s.closed = true then s.accessFails id (s.sched.pc id) else none
  | .throws id =>
      if s.gone id = false ∧ s.entered id = true then s.throws id (s.sched.pc id) else none
  | .close => some {s with closed := true}
  | .requestStop => some {s with stopRequested := true}
  | .setProducerChunkSize chunkSize =>
      some {s with sched := s.sched.setProducerChunkSize chunkSize}

/-- The pool may have been stopped already. -/
def start (cfg : StoppableConfig) (T : Type*) (stopRequested : Bool) :
    StoppableScheduler cfg.workers T :=
  {sched := Scheduler.start cfg.toSchedulerConfig T
   closed := false
   stopRequested := stopRequested
   entered := fun _ => false
   gone := fun _ => false}

def system (cfg : StoppableConfig) (T : Type*) :
    TransitionSystem (StoppableScheduler cfg.workers T) (StoppableAction cfg.workers T) :=
  {init := start cfg T false, step := step cfg}

/-- Everything a step can be. -/
inductive Step (cfg : StoppableConfig) (s : StoppableScheduler W T) :
    StoppableAction W T → StoppableScheduler W T → Prop where
  | works {id : Fin W} {action : WorkerAction T} {sched : Scheduler W T} (hgone : s.gone id = false)
      (hentered : s.entered id = true)
      (hstep : s.sched.workerStep cfg.toSchedulerConfig id (s.sched.pc id) action = some sched)
      (hthrown : (sched.pc id).thrown = false) :
      Step cfg s (.worker id action) {s with
        sched := sched
        entered := Function.update s.entered id (s.staysEntered cfg action)}
  | blockThrows {id : Fin W} {action : WorkerAction T} {sched : Scheduler W T}
      (hgone : s.gone id = false) (hentered : s.entered id = true)
      (hstep : s.sched.workerStep cfg.toSchedulerConfig id (s.sched.pc id) action = some sched)
      (hthrown : (sched.pc id).thrown = true) :
      Step cfg s (.worker id action) (caught {s with
        sched := sched
        entered := Function.update s.entered id (s.staysEntered cfg action)} id)
  | leaves {id : Fin W} (hgone : s.gone id = false) (hstop : s.stopRequested = true)
      (hentered : s.entered id = false) (hpc : (s.sched.pc id).atLoop = true) :
      Step cfg s (.checkStop id) (s.move id .left)
  | enters {id : Fin W} (hgone : s.gone id = false) (hstop : s.stopRequested = false) :
      Step cfg s (.checkStop id) {s with entered := Function.update s.entered id true}
  | pushFails {id : Fin W} {chunk : Chunk} {left gate : Nat} {v : T} (hgone : s.gone id = false)
      (hclosed : s.closed = true) (hpc : s.sched.pc id = .push chunk left gate v) :
      Step cfg s (.accessFails id) (s.move id (.produce chunk left gate))
  | popFails {id : Fin W} {gate : Nat} {taken : List T} (hgone : s.gone id = false)
      (hclosed : s.closed = true) (hpc : s.sched.pc id = .pop gate taken) :
      Step cfg s (.accessFails id) (s.move id (.consume gate taken))
  | throws {id : Fin W} {gate : Nat} (hgone : s.gone id = false) (hentered : s.entered id = true)
      (hgate : (s.sched.pc id).inUserFunction = some gate) :
      Step cfg s (.throws id) (s.caught id)
  | closes : Step cfg s .close {s with closed := true}
  | stops : Step cfg s .requestStop {s with stopRequested := true}
  | setsChunkSize (chunkSize : Int) : Step cfg s (.setProducerChunkSize chunkSize)
      {s with sched := s.sched.setProducerChunkSize chunkSize}

variable {cfg : StoppableConfig} {s t : StoppableScheduler W T} {a : StoppableAction W T}

theorem step_cases (h : step cfg s a = some t) : Step cfg s a t := by
  cases a with
  | worker id action =>
      simp only [step, Option.ite_none_right_eq_some, Option.map_eq_some_iff] at h
      obtain ⟨⟨hgone, hentered, _⟩, sched, hstep, rfl⟩ := h
      unfold worked
      split
      · exact .blockThrows hgone hentered hstep (by assumption)
      · rename_i hthrown
        exact .works hgone hentered hstep (by simpa using hthrown)
  | checkStop id =>
      simp only [step, Option.ite_none_right_eq_some, Option.some.injEq] at h
      obtain ⟨⟨hgone, hentered, hpc⟩, rfl⟩ := h
      unfold checkStop
      split
      · exact .leaves hgone (by assumption) hentered hpc
      · rename_i hstop
        exact .enters hgone (by simpa using hstop)
  | accessFails id =>
      simp only [step, Option.ite_none_right_eq_some] at h
      obtain ⟨⟨hgone, hclosed⟩, h⟩ := h
      cases hpc : s.sched.pc id <;> rw [hpc] at h <;>
        simp only [accessFails, reduceCtorEq, Option.some.injEq] at h
      case push =>
        subst h
        exact .pushFails hgone hclosed hpc
      case pop =>
        subst h
        exact .popFails hgone hclosed hpc
  | throws id =>
      simp only [step, Option.ite_none_right_eq_some, throws, Option.map_eq_some_iff] at h
      obtain ⟨⟨hgone, hentered⟩, gate, hgate, rfl⟩ := h
      exact .throws hgone hentered hgate
  | close =>
      cases h
      exact .closes
  | requestStop =>
      cases h
      exact .stops
  | setProducerChunkSize chunkSize =>
      cases h
      exact .setsChunkSize chunkSize

/-- The action is no claim, or the claim fits. -/
def Fits (cfg : StoppableConfig) (s : StoppableScheduler W T) : StoppableAction W T → Prop
  | .worker _ action => Scheduler.ClaimFits cfg.toSchedulerConfig s.sched action
  | _ => True

instance (cfg : StoppableConfig) (s : StoppableScheduler W T) (a : StoppableAction W T) :
    Decidable (Fits cfg s a) :=
  match a with
  | .worker _ action =>
      inferInstanceAs (Decidable (Scheduler.ClaimFits cfg.toSchedulerConfig s.sched action))
  | .checkStop _ | .accessFails _ | .throws _ | .close | .requestStop | .setProducerChunkSize _ =>
      inferInstanceAs (Decidable True)

/-- The counters for the input, whatever fails and whatever is claimed. -/
theorem inputInv_step (h : Scheduler.InputInv cfg.toSchedulerConfig s.sched)
    (hstep : step cfg s a = some t) : Scheduler.InputInv cfg.toSchedulerConfig t.sched := by
  cases step_cases hstep with
  | works _ _ hworks | blockThrows _ _ hworks => exact h.workerStep hworks
  | @leaves other _ _ _ hloop =>
      cases hpc : s.sched.pc other <;> rw [hpc] at hloop <;> cases hloop
      · exact h.move hpc rfl rfl (fun hno => hno) rfl rfl rfl
      · exact h.move hpc rfl rfl (fun hno => hno) rfl rfl rfl
  | pushFails _ _ hpc => exact h.move hpc rfl rfl (fun hin => hin) rfl rfl rfl
  | popFails _ _ hpc => exact h.move hpc rfl rfl (fun hno => hno) rfl rfl rfl
  | setsChunkSize chunkSize => exact h.setProducerChunkSize chunkSize
  | enters | throws | closes | stops => exact h

/-- They stay exact where the claims fit. -/
theorem chunkInv_step (h : Scheduler.ChunkInv cfg.toSchedulerConfig s.sched)
    (hfits : Fits cfg s a) (hstep : step cfg s a = some t) :
    Scheduler.ChunkInv cfg.toSchedulerConfig t.sched := by
  cases step_cases hstep with
  | works _ _ hworks | blockThrows _ _ hworks => exact h.workerStep hfits hworks
  | @leaves other _ _ _ hloop =>
      cases hpc : s.sched.pc other <;> rw [hpc] at hloop <;> cases hloop
      · exact h.move hpc rfl trivial rfl rfl rfl rfl
      · exact h.move hpc rfl trivial rfl rfl rfl rfl
  | @pushFails other _ _ _ _ _ _ hpc =>
      have hsound := h.sound other
      rw [hpc] at hsound
      exact h.move hpc rfl hsound rfl rfl rfl rfl
  | popFails _ _ hpc => exact h.move hpc rfl trivial rfl rfl rfl rfl
  | setsChunkSize chunkSize => exact h.setProducerChunkSize chunkSize
  | enters | throws | closes | stops => exact h

/-- The claims fit, no gate access fails, and no exception leaves a user function that has
accessed its gate. -/
def Clean (cfg : StoppableConfig) (s : StoppableScheduler W T) : StoppableAction W T → Prop
  | .worker _ action => Scheduler.ClaimFits cfg.toSchedulerConfig s.sched action
  | .accessFails _ => False
  | .throws id => (s.sched.pc id).inUserFunction = some 0
  | _ => True

instance (cfg : StoppableConfig) (s : StoppableScheduler W T) (a : StoppableAction W T) :
    Decidable (Clean cfg s a) :=
  match a with
  | .checkStop _ | .close | .requestStop | .setProducerChunkSize _ =>
      inferInstanceAs (Decidable True)
  | .worker _ action =>
      inferInstanceAs (Decidable (Scheduler.ClaimFits cfg.toSchedulerConfig s.sched action))
  | .accessFails _ => inferInstanceAs (Decidable False)
  | .throws id => inferInstanceAs (Decidable ((s.sched.pc id).inUserFunction = some 0))

/-- The values that a `pop_wait` has removed from the queue. -/
def removed (s : StoppableScheduler W T) : Multiset T :=
  s.sched.settled + heldBy WorkerPc.taken s.sched.pc

/-- No producer or consumer call is in flight. -/
def Quiet (s : StoppableScheduler W T) : Prop :=
  ∀ id, s.gone id = true ∨ ¬ (s.sched.pc id).Calling

/-- A worker holds nothing at the loop condition, and when an exception ends
its thread. -/
structure CleanInv (cfg : StoppableConfig) (s : StoppableScheduler W T) : Prop where
  sched : Scheduler.Inv cfg.toSchedulerConfig s.sched
  atHead : ∀ id, s.entered id = false → (s.sched.pc id).taken = 0
  gone : ∀ id, s.gone id = true → (s.sched.pc id).pushes = 0 ∧ (s.sched.pc id).taken = 0

theorem cleanInv_start (cfg : StoppableConfig) (stopRequested : Bool) :
    CleanInv cfg (start cfg T stopRequested) := by
  refine ⟨Scheduler.inv_start _, fun id _ => ?_, fun id hgone => by cases hgone⟩
  simp only [start, Scheduler.start]
  split <;> rfl

section Clean

variable {cfg : StoppableConfig} {s t : StoppableScheduler W T} {a : StoppableAction W T}
  {id : Fin W}

theorem taken_of_leaves_body {action : WorkerAction T} {sched : Scheduler W T}
    (hstep : s.sched.workerStep cfg.toSchedulerConfig id (s.sched.pc id) action = some sched)
    (hstays : s.staysEntered cfg action = false) : (sched.pc id).taken = 0 := by
  have hself (u : Scheduler W T) (pc : WorkerPc T) : (u.move id pc).pc id = pc :=
    Function.update_self _ _ _
  cases Scheduler.workerStep_cases hstep with
  | endOfInput =>
      rw [hself]
      rfl
  | claims _ hmore => simp [staysEntered, hmore] at hstays
  | @reports chunk gate reachesOne hpc =>
      rcases Scheduler.producerUpdate_cases s.sched id chunk gate reachesOne with
        ⟨_, -, heq⟩ | ⟨ok, r, _, -, heq, -⟩ <;> rw [heq, hself]
      · rfl
      · exact (Scheduler.afterProducer_idle _ ok r).taken
  | settles reachesOne hpc =>
      obtain ⟨ok, r, n, heq, _⟩ := Scheduler.consumerUpdate_eq s.sched id _ _ reachesOne
      rw [heq, hself]
      exact (Scheduler.afterConsumer_idle _ ok r).taken
  | _ => cases hstays

/-- A step of worker `id` that keeps the invariant of the workers. -/
theorem CleanInv.worker (h : CleanInv cfg s) (hgone : s.gone id = false)
    (hsched : Scheduler.Inv cfg.toSchedulerConfig t.sched)
    (hpc : ∀ other, other ≠ id → t.sched.pc other = s.sched.pc other)
    (hentered : ∀ other, other ≠ id → t.entered other = s.entered other)
    (hsame : t.gone = s.gone) (hhead : t.entered id = false → (t.sched.pc id).taken = 0) :
    CleanInv cfg t := by
  refine ⟨hsched, fun other hother => ?_, fun other hother => ?_⟩
  · by_cases heq : other = id
    · subst heq
      exact hhead hother
    · rw [hpc other heq]
      exact h.atHead other (hentered other heq ▸ hother)
  · rw [hsame] at hother
    have hne : other ≠ id := by
      rintro rfl
      exact Bool.noConfusion (hgone.symm.trans hother)
    rw [hpc other hne]
    exact h.gone other hother

theorem CleanInv.leave (h : CleanInv cfg s) (hgone : s.gone id = false)
    (hentered : s.entered id = false) (hpc : (s.sched.pc id).atLoop = true) :
    CleanInv cfg (s.move id .left) := by
  have hinv : Scheduler.Inv cfg.toSchedulerConfig (s.sched.move id .left) := by
    have htaken := h.atHead id hentered
    cases hold : s.sched.pc id <;> rw [hold] at hpc htaken
    case claim => exact h.sched.move hold ⟨trivial, trivial⟩ rfl rfl rfl
    case consume => exact h.sched.move hold ⟨trivial, trivial⟩ rfl rfl htaken.symm
    all_goals cases hpc
  refine h.worker hgone hinv (fun other hne => Function.update_of_ne hne _ _) (fun _ _ => rfl) rfl
    fun _ => ?_
  simp [move, Scheduler.move, WorkerPc.taken]

theorem CleanInv.step (h : CleanInv cfg s) (hclean : Clean cfg s a)
    (hstep : StoppableScheduler.step cfg s a = some t) : CleanInv cfg t := by
  cases step_cases hstep with
  | works hgone _ hworks =>
      refine h.worker hgone (h.sched.workerStep hclean hworks)
        (fun other hne => Scheduler.workerStep_pc_of_ne hne hworks)
        (fun other hne => Function.update_of_ne hne _ _) rfl fun hhead => ?_
      simp only [Function.update_self] at hhead
      exact taken_of_leaves_body hworks hhead
  | blockThrows _ _ hworks hthrown =>
      exact absurd hthrown (h.sched.chunks.not_thrown hclean hworks)
  | leaves hgone _ hentered hpc => exact h.leave hgone hentered hpc
  | enters hgone =>
      refine h.worker hgone h.sched (fun _ _ => rfl)
        (fun other hne => Function.update_of_ne hne _ _) rfl fun hhead => ?_
      simp at hhead
  | pushFails | popFails => exact absurd hclean id
  | @throws id gate _ hentered hgate =>
      refine ⟨h.sched, h.atHead, fun other hother => ?_⟩
      by_cases heq : other = id
      · subst heq
        have hsound := h.sched.values.sound other
        simp only [Clean] at hclean
        simp only [caught]
        cases hpc : s.sched.pc other <;> rw [hpc] at hclean hsound <;> cases hclean
        · exact ⟨rfl, rfl⟩
        · exact ⟨rfl, Multiset.card_eq_zero.mp hsound.symm⟩
      · exact h.gone other (by simpa [caught, heq] using hother)
  | closes | stops => exact ⟨h.sched, h.atHead, h.gone⟩
  | setsChunkSize chunkSize =>
      exact ⟨h.sched.setProducerChunkSize chunkSize, h.atHead, h.gone⟩

/-- Where no call is in flight, no worker holds a pushed or a popped value. -/
theorem CleanInv.quiet (h : CleanInv cfg s) (hquiet : Quiet s) (id : Fin W) :
    (s.sched.pc id).pushes = 0 ∧ (s.sched.pc id).taken = 0 := by
  obtain hgone | hidle := hquiet id
  · exact h.gone id hgone
  · have hsound := h.sched.values.sound id
    cases hpc : s.sched.pc id <;> rw [hpc] at hidle hsound <;>
      simp only [WorkerPc.Calling, WorkerPc.InChunk, not_true_eq_false, not_not] at hidle
    case consume gate values =>
      subst hidle
      exact ⟨rfl, Multiset.card_eq_zero.mp hsound.symm⟩
    all_goals exact ⟨rfl, rfl⟩

theorem CleanInv.counters (h : CleanInv cfg s) (hquiet : Quiet s) :
    s.sched.stats.producerOutput = s.sched.pushed.card ∧
      s.sched.stats.consumerInputProcessed = s.removed.card := by
  have hpushes := heldBy_eq_zero fun id => (h.quiet hquiet id).1
  have htaken := heldBy_eq_zero fun id => (h.quiet hquiet id).2
  refine ⟨?_, ?_⟩
  · rw [h.sched.values.output, hpushes, Nat.add_zero]
  · rw [removed, htaken, add_zero, h.sched.values.settledCount]

theorem CleanInv.queue_of_done (h : CleanInv cfg s)
    (hdone : s.sched.stats.isAllTaskDone = true) : s.sched.queue = [] :=
  (h.sched.values.nothing_left (h.sched.finished_of_done hdone).2.2).1

theorem CleanInv.done_step (h : CleanInv cfg s) (hdone : s.sched.stats.isAllTaskDone = true)
    (hstep : StoppableScheduler.step cfg s a = some t) :
    t.sched.stats.isAllTaskDone = true := by
  have hstats (sched : Scheduler W T) {b : SchedulerAction W T}
      (hb : Scheduler.step cfg.toSchedulerConfig s.sched b = some sched) :
      sched.stats.isAllTaskDone = true := by
    rw [(h.sched.values.finished_step (h.sched.finished_of_done hdone) hb).1]
    exact hdone
  cases step_cases hstep with
  | @works id action sched _ _ hworks => exact hstats sched (b := .worker id action) hworks
  | @blockThrows id action sched _ _ hworks => exact hstats sched (b := .worker id action) hworks
  | setsChunkSize chunkSize => exact hstats _ (b := .setProducerChunkSize chunkSize) rfl
  | _ => exact hdone

end Clean

theorem cleanInv_of_run {cfg : StoppableConfig} {acts : List (StoppableAction cfg.workers T)}
    {s : StoppableScheduler cfg.workers T} (h : (system cfg T).GoodRun (Clean cfg) acts s) :
    CleanInv cfg s :=
  h.invariant (cleanInv_start cfg false) fun _ _ _ _ hclean hs hstep => hs.step hclean hstep

/-- For any configuration and any run whose claims fit and in which no gate access
returns false and no exception leaves a user function after an access, with the queue
closed, a stop requested and exceptions thrown at any point: where no call is in flight,
`producer_output` is the number of values inserted and `consumer_input_processed`
the number removed; `is_all_task_done()` never holds with a value in the queue,
and keeps holding once it holds. -/
theorem counters_agree_of_clean {cfg : StoppableConfig}
    {acts : List (StoppableAction cfg.workers T)} {s : StoppableScheduler cfg.workers T}
    (h : (system cfg T).GoodRun (Clean cfg) acts s) :
    s.sched.pushed = s.sched.queue + s.removed ∧
    (Quiet s → s.sched.stats.producerOutput = s.sched.pushed.card ∧
      s.sched.stats.consumerInputProcessed = s.removed.card) ∧
    (s.sched.stats.isAllTaskDone = true → s.sched.queue = []) ∧
    (s.sched.stats.isAllTaskDone = true → ∀ a t, Clean cfg s a →
      (system cfg T).step s a = some t → t.sched.stats.isAllTaskDone = true) := by
  have hinv := cleanInv_of_run h
  refine ⟨?_, hinv.counters, hinv.queue_of_done,
    fun hdone a t _ hstep => hinv.done_step hdone hstep⟩
  rw [hinv.sched.values.values, removed, add_assoc]

/-- A worker throws before it accesses its gate, after the tasks are done; the
queue is closed then. -/
theorem counters_agree_of_clean_throw :
    ∃ s t : StoppableScheduler 2 Nat,
      (system ⟨⟨1, true, false, 1, 2, int32⟩, false⟩ Nat).Reachable s ∧
      s.gone 1 = true ∧ s.sched.stats.producerOutput = s.sched.pushed.card ∧
      s.sched.stats.consumerInputProcessed = s.removed.card ∧ s.sched.queue = [] ∧
      (system ⟨⟨1, true, false, 1, 2, int32⟩, false⟩ Nat).step s .close = some t ∧
      t.sched.stats.isAllTaskDone = true := by
  obtain ⟨s, hrun, hs⟩ :=
    ((system ⟨⟨1, true, false, 1, 2, int32⟩, false⟩ Nat).restrict
      (Clean ⟨⟨1, true, false, 1, 2, int32⟩, false⟩)).exists_of_map
      [.checkStop 1, .worker 1 .claim, .worker 1 (.callPush 7), .worker 1 .push,
        .worker 1 .endInput, .worker 1 (.producerUpdate false), .checkStop 0,
        .worker 0 .callPop, .worker 0 (.pop 0), .worker 0 .endCall,
        .worker 0 (.consumerUpdate false), .checkStop 1, .throws 1]
      (b := (.left, true, true))
      (fun s => (s.sched.pc 0, s.gone 1, s.sched.stats.isAllTaskDone)) rfl
  simp only [Prod.mk.injEq] at hs
  obtain ⟨hleft, hgone, hdone⟩ := hs
  have hgood := TransitionSystem.GoodRun.of_restrict hrun
  obtain ⟨_, hcounters, hempty, hstays⟩ := counters_agree_of_clean hgood
  have hquiet : Quiet s := Fin.forall_fin_two.mpr
    ⟨.inr (by simp [hleft, WorkerPc.Calling, WorkerPc.InChunk]), .inl hgone⟩
  exact ⟨s, _, hgood.reaches.reachable, hgone, (hcounters hquiet).1, (hcounters hquiet).2,
    hempty hdone, rfl, hstays hdone .close _ trivial rfl⟩

/-- Two workers and one input, done, with the fixed producer waiting in
`pop_wait`. The queue is closed, its `pop_wait` returns false, and the failed
access is counted: the tasks are not done any more. -/
theorem failed_access_counted :
    ∃ s t : StoppableScheduler 2 Nat, ∃ acts,
      (system ⟨⟨1, true, false, 1, 2, int32⟩, false⟩ Nat).Reachable s ∧
      s.sched.stats.isAllTaskDone = true ∧
      (system ⟨⟨1, true, false, 1, 2, int32⟩, false⟩ Nat).exec s acts = some t ∧ Quiet t ∧
      t.sched.stats.consumerInputProcessed = 2 ∧ t.removed.card = 1 ∧
      t.sched.stats.isAllTaskDone = false := by
  obtain ⟨s, hrun, hs⟩ := (system ⟨⟨1, true, false, 1, 2, int32⟩, false⟩ Nat).exists_of_map
    [.checkStop 1, .worker 1 .claim, .worker 1 (.callPush 7), .worker 1 .push,
      .worker 1 .endInput, .worker 1 (.producerUpdate false), .checkStop 0,
      .worker 0 .callPop, .worker 0 (.pop 0), .worker 0 .endCall,
      .worker 0 (.consumerUpdate false), .checkStop 1, .worker 1 .callPop]
    (b := (true, some (.left, .consume 0 [], 1, 2, false)))
    (fun s => (s.sched.stats.isAllTaskDone,
      ((system ⟨⟨1, true, false, 1, 2, int32⟩, false⟩ Nat).exec s
        [.close, .accessFails 1, .worker 1 .endCall, .worker 1 (.consumerUpdate false)]).map
          fun t => (t.sched.pc 0, t.sched.pc 1, t.sched.settled.card,
            t.sched.stats.consumerInputProcessed, t.sched.stats.isAllTaskDone))) rfl
  simp only [Prod.mk.injEq, Option.map_eq_some_iff] at hs
  obtain ⟨hdone, t, hexec, hleft, hconsume, hsettled, hprocessed, hundone⟩ := hs
  have hquiet : Quiet t := Fin.forall_fin_two.mpr
    ⟨.inr (by simp [hleft, WorkerPc.Calling, WorkerPc.InChunk]),
      .inr (by simp [hconsume, WorkerPc.Calling])⟩
  have hremoved : t.removed.card = 1 := by
    simp [removed, heldBy, hleft, hconsume, WorkerPc.taken, hsettled]
  exact ⟨s, t, _, hrun.reachable, hdone, hexec, hquiet, hprocessed, hremoved, hundone⟩

end StoppableScheduler

end YkUtil.Exec
