import YkUtil.Exec.AtomicQueue.Stored
import YkUtil.Exec.Scheduler.OnQueueProgress

/-!
The scheduler on an `atomic_queue`. A call tries until an attempt has won a ticket. What the
job has in its queue are then the tickets whose push has returned and whose pop has not, and
an access takes place when the call stores the turn of its slot.
-/

namespace YkUtil.Exec.OnQueue

open YkUtil.Lib AtomicQueue

universe u

section Serves

variable {W : Nat} {T : Type u} {c : Nat} [NeZero c] {moved : T → T} {blank : T}
  {s t : CancelSystem (Fin W) Unit T T c} {calls : Fin W → Option (QueueCall T)}
  {stored : List T} {id : Fin W}

/-- The value is moved into the slot, which leaves `moved` of it. -/
def forwarding (moved : T → T) : Forwarding T T := {build := fun v => v, consume := moved}

/-- `queue_traits` of an `atomic_queue`. All gates of a scheduler have the token of its one
stop source; a pop starts with some value in its variable. -/
def atomicQueueCall (blank : T) (id : Fin W) : QueueCall T → CancelAction (Fin W) Unit T T
  | .cancelableBoundedPush v => .push id () v
  | .cancelablePop => .pop id () blank

/-- A variable that is `none` has been read from dead bytes. -/
def atomicQueueReturned (r : Finished (Fin W) Unit T T) : Option (Returned T) :=
  if r.ok then
    match r.caller.operand with
    | .args _ _ => some .pushed
    | .value now _ => now.map .popped
  else none

def atomicQueueInternal : CancelAction (Fin W) Unit T T → Bool
  | .condition _ | .attempt _ => true
  | _ => false

def atomicQueueTraits (moved : T → T) (blank : T) (W c : Nat) [NeZero c] :
    QueueTraits W T (CancelSystem (Fin W) Unit T T c) (CancelAction (Fin W) Unit T T) where
  system := cancelSystem (forwarding moved) (Fin W) Unit c
  call := atomicQueueCall blank
  internal := atomicQueueInternal
  results s := s.finished.map fun r => (r.tid, atomicQueueReturned r)

def queueCall : Operand T T → QueueCall T
  | .args _ original => .cancelableBoundedPush original
  | .value _ _ => .cancelablePop

theorem queueCall_after (fwd : Forwarding T T) (q : AtomicQueue T c) (pc : Pc T)
    (operand : Operand T T) : queueCall (operand.after fwd q pc) = queueCall operand := by
  cases operand <;> cases pc <;> rfl

/-- A queue that only the workers use, and that nobody has closed. -/
structure AtomicQueueServing (moved : T → T) (s : CancelSystem (Fin W) Unit T T c)
    (calls : Fin W → Option (QueueCall T)) (stored : List T) : Prop where
  cancel : CancelInv (forwarding moved) s
  running : ∀ token, s.stopped token = false
  calls : ∀ id, (s.caller id).map (fun caller => queueCall caller.operand) = calls id
  outside : ∀ id, s.caller id = none → s.base.pc id = .idle
  stored : Stored s.base stored

/-- The event that a call has returned with is the last of its events, and the one before
has been recorded. -/
theorem event_of_won {fwd : Forwarding T T} {caller : Caller Unit T T} {q : AtomicQueue T c}
    {pc : Pc T} {e f : Event T} (hwon : (caller.after fwd q pc).Won [e, f])
    (hreturned : Event.returned (advance .unbounded q pc).2.2 = some true) :
    (advance .unbounded q pc).2.2 = some f ∧ e ∈ caller.events := by
  obtain ⟨fails, hevents, -⟩ := hwon
  cases hevent : (advance .unbounded q pc).2.2 with
  | none =>
      rw [hevent] at hreturned
      cases hreturned
  | some g =>
      have hlast : caller.events ++ [g] = (fails ++ [e]) ++ [f] := by
        simpa [Caller.after, hevent] using hevents
      obtain ⟨hbefore, hg⟩ := List.append_inj' hlast rfl
      rw [List.singleton_inj.mp hg, hbefore]
      exact ⟨rfl, List.mem_append_right _ (List.mem_singleton_self e)⟩

theorem AtomicQueueServing.invoke (h : AtomicQueueServing moved s calls stored)
    (call : QueueCall T) (hidle : calls id = none) :
    ∃ t, cancelStep (forwarding moved) s (atomicQueueCall blank id call) = some t ∧
      AtomicQueueServing moved t (Function.update calls id (some call)) stored := by
  have hnone : s.caller id = none := by
    rw [← Option.map_eq_none_iff, h.calls id, hidle]
  have henter (operand : Operand T T) (hunused : operand.Unused)
      (hcall : queueCall operand = call) :
      AtomicQueueServing moved (s.enter id () operand) (Function.update calls id (some call))
        stored := by
    refine ⟨h.cancel.enter () (h.outside id hnone) hunused, h.running, fun other => ?_,
      fun other hother => ?_, h.stored⟩
    · by_cases heq : other = id
      · subst heq
        simp [CancelSystem.enter, hcall]
      · simp [CancelSystem.enter, heq, h.calls other]
    · by_cases heq : other = id
      · subst heq
        simp [CancelSystem.enter] at hother
      · exact h.outside other (by simpa [CancelSystem.enter, heq] using hother)
  cases call with
  | cancelableBoundedPush v =>
      refine ⟨_, ?_, henter (.args v v) rfl rfl⟩
      simp [atomicQueueCall, cancelStep, hnone, h.outside id hnone]
  | cancelablePop =>
      refine ⟨_, ?_, henter (.value (some blank) (some blank)) rfl rfl⟩
      simp [atomicQueueCall, cancelStep, hnone, h.outside id hnone]

/-- A call that returns is over. -/
theorem AtomicQueueServing.returns (h : AtomicQueueServing moved s calls stored)
    {q : AtomicQueue T c} {pc : Pc T} {event : Option (Event T)}
    {r : List (Finished (Fin W) Unit T T)} {stored' : List T}
    (hcancel : CancelInv (forwarding moved)
      {s with
        base := s.base.set id q pc event
        caller := Function.update s.caller id none
        finished := r}) (hidle : pc = .idle)
    (hstored : Stored (s.base.set id q pc event) stored') :
    AtomicQueueServing moved
      {s with
        base := s.base.set id q pc event
        caller := Function.update s.caller id none
        finished := r} (Function.update calls id none) stored' := by
  refine ⟨hcancel, h.running, fun other => ?_, fun other hother => ?_, hstored⟩
  · by_cases heq : other = id
    · subst heq
      simp
    · simp [heq, h.calls other]
  · by_cases heq : other = id
    · subst heq
      exact (set_pc_self _ _ _ _ _).trans hidle
    · simp only [Function.update_of_ne heq] at hother
      exact (set_pc_other _ _ _ _ _ heq).trans (h.outside other hother)

/-- A call whose thread runs alone is an answer. -/
theorem answer_of_alone {n : Nat} (h : ReturnsAlone (forwarding moved) id n s) :
    ∃ acts q', (∀ a ∈ acts, (atomicQueueTraits moved blank W c).internal a = true) ∧
      (atomicQueueTraits moved blank W c).system.exec s acts = some q' ∧
      (atomicQueueTraits moved blank W c).results q' ≠
        (atomicQueueTraits moved blank W c).results s := by
  obtain ⟨acts, t, r, -, hacts, hexec, hfinished, -⟩ := h
  refine ⟨acts, t, fun a ha => ?_, hexec, fun hsame => ?_⟩
  · rcases hacts a ha with rfl | rfl <;> rfl
  · have hlength := congrArg List.length hsame
    simp [atomicQueueTraits, hfinished] at hlength

/-- Whoever holds a ticket can return; when nobody does, a call that can be answered runs
alone. -/
theorem atomicQueue_answers (moved : T → T) (blank : T) (W c : Nat) [NeZero c] :
    Answers (atomicQueueTraits moved blank W c) c (AtomicQueueServing moved) := by
  intro s calls stored h henabled
  have hcaller {id : Fin W} {call : QueueCall T} (hcall : calls id = some call) :
      ∃ caller, s.caller id = some caller ∧ queueCall caller.operand = call :=
    Option.map_eq_some_iff.mp ((h.calls id).trans hcall)
  by_cases hquiet : Quiet s.base
  · have hhead := h.stored.length_of_quiet (reachable_inv h.cancel.base)
      (reachable_recorded h.cancel.base) hquiet
    rcases henabled with ⟨id, v, hcall, hroom⟩ | ⟨id, hcall, hne⟩
    · obtain ⟨caller, hc, hoperand⟩ := hcaller hcall
      refine answer_of_alone (h.cancel.ready_returns hc (h.running _) hquiet ?_)
      cases hcase : caller.operand with
      | args =>
          change s.base.queue.head < s.base.queue.tail + c
          omega
      | value =>
          rw [hcase] at hoperand
          cases hoperand
    · obtain ⟨caller, hc, hoperand⟩ := hcaller hcall
      refine answer_of_alone (h.cancel.ready_returns hc (h.running _) hquiet ?_)
      have hpos := List.length_pos_iff.mpr hne
      cases hcase : caller.operand with
      | args =>
          rw [hcase] at hoperand
          cases hoperand
      | value =>
          change s.base.queue.tail < s.base.queue.head
          omega
  · simp only [Quiet, not_forall] at hquiet
    obtain ⟨id, hholds⟩ := hquiet
    cases hc : s.caller id with
    | none =>
        rw [h.outside id hc] at hholds
        exact absurd ⟨rfl, rfl⟩ hholds
    | some caller =>
        exact answer_of_alone (h.cancel.holder_returns hc (h.running _) (not_and_or.mp hholds))

variable [DecidableEq T]

theorem AtomicQueueServing.condition (h : AtomicQueueServing moved s calls stored)
    (hstep : cancelStep (forwarding moved) s (.condition id) = some t) :
    Answer (atomicQueueTraits moved blank W c) c (AtomicQueueServing moved) s calls stored t := by
  have hcancel := cancelInv_step h.cancel hstep
  simp only [cancelStep] at hstep
  split at hstep
  · rename_i caller hcaller hidle
    rw [if_neg (by simp [h.running])] at hstep
    obtain ⟨base, hbase, rfl⟩ := Option.map_eq_some_iff.mp hstep
    rcases step_inv hbase with ⟨tid', call', hact, -, rfl⟩ | ⟨tid', hact, -⟩ <;> cases hact
    refine .nothing rfl ⟨hcancel, h.running, h.calls, fun other hother => ?_, ?_⟩
    · have hne : other ≠ id := by
        rintro rfl
        cases hcaller.symm.trans hother
      exact (set_pc_other _ _ _ _ _ hne).trans (h.outside other hother)
    · exact h.stored.quiet (by simp [Event.returned])
  · cases hstep

theorem AtomicQueueServing.attempt (h : AtomicQueueServing moved s calls stored)
    (hstep : cancelStep (forwarding moved) s (.attempt id) = some t) :
    Answer (atomicQueueTraits moved blank W c) c (AtomicQueueServing moved) s calls stored t := by
  have hcancel := cancelInv_step h.cancel hstep
  simp only [cancelStep] at hstep
  split at hstep
  · cases hstep
  · rename_i caller hcaller
    obtain ⟨base, hbase, rfl⟩ := Option.map_eq_some_iff.mp hstep
    obtain ⟨hbusy, rfl⟩ := after_tick hbase
    have hlocal := (reachable_inv h.cancel.base).atPc id
    have hrec := reachable_recorded h.cancel.base
    have hrecorded := recorded_after h.cancel hcaller
    have hcall : calls id =
        some (queueCall (caller.after (forwarding moved) s.base.queue (s.base.pc id)).operand) := by
      rw [Caller.after_operand, queueCall_after, ← h.calls id, hcaller, Option.map_some]
    have heffect := advance_effect s.base.queue (s.base.pc id)
    rcases (h.cancel.holding id caller hcaller).attempt (q := s.base.queue) hbusy with
      ⟨hreturned, -⟩ | ⟨hreturned, hsucceeded⟩
    · rw [CancelSystem.proceed, if_neg hreturned] at hcancel ⊢
      refine .nothing rfl ⟨hcancel, h.running, fun other => ?_, fun other hother => ?_,
        h.stored.quiet hreturned⟩
      · by_cases heq : other = id
        · subst heq
          simp [hcall]
        · simp [heq, h.calls other]
      · by_cases heq : other = id
        · subst heq
          simp at hother
        · simp only [Function.update_of_ne heq] at hother
          exact (set_pc_other _ _ _ _ _ heq).trans (h.outside other hother)
    · rw [CancelSystem.proceed, if_pos hreturned] at hcancel ⊢
      cases hsucceeded with
      | @push k now original hoperand hwon =>
          obtain ⟨hevent, hticket⟩ := event_of_won hwon hreturned
          simp only [Effect, hevent] at heffect
          obtain ⟨⟨mode, hpc⟩, hidle, -⟩ := heffect
          rw [hpc] at hlocal
          have hnew : ¬ s.base.Pushed k := by
            rw [hrec.pushed, hlocal.2.1]
            omega
          have hkept : ¬ s.base.Popped k := by
            rw [hrec.popped, hlocal.2.1]
            omega
          have hstored : Stored (s.base.apply id (advance .unbounded s.base.queue (s.base.pc id)))
              (stored ++ [original]) := by
            rw [System.apply, hevent]
            exact h.stored.pushed hnew hkept ⟨id, h.cancel.recorded id caller hcaller _ hticket⟩
          have hlength := hstored.length_le (reachable_recorded hcancel.base)
          rw [List.length_append, List.length_singleton] at hlength
          rw [hoperand] at hcall
          refine .pushed hcall hlength ?_ (h.returns hcancel hidle hstored)
          simp [atomicQueueTraits, CancelSystem.finish, atomicQueueReturned, hoperand]
      | @pop k now original hoperand hwon =>
          obtain ⟨hevent, hticket⟩ := event_of_won hwon hreturned
          simp only [Effect, hevent] at heffect
          obtain ⟨⟨mode, hpc⟩, hidle, -⟩ := heffect
          rw [hpc] at hlocal
          obtain ⟨-, hturn, -, v, hv, rfl⟩ := hlocal
          have hpushed : s.base.Pushed k := by
            rw [hrec.pushed, hturn]
          have hkept : ¬ s.base.Popped k := by
            rw [hrec.popped, hturn]
            omega
          have hstored : v ∈ stored ∧
              Stored (s.base.apply id (advance .unbounded s.base.queue (s.base.pc id)))
                (stored.erase v) := by
            rw [System.apply, hevent]
            exact h.stored.popped hrec hpushed hkept hv
          rw [hoperand] at hcall
          refine .popped hcall hstored.1 ?_ (h.returns hcancel hidle hstored.2)
          simp [atomicQueueTraits, CancelSystem.finish, atomicQueueReturned, hoperand]

theorem atomicQueue_serves (moved : T → T) (blank : T) (W c : Nat) [NeZero c] :
    Serves (atomicQueueTraits moved blank W c) c (AtomicQueueServing moved) where
  start :=
    ⟨cancelInv_reachable (TransitionSystem.reachable_init _), fun _ => rfl, fun _ => rfl,
      fun _ _ => rfl, stored_start⟩
  call call h hidle := h.invoke call hidle
  answer := by
    intro q calls stored action q' h hinternal hstep
    cases action with
    | condition id => exact h.condition hstep
    | attempt id => exact h.attempt hstep
    | plain | push | pop | requestStop => cases hinternal

end Serves

section Delivery

variable {T : Type u} [DecidableEq T] {cfg : SchedulerConfig} [NeZero cfg.capacity]
  {moved : T → T} {blank : T} {produce : Nat → List T}
  {s : OnQueue cfg.workers T (CancelSystem (Fin cfg.workers) Unit T T cfg.capacity)}
  {acts : List (OnQueueAction cfg.workers T (CancelAction (Fin cfg.workers) Unit T T))}

def atomicQueueSystem (moved : T → T) (blank : T) (cfg : SchedulerConfig) [NeZero cfg.capacity]
    (produce : Nat → List T) :
    TransitionSystem
      (OnQueue cfg.workers T (CancelSystem (Fin cfg.workers) Unit T T cfg.capacity))
      (OnQueueAction cfg.workers T (CancelAction (Fin cfg.workers) Unit T T)) :=
  system cfg (atomicQueueTraits moved blank cfg.workers cfg.capacity) produce

/-- For every capacity, at least two workers and an input to claim: after any interleaving
whose claims fit, with any of the calls at any of their steps, the workers can still get the
tasks done, all values settled and the queue empty, if the chunk size that is set fits and
a `long long` can count the inputs. The counters of the queue do not wrap. -/
theorem delivers_on_atomic_queue (hworkers : 2 ≤ cfg.workers) (hinputs : cfg.first < cfg.inputs)
    (hmax : cfg.inputs ≤ longLong.max)
    (h : (atomicQueueSystem moved blank cfg produce).GoodRun (Fits cfg) acts s)
    (hsize : s.job.run.chunkSize ≤ cfg.difference.max) :
    ∃ more t, (atomicQueueSystem moved blank cfg produce).exec s more = some t ∧
      t.job.run.stats.isAllTaskDone = true ∧ t.job.run.settled = Job.total cfg produce ∧
      Stored t.queue.base [] := by
  have hserves := atomicQueue_serves moved blank cfg.workers cfg.capacity
  have hanswers := atomicQueue_answers moved blank cfg.workers cfg.capacity
  obtain ⟨more, t, hmore, hdone, hsettled, hqueue⟩ :=
    finishes hserves hanswers hworkers (NeZero.one_le) hinputs hmax h hsize
  refine ⟨more, t, hmore, hdone, hsettled, ?_⟩
  have hall : (atomicQueueSystem moved blank cfg produce).Reaches (acts ++ more) t := by
    rw [TransitionSystem.Reaches, TransitionSystem.exec_append, h.reaches]
    exact hmore
  rw [← hqueue]
  exact ((simulates_job hserves produce).invariant hall.reachable).stored

/-- The second input has a value, for which the fixed consumer waits. It is in the slot, and
its push has not returned. -/
theorem delivers_on_atomic_queue_value_on_its_way :
    ∃ acts s, (atomicQueueSystem (fun _ => 0) 3 ⟨2, true, false, 1, 2, int32⟩
        fun i => List.replicate i 7).Reaches acts s ∧
      acts.countP OnQueueAction.isWorker = 6 ∧ s.job.run.queue = [] ∧
      ∃ more t, (atomicQueueSystem (fun _ => 0) 3 ⟨2, true, false, 1, 2, int32⟩
        fun i => List.replicate i 7).exec s more = some t ∧
        t.job.run.stats.isAllTaskDone = true ∧ t.job.run.settled = {7} := by
  obtain ⟨s, hrun, hs⟩ := ((atomicQueueSystem (fun _ => 0) 3 ⟨2, true, false, 1, 2, int32⟩
      fun i => List.replicate i 7).restrict (Fits ⟨2, true, false, 1, 2, int32⟩)).exists_of_map
    [.worker 0 .callPop, .queue (.condition 0), .queue (.attempt 0), .worker 1 .claim,
      .worker 1 .endInput, .worker 1 (.producerUpdate false), .worker 1 .claim,
      .worker 1 (.callPush 7), .queue (.condition 1), .queue (.attempt 1), .queue (.attempt 1),
      .queue (.attempt 0), .queue (.attempt 1), .queue (.attempt 1)]
    (b := ([], 1)) (fun s => (s.job.run.queue, s.job.run.chunkSize)) (by decide +kernel)
  simp only [Prod.mk.injEq] at hs
  obtain ⟨hqueue, hsize⟩ := hs
  have hgood := TransitionSystem.GoodRun.of_restrict hrun
  obtain ⟨more, t, hmore, hdone, hsettled, -⟩ :=
    delivers_on_atomic_queue (Nat.le_refl 2) (by decide) (by decide) hgood
      (by rw [hsize]; decide)
  exact ⟨_, s, hgood.reaches, rfl, hqueue, more, t, hmore, hdone, hsettled.trans rfl⟩

end Delivery

end YkUtil.Exec.OnQueue
