import YkUtil.Exec.CvQueue.Concurrent

/-!
`cv_queue` is a bounded container that can be closed. The successful
operations, in the order in which they held the lock, are a legal history of
one such container, and the buffer is what that history leaves in it.
-/

namespace YkUtil.Exec.CvQueue

open YkUtil.Lib
open YkUtil.Lib.BoundedContainer

variable {Tid T : Type*} {cfg : CvQueueConfig} {s t : System Tid T}

/-- The container a queue implements. -/
def toContainer (q : CvQueue Tid T) : Container T :=
  {contents := q.buf, capacity := q.capacity, opened := !q.closed}

theorem Woken.toContainer_eq {q q' : CvQueue Tid T} (h : Woken q q') :
    toContainer q' = toContainer q := by
  simp [toContainer, h.buf, h.capacity, h.closed]

/-- The value that a pop takes. -/
def order (cfg : CvQueueConfig) : Order := if cfg.isQueueBasedPushPop then .fifo else .lifo

/-- The container operation that a section was, if it succeeded. -/
def toOp : CvQueueEvent T → Option (BoundedContainer.Op T)
  | .pushed v => some (.push v)
  | .popped v => some (.pop v)
  | .capacitySet n => some (.resize n)
  | .cleared dropped => some (.clear dropped)
  | .closed => some .close
  | .opened => some .reopen
  | .pushFalse | .popFalse | .interrupted | .lengthError _ => none

/-- The successful operations in lock order. -/
def System.operations (s : System Tid T) : List (BoundedContainer.Op T) :=
  s.history.filterMap fun entry => toOp entry.2

theorem doPush_eq (cfg : CvQueueConfig) (buf : List T) (v : T) :
    doPush cfg buf v = buf ++ [v] := by
  unfold doPush
  split <;> rfl

/-- Whatever access strategy the traits choose, it is that of the order. -/
theorem doPop_eq_take (cfg : CvQueueConfig) (buf : List T) :
    doPop cfg buf = take (order cfg) buf := by
  unfold doPop order CvQueueConfig.defaultAccessStrategyIsStack
  cases cfg.isQueueBasedPushPop with
  | false => simp [takeTop, takeBack, take]
  | true => cases buf <;> simp [takeHead, takeFront, take]

@[simp] theorem traitsPush_toContainer (cfg : CvQueueConfig) (q : CvQueue Tid T) (v : T)
    (pick : Nat) : toContainer (traitsPush cfg q v pick) =
      {toContainer q with contents := q.buf ++ [v]} := by
  simp only [traitsPush, doPush_eq]
  split
  · split <;> rfl
  · split <;> rfl

theorem traitsPop_eq_some {q q' : CvQueue Tid T} {v : T} {pick : Nat}
    (h : traitsPop cfg q pick = some (v, q')) :
    ∃ rest, take (order cfg) q.buf = some (v, rest) ∧
      toContainer q' = {toContainer q with contents := rest} := by
  simp only [traitsPop, doPop_eq_take, Option.map_eq_some_iff] at h
  obtain ⟨⟨w, rest⟩, htake, h⟩ := h
  refine ⟨rest, ?_⟩
  simp only at h
  split at h
  · split at h <;> cases h <;> exact ⟨htake, rfl⟩
  · split at h <;> cases h <;> exact ⟨htake, rfl⟩

theorem toOp_of_refused {event : CvQueueEvent T} (h : refused event = true) :
    toOp event = none := by
  cases event <;> first
    | rfl
    | cases h

/-- A section that did something did what its operation does to the container;
one that did nothing left it alone. -/
theorem run_refines {op : Op T} {q q' : CvQueue Tid T} {tid : Tid} {stop : Bool} {pick : Nat}
    {event : Option (CvQueueEvent T)} (h : op.run cfg q tid stop pick = some (q', event)) :
    (event.bind toOp = none ∧ toContainer q' = toContainer q) ∨
      ∃ o, event.bind toOp = some o ∧ Step (order cfg) (toContainer q) o (toContainer q') := by
  cases run_cases h with
  | refused hevent => exact Or.inl ⟨toOp_of_refused hevent, rfl⟩
  | pushWaits | popWaits => exact Or.inl ⟨rfl, rfl⟩
  | pushed v _ hopen hroom =>
      refine Or.inr ⟨_, rfl, ?_⟩
      rw [traitsPush_toContainer]
      exact Step.push v (by simp [toContainer, hopen]) hroom
  | popped _ hopen hpop =>
      obtain ⟨rest, htake, hq⟩ := traitsPop_eq_some hpop
      refine Or.inr ⟨_, rfl, ?_⟩
      rw [hq]
      exact Step.pop _ rest (by simp [toContainer, hopen]) htake
  | resized => exact Or.inr ⟨_, rfl, .resize _ _⟩
  | cleared => exact Or.inr ⟨_, rfl, .clear _⟩
  | closed => exact Or.inr ⟨_, rfl, .close _⟩
  | reopened => exact Or.inr ⟨_, rfl, .reopen _⟩

/-- No section reads a value of an empty buffer. -/
theorem run_isSome (cfg : CvQueueConfig) (q : CvQueue Tid T) (tid : Tid) (stop : Bool)
    (pick : Nat) (op : Op T) : (op.run cfg q tid stop pick).isSome := by
  cases op with
  | popWait token =>
      simp only [Op.run, popWait]
      split
      · rfl
      split
      · rename_i hcond
        split
        · rfl
        · rename_i hopen
          simp only [popWaitCondError, Bool.not_eq_true] at hopen
          have hne : q.buf ≠ [] := by simpa [popWaitCond, hopen] using hcond
          simpa [traitsPop, doPop_eq_take] using take_isSome.mpr hne
      · rfl
  | _ => rfl

theorem operations_of_history (h : t.history = s.history) : t.operations = s.operations := by
  rw [System.operations, h, System.operations]

variable [DecidableEq Tid]

theorem finish_operations (s : System Tid T) (tid : Tid) (q : CvQueue Tid T)
    (event : Option (CvQueueEvent T)) :
    (s.finish tid q event).operations = s.operations ++ (event.bind toOp).toList := by
  cases event with
  | none => simp [System.finish, System.operations]
  | some e =>
      cases hop : toOp e <;> simp [System.finish, System.operations, hop]

theorem finish_queue (s : System Tid T) (tid : Tid) (q : CvQueue Tid T)
    (event : Option (CvQueueEvent T)) : (s.finish tid q event).queue = q := by
  cases event <;> rfl

/-- The container of a queue constructed with `capacity`. -/
def initialContainer (T : Type*) (capacity : Int) : Container T :=
  {contents := [], capacity := capacity, opened := true}

/-- Along every run the history stays legal and leads to the queue. -/
theorem legal_step {capacity : Int} {a : Action Tid T} (hstep : step cfg s a = some t)
    (h : Legal (order cfg) (initialContainer T capacity) s.operations (toContainer s.queue)) :
    Legal (order cfg) (initialContainer T capacity) t.operations (toContainer t.queue) := by
  rcases step_inv hstep with ⟨tid, op, _, _, hq, _, _, hhistory⟩ |
      ⟨tid, pick, op, q, event, _, _, _, hrun, rfl⟩ | ⟨-, hwoken, _, hhistory⟩
  · rw [operations_of_history hhistory, hq]
    exact h
  · rw [finish_operations, finish_queue]
    rcases run_refines hrun with ⟨hnone, hsame⟩ | ⟨o, hsome, ho⟩
    · rw [hnone, hsame]
      simpa using h
    · rw [hsome]
      exact h.snoc ho
  · rw [operations_of_history hhistory, hwoken.toContainer_eq]
    exact h

theorem legal_of_reachable {capacity : Int} (h : (system Tid T cfg capacity).Reachable s) :
    Legal (order cfg) (initialContainer T capacity) s.operations (toContainer s.queue) :=
  (system Tid T cfg capacity).invariant (P := fun s => Legal (order cfg)
    (initialContainer T capacity) s.operations (toContainer s.queue)) (.nil _)
    (fun _ _ _ _ hs hstep => legal_step hstep hs) h

/-- For every buffer, every combination of flags, any number of threads and
any interleaving: the successful operations in lock order are a legal history
of one bounded container whose contents are the buffer. Values are conserved;
a push found the queue open and its size below the capacity; a pop found it
open and took the oldest or the newest value, as the flags say; from a close
until the next open no push and no pop succeeds, and the contents change by
`clear` alone. -/
theorem successful_operations_legal {capacity : Int}
    (h : (system Tid T cfg capacity).Reachable s) :
    Legal (order cfg) (initialContainer T capacity) s.operations (toContainer s.queue) ∧
    (pushedValues s.operations).Perm
      (poppedValues s.operations ++ clearedValues s.operations ++ s.queue.buf) ∧
    (∀ before v after, s.operations = before ++ .push v :: after →
      ∃ m, Legal (order cfg) (initialContainer T capacity) before m ∧ m.opened = true ∧
        (m.contents.length : Int) < m.capacity) ∧
    (∀ before v after, s.operations = before ++ .pop v :: after →
      ∃ m rest, Legal (order cfg) (initialContainer T capacity) before m ∧ m.opened = true ∧
        take (order cfg) m.contents = some (v, rest)) ∧
    (∀ before during after, s.operations = before ++ .close :: (during ++ after) →
      .reopen ∉ during → pushedValues during = [] ∧ poppedValues during = [] ∧
        ∃ m n, Legal (order cfg) (initialContainer T capacity) (before ++ [.close]) m ∧
          Legal (order cfg) m during n ∧
          ((∀ dropped, .clear dropped ∉ during) → n.contents = m.contents)) := by
  have hlegal := legal_of_reachable h
  refine ⟨hlegal, hlegal.conserves, ?_, ?_, ?_⟩
  · intro before v after hops
    rw [hops] at hlegal
    obtain ⟨m, _, hbefore, hstep, _⟩ := hlegal.at
    cases hstep with
    | push _ hopen hroom => exact ⟨m, hbefore, hopen, hroom⟩
  · intro before v after hops
    rw [hops] at hlegal
    obtain ⟨m, _, hbefore, hstep, _⟩ := hlegal.at
    cases hstep with
    | pop _ rest hopen htake => exact ⟨m, rest, hbefore, hopen, htake⟩
  · intro before during after hops hno
    rw [hops] at hlegal
    obtain ⟨m, closed, hbefore, hstep, hrest⟩ := hlegal.at
    obtain ⟨n, hduring, _⟩ := hrest.split
    have hclosed : closed.opened = false := by
      cases hstep
      rfl
    obtain ⟨hpushed, hpopped⟩ := hduring.closed_quiet hclosed hno
    exact ⟨hpushed, hpopped, closed, n, hbefore.snoc hstep, hduring,
      hduring.closed_contents hclosed hno⟩

/-- Two threads on a `mpmc` deque of capacity one with `queue_based_push_pop`:
the second push waits for the pop, and closing lets the last pop fail. -/
theorem successful_operations_legal_mpmc_deque :
    ∃ s, (system (Fin 3) Nat ⟨{CvQueueFlags.mpmc with queueBasedPushPop := true}, .deque, 100⟩
        1).Reaches
      [.invoke 0 (.pushWait false 1), .lock 0 0, .invoke 0 (.pushWait false 2), .lock 0 0,
        .invoke 1 (.popWait false), .lock 1 0, .lock 0 0, .invoke 2 .close, .lock 2 0,
        .invoke 1 (.popWait false), .lock 1 0] s ∧
      s.operations = [.push 1, .pop 1, .push 2, .close] ∧ s.queue.buf = [2] ∧
      (pushedValues s.operations).Perm
        (poppedValues s.operations ++ clearedValues s.operations ++ s.queue.buf) := by
  obtain ⟨s, hrun, hseen⟩ := (system (Fin 3) Nat
      ⟨{CvQueueFlags.mpmc with queueBasedPushPop := true}, .deque, 100⟩ 1).exists_of_map
    [.invoke 0 (.pushWait false 1), .lock 0 0, .invoke 0 (.pushWait false 2), .lock 0 0,
      .invoke 1 (.popWait false), .lock 1 0, .lock 0 0, .invoke 2 .close, .lock 2 0,
      .invoke 1 (.popWait false), .lock 1 0]
    (fun s => (s.operations, s.queue.buf)) rfl
  rw [Prod.mk.injEq] at hseen
  exact ⟨s, hrun, hseen.1, hseen.2, (successful_operations_legal hrun.reachable).2.1⟩

end YkUtil.Exec.CvQueue
