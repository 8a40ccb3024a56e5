import YkUtil.Lib.TransitionSystem
import YkUtil.Exec.CvQueue.Threads

/-!
The calls of a `cv_queue` whose buffer has all the room that it is asked for. `history`
lists what the sections did.
-/

namespace YkUtil.Exec.CvQueue

open YkUtil.Lib

variable {Tid T : Type*}

/-- A call. `token` says that `push_wait` or `pop_wait` was given a stop token. -/
inductive Op (T : Type*) where
  | pushWait (token : Bool) (v : T)
  | popWait (token : Bool)
  | setCapacity (capacity : Int)
  | setCapacityAndReserve (capacity : Int)
  | clear
  | close
  | reopen

abbrev System (Tid T : Type*) := Threads Tid T (Op T) (Tid × CvQueueEvent T)

abbrev Action (Tid T : Type*) := ThreadAction Tid (Op T) Nat

/-- The overloads that an instantiation has. -/
def Op.available (cfg : CvQueueConfig) : Op T → Bool
  | .pushWait token _ | .popWait token => !token || cfg.enableStopTokenSupport
  | .setCapacityAndReserve _ => cfg.traits.hasReserve
  | _ => true

/-- The condition variable that a call with a stop token waits on. -/
def Op.token : Op T → Option WaitsOn
  | .pushWait true _ => some .notFull
  | .popWait true => some .notEmpty
  | _ => none

def Op.hasToken (op : Op T) : Bool := op.token.isSome

@[simp] theorem Op.hasToken_pushWait (token : Bool) (v : T) :
    (Op.pushWait token v).hasToken = token := by
  cases token <;> rfl

@[simp] theorem Op.hasToken_popWait (token : Bool) :
    (Op.popWait token : Op T).hasToken = token := by
  cases token <;> rfl

/-- One critical section of a call. -/
def Op.run (cfg : CvQueueConfig) (q : CvQueue Tid T) (tid : Tid) (stop : Bool) (pick : Nat) :
    Op T → Option (CvQueue Tid T × Option (CvQueueEvent T))
  | .pushWait _ v => some (q.pushWait cfg tid v stop pick)
  | .popWait _ => q.popWait cfg tid stop pick
  | .setCapacity n | .setCapacityAndReserve n =>
      some ((q.setCapacity cfg n).1, some (q.setCapacity cfg n).2)
  | .clear => some (q.clear, some (.cleared q.buf))
  | .close => some (q.close, some .closed)
  | .reopen => some (q.reopen, some .opened)

/-- The events of a section that leaves the queue as it is. -/
def refused : CvQueueEvent T → Bool
  | .pushFalse | .popFalse | .interrupted | .lengthError _ => true
  | _ => false

/-- Everything a critical section can be, with what it found. -/
inductive CriticalSection (cfg : CvQueueConfig) (q : CvQueue Tid T) (tid : Tid) (stop : Bool)
    (pick : Nat) : Op T → CvQueue Tid T → Option (CvQueueEvent T) → Prop where
  | refused {op : Op T} {event : CvQueueEvent T} (hevent : refused event = true) :
      CriticalSection cfg q tid stop pick op q (some event)
  | pushed {token : Bool} (v : T) (hstop : stop = false) (hopen : q.closed = false)
      (hroom : (q.buf.length : Int) < q.capacity) :
      CriticalSection cfg q tid stop pick (.pushWait token v) (traitsPush cfg q v pick)
        (some (.pushed v))
  | pushWaits {token : Bool} {v : T} (hstop : stop = false) (hopen : q.closed = false)
      (hfull : q.capacity ≤ (q.buf.length : Int)) :
      CriticalSection cfg q tid stop pick (.pushWait token v)
        {q with notFull := q.notFull.wait tid} none
  | popped {token : Bool} {v : T} {q' : CvQueue Tid T} (hstop : stop = false)
      (hopen : q.closed = false) (hpop : traitsPop cfg q pick = some (v, q')) :
      CriticalSection cfg q tid stop pick (.popWait token) q' (some (.popped v))
  | popWaits {token : Bool} (hstop : stop = false) (hopen : q.closed = false)
      (hempty : q.buf = []) :
      CriticalSection cfg q tid stop pick (.popWait token)
        {q with notEmpty := q.notEmpty.wait tid} none
  | resized {op : Op T} {n : Int} (hop : op = .setCapacity n ∨ op = .setCapacityAndReserve n) :
      CriticalSection cfg q tid stop pick op {q with capacity := n} (some (.capacitySet n))
  | cleared : CriticalSection cfg q tid stop pick .clear q.clear (some (.cleared q.buf))
  | closed : CriticalSection cfg q tid stop pick .close q.close (some .closed)
  | reopened : CriticalSection cfg q tid stop pick .reopen q.reopen (some .opened)

theorem setCapacity_cases {cfg : CvQueueConfig} {q q' : CvQueue Tid T} {tid : Tid} {stop : Bool}
    {pick : Nat} {op : Op T} {n : Int} {event : CvQueueEvent T}
    (h : q.setCapacity cfg n = (q', event))
    (hop : op = .setCapacity n ∨ op = .setCapacityAndReserve n) :
    CriticalSection cfg q tid stop pick op q' (some event) := by
  unfold setCapacity at h
  split at h
  · cases h
    exact .refused rfl
  split at h <;> cases h
  · exact .refused rfl
  · exact .resized hop

theorem run_cases {cfg : CvQueueConfig} {q q' : CvQueue Tid T} {tid : Tid} {stop : Bool}
    {pick : Nat} {op : Op T} {event : Option (CvQueueEvent T)}
    (h : op.run cfg q tid stop pick = some (q', event)) :
    CriticalSection cfg q tid stop pick op q' event := by
  cases op with
  | pushWait token v =>
      simp only [Op.run, pushWait, Option.some.injEq] at h
      split at h
      · cases h
        exact .refused rfl
      rename_i hstop
      simp only [Bool.not_eq_true] at hstop
      split at h
      · rename_i hcond
        split at h <;> rename_i hopen <;> cases h
        · exact .refused rfl
        · simp only [pushWaitCondError, Bool.not_eq_true] at hopen
          exact .pushed v hstop hopen (by simpa [pushWaitCond, hopen] using hcond)
      · rename_i hcond
        cases h
        simp only [pushWaitCond, Bool.or_eq_true, decide_eq_true_eq, not_or, Int.not_lt,
          Bool.not_eq_true] at hcond
        exact .pushWaits hstop hcond.2 hcond.1
  | popWait token =>
      simp only [Op.run, popWait] at h
      split at h
      · cases h
        exact .refused rfl
      rename_i hstop
      simp only [Bool.not_eq_true] at hstop
      split at h
      · split at h <;> rename_i hopen
        · cases h
          exact .refused rfl
        · simp only [popWaitCondError, Bool.not_eq_true] at hopen
          obtain ⟨⟨v, q''⟩, hpop, h⟩ := Option.map_eq_some_iff.mp h
          cases h
          exact .popped hstop hopen hpop
      · rename_i hcond
        cases h
        simp only [popWaitCond, Bool.or_eq_true, Bool.not_eq_eq_eq_not, Bool.not_true, not_or,
          Bool.not_eq_false, List.isEmpty_iff, Bool.not_eq_true] at hcond
        exact .popWaits hstop hcond.2 hcond.1
  | setCapacity n =>
      simp only [Op.run, Option.some.injEq, Prod.mk.injEq] at h
      obtain ⟨rfl, rfl⟩ := h
      exact setCapacity_cases rfl (Or.inl rfl)
  | setCapacityAndReserve n =>
      simp only [Op.run, Option.some.injEq, Prod.mk.injEq] at h
      obtain ⟨rfl, rfl⟩ := h
      exact setCapacity_cases rfl (Or.inr rfl)
  | clear =>
      cases h
      exact .cleared
  | close =>
      cases h
      exact .closed
  | reopen =>
      cases h
      exact .reopened

def start (capacity : Int) : System Tid T := .start (ofCapacity capacity)

variable [DecidableEq Tid]

/-- A section of `tid` ends: with an event the call has returned or thrown. -/
def System.finish (s : System Tid T) (tid : Tid) (q : CvQueue Tid T) :
    Option (CvQueueEvent T) → System Tid T
  | none => {s with queue := q}
  | some event =>
      {s with
        queue := q
        call := Function.update s.call tid none
        history := s.history ++ [(tid, event)]}

def calls (Tid T : Type*) [DecidableEq Tid] (cfg : CvQueueConfig) :
    Calls Tid T (Op T) Nat (Option (CvQueueEvent T)) (Tid × CvQueueEvent T) where
  available := Op.available cfg
  token := Op.token
  run := Op.run cfg
  finish := System.finish

def step (cfg : CvQueueConfig) : System Tid T → Action Tid T → Option (System Tid T) :=
  (calls Tid T cfg).step

/-- The interleavings of a queue constructed with `capacity`. -/
def system (Tid T : Type*) [DecidableEq Tid] (cfg : CvQueueConfig) (capacity : Int) :
    TransitionSystem (System Tid T) (Action Tid T) :=
  {init := start capacity, step := step cfg}

variable {cfg : CvQueueConfig} {s t : System Tid T} {a : Action Tid T}

theorem step_lock {tid : Tid} {op : Op T} {pick : Nat} (hcall : s.call tid = some op)
    (hruns : ¬ s.queue.Waiting tid) :
    step cfg s (.lock tid pick) =
      (op.run cfg s.queue tid (op.hasToken && s.stopRequested tid) pick).map
        fun outcome => s.finish tid outcome.1 outcome.2 :=
  Calls.step_lock hcall hruns

theorem lock_inv {tid : Tid} {pick : Nat} (h : step cfg s (.lock tid pick) = some t) :
    ∃ op q event, s.call tid = some op ∧ ¬ s.queue.Waiting tid ∧
      op.run cfg s.queue tid (op.hasToken && s.stopRequested tid) pick = some (q, event) ∧
      t = s.finish tid q event :=
  Calls.lock_inv h

theorem step_inv (h : step cfg s a = some t) :
    (∃ tid op, a = .invoke tid op ∧ s.call tid = none ∧ t.queue = s.queue ∧
      t.call = Function.update s.call tid (some op) ∧
      t.stopRequested tid = false ∧ t.history = s.history) ∨
    (∃ tid pick op q event, a = .lock tid pick ∧ s.call tid = some op ∧
      ¬ s.queue.Waiting tid ∧
      op.run cfg s.queue tid (op.hasToken && s.stopRequested tid) pick = some (q, event) ∧
      t = s.finish tid q event) ∨
    ((∀ tid pick, a ≠ .lock tid pick) ∧ Woken s.queue t.queue ∧ t.call = s.call ∧
      t.history = s.history) :=
  Calls.step_inv h

end YkUtil.Exec.CvQueue
