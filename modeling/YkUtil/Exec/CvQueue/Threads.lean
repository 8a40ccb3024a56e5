import YkUtil.Exec.CvQueue.Code

/-!
Any number of threads on one `cv_queue`, with the steps of their calls in any
order: a thread starts a call, runs one critical section of it, is woken for no
reason, or has a stop requested on its token. What the calls are, and what a section of
one does, is a parameter.
-/

namespace YkUtil.Exec.CvQueue

open YkUtil.Lib

variable {Tid T Op P R H : Type*}

/-- The queue, the call that each thread is in, whether a stop was requested on its token,
and what the sections did, in the order in which they held the lock. No step reads the
history. -/
structure Threads (Tid T Op H : Type*) where
  queue : CvQueue Tid T
  call : Tid → Option Op
  stopRequested : Tid → Bool
  history : List H

/-- `pick` is what a section leaves open. -/
inductive ThreadAction (Tid Op P : Type*) where
  | invoke (tid : Tid) (op : Op)
  | lock (tid : Tid) (pick : P)
  | wake (tid : Tid)
  | requestStop (tid : Tid)

/-- The condition variable that a call waits on. -/
inductive WaitsOn where
  | notFull
  | notEmpty

/-- The callback of a stop token. -/
def notifyAllOn (q : CvQueue Tid T) : WaitsOn → CvQueue Tid T
  | .notFull => {q with notFull := q.notFull.notifyAll}
  | .notEmpty => {q with notEmpty := q.notEmpty.notifyAll}

/-- Which calls there are and which of them were given a stop token, what a critical
section does, and how it ends. -/
structure Calls (Tid T Op P R H : Type*) where
  available : Op → Bool
  token : Op → Option WaitsOn
  run : CvQueue Tid T → Tid → Bool → P → Op → Option (CvQueue Tid T × R)
  finish : Threads Tid T Op H → Tid → CvQueue Tid T → R → Threads Tid T Op H

/-- Nobody is in a call. -/
def Threads.start (queue : CvQueue Tid T) : Threads Tid T Op H :=
  {queue := queue
   call := fun _ => none
   stopRequested := fun _ => false
   history := []}

/-- `q'` is `q` with fewer threads waiting. -/
structure Woken (q q' : CvQueue Tid T) : Prop where
  buf : q'.buf = q.buf
  capacity : q'.capacity = q.capacity
  closed : q'.closed = q.closed
  notFull : q'.notFull.waiting.Sublist q.notFull.waiting
  notEmpty : q'.notEmpty.waiting.Sublist q.notEmpty.waiting

theorem woken_notifyAllOn (q : CvQueue Tid T) (waitsOn : WaitsOn) :
    Woken q (q.notifyAllOn waitsOn) := by
  cases waitsOn with
  | notFull => exact ⟨rfl, rfl, rfl, List.nil_sublist _, List.Sublist.refl _⟩
  | notEmpty => exact ⟨rfl, rfl, rfl, List.Sublist.refl _, List.nil_sublist _⟩

variable [DecidableEq Tid]

/-- The thread is inside `wait` and has not been notified. -/
def Waiting (q : CvQueue Tid T) (tid : Tid) : Prop :=
  tid ∈ q.notFull.waiting ∨ tid ∈ q.notEmpty.waiting

instance (q : CvQueue Tid T) (tid : Tid) : Decidable (q.Waiting tid) :=
  inferInstanceAs (Decidable (_ ∨ _))

namespace Calls

def step (calls : Calls Tid T Op P R H) (s : Threads Tid T Op H) :
    ThreadAction Tid Op P → Option (Threads Tid T Op H)
  | .invoke tid op =>
      if (s.call tid).isNone ∧ calls.available op then
        some {s with
          call := Function.update s.call tid (some op)
          stopRequested := Function.update s.stopRequested tid false}
      else none
  | .lock tid pick =>
      match s.call tid with
      | none => none
      | some op =>
          if s.queue.Waiting tid then none
          else (calls.run s.queue tid ((calls.token op).isSome && s.stopRequested tid) pick op).map
            fun outcome => calls.finish s tid outcome.1 outcome.2
  | .wake tid =>
      some {s with queue := {s.queue with
        notFull := s.queue.notFull.wake tid
        notEmpty := s.queue.notEmpty.wake tid}}
  | .requestStop tid =>
      ((s.call tid).bind calls.token).map fun waitsOn =>
        {s with
          stopRequested := Function.update s.stopRequested tid true
          queue := s.queue.notifyAllOn waitsOn}

variable {calls : Calls Tid T Op P R H} {s t : Threads Tid T Op H} {a : ThreadAction Tid Op P}
  {tid : Tid}

theorem step_invoke {op : Op} (hidle : s.call tid = none) (havailable : calls.available op) :
    calls.step s (.invoke tid op) = some {s with
      call := Function.update s.call tid (some op)
      stopRequested := Function.update s.stopRequested tid false} := by
  rw [step, if_pos ⟨by rw [hidle]; rfl, havailable⟩]

theorem step_lock {op : Op} {pick : P} (hcall : s.call tid = some op)
    (hruns : ¬ s.queue.Waiting tid) :
    calls.step s (.lock tid pick) =
      (calls.run s.queue tid ((calls.token op).isSome && s.stopRequested tid) pick op).map
        fun outcome => calls.finish s tid outcome.1 outcome.2 := by
  simp only [step, hcall, if_neg hruns]

theorem step_requestStop {op : Op} {waitsOn : WaitsOn} (hcall : s.call tid = some op)
    (htoken : calls.token op = some waitsOn) :
    calls.step s (.requestStop tid) = some {s with
      stopRequested := Function.update s.stopRequested tid true
      queue := s.queue.notifyAllOn waitsOn} := by
  simp only [step, hcall, Option.bind_some, htoken, Option.map_some]

/-- A thread that waits runs no section, and neither does one that is in no call. -/
theorem step_lock_eq_none {pick : P} (h : s.call tid = none ∨ s.queue.Waiting tid) :
    calls.step s (.lock tid pick) = none := by
  simp only [step]
  split
  · rfl
  · rename_i op hcall
    rw [if_pos (h.resolve_left (by simp [hcall]))]

theorem invoke_inv {op : Op} (h : calls.step s (.invoke tid op) = some t) :
    s.call tid = none ∧
      t = {s with
        call := Function.update s.call tid (some op)
        stopRequested := Function.update s.stopRequested tid false} := by
  simp only [step, Option.ite_none_right_eq_some, Option.some.injEq] at h
  obtain ⟨⟨hidle, -⟩, rfl⟩ := h
  exact ⟨by simpa using hidle, rfl⟩

theorem available_of_step {op : Op} (h : calls.step s (.invoke tid op) = some t) :
    calls.available op := by
  simp only [step, Option.ite_none_right_eq_some] at h
  exact h.1.2

theorem lock_inv {pick : P} (h : calls.step s (.lock tid pick) = some t) :
    ∃ op q outcome, s.call tid = some op ∧ ¬ s.queue.Waiting tid ∧
      calls.run s.queue tid ((calls.token op).isSome && s.stopRequested tid) pick op =
        some (q, outcome) ∧
      t = calls.finish s tid q outcome := by
  simp only [step] at h
  split at h
  · cases h
  · rename_i op hcall
    simp only [Option.ite_none_left_eq_some, Option.map_eq_some_iff] at h
    obtain ⟨hrunning, ⟨q, outcome⟩, hrun, rfl⟩ := h
    exact ⟨op, q, outcome, hcall, hrunning, hrun, rfl⟩

theorem requestStop_inv (h : calls.step s (.requestStop tid) = some t) :
    ∃ op waitsOn, s.call tid = some op ∧ calls.token op = some waitsOn ∧
      t = {s with
        stopRequested := Function.update s.stopRequested tid true
        queue := s.queue.notifyAllOn waitsOn} := by
  simp only [step, Option.map_eq_some_iff, Option.bind_eq_some_iff] at h
  obtain ⟨waitsOn, ⟨op, hcall, htoken⟩, rfl⟩ := h
  exact ⟨op, waitsOn, hcall, htoken, rfl⟩

/-- Everything a step can be: the start of a call, a critical section, or a
wakeup without one. -/
theorem step_inv (h : calls.step s a = some t) :
    (∃ tid op, a = .invoke tid op ∧ s.call tid = none ∧ t.queue = s.queue ∧
      t.call = Function.update s.call tid (some op) ∧
      t.stopRequested tid = false ∧ t.history = s.history) ∨
    (∃ tid pick op q outcome, a = .lock tid pick ∧ s.call tid = some op ∧
      ¬ s.queue.Waiting tid ∧
      calls.run s.queue tid ((calls.token op).isSome && s.stopRequested tid) pick op =
        some (q, outcome) ∧
      t = calls.finish s tid q outcome) ∨
    ((∀ tid pick, a ≠ .lock tid pick) ∧ Woken s.queue t.queue ∧ t.call = s.call ∧
      t.history = s.history) := by
  cases a with
  | invoke tid op =>
      obtain ⟨hidle, rfl⟩ := invoke_inv h
      exact .inl ⟨tid, op, rfl, hidle, rfl, rfl, Function.update_self .., rfl⟩
  | lock tid pick =>
      obtain ⟨op, q, outcome, hlock⟩ := lock_inv h
      exact .inr (.inl ⟨tid, pick, op, q, outcome, rfl, hlock⟩)
  | wake tid =>
      cases h
      exact .inr (.inr ⟨by simp,
        ⟨rfl, rfl, rfl, CondVar.wake_sublist _ _, CondVar.wake_sublist _ _⟩, rfl, rfl⟩)
  | requestStop tid =>
      obtain ⟨op, waitsOn, -, -, rfl⟩ := requestStop_inv h
      exact .inr (.inr ⟨by simp, woken_notifyAllOn _ _, rfl, rfl⟩)

end Calls

end YkUtil.Exec.CvQueue
