import Mathlib.Data.List.Nodup

/-!
Condition variables. The state of one is the list of the threads that wait on
it and have not been notified. A notified thread is no longer in the list: it
will take the lock again, sooner or later, and test its condition anew.
-/

namespace YkUtil.Lib

structure CondVar (Tid : Type*) where
  waiting : List Tid

namespace CondVar

variable {Tid : Type*}

def empty : CondVar Tid := {waiting := []}

def wait (cv : CondVar Tid) (tid : Tid) : CondVar Tid := {waiting := tid :: cv.waiting}

/-- `notify_one` may pick any of the waiting threads; `pick` says which. -/
def notifyOne (cv : CondVar Tid) (pick : Nat) : CondVar Tid :=
  {waiting := cv.waiting.eraseIdx (pick % cv.waiting.length)}

def notifyAll (_ : CondVar Tid) : CondVar Tid := empty

/-- A spurious wakeup. -/
def wake [DecidableEq Tid] (cv : CondVar Tid) (tid : Tid) : CondVar Tid :=
  {waiting := cv.waiting.erase tid}

theorem notifyOne_sublist (cv : CondVar Tid) (pick : Nat) :
    (cv.notifyOne pick).waiting.Sublist cv.waiting :=
  List.eraseIdx_sublist _ _

theorem wake_sublist [DecidableEq Tid] (cv : CondVar Tid) (tid : Tid) :
    (cv.wake tid).waiting.Sublist cv.waiting :=
  List.erase_sublist

/-- Where at most one thread can wait, `notify_one` is as good as
`notify_all`. -/
theorem notifyOne_of_unique {cv : CondVar Tid} (hnodup : cv.waiting.Nodup)
    (hunique : ∀ a ∈ cv.waiting, ∀ b ∈ cv.waiting, a = b) (pick : Nat) :
    (cv.notifyOne pick).waiting = [] := by
  obtain ⟨waiting⟩ := cv
  cases waiting with
  | nil => rfl
  | cons first rest =>
      cases rest with
      | nil => simp [notifyOne, Nat.mod_one]
      | cons second others =>
          have hsame := hunique first (by simp) second (by simp)
          simp [hsame] at hnodup

end CondVar

end YkUtil.Lib
