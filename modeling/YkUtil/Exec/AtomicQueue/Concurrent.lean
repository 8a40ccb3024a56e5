import YkUtil.Lib.TransitionSystem
import YkUtil.Exec.AtomicQueue.Code

/-!
Any number of threads on one queue. A thread that is not inside a call may
start any call; a thread inside one may take its next atomic step. The order
of the steps is not restricted. `history` records what the steps made known
and is read by no step.
-/

namespace YkUtil.Exec.AtomicQueue

open YkUtil.Lib

variable {Tid T : Type*} {c : Nat}

structure System (Tid T : Type*) (c : Nat) where
  queue : AtomicQueue T c
  pc : Tid → Pc T
  history : List (Tid × Event T)

inductive Action (Tid T : Type*) where
  | invoke (tid : Tid) (call : Call T)
  | tick (tid : Tid)

def start (Tid T : Type*) (c : Nat) : System Tid T c :=
  {queue := empty T c, pc := fun _ => .idle, history := []}

/-- Whether the call has returned, and what. -/
def Event.returned : Option (Event T) → Option Bool
  | some (.pushed _) => some true
  | some (.popped _ _) => some true
  | some .tryPushFalse => some false
  | some .tryPopFalse => some false
  | _ => none

variable [DecidableEq Tid] [NeZero c]

/-- The thread `tid` goes to `pc`, the queue to `q`. -/
def System.set (s : System Tid T c) (tid : Tid) (q : AtomicQueue T c) (pc : Pc T)
    (event : Option (Event T)) : System Tid T c :=
  {queue := q
   pc := Function.update s.pc tid pc
   history := s.history ++ event.toList.map (fun e => (tid, e))}

/-- The outcome of an atomic step of `tid` takes effect. -/
def System.apply (s : System Tid T c) (tid : Tid)
    (outcome : AtomicQueue T c × Pc T × Option (Event T)) : System Tid T c :=
  s.set tid outcome.1 outcome.2.1 outcome.2.2

def step (z : SizeT) (s : System Tid T c) : Action Tid T → Option (System Tid T c)
  | .invoke tid call =>
      match s.pc tid with
      | .idle => some (s.set tid s.queue call.start none)
      | _ => none
  | .tick tid =>
      match s.pc tid with
      | .idle => none
      | pc => some (s.apply tid (advance z s.queue pc))

/-- The interleavings of the unbounded-counter code. -/
def system (Tid T : Type*) [DecidableEq Tid] (c : Nat) [NeZero c] :
    TransitionSystem (System Tid T c) (Action Tid T) :=
  {init := start Tid T c, step := step .unbounded}

/-- The head ticket a thread holds: obtained, turn store still to come. -/
def Pc.headTicket : Pc T → Option Nat
  | .pushSpin _ k | .construct _ _ k | .storePush _ k => some k
  | _ => none

def Pc.tailTicket : Pc T → Option Nat
  | .popSpin k | .extract _ k | .destroy _ k _ | .storePop _ k _ => some k
  | _ => none

/-- A thread is inside the slot of a ticket from winning the ticket with a
matching turn until its own turn store. -/
def Pc.inside : Pc T → Option Nat
  | .construct _ _ k | .storePush _ k => some k
  | .extract _ k | .destroy _ k _ | .storePop _ k _ => some k
  | _ => none

/-- The push or try_push that obtained head ticket `k` was called with `v`. -/
def System.Written (s : System Tid T c) (k : Nat) (v : T) : Prop :=
  ∃ tid, (tid, .headTicket k v) ∈ s.history

/-- The push of ticket `k` has completed its turn store. -/
def System.Pushed (s : System Tid T c) (k : Nat) : Prop :=
  ∃ tid, (tid, .pushed k) ∈ s.history

/-- The pop of ticket `k` has completed its turn store. -/
def System.Popped (s : System Tid T c) (k : Nat) : Prop :=
  ∃ tid v, (tid, .popped k v) ∈ s.history

/-- No operation is in flight. -/
def System.Quiescent (s : System Tid T c) : Prop := ∀ tid, s.pc tid = .idle

/-- What the code relies on when it is at `pc`. -/
def Local (s : System Tid T c) : Pc T → Prop
  | .idle | .pushFetchAdd _ | .tryPushLoad _ | .popFetchAdd | .tryPopLoad => True
  | .pushSpin v k =>
      k < s.queue.head ∧ s.Written k v ∧ (s.queue.slotAt k).turn ≤ turn c k * 2
  | .tryPushCheck _ k | .tryPushReload _ k => k ≤ s.queue.head
  | .tryPushCas _ k => k ≤ s.queue.head ∧ turn c k * 2 ≤ (s.queue.slotAt k).turn
  | .construct _ v k =>
      k < s.queue.head ∧ s.Written k v ∧ (s.queue.slotAt k).turn = turn c k * 2 ∧
        (s.queue.slotAt k).storage = none
  | .storePush _ k =>
      k < s.queue.head ∧ (s.queue.slotAt k).turn = turn c k * 2 ∧
        ∃ v, s.Written k v ∧ (s.queue.slotAt k).storage = some v
  | .popSpin k =>
      k < s.queue.tail ∧ (s.queue.slotAt k).turn ≤ turn c k * 2 + 1
  | .tryPopCheck k | .tryPopReload k => k ≤ s.queue.tail
  | .tryPopCas k => k ≤ s.queue.tail ∧ turn c k * 2 + 1 ≤ (s.queue.slotAt k).turn
  | .extract _ k =>
      k < s.queue.tail ∧ (s.queue.slotAt k).turn = turn c k * 2 + 1 ∧
        ∃ v, s.Written k v ∧ (s.queue.slotAt k).storage = some v
  | .destroy _ k r =>
      k < s.queue.tail ∧ (s.queue.slotAt k).turn = turn c k * 2 + 1 ∧
        ∃ v, s.Written k v ∧ (s.queue.slotAt k).storage = some v ∧ r = some v
  | .storePop _ k r =>
      k < s.queue.tail ∧ (s.queue.slotAt k).turn = turn c k * 2 + 1 ∧
        (s.queue.slotAt k).storage = none ∧ ∃ v, s.Written k v ∧ r = some v

/-- A slot no thread is inside of holds the element its turn number says. -/
def Resting (s : System Tid T c) (k : Nat) : Prop :=
  ((s.queue.slotAt k).turn = turn c k * 2 → (s.queue.slotAt k).storage = none) ∧
  ((s.queue.slotAt k).turn = turn c k * 2 + 1 →
    ∃ v, s.Written k v ∧ (s.queue.slotAt k).storage = some v)

/-- The invariant of every interleaving. A slot's turn counts the turn stores
on it, so `turn c k * 2 + 1 ≤ turn` says that the push of ticket `k` is done
and `turn c k * 2 + 2 ≤ turn` that the pop is. -/
structure Inv (s : System Tid T c) : Prop where
  atPc : ∀ tid, Local s (s.pc tid)
  uniqueHead : ∀ tid tid' k, Pc.headTicket (s.pc tid) = some k →
    Pc.headTicket (s.pc tid') = some k → tid = tid'
  uniqueTail : ∀ tid tid' k, Pc.tailTicket (s.pc tid) = some k →
    Pc.tailTicket (s.pc tid') = some k → tid = tid'
  issuedHead : ∀ k, turn c k * 2 + 1 ≤ (s.queue.slotAt k).turn → k < s.queue.head
  issuedTail : ∀ k, turn c k * 2 + 2 ≤ (s.queue.slotAt k).turn → k < s.queue.tail
  heldHead : ∀ k, k < s.queue.head → turn c k * 2 + 1 ≤ (s.queue.slotAt k).turn ∨
    ∃ tid, Pc.headTicket (s.pc tid) = some k
  heldTail : ∀ k, k < s.queue.tail → turn c k * 2 + 2 ≤ (s.queue.slotAt k).turn ∨
    ∃ tid, Pc.tailTicket (s.pc tid) = some k
  resting : ∀ k, (∀ tid l, Pc.inside (s.pc tid) = some l → l % c ≠ k % c) → Resting s k

end YkUtil.Exec.AtomicQueue
