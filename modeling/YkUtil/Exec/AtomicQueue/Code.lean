import Mathlib.Algebra.Order.Ring.Nat
import Mathlib.Data.Fintype.Basic
import Mathlib.Data.List.FinRange

/-!
`detail::atomic_queue_impl` and `detail::atomic_queue_slot`. A thread inside a
call is a program counter, and `advance` is its next atomic step: one access
to `head_`, `tail_` or a slot's `turn`, or one element operation. All orders
are taken as sequentially consistent.

The counters are `std::size_t`. `SizeT.bits w` is the real one of `w` bits;
`SizeT.unbounded` is the same code on counters that never wrap.
-/

namespace YkUtil.Exec

inductive SizeT where
  | unbounded
  | bits (w : Nat)

/-- The value a `std::size_t` keeps of a sum or a product. -/
def SizeT.wrap : SizeT → Nat → Nat
  | .unbounded, n => n
  | .bits w, n => n % 2 ^ w

/-- `static_cast<std::ptrdiff_t>(a - b)`. -/
def SizeT.ptrdiff : SizeT → Nat → Nat → Int
  | .unbounded, a, b => (a : Int) - b
  | .bits w, a, b => ((a : Int) - b).bmod (2 ^ w)

@[simp] theorem SizeT.wrap_unbounded (n : Nat) : SizeT.unbounded.wrap n = n := rfl

/-- `atomic_queue_slot`. `storage` is `some v` while a live element `v` (moved
from or not) occupies the slot's bytes. -/
structure Slot (T : Type*) where
  turn : Nat
  storage : Option T

namespace Slot

variable {T : Type*}

def construct (slot : Slot T) (v : T) : Slot T := {slot with storage := some v}

def destroy (slot : Slot T) : Slot T := {slot with storage := none}

/-- What the move out of the slot reads: `none` is a read of dead bytes. -/
def extract (slot : Slot T) : Option T := slot.storage

/-- `slot.turn.store(n)`. -/
def storeTurn (slot : Slot T) (n : Nat) : Slot T := {slot with turn := n}

/-- `~atomic_queue_slot`, with the elements it destroys. A `none` in the list
is a call of `destroy` on a slot that holds no element. -/
def dtor (slot : Slot T) : List (Option T) :=
  if slot.turn % 2 = 1 then [slot.storage] else []

end Slot

/-- `atomic_queue_impl` with the slots of its store. The capacity is a
parameter: it is fixed at construction and `[NeZero c]` is the store's check
`capacity_ < 1`. -/
structure AtomicQueue (T : Type*) (c : Nat) where
  head : Nat
  tail : Nat
  slots : Fin c → Slot T

namespace AtomicQueue

variable {T : Type*} {c : Nat}

/-- The state after construction. -/
def empty (T : Type*) (c : Nat) : AtomicQueue T c :=
  {head := 0, tail := 0, slots := fun _ => {turn := 0, storage := none}}

def idx (c : Nat) [NeZero c] (i : Nat) : Fin c := Fin.ofNat c i

def turn (c i : Nat) : Nat := i / c

def slotAt [NeZero c] (q : AtomicQueue T c) (i : Nat) : Slot T := q.slots (idx c i)

def setSlot [NeZero c] (q : AtomicQueue T c) (i : Nat) (slot : Slot T) : AtomicQueue T c :=
  {q with slots := Function.update q.slots (idx c i) slot}

def setHead (q : AtomicQueue T c) (n : Nat) : AtomicQueue T c := {q with head := n}

def setTail (q : AtomicQueue T c) (n : Nat) : AtomicQueue T c := {q with tail := n}

def size (z : SizeT) (q : AtomicQueue T c) : Nat := (z.ptrdiff q.head q.tail).natAbs

/-- The store's destructor runs every slot's, in order. -/
def dtor (q : AtomicQueue T c) : List (Option T) :=
  (List.finRange c).flatMap fun i => (q.slots i).dtor

@[simp] theorem setHead_head (q : AtomicQueue T c) (n : Nat) : (q.setHead n).head = n := rfl

@[simp] theorem setHead_tail (q : AtomicQueue T c) (n : Nat) :
    (q.setHead n).tail = q.tail := rfl

@[simp] theorem setTail_head (q : AtomicQueue T c) (n : Nat) :
    (q.setTail n).head = q.head := rfl

@[simp] theorem setTail_tail (q : AtomicQueue T c) (n : Nat) : (q.setTail n).tail = n := rfl

end AtomicQueue

/-- `push` and `pop` block, `try_push` and `try_pop` do not. Once a ticket is
won with a matching turn, both run the same statements. -/
inductive Mode where
  | blocking
  | nonBlocking
  deriving DecidableEq

/-- Where a thread is inside a call. The name says which step comes next. -/
inductive Pc (T : Type*) where
  | idle
  | pushFetchAdd (v : T)
  | pushSpin (v : T) (head : Nat)
  | tryPushLoad (v : T)
  | tryPushCheck (v : T) (head : Nat)
  | tryPushCas (v : T) (head : Nat)
  | tryPushReload (v : T) (prevHead : Nat)
  | construct (mode : Mode) (v : T) (head : Nat)
  | storePush (mode : Mode) (head : Nat)
  | popFetchAdd
  | popSpin (tail : Nat)
  | tryPopLoad
  | tryPopCheck (tail : Nat)
  | tryPopCas (tail : Nat)
  | tryPopReload (prevTail : Nat)
  | extract (mode : Mode) (tail : Nat)
  | destroy (mode : Mode) (tail : Nat) (v : Option T)
  | storePop (mode : Mode) (tail : Nat) (v : Option T)

inductive Call (T : Type*) where
  | push (v : T)
  | tryPush (v : T)
  | pop
  | tryPop

def Call.start {T : Type*} : Call T → Pc T
  | .push v => .pushFetchAdd v
  | .tryPush v => .tryPushLoad v
  | .pop => .popFetchAdd
  | .tryPop => .tryPopLoad

/-- What a step makes known to an observer. `pushed` and `popped` are the turn
stores, which return from the call. -/
inductive Event (T : Type*) where
  | headTicket (k : Nat) (v : T)
  | tailTicket (k : Nat)
  | pushed (k : Nat)
  | popped (k : Nat) (v : Option T)
  | tryPushFalse
  | tryPopFalse
  deriving DecidableEq

namespace AtomicQueue

variable {T : Type*} {c : Nat} [NeZero c]

/-- The next atomic step of a thread. The cases are the statements of `push`,
of `try_push`, of both once the turn matched, and of the pops likewise. A
failed `compare_exchange_strong` loads the counter into its expected value. -/
def advance (z : SizeT) (q : AtomicQueue T c) :
    Pc T → AtomicQueue T c × Pc T × Option (Event T)
  | .idle => (q, .idle, none)
  | .pushFetchAdd v =>
      (q.setHead (z.wrap (q.head + 1)), .pushSpin v q.head,
        some (.headTicket q.head v))
  | .pushSpin v head =>
      if z.wrap (turn c head * 2) = (q.slotAt head).turn then
        (q, .construct .blocking v head, none)
      else
        (q, .pushSpin v head, none)
  | .tryPushLoad v => (q, .tryPushCheck v q.head, none)
  | .tryPushCheck v head =>
      if z.wrap (turn c head * 2) = (q.slotAt head).turn then
        (q, .tryPushCas v head, none)
      else
        (q, .tryPushReload v head, none)
  | .tryPushCas v head =>
      if q.head = head then
        (q.setHead (z.wrap (head + 1)), .construct .nonBlocking v head,
          some (.headTicket head v))
      else
        (q, .tryPushCheck v q.head, none)
  | .tryPushReload v prevHead =>
      if q.head = prevHead then (q, .idle, some .tryPushFalse)
      else (q, .tryPushCheck v q.head, none)
  | .construct mode v head =>
      (q.setSlot head ((q.slotAt head).construct v), .storePush mode head, none)
  | .storePush _ head =>
      (q.setSlot head ((q.slotAt head).storeTurn (z.wrap (turn c head * 2 + 1))),
        .idle, some (.pushed head))
  | .popFetchAdd =>
      (q.setTail (z.wrap (q.tail + 1)), .popSpin q.tail, some (.tailTicket q.tail))
  | .popSpin tail =>
      if z.wrap (turn c tail * 2 + 1) = (q.slotAt tail).turn then
        (q, .extract .blocking tail, none)
      else
        (q, .popSpin tail, none)
  | .tryPopLoad => (q, .tryPopCheck q.tail, none)
  | .tryPopCheck tail =>
      if z.wrap (turn c tail * 2 + 1) = (q.slotAt tail).turn then
        (q, .tryPopCas tail, none)
      else
        (q, .tryPopReload tail, none)
  | .tryPopCas tail =>
      if q.tail = tail then
        (q.setTail (z.wrap (tail + 1)), .extract .nonBlocking tail,
          some (.tailTicket tail))
      else
        (q, .tryPopCheck q.tail, none)
  | .tryPopReload prevTail =>
      if q.tail = prevTail then (q, .idle, some .tryPopFalse)
      else (q, .tryPopCheck q.tail, none)
  | .extract mode tail => (q, .destroy mode tail (q.slotAt tail).extract, none)
  | .destroy mode tail v =>
      (q.setSlot tail (q.slotAt tail).destroy, .storePop mode tail v, none)
  | .storePop _ tail v =>
      (q.setSlot tail ((q.slotAt tail).storeTurn (z.wrap (turn c tail * 2 + 2))),
        .idle, some (.popped tail v))

@[simp] theorem idx_val (i : Nat) : (idx c i).val = i % c := rfl

theorem idx_eq_iff {i j : Nat} : idx c i = idx c j ↔ i % c = j % c := by
  rw [Fin.ext_iff, idx_val, idx_val]

@[simp] theorem setHead_slotAt (q : AtomicQueue T c) (n i : Nat) :
    (q.setHead n).slotAt i = q.slotAt i := rfl

@[simp] theorem setTail_slotAt (q : AtomicQueue T c) (n i : Nat) :
    (q.setTail n).slotAt i = q.slotAt i := rfl

@[simp] theorem setSlot_head (q : AtomicQueue T c) (i : Nat) (slot : Slot T) :
    (q.setSlot i slot).head = q.head := rfl

@[simp] theorem setSlot_tail (q : AtomicQueue T c) (i : Nat) (slot : Slot T) :
    (q.setSlot i slot).tail = q.tail := rfl

@[simp] theorem slotAt_setSlot_self (q : AtomicQueue T c) (i : Nat) (slot : Slot T) :
    (q.setSlot i slot).slotAt i = slot := by
  simp [setSlot, slotAt]

theorem slotAt_setSlot_same (q : AtomicQueue T c) {i j : Nat} (slot : Slot T)
    (h : j % c = i % c) : (q.setSlot i slot).slotAt j = slot := by
  simp [setSlot, slotAt, idx_eq_iff.mpr h]

theorem slotAt_setSlot_other (q : AtomicQueue T c) {i j : Nat} (slot : Slot T)
    (h : j % c ≠ i % c) : (q.setSlot i slot).slotAt j = q.slotAt j := by
  have hne : idx c j ≠ idx c i := fun e => h (idx_eq_iff.mp e)
  simp [setSlot, slotAt, hne]

theorem slotAt_congr (q : AtomicQueue T c) {i j : Nat} (h : i % c = j % c) :
    q.slotAt i = q.slotAt j := by
  simp [slotAt, idx_eq_iff.mpr h]

theorem slotAt_val (q : AtomicQueue T c) (i : Fin c) : q.slotAt i.val = q.slots i := by
  have h : idx c i.val = i := Fin.ext (Nat.mod_eq_of_lt i.isLt)
  simp [slotAt, h]

end AtomicQueue

end YkUtil.Exec
