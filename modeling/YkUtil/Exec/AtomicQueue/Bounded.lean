import YkUtil.Exec.AtomicQueue.Sequential
import YkUtil.Lib.Machine

/-!
The queue used by one caller at a time, with all four operations. A blocking
call that finds its slot not ready spins for ever when no other thread moves.
-/

namespace YkUtil.Exec.AtomicQueue

open YkUtil.Lib

variable {T : Type*} {c : Nat} [NeZero c]

/-- The stores, with the arguments of their constructors. The capacity that
the static store takes for compatibility may be left out. -/
inductive Store where
  | dynamic (capacity : Nat)
  | static (N : Nat) (positive : 1 ≤ N) (capacity : Option Nat)

/-- The `capacity()` after construction; `none` if it throws `std::bad_alloc`. -/
def Store.construct : Store → Option Nat
  | .dynamic capacity => if capacity < 1 then none else some capacity
  | .static N _ none => some N
  | .static N _ (some capacity) => if N < capacity then none else some N

/-- `push`; `none` if the spin never ends. -/
def push (z : SizeT) (q : AtomicQueue T c) (v : T) : Option (AtomicQueue T c) :=
  if z.wrap (turn c q.head * 2) = (q.slotAt q.head).turn then
    some ((q.setHead (z.wrap (q.head + 1))).setSlot q.head
      (((q.slotAt q.head).construct v).storeTurn (z.wrap (turn c q.head * 2 + 1))))
  else none

/-- `pop`, with what it reads in the slot. -/
def pop (z : SizeT) (q : AtomicQueue T c) : Option (AtomicQueue T c × Option T) :=
  if z.wrap (turn c q.tail * 2 + 1) = (q.slotAt q.tail).turn then
    some ((q.setTail (z.wrap (q.tail + 1))).setSlot q.tail
      ((q.slotAt q.tail).destroy.storeTurn (z.wrap (turn c q.tail * 2 + 2))),
        (q.slotAt q.tail).extract)
  else none

theorem push_alone {z : SizeT} {q q' : AtomicQueue T c} {v : T} (h : push z q v = some q') :
    runAlone z q (.pushFetchAdd v) 4 =
      (q', .idle, [.headTicket q.head v, .pushed q.head]) := by
  unfold push at h
  split at h
  case isTrue hturn =>
    cases h
    simp [runAlone, advance, hturn, Slot.construct, Slot.storeTurn]
  case isFalse => cases h

/-- A thread that runs alone and has come to where nothing moves stays there. -/
theorem runAlone_stuck {z : SizeT} {q : AtomicQueue T c} {pc : Pc T}
    (h : advance z q pc = (q, pc, none)) (n : Nat) : (runAlone z q pc n).2.1 = pc := by
  induction n with
  | zero => rfl
  | succ n ih =>
      simp only [runAlone, h]
      exact ih

theorem push_spins {z : SizeT} {q : AtomicQueue T c} {v : T} (h : push z q v = none) (n : Nat) :
    (runAlone z q (.pushFetchAdd v) (n + 1)).2.1 = .pushSpin v q.head := by
  have hturn : z.wrap (turn c q.head * 2) ≠ (q.slotAt q.head).turn := by
    intro hturn
    simp [push, hturn] at h
  let ticketed := q.setHead (z.wrap (q.head + 1))
  have hspin : advance z ticketed (.pushSpin v q.head) = (ticketed, .pushSpin v q.head, none) :=
    if_neg hturn
  exact runAlone_stuck hspin n

theorem pop_alone {z : SizeT} {q q' : AtomicQueue T c} {r : Option T}
    (h : pop z q = some (q', r)) :
    runAlone z q .popFetchAdd 5 = (q', .idle, [.tailTicket q.tail, .popped q.tail r]) := by
  unfold pop at h
  split at h
  case isTrue hturn =>
    cases h
    simp [runAlone, advance, hturn, Slot.extract, Slot.destroy, Slot.storeTurn]
  case isFalse => cases h

theorem pop_spins {z : SizeT} {q : AtomicQueue T c} (h : pop z q = none) (n : Nat) :
    (runAlone z q .popFetchAdd (n + 1)).2.1 = .popSpin q.tail := by
  have hturn : z.wrap (turn c q.tail * 2 + 1) ≠ (q.slotAt q.tail).turn := by
    intro hturn
    simp [pop, hturn] at h
  let ticketed := q.setTail (z.wrap (q.tail + 1))
  have hspin : advance z ticketed (.popSpin q.tail) = (ticketed, .popSpin q.tail, none) :=
    if_neg hturn
  exact runAlone_stuck hspin n

theorem push_eq (z : SizeT) (q : AtomicQueue T c) (v : T) :
    push z q v = if (tryPush z q v).2 then some (tryPush z q v).1 else none := by
  unfold push tryPush
  split <;> rfl

theorem pop_eq (z : SizeT) (q : AtomicQueue T c) :
    pop z q = (tryPop z q).2.map fun r => ((tryPop z q).1, r) := by
  unfold pop tryPop
  split <;> rfl

/-- The queue and the variable that the pops assign to; `none` is what a read
of dead bytes leaves in it. -/
structure Client (T : Type*) (c : Nat) where
  queue : AtomicQueue T c
  value : Option T

/-- What the caller sees of a call: whether it returned true, as blocking calls
always do, the variable afterwards, and `size()` afterwards. -/
structure Observation (T : Type*) where
  ok : Bool
  value : Option T
  size : Nat
  deriving DecidableEq

def Client.observe (z : SizeT) (ok : Bool) (s : Client T c) : Client T c × Observation T :=
  (s, ⟨ok, s.value, s.queue.size z⟩)

def Client.call (z : SizeT) (s : Client T c) : Call T → Option (Client T c × Observation T)
  | .push v => (push z s.queue v).map fun q => Client.observe z true {s with queue := q}
  | .tryPush v =>
      let outcome := tryPush z s.queue v
      some (Client.observe z outcome.2 {s with queue := outcome.1})
  | .pop =>
      (pop z s.queue).map fun outcome => Client.observe z true ⟨outcome.1, outcome.2⟩
  | .tryPop =>
      let outcome := tryPop z s.queue
      some (outcome.2.elim (Client.observe z false {s with queue := outcome.1})
        fun r => Client.observe z true ⟨outcome.1, r⟩)

/-- A list of at most `c` values, with the caller's variable. -/
structure Fifo (T : Type*) where
  values : List T
  value : Option T

def Fifo.observe (ok : Bool) (s : Fifo T) : Fifo T × Observation T :=
  (s, ⟨ok, s.value, s.values.length⟩)

/-- Blocking calls return only where the other two would return true. -/
def Fifo.call (c : Nat) (s : Fifo T) : Call T → Option (Fifo T × Observation T)
  | .push v =>
      if s.values.length < c then some (Fifo.observe true {s with values := s.values ++ [v]})
      else none
  | .tryPush v =>
      if s.values.length < c then some (Fifo.observe true {s with values := s.values ++ [v]})
      else some (Fifo.observe false s)
  | .pop =>
      s.values.head?.map fun v => Fifo.observe true ⟨s.values.tail, some v⟩
  | .tryPop =>
      some (s.values.head?.elim (Fifo.observe false s)
        fun v => Fifo.observe true ⟨s.values.tail, some v⟩)

/-- The queue stores what the FIFO does, and the variables agree. -/
def Represents (s : Client T c) (l : Fifo T) : Prop :=
  Holds s.queue l.values ∧ s.value = l.value

theorem Holds.size_eq {q : AtomicQueue T c} {l : List T} (h : Holds q l) :
    q.size .unbounded = l.length := by
  simp [size, SizeT.ptrdiff, h.head_eq]

theorem Represents.observe {s : Client T c} {l : Fifo T} (h : Represents s l) (ok : Bool) :
    Represents (Client.observe .unbounded ok s).1 (Fifo.observe ok l).1 ∧
      (Client.observe .unbounded ok s).2 = (Fifo.observe ok l).2 := by
  refine ⟨h, ?_⟩
  simp only [Client.observe, Fifo.observe, h.2, h.1.size_eq]

theorem client_simulates :
    Machine.Simulates Represents (Client.call .unbounded : Client T c → _) (Fifo.call c) := by
  intro s l call h
  cases call with
  | push v =>
      by_cases hroom : l.values.length < c
      · obtain ⟨hok, hholds⟩ := h.1.tryPush_true v hroom
        simp only [Client.call, Fifo.call, push_eq, hok, if_pos hroom, Option.map_some, if_true]
        have hnext : Represents {s with queue := (tryPush .unbounded s.queue v).1}
            {l with values := l.values ++ [v]} := ⟨hholds, h.2⟩
        exact .some (hnext.observe true)
      · simp only [Client.call, Fifo.call, push_eq, h.1.tryPush_false v hroom, if_neg hroom]
        exact .none
  | tryPush v =>
      by_cases hroom : l.values.length < c
      · obtain ⟨hok, hholds⟩ := h.1.tryPush_true v hroom
        simp only [Client.call, Fifo.call, hok, if_pos hroom]
        have hnext : Represents {s with queue := (tryPush .unbounded s.queue v).1}
            {l with values := l.values ++ [v]} := ⟨hholds, h.2⟩
        exact .some (hnext.observe true)
      · simp only [Client.call, Fifo.call, h.1.tryPush_false v hroom, if_neg hroom]
        exact .some (h.observe false)
  | pop =>
      cases hl : l.values with
      | nil =>
          simp only [Client.call, Fifo.call, pop_eq, h.1.tryPop_none hl, hl]
          exact .none
      | cons v rest =>
          obtain ⟨hread, hholds⟩ := h.1.tryPop_some hl
          simp only [Client.call, Fifo.call, pop_eq, hread, hl, Option.map_some, List.head?_cons,
            List.tail_cons]
          exact .some (Represents.observe ⟨hholds, rfl⟩ true)
  | tryPop =>
      cases hl : l.values with
      | nil =>
          simp only [Client.call, Fifo.call, h.1.tryPop_none hl, hl, List.head?_nil,
            Option.elim_none]
          exact .some (h.observe false)
      | cons v rest =>
          obtain ⟨hread, hholds⟩ := h.1.tryPop_some hl
          simp only [Client.call, Fifo.call, hread, hl, List.head?_cons, List.tail_cons,
            Option.elim_some]
          exact .some (Represents.observe ⟨hholds, rfl⟩ true)

/-- One thread makes the call alone, by its atomic steps: it returns with this queue,
this result and this variable, or it never does. -/
def Client.MadeAlone (z : SizeT) (s : Client T c) (call : Call T) :
    Option (Client T c × Observation T) → Prop
  | some (s', seen) => ∃ n events,
      runAlone z s.queue call.start n = (s'.queue, .idle, events) ∧
      Event.returned events.getLast? = some seen.ok ∧
      s'.value = match events.getLast? with
        | some (.popped _ r) => r
        | _ => s.value
  | none => ∀ n, (runAlone z s.queue call.start n).2.1 ≠ .idle

theorem call_madeAlone (z : SizeT) (s : Client T c) (call : Call T) :
    s.MadeAlone z call (s.call z call) := by
  cases call with
  | push v =>
      cases hpush : push z s.queue v with
      | none =>
          simp only [Client.call, hpush, Option.map_none]
          intro n
          cases n with
          | zero => simp [runAlone, Call.start]
          | succ n => simp [Call.start, push_spins hpush]
      | some q =>
          simp only [Client.call, hpush, Option.map_some]
          exact ⟨4, _, push_alone hpush, rfl, rfl⟩
  | tryPush v =>
      refine ⟨5, _, tryPush_alone z s.queue v, ?_, ?_⟩ <;>
        cases hok : (tryPush z s.queue v).2 <;> rfl
  | pop =>
      cases hpop : pop z s.queue with
      | none =>
          simp only [Client.call, hpop, Option.map_none]
          intro n
          cases n with
          | zero => simp [runAlone, Call.start]
          | succ n => simp [Call.start, pop_spins hpop]
      | some outcome =>
          simp only [Client.call, hpop, Option.map_some]
          exact ⟨5, _, pop_alone hpop, rfl, rfl⟩
  | tryPop =>
      cases hread : (tryPop z s.queue).2 with
      | none =>
          have halone := tryPop_alone z s.queue
          rw [hread] at halone
          simp only [Client.call, hread, Option.elim_none]
          exact ⟨6, _, halone, rfl, rfl⟩
      | some r =>
          have halone := tryPop_alone z s.queue
          rw [hread] at halone
          simp only [Client.call, hread, Option.elim_some]
          exact ⟨6, _, halone, rfl, rfl⟩

theorem tryPush_failed {z : SizeT} {q : AtomicQueue T c} {v : T} (h : (tryPush z q v).2 = false) :
    (tryPush z q v).1 = q := by
  revert h
  unfold tryPush
  split
  · intro hfailed
    cases hfailed
  · exact fun _ => rfl

theorem tryPop_failed {z : SizeT} {q : AtomicQueue T c} (h : (tryPop z q).2 = none) :
    (tryPop z q).1 = q := by
  revert h
  unfold tryPop
  split
  · intro hfailed
    cases hfailed
  · exact fun _ => rfl

/-- A call that returns false changes neither the queue nor the variable. -/
theorem failed_unchanged {z : SizeT} {s s' : Client T c} {call : Call T} {seen : Observation T}
    (h : s.call z call = some (s', seen)) (hfailed : seen.ok = false) : s' = s := by
  cases call with
  | push v =>
      obtain ⟨q, -, hq⟩ := Option.map_eq_some_iff.mp h
      cases hq
      cases hfailed
  | tryPush v =>
      cases h
      rw [tryPush_failed hfailed]
  | pop =>
      obtain ⟨outcome, -, houtcome⟩ := Option.map_eq_some_iff.mp h
      cases houtcome
      cases hfailed
  | tryPop =>
      simp only [Client.call, Option.some.injEq] at h
      cases hread : (tryPop z s.queue).2 with
      | none =>
          rw [hread, Option.elim_none] at h
          cases h
          rw [tryPop_failed hread]
      | some r =>
          rw [hread, Option.elim_some] at h
          cases h
          cases hfailed

theorem dynamic_construct : (Store.dynamic c).construct = some c :=
  if_neg (Nat.not_lt_of_le (Nat.pos_of_neZero c))

omit [NeZero c] in
/-- A capacity below the static one is accepted and ignored. -/
theorem static_construct (positive : 1 ≤ c) (capacity : Option Nat) :
    (Store.static c positive capacity).construct = some c ↔ ∀ n ∈ capacity, n ≤ c := by
  cases capacity with
  | none => simp [Store.construct]
  | some n => simp [Store.construct]

theorem Holds.outputs_eq {q : AtomicQueue T c} {l : List T} (h : Holds q l) (value : Option T)
    (calls : List (Call T)) :
    Machine.outputs (Client.call .unbounded) (⟨q, value⟩ : Client T c) calls =
      Machine.outputs (Fifo.call c) ⟨l, value⟩ calls :=
  Machine.Simulates.outputs_eq client_simulates ⟨h, rfl⟩ calls

/-- Both stores give a queue of capacity `c`, and the queue answers every
sequence of calls as the FIFO does, blocking calls that cannot return included.
So it does from wherever the calls of other threads have left it with none in
flight. A call that returns false leaves everything as it was, and each call is
what its atomic steps make of it. -/
theorem queue_refines_fifo (Tid : Type*) [DecidableEq Tid] (c : Nat) [NeZero c]
    (value : Option T) :
    (Store.dynamic c).construct = some c ∧
    (∀ positive capacity, (Store.static c positive capacity).construct = some c ↔
      ∀ n ∈ capacity, n ≤ c) ∧
    (∀ calls, Machine.outputs (Client.call .unbounded) (⟨empty T c, value⟩ : Client T c) calls =
      Machine.outputs (Fifo.call c) ⟨[], value⟩ calls) ∧
    (∀ s, (system Tid T c).Reachable s → s.Quiescent →
      ∃ l, (∀ n (hn : n < l.length), s.Written (s.queue.tail + n) l[n]) ∧
        ∀ calls, Machine.outputs (Client.call .unbounded) (⟨s.queue, value⟩ : Client T c) calls =
          Machine.outputs (Fifo.call c) ⟨l, value⟩ calls) ∧
    (∀ (s s' : Client T c) call seen, s.call .unbounded call = some (s', seen) →
      seen.ok = false → s' = s) ∧
    ∀ (s : Client T c) call, s.MadeAlone .unbounded call (s.call .unbounded call) := by
  refine ⟨dynamic_construct, static_construct, holds_empty.outputs_eq value, ?_, ?_,
    call_madeAlone .unbounded⟩
  · intro s hreach hq
    obtain ⟨l, hholds, hwritten⟩ := quiescent_holds hreach hq
    exact ⟨l, hwritten, hholds.outputs_eq value⟩
  · intro s s' call seen h hfailed
    exact failed_unchanged h hfailed

/-- Two values pushed, a third refused, the first taken out again. -/
theorem queue_refines_fifo_two :
    Machine.outputs (Client.call .unbounded) (⟨empty Nat 2, some 0⟩ : Client Nat 2)
        [.push 1, .tryPush 2, .tryPush 3, .pop] =
      some [⟨true, some 0, 1⟩, ⟨true, some 0, 2⟩, ⟨false, some 0, 2⟩, ⟨true, some 1, 1⟩] := by
  rw [(queue_refines_fifo Unit 2 (some 0)).2.2.1]
  decide

end YkUtil.Exec.AtomicQueue
