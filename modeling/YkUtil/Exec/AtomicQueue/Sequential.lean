import YkUtil.Lib.BoundedContainer
import YkUtil.Exec.AtomicQueue.Safety

/-!
Calls of `try_push` and `try_pop` with no other thread moving. The loop of
such a call ends in its first round, so the call is a function on queues, and
on counters that do not wrap the queue is a bounded FIFO.
-/

namespace YkUtil.Exec.AtomicQueue

open YkUtil.Lib
open YkUtil.Lib.BoundedContainer (Order take)

variable {Tid T : Type*} {c : Nat} [NeZero c]

/-- `n` atomic steps of one thread, and what they made known. -/
def runAlone (z : SizeT) (q : AtomicQueue T c) (pc : Pc T) :
    Nat → AtomicQueue T c × Pc T × List (Event T)
  | 0 => (q, pc, [])
  | n + 1 =>
      let outcome := advance z q pc
      let rest := runAlone z outcome.1 outcome.2.1 n
      (rest.1, rest.2.1, outcome.2.2.toList ++ rest.2.2)

def tryPush (z : SizeT) (q : AtomicQueue T c) (v : T) : AtomicQueue T c × Bool :=
  if z.wrap (turn c q.head * 2) = (q.slotAt q.head).turn then
    ((q.setHead (z.wrap (q.head + 1))).setSlot q.head
      (((q.slotAt q.head).construct v).storeTurn (z.wrap (turn c q.head * 2 + 1))), true)
  else (q, false)

/-- `none` is a false return; `some r` returns what was read in the slot. -/
def tryPop (z : SizeT) (q : AtomicQueue T c) : AtomicQueue T c × Option (Option T) :=
  if z.wrap (turn c q.tail * 2 + 1) = (q.slotAt q.tail).turn then
    ((q.setTail (z.wrap (q.tail + 1))).setSlot q.tail
      ((q.slotAt q.tail).destroy.storeTurn (z.wrap (turn c q.tail * 2 + 2))),
        some (q.slotAt q.tail).extract)
  else (q, none)

inductive TryCall (T : Type*) where
  | push (v : T)
  | pop

inductive Result (T : Type*) where
  | pushed (ok : Bool)
  | popped (r : Option (Option T))
  deriving DecidableEq

/-- Whether the call returned true. -/
def Result.ok : Result T → Bool
  | .pushed ok => ok
  | .popped r => r.isSome

def runCall (z : SizeT) (q : AtomicQueue T c) : TryCall T → AtomicQueue T c × Result T
  | .push v => ((tryPush z q v).1, .pushed (tryPush z q v).2)
  | .pop => ((tryPop z q).1, .popped (tryPop z q).2)

/-- The queue after a sequence of calls. -/
def runCalls (z : SizeT) (q : AtomicQueue T c) : List (TryCall T) → AtomicQueue T c
  | [] => q
  | call :: rest => runCalls z (runCall z q call).1 rest

/-- The results of a sequence of calls, in order. -/
def results (z : SizeT) (q : AtomicQueue T c) : List (TryCall T) → List (Result T)
  | [] => []
  | call :: rest => (runCall z q call).2 :: results z (runCall z q call).1 rest

/-- What a FIFO that holds at most `c` values makes of a call. -/
def fifoCall (c : Nat) (l : List T) : TryCall T → List T × Result T
  | .push v => if l.length < c then (l ++ [v], .pushed true) else (l, .pushed false)
  | .pop =>
      match take .fifo l with
      | none => (l, .popped none)
      | some (v, rest) => (rest, .popped (some (some v)))

def fifoResults (c : Nat) (l : List T) : List (TryCall T) → List (Result T)
  | [] => []
  | call :: rest => (fifoCall c l call).2 :: fifoResults c (fifoCall c l call).1 rest

/-- How many values the FIFO takes in. -/
def fifoPushes (c : Nat) (l : List T) : List (TryCall T) → Nat
  | [] => 0
  | .push v :: rest =>
      (if l.length < c then 1 else 0) + fifoPushes c (fifoCall c l (.push v)).1 rest
  | .pop :: rest => fifoPushes c (fifoCall c l .pop).1 rest

/-- Push one value and take it out again, `n` times. -/
def pairs (v : T) : Nat → List (TryCall T)
  | 0 => []
  | n + 1 => .push v :: .pop :: pairs v n

@[simp] theorem setSlot_setSlot (q : AtomicQueue T c) (i : Nat) (first second : Slot T) :
    (q.setSlot i first).setSlot i second = q.setSlot i second := by
  simp [setSlot]

/-- Of `c` consecutive tickets a write to the slot of one leaves the slots of
the others alone. -/
theorem slotAt_setSlot_window (q : AtomicQueue T c) (slot : Slot T) {b k l : Nat}
    (hk : b ≤ k) (hk' : k < b + c) (hl : b ≤ l) (hl' : l < b + c) (hne : l ≠ k) :
    (q.setSlot k slot).slotAt l = q.slotAt l :=
  slotAt_setSlot_other _ _ fun hslot => hne (Lap.eq_of_window hl hl' hk hk' hslot)

theorem tryPush_of_turn {z : SizeT} {q : AtomicQueue T c} (v : T)
    (h : z.wrap (turn c q.head * 2) = (q.slotAt q.head).turn) :
    tryPush z q v = ((q.setHead (z.wrap (q.head + 1))).setSlot q.head
      (((q.slotAt q.head).construct v).storeTurn (z.wrap (turn c q.head * 2 + 1))), true) :=
  if_pos h

theorem tryPush_of_ne {z : SizeT} {q : AtomicQueue T c} (v : T)
    (h : z.wrap (turn c q.head * 2) ≠ (q.slotAt q.head).turn) : tryPush z q v = (q, false) :=
  if_neg h

theorem tryPop_of_turn {z : SizeT} {q : AtomicQueue T c}
    (h : z.wrap (turn c q.tail * 2 + 1) = (q.slotAt q.tail).turn) :
    tryPop z q = ((q.setTail (z.wrap (q.tail + 1))).setSlot q.tail
      ((q.slotAt q.tail).destroy.storeTurn (z.wrap (turn c q.tail * 2 + 2))),
        some (q.slotAt q.tail).extract) :=
  if_pos h

theorem tryPop_of_ne {z : SizeT} {q : AtomicQueue T c}
    (h : z.wrap (turn c q.tail * 2 + 1) ≠ (q.slotAt q.tail).turn) : tryPop z q = (q, none) :=
  if_neg h

@[simp] theorem tryPush_tail (z : SizeT) (q : AtomicQueue T c) (v : T) :
    (tryPush z q v).1.tail = q.tail := by
  unfold tryPush
  split <;> rfl

@[simp] theorem tryPop_head (z : SizeT) (q : AtomicQueue T c) :
    (tryPop z q).1.head = q.head := by
  unfold tryPop
  split <;> rfl

/-- `try_push` alone takes at most five atomic steps. -/
theorem tryPush_alone (z : SizeT) (q : AtomicQueue T c) (v : T) :
    runAlone z q (.tryPushLoad v) 5 = ((tryPush z q v).1, .idle,
      if (tryPush z q v).2 then [.headTicket q.head v, .pushed q.head] else [.tryPushFalse]) := by
  by_cases hturn : z.wrap (turn c q.head * 2) = (q.slotAt q.head).turn
  · simp [runAlone, advance, tryPush, hturn, Slot.construct, Slot.storeTurn]
  · simp [runAlone, advance, tryPush, hturn]

theorem tryPop_alone (z : SizeT) (q : AtomicQueue T c) :
    runAlone z q .tryPopLoad 6 = ((tryPop z q).1, .idle,
      match (tryPop z q).2 with
      | some r => [.tailTicket q.tail, .popped q.tail r]
      | none => [.tryPopFalse]) := by
  by_cases hturn : z.wrap (turn c q.tail * 2 + 1) = (q.slotAt q.tail).turn
  · simp [runAlone, advance, tryPop, hturn, Slot.extract, Slot.destroy, Slot.storeTurn]
  · simp [runAlone, advance, tryPop, hturn]

theorem fifoPushes_pairs (v : T) (n : Nat) : fifoPushes c [] (pairs v n) = n := by
  have hc : 0 < c := NeZero.pos c
  induction n with
  | zero => rfl
  | succ n ih =>
      simp [pairs, fifoPushes, fifoCall, take, hc, ih]
      omega

/-- The queue holds the values `l`, oldest first, and no operation is in
flight. -/
structure Holds (q : AtomicQueue T c) (l : List T) : Prop where
  head_eq : q.head = q.tail + l.length
  fits : l.length ≤ c
  full : ∀ n (h : n < l.length),
    q.slotAt (q.tail + n) = {turn := turn c (q.tail + n) * 2 + 1, storage := some l[n]}
  free : ∀ k, q.head ≤ k → k < q.tail + c →
    q.slotAt k = {turn := turn c k * 2, storage := none}

theorem holds_empty : Holds (empty T c) [] where
  head_eq := rfl
  fits := Nat.zero_le c
  full := nofun
  free := by
    intro k _ hk
    have hlap : turn c k = 0 := Nat.div_eq_of_lt (by simpa [empty] using hk)
    simp [hlap, slotAt, empty]

section Holds

variable {q : AtomicQueue T c} {l : List T} (h : Holds q l)
include h

theorem Holds.tail_le : q.tail ≤ q.head := by
  have := h.head_eq
  omega

theorem Holds.head_le : q.head ≤ q.tail + c := by
  have := h.head_eq
  have := h.fits
  omega

/-- The slot of the next head ticket is free, or one turn behind on a full
queue. -/
theorem Holds.head_turn : (q.slotAt q.head).turn + (if l.length < c then 0 else 1) =
    turn c q.head * 2 := by
  have hc : 0 < c := NeZero.pos c
  have hhead := h.head_eq
  have hfits := h.fits
  split
  · rename_i hlt
    rw [h.free q.head (Nat.le_refl _) (by omega)]
    rfl
  · have hfull : l.length = c := by omega
    have hslot : (q.tail + 0) % c = q.head % c := by simp [hhead, hfull]
    have hlap : turn c q.head = turn c q.tail + 1 := by
      rw [hhead, hfull]
      exact Nat.add_div_right _ hc
    rw [← slotAt_congr q hslot, h.full 0 (by omega), hlap]
    simp
    omega

/-- The slot of the next tail ticket is full, or one turn behind on an empty
queue. -/
theorem Holds.tail_turn : (q.slotAt q.tail).turn + (if l = [] then 1 else 0) =
    turn c q.tail * 2 + 1 := by
  have hc : 0 < c := NeZero.pos c
  have hhead := h.head_eq
  split
  · rename_i hnil
    simp only [hnil, List.length_nil, Nat.add_zero] at hhead
    rw [h.free q.tail (Nat.le_of_eq hhead) (by omega)]
  · rename_i hne
    have hfull := h.full 0 (List.length_pos_iff.mpr hne)
    simp only [Nat.add_zero] at hfull
    rw [hfull]

theorem Holds.tryPush_true (v : T) (hroom : l.length < c) :
    (tryPush .unbounded q v).2 = true ∧ Holds (tryPush .unbounded q v).1 (l ++ [v]) := by
  have hhead := h.head_eq
  have hturn := h.head_turn
  rw [if_pos hroom, Nat.add_zero] at hturn
  rw [tryPush_of_turn (z := .unbounded) v hturn.symm]
  refine ⟨rfl, ?_⟩
  simp only [SizeT.wrap_unbounded]
  constructor
  case head_eq => simp [hhead, Nat.add_assoc]
  case fits => simpa [Nat.succ_le_iff] using hroom
  case full =>
    intro n hn
    simp only [List.length_append, List.length_singleton] at hn
    simp only [setSlot_tail, setHead_tail]
    by_cases hlast : n = l.length
    · subst hlast
      rw [← hhead, slotAt_setSlot_self]
      simp [Slot.construct, Slot.storeTurn, hhead]
    · rw [slotAt_setSlot_window _ _ (b := q.tail) (by omega) (by omega) (by omega) (by omega)
        (by omega), setHead_slotAt, h.full n (by omega), List.getElem_append_left (by omega)]
  case free =>
    intro k hk hk'
    simp only [setSlot_head, setHead_head, setSlot_tail, setHead_tail] at hk hk'
    rw [slotAt_setSlot_window _ _ (b := q.tail) (by omega) (by omega) (by omega) (by omega)
      (by omega), setHead_slotAt, h.free k (by omega) hk']

theorem Holds.tryPush_false (v : T) (hroom : ¬ l.length < c) :
    tryPush .unbounded q v = (q, false) := by
  have hturn := h.head_turn
  rw [if_neg hroom] at hturn
  apply tryPush_of_ne
  simp only [SizeT.wrap_unbounded]
  omega

theorem Holds.tryPop_none (hnil : l = []) : tryPop .unbounded q = (q, none) := by
  have hturn := h.tail_turn
  rw [if_pos hnil] at hturn
  apply tryPop_of_ne
  simp only [SizeT.wrap_unbounded]
  omega

theorem Holds.tryPop_some {v : T} {rest : List T} (hl : l = v :: rest) :
    (tryPop .unbounded q).2 = some (some v) ∧ Holds (tryPop .unbounded q).1 rest := by
  have hc : 0 < c := NeZero.pos c
  have hhead := h.head_eq
  have hfits := h.fits
  have hfirst := h.full 0 (by simp [hl])
  simp only [Nat.add_zero, hl, List.getElem_cons_zero] at hfirst
  simp only [hl, List.length_cons] at hhead hfits
  rw [tryPop_of_turn (z := .unbounded) (by simp [hfirst]), hfirst]
  refine ⟨rfl, ?_⟩
  simp only [SizeT.wrap_unbounded]
  constructor
  case head_eq => simp [hhead]; omega
  case fits => omega
  case full =>
    intro n hn
    have hnext := h.full (n + 1) (by simp [hl, hn])
    simp only [hl, List.getElem_cons_succ] at hnext
    have hticket : q.tail + 1 + n = q.tail + (n + 1) := by omega
    simp only [setSlot_tail, setTail_tail, hticket]
    rw [slotAt_setSlot_window _ _ (b := q.tail) (by omega) (by omega) (by omega) (by omega)
      (by omega), setTail_slotAt, hnext]
  case free =>
    intro k hk hk'
    simp only [setSlot_head, setTail_head, setSlot_tail, setTail_tail] at hk hk'
    by_cases hlast : k = q.tail + c
    · have hlap : turn c k = turn c q.tail + 1 := by
        rw [hlast]
        exact Nat.add_div_right _ hc
      rw [slotAt_setSlot_same _ _ (by simp [hlast]), hlap]
      simp [Slot.destroy, Slot.storeTurn]
      omega
    · rw [slotAt_setSlot_window _ _ (b := q.tail) (by omega) (by omega) (by omega) (by omega)
        (by omega), setTail_slotAt, h.free k (by omega) (by omega)]

theorem Holds.tryPush_head (v : T) (hroom : l.length < c) :
    (tryPush .unbounded q v).1.head = q.head + 1 := by
  have hturn := h.head_turn
  rw [if_pos hroom, Nat.add_zero] at hturn
  rw [tryPush_of_turn (z := .unbounded) v hturn.symm]
  rfl

/-- A call on a queue that holds `l` does what it does on the FIFO. -/
theorem Holds.runCall (call : TryCall T) :
    (AtomicQueue.runCall .unbounded q call).2 = (fifoCall c l call).2 ∧
      Holds (AtomicQueue.runCall .unbounded q call).1 (fifoCall c l call).1 := by
  cases call with
  | push v =>
      by_cases hroom : l.length < c
      · obtain ⟨hok, hholds⟩ := h.tryPush_true v hroom
        simp [AtomicQueue.runCall, fifoCall, hroom, hok, hholds]
      · simp [AtomicQueue.runCall, fifoCall, hroom, h.tryPush_false v hroom, h]
  | pop =>
      cases hl : l with
      | nil => simp [AtomicQueue.runCall, fifoCall, take, h.tryPop_none hl, hl ▸ h]
      | cons v rest =>
          obtain ⟨hread, hholds⟩ := h.tryPop_some hl
          simp [AtomicQueue.runCall, fifoCall, take, hread, hholds]

/-- Every sequence of calls has the results it has on the FIFO. -/
theorem Holds.results_eq (calls : List (TryCall T)) :
    results .unbounded q calls = fifoResults c l calls := by
  induction calls generalizing q l with
  | nil => rfl
  | cons call rest ih =>
      obtain ⟨hsame, hholds⟩ := h.runCall call
      simp only [results, fifoResults, hsame, ih hholds]

end Holds

/-- With no operation in flight the queue holds the values of the tickets
between its counters. -/
theorem quiescent_holds [DecidableEq Tid] {s : System Tid T c}
    (h : (system Tid T c).Reachable s) (hq : s.Quiescent) :
    ∃ l, Holds s.queue l ∧ ∀ n (hn : n < l.length), s.Written (s.queue.tail + n) l[n] := by
  have hinv := reachable_inv h
  have htail := quiescent_tail_le_head hinv hq
  have hhead := quiescent_head_le hinv hq
  have hstored : ∀ n : Fin (s.queue.head - s.queue.tail), ∃ v,
      s.Written (s.queue.tail + n) v ∧ s.queue.slotAt (s.queue.tail + n) =
        {turn := turn c (s.queue.tail + n) * 2 + 1, storage := some v} := by
    intro n
    have hn := n.isLt
    exact quiescent_full hinv hq (Nat.le_add_right _ _) (by omega)
  choose value hwritten hslot using hstored
  refine ⟨List.ofFn value, ?_, ?_⟩
  · constructor
    case head_eq => simp; omega
    case fits => simp; omega
    case full =>
      intro n hn
      rw [List.length_ofFn] at hn
      simpa using hslot ⟨n, hn⟩
    case free => exact fun k hk hk' => quiescent_free hinv hq hk hk'
  · intro n hn
    rw [List.length_ofFn] at hn
    simpa using hwritten ⟨n, hn⟩

end YkUtil.Exec.AtomicQueue
