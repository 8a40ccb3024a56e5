import YkUtil.Exec.AtomicQueue.Sequential

/-!
A construction that throws. The ticket was taken before `construct` runs and
its turn is stored only after it, so the exception leaves a ticket whose turn
store never comes: no pop of that ticket and no push of the slot's next lap
can ever go ahead.
-/

namespace YkUtil.Exec.AtomicQueue

open YkUtil.Lib
open YkUtil.Lib.BoundedContainer (take)

variable {Tid T : Type*} {c : Nat}

theorem ptrdiff_parity {z : SizeT} (hz : z ≠ .bits 0) (a b : Nat) :
    z.ptrdiff a b % 2 = ((a : Int) - b) % 2 := by
  cases z with
  | unbounded => rfl
  | bits w =>
      cases w with
      | zero => exact absurd rfl hz
      | succ w =>
          have hdvd : (2 : Int) ∣ (2 ^ (w + 1) : Nat) := ⟨2 ^ w, by simp [pow_succ, mul_comm]⟩
          simp only [SizeT.ptrdiff]
          rw [← Int.emod_emod_of_dvd _ hdvd, Int.bmod_emod, Int.emod_emod_of_dvd _ hdvd]

theorem wrap_parity {z : SizeT} (hz : z ≠ .bits 0) (a : Nat) : z.wrap a % 2 = a % 2 := by
  cases z with
  | unbounded => rfl
  | bits w =>
      cases w with
      | zero => exact absurd rfl hz
      | succ w => exact Nat.mod_mod_of_dvd a ⟨2 ^ w, by rw [Nat.pow_succ, Nat.mul_comm]⟩

/-- One more ticket changes the parity of the distance of the counters. -/
theorem size_setHead_ne {z : SizeT} (hz : z ≠ .bits 0) (q : AtomicQueue T c) :
    size z (q.setHead (z.wrap (q.head + 1))) ≠ size z q := by
  have hbefore := ptrdiff_parity hz q.head q.tail
  have hafter := ptrdiff_parity hz (z.wrap (q.head + 1)) q.tail
  have hwrap := wrap_parity hz (q.head + 1)
  intro heq
  simp only [size, setHead_head, setHead_tail] at heq
  omega

variable [NeZero c]

/-- A call that runs alone comes to `construct`, which throws: neither push nor
try_push catches it, so `q'` is what the call leaves behind. -/
def ConstructThrows (z : SizeT) (q : AtomicQueue T c) (call : Call T) (q' : AtomicQueue T c) :
    Prop :=
  ∃ n mode v k events, runAlone z q call.start n = (q', .construct mode v k, events)

/-- The call has left no trace on a queue that held `l`. -/
structure Undone (z : SizeT) (q q' : AtomicQueue T c) (l : List T) : Prop where
  results_eq : ∀ calls, results z q' calls = fifoResults c l calls
  size_eq : size z q' = size z q

/-- What a thread that runs alone has found of the queue `q` it started on. -/
def Alone (z : SizeT) (q q' : AtomicQueue T c) : Pc T → Prop
  | .pushFetchAdd _ | .tryPushLoad _ => q' = q
  | .pushSpin _ k => q' = q.setHead (z.wrap (q.head + 1)) ∧ k = q.head
  | .tryPushCheck _ k | .tryPushReload _ k => q' = q ∧ k = q.head
  | .tryPushCas _ k =>
      q' = q ∧ k = q.head ∧ z.wrap (turn c q.head * 2) = (q.slotAt q.head).turn
  | .construct _ _ k => q' = q.setHead (z.wrap (q.head + 1)) ∧ k = q.head ∧
      z.wrap (turn c q.head * 2) = (q.slotAt q.head).turn
  | _ => True

theorem alone_start (z : SizeT) (q : AtomicQueue T c) (call : Call T) :
    Alone z q q call.start := by
  cases call <;> simp [Call.start, Alone]

theorem Alone.advance {z : SizeT} {q q' : AtomicQueue T c} {pc : Pc T} (h : Alone z q q' pc) :
    Alone z q (AtomicQueue.advance z q' pc).1 (AtomicQueue.advance z q' pc).2.1 := by
  cases pc with
  | pushFetchAdd v | tryPushLoad v =>
      cases h
      simp [AtomicQueue.advance, Alone]
  | pushSpin v k =>
      obtain ⟨rfl, rfl⟩ := h
      simp only [AtomicQueue.advance]
      split
      · rename_i hturn
        exact ⟨rfl, rfl, hturn⟩
      · exact ⟨rfl, rfl⟩
  | tryPushCheck v k =>
      obtain ⟨rfl, rfl⟩ := h
      simp only [AtomicQueue.advance]
      split
      · rename_i hturn
        exact ⟨rfl, rfl, hturn⟩
      · exact ⟨rfl, rfl⟩
  | tryPushCas v k =>
      obtain ⟨rfl, rfl, hturn⟩ := h
      simp [AtomicQueue.advance, Alone, hturn]
  | tryPushReload v k =>
      obtain ⟨rfl, rfl⟩ := h
      simp [AtomicQueue.advance, Alone]
  | popSpin | tryPopCheck | tryPopCas | tryPopReload =>
      simp only [AtomicQueue.advance]
      split <;> trivial
  | idle | construct | storePush | popFetchAdd | tryPopLoad | extract | destroy | storePop =>
      trivial

theorem alone_runAlone {z : SizeT} {q : AtomicQueue T c} (n : Nat) :
    ∀ {q' : AtomicQueue T c} {pc : Pc T}, Alone z q q' pc →
      Alone z q (runAlone z q' pc n).1 (runAlone z q' pc n).2.1 := by
  induction n with
  | zero => exact id
  | succ n ih => exact fun h => ih h.advance

/-- The exception leaves the ticket taken and everything else as it was. -/
theorem throws_inv {z : SizeT} {q q' : AtomicQueue T c} {call : Call T}
    (h : ConstructThrows z q call q') : q' = q.setHead (z.wrap (q.head + 1)) ∧
      z.wrap (turn c q.head * 2) = (q.slotAt q.head).turn := by
  obtain ⟨n, mode, v, k, events, hrun⟩ := h
  have halone := alone_runAlone n (alone_start z q call)
  rw [hrun] at halone
  exact ⟨halone.1, halone.2.2⟩

/-- No width of the counters and no state of the queue lets the queue forget a
throwing construction: its size has changed. -/
theorem throw_changes_size {z : SizeT} (hz : z ≠ .bits 0) {q q' : AtomicQueue T c}
    {call : Call T} (h : ConstructThrows z q call q') : size z q' ≠ size z q := by
  obtain ⟨rfl, _⟩ := throws_inv h
  exact size_setHead_ne hz q

/-- Ticket `k` was taken and its turn store never comes. -/
structure Jammed (q : AtomicQueue T c) (k : Nat) : Prop where
  issued : k < q.head
  tail_le : q.tail ≤ k
  turn_eq : (q.slotAt k).turn = turn c k * 2

/-- The next pop cannot be of the jammed slot. -/
theorem Jammed.slot_ne {q : AtomicQueue T c} {k : Nat} (h : Jammed q k)
    (hturn : turn c q.tail * 2 + 1 = (q.slotAt q.tail).turn) : k % c ≠ q.tail % c := by
  intro hsame
  rw [← slotAt_congr q hsame, h.turn_eq] at hturn
  omega

theorem Jammed.runCall {q : AtomicQueue T c} {k : Nat} (h : Jammed q k) (call : TryCall T) :
    Jammed (AtomicQueue.runCall .unbounded q call).1 k := by
  cases call with
  | push v =>
      by_cases hturn : turn c q.head * 2 = (q.slotAt q.head).turn
      · have hslot : k % c ≠ q.head % c := by
          intro hsame
          have hlap : turn c k < turn c q.head := Lap.lap_lt hsame h.issued
          rw [← slotAt_congr q hsame, h.turn_eq] at hturn
          omega
        simp only [AtomicQueue.runCall, tryPush_of_turn (z := .unbounded) v hturn]
        exact ⟨Nat.lt_succ_of_lt h.issued, h.tail_le, by
          rw [slotAt_setSlot_other _ _ hslot]
          exact h.turn_eq⟩
      · simpa [AtomicQueue.runCall, tryPush_of_ne (z := .unbounded) v hturn] using h
  | pop =>
      by_cases hturn : turn c q.tail * 2 + 1 = (q.slotAt q.tail).turn
      · have hslot := h.slot_ne hturn
        have htail := h.tail_le
        simp only [AtomicQueue.runCall, tryPop_of_turn (z := .unbounded) hturn]
        exact ⟨h.issued, Nat.lt_of_le_of_ne htail fun heq => hslot (by rw [heq]), by
          rw [slotAt_setSlot_other _ _ hslot]
          exact h.turn_eq⟩
      · simpa [AtomicQueue.runCall, tryPop_of_ne (z := .unbounded) hturn] using h

/-- How many pops returned a value. -/
def popsOk : List (Result T) → Nat
  | [] => 0
  | .popped (some _) :: rest => popsOk rest + 1
  | _ :: rest => popsOk rest

/-- Whatever is called later, only the tickets before the lost one are popped. -/
theorem Jammed.popsOk_le {q : AtomicQueue T c} {k : Nat} (h : Jammed q k)
    (calls : List (TryCall T)) : q.tail + popsOk (results .unbounded q calls) ≤ k := by
  induction calls generalizing q with
  | nil => exact h.tail_le
  | cons call rest ih =>
      have hrest := ih (h.runCall call)
      cases call with
      | push v => simpa [results, AtomicQueue.runCall, popsOk] using hrest
      | pop =>
          by_cases hturn : turn c q.tail * 2 + 1 = (q.slotAt q.tail).turn
          · simp only [AtomicQueue.runCall, tryPop_of_turn (z := .unbounded) hturn] at hrest
            simp only [results, AtomicQueue.runCall, tryPop_of_turn (z := .unbounded) hturn,
              popsOk]
            simp only [setSlot_tail, setTail_tail] at hrest
            change q.tail + 1 + _ ≤ k at hrest
            omega
          · simpa [results, AtomicQueue.runCall, popsOk,
              tryPop_of_ne (z := .unbounded) hturn] using hrest

/-- On a FIFO every pop right after a push returns a value. -/
theorem popsOk_pairs (l : List T) (v : T) (n : Nat) :
    popsOk (fifoResults c l (pairs v n)) = n := by
  have hc : 0 < c := NeZero.pos c
  induction n generalizing l with
  | zero => rfl
  | succ n ih =>
      cases l with
      | nil => simp [pairs, fifoResults, fifoCall, take, popsOk, hc, ih]
      | cons first others =>
          simp only [pairs, fifoResults, fifoCall]
          split <;> simp [take, popsOk, ih]

/-- A throwing construction is never undone. For every width of the counters,
every state and every call it changes the size. With no operation in flight on
counters that do not wrap, the queue it leaves does not act like the bounded
FIFO of any values either: only as many pops as there are earlier tickets can
ever succeed on it. -/
theorem construct_throw_not_undone [DecidableEq Tid] (call : Call T) (q' : AtomicQueue T c)
    (v : T) (l : List T) :
    (∀ z q, z ≠ .bits 0 → ConstructThrows z q call q' → ¬ Undone z q q' l) ∧
    (∀ s : System Tid T c, (system Tid T c).Reachable s → s.Quiescent →
      ConstructThrows .unbounded s.queue call q' →
      (∀ calls, s.queue.tail + popsOk (results .unbounded q' calls) ≤ s.queue.head) ∧
      ∃ calls, results .unbounded q' calls ≠ fifoResults c l calls) := by
  constructor
  · exact fun z q hz hthrow hundone => throw_changes_size hz hthrow hundone.size_eq
  · intro s hs hq hthrow
    have hinv := reachable_inv hs
    obtain ⟨rfl, hturn⟩ := throws_inv hthrow
    have hjammed : Jammed (s.queue.setHead (s.queue.head + 1)) s.queue.head :=
      ⟨Nat.lt_succ_self _, quiescent_tail_le_head hinv hq, hturn.symm⟩
    refine ⟨fun calls => hjammed.popsOk_le calls, pairs v (s.queue.head + 1), fun heq => ?_⟩
    have hbound := hjammed.popsOk_le (pairs v (s.queue.head + 1))
    change _ + popsOk (results .unbounded (s.queue.setHead (s.queue.head + 1)) _) ≤ _ at hbound
    simp only [SizeT.wrap_unbounded] at heq
    rw [heq, popsOk_pairs] at hbound
    omega

/-- A try_push that throws on an empty queue of capacity two. -/
theorem construct_throw_not_undone_empty :
    ¬ Undone .unbounded (empty Nat 2) ((empty Nat 2).setHead 1) [] ∧
      ∃ calls, results .unbounded ((empty Nat 2).setHead 1) calls ≠ fifoResults 2 [] calls := by
  have hthrow : ConstructThrows .unbounded (empty Nat 2) (.tryPush 7) ((empty Nat 2).setHead 1) :=
    ⟨3, .nonBlocking, 7, 0, _, rfl⟩
  have hquiescent : (start (Fin 1) Nat 2).Quiescent := fun _ => rfl
  have hboth := @construct_throw_not_undone (Fin 1) Nat 2 _ _ (.tryPush 7)
    ((empty Nat 2).setHead 1) 7 []
  exact ⟨hboth.1 .unbounded _ nofun hthrow,
    (hboth.2 _ (TransitionSystem.reachable_init _) hquiescent hthrow).2⟩

/-- On 64-bit counters: after a try_push threw on the empty queue, the queue
has size one, accepts a value and does not give it back. -/
theorem construct_throw_loses_value : ∃ q', ConstructThrows (.bits 64) (empty Nat 2)
      (.tryPush 7) q' ∧ size (.bits 64) q' = 1 ∧
      results (.bits 64) q' [.push 8, .pop] = [.pushed true, .popped none] ∧
      ¬ Undone (.bits 64) (empty Nat 2) q' [] := by
  refine ⟨(empty Nat 2).setHead 1, ⟨3, .nonBlocking, 7, 0, _, rfl⟩, rfl, rfl, fun hundone => ?_⟩
  have hsize := hundone.size_eq
  cases hsize

end YkUtil.Exec.AtomicQueue
