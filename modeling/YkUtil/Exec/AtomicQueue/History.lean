import YkUtil.Exec.AtomicQueue.Steps

/-!
What an observer sees of any interleaving. Tickets are issued once each and in
order, a slot's turn tells which pushes and pops are complete, and the pop of
a ticket returns the value of the push of the same ticket.
-/

namespace YkUtil.Exec.AtomicQueue

open YkUtil.Lib

variable {Tid T : Type*} {c : Nat}

def Event.headTicket? : Event T → Option Nat
  | .headTicket k _ => some k
  | _ => none

def Event.tailTicket? : Event T → Option Nat
  | .tailTicket k => some k
  | _ => none

def Event.popped? : Event T → Option Nat
  | .popped k _ => some k
  | _ => none

/-- The tickets of one kind of event, in the order of the history. -/
def ticketsOf (f : Event T → Option Nat) (history : List (Tid × Event T)) : List Nat :=
  history.filterMap fun entry => f entry.2

section Set

variable [DecidableEq Tid] {s : System Tid T c} {tid : Tid} {q : AtomicQueue T c} {pc : Pc T}
  {event : Option (Event T)}

theorem mem_set_history {entry : Tid × Event T} :
    entry ∈ (s.set tid q pc event).history ↔
      entry ∈ s.history ∨ entry.1 = tid ∧ event = some entry.2 := by
  rw [set_history, List.mem_append]
  cases event with
  | none => simp
  | some e =>
      simp only [Option.toList_some, List.map_cons, List.map_nil, List.mem_singleton,
        Option.some.injEq]
      constructor
      · rintro (h | rfl)
        · exact Or.inl h
        · exact Or.inr ⟨rfl, rfl⟩
      · rintro (h | ⟨rfl, rfl⟩)
        · exact Or.inl h
        · exact Or.inr rfl

theorem ticketsOf_set (f : Event T → Option Nat) (tid : Tid) (q : AtomicQueue T c) (pc : Pc T)
    (event : Option (Event T)) :
    ticketsOf f (s.set tid q pc event).history =
      ticketsOf f s.history ++ (event.bind f).toList := by
  rw [set_history]
  cases event with
  | none => simp [ticketsOf]
  | some e => cases hf : f e <;> simp [ticketsOf, hf]

theorem mem_set_of_mem {entry : Tid × Event T} (h : entry ∈ s.history) :
    entry ∈ (s.set tid q pc event).history := mem_set_history.mpr (Or.inl h)

/-- The holder of a ticket is on record when a step records its new one. -/
theorem headBy_set
    (h : ∀ other k, Pc.headTicket (s.pc other) = some k →
      ∃ v, (other, .headTicket k v) ∈ s.history)
    (hpc : ∀ k, Pc.headTicket pc = some k →
      ∃ v, (tid, .headTicket k v) ∈ (s.set tid q pc event).history) :
    ∀ other k, Pc.headTicket ((s.set tid q pc event).pc other) = some k →
      ∃ v, (other, .headTicket k v) ∈ (s.set tid q pc event).history := by
  intro other k hk
  by_cases heq : other = tid
  · rw [heq, set_pc_self] at hk
    exact heq ▸ hpc k hk
  · rw [set_pc_other _ _ _ _ _ heq] at hk
    obtain ⟨v, hv⟩ := h other k hk
    exact ⟨v, mem_set_of_mem hv⟩

theorem tailBy_set
    (h : ∀ other k, Pc.tailTicket (s.pc other) = some k →
      (other, .tailTicket k) ∈ s.history)
    (hpc : ∀ k, Pc.tailTicket pc = some k →
      (tid, .tailTicket k) ∈ (s.set tid q pc event).history) :
    ∀ other k, Pc.tailTicket ((s.set tid q pc event).pc other) = some k →
      (other, .tailTicket k) ∈ (s.set tid q pc event).history := by
  intro other k hk
  by_cases heq : other = tid
  · rw [heq, set_pc_self] at hk
    exact heq ▸ hpc k hk
  · rw [set_pc_other _ _ _ _ _ heq] at hk
    exact mem_set_of_mem (h other k hk)

/-- A new event adds to the completed pushes just its own ticket. -/
theorem pushed_set {k : Nat} :
    (s.set tid q pc event).Pushed k ↔ s.Pushed k ∨ event = some (.pushed k) := by
  constructor
  · rintro ⟨pusher, hp⟩
    rcases mem_set_history.mp hp with h | ⟨_, h⟩
    · exact Or.inl ⟨pusher, h⟩
    · exact Or.inr h
  · rintro (⟨pusher, hp⟩ | h)
    · exact ⟨pusher, mem_set_of_mem hp⟩
    · exact ⟨tid, mem_set_history.mpr (Or.inr ⟨rfl, h⟩)⟩

theorem popped_set {k : Nat} :
    (s.set tid q pc event).Popped k ↔ s.Popped k ∨ ∃ r, event = some (.popped k r) := by
  constructor
  · rintro ⟨popper, r, hp⟩
    rcases mem_set_history.mp hp with h | ⟨_, h⟩
    · exact Or.inl ⟨popper, r, h⟩
    · exact Or.inr ⟨r, h⟩
  · rintro (⟨popper, r, hp⟩ | ⟨r, h⟩)
    · exact ⟨popper, r, mem_set_of_mem hp⟩
    · exact ⟨tid, r, mem_set_history.mpr (Or.inr ⟨rfl, h⟩)⟩

end Set

variable [NeZero c] {s t : System Tid T c}

/-- How the history and the queue belong together. -/
structure Recorded (s : System Tid T c) : Prop where
  heads : ticketsOf Event.headTicket? s.history = List.range s.queue.head
  tails : ticketsOf Event.tailTicket? s.history = List.range s.queue.tail
  headBy : ∀ tid k, Pc.headTicket (s.pc tid) = some k → ∃ v, (tid, .headTicket k v) ∈ s.history
  tailBy : ∀ tid k, Pc.tailTicket (s.pc tid) = some k → (tid, .tailTicket k) ∈ s.history
  pushed : ∀ k, s.Pushed k ↔ turn c k * 2 + 1 ≤ (s.queue.slotAt k).turn
  popped : ∀ k, s.Popped k ↔ turn c k * 2 + 2 ≤ (s.queue.slotAt k).turn
  returned : ∀ tid k r, (tid, .popped k r) ∈ s.history →
    (tid, .tailTicket k) ∈ s.history ∧ ∃ v, r = some v ∧ s.Written k v
  once : (ticketsOf Event.popped? s.history).Nodup

theorem recorded_start : Recorded (start Tid T c) := by
  constructor
  case heads | tails => rfl
  case headBy | tailBy => exact fun _ _ hk => by cases hk
  case pushed | popped =>
    intro k
    constructor
    · rintro ⟨_, hmem⟩
      simp [start] at hmem
    · intro hk
      exact absurd hk (Nat.not_succ_le_zero _)
  case returned => exact fun _ _ _ hr => by cases hr
  case once => exact List.nodup_nil

variable [DecidableEq Tid]

/-- What a pop has returned is on record when a step records its new one. -/
theorem returned_set {tid : Tid} {q : AtomicQueue T c} {pc : Pc T} {event : Option (Event T)}
    (h : Recorded s)
    (hnew : ∀ k r, event = some (.popped k r) →
      (tid, .tailTicket k) ∈ s.history ∧ ∃ v, r = some v ∧ s.Written k v) :
    ∀ popper k r, (popper, .popped k r) ∈ (s.set tid q pc event).history →
      (popper, .tailTicket k) ∈ (s.set tid q pc event).history ∧
        ∃ v, r = some v ∧ (s.set tid q pc event).Written k v := by
  intro popper k r hr
  have hold : (popper, .tailTicket k) ∈ s.history ∧ ∃ v, r = some v ∧ s.Written k v := by
    rcases mem_set_history.mp hr with hmem | ⟨rfl, hmem⟩
    · exact h.returned popper k r hmem
    · exact hnew k r hmem
  obtain ⟨hticket, v, hv, hwritten⟩ := hold
  exact ⟨mem_set_of_mem hticket, v, hv, written_set _ _ _ _ _ hwritten⟩

/-- What a step from `pc` that ends in `outcome` does to the shared state, by
the event it shows. -/
def Effect (q : AtomicQueue T c) (pc : Pc T)
    (outcome : AtomicQueue T c × Pc T × Option (Event T)) : Prop :=
  match outcome.2.2 with
  | some (.headTicket k _) =>
      k = q.head ∧ outcome.1 = q.setHead (q.head + 1) ∧ Pc.headTicket outcome.2.1 = some k ∧
        Pc.tailTicket outcome.2.1 = none
  | some (.tailTicket k) =>
      k = q.tail ∧ outcome.1 = q.setTail (q.tail + 1) ∧ Pc.tailTicket outcome.2.1 = some k ∧
        Pc.headTicket outcome.2.1 = none
  | some (.pushed k) =>
      (∃ mode, pc = .storePush mode k) ∧ outcome.2.1 = .idle ∧
        outcome.1 = q.setSlot k ((q.slotAt k).storeTurn (turn c k * 2 + 1))
  | some (.popped k r) =>
      (∃ mode, pc = .storePop mode k r) ∧ outcome.2.1 = .idle ∧
        outcome.1 = q.setSlot k ((q.slotAt k).storeTurn (turn c k * 2 + 2))
  | _ =>
      outcome.1.head = q.head ∧ outcome.1.tail = q.tail ∧
        (∀ k, (outcome.1.slotAt k).turn = (q.slotAt k).turn) ∧
        Pc.headTicket outcome.2.1 = Pc.headTicket pc ∧
        Pc.tailTicket outcome.2.1 = Pc.tailTicket pc

theorem advance_effect (q : AtomicQueue T c) (pc : Pc T) :
    Effect q pc (advance .unbounded q pc) := by
  have hset (k : Nat) (slot : Slot T) (h : slot.turn = (q.slotAt k).turn) (l : Nat) :
      ((q.setSlot k slot).slotAt l).turn = (q.slotAt l).turn := by
    by_cases hl : l % c = k % c
    · rw [slotAt_setSlot_same _ _ hl, h, slotAt_congr q hl]
    · rw [slotAt_setSlot_other _ _ hl]
  cases pc with
  | idle | tryPushLoad | tryPopLoad => exact ⟨rfl, rfl, fun _ => rfl, rfl, rfl⟩
  | pushFetchAdd | popFetchAdd => exact ⟨rfl, rfl, rfl, rfl⟩
  | pushSpin | tryPushCheck | popSpin | tryPopCheck =>
      simp only [advance]
      split <;> exact ⟨rfl, rfl, fun _ => rfl, rfl, rfl⟩
  | tryPushCas v k | tryPopCas k =>
      simp only [advance]
      split
      · rename_i hcas
        subst hcas
        exact ⟨rfl, rfl, rfl, rfl⟩
      · exact ⟨rfl, rfl, fun _ => rfl, rfl, rfl⟩
  | tryPushReload | tryPopReload =>
      simp only [advance]
      split <;> exact ⟨rfl, rfl, fun _ => rfl, rfl, rfl⟩
  | construct mode v k => exact ⟨rfl, rfl, hset k _ rfl, rfl, rfl⟩
  | storePush mode k => exact ⟨⟨mode, rfl⟩, rfl, rfl⟩
  | extract mode k => exact ⟨rfl, rfl, fun _ => rfl, rfl, rfl⟩
  | destroy mode k r => exact ⟨rfl, rfl, hset k _ rfl, rfl, rfl⟩
  | storePop mode k r => exact ⟨⟨mode, rfl⟩, rfl, rfl⟩

/-- Steps without a ticket or a turn store. -/
theorem Recorded.quiet (h : Recorded s) {tid : Tid} {q : AtomicQueue T c} {pc : Pc T}
    {event : Option (Event T)}
    (hevent : event = none ∨ event = some .tryPushFalse ∨ event = some .tryPopFalse)
    (hhead : q.head = s.queue.head) (htail : q.tail = s.queue.tail)
    (hturn : ∀ k, (q.slotAt k).turn = (s.queue.slotAt k).turn)
    (hpcHead : ∀ k, Pc.headTicket pc = some k → Pc.headTicket (s.pc tid) = some k)
    (hpcTail : ∀ k, Pc.tailTicket pc = some k → Pc.tailTicket (s.pc tid) = some k) :
    Recorded (s.set tid q pc event) := by
  have htickets (f : Event T → Option Nat) (hf : f .tryPushFalse = none)
      (hf' : f .tryPopFalse = none) :
      ticketsOf f (s.set tid q pc event).history = ticketsOf f s.history := by
    rw [ticketsOf_set]
    rcases hevent with rfl | rfl | rfl <;> simp [hf, hf']
  constructor
  case heads => rw [htickets _ rfl rfl, set_queue, hhead, h.heads]
  case tails => rw [htickets _ rfl rfl, set_queue, htail, h.tails]
  case headBy =>
    apply headBy_set h.headBy
    intro k hk
    obtain ⟨v, hv⟩ := h.headBy tid k (hpcHead k hk)
    exact ⟨v, mem_set_of_mem hv⟩
  case tailBy =>
    apply tailBy_set h.tailBy
    exact fun k hk => mem_set_of_mem (h.tailBy tid k (hpcTail k hk))
  case pushed =>
    intro k
    rw [pushed_set, set_queue, hturn k, ← h.pushed k]
    rcases hevent with rfl | rfl | rfl <;> simp
  case popped =>
    intro k
    rw [popped_set, set_queue, hturn k, ← h.popped k]
    rcases hevent with rfl | rfl | rfl <;> simp
  case returned =>
    apply returned_set h
    rcases hevent with rfl | rfl | rfl <;> simp
  case once =>
    rw [htickets _ rfl rfl]
    exact h.once

theorem Recorded.headTicket (h : Recorded s) {tid : Tid} {pc : Pc T} {v : T}
    (hpc : Pc.headTicket pc = some s.queue.head) (hpcTail : Pc.tailTicket pc = none) :
    Recorded (s.set tid (s.queue.setHead (s.queue.head + 1)) pc
      (some (.headTicket s.queue.head v))) := by
  constructor
  case heads =>
    rw [ticketsOf_set, h.heads, set_queue, setHead_head, List.range_succ]
    rfl
  case tails =>
    rw [ticketsOf_set, h.tails, set_queue, setHead_tail]
    exact List.append_nil _
  case headBy =>
    apply headBy_set h.headBy
    intro k hk
    rw [hpc, Option.some.injEq] at hk
    exact ⟨v, mem_set_history.mpr (Or.inr ⟨rfl, by rw [hk]⟩)⟩
  case tailBy =>
    apply tailBy_set h.tailBy
    intro k hk
    rw [hpcTail] at hk
    cases hk
  case pushed =>
    intro k
    rw [pushed_set, h.pushed k]
    simp
  case popped =>
    intro k
    rw [popped_set, h.popped k]
    simp
  case returned => exact returned_set h (by simp)
  case once =>
    rw [ticketsOf_set]
    simpa [Event.popped?] using h.once

theorem Recorded.tailTicket (h : Recorded s) {tid : Tid} {pc : Pc T}
    (hpc : Pc.tailTicket pc = some s.queue.tail) (hpcHead : Pc.headTicket pc = none) :
    Recorded (s.set tid (s.queue.setTail (s.queue.tail + 1)) pc
      (some (.tailTicket s.queue.tail))) := by
  constructor
  case heads =>
    rw [ticketsOf_set, h.heads, set_queue, setTail_head]
    exact List.append_nil _
  case tails =>
    rw [ticketsOf_set, h.tails, set_queue, setTail_tail, List.range_succ]
    rfl
  case headBy =>
    apply headBy_set h.headBy
    intro k hk
    rw [hpcHead] at hk
    cases hk
  case tailBy =>
    apply tailBy_set h.tailBy
    intro k hk
    rw [hpc, Option.some.injEq] at hk
    exact mem_set_history.mpr (Or.inr ⟨rfl, by rw [hk]⟩)
  case pushed =>
    intro k
    rw [pushed_set, h.pushed k]
    simp
  case popped =>
    intro k
    rw [popped_set, h.popped k]
    simp
  case returned => exact returned_set h (by simp)
  case once =>
    rw [ticketsOf_set]
    simpa [Event.popped?] using h.once

/-- Raising the turn of the slot of `k` from `n` to `n + 1` completes exactly
the ticket of that slot whose turn this is. -/
theorem turn_raised {q : AtomicQueue T c} {k l : Nat} {slot : Slot T} {b : Nat} (hb : b ≤ 1)
    (hold : (q.slotAt k).turn = turn c k * 2 + b) (hnew : slot.turn = turn c k * 2 + b + 1) :
    (turn c l * 2 + b + 1 ≤ ((q.setSlot k slot).slotAt l).turn ↔
      turn c l * 2 + b + 1 ≤ (q.slotAt l).turn ∨ k = l) ∧
    (turn c l * 2 + (1 - b) + 1 ≤ ((q.setSlot k slot).slotAt l).turn ↔
      turn c l * 2 + (1 - b) + 1 ≤ (q.slotAt l).turn) := by
  by_cases hl : l % c = k % c
  · rw [slotAt_setSlot_same _ _ hl, slotAt_congr q hl]
    by_cases hkl : k = l
    · subst hkl
      refine ⟨⟨fun _ => Or.inr rfl, fun _ => by omega⟩, ?_⟩
      constructor <;> intro h <;> omega
    · have hlap : turn c l ≠ turn c k := Lap.lap_ne hl (Ne.symm hkl)
      refine ⟨?_, ?_⟩
      · constructor
        · intro h
          left
          omega
        · rintro (h | h)
          · omega
          · exact absurd h hkl
      · constructor <;> intro h <;> omega
  · rw [slotAt_setSlot_other _ _ hl]
    refine ⟨⟨Or.inl, ?_⟩, Iff.rfl⟩
    rintro (h | h)
    · exact h
    · exact absurd (h ▸ rfl) hl

theorem Recorded.pushed_step (h : Recorded s) (hinv : Inv s) {tid : Tid} {mode : Mode} {k : Nat}
    (hpc : s.pc tid = .storePush mode k) :
    Recorded (s.set tid (s.queue.setSlot k ((s.queue.slotAt k).storeTurn (turn c k * 2 + 1)))
      .idle (some (.pushed k))) := by
  have hlocal := hinv.atPc tid
  rw [hpc] at hlocal
  have hraise (l : Nat) := turn_raised (l := l) (b := 0) (Nat.zero_le 1) hlocal.2.1
    (rfl : ((s.queue.slotAt k).storeTurn (turn c k * 2 + 1)).turn = turn c k * 2 + 1)
  constructor
  case heads =>
    rw [ticketsOf_set, h.heads, set_queue, setSlot_head]
    exact List.append_nil _
  case tails =>
    rw [ticketsOf_set, h.tails, set_queue, setSlot_tail]
    exact List.append_nil _
  case headBy => exact headBy_set h.headBy nofun
  case tailBy => exact tailBy_set h.tailBy nofun
  case pushed =>
    intro l
    rw [pushed_set, h.pushed l, set_queue]
    simpa using (hraise l).1.symm
  case popped =>
    intro l
    have hother : ¬ ∃ r, some (Event.pushed k) = some (Event.popped (T := T) l r) := by simp
    rw [popped_set, h.popped l, set_queue, or_iff_left hother]
    exact (hraise l).2.symm
  case returned => exact returned_set h (by simp)
  case once =>
    rw [ticketsOf_set]
    simpa [Event.popped?] using h.once

theorem Recorded.popped_step (h : Recorded s) (hinv : Inv s) {tid : Tid} {mode : Mode} {k : Nat}
    {r : Option T} (hpc : s.pc tid = .storePop mode k r) :
    Recorded (s.set tid (s.queue.setSlot k ((s.queue.slotAt k).storeTurn (turn c k * 2 + 2)))
      .idle (some (.popped k r))) := by
  have hlocal := hinv.atPc tid
  rw [hpc] at hlocal
  obtain ⟨_, hturn, _, v, hv, hr⟩ := hlocal
  have hraise (l : Nat) := turn_raised (l := l) (b := 1) (Nat.le_refl 1) hturn
    (rfl : ((s.queue.slotAt k).storeTurn (turn c k * 2 + 2)).turn = turn c k * 2 + 1 + 1)
  have hfresh : ¬ s.Popped k := by
    rw [h.popped k, hturn]
    omega
  constructor
  case heads =>
    rw [ticketsOf_set, h.heads, set_queue, setSlot_head]
    exact List.append_nil _
  case tails =>
    rw [ticketsOf_set, h.tails, set_queue, setSlot_tail]
    exact List.append_nil _
  case headBy => exact headBy_set h.headBy nofun
  case tailBy => exact tailBy_set h.tailBy nofun
  case pushed =>
    intro l
    rw [pushed_set, h.pushed l, set_queue]
    simpa using (hraise l).2.symm
  case popped =>
    intro l
    have hmine : (∃ r', some (Event.popped k r) = some (.popped l r')) ↔ k = l := by simp
    rw [popped_set, h.popped l, set_queue, hmine]
    exact (hraise l).1.symm
  case returned =>
    apply returned_set h
    intro l r' hmem
    simp only [Option.some.injEq, Event.popped.injEq] at hmem
    obtain ⟨rfl, rfl⟩ := hmem
    exact ⟨h.tailBy tid k (by rw [hpc]; rfl), v, hr, hv⟩
  case once =>
    rw [ticketsOf_set]
    apply List.Nodup.append h.once (List.nodup_singleton k)
    simp only [List.disjoint_singleton]
    intro hmem
    obtain ⟨⟨popper, e⟩, hentry, he⟩ := List.mem_filterMap.mp hmem
    cases e <;> simp only [Event.popped?, reduceCtorEq, Option.some.injEq] at he
    subst he
    exact hfresh ⟨popper, _, hentry⟩

theorem Recorded.advance (h : Recorded s) (hinv : Inv s) (tid : Tid) :
    Recorded (s.apply tid (AtomicQueue.advance .unbounded s.queue (s.pc tid))) := by
  have heffect := advance_effect s.queue (s.pc tid)
  unfold Effect at heffect
  generalize AtomicQueue.advance .unbounded s.queue (s.pc tid) = outcome at heffect ⊢
  obtain ⟨q, pc, event⟩ := outcome
  have hquiet (he : event = none ∨ event = some .tryPushFalse ∨ event = some .tryPopFalse)
      (hsame : q.head = s.queue.head ∧ q.tail = s.queue.tail ∧
        (∀ k, (q.slotAt k).turn = (s.queue.slotAt k).turn) ∧
        Pc.headTicket pc = Pc.headTicket (s.pc tid) ∧
        Pc.tailTicket pc = Pc.tailTicket (s.pc tid)) :
      Recorded (s.apply tid (q, pc, event)) := by
    obtain ⟨hhead, htail, hturn, hpcHead, hpcTail⟩ := hsame
    exact h.quiet he hhead htail hturn (fun k hk => hpcHead ▸ hk) (fun k hk => hpcTail ▸ hk)
  cases event with
  | none => exact hquiet (Or.inl rfl) heffect
  | some e =>
      cases e with
      | headTicket k v =>
          obtain ⟨rfl, rfl, hpc, hpcTail⟩ := heffect
          exact h.headTicket hpc hpcTail
      | tailTicket k =>
          obtain ⟨rfl, rfl, hpc, hpcHead⟩ := heffect
          exact h.tailTicket hpc hpcHead
      | pushed k =>
          obtain ⟨⟨mode, hpc⟩, rfl, rfl⟩ := heffect
          exact h.pushed_step hinv hpc
      | popped k r =>
          obtain ⟨⟨mode, hpc⟩, rfl, rfl⟩ := heffect
          exact h.popped_step hinv hpc
      | tryPushFalse => exact hquiet (Or.inr (Or.inl rfl)) heffect
      | tryPopFalse => exact hquiet (Or.inr (Or.inr rfl)) heffect

theorem reachable_recorded (h : (system Tid T c).Reachable s) : Recorded s := by
  apply (system Tid T c).invariant recorded_start _ h
  intro s a t hs hrec hstep
  rcases step_inv hstep with ⟨tid, call, _, hidle, rfl⟩ | ⟨tid, _, _, rfl⟩
  · refine hrec.quiet (Or.inl rfl) rfl rfl (fun _ => rfl) ?_ ?_
    · cases call <;> exact nofun
    · cases call <;> exact nofun
  · exact hrec.advance (reachable_inv hs) tid

end YkUtil.Exec.AtomicQueue
