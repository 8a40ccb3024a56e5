import Mathlib.Tactic.Ring
import YkUtil.Lib.Lap
import YkUtil.Exec.AtomicQueue.Concurrent

/-!
The invariant holds in every interleaving. Steps that leave the slots alone
(loads, checks, ticket counters) and steps that write the slot the thread is
inside of are treated by one rule each; what a thread relies on survives the
steps of the others because no two threads are inside one slot.
-/

namespace YkUtil.Exec.AtomicQueue

open YkUtil.Lib

variable {Tid T : Type*} {c : Nat} {s t : System Tid T c}

section Set

variable [DecidableEq Tid] (s : System Tid T c) (tid : Tid) (q : AtomicQueue T c) (pc : Pc T)
  (event : Option (Event T))

@[simp] theorem set_queue : (s.set tid q pc event).queue = q := rfl

@[simp] theorem set_pc_self : (s.set tid q pc event).pc tid = pc := by
  simp [System.set]

theorem set_pc_other {other : Tid} (h : other ≠ tid) :
    (s.set tid q pc event).pc other = s.pc other := by
  simp [System.set, h]

theorem set_history : (s.set tid q pc event).history =
    s.history ++ event.toList.map (fun e => (tid, e)) := rfl

theorem written_set {k : Nat} {v : T} (h : s.Written k v) :
    (s.set tid q pc event).Written k v := by
  obtain ⟨writer, hw⟩ := h
  exact ⟨writer, by rw [set_history]; exact List.mem_append_left _ hw⟩

theorem written_set_ticket (k : Nat) (v : T) :
    (s.set tid q pc (some (.headTicket k v))).Written k v :=
  ⟨tid, by simp [set_history]⟩

variable {s tid q pc event}

/-- Tickets stay unique when one thread moves to a program counter whose
ticket nobody else holds. -/
theorem unique_set {f : Pc T → Option Nat}
    (h : ∀ a b k, f (s.pc a) = some k → f (s.pc b) = some k → a = b)
    (hnew : ∀ k, f pc = some k → ∀ other, other ≠ tid → f (s.pc other) ≠ some k) :
    ∀ a b k, f ((s.set tid q pc event).pc a) = some k →
      f ((s.set tid q pc event).pc b) = some k → a = b := by
  intro a b k ha hb
  by_cases hat : a = tid
  · by_cases hbt : b = tid
    · rw [hat, hbt]
    · rw [set_pc_other _ _ _ _ _ hbt] at hb
      rw [hat, set_pc_self] at ha
      exact absurd hb (hnew k ha b hbt)
  · rw [set_pc_other _ _ _ _ _ hat] at ha
    by_cases hbt : b = tid
    · rw [hbt, set_pc_self] at hb
      exact absurd ha (hnew k hb a hat)
    · rw [set_pc_other _ _ _ _ _ hbt] at hb
      exact h a b k ha hb

/-- A ticket stays held when its holder keeps it, and is done otherwise. -/
theorem held_set {f : Pc T → Option Nat} {k : Nat} {done : Prop}
    (h : ∃ holder, f (s.pc holder) = some k)
    (hkeep : f (s.pc tid) = some k → f pc = some k ∨ done) :
    done ∨ ∃ holder, f ((s.set tid q pc event).pc holder) = some k := by
  obtain ⟨holder, hholder⟩ := h
  by_cases heq : holder = tid
  · rw [heq] at hholder
    rcases hkeep hholder with hkept | hdone
    · exact Or.inr ⟨tid, by rw [set_pc_self]; exact hkept⟩
    · exact Or.inl hdone
  · exact Or.inr ⟨holder, by rw [set_pc_other _ _ _ _ _ heq]; exact hholder⟩

/-- What holds of the moved thread and of each of the others holds of all. -/
theorem forall_set {P : Pc T → Prop} (hself : P pc)
    (hothers : ∀ other, other ≠ tid → P (s.pc other)) :
    ∀ other, P ((s.set tid q pc event).pc other) := by
  intro other
  by_cases heq : other = tid
  · rw [heq, set_pc_self]
    exact hself
  · rw [set_pc_other _ _ _ _ _ heq]
    exact hothers other heq

end Set

variable [NeZero c]

/-- A thread is inside a slot as the holder of a head or of a tail ticket, and
the slot's turn then names that ticket. -/
theorem inside_ticket {pc : Pc T} {k : Nat} (hpc : Local s pc)
    (h : Pc.inside pc = some k) :
    (Pc.headTicket pc = some k ∧ (s.queue.slotAt k).turn = turn c k * 2) ∨
    (Pc.tailTicket pc = some k ∧ (s.queue.slotAt k).turn = turn c k * 2 + 1) := by
  cases pc <;> simp only [Pc.inside, reduceCtorEq, Option.some.injEq] at h
  all_goals subst h
  all_goals simp only [Local] at hpc
  all_goals simp [Pc.headTicket, Pc.tailTicket, hpc]

theorem Local.headTicket_lt {pc : Pc T} {k : Nat} (hpc : Local s pc)
    (h : Pc.headTicket pc = some k) : k < s.queue.head := by
  cases pc <;> simp only [Pc.headTicket, reduceCtorEq, Option.some.injEq] at h
  all_goals subst h
  all_goals exact hpc.1

theorem Local.tailTicket_lt {pc : Pc T} {k : Nat} (hpc : Local s pc)
    (h : Pc.tailTicket pc = some k) : k < s.queue.tail := by
  cases pc <;> simp only [Pc.tailTicket, reduceCtorEq, Option.some.injEq] at h
  all_goals subst h
  all_goals exact hpc.1

/-- Mutual exclusion on a slot: the turn names the ticket, and the ticket its
holder. -/
theorem Inv.inside_unique (h : Inv s) {tid tid' : Tid} {k k' : Nat}
    (hk : Pc.inside (s.pc tid) = some k) (hk' : Pc.inside (s.pc tid') = some k')
    (hslot : k % c = k' % c) : tid = tid' := by
  have hsame : s.queue.slotAt k = s.queue.slotAt k' := slotAt_congr _ hslot
  have hticket : turn c k = turn c k' → k = k' := Lap.ticket_eq hslot
  rcases inside_ticket (h.atPc tid) hk with ⟨hh, hturn⟩ | ⟨hh, hturn⟩
  · rcases inside_ticket (h.atPc tid') hk' with ⟨hh', hturn'⟩ | ⟨hh', hturn'⟩
    · rw [hsame] at hturn
      have heq : k = k' := hticket (by omega)
      subst heq
      exact h.uniqueHead tid tid' k hh hh'
    · rw [hsame] at hturn
      omega
  · rcases inside_ticket (h.atPc tid') hk' with ⟨hh', hturn'⟩ | ⟨hh', hturn'⟩
    · rw [hsame] at hturn
      omega
    · rw [hsame] at hturn
      have heq : k = k' := hticket (by omega)
      subst heq
      exact h.uniqueTail tid tid' k hh hh'

/-- What a thread relies on survives a step that keeps the slot it is inside
of, only raises counters and turns, and does not pass a ticket it waits for. -/
theorem Local.frame {pc : Pc T} (h : Local s pc)
    (hhead : s.queue.head ≤ t.queue.head) (htail : s.queue.tail ≤ t.queue.tail)
    (hwritten : ∀ k v, s.Written k v → t.Written k v)
    (hmono : ∀ k, (s.queue.slotAt k).turn ≤ (t.queue.slotAt k).turn)
    (hinside : ∀ k, Pc.inside pc = some k → t.queue.slotAt k = s.queue.slotAt k)
    (hpush : ∀ k, Pc.headTicket pc = some k →
      (s.queue.slotAt k).turn ≤ turn c k * 2 → (t.queue.slotAt k).turn ≤ turn c k * 2)
    (hpop : ∀ k, Pc.tailTicket pc = some k →
      (s.queue.slotAt k).turn ≤ turn c k * 2 + 1 →
        (t.queue.slotAt k).turn ≤ turn c k * 2 + 1) : Local t pc := by
  cases pc with
  | idle | pushFetchAdd | tryPushLoad | popFetchAdd | tryPopLoad => trivial
  | pushSpin v k =>
      obtain ⟨hk, hv, hturn⟩ := h
      exact ⟨by omega, hwritten k v hv, hpush k rfl hturn⟩
  | tryPushCheck v k | tryPushReload v k => exact Nat.le_trans h hhead
  | tryPushCas v k => exact ⟨Nat.le_trans h.1 hhead, Nat.le_trans h.2 (hmono k)⟩
  | construct mode v k =>
      obtain ⟨hk, hv, hturn, hempty⟩ := h
      have hslot := hinside k rfl
      exact ⟨by omega, hwritten k v hv, by rw [hslot]; exact hturn, by rw [hslot]; exact hempty⟩
  | storePush mode k =>
      obtain ⟨hk, hturn, v, hv, hfull⟩ := h
      have hslot := hinside k rfl
      exact ⟨by omega, by rw [hslot]; exact hturn, v, hwritten k v hv,
        by rw [hslot]; exact hfull⟩
  | popSpin k => exact ⟨Nat.lt_of_lt_of_le h.1 htail, hpop k rfl h.2⟩
  | tryPopCheck k | tryPopReload k => exact Nat.le_trans h htail
  | tryPopCas k => exact ⟨Nat.le_trans h.1 htail, Nat.le_trans h.2 (hmono k)⟩
  | extract mode k =>
      obtain ⟨hk, hturn, v, hv, hfull⟩ := h
      have hslot := hinside k rfl
      exact ⟨by omega, by rw [hslot]; exact hturn, v, hwritten k v hv,
        by rw [hslot]; exact hfull⟩
  | destroy mode k r =>
      obtain ⟨hk, hturn, v, hv, hfull, hr⟩ := h
      have hslot := hinside k rfl
      exact ⟨by omega, by rw [hslot]; exact hturn, v, hwritten k v hv,
        by rw [hslot]; exact hfull, hr⟩
  | storePop mode k r =>
      obtain ⟨hk, hturn, hempty, v, hv, hr⟩ := h
      have hslot := hinside k rfl
      exact ⟨by omega, by rw [hslot]; exact hturn, by rw [hslot]; exact hempty, v,
        hwritten k v hv, hr⟩

/-- Whoever is inside a slot whose turn is one of the two of a ticket is there
for that ticket. -/
theorem Inv.inside_eq (h : Inv s) {tid : Tid} {k l b : Nat} (hb : b ≤ 1)
    (hturn : (s.queue.slotAt k).turn = turn c k * 2 + b) (hl : Pc.inside (s.pc tid) = some l)
    (hslot : l % c = k % c) : l = k := by
  have hsame : s.queue.slotAt l = s.queue.slotAt k := slotAt_congr _ hslot
  apply Lap.ticket_eq hslot
  rcases inside_ticket (h.atPc tid) hl with ⟨_, hturn'⟩ | ⟨_, hturn'⟩
  · rw [hsame, hturn] at hturn'
    unfold turn at hturn'
    omega
  · rw [hsame, hturn] at hturn'
    unfold turn at hturn'
    omega

/-- With an even turn nobody but the holder of its head ticket can be inside. -/
theorem Inv.resting_even (h : Inv s) {k : Nat}
    (hturn : (s.queue.slotAt k).turn = turn c k * 2)
    (hout : ∀ tid, Pc.headTicket (s.pc tid) = some k → Pc.inside (s.pc tid) = none) :
    (s.queue.slotAt k).storage = none := by
  refine (h.resting k ?_).1 hturn
  intro tid l hl hslot
  obtain rfl := h.inside_eq (Nat.zero_le 1) hturn hl hslot
  rcases inside_ticket (h.atPc tid) hl with ⟨hticket, _⟩ | ⟨_, hturn'⟩
  · rw [hout tid hticket] at hl
    cases hl
  · omega

/-- With an odd turn nobody but the holder of its tail ticket can be inside. -/
theorem Inv.resting_odd (h : Inv s) {k : Nat}
    (hturn : (s.queue.slotAt k).turn = turn c k * 2 + 1)
    (hout : ∀ tid, Pc.tailTicket (s.pc tid) = some k → Pc.inside (s.pc tid) = none) :
    ∃ v, s.Written k v ∧ (s.queue.slotAt k).storage = some v := by
  refine (h.resting k ?_).2 hturn
  intro tid l hl hslot
  obtain rfl := h.inside_eq (Nat.le_refl 1) hturn hl hslot
  rcases inside_ticket (h.atPc tid) hl with ⟨_, hturn'⟩ | ⟨hticket, _⟩
  · omega
  · rw [hout tid hticket] at hl
    cases hl

theorem inv_start : Inv (start Tid T c) := by
  have hturn (k : Nat) : ((start Tid T c).queue.slotAt k).turn = 0 := rfl
  constructor
  case atPc => exact fun tid => trivial
  case uniqueHead | uniqueTail => exact fun tid tid' k hk => by cases hk
  case issuedHead | issuedTail =>
    intro k hk
    rw [hturn] at hk
    omega
  case heldHead | heldTail => exact fun k hk => absurd hk (Nat.not_lt_zero k)
  case resting =>
    intro k _
    refine ⟨fun _ => rfl, fun hk => ?_⟩
    rw [hturn] at hk
    omega

variable [DecidableEq Tid]

/-- What one action does: a call starts, or one thread takes its next step. -/
theorem step_inv {z : SizeT} {a : Action Tid T} (h : step z s a = some t) :
    (∃ tid call, a = .invoke tid call ∧ s.pc tid = .idle ∧
      t = s.set tid s.queue (Call.start call) none) ∨
    ∃ tid, a = .tick tid ∧ s.pc tid ≠ .idle ∧
      t = s.apply tid (advance z s.queue (s.pc tid)) := by
  cases a with
  | invoke tid call =>
      left
      simp only [step] at h
      split at h
      · rename_i hidle
        exact ⟨tid, call, rfl, hidle, (Option.some.inj h).symm⟩
      · cases h
  | tick tid =>
      right
      simp only [step] at h
      split at h
      · cases h
      · rename_i hbusy
        exact ⟨tid, rfl, hbusy, (Option.some.inj h).symm⟩

/-- A slot that nobody touches stays at rest. -/
theorem Resting.set {tid : Tid} {q : AtomicQueue T c} {pc : Pc T} {event : Option (Event T)}
    {k : Nat} (h : Resting s k) (hslot : q.slotAt k = s.queue.slotAt k) :
    Resting (s.set tid q pc event) k := by
  unfold Resting
  rw [set_queue, hslot]
  refine ⟨h.1, fun hk => ?_⟩
  obtain ⟨v, hv, hfull⟩ := h.2 hk
  exact ⟨v, written_set s tid q pc event hv, hfull⟩

/-- A slot that nobody is inside of after the step, nor the thread before it. -/
theorem Inv.resting_set (h : Inv s) {tid : Tid} {q : AtomicQueue T c} {pc : Pc T}
    {event : Option (Event T)} {k : Nat}
    (hself : ∀ l, Pc.inside (s.pc tid) = some l → l % c ≠ k % c)
    (hout : ∀ other l, Pc.inside ((s.set tid q pc event).pc other) = some l → l % c ≠ k % c)
    (hslot : q.slotAt k = s.queue.slotAt k) : Resting (s.set tid q pc event) k := by
  have hrest : Resting s k := by
    apply h.resting k
    intro other l hl
    by_cases heq : other = tid
    · rw [heq] at hl
      exact hself l hl
    · apply hout other l
      rw [set_pc_other _ _ _ _ _ heq]
      exact hl
  exact hrest.set hslot

/-- The rule for steps that leave the slots alone. The thread keeps its
tickets, and the tickets between the old and the new counters become its own. -/
theorem Inv.sameSlots (h : Inv s) {tid : Tid} {q : AtomicQueue T c} {pc : Pc T}
    {event : Option (Event T)} (hslots : q.slots = s.queue.slots)
    (hhead : s.queue.head ≤ q.head) (htail : s.queue.tail ≤ q.tail)
    (hlocal : Local (s.set tid q pc event) pc)
    (huniqueHead : ∀ k, Pc.headTicket pc = some k →
      Pc.headTicket (s.pc tid) = some k ∨ s.queue.head ≤ k)
    (huniqueTail : ∀ k, Pc.tailTicket pc = some k →
      Pc.tailTicket (s.pc tid) = some k ∨ s.queue.tail ≤ k)
    (hkeepHead : ∀ k, Pc.headTicket (s.pc tid) = some k → Pc.headTicket pc = some k)
    (hkeepTail : ∀ k, Pc.tailTicket (s.pc tid) = some k → Pc.tailTicket pc = some k)
    (hnewHead : ∀ k, s.queue.head ≤ k → k < q.head → Pc.headTicket pc = some k)
    (hnewTail : ∀ k, s.queue.tail ≤ k → k < q.tail → Pc.tailTicket pc = some k)
    (hinside : ∀ k, Pc.inside (s.pc tid) = some k → Pc.inside pc = some k) :
    Inv (s.set tid q pc event) := by
  have hslot (k : Nat) : q.slotAt k = s.queue.slotAt k := by
    simp only [slotAt, hslots]
  have hothers (other : Tid) (hne : other ≠ tid) :
      Local (s.set tid q pc event) (s.pc other) := by
    apply (h.atPc other).frame hhead htail
    · exact fun k v hv => written_set s tid q pc event hv
    · intro k
      rw [set_queue, hslot k]
    · exact fun k _ => hslot k
    · intro k _ hk
      rwa [set_queue, hslot k]
    · intro k _ hk
      rwa [set_queue, hslot k]
  constructor
  case atPc => exact forall_set hlocal hothers
  case uniqueHead =>
    apply unique_set h.uniqueHead
    intro k hk other hne hother
    rcases huniqueHead k hk with hold | hnew
    · exact hne (h.uniqueHead other tid k hother hold)
    · have := (h.atPc other).headTicket_lt hother
      omega
  case uniqueTail =>
    apply unique_set h.uniqueTail
    intro k hk other hne hother
    rcases huniqueTail k hk with hold | hnew
    · exact hne (h.uniqueTail other tid k hother hold)
    · have := (h.atPc other).tailTicket_lt hother
      omega
  case issuedHead =>
    intro k hk
    rw [set_queue, hslot k] at hk
    exact Nat.lt_of_lt_of_le (h.issuedHead k hk) hhead
  case issuedTail =>
    intro k hk
    rw [set_queue, hslot k] at hk
    exact Nat.lt_of_lt_of_le (h.issuedTail k hk) htail
  case heldHead =>
    intro k hk
    rw [set_queue, hslot k]
    by_cases hold : k < s.queue.head
    · rcases h.heldHead k hold with hdone | hheld
      · exact Or.inl hdone
      · exact held_set hheld fun hk => Or.inl (hkeepHead k hk)
    · exact Or.inr ⟨tid, by rw [set_pc_self]; exact hnewHead k (by omega) hk⟩
  case heldTail =>
    intro k hk
    rw [set_queue, hslot k]
    by_cases hold : k < s.queue.tail
    · rcases h.heldTail k hold with hdone | hheld
      · exact Or.inl hdone
      · exact held_set hheld fun hk => Or.inl (hkeepTail k hk)
    · exact Or.inr ⟨tid, by rw [set_pc_self]; exact hnewTail k (by omega) hk⟩
  case resting =>
    intro k hout
    apply h.resting_set _ hout (hslot k)
    intro l hl
    apply hout tid l
    rw [set_pc_self]
    exact hinside l hl

/-- A bound on a turn is kept where it is kept for the slot that is written. -/
theorem turn_setSlot_le {q : AtomicQueue T c} {k₀ k bound : Nat} {slot : Slot T}
    (hkeep : k % c = k₀ % c → (q.slotAt k₀).turn ≤ bound → slot.turn ≤ bound)
    (hturn : (q.slotAt k).turn ≤ bound) : ((q.setSlot k₀ slot).slotAt k).turn ≤ bound := by
  by_cases hslot : k % c = k₀ % c
  · rw [slotAt_setSlot_same _ _ hslot]
    rw [slotAt_congr q hslot] at hturn
    exact hkeep hslot hturn
  · rw [slotAt_setSlot_other _ _ hslot]
    exact hturn

/-- The rule for steps that write the slot the thread is inside of. A ticket
the thread gives up is done by the slot's new turn. -/
theorem Inv.changeSlot (h : Inv s) {tid : Tid} {k₀ : Nat} {slot : Slot T} {pc : Pc T}
    {event : Option (Event T)} (hin : Pc.inside (s.pc tid) = some k₀)
    (hmono : (s.queue.slotAt k₀).turn ≤ slot.turn)
    (hlocal : Local (s.set tid (s.queue.setSlot k₀ slot) pc event) pc)
    (hpush : ∀ k, k % c = k₀ % c → Pc.headTicket (s.pc tid) ≠ some k →
      (s.queue.slotAt k₀).turn ≤ turn c k * 2 → slot.turn ≤ turn c k * 2)
    (hpop : ∀ k, k % c = k₀ % c → Pc.tailTicket (s.pc tid) ≠ some k →
      (s.queue.slotAt k₀).turn ≤ turn c k * 2 + 1 → slot.turn ≤ turn c k * 2 + 1)
    (holdHead : ∀ k, Pc.headTicket pc = some k → Pc.headTicket (s.pc tid) = some k)
    (holdTail : ∀ k, Pc.tailTicket pc = some k → Pc.tailTicket (s.pc tid) = some k)
    (hdoneHead : ∀ k, Pc.headTicket (s.pc tid) = some k →
      Pc.headTicket pc = some k ∨ k = k₀ ∧ turn c k₀ * 2 + 1 ≤ slot.turn)
    (hdoneTail : ∀ k, Pc.tailTicket (s.pc tid) = some k →
      Pc.tailTicket pc = some k ∨ k = k₀ ∧ turn c k₀ * 2 + 2 ≤ slot.turn)
    (hissuedHead : ∀ k, k % c = k₀ % c → turn c k * 2 + 1 ≤ slot.turn → k < s.queue.head)
    (hissuedTail : ∀ k, k % c = k₀ % c → turn c k * 2 + 2 ≤ slot.turn → k < s.queue.tail)
    (hrest : Pc.inside pc = some k₀ ∨ ∀ k, k % c = k₀ % c →
      Resting (s.set tid (s.queue.setSlot k₀ slot) pc event) k) :
    Inv (s.set tid (s.queue.setSlot k₀ slot) pc event) := by
  have hsame {k : Nat} (hk : k % c = k₀ % c) : s.queue.slotAt k = s.queue.slotAt k₀ :=
    slotAt_congr _ hk
  have hthis {k : Nat} (hk : k % c = k₀ % c) : (s.queue.setSlot k₀ slot).slotAt k = slot :=
    slotAt_setSlot_same _ _ hk
  have hother {k : Nat} (hk : k % c ≠ k₀ % c) :
      (s.queue.setSlot k₀ slot).slotAt k = s.queue.slotAt k :=
    slotAt_setSlot_other _ _ hk
  have hraise (k : Nat) :
      (s.queue.slotAt k).turn ≤ ((s.queue.setSlot k₀ slot).slotAt k).turn := by
    by_cases hk : k % c = k₀ % c
    · rw [hthis hk, hsame hk]
      exact hmono
    · rw [hother hk]
  have hothers (other : Tid) (hne : other ≠ tid) :
      Local (s.set tid (s.queue.setSlot k₀ slot) pc event) (s.pc other) := by
    apply (h.atPc other).frame
    · exact Nat.le_refl _
    · exact Nat.le_refl _
    · exact fun k v hv => written_set s tid _ pc event hv
    · exact hraise
    · intro k hk
      apply hother
      intro hslot
      exact hne (h.inside_unique hk hin hslot)
    · intro k hk hturn
      apply turn_setSlot_le _ hturn
      intro hslot
      exact hpush k hslot fun hold => hne (h.uniqueHead other tid k hk hold)
    · intro k hk hturn
      apply turn_setSlot_le _ hturn
      intro hslot
      exact hpop k hslot fun hold => hne (h.uniqueTail other tid k hk hold)
  constructor
  case atPc => exact forall_set hlocal hothers
  case uniqueHead =>
    apply unique_set h.uniqueHead
    exact fun k hk other hne hheld => hne (h.uniqueHead other tid k hheld (holdHead k hk))
  case uniqueTail =>
    apply unique_set h.uniqueTail
    exact fun k hk other hne hheld => hne (h.uniqueTail other tid k hheld (holdTail k hk))
  case issuedHead =>
    intro k hk
    by_cases hslot : k % c = k₀ % c
    · rw [set_queue, hthis hslot] at hk
      exact hissuedHead k hslot hk
    · rw [set_queue, hother hslot] at hk
      exact h.issuedHead k hk
  case issuedTail =>
    intro k hk
    by_cases hslot : k % c = k₀ % c
    · rw [set_queue, hthis hslot] at hk
      exact hissuedTail k hslot hk
    · rw [set_queue, hother hslot] at hk
      exact h.issuedTail k hk
  case heldHead =>
    intro k hk
    rcases h.heldHead k hk with hdone | hheld
    · exact Or.inl (Nat.le_trans hdone (hraise k))
    · refine held_set hheld fun hticket => (hdoneHead k hticket).imp_right ?_
      rintro ⟨rfl, hdone⟩
      rw [set_queue, slotAt_setSlot_self]
      exact hdone
  case heldTail =>
    intro k hk
    rcases h.heldTail k hk with hdone | hheld
    · exact Or.inl (Nat.le_trans hdone (hraise k))
    · refine held_set hheld fun hticket => (hdoneTail k hticket).imp_right ?_
      rintro ⟨rfl, hdone⟩
      rw [set_queue, slotAt_setSlot_self]
      exact hdone
  case resting =>
    intro k hout
    by_cases hslot : k % c = k₀ % c
    · rcases hrest with hstays | hrest
      · exact absurd hslot.symm (hout tid k₀ (by rw [set_pc_self]; exact hstays))
      · exact hrest k hslot
    · apply h.resting_set _ hout (hother hslot)
      intro l hl
      rw [hin, Option.some.injEq] at hl
      rw [← hl]
      exact fun e => hslot e.symm

/-- Steps that change neither the queue nor the tickets of the thread. They
may take it into a slot. -/
theorem Inv.quiet (h : Inv s) {tid : Tid} {pc : Pc T} {event : Option (Event T)}
    (hlocal : Local s pc) (hhead : Pc.headTicket pc = Pc.headTicket (s.pc tid))
    (htail : Pc.tailTicket pc = Pc.tailTicket (s.pc tid))
    (hinside : ∀ k, Pc.inside (s.pc tid) = some k → Pc.inside pc = some k) :
    Inv (s.set tid s.queue pc event) := by
  have hlocal' : Local (s.set tid s.queue pc event) pc := by
    apply hlocal.frame
    · exact Nat.le_refl _
    · exact Nat.le_refl _
    · exact fun k v hv => written_set s tid s.queue pc event hv
    · exact fun k => Nat.le_refl _
    · exact fun k _ => rfl
    · exact fun k _ hk => hk
    · exact fun k _ hk => hk
  apply h.sameSlots rfl (Nat.le_refl _) (Nat.le_refl _) hlocal'
  · exact fun k hk => Or.inl (hhead ▸ hk)
  · exact fun k hk => Or.inl (htail ▸ hk)
  · exact fun k hk => hhead ▸ hk
  · exact fun k hk => htail ▸ hk
  · exact fun k hk hk' => absurd hk (Nat.not_le_of_lt hk')
  · exact fun k hk hk' => absurd hk (Nat.not_le_of_lt hk')
  · exact hinside

/-- The next head ticket is taken by a thread that holds none. -/
theorem Inv.issueHead (h : Inv s) {tid : Tid} {pc : Pc T} {v : T}
    (hhead : Pc.headTicket pc = some s.queue.head) (htail : Pc.tailTicket pc = none)
    (holdHead : Pc.headTicket (s.pc tid) = none) (holdTail : Pc.tailTicket (s.pc tid) = none)
    (hout : Pc.inside (s.pc tid) = none)
    (hlocal : Local (s.set tid (s.queue.setHead (s.queue.head + 1)) pc
      (some (.headTicket s.queue.head v))) pc) :
    Inv (s.set tid (s.queue.setHead (s.queue.head + 1)) pc
      (some (.headTicket s.queue.head v))) := by
  refine h.sameSlots rfl (Nat.le_succ _) (Nat.le_refl _) hlocal ?_ ?_ ?_ ?_ ?_ ?_ ?_
  · intro k hk
    rw [hhead, Option.some.injEq] at hk
    exact Or.inr (Nat.le_of_eq hk)
  · intro k hk
    rw [htail] at hk
    cases hk
  · intro k hk
    rw [holdHead] at hk
    cases hk
  · intro k hk
    rw [holdTail] at hk
    cases hk
  · intro k hk hk'
    have heq : s.queue.head = k := by
      rw [setHead_head] at hk'
      omega
    rw [hhead, heq]
  · exact fun k hk hk' => absurd hk (Nat.not_le_of_lt hk')
  · intro k hk
    rw [hout] at hk
    cases hk

/-- The next tail ticket is taken by a thread that holds none. -/
theorem Inv.issueTail (h : Inv s) {tid : Tid} {pc : Pc T}
    (htail : Pc.tailTicket pc = some s.queue.tail) (hhead : Pc.headTicket pc = none)
    (holdHead : Pc.headTicket (s.pc tid) = none) (holdTail : Pc.tailTicket (s.pc tid) = none)
    (hout : Pc.inside (s.pc tid) = none)
    (hlocal : Local (s.set tid (s.queue.setTail (s.queue.tail + 1)) pc
      (some (.tailTicket s.queue.tail))) pc) :
    Inv (s.set tid (s.queue.setTail (s.queue.tail + 1)) pc
      (some (.tailTicket s.queue.tail))) := by
  refine h.sameSlots rfl (Nat.le_refl _) (Nat.le_succ _) hlocal ?_ ?_ ?_ ?_ ?_ ?_ ?_
  · intro k hk
    rw [hhead] at hk
    cases hk
  · intro k hk
    rw [htail, Option.some.injEq] at hk
    exact Or.inr (Nat.le_of_eq hk)
  · intro k hk
    rw [holdHead] at hk
    cases hk
  · intro k hk
    rw [holdTail] at hk
    cases hk
  · exact fun k hk hk' => absurd hk (Nat.not_le_of_lt hk')
  · intro k hk hk'
    have heq : s.queue.tail = k := by
      rw [setTail_tail] at hk'
      omega
    rw [htail, heq]
  · intro k hk
    rw [hout] at hk
    cases hk

end YkUtil.Exec.AtomicQueue
