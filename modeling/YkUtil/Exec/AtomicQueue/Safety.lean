import YkUtil.Lib.Records
import YkUtil.Exec.AtomicQueue.History

/-!
The queue delivers every value once and unchanged. Tickets pair each pop with
one push. A slot holds the value of its ticket from the end of the push until
the pop has read it, whatever the other threads do meanwhile.
-/

namespace YkUtil.Exec.AtomicQueue

open YkUtil.Lib

variable {Tid T : Type*} {c : Nat} [NeZero c] {s : System Tid T c}

theorem Recorded.written_unique (h : Recorded s) {k : Nat} {v w : T} (hv : s.Written k v)
    (hw : s.Written k w) : v = w := by
  obtain ⟨tid, hv⟩ := hv
  obtain ⟨tid', hw⟩ := hw
  have hnodup : (ticketsOf Event.headTicket? s.history).Nodup := by
    rw [h.heads]
    exact List.nodup_range
  have heq := eq_of_key_nodup hnodup hv hw rfl rfl
  simp only [Prod.mk.injEq, Event.headTicket.injEq, true_and] at heq
  exact heq.2

/-- A value that was pushed and not yet returned is in its slot, or in the
hands of the pop that has read it and is about to return it. -/
theorem value_kept (hinv : Inv s) (hrec : Recorded s) {k : Nat} {v : T} (hpushed : s.Pushed k)
    (hv : s.Written k v) : s.Popped k ∨ (s.queue.slotAt k).storage = some v ∨
      ∃ tid mode, s.pc tid = .storePop mode k (some v) := by
  by_cases hpopped : s.Popped k
  · exact Or.inl hpopped
  right
  rw [hrec.pushed k] at hpushed
  rw [hrec.popped k] at hpopped
  have hturn : (s.queue.slotAt k).turn = turn c k * 2 + 1 := by omega
  by_cases hholder : ∃ tid, Pc.tailTicket (s.pc tid) = some k ∧ Pc.inside (s.pc tid) ≠ none
  · obtain ⟨tid, hticket, hinside⟩ := hholder
    have hlocal := hinv.atPc tid
    cases hpc : s.pc tid <;> rw [hpc] at hticket hlocal <;>
      simp only [Pc.tailTicket, reduceCtorEq, Option.some.injEq] at hticket
    case popSpin => exact absurd (by rw [hpc]; rfl) hinside
    case extract mode l =>
      subst hticket
      obtain ⟨_, _, w, hw, hfull⟩ := hlocal
      rw [hrec.written_unique hw hv] at hfull
      exact Or.inl hfull
    case destroy mode l r =>
      subst hticket
      obtain ⟨_, _, w, hw, hfull, _⟩ := hlocal
      rw [hrec.written_unique hw hv] at hfull
      exact Or.inl hfull
    case storePop mode l r =>
      subst hticket
      obtain ⟨_, _, _, w, hw, hr⟩ := hlocal
      rw [hrec.written_unique hw hv] at hr
      exact Or.inr ⟨tid, mode, by rw [hpc, hr]⟩
  · left
    have hout : ∀ tid, Pc.tailTicket (s.pc tid) = some k → Pc.inside (s.pc tid) = none := by
      intro tid hticket
      by_contra hinside
      exact hholder ⟨tid, hticket, hinside⟩
    obtain ⟨w, hw, hfull⟩ := hinv.resting_odd hturn hout
    rw [hrec.written_unique hw hv] at hfull
    exact hfull

section Quiescent

variable (hinv : Inv s) (hq : s.Quiescent)
include hinv hq

theorem quiescent_pushed {k : Nat} (hk : k < s.queue.head) :
    turn c k * 2 + 1 ≤ (s.queue.slotAt k).turn := by
  rcases hinv.heldHead k hk with h | ⟨tid, h⟩
  · exact h
  · rw [hq tid] at h
    cases h

theorem quiescent_popped {k : Nat} (hk : k < s.queue.tail) :
    turn c k * 2 + 2 ≤ (s.queue.slotAt k).turn := by
  rcases hinv.heldTail k hk with h | ⟨tid, h⟩
  · exact h
  · rw [hq tid] at h
    cases h

theorem quiescent_tail_le_head : s.queue.tail ≤ s.queue.head := by
  rcases Nat.eq_zero_or_pos s.queue.tail with h | h
  · omega
  · have hpopped := quiescent_popped hinv hq (k := s.queue.tail - 1) (by omega)
    have := hinv.issuedHead (s.queue.tail - 1) (by omega)
    omega

theorem quiescent_head_le : s.queue.head ≤ s.queue.tail + c := by
  have hc : 0 < c := NeZero.pos c
  by_contra hlt
  have hck : c ≤ s.queue.head - 1 := by omega
  have hpushed := quiescent_pushed hinv hq (k := s.queue.head - 1) (by omega)
  have hlap : turn c (s.queue.head - 1 - c) = turn c (s.queue.head - 1) - 1 := Lap.lap_sub hc hck
  have hpos : 0 < turn c (s.queue.head - 1) := Lap.lap_pos_iff hc |>.mpr hck
  have hprev := hinv.issuedTail (s.queue.head - 1 - c) (by
    rw [slotAt_congr _ (Lap.slot_sub hck)]
    omega)
  omega

/-- Between the stored tickets and the next lap the slots are empty. -/
theorem quiescent_free {k : Nat} (hk : s.queue.head ≤ k) (hk' : k < s.queue.tail + c) :
    s.queue.slotAt k = {turn := turn c k * 2, storage := none} := by
  have hc : 0 < c := NeZero.pos c
  have hle := hinv.turn_le_of_head_le hk
  have hge : turn c k * 2 ≤ (s.queue.slotAt k).turn := by
    by_cases hck : c ≤ k
    · have hpopped := quiescent_popped hinv hq (k := k - c) (by omega)
      have hlap : turn c (k - c) = turn c k - 1 := Lap.lap_sub hc hck
      rw [slotAt_congr _ (Lap.slot_sub hck)] at hpopped
      omega
    · have hzero : turn c k = 0 := Nat.div_eq_of_lt (by omega)
      omega
  have hturn : (s.queue.slotAt k).turn = turn c k * 2 := by omega
  have hempty := hinv.resting_even hturn (fun tid _ => by rw [hq tid]; rfl)
  cases hslot : s.queue.slotAt k
  rw [hslot] at hturn hempty
  exact congrArg₂ Slot.mk hturn hempty

theorem quiescent_full {k : Nat} (hk : s.queue.tail ≤ k) (hk' : k < s.queue.head) :
    ∃ v, s.Written k v ∧
      s.queue.slotAt k = {turn := turn c k * 2 + 1, storage := some v} := by
  have hle := hinv.turn_le_of_tail_le hk
  have hge := quiescent_pushed hinv hq hk'
  have hturn : (s.queue.slotAt k).turn = turn c k * 2 + 1 := by omega
  obtain ⟨v, hv, hfull⟩ := hinv.resting_odd hturn (fun tid _ => by rw [hq tid]; rfl)
  refine ⟨v, hv, ?_⟩
  cases hslot : s.queue.slotAt k
  rw [hslot] at hturn hfull
  exact congrArg₂ Slot.mk hturn hfull

/-- The elements in the slots are those of the tickets between the counters. -/
theorem quiescent_stored (hrec : Recorded s) (i : Fin c) (v : T) :
    (s.queue.slots i).storage = some v ↔
      ∃ k, s.queue.tail ≤ k ∧ k < s.queue.head ∧ idx c k = i ∧ s.Written k v := by
  have hhead := quiescent_head_le hinv hq
  constructor
  · intro hstored
    obtain ⟨k, hk, hk', hslot⟩ := Lap.exists_in_window s.queue.tail i.isLt
    have hi : idx c k = i := Fin.ext hslot
    rw [← hi] at hstored
    by_cases hkh : k < s.queue.head
    · obtain ⟨w, hw, hfull⟩ := quiescent_full hinv hq hk hkh
      have hvw : some w = some v := by
        rw [← hstored]
        exact (congrArg Slot.storage hfull).symm
      exact ⟨k, hk, hkh, hi, Option.some.inj hvw ▸ hw⟩
    · have hfree := quiescent_free hinv hq (Nat.le_of_not_lt hkh) hk'
      have hnone : (s.queue.slots (idx c k)).storage = none := congrArg Slot.storage hfree
      rw [hnone] at hstored
      cases hstored
  · rintro ⟨k, hk, hk', rfl, hv⟩
    obtain ⟨w, hw, hfull⟩ := quiescent_full hinv hq hk hk'
    rw [← hrec.written_unique hw hv]
    exact congrArg Slot.storage hfull

end Quiescent

variable [DecidableEq Tid]

/-- For every capacity, any number of threads and any interleaving: a pop
returns the value written with the head ticket of the same number. Both kinds
of ticket are issued once each and in order, no ticket is returned twice, no
pushed value is lost before it is returned, and when no operation is in flight
the stored values are those of the tickets from `tail` to `head`. -/
theorem pop_returns_pushed (h : (system Tid T c).Reachable s) :
    (∀ tid k r, (tid, .popped k r) ∈ s.history →
      (tid, .tailTicket k) ∈ s.history ∧ ∃ v, r = some v ∧ s.Written k v) ∧
    (∀ k v w, s.Written k v → s.Written k w → v = w) ∧
    ticketsOf Event.headTicket? s.history = List.range s.queue.head ∧
    ticketsOf Event.tailTicket? s.history = List.range s.queue.tail ∧
    (ticketsOf Event.popped? s.history).Nodup ∧
    (∀ k v, s.Pushed k → s.Written k v → s.Popped k ∨
      (s.queue.slotAt k).storage = some v ∨
      ∃ tid mode, s.pc tid = .storePop mode k (some v)) ∧
    (s.Quiescent → s.queue.tail ≤ s.queue.head ∧ s.queue.head ≤ s.queue.tail + c ∧
      ∀ i v, (s.queue.slots i).storage = some v ↔
        ∃ k, s.queue.tail ≤ k ∧ k < s.queue.head ∧ idx c k = i ∧ s.Written k v) := by
  have hinv := reachable_inv h
  have hrec := reachable_recorded h
  refine ⟨hrec.returned, fun k v w => hrec.written_unique, hrec.heads, hrec.tails, hrec.once,
    fun k v => value_kept hinv hrec, fun hq => ?_⟩
  exact ⟨quiescent_tail_le_head hinv hq, quiescent_head_le hinv hq,
    quiescent_stored hinv hq hrec⟩

/-- On a queue of capacity one: a pop takes its ticket before any push, spins,
and returns the value of the push that comes later. -/
theorem pop_returns_pushed_early_pop :
    ∃ s, (system (Fin 2) Nat 1).Reaches
      [.invoke 1 .pop, .tick 1, .tick 1, .invoke 0 (.push 7), .tick 0, .tick 0, .tick 0,
        .tick 0, .tick 1, .tick 1, .tick 1, .tick 1] s ∧
      (1, .popped 0 (some 7)) ∈ s.history ∧ s.Written 0 7 := by
  obtain ⟨s, hrun, hhistory⟩ := (system (Fin 2) Nat 1).exists_of_map
    [.invoke 1 .pop, .tick 1, .tick 1, .invoke 0 (.push 7), .tick 0, .tick 0,
      .tick 0, .tick 0, .tick 1, .tick 1, .tick 1, .tick 1] System.history rfl
  have hpopped : (1, .popped 0 (some 7)) ∈ s.history := by
    rw [hhistory]
    decide
  obtain ⟨_, v, hv, hwritten⟩ := (pop_returns_pushed hrun.reachable).1 1 0 (some 7) hpopped
  have hseven : v = 7 := (Option.some.inj hv).symm
  exact ⟨s, hrun, hpopped, hseven ▸ hwritten⟩

end YkUtil.Exec.AtomicQueue
