import YkUtil.Exec.AtomicQueue.Safety

/-!
Element lifetimes. The turn numbers are the only lock of a slot: whoever wins
a ticket with a matching turn has the slot to itself until its own turn store,
so elements are built in empty slots and taken out of full ones, and the turn
left behind tells the destructor which slots are full.
-/

namespace YkUtil.Exec.AtomicQueue

open YkUtil.Lib

variable {Tid T : Type*} {c : Nat}

/-- The ticket whose element a slot of odd turn holds. -/
def liveTicket (q : AtomicQueue T c) (i : Fin c) : Option Nat :=
  if (q.slots i).turn % 2 = 1 then some (((q.slots i).turn / 2) * c + i.val) else none

/-- The tickets whose elements the destructor destroys, in its order. -/
def liveTickets (q : AtomicQueue T c) : List Nat := (List.finRange c).filterMap (liveTicket q)

theorem liveTickets_nodup (q : AtomicQueue T c) : (liveTickets q).Nodup := by
  apply List.Nodup.filterMap _ (List.nodup_finRange c)
  intro i j k hi hj
  simp only [liveTicket, Option.mem_def, Option.ite_none_right_eq_some,
    Option.some.injEq] at hi hj
  have hik : k % c = i.val := by rw [← hi.2]; exact Lap.slot_mul_add i.isLt
  have hjk : k % c = j.val := by rw [← hj.2]; exact Lap.slot_mul_add j.isLt
  exact Fin.ext (hik.symm.trans hjk)

variable [NeZero c] {s : System Tid T c}

theorem slotAt_mul_add (q : AtomicQueue T c) (j : Nat) (i : Fin c) :
    q.slotAt (j * c + i.val) = q.slots i := by
  rw [← slotAt_val q i]
  apply slotAt_congr
  rw [Lap.slot_mul_add i.isLt, Nat.mod_eq_of_lt i.isLt]

theorem slot_turn_eq (q : AtomicQueue T c) (i : Fin c) (b : Nat) :
    (q.slotAt (((q.slots i).turn / 2) * c + i.val)).turn =
        turn c (((q.slots i).turn / 2) * c + i.val) * 2 + b ↔ (q.slots i).turn % 2 = b := by
  have hlap : turn c (((q.slots i).turn / 2) * c + i.val) = (q.slots i).turn / 2 :=
    Lap.lap_mul_add i.isLt
  rw [hlap, slotAt_mul_add]
  omega

/-- A slot nobody is inside of holds an element exactly when its turn is odd. -/
theorem odd_iff_live (hinv : Inv s) (i : Fin c)
    (hout : ∀ tid k, Pc.inside (s.pc tid) = some k → idx c k ≠ i) :
    (s.queue.slots i).turn % 2 = 1 ↔ (s.queue.slots i).storage.isSome := by
  have hslot := slotAt_mul_add s.queue ((s.queue.slots i).turn / 2) i
  have hrest : Resting s (((s.queue.slots i).turn / 2) * c + i.val) := by
    apply hinv.resting
    intro tid l hl hsame
    apply hout tid l hl
    rw [Lap.slot_mul_add i.isLt] at hsame
    exact Fin.ext hsame
  obtain ⟨heven, hodd⟩ := hrest
  rw [hslot] at heven hodd
  constructor
  · intro h
    have hturn := (slot_turn_eq s.queue i 1).mpr h
    rw [hslot] at hturn
    obtain ⟨v, _, hfull⟩ := hodd hturn
    rw [hfull]
    rfl
  · intro h
    by_contra hne
    have hturn := (slot_turn_eq s.queue i 0).mpr (by omega)
    rw [hslot] at hturn
    rw [heven hturn] at h
    cases h

theorem mem_liveTickets (q : AtomicQueue T c) (k : Nat) :
    k ∈ liveTickets q ↔ (q.slotAt k).turn = turn c k * 2 + 1 := by
  constructor
  · intro hk
    obtain ⟨i, _, hi⟩ := List.mem_filterMap.mp hk
    simp only [liveTicket, Option.ite_none_right_eq_some, Option.some.injEq] at hi
    rw [← hi.2]
    exact (slot_turn_eq q i 1).mpr hi.1
  · intro hk
    refine List.mem_filterMap.mpr ⟨idx c k, List.mem_finRange _, ?_⟩
    have hslot : q.slots (idx c k) = q.slotAt k := rfl
    have hlap : (turn c k * 2 + 1) / 2 = turn c k := by omega
    have hodd : (turn c k * 2 + 1) % 2 = 1 := by omega
    simp only [liveTicket, hslot, hk, hlap, hodd, idx_val, if_true]
    rw [Nat.mul_comm]
    exact congrArg some (Nat.div_add_mod k c)

/-- The destructor's calls of `destroy` are aligned with the live tickets. -/
theorem dtor_aligned (hinv : Inv s) (hout : ∀ tid, Pc.inside (s.pc tid) = none) :
    List.Forall₂ (fun k r => ∃ v, r = some v ∧ s.Written k v)
      (liveTickets s.queue) s.queue.dtor := by
  unfold liveTickets AtomicQueue.dtor
  induction List.finRange c with
  | nil => exact .nil
  | cons i rest ih =>
      by_cases hodd : (s.queue.slots i).turn % 2 = 1
      · have hticket : liveTicket s.queue i =
            some (((s.queue.slots i).turn / 2) * c + i.val) := if_pos hodd
        have hturn := (slot_turn_eq s.queue i 1).mpr hodd
        obtain ⟨v, hv, hfull⟩ := hinv.resting_odd hturn (fun tid _ => hout tid)
        rw [slotAt_mul_add] at hfull
        rw [List.filterMap_cons_some hticket, List.flatMap_cons, Slot.dtor, if_pos hodd]
        exact .cons ⟨v, hfull, hv⟩ ih
      · have hticket : liveTicket s.queue i = none := if_neg hodd
        rw [List.filterMap_cons_none hticket, List.flatMap_cons, Slot.dtor, if_neg hodd]
        exact ih

variable [DecidableEq Tid]

/-- For every capacity, any number of threads and any interleaving: at most
one thread is inside a slot; elements are built in slots that hold none and
read and destroyed in slots that hold one; a slot nobody is inside of is full
exactly when its turn is odd; and with nobody inside any slot the destructor
destroys, once each, exactly the elements pushed and never popped. -/
theorem slot_lifetime (h : (system Tid T c).Reachable s) :
    (∀ tid tid' k k', Pc.inside (s.pc tid) = some k → Pc.inside (s.pc tid') = some k' →
      idx c k = idx c k' → tid = tid') ∧
    (∀ tid mode v k, s.pc tid = .construct mode v k → (s.queue.slotAt k).storage = none) ∧
    (∀ tid mode k, s.pc tid = .extract mode k → (s.queue.slotAt k).storage.isSome) ∧
    (∀ tid mode k r, s.pc tid = .destroy mode k r → (s.queue.slotAt k).storage.isSome) ∧
    (∀ i, (∀ tid k, Pc.inside (s.pc tid) = some k → idx c k ≠ i) →
      ((s.queue.slots i).turn % 2 = 1 ↔ (s.queue.slots i).storage.isSome)) ∧
    ((∀ tid, Pc.inside (s.pc tid) = none) → ∃ tickets : List Nat, tickets.Nodup ∧
      (∀ k, k ∈ tickets ↔ s.Pushed k ∧ ¬ s.Popped k) ∧
      List.Forall₂ (fun k r => ∃ v, r = some v ∧ s.Written k v) tickets s.queue.dtor) := by
  have hinv := reachable_inv h
  have hrec := reachable_recorded h
  refine ⟨?_, ?_, ?_, ?_, fun i => odd_iff_live hinv i, ?_⟩
  · exact fun tid tid' k k' hk hk' hslot => hinv.inside_unique hk hk' (idx_eq_iff.mp hslot)
  · intro tid mode v k hpc
    have hlocal := hinv.atPc tid
    rw [hpc] at hlocal
    exact hlocal.2.2.2
  · intro tid mode k hpc
    have hlocal := hinv.atPc tid
    rw [hpc] at hlocal
    obtain ⟨_, _, v, _, hfull⟩ := hlocal
    rw [hfull]
    rfl
  · intro tid mode k r hpc
    have hlocal := hinv.atPc tid
    rw [hpc] at hlocal
    obtain ⟨_, _, v, _, hfull, _⟩ := hlocal
    rw [hfull]
    rfl
  · intro hout
    refine ⟨liveTickets s.queue, liveTickets_nodup _, ?_, dtor_aligned hinv hout⟩
    intro k
    rw [mem_liveTickets, hrec.pushed k, hrec.popped k]
    omega

/-- Two pushes and one pop on two slots leave one element for the destructor. -/
theorem slot_lifetime_one_left :
    ∃ s, (system (Fin 2) Nat 2).Reaches
      [.invoke 0 (.push 7), .tick 0, .tick 0, .tick 0, .tick 0, .invoke 0 (.tryPush 8), .tick 0,
        .tick 0, .tick 0, .tick 0, .tick 0, .invoke 1 .pop, .tick 1, .tick 1, .tick 1, .tick 1,
        .tick 1] s ∧
      s.queue.dtor = [some 8] ∧
      ∃ tickets : List Nat, tickets.Nodup ∧ (∀ k, k ∈ tickets ↔ s.Pushed k ∧ ¬ s.Popped k) ∧
        List.Forall₂ (fun k r => ∃ v, r = some v ∧ s.Written k v) tickets s.queue.dtor := by
  obtain ⟨s, hrun, hseen⟩ := (system (Fin 2) Nat 2).exists_of_map
    [.invoke 0 (.push 7), .tick 0, .tick 0, .tick 0, .tick 0, .invoke 0 (.tryPush 8), .tick 0,
      .tick 0, .tick 0, .tick 0, .tick 0, .invoke 1 .pop, .tick 1, .tick 1, .tick 1, .tick 1,
      .tick 1]
    (fun s => (s.queue.dtor, Pc.inside (s.pc 0), Pc.inside (s.pc 1))) rfl
  simp only [Prod.mk.injEq] at hseen
  obtain ⟨hdtor, hzero, hone⟩ := hseen
  refine ⟨s, hrun, hdtor, (slot_lifetime hrun.reachable).2.2.2.2.2 ?_⟩
  exact Fin.forall_fin_two.mpr ⟨hzero, hone⟩

end YkUtil.Exec.AtomicQueue
