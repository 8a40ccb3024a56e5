import YkUtil.Exec.AtomicQueue.Invariant

/-!
Every atomic step of `push`, `try_push`, `pop` and `try_pop` keeps the
invariant, so it holds in every reachable state.
-/

namespace YkUtil.Exec.AtomicQueue

open YkUtil.Lib

variable {Tid T : Type*} {c : Nat} [NeZero c] {s t : System Tid T c}

/-- An unissued head ticket has not been pushed. -/
theorem Inv.turn_le_of_head_le (h : Inv s) {k : Nat} (hk : s.queue.head ≤ k) :
    (s.queue.slotAt k).turn ≤ turn c k * 2 := by
  by_contra hlt
  have := h.issuedHead k (by omega)
  omega

theorem Inv.turn_le_of_tail_le (h : Inv s) {k : Nat} (hk : s.queue.tail ≤ k) :
    (s.queue.slotAt k).turn ≤ turn c k * 2 + 1 := by
  by_contra hlt
  have := h.issuedTail k (by omega)
  omega

variable [DecidableEq Tid]

theorem Inv.fetchAdd_head (h : Inv s) {tid : Tid} {v : T}
    (hpc : s.pc tid = .pushFetchAdd v) :
    Inv (s.set tid (s.queue.setHead (s.queue.head + 1)) (.pushSpin v s.queue.head)
      (some (.headTicket s.queue.head v))) := by
  apply h.issueHead rfl rfl
  · rw [hpc]; rfl
  · rw [hpc]; rfl
  · rw [hpc]; rfl
  · exact ⟨Nat.lt_succ_self _, written_set_ticket _ _ _ _ _ _,
      h.turn_le_of_head_le (Nat.le_refl _)⟩

/-- The CAS of try_push wins the ticket it checked. Nobody has taken the
ticket since, so the slot is still as the check found it. -/
theorem Inv.cas_head (h : Inv s) {tid : Tid} {v : T}
    (hpc : s.pc tid = .tryPushCas v s.queue.head) :
    Inv (s.set tid (s.queue.setHead (s.queue.head + 1))
      (.construct .nonBlocking v s.queue.head) (some (.headTicket s.queue.head v))) := by
  have hlocal := h.atPc tid
  rw [hpc] at hlocal
  have hle := h.turn_le_of_head_le (Nat.le_refl s.queue.head)
  have hturn : (s.queue.slotAt s.queue.head).turn = turn c s.queue.head * 2 :=
    Nat.le_antisymm hle hlocal.2
  apply h.issueHead rfl rfl
  · rw [hpc]; rfl
  · rw [hpc]; rfl
  · rw [hpc]; rfl
  · refine ⟨Nat.lt_succ_self _, written_set_ticket _ _ _ _ _ _, hturn, ?_⟩
    apply h.resting_even hturn
    intro holder hheld
    have := (h.atPc holder).headTicket_lt hheld
    omega

theorem Inv.fetchAdd_tail (h : Inv s) {tid : Tid} (hpc : s.pc tid = .popFetchAdd) :
    Inv (s.set tid (s.queue.setTail (s.queue.tail + 1)) (.popSpin s.queue.tail)
      (some (.tailTicket s.queue.tail))) := by
  apply h.issueTail rfl rfl
  · rw [hpc]; rfl
  · rw [hpc]; rfl
  · rw [hpc]; rfl
  · exact ⟨Nat.lt_succ_self _, h.turn_le_of_tail_le (Nat.le_refl _)⟩

theorem Inv.cas_tail (h : Inv s) {tid : Tid}
    (hpc : s.pc tid = .tryPopCas s.queue.tail) :
    Inv (s.set tid (s.queue.setTail (s.queue.tail + 1))
      (.extract .nonBlocking s.queue.tail) (some (.tailTicket s.queue.tail))) := by
  have hlocal := h.atPc tid
  rw [hpc] at hlocal
  have hle := h.turn_le_of_tail_le (Nat.le_refl s.queue.tail)
  have hturn : (s.queue.slotAt s.queue.tail).turn = turn c s.queue.tail * 2 + 1 :=
    Nat.le_antisymm hle hlocal.2
  have hrest : ∃ v, s.Written s.queue.tail v ∧
      (s.queue.slotAt s.queue.tail).storage = some v := by
    apply h.resting_odd hturn
    intro holder hheld
    have := (h.atPc holder).tailTicket_lt hheld
    omega
  obtain ⟨v, hv, hfull⟩ := hrest
  apply h.issueTail rfl rfl
  · rw [hpc]; rfl
  · rw [hpc]; rfl
  · rw [hpc]; rfl
  · exact ⟨Nat.lt_succ_self _, hturn, v, written_set _ _ _ _ _ hv, hfull⟩

/-- A blocking push finds its turn. Its predecessor has left the slot empty. -/
theorem Inv.spin_push (h : Inv s) {tid : Tid} {v : T} {k : Nat}
    (hpc : s.pc tid = .pushSpin v k)
    (hturn : turn c k * 2 = (s.queue.slotAt k).turn) :
    Inv (s.set tid s.queue (.construct .blocking v k) none) := by
  have hlocal := h.atPc tid
  rw [hpc] at hlocal
  obtain ⟨hk, hv, _⟩ := hlocal
  have hempty : (s.queue.slotAt k).storage = none := by
    apply h.resting_even hturn.symm
    intro holder hheld
    have heq : holder = tid := h.uniqueHead holder tid k hheld (by rw [hpc]; rfl)
    rw [heq, hpc]
    rfl
  apply h.quiet
  · exact ⟨hk, hv, hturn.symm, hempty⟩
  · rw [hpc]; rfl
  · rw [hpc]; rfl
  · intro l hl
    rw [hpc] at hl
    cases hl

theorem Inv.spin_pop (h : Inv s) {tid : Tid} {k : Nat} (hpc : s.pc tid = .popSpin k)
    (hturn : turn c k * 2 + 1 = (s.queue.slotAt k).turn) :
    Inv (s.set tid s.queue (.extract .blocking k) none) := by
  have hlocal := h.atPc tid
  rw [hpc] at hlocal
  have hrest : ∃ v, s.Written k v ∧ (s.queue.slotAt k).storage = some v := by
    apply h.resting_odd hturn.symm
    intro holder hheld
    have heq : holder = tid := h.uniqueTail holder tid k hheld (by rw [hpc]; rfl)
    rw [heq, hpc]
    rfl
  apply h.quiet
  · exact ⟨hlocal.1, hturn.symm, hrest⟩
  · rw [hpc]; rfl
  · rw [hpc]; rfl
  · intro l hl
    rw [hpc] at hl
    cases hl

/-- A thread works on the storage of the slot it is inside of and stays
inside. -/
theorem Inv.writeStorage (h : Inv s) {tid : Tid} {k : Nat} {slot : Slot T} {pc : Pc T}
    {event : Option (Event T)} (hin : Pc.inside (s.pc tid) = some k)
    (hturn : slot.turn = (s.queue.slotAt k).turn) (hstays : Pc.inside pc = some k)
    (hhead : Pc.headTicket pc = Pc.headTicket (s.pc tid))
    (htail : Pc.tailTicket pc = Pc.tailTicket (s.pc tid))
    (hlocal : Local (s.set tid (s.queue.setSlot k slot) pc event) pc) :
    Inv (s.set tid (s.queue.setSlot k slot) pc event) := by
  have hsame {l : Nat} (hl : l % c = k % c) : s.queue.slotAt l = s.queue.slotAt k :=
    slotAt_congr _ hl
  refine h.changeSlot hin (Nat.le_of_eq hturn.symm) hlocal ?_ ?_ ?_ ?_ ?_ ?_ ?_ ?_ (Or.inl hstays)
  · exact fun l _ _ hle => hturn ▸ hle
  · exact fun l _ _ hle => hturn ▸ hle
  · exact fun l hl => hhead ▸ hl
  · exact fun l hl => htail ▸ hl
  · exact fun l hl => Or.inl (hhead ▸ hl)
  · exact fun l hl => Or.inl (htail ▸ hl)
  · intro l hl hle
    apply h.issuedHead l
    rw [hsame hl, ← hturn]
    exact hle
  · intro l hl hle
    apply h.issuedTail l
    rw [hsame hl, ← hturn]
    exact hle

theorem Inv.construct_step (h : Inv s) {tid : Tid} {mode : Mode} {v : T} {k : Nat}
    (hpc : s.pc tid = .construct mode v k) :
    Inv (s.set tid (s.queue.setSlot k ((s.queue.slotAt k).construct v))
      (.storePush mode k) none) := by
  have hlocal := h.atPc tid
  rw [hpc] at hlocal
  obtain ⟨hk, hv, hturn, _⟩ := hlocal
  refine h.writeStorage (by rw [hpc]; rfl) rfl rfl (by rw [hpc]; rfl) (by rw [hpc]; rfl) ?_
  refine ⟨hk, ?_, v, written_set _ _ _ _ _ hv, ?_⟩
  · rw [set_queue, slotAt_setSlot_self]
    exact hturn
  · rw [set_queue, slotAt_setSlot_self]
    rfl

/-- The turn store of a push completes the ticket and hands the slot, with its
element, to the pop of the same ticket. -/
theorem Inv.storePush_step (h : Inv s) {tid : Tid} {mode : Mode} {k : Nat}
    (hpc : s.pc tid = .storePush mode k) :
    Inv (s.set tid (s.queue.setSlot k ((s.queue.slotAt k).storeTurn (turn c k * 2 + 1)))
      .idle (some (.pushed k))) := by
  have hlocal := h.atPc tid
  rw [hpc] at hlocal
  obtain ⟨hk, hturn, v, hv, hfull⟩ := hlocal
  have hturn' : ((s.queue.slotAt k).storeTurn (turn c k * 2 + 1)).turn = turn c k * 2 + 1 := rfl
  have hsame {l : Nat} (hl : l % c = k % c) : s.queue.slotAt l = s.queue.slotAt k :=
    slotAt_congr _ hl
  have hlap {l : Nat} (hl : l % c = k % c) (hne : l ≠ k) : turn c l ≠ turn c k :=
    Lap.lap_ne hl hne
  refine h.changeSlot (by rw [hpc]; rfl) ?_ trivial ?_ ?_ ?_ ?_ ?_ ?_ ?_ ?_ (Or.inr ?_)
  · omega
  · intro l hl hne hle
    have hlk : l ≠ k := by
      intro e
      rw [e, hpc] at hne
      exact hne rfl
    have := hlap hl hlk
    omega
  · intro l hl _ hle
    omega
  · exact fun l hl => by cases hl
  · exact fun l hl => by cases hl
  · intro l hl
    rw [hpc] at hl
    exact Or.inr ⟨(Option.some.inj hl).symm, Nat.le_of_eq hturn'.symm⟩
  · exact fun l hl => by rw [hpc] at hl; cases hl
  · intro l hl hle
    by_cases hlk : l = k
    · rw [hlk]
      exact hk
    · apply h.issuedHead l
      have := hlap hl hlk
      rw [hsame hl]
      omega
  · intro l hl hle
    apply h.issuedTail l
    rw [hsame hl]
    omega
  · intro l hl
    unfold Resting
    rw [set_queue, slotAt_setSlot_same _ _ hl]
    refine ⟨fun heven => ?_, fun hodd => ?_⟩
    · omega
    · have hlk : l = k := by
        by_contra hne
        exact hlap hl hne (by omega)
      rw [hlk]
      exact ⟨v, written_set _ _ _ _ _ hv, hfull⟩

theorem Inv.destroy_step (h : Inv s) {tid : Tid} {mode : Mode} {k : Nat} {r : Option T}
    (hpc : s.pc tid = .destroy mode k r) :
    Inv (s.set tid (s.queue.setSlot k (s.queue.slotAt k).destroy)
      (.storePop mode k r) none) := by
  have hlocal := h.atPc tid
  rw [hpc] at hlocal
  obtain ⟨hk, hturn, v, hv, _, hr⟩ := hlocal
  refine h.writeStorage (by rw [hpc]; rfl) rfl rfl (by rw [hpc]; rfl) (by rw [hpc]; rfl) ?_
  refine ⟨hk, ?_, ?_, v, written_set _ _ _ _ _ hv, hr⟩
  · rw [set_queue, slotAt_setSlot_self]
    exact hturn
  · rw [set_queue, slotAt_setSlot_self]
    rfl

/-- The turn store of a pop completes the ticket and hands the empty slot to
the push of the slot's next lap. -/
theorem Inv.storePop_step (h : Inv s) {tid : Tid} {mode : Mode} {k : Nat} {r : Option T}
    (hpc : s.pc tid = .storePop mode k r) :
    Inv (s.set tid (s.queue.setSlot k ((s.queue.slotAt k).storeTurn (turn c k * 2 + 2)))
      .idle (some (.popped k r))) := by
  have hlocal := h.atPc tid
  rw [hpc] at hlocal
  obtain ⟨hk, hturn, hempty, _⟩ := hlocal
  have hturn' : ((s.queue.slotAt k).storeTurn (turn c k * 2 + 2)).turn = turn c k * 2 + 2 := rfl
  have hsame {l : Nat} (hl : l % c = k % c) : s.queue.slotAt l = s.queue.slotAt k :=
    slotAt_congr _ hl
  have hlap {l : Nat} (hl : l % c = k % c) (hne : l ≠ k) : turn c l ≠ turn c k :=
    Lap.lap_ne hl hne
  refine h.changeSlot (by rw [hpc]; rfl) ?_ trivial ?_ ?_ ?_ ?_ ?_ ?_ ?_ ?_ (Or.inr ?_)
  · omega
  · intro l hl _ hle
    omega
  · intro l hl hne hle
    have hlk : l ≠ k := by
      intro e
      rw [e, hpc] at hne
      exact hne rfl
    have := hlap hl hlk
    omega
  · exact fun l hl => by cases hl
  · exact fun l hl => by cases hl
  · exact fun l hl => by rw [hpc] at hl; cases hl
  · intro l hl
    rw [hpc] at hl
    exact Or.inr ⟨(Option.some.inj hl).symm, Nat.le_of_eq hturn'.symm⟩
  · intro l hl hle
    apply h.issuedHead l
    rw [hsame hl]
    omega
  · intro l hl hle
    by_cases hlk : l = k
    · rw [hlk]
      exact hk
    · apply h.issuedTail l
      have := hlap hl hlk
      rw [hsame hl]
      omega
  · intro l hl
    unfold Resting
    rw [set_queue, slotAt_setSlot_same _ _ hl]
    exact ⟨fun _ => hempty, fun hodd => by omega⟩

/-- A thread that holds no ticket and is inside no slot. -/
def Pc.Free (pc : Pc T) : Prop :=
  Pc.headTicket pc = none ∧ Pc.tailTicket pc = none ∧ Pc.inside pc = none

/-- Loads, failed checks and returns without a ticket. -/
theorem Inv.quiet_of_free (h : Inv s) {tid : Tid} {pc old : Pc T} {event : Option (Event T)}
    (hpc : s.pc tid = old) (hold : Pc.Free old) (hlocal : Local s pc) (hfree : Pc.Free pc) :
    Inv (s.set tid s.queue pc event) := by
  subst hpc
  obtain ⟨holdHead, holdTail, hout⟩ := hold
  obtain ⟨hhead, htail, _⟩ := hfree
  apply h.quiet hlocal
  · rw [hhead, holdHead]
  · rw [htail, holdTail]
  · intro k hk
    rw [hout] at hk
    cases hk

theorem Inv.advance (h : Inv s) (tid : Tid) :
    Inv (s.apply tid (AtomicQueue.advance .unbounded s.queue (s.pc tid))) := by
  have hlocal := h.atPc tid
  cases hpc : s.pc tid with
  | idle => exact h.quiet_of_free hpc ⟨rfl, rfl, rfl⟩ trivial ⟨rfl, rfl, rfl⟩
  | pushFetchAdd v => exact h.fetchAdd_head hpc
  | pushSpin v k =>
      simp only [AtomicQueue.advance]
      split
      · rename_i hturn
        exact h.spin_push hpc hturn
      · rw [hpc] at hlocal
        exact h.quiet hlocal (by rw [hpc]) (by rw [hpc]) (fun l hl => by rw [← hpc]; exact hl)
  | tryPushLoad v =>
      exact h.quiet_of_free hpc ⟨rfl, rfl, rfl⟩ (Nat.le_refl _) ⟨rfl, rfl, rfl⟩
  | tryPushCheck v k =>
      rw [hpc] at hlocal
      simp only [AtomicQueue.advance]
      split
      · rename_i hturn
        exact h.quiet_of_free hpc ⟨rfl, rfl, rfl⟩ ⟨hlocal, Nat.le_of_eq hturn⟩ ⟨rfl, rfl, rfl⟩
      · exact h.quiet_of_free hpc ⟨rfl, rfl, rfl⟩ hlocal ⟨rfl, rfl, rfl⟩
  | tryPushCas v k =>
      simp only [AtomicQueue.advance]
      split
      · rename_i hcas
        rw [← hcas] at hpc ⊢
        exact h.cas_head hpc
      · exact h.quiet_of_free hpc ⟨rfl, rfl, rfl⟩ (Nat.le_refl _) ⟨rfl, rfl, rfl⟩
  | tryPushReload v k =>
      simp only [AtomicQueue.advance]
      split
      · exact h.quiet_of_free hpc ⟨rfl, rfl, rfl⟩ trivial ⟨rfl, rfl, rfl⟩
      · exact h.quiet_of_free hpc ⟨rfl, rfl, rfl⟩ (Nat.le_refl _) ⟨rfl, rfl, rfl⟩
  | construct mode v k => exact h.construct_step hpc
  | storePush mode k => exact h.storePush_step hpc
  | popFetchAdd => exact h.fetchAdd_tail hpc
  | popSpin k =>
      simp only [AtomicQueue.advance]
      split
      · rename_i hturn
        exact h.spin_pop hpc hturn
      · rw [hpc] at hlocal
        exact h.quiet hlocal (by rw [hpc]) (by rw [hpc]) (fun l hl => by rw [← hpc]; exact hl)
  | tryPopLoad =>
      exact h.quiet_of_free hpc ⟨rfl, rfl, rfl⟩ (Nat.le_refl _) ⟨rfl, rfl, rfl⟩
  | tryPopCheck k =>
      rw [hpc] at hlocal
      simp only [AtomicQueue.advance]
      split
      · rename_i hturn
        exact h.quiet_of_free hpc ⟨rfl, rfl, rfl⟩ ⟨hlocal, Nat.le_of_eq hturn⟩ ⟨rfl, rfl, rfl⟩
      · exact h.quiet_of_free hpc ⟨rfl, rfl, rfl⟩ hlocal ⟨rfl, rfl, rfl⟩
  | tryPopCas k =>
      simp only [AtomicQueue.advance]
      split
      · rename_i hcas
        rw [← hcas] at hpc ⊢
        exact h.cas_tail hpc
      · exact h.quiet_of_free hpc ⟨rfl, rfl, rfl⟩ (Nat.le_refl _) ⟨rfl, rfl, rfl⟩
  | tryPopReload k =>
      simp only [AtomicQueue.advance]
      split
      · exact h.quiet_of_free hpc ⟨rfl, rfl, rfl⟩ trivial ⟨rfl, rfl, rfl⟩
      · exact h.quiet_of_free hpc ⟨rfl, rfl, rfl⟩ (Nat.le_refl _) ⟨rfl, rfl, rfl⟩
  | extract mode k =>
      rw [hpc] at hlocal
      obtain ⟨hk, hturn, v, hv, hfull⟩ := hlocal
      exact h.quiet ⟨hk, hturn, v, hv, hfull, hfull⟩ (by rw [hpc]; rfl) (by rw [hpc]; rfl)
        (fun l hl => by rw [hpc] at hl; exact hl)
  | destroy mode k r => exact h.destroy_step hpc
  | storePop mode k r => exact h.storePop_step hpc

theorem Inv.step {a : Action Tid T} (h : Inv s)
    (hstep : AtomicQueue.step .unbounded s a = some t) : Inv t := by
  rcases step_inv hstep with ⟨tid, call, _, hidle, rfl⟩ | ⟨tid, _, _, rfl⟩
  · cases call <;> exact h.quiet_of_free hidle ⟨rfl, rfl, rfl⟩ trivial ⟨rfl, rfl, rfl⟩
  · exact h.advance tid

/-- The invariant holds in every state of every interleaving. -/
theorem reachable_inv (h : (system Tid T c).Reachable s) : Inv s :=
  (system Tid T c).invariant inv_start (fun _ _ _ _ hinv hstep => hinv.step hstep) h

end YkUtil.Exec.AtomicQueue
