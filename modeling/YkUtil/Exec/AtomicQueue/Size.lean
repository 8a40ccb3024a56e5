import YkUtil.Exec.AtomicQueue.History

/-!
What `size` says while other threads are inside calls. It is the distance of
the two counters, so a pop that waits for a value counts as a stored one, and
a push that waits for room counts beyond the capacity.
-/

namespace YkUtil.Exec.AtomicQueue

open YkUtil.Lib

variable {Tid T : Type*} {c : Nat}

/-- The size fits the capacity and is 0 when the pops have caught up. -/
def SizeOk (q : AtomicQueue T c) : Prop :=
  q.size .unbounded ≤ c ∧ (q.head ≤ q.tail → q.size .unbounded = 0)

/-- No more pop tickets than push tickets, and at most `c` fewer. -/
def Window (q : AtomicQueue T c) : Prop := q.tail ≤ q.head ∧ q.head ≤ q.tail + c

theorem sizeOk_iff (q : AtomicQueue T c) : SizeOk q ↔ Window q := by
  have hsize : q.size .unbounded = ((q.head : Int) - q.tail).natAbs := rfl
  unfold SizeOk Window
  rw [hsize]
  omega

variable {s t : System Tid T c}

/-- A blocking call takes its ticket only where it need not wait for another
one to be issued. -/
def NoWait (s : System Tid T c) : Action Tid T → Prop
  | .invoke _ _ => True
  | .tick tid =>
      match s.pc tid with
      | .pushFetchAdd _ => s.queue.head < s.queue.tail + c
      | .popFetchAdd => s.queue.tail < s.queue.head
      | _ => True

theorem noWait_push {tid : Tid} {v : T} (hpc : s.pc tid = .pushFetchAdd v) :
    NoWait s (.tick tid) ↔ s.queue.head < s.queue.tail + c := by
  simp only [NoWait, hpc]

theorem noWait_pop {tid : Tid} (hpc : s.pc tid = .popFetchAdd) :
    NoWait s (.tick tid) ↔ s.queue.tail < s.queue.head := by
  simp only [NoWait, hpc]

theorem noWait_other {tid : Tid} (hpush : ∀ v, s.pc tid ≠ .pushFetchAdd v)
    (hpop : s.pc tid ≠ .popFetchAdd) : NoWait s (.tick tid) := by
  cases hpc : s.pc tid with
  | pushFetchAdd v => exact absurd hpc (hpush v)
  | popFetchAdd => exact absurd hpc hpop
  | _ => simp only [NoWait, hpc]

theorem window_start : Window (start Tid T c).queue :=
  ⟨Nat.le_refl _, Nat.zero_le _⟩

variable [NeZero c]

/-- The slot that `try_push` found free was left by the pop one lap before. -/
theorem Inv.cas_head_room (h : Inv s) {tid : Tid} {v : T}
    (hpc : s.pc tid = .tryPushCas v s.queue.head) : s.queue.head < s.queue.tail + c := by
  have hlocal := h.atPc tid
  rw [hpc] at hlocal
  by_contra hfull
  have hlap : c ≤ s.queue.head := Nat.le_trans (Nat.le_add_left _ _) (Nat.le_of_not_lt hfull)
  have hc : 0 < c := NeZero.pos c
  have hprev : turn c (s.queue.head - c) = turn c s.queue.head - 1 := Lap.lap_sub hc hlap
  have hpos : 0 < turn c s.queue.head := (Lap.lap_pos_iff hc).mpr hlap
  have hissued := h.issuedTail (s.queue.head - c) (by
    rw [slotAt_congr _ (Lap.slot_sub hlap)]
    have hturn := hlocal.2
    omega)
  omega

/-- The slot that `try_pop` found full was filled by a push. -/
theorem Inv.cas_tail_room (h : Inv s) {tid : Tid}
    (hpc : s.pc tid = .tryPopCas s.queue.tail) : s.queue.tail < s.queue.head := by
  have hlocal := h.atPc tid
  rw [hpc] at hlocal
  exact h.issuedHead s.queue.tail hlocal.2

/-- A step moves no counter, or the one its ticket comes from; a ticket won by
a `compare_exchange` is one that need not wait. -/
theorem counters_step (h : Inv s) (tid : Tid) :
    let q := (advance .unbounded s.queue (s.pc tid)).1
    (q.head = s.queue.head ∧ q.tail = s.queue.tail) ∨
    (q.head = s.queue.head + 1 ∧ q.tail = s.queue.tail ∧
      ((∃ v, s.pc tid = .pushFetchAdd v) ∨ s.queue.head < s.queue.tail + c)) ∨
    (q.head = s.queue.head ∧ q.tail = s.queue.tail + 1 ∧
      (s.pc tid = .popFetchAdd ∨ s.queue.tail < s.queue.head)) := by
  intro q
  cases hpc : s.pc tid with
  | pushFetchAdd v => exact .inr (.inl ⟨by simp [q, hpc, advance], by simp [q, hpc, advance],
      .inl ⟨v, rfl⟩⟩)
  | popFetchAdd => exact .inr (.inr ⟨by simp [q, hpc, advance], by simp [q, hpc, advance],
      .inl rfl⟩)
  | tryPushCas v k =>
      by_cases hwon : s.queue.head = k
      · subst hwon
        exact .inr (.inl ⟨by simp [q, hpc, advance], by simp [q, hpc, advance],
          .inr (h.cas_head_room hpc)⟩)
      · exact .inl (by simp [q, hpc, advance, hwon])
  | tryPopCas k =>
      by_cases hwon : s.queue.tail = k
      · subst hwon
        exact .inr (.inr ⟨by simp [q, hpc, advance], by simp [q, hpc, advance],
          .inr (h.cas_tail_room hpc)⟩)
      · exact .inl (by simp [q, hpc, advance, hwon])
  | pushSpin | tryPushCheck | tryPushReload | popSpin | tryPopCheck | tryPopReload =>
      left
      simp only [q, hpc, advance]
      split <;> exact ⟨rfl, rfl⟩
  | idle | tryPushLoad | construct | storePush | tryPopLoad | extract | destroy | storePop =>
      exact .inl (by simp [q, hpc, advance])

variable [DecidableEq Tid]

/-- The counters stay in the window over a step exactly if it does not have to
wait. -/
theorem window_step_iff {a : Action Tid T} (h : Inv s) (hs : Window s.queue)
    (hstep : step .unbounded s a = some t) : Window t.queue ↔ NoWait s a := by
  rcases step_inv hstep with ⟨tid, call, rfl, -, rfl⟩ | ⟨tid, rfl, -, rfl⟩
  · exact iff_of_true hs trivial
  · obtain ⟨hlow, hhigh⟩ := hs
    have hqueue : (s.apply tid (advance .unbounded s.queue (s.pc tid))).queue =
        (advance .unbounded s.queue (s.pc tid)).1 := rfl
    have hcounters := counters_step h tid
    rw [hqueue]
    by_cases hpush : ∃ v, s.pc tid = .pushFetchAdd v
    · obtain ⟨v, hpc⟩ := hpush
      rw [noWait_push hpc, hpc]
      simp only [advance, Window, setHead_head, setHead_tail, SizeT.wrap_unbounded]
      omega
    · by_cases hpop : s.pc tid = .popFetchAdd
      · rw [noWait_pop hpop, hpop]
        simp only [advance, Window, setTail_head, setTail_tail, SizeT.wrap_unbounded]
        omega
      · refine iff_of_true ?_ (noWait_other (fun v hpc => hpush ⟨v, hpc⟩) hpop)
        rcases hcounters with ⟨hhead, htail⟩ | ⟨hhead, htail, hroom⟩ | ⟨hhead, htail, hroom⟩
        · exact ⟨by omega, by omega⟩
        · have hroom' := hroom.resolve_left hpush
          exact ⟨by omega, by omega⟩
        · have hroom' := hroom.resolve_left hpop
          exact ⟨by omega, by omega⟩

/-- For every capacity and any interleaving: the size is right in a state
exactly if the counters are in the window, and right in every state of a run
exactly if no blocking call of the run takes a ticket it has to wait with. -/
theorem size_bounded_iff :
    (∀ s : System Tid T c, (system Tid T c).Reachable s → (SizeOk s.queue ↔ Window s.queue)) ∧
    ∀ acts s, (system Tid T c).Reaches acts s →
      ((∀ before after u, acts = before ++ after → (system Tid T c).Reaches before u →
        SizeOk u.queue) ↔ (system Tid T c).GoodRun NoWait acts s) := by
  constructor
  · intro s _
    exact sizeOk_iff s.queue
  · intro acts s hrun
    simp only [sizeOk_iff]
    apply TransitionSystem.along_iff_goodRun (P := fun s => Window s.queue) window_start ?_ hrun
    intro s a t hs hp hstep
    exact window_step_iff (reachable_inv hs) hp hstep

/-- A single pop on an empty queue takes a ticket it has to wait with. -/
theorem size_bounded_iff_pop :
    ∃ s, (system (Fin 2) Nat 1).Reaches [.invoke 0 .pop, .tick 0] s ∧
      ¬(system (Fin 2) Nat 1).GoodRun NoWait [.invoke 0 .pop, .tick 0] s := by
  obtain ⟨s, hrun, hs⟩ := (system (Fin 2) Nat 1).exists_of_map [.invoke 0 .pop, .tick 0]
    (b := (0, 1)) (fun s => (s.queue.head, s.queue.tail)) rfl
  refine ⟨s, hrun, fun hgood => ?_⟩
  have hok := (size_bounded_iff.2 _ s hrun).mpr hgood _ [] s (List.append_nil _).symm hrun
  have hwindow := (size_bounded_iff.1 s hrun.reachable).mp hok
  simp only [Prod.mk.injEq] at hs
  exact absurd hwindow.1 (by omega)

/-- A pop that waits on an empty queue counts as a stored value, and pushes that
wait on a full one make it larger than the capacity. -/
theorem size_exceeds :
    (∃ s, (system (Fin 2) Nat 1).Reachable s ∧ s.queue.head ≤ s.queue.tail ∧
      s.queue.size .unbounded = 1) ∧
    ∃ s, (system (Fin 2) Nat 1).Reachable s ∧ s.queue.size .unbounded = 2 := by
  constructor
  · obtain ⟨s, hrun, hs⟩ := (system (Fin 2) Nat 1).exists_of_map [.invoke 0 .pop, .tick 0]
      (b := (0, 1, 1)) (fun s => (s.queue.head, s.queue.tail, s.queue.size .unbounded)) rfl
    simp only [Prod.mk.injEq] at hs
    exact ⟨s, hrun.reachable, by omega, hs.2.2⟩
  · obtain ⟨s, hrun, hs⟩ := (system (Fin 2) Nat 1).exists_of_map
      [.invoke 0 (.push 5), .tick 0, .invoke 1 (.push 6), .tick 1]
      (b := 2) (fun s => s.queue.size .unbounded) rfl
    exact ⟨s, hrun.reachable, hs⟩

end YkUtil.Exec.AtomicQueue
