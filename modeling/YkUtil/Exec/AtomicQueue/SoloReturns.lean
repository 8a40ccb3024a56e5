import YkUtil.Exec.AtomicQueue.Solo

/-!
Where no thread holds a ticket, the counters say what is in the queue, and with it whether a
cancelable call that runs alone returns.
-/

namespace YkUtil.Exec.AtomicQueue

open YkUtil.Lib

variable {Tid Tok A T : Type*} {c : Nat} [NeZero c]
  {fwd : Forwarding A T} {s t : CancelSystem Tid Tok A T c} {tid : Tid}
  {q : AtomicQueue T c} {pc : Pc T} {operand : Operand A T}

section Quiet

variable {b : System Tid T c}

/-- No thread holds a ticket. -/
def Quiet (b : System Tid T c) : Prop :=
  ∀ tid, Pc.headTicket (b.pc tid) = none ∧ Pc.tailTicket (b.pc tid) = none

/-- The slot of the next head ticket is free where the counters say so. -/
theorem Inv.room_iff (hinv : Inv b) (hquiet : Quiet b) :
    turn c b.queue.head * 2 = (b.queue.slotAt b.queue.head).turn ↔
      b.queue.head < b.queue.tail + c := by
  have hc : 0 < c := NeZero.pos c
  have hbefore (hck : c ≤ b.queue.head) : 0 < turn c b.queue.head ∧
      turn c (b.queue.head - c) = turn c b.queue.head - 1 ∧
      b.queue.slotAt b.queue.head = b.queue.slotAt (b.queue.head - c) :=
    ⟨(Lap.lap_pos_iff hc).mpr hck, Lap.lap_sub hc hck, (slotAt_congr _ (Lap.slot_sub hck)).symm⟩
  constructor
  · intro hturn
    by_contra hfull
    obtain ⟨hpos, hlap, hslot⟩ := hbefore (by omega)
    have hle := hinv.turn_le_of_tail_le (k := b.queue.head - c) (by omega)
    rw [← hslot, hlap] at hle
    omega
  · intro hroom
    refine Nat.le_antisymm ?_ (hinv.turn_le_of_head_le (Nat.le_refl _))
    by_cases hck : c ≤ b.queue.head
    · obtain ⟨hpos, hlap, hslot⟩ := hbefore hck
      rcases hinv.heldTail (b.queue.head - c) (by omega) with hdone | ⟨holder, hheld⟩
      · rw [hlap, ← hslot] at hdone
        omega
      · rw [(hquiet holder).2] at hheld
        cases hheld
    · have hzero : turn c b.queue.head = 0 := Nat.div_eq_of_lt (by omega)
      omega

/-- The element of the next tail ticket is in its slot where the counters say so. -/
theorem Inv.element_iff (hinv : Inv b) (hquiet : Quiet b) :
    turn c b.queue.tail * 2 + 1 = (b.queue.slotAt b.queue.tail).turn ↔
      b.queue.tail < b.queue.head := by
  constructor
  · exact fun hturn => hinv.issuedHead _ (Nat.le_of_eq hturn)
  · intro helement
    refine Nat.le_antisymm ?_ (hinv.turn_le_of_tail_le (Nat.le_refl _))
    rcases hinv.heldHead b.queue.tail helement with hdone | ⟨holder, hheld⟩
    · exact hdone
    · rw [(hquiet holder).1] at hheld
      cases hheld

end Quiet

section Spinning

variable [DecidableEq Tid] [DecidableEq Tok]

/-- The slot of the next ticket is as the operation needs it. -/
def Operand.Free (q : AtomicQueue T c) : Operand A T → Prop
  | .args _ _ => turn c q.head * 2 = (q.slotAt q.head).turn
  | .value _ _ => turn c q.tail * 2 + 1 = (q.slotAt q.tail).turn

/-- The counters say that there is room for a push, or an element for a pop. -/
def Operand.Ready (q : AtomicQueue T c) : Operand A T → Prop
  | .args _ _ => q.head < q.tail + c
  | .value _ _ => q.tail < q.head

/-- The next step wins a ticket. -/
def Pc.Wins (q : AtomicQueue T c) : Pc T → Prop
  | .tryPushCas _ k => q.head = k
  | .tryPopCas k => q.tail = k
  | _ => False

/-- One more step of an attempt that does not find its slot. -/
theorem spinning_advance (htry : Pc.trying pc = some (operand.call fwd)) (hfree : ¬ operand.Free q)
    (hwins : ¬ Pc.Wins q pc) :
    (advance .unbounded q pc).1 = q ∧
      Event.returned (advance .unbounded q pc).2.2 ≠ some true ∧
      ((advance .unbounded q pc).2.1 = .idle ∨
        Pc.trying (advance .unbounded q pc).2.1 = some (operand.call fwd)) ∧
      ¬ Pc.Wins q (advance .unbounded q pc).2.1 := by
  have hnone : Event.returned (none : Option (Event T)) ≠ some true := by
    simp [Event.returned]
  have hfailed : Event.returned (some operand.failed) ≠ some true := by
    simp [returned_failed]
  have hmiss (pc' : Pc T) (hpc' : Pc.Wins q pc' → operand.Free q) : ¬ Pc.Wins q pc' :=
    fun h => hfree (hpc' h)
  cases operand with
  | args now original =>
      cases pc with
      | tryPushLoad v => exact ⟨rfl, hnone, .inr htry, id⟩
      | tryPushCheck v k =>
          simp only [advance]
          split
          · rename_i hturn
            refine ⟨rfl, hnone, .inr htry, hmiss _ ?_⟩
            rintro rfl
            exact hturn
          · exact ⟨rfl, hnone, .inr htry, id⟩
      | tryPushCas v k =>
          have hadvance : advance .unbounded q (.tryPushCas v k) =
              (q, .tryPushCheck v q.head, none) := if_neg hwins
          rw [hadvance]
          exact ⟨rfl, hnone, .inr htry, id⟩
      | tryPushReload v k =>
          simp only [advance]
          split
          · exact ⟨rfl, hfailed, .inl rfl, id⟩
          · exact ⟨rfl, hnone, .inr htry, id⟩
      | _ => cases htry
  | value now original =>
      cases pc with
      | tryPopLoad => exact ⟨rfl, hnone, .inr htry, id⟩
      | tryPopCheck k =>
          simp only [advance]
          split
          · rename_i hturn
            refine ⟨rfl, hnone, .inr htry, hmiss _ ?_⟩
            rintro rfl
            exact hturn
          · exact ⟨rfl, hnone, .inr htry, id⟩
      | tryPopCas k =>
          have hadvance : advance .unbounded q (.tryPopCas k) = (q, .tryPopCheck q.tail, none) :=
            if_neg hwins
          rw [hadvance]
          exact ⟨rfl, hnone, .inr htry, id⟩
      | tryPopReload k =>
          simp only [advance]
          split
          · exact ⟨rfl, hfailed, .inl rfl, id⟩
          · exact ⟨rfl, hnone, .inr htry, id⟩
      | _ => cases htry

/-- A call that goes round and round. -/
def Spinning (fwd : Forwarding A T) (s : CancelSystem Tid Tok A T c) (tid : Tid) : Prop :=
  ∃ pc operand, At s tid s.base.queue pc operand ∧
    (pc = .idle ∨ Pc.trying pc = some (operand.call fwd)) ∧ ¬ operand.Free s.base.queue ∧
    ¬ Pc.Wins s.base.queue pc

theorem Spinning.step {a : CancelAction Tid Tok A T} (h : Spinning fwd s tid)
    (ha : a = .condition tid ∨ a = .attempt tid) (hstep : cancelStep fwd s a = some t) :
    Spinning fwd t tid ∧ t.finished = s.finished := by
  obtain ⟨pc, operand, ⟨caller, hcaller, hrunning, rfl, -, rfl⟩, hpc, hfree, hwins⟩ := h
  rcases ha with rfl | rfl
  · simp only [cancelStep, hcaller] at hstep
    split at hstep
    · rename_i hsame hidle
      cases hsame
      rw [if_neg (by simp [hrunning])] at hstep
      obtain ⟨base, hbase, rfl⟩ := Option.map_eq_some_iff.mp hstep
      rcases step_inv hbase with ⟨tid', call', hact, -, rfl⟩ | ⟨tid', hact, -⟩ <;> cases hact
      refine ⟨⟨_, caller.operand, ⟨caller, hcaller, hrunning, rfl, rfl, set_pc_self _ _ _ _ _⟩,
        .inr (trying_start fwd caller.operand), hfree, ?_⟩, rfl⟩
      cases caller.operand <;> exact id
    · cases hstep
  · simp only [cancelStep, hcaller] at hstep
    obtain ⟨base, hbase, rfl⟩ := Option.map_eq_some_iff.mp hstep
    obtain ⟨hbusy, rfl⟩ := after_tick hbase
    have htry := hpc.resolve_left hbusy
    obtain ⟨hqueue, hreturned, hnext, hmiss⟩ := spinning_advance htry hfree hwins
    have hoperand := after_trying fwd s.base.queue caller.operand htry
    rw [CancelSystem.proceed, if_neg hreturned]
    refine ⟨⟨_, caller.operand, ⟨_, Function.update_self _ _ _, hrunning, hoperand, rfl,
      set_pc_self _ _ _ _ _⟩, hnext, ?_, ?_⟩, rfl⟩
    · change ¬ caller.operand.Free (advance .unbounded s.base.queue (s.base.pc tid)).1
      rw [hqueue]
      exact hfree
    · change ¬ Pc.Wins (advance .unbounded s.base.queue (s.base.pc tid)).1 _
      rw [hqueue]
      exact hmiss

theorem Spinning.not_returns (h : Spinning fwd s tid) (n : Nat) : ¬ ReturnsAlone fwd tid n s := by
  rintro ⟨acts, t, r, -, hacts, hexec, hfinished, -⟩
  have hsame : t.finished = s.finished := by
    clear hfinished
    induction acts generalizing s with
    | nil =>
        cases hexec
        rfl
    | cons a rest ih =>
        obtain ⟨ha, hrest⟩ := List.forall_mem_cons.mp hacts
        obtain ⟨u, hstep, hexec⟩ := Option.bind_eq_some_iff.mp hexec
        obtain ⟨hspinning, hu⟩ := h.step ha hstep
        exact (ih hspinning hrest hexec).trans hu
  rw [hsame] at hfinished
  simpa using congrArg List.length hfinished

end Spinning

section Alone

variable {caller : Caller Tok A T}

theorem Inv.free_iff {b : System Tid T c} (hinv : Inv b) (hquiet : Quiet b)
    (operand : Operand A T) : operand.Free b.queue ↔ operand.Ready b.queue := by
  cases operand with
  | args => exact hinv.room_iff hquiet
  | value => exact hinv.element_iff hquiet

/-- A compare-exchange that will win has its slot ready. -/
theorem Inv.free_of_wins {b : System Tid T c} (hinv : Inv b)
    (htry : Pc.trying (b.pc tid) = some (operand.call fwd)) (hwins : Pc.Wins b.queue (b.pc tid)) :
    operand.Free b.queue := by
  have hlocal := hinv.atPc tid
  cases hpc : b.pc tid with
  | tryPushCas v k =>
      rw [hpc] at hlocal htry hwins
      cases operand with
      | args =>
          obtain rfl : b.queue.head = k := hwins
          exact Nat.le_antisymm hlocal.2 (hinv.turn_le_of_head_le (Nat.le_refl _))
      | value => cases htry
  | tryPopCas k =>
      rw [hpc] at hlocal htry hwins
      cases operand with
      | args => cases htry
      | value =>
          obtain rfl : b.queue.tail = k := hwins
          exact Nat.le_antisymm hlocal.2 (hinv.turn_le_of_tail_le (Nat.le_refl _))
  | _ =>
      rw [hpc] at hwins
      exact hwins.elim

variable [DecidableEq Tid]

/-- A thread that holds no ticket has not begun, or is trying. -/
theorem CancelInv.pc_of_quiet (h : CancelInv fwd s) (hcaller : s.caller tid = some caller)
    (hquiet : Quiet s.base) :
    s.base.pc tid = .idle ∨ Pc.trying (s.base.pc tid) = some (caller.operand.call fwd) := by
  have hholding := h.holding tid caller hcaller
  obtain ⟨hhead, htail⟩ := hquiet tid
  generalize s.base.pc tid = pc at hholding hhead htail
  cases hholding with
  | condition => exact .inl rfl
  | trying htry => exact .inr htry
  | construct | storePush => cases hhead
  | extract | destroy | storePop => cases htail

variable [DecidableEq Tok]

theorem CancelInv.holder_returns (h : CancelInv fwd s) (hcaller : s.caller tid = some caller)
    (hrunning : s.stopped caller.token = false)
    (hticket : Pc.headTicket (s.base.pc tid) ≠ none ∨ Pc.tailTicket (s.base.pc tid) ≠ none) :
    ReturnsAlone fwd tid 3 s := by
  have hat : At s tid s.base.queue (s.base.pc tid) caller.operand :=
    ⟨caller, hcaller, hrunning, rfl, rfl, rfl⟩
  have hholding := h.holding tid caller hcaller
  generalize s.base.pc tid = pc at hat hholding hticket
  cases hholding with
  | condition => exact absurd hticket (by simp [Pc.headTicket, Pc.tailTicket])
  | trying htry =>
      cases pc <;> first
        | cases htry
        | exact absurd hticket (by simp [Pc.headTicket, Pc.tailTicket])
  | construct => exact hat.construct.mono (by omega)
  | storePush => exact hat.storePush.mono (by omega)
  | extract => exact hat.extract
  | destroy => exact hat.destroy.mono (by omega)
  | storePop => exact hat.storePop.mono (by omega)

theorem CancelInv.ready_returns (h : CancelInv fwd s) (hcaller : s.caller tid = some caller)
    (hrunning : s.stopped caller.token = false) (hquiet : Quiet s.base)
    (hready : caller.operand.Ready s.base.queue) : ReturnsAlone fwd tid 9 s := by
  have hat : At s tid s.base.queue (s.base.pc tid) caller.operand :=
    ⟨caller, hcaller, hrunning, rfl, rfl, rfl⟩
  have hpc := h.pc_of_quiet hcaller hquiet
  have hfree := ((reachable_inv h.base).free_iff hquiet caller.operand).mpr hready
  cases hoperand : caller.operand with
  | args now original =>
      rw [hoperand] at hat hpc hfree
      exact (hat.push hpc hfree).mono (by omega)
  | value now original =>
      rw [hoperand] at hat hpc hfree
      exact hat.pop hpc hfree

/-- For every capacity, any number of threads, plain ones among them, and after any
interleaving, take a cancelable call that nobody has asked to stop and let its thread run
alone. If it holds a ticket, the call returns true within three steps. If no thread holds
one, the call returns true at some time exactly if the counters say that there is room for
the push, or an element for the pop, and then within nine steps, whatever it has read
before. -/
theorem alone_returns_iff (h : (cancelSystem fwd Tid Tok c).Reachable s)
    (hcaller : s.caller tid = some caller) (hrunning : s.stopped caller.token = false) :
    (Pc.headTicket (s.base.pc tid) ≠ none ∨ Pc.tailTicket (s.base.pc tid) ≠ none →
      ReturnsAlone fwd tid 3 s) ∧
    (Quiet s.base →
      ((∃ n, ReturnsAlone fwd tid n s) ↔ caller.operand.Ready s.base.queue) ∧
      (caller.operand.Ready s.base.queue → ReturnsAlone fwd tid 9 s)) := by
  have hcancel := cancelInv_reachable h
  have hinv := reachable_inv hcancel.base
  refine ⟨hcancel.holder_returns hcaller hrunning, fun hquiet => ?_⟩
  have hready := hcancel.ready_returns hcaller hrunning hquiet
  refine ⟨⟨fun ⟨n, hreturns⟩ => ?_, fun hr => ⟨9, hready hr⟩⟩, hready⟩
  by_contra hnot
  rw [← hinv.free_iff hquiet] at hnot
  have hpc := hcancel.pc_of_quiet hcaller hquiet
  refine Spinning.not_returns ⟨_, _, ⟨caller, hcaller, hrunning, rfl, rfl, rfl⟩, hpc, hnot,
    fun hwins => hnot ?_⟩ n hreturns
  rcases hpc with hidle | htry
  · rw [hidle] at hwins
    exact hwins.elim
  · exact hinv.free_of_wins htry hwins

/-- The counter that the second thread has read is old, and the queue is full. -/
theorem alone_returns_iff_full :
    ∃ s, (cancelSystem (⟨id, id⟩ : Forwarding Nat Nat) (Fin 2) Unit 1).Reachable s ∧
      s.base.queue.head = 1 ∧ s.base.queue.tail = 0 ∧
      ¬ ∃ n, ReturnsAlone ⟨id, id⟩ (1 : Fin 2) n s := by
  obtain ⟨s, hrun, hs⟩ :=
    (cancelSystem (⟨id, id⟩ : Forwarding Nat Nat) (Fin 2) Unit 1).exists_of_map
    [.push 1 () 9, .condition 1, .attempt 1, .plain (.invoke 0 (.push 7)), .plain (.tick 0),
      .plain (.tick 0), .plain (.tick 0), .plain (.tick 0)]
    (b := (some (.args 9 9), false, 1, 0, .idle, .tryPushCheck 9 0))
    (fun s => ((s.caller 1).map Caller.operand, s.stopped (), s.base.queue.head,
      s.base.queue.tail, s.base.pc 0, s.base.pc 1)) rfl
  simp only [Prod.mk.injEq, Option.map_eq_some_iff] at hs
  obtain ⟨⟨caller, hcaller, hoperand⟩, hrunning, hhead, htail, hfirst, hsecond⟩ := hs
  have hquiet : Quiet s.base := by
    refine Fin.forall_fin_two.mpr ⟨?_, ?_⟩
    · rw [hfirst]
      exact ⟨rfl, rfl⟩
    · rw [hsecond]
      exact ⟨rfl, rfl⟩
  refine ⟨s, hrun.reachable, hhead, htail, fun hreturns => ?_⟩
  have hready := ((alone_returns_iff hrun.reachable hcaller hrunning).2 hquiet).1.mp hreturns
  rw [hoperand] at hready
  simp [Operand.Ready, hhead, htail] at hready

end Alone

end YkUtil.Exec.AtomicQueue
