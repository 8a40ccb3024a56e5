import YkUtil.Exec.AtomicQueue.Cancelable

/-!
A cancelable call whose thread runs alone. A thread that holds a ticket returns, and a call
that finds its slot ready wins the next ticket, however old the counter is that it has read.
-/

namespace YkUtil.Exec.AtomicQueue

open YkUtil.Lib

variable {Tid Tok A T : Type*} {c : Nat} [DecidableEq Tid] [DecidableEq Tok] [NeZero c]
  {fwd : Forwarding A T} {s t : CancelSystem Tid Tok A T c} {tid : Tid}
  {q : AtomicQueue T c} {pc : Pc T} {operand : Operand A T} {n : Nat}

/-- With no other thread moving, the call of `tid` returns true in at most `n` steps. -/
def ReturnsAlone (fwd : Forwarding A T) (tid : Tid) (n : Nat)
    (s : CancelSystem Tid Tok A T c) : Prop :=
  ∃ acts t r, acts.length ≤ n ∧ (∀ a ∈ acts, a = .condition tid ∨ a = .attempt tid) ∧
    (cancelSystem fwd Tid Tok c).exec s acts = some t ∧ t.finished = s.finished ++ [r] ∧
    r.tid = tid ∧ r.ok = true

theorem ReturnsAlone.mono {m : Nat} (h : ReturnsAlone fwd tid m s) (hle : m ≤ n) :
    ReturnsAlone fwd tid n s := by
  obtain ⟨acts, t, r, hlength, hrest⟩ := h
  exact ⟨acts, t, r, hlength.trans hle, hrest⟩

theorem ReturnsAlone.of_step {a : CancelAction Tid Tok A T}
    (ha : a = .condition tid ∨ a = .attempt tid) (hstep : cancelStep fwd s a = some t)
    (hfinished : t.finished = s.finished) (h : ReturnsAlone fwd tid n t) :
    ReturnsAlone fwd tid (n + 1) s := by
  obtain ⟨acts, u, r, hlength, hacts, hexec, hu, hr⟩ := h
  refine ⟨a :: acts, u, r, by simpa using hlength, ?_, ?_, hfinished ▸ hu, hr⟩
  · exact List.forall_mem_cons.mpr ⟨ha, hacts⟩
  · exact Option.bind_eq_some_iff.mpr ⟨t, hstep, hexec⟩

/-- Where a thread is in a call that nobody has asked to stop. -/
def At (s : CancelSystem Tid Tok A T c) (tid : Tid) (q : AtomicQueue T c) (pc : Pc T)
    (operand : Operand A T) : Prop :=
  ∃ caller, s.caller tid = some caller ∧ s.stopped caller.token = false ∧
    caller.operand = operand ∧ s.base.queue = q ∧ s.base.pc tid = pc

/-- The rule for an atomic step of the thread. -/
theorem At.attempt (h : At s tid q pc operand) (hbusy : pc ≠ .idle)
    (hnext : Event.returned (advance .unbounded q pc).2.2 ≠ some true →
      ∀ t : CancelSystem Tid Tok A T c, At t tid (advance .unbounded q pc).1
        (advance .unbounded q pc).2.1 (operand.after fwd q pc) → ReturnsAlone fwd tid n t) :
    ReturnsAlone fwd tid (n + 1) s := by
  obtain ⟨caller, hcaller, hrunning, rfl, rfl, rfl⟩ := h
  have hbase : step .unbounded s.base (.tick tid) =
      some (s.base.apply tid (advance .unbounded s.base.queue (s.base.pc tid))) := by
    simp only [step]
  have hstep : cancelStep fwd s (.attempt tid) = some (CancelSystem.proceed
      {s with base := s.base.apply tid (advance .unbounded s.base.queue (s.base.pc tid))} tid
      (caller.after fwd s.base.queue (s.base.pc tid))
      (advance .unbounded s.base.queue (s.base.pc tid)).2.2) := by
    simp only [cancelStep, hcaller, hbase, Option.map_some]
  by_cases hreturned : Event.returned (advance .unbounded s.base.queue (s.base.pc tid)).2.2 =
      some true
  · rw [CancelSystem.proceed, if_pos hreturned] at hstep
    have hexec := Option.bind_eq_some_iff.mpr ⟨_, hstep, rfl⟩
    exact ⟨[.attempt tid], _, _, Nat.le_add_left 1 n, by simp, hexec, rfl, rfl, rfl⟩
  · rw [CancelSystem.proceed, if_neg hreturned] at hstep
    refine .of_step (.inr rfl) hstep rfl (hnext hreturned _ ?_)
    exact ⟨_, Function.update_self _ _ _, hrunning, rfl, rfl, set_pc_self _ _ _ _ _⟩

/-- The rule for the loop condition. -/
theorem At.condition (h : At s tid q .idle operand)
    (hnext : ∀ t : CancelSystem Tid Tok A T c, At t tid q (operand.call fwd).start operand →
      ReturnsAlone fwd tid n t) : ReturnsAlone fwd tid (n + 1) s := by
  obtain ⟨caller, hcaller, hrunning, rfl, rfl, hidle⟩ := h
  have hstep : cancelStep fwd s (.condition tid) = some {s with
      base := s.base.set tid s.base.queue (caller.operand.call fwd).start none} := by
    simp [cancelStep, hcaller, hidle, hrunning, step]
  refine .of_step (.inl rfl) hstep rfl (hnext _ ?_)
  exact ⟨caller, hcaller, hrunning, rfl, rfl, set_pc_self _ _ _ _ _⟩

section Holder

variable {mode : Mode} {k : Nat}

theorem At.storePush (h : At s tid q (.storePush mode k) operand) : ReturnsAlone fwd tid 1 s :=
  h.attempt nofun fun hne => absurd rfl hne

theorem At.construct {v : T} (h : At s tid q (.construct mode v k) operand) :
    ReturnsAlone fwd tid 2 s :=
  h.attempt nofun fun _ _ ht => At.storePush ht

theorem At.storePop {r : Option T} (h : At s tid q (.storePop mode k r) operand) :
    ReturnsAlone fwd tid 1 s :=
  h.attempt nofun fun hne => absurd rfl hne

theorem At.destroy {r : Option T} (h : At s tid q (.destroy mode k r) operand) :
    ReturnsAlone fwd tid 2 s :=
  h.attempt nofun fun _ _ ht => At.storePop ht

theorem At.extract (h : At s tid q (.extract mode k) operand) : ReturnsAlone fwd tid 3 s :=
  h.attempt nofun fun _ _ ht => At.destroy ht

end Holder

section Push

variable {v : T} {k : Nat}

theorem At.tryPushCas (h : At s tid q (.tryPushCas v q.head) operand) :
    ReturnsAlone fwd tid 3 s := by
  refine h.attempt nofun fun _ t ht => ?_
  simp only [advance, if_true] at ht
  exact ht.construct

theorem At.tryPushCheck (h : At s tid q (.tryPushCheck v q.head) operand)
    (hroom : turn c q.head * 2 = (q.slotAt q.head).turn) :
    ReturnsAlone fwd tid 4 s := by
  refine h.attempt nofun fun _ t ht => ?_
  simp only [advance, SizeT.wrap_unbounded, hroom, if_true] at ht
  exact ht.tryPushCas

theorem At.tryPushLoad (h : At s tid q (.tryPushLoad v) operand)
    (hroom : turn c q.head * 2 = (q.slotAt q.head).turn) :
    ReturnsAlone fwd tid 5 s :=
  h.attempt nofun fun _ _ ht => At.tryPushCheck ht hroom

theorem At.pushCondition {now original : A} (h : At s tid q .idle (.args now original))
    (hroom : turn c q.head * 2 = (q.slotAt q.head).turn) : ReturnsAlone fwd tid 6 s :=
  h.condition fun _ ht => At.tryPushLoad ht hroom

/-- A counter that has been read some time ago is read again. -/
theorem At.tryPushReload {now original : A}
    (h : At s tid q (.tryPushReload v k) (.args now original))
    (hroom : turn c q.head * 2 = (q.slotAt q.head).turn) : ReturnsAlone fwd tid 7 s := by
  refine h.attempt nofun fun _ t ht => ?_
  simp only [advance] at ht
  split at ht
  · exact At.pushCondition ht hroom
  · exact (At.tryPushCheck ht hroom).mono (by omega)

theorem At.push {now original : A} (h : At s tid q pc (.args now original))
    (hpc : pc = .idle ∨ Pc.trying pc = some (.tryPush v))
    (hroom : turn c q.head * 2 = (q.slotAt q.head).turn) :
    ReturnsAlone fwd tid 8 s := by
  rcases hpc with rfl | htry
  · exact (h.pushCondition hroom).mono (by omega)
  · cases pc with
    | tryPushLoad w => exact (h.tryPushLoad hroom).mono (by omega)
    | tryPushReload w k => exact (h.tryPushReload hroom).mono (by omega)
    | tryPushCas w k =>
        refine (h.attempt (n := 4) (by simp) fun _ t ht => ?_).mono (by omega)
        simp only [advance] at ht
        split at ht
        · exact ht.construct.mono (by omega)
        · exact At.tryPushCheck ht hroom
    | tryPushCheck w k =>
        refine h.attempt (by simp) fun _ t ht => ?_
        simp only [advance] at ht
        split at ht
        · refine (At.attempt (n := 4) ht (by simp) fun _ u hu => ?_).mono (by omega)
          simp only [advance] at hu
          split at hu
          · exact hu.construct.mono (by omega)
          · exact At.tryPushCheck hu hroom
        · exact At.tryPushReload ht hroom
    | _ => cases htry

end Push

section Pop

variable {k : Nat}

theorem At.tryPopCas (h : At s tid q (.tryPopCas q.tail) operand) : ReturnsAlone fwd tid 4 s := by
  refine h.attempt nofun fun _ t ht => ?_
  simp only [advance, if_true] at ht
  exact ht.extract

theorem At.tryPopCheck (h : At s tid q (.tryPopCheck q.tail) operand)
    (hfull : turn c q.tail * 2 + 1 = (q.slotAt q.tail).turn) : ReturnsAlone fwd tid 5 s := by
  refine h.attempt nofun fun _ t ht => ?_
  simp only [advance, SizeT.wrap_unbounded, hfull, if_true] at ht
  exact ht.tryPopCas

theorem At.tryPopLoad (h : At s tid q .tryPopLoad operand)
    (hfull : turn c q.tail * 2 + 1 = (q.slotAt q.tail).turn) : ReturnsAlone fwd tid 6 s :=
  h.attempt nofun fun _ _ ht => At.tryPopCheck ht hfull

theorem At.popCondition {now original : Option T} (h : At s tid q .idle (.value now original))
    (hfull : turn c q.tail * 2 + 1 = (q.slotAt q.tail).turn) : ReturnsAlone fwd tid 7 s :=
  h.condition fun _ ht => At.tryPopLoad ht hfull

theorem At.tryPopReload {now original : Option T}
    (h : At s tid q (.tryPopReload k) (.value now original))
    (hfull : turn c q.tail * 2 + 1 = (q.slotAt q.tail).turn) : ReturnsAlone fwd tid 8 s := by
  refine h.attempt nofun fun _ t ht => ?_
  simp only [advance] at ht
  split at ht
  · exact At.popCondition ht hfull
  · exact (At.tryPopCheck ht hfull).mono (by omega)

theorem At.pop {now original : Option T} (h : At s tid q pc (.value now original))
    (hpc : pc = .idle ∨ Pc.trying pc = some .tryPop)
    (hfull : turn c q.tail * 2 + 1 = (q.slotAt q.tail).turn) : ReturnsAlone fwd tid 9 s := by
  rcases hpc with rfl | htry
  · exact (h.popCondition hfull).mono (by omega)
  · cases pc with
    | tryPopLoad => exact (h.tryPopLoad hfull).mono (by omega)
    | tryPopReload k => exact (h.tryPopReload hfull).mono (by omega)
    | tryPopCas k =>
        refine (h.attempt (n := 5) (by simp) fun _ t ht => ?_).mono (by omega)
        simp only [advance] at ht
        split at ht
        · exact ht.extract.mono (by omega)
        · exact At.tryPopCheck ht hfull
    | tryPopCheck k =>
        refine h.attempt (by simp) fun _ t ht => ?_
        simp only [advance] at ht
        split at ht
        · refine (At.attempt (n := 5) ht (by simp) fun _ u hu => ?_).mono (by omega)
          simp only [advance] at hu
          split at hu
          · exact hu.extract.mono (by omega)
          · exact At.tryPopCheck hu hfull
        · exact At.tryPopReload ht hfull
    | _ => cases htry

end Pop

end YkUtil.Exec.AtomicQueue
