import YkUtil.Exec.AtomicQueue.Cancel

/-!
What the cancelable calls return, against what they have done. The invariant
follows every call from its loop condition through its failed attempts to the
one that succeeds; the events of a call that has returned then say how many
elements it has moved.
-/

namespace YkUtil.Exec.AtomicQueue

open YkUtil.Lib

variable {Tid Tok A T : Type*} {c : Nat} [DecidableEq Tid] [NeZero c]

/-- What a call that returns shows of itself. -/
def Finished.Correct (fwd : Forwarding A T) (r : Finished Tid Tok A T) : Prop :=
  (r.ok = true → Succeeded fwd r.caller) ∧ (r.ok = false → r.caller.Fresh ∧ r.stopped = true)

/-- The invariant of the calls. -/
structure CancelInv (fwd : Forwarding A T) (s : CancelSystem Tid Tok A T c) : Prop where
  base : (system Tid T c).Reachable s.base
  holding : ∀ tid caller, s.caller tid = some caller → Holding fwd caller (s.base.pc tid)
  recorded : ∀ tid caller, s.caller tid = some caller →
    ∀ e ∈ caller.events, (tid, e) ∈ s.base.history
  correct : ∀ r ∈ s.finished, r.Correct fwd
  kept : ∀ r ∈ s.finished, ∀ e ∈ r.caller.events, (r.tid, e) ∈ s.base.history

variable {fwd : Forwarding A T} {s t : CancelSystem Tid Tok A T c}

theorem base_step {b b' : System Tid T c} {action : Action Tid T}
    (h : step .unbounded b action = some b') :
    (∀ entry ∈ b.history, entry ∈ b'.history) ∧
      ∀ tid, tid ≠ action.tid → b'.pc tid = b.pc tid := by
  rcases step_inv h with ⟨tid, call, rfl, -, rfl⟩ | ⟨tid, rfl, -, rfl⟩
  · exact ⟨fun entry hmem => mem_set_of_mem hmem, fun other hne => set_pc_other _ _ _ _ _ hne⟩
  · exact ⟨fun entry hmem => mem_set_of_mem hmem, fun other hne => set_pc_other _ _ _ _ _ hne⟩

theorem Holding.fresh_of_idle {caller : Caller Tok A T} (h : Holding fwd caller .idle) :
    caller.Fresh := by
  cases h with
  | condition hfresh => exact hfresh
  | trying htry _ => cases htry

theorem CancelInv.enter (h : CancelInv fwd s) {tid : Tid} (token : Tok) {operand : Operand A T}
    (hidle : s.base.pc tid = .idle) (hunused : operand.Unused) :
    CancelInv fwd (s.enter tid token operand) := by
  refine ⟨h.base, ?_, ?_, h.correct, h.kept⟩
  · intro other caller hcaller
    by_cases hother : other = tid
    · subst hother
      simp only [CancelSystem.enter, Function.update_self, Option.some.injEq] at hcaller
      subst hcaller
      change Holding fwd _ (s.base.pc other)
      rw [hidle]
      exact .condition ⟨nofun, hunused, trivial⟩
    · simp only [CancelSystem.enter, Function.update_of_ne hother] at hcaller
      exact h.holding other caller hcaller
  · intro other caller hcaller
    by_cases hother : other = tid
    · subst hother
      simp only [CancelSystem.enter, Function.update_self, Option.some.injEq] at hcaller
      subst hcaller
      exact nofun
    · simp only [CancelSystem.enter, Function.update_of_ne hother] at hcaller
      exact h.recorded other caller hcaller

/-- A call returns: nothing is known of its thread any more, and its record is
as the condition for returning says. -/
theorem CancelInv.finish (h : CancelInv fwd s) {tid : Tid} {caller : Caller Tok A T} {ok : Bool}
    (hcorrect : Finished.Correct fwd
      (⟨tid, caller, ok, s.stopped caller.token⟩ : Finished Tid Tok A T))
    (hkept : ∀ e ∈ caller.events, (tid, e) ∈ s.base.history) :
    CancelInv fwd (s.finish tid caller ok) := by
  have hcallers : ∀ other caller', (s.finish tid caller ok).caller other = some caller' →
      s.caller other = some caller' := by
    intro other caller' hcaller
    by_cases hother : other = tid
    · subst hother
      simp [CancelSystem.finish] at hcaller
    · simpa [CancelSystem.finish, hother] using hcaller
  refine ⟨h.base, ?_, ?_, ?_, ?_⟩
  · intro other caller' hcaller
    exact h.holding other caller' (hcallers other caller' hcaller)
  · intro other caller' hcaller
    exact h.recorded other caller' (hcallers other caller' hcaller)
  · intro r hr
    rcases List.mem_append.mp hr with hr | hr
    · exact h.correct r hr
    · cases List.mem_singleton.mp hr
      exact hcorrect
  · intro r hr
    rcases List.mem_append.mp hr with hr | hr
    · exact h.kept r hr
    · cases List.mem_singleton.mp hr
      exact hkept

/-- A step of the queue, with what is then known of the thread that took it. -/
theorem CancelInv.setBase (h : CancelInv fwd s) {base : System Tid T c} {action : Action Tid T}
    {callers : Tid → Option (Caller Tok A T)}
    (hbase : step .unbounded s.base action = some base)
    (hothers : ∀ tid, tid ≠ action.tid → callers tid = s.caller tid)
    (hactor : ∀ caller, callers action.tid = some caller →
      Holding fwd caller (base.pc action.tid) ∧
        ∀ e ∈ caller.events, (action.tid, e) ∈ base.history) :
    CancelInv fwd ({s with base := base, caller := callers} : CancelSystem Tid Tok A T c) := by
  obtain ⟨hhistory, hpc⟩ := base_step hbase
  refine ⟨h.base.step hbase, ?_, ?_, h.correct, ?_⟩
  · intro tid caller hcaller
    by_cases htid : tid = action.tid
    · subst htid
      exact (hactor caller hcaller).1
    · change Holding fwd caller (base.pc tid)
      change callers tid = some caller at hcaller
      rw [hpc tid htid]
      rw [hothers tid htid] at hcaller
      exact h.holding tid caller hcaller
  · intro tid caller hcaller e he
    by_cases htid : tid = action.tid
    · subst htid
      exact (hactor caller hcaller).2 e he
    · change callers tid = some caller at hcaller
      rw [hothers tid htid] at hcaller
      exact hhistory _ (h.recorded tid caller hcaller e he)
  · intro r hr e he
    exact hhistory _ (h.kept r hr e he)

theorem trying_start (fwd : Forwarding A T) (operand : Operand A T) :
    Pc.trying (operand.call fwd).start = some (operand.call fwd) := by
  cases operand <;> rfl

theorem pc_after_invoke {b b' : System Tid T c} {tid : Tid} {call : Call T}
    (h : step .unbounded b (.invoke tid call) = some b') : b'.pc tid = call.start := by
  rcases step_inv h with ⟨tid', call', hact, -, rfl⟩ | ⟨tid', hact, -, -⟩
  · cases hact
    exact set_pc_self _ _ _ _ _
  · cases hact

theorem after_tick {b b' : System Tid T c} {tid : Tid}
    (h : step .unbounded b (.tick tid) = some b') :
    b.pc tid ≠ .idle ∧ b' = b.apply tid (advance .unbounded b.queue (b.pc tid)) := by
  rcases step_inv h with ⟨tid', call', hact, -, -⟩ | ⟨tid', hact, hbusy, rfl⟩
  · cases hact
  · cases hact
    exact ⟨hbusy, rfl⟩

/-- The events of a call are in the history after its step. -/
theorem recorded_after (h : CancelInv fwd s) {tid : Tid} {caller : Caller Tok A T}
    (hcaller : s.caller tid = some caller) :
    ∀ e ∈ (caller.after fwd s.base.queue (s.base.pc tid)).events,
      (tid, e) ∈ (s.base.apply tid (advance .unbounded s.base.queue (s.base.pc tid))).history := by
  intro e he
  apply mem_set_history.mpr
  rcases List.mem_append.mp he with he | he
  · exact .inl (h.recorded tid caller hcaller e he)
  · exact .inr ⟨rfl, Option.mem_toList.mp he⟩

/-- One atomic step of an attempt. -/
theorem CancelInv.proceed (h : CancelInv fwd s) {tid : Tid} {caller : Caller Tok A T}
    {base : System Tid T c} (hcaller : s.caller tid = some caller)
    (hbase : step .unbounded s.base (.tick tid) = some base) :
    CancelInv fwd (CancelSystem.proceed ({s with base := base} : CancelSystem Tid Tok A T c) tid
      (caller.after fwd s.base.queue (s.base.pc tid))
      (advance .unbounded s.base.queue (s.base.pc tid)).2.2) := by
  obtain ⟨hbusy, rfl⟩ := after_tick hbase
  have hrecorded := recorded_after h hcaller
  rcases (h.holding tid caller hcaller).attempt (q := s.base.queue) hbusy with
    ⟨hreturned, hholding⟩ | ⟨hreturned, hsucceeded⟩
  · rw [CancelSystem.proceed, if_neg hreturned]
    apply h.setBase hbase
    · intro other hother
      exact Function.update_of_ne hother _ _
    · intro next hnext
      simp only [Action.tid, Function.update_self, Option.some.injEq] at hnext
      subst hnext
      refine ⟨?_, hrecorded⟩
      change Holding fwd _ ((s.base.apply tid _).pc tid)
      rw [System.apply, set_pc_self]
      exact hholding
  · rw [CancelSystem.proceed, if_pos hreturned]
    let left : CancelSystem Tid Tok A T c :=
      {s with
        base := s.base.apply tid (advance .unbounded s.base.queue (s.base.pc tid))
        caller := Function.update s.caller tid none}
    have hleft : CancelInv fwd left := by
      apply h.setBase hbase
      · intro other hother
        exact Function.update_of_ne hother _ _
      · intro next hnext
        simp [Action.tid] at hnext
    have hdone : CancelInv fwd
        (left.finish tid (caller.after fwd s.base.queue (s.base.pc tid)) true) :=
      hleft.finish ⟨fun _ => hsucceeded, nofun⟩ hrecorded
    simp only [CancelSystem.finish, left, Function.update_idem] at hdone ⊢
    exact hdone

/-- The elements a call has put into slots, with their tickets. -/
def inserted (events : List (Event T)) : List (Nat × T) :=
  events.filterMap fun | .headTicket k v => some (k, v) | _ => none

/-- The tickets whose element a call has handed over to the pops. -/
def completed (events : List (Event T)) : List Nat :=
  events.filterMap fun | .pushed k => some k | _ => none

/-- What a call has taken out of slots, with the tickets. -/
def removed (events : List (Event T)) : List (Nat × Option T) :=
  events.filterMap fun | .popped k r => some (k, r) | _ => none

theorem filterMap_failed {β : Type*} (f : Event T → Option β) {operand : Operand A T}
    (hf : f operand.failed = none) {fails : List (Event T)}
    (hfails : ∀ e ∈ fails, e = operand.failed) : fails.filterMap f = [] := by
  rw [List.filterMap_eq_nil_iff]
  intro e he
  rw [hfails e he, hf]

theorem Caller.Fresh.nothing {caller : Caller Tok A T} (h : caller.Fresh) :
    inserted caller.events = [] ∧ removed caller.events = [] := by
  constructor
  · apply filterMap_failed _ _ h.failed
    cases caller.operand <;> rfl
  · apply filterMap_failed _ _ h.failed
    cases caller.operand <;> rfl

theorem Caller.Won.pushed {caller : Caller Tok A T} {k : Nat} {v : T}
    (h : caller.Won [.headTicket k v, .pushed k]) :
    inserted caller.events = [(k, v)] ∧ completed caller.events = [k] := by
  obtain ⟨fails, hevents, hfails⟩ := h
  constructor
  · rw [hevents, inserted, List.filterMap_append, filterMap_failed _ _ hfails]
    · rfl
    · cases caller.operand <;> rfl
  · rw [hevents, completed, List.filterMap_append, filterMap_failed _ _ hfails]
    · rfl
    · cases caller.operand <;> rfl

theorem Caller.Won.popped {caller : Caller Tok A T} {k : Nat} {r : Option T}
    (h : caller.Won [.tailTicket k, .popped k r]) : removed caller.events = [(k, r)] := by
  obtain ⟨fails, hevents, hfails⟩ := h
  rw [hevents, removed, List.filterMap_append, filterMap_failed _ _ hfails]
  · rfl
  · cases caller.operand <;> rfl

theorem Succeeded.pushed {caller : Caller Tok A T} {now original : A}
    (h : Succeeded fwd caller) (hoperand : caller.operand = .args now original) :
    ∃ k, inserted caller.events = [(k, fwd.build original)] ∧ completed caller.events = [k] := by
  cases h with
  | push hargs hwon =>
      cases hargs.symm.trans hoperand
      exact ⟨_, hwon.pushed⟩
  | pop hvalue _ => cases hvalue.symm.trans hoperand

theorem Succeeded.popped {caller : Caller Tok A T} {now original : Option T}
    (h : Succeeded fwd caller) (hoperand : caller.operand = .value now original) :
    ∃ k, removed caller.events = [(k, now)] ∧ .popped k now ∈ caller.events := by
  cases h with
  | push hargs _ => cases hargs.symm.trans hoperand
  | pop hvalue hwon =>
      cases hvalue.symm.trans hoperand
      refine ⟨_, hwon.popped, ?_⟩
      obtain ⟨fails, hevents, -⟩ := hwon
      rw [hevents]
      exact List.mem_append_right _ (.tail _ (List.mem_singleton_self _))

variable [DecidableEq Tok]

/-- What one action does. -/
theorem cancelStep_inv {a : CancelAction Tid Tok A T} (h : cancelStep fwd s a = some t) :
    (∃ action base, s.caller action.tid = none ∧ step .unbounded s.base action = some base ∧
      t = {s with base := base}) ∨
    (∃ tid token operand, s.base.pc tid = .idle ∧ operand.Unused ∧
      t = s.enter tid token operand) ∨
    (∃ token, t = {s with stopped := Function.update s.stopped token true}) ∨
    (∃ tid caller, s.caller tid = some caller ∧ s.base.pc tid = .idle ∧
      s.stopped caller.token = true ∧ t = s.finish tid caller false) ∨
    (∃ tid caller base, s.caller tid = some caller ∧ s.base.pc tid = .idle ∧
      step .unbounded s.base (.invoke tid (caller.operand.call fwd)) = some base ∧
      t = {s with base := base}) ∨
    ∃ tid caller base, s.caller tid = some caller ∧
      step .unbounded s.base (.tick tid) = some base ∧
      t = CancelSystem.proceed {s with base := base} tid
        (caller.after fwd s.base.queue (s.base.pc tid))
        (advance .unbounded s.base.queue (s.base.pc tid)).2.2 := by
  cases a with
  | plain action =>
      left
      simp only [cancelStep] at h
      split at h
      · cases h
      · rename_i hnone
        obtain ⟨base, hbase, rfl⟩ := Option.map_eq_some_iff.mp h
        exact ⟨action, base, hnone, hbase, rfl⟩
  | push tid token args =>
      right; left
      simp only [cancelStep] at h
      split at h
      · rename_i hidle
        exact ⟨tid, token, .args args args, hidle, rfl, (Option.some.inj h).symm⟩
      · cases h
  | pop tid token value =>
      right; left
      simp only [cancelStep] at h
      split at h
      · rename_i hidle
        exact ⟨tid, token, .value (some value) (some value), hidle, rfl, (Option.some.inj h).symm⟩
      · cases h
  | requestStop token => exact .inr (.inr (.inl ⟨token, (Option.some.inj h).symm⟩))
  | condition tid =>
      simp only [cancelStep] at h
      split at h
      · rename_i caller hcaller hidle
        split at h
        · rename_i hstop
          exact .inr (.inr (.inr (.inl ⟨tid, caller, hcaller, hidle, hstop,
            (Option.some.inj h).symm⟩)))
        · obtain ⟨base, hbase, rfl⟩ := Option.map_eq_some_iff.mp h
          exact .inr (.inr (.inr (.inr (.inl ⟨tid, caller, base, hcaller, hidle, hbase, rfl⟩))))
      · cases h
  | attempt tid =>
      simp only [cancelStep] at h
      split at h
      · cases h
      · rename_i caller hcaller
        obtain ⟨base, hbase, rfl⟩ := Option.map_eq_some_iff.mp h
        exact .inr (.inr (.inr (.inr (.inr ⟨tid, caller, base, hcaller, hbase, rfl⟩))))

theorem cancelInv_step {a : CancelAction Tid Tok A T} (h : CancelInv fwd s)
    (hstep : cancelStep fwd s a = some t) : CancelInv fwd t := by
  rcases cancelStep_inv hstep with ⟨action, base, hnone, hbase, rfl⟩ |
    ⟨tid, token, operand, hidle, hunused, rfl⟩ | ⟨token, rfl⟩ |
    ⟨tid, caller, hcaller, hidle, hstop, rfl⟩ | ⟨tid, caller, base, hcaller, hidle, hbase, rfl⟩ |
    ⟨tid, caller, base, hcaller, hbase, rfl⟩
  · exact h.setBase hbase (fun _ _ => rfl) fun caller hcaller => by simp [hnone] at hcaller
  · exact h.enter token hidle hunused
  · exact ⟨h.base, h.holding, h.recorded, h.correct, h.kept⟩
  · have hholding := h.holding tid caller hcaller
    rw [hidle] at hholding
    exact h.finish ⟨nofun, fun _ => ⟨hholding.fresh_of_idle, hstop⟩⟩ (h.recorded tid caller hcaller)
  · have hholding := h.holding tid caller hcaller
    rw [hidle] at hholding
    apply h.setBase hbase (fun _ _ => rfl)
    intro caller' hcaller'
    rw [Action.tid, hcaller, Option.some.injEq] at hcaller'
    subst hcaller'
    refine ⟨?_, ?_⟩
    · change Holding fwd caller (base.pc tid)
      rw [pc_after_invoke hbase]
      exact .trying (trying_start fwd caller.operand) hholding.fresh_of_idle
    · intro e he
      exact (base_step hbase).1 _ (h.recorded tid caller hcaller e he)
  · exact h.proceed hcaller hbase

theorem cancelInv_reachable (h : (cancelSystem fwd Tid Tok c).Reachable s) : CancelInv fwd s := by
  apply TransitionSystem.invariant _ ?_ ?_ h
  · exact ⟨TransitionSystem.reachable_init _, nofun, nofun, nofun, nofun⟩
  · intro s a t _ hs hstep
    exact cancelInv_step hs hstep

/-- For every capacity, any number of threads and any interleaving, stop
requests included: `cancelable_bounded_push` returns true exactly if it put one
element into the queue, made of the original arguments, and false exactly if a
stop was requested, it put in none, and the arguments are as they were.
`cancelable_pop` returns true exactly if it took one element out, which is then
in the variable, and otherwise leaves the variable as it was. A call that
returns false has changed nothing of the queue. -/
theorem cancelable_exact (h : (cancelSystem fwd Tid Tok c).Reachable s)
    {r : Finished Tid Tok A T} (hr : r ∈ s.finished) :
    (∀ now original, r.caller.operand = .args now original →
      (r.ok = true ↔ ∃ k, inserted r.caller.events = [(k, fwd.build original)] ∧
        completed r.caller.events = [k]) ∧
      (r.ok = false ↔ r.stopped = true ∧ inserted r.caller.events = [] ∧ now = original)) ∧
    (∀ now original, r.caller.operand = .value now original →
      (r.ok = true ↔ ∃ k v, removed r.caller.events = [(k, some v)] ∧ now = some v) ∧
      (r.ok = false → removed r.caller.events = [] ∧ now = original)) ∧
    (r.ok = false → r.caller.untouched) ∧
    ∀ e ∈ r.caller.events, (r.tid, e) ∈ s.base.history := by
  have hinv := cancelInv_reachable h
  obtain ⟨htrue, hfalse⟩ := hinv.correct r hr
  refine ⟨?_, ?_, fun hok => (hfalse hok).1.untouched, hinv.kept r hr⟩
  · intro now original hoperand
    have hfresh : r.ok = false → now = original := by
      intro hok
      have hunused := (hfalse hok).1.unused
      rw [hoperand] at hunused
      exact hunused
    cases hok : r.ok with
    | false =>
        have hnothing := (hfalse hok).1.nothing.1
        exact ⟨iff_of_false nofun fun ⟨k, hk, _⟩ => by simp [hnothing] at hk,
          iff_of_true rfl ⟨(hfalse hok).2, hnothing, hfresh hok⟩⟩
    | true =>
        obtain ⟨k, hk, hdone⟩ := (htrue hok).pushed hoperand
        exact ⟨iff_of_true rfl ⟨k, hk, hdone⟩,
          iff_of_false nofun fun ⟨_, hnothing, _⟩ => by simp [hnothing] at hk⟩
  · intro now original hoperand
    cases hok : r.ok with
    | false =>
        have hnothing := (hfalse hok).1.nothing.2
        have hunused := (hfalse hok).1.unused
        rw [hoperand] at hunused
        exact ⟨iff_of_false nofun fun ⟨k, v, hk, _⟩ => by simp [hnothing] at hk,
          fun _ => ⟨hnothing, hunused⟩⟩
    | true =>
        obtain ⟨k, hk, hmem⟩ := (htrue hok).popped hoperand
        -- the slot of a tail ticket never holds dead bytes when it is read
        have hrecorded := reachable_recorded hinv.base
        obtain ⟨-, v, hv, -⟩ := hrecorded.returned r.tid k now (hinv.kept r hr _ hmem)
        exact ⟨iff_of_true rfl ⟨k, v, by rw [hk, hv], hv⟩, nofun⟩

/-- A push finds the one slot taken, tries again after a pop, and inserts what
it was called with although its arguments are gone by then. -/
theorem cancelable_exact_second_try :
    ∃ s, (cancelSystem (⟨id, fun _ => 0⟩ : Forwarding Nat Nat) (Fin 2) Unit 1).Reachable s ∧
      ∃ r ∈ s.finished, r.caller.operand = .args 0 9 ∧
        ∃ k, inserted r.caller.events = [(k, 9)] ∧ completed r.caller.events = [k] := by
  let ts := cancelSystem (⟨id, fun _ => 0⟩ : Forwarding Nat Nat) (Fin 2) Unit 1
  let acts : List (CancelAction (Fin 2) Unit Nat Nat) :=
    [[.plain (.invoke 0 (.push 7))], .replicate 4 (.plain (.tick 0)),
      [.push 1 () 9, .condition 1], .replicate 3 (.attempt 1),
      [.plain (.invoke 0 .pop)], .replicate 5 (.plain (.tick 0)),
      [.condition 1], .replicate 5 (.attempt 1)].flatten
  have hends : (ts.exec ts.init acts).map
      (fun s => s.finished.map fun r => (r.ok, r.caller.operand)) = some [(true, .args 0 9)] := by
    decide +kernel
  obtain ⟨s, hrun, hs⟩ := ts.exists_of_map acts _ hends
  obtain ⟨r, hr, hfields⟩ := List.mem_map.mp (hs ▸ List.mem_singleton_self (true, _))
  simp only [Prod.mk.injEq] at hfields
  have hreach := hrun.reachable
  exact ⟨s, hreach, r, hr, hfields.2,
    ((cancelable_exact hreach hr).1 0 9 hfields.2).1.mp hfields.1⟩

end YkUtil.Exec.AtomicQueue
