import YkUtil.Exec.CvQueue.Wakeup
import Mathlib.Data.Fintype.Card

/-!
That the calls on a `cv_queue` come to an end. A section that ends a call may wake
every thread that waits, and each of them may wait again; so the number of sections
is bounded by what the program asked for, and no thread is left in a call but one
that waits for room, or for a value, that is not there. After `close` nobody waits.
-/

namespace YkUtil.Exec.CvQueue

open YkUtil.Lib

variable {Tid T : Type*} {cfg : CvQueueConfig} {s t : System Tid T}
  {q q' : CvQueue Tid T} {a : Action Tid T} {capacity : Int}

def Action.isInvoke : Action Tid T → Bool
  | .invoke _ _ => true
  | _ => false

def Action.isLock : Action Tid T → Bool
  | .lock _ _ => true
  | _ => false

def Action.isInvokeOf [DecidableEq Tid] (tid : Tid) : Action Tid T → Bool
  | .invoke other _ => other = tid
  | _ => false

def Action.isLockOf [DecidableEq Tid] (tid : Tid) : Action Tid T → Bool
  | .lock other _ => other = tid
  | _ => false

def Action.isWake : Action Tid T → Bool
  | .wake _ => true
  | _ => false

def Action.isRequestStop : Action Tid T → Bool
  | .requestStop _ => true
  | _ => false

section Sections

variable [Fintype Tid]

/-- The threads in a call. -/
def busy (s : System Tid T) : Finset Tid := Finset.univ.filter fun tid => (s.call tid).isSome

/-- What an action adds to the potential. -/
def granted (Tid : Type*) [Fintype Tid] : Action Tid T → Nat
  | .invoke _ _ => Fintype.card Tid + 1
  | .lock _ _ => 0
  | .wake _ => 1
  | .requestStop _ => Fintype.card Tid

/-- What a run has been granted. -/
def budget (acts : List (Action Tid T)) : Nat :=
  (Fintype.card Tid + 1) * acts.countP Action.isInvoke +
    Fintype.card Tid * acts.countP Action.isRequestStop + acts.countP Action.isWake

theorem budget_concat (acts : List (Action Tid T)) (a : Action Tid T) :
    budget (acts ++ [a]) = budget acts + granted Tid a := by
  simp only [budget, List.countP_append, List.countP_singleton, Nat.mul_add]
  cases a <;> simp [Action.isInvoke, Action.isRequestStop, Action.isWake, granted] <;> omega

theorem mem_busy {tid : Tid} : tid ∈ busy s ↔ (s.call tid).isSome := by
  simp [busy]

theorem busy_congr (h : t.call = s.call) : busy t = busy s := by
  rw [busy, busy, h]

variable [DecidableEq Tid]

/-- The threads in a call that do not wait. -/
def active (s : System Tid T) : Finset Tid :=
  Finset.univ.filter fun tid => (s.call tid).isSome ∧ ¬ s.queue.Waiting tid

/-- The sections that can be run without another call: one for each thread that does
not wait, and for each call one for every thread that its end can wake. -/
def potential (s : System Tid T) : Nat :=
  (active s).card + Fintype.card Tid * (busy s).card

theorem mem_active {tid : Tid} :
    tid ∈ active s ↔ (s.call tid).isSome ∧ ¬ s.queue.Waiting tid := by
  simp [active]

theorem potential_invoke {tid : Tid} {op : Op T}
    (hcall : t.call = Function.update s.call tid (some op)) (hqueue : t.queue = s.queue) :
    potential t ≤ potential s + (Fintype.card Tid + 1) := by
  have hbusy : busy t ⊆ insert tid (busy s) := by
    intro other hother
    rw [Finset.mem_insert]
    by_cases heq : other = tid
    · exact .inl heq
    · rw [mem_busy, hcall, Function.update_of_ne heq] at hother
      exact .inr (mem_busy.mpr hother)
  have hactive : active t ⊆ insert tid (active s) := by
    intro other hother
    rw [Finset.mem_insert]
    by_cases heq : other = tid
    · exact .inl heq
    · rw [mem_active, hcall, Function.update_of_ne heq, hqueue] at hother
      exact .inr (mem_active.mpr hother)
  have hbusyCard := (Finset.card_le_card hbusy).trans (Finset.card_insert_le _ _)
  have hactiveCard := (Finset.card_le_card hactive).trans (Finset.card_insert_le _ _)
  have hmul := Nat.mul_le_mul_left (Fintype.card Tid) hbusyCard
  rw [Nat.mul_succ] at hmul
  rw [potential, potential]
  omega

/-- A section that ends in `wait`. -/
theorem potential_waits {tid : Tid} (hactive : tid ∈ active s) (hcall : t.call = s.call)
    (hwaits : t.queue.Waiting tid)
    (hothers : ∀ other, s.queue.Waiting other → t.queue.Waiting other) :
    potential t + 1 ≤ potential s := by
  have hsub : active t ⊆ (active s).erase tid := by
    intro other hother
    obtain ⟨hin, hruns⟩ := mem_active.mp hother
    rw [Finset.mem_erase]
    refine ⟨fun heq => hruns (heq ▸ hwaits), mem_active.mpr ⟨hcall ▸ hin, fun hold => ?_⟩⟩
    exact hruns (hothers other hold)
  have hcard := Finset.card_le_card hsub
  have hpos := Finset.card_pos.mpr ⟨tid, hactive⟩
  rw [Finset.card_erase_of_mem hactive] at hcard
  rw [potential, potential, busy_congr hcall]
  omega

/-- A section that ends the call may wake all other threads. -/
theorem potential_ends {tid : Tid} (hactive : tid ∈ active s)
    (hcall : t.call = Function.update s.call tid none) : potential t + 1 ≤ potential s := by
  have hbusy : tid ∈ busy s := mem_busy.mpr (mem_active.mp hactive).1
  have hbusySub : busy t ⊆ (busy s).erase tid := by
    intro other hother
    rw [mem_busy, hcall] at hother
    by_cases heq : other = tid
    · subst heq
      simp at hother
    · rw [Function.update_of_ne heq] at hother
      exact Finset.mem_erase.mpr ⟨heq, mem_busy.mpr hother⟩
  have hactiveSub : active t ⊆ Finset.univ.erase tid := by
    intro other hother
    refine Finset.mem_erase.mpr ⟨?_, Finset.mem_univ other⟩
    rintro rfl
    have hin := (mem_active.mp hother).1
    simp [hcall] at hin
  have hbusyCard := Finset.card_le_card hbusySub
  have hactiveCard := Finset.card_le_card hactiveSub
  rw [Finset.card_erase_of_mem hbusy] at hbusyCard
  rw [Finset.card_erase_of_mem (Finset.mem_univ tid), Finset.card_univ] at hactiveCard
  have hbusyPos := Finset.card_pos.mpr ⟨tid, hbusy⟩
  have hactivePos := Finset.card_pos.mpr ⟨tid, hactive⟩
  have hmul := Nat.mul_le_mul_left (Fintype.card Tid) (by omega : (busy t).card + 1 ≤ (busy s).card)
  have hcard : 0 < Fintype.card Tid := Fintype.card_pos_iff.mpr ⟨tid⟩
  rw [Nat.mul_succ] at hmul
  rw [potential, potential]
  omega

theorem potential_wake (tid : Tid) (hcall : t.call = s.call)
    (hothers : ∀ other, other ≠ tid → s.queue.Waiting other → t.queue.Waiting other) :
    potential t ≤ potential s + 1 := by
  have hsub : active t ⊆ insert tid (active s) := by
    intro other hother
    obtain ⟨hin, hruns⟩ := mem_active.mp hother
    rw [Finset.mem_insert]
    by_cases heq : other = tid
    · exact .inl heq
    · exact .inr (mem_active.mpr ⟨hcall ▸ hin, fun hold => hruns (hothers other heq hold)⟩)
  have hcard := (Finset.card_le_card hsub).trans (Finset.card_insert_le _ _)
  rw [potential, potential, busy_congr hcall]
  omega

theorem potential_requestStop (hcall : t.call = s.call) :
    potential t ≤ potential s + Fintype.card Tid := by
  have hcard := Finset.card_le_univ (active t)
  rw [potential, potential, busy_congr hcall]
  omega

theorem potential_step (h : step cfg s a = some t) :
    potential t + (if a.isLock then 1 else 0) ≤ potential s + granted Tid a := by
  cases a with
  | invoke tid op =>
      obtain ⟨-, rfl⟩ := Calls.invoke_inv h
      exact potential_invoke rfl rfl
  | lock tid pick =>
      obtain ⟨op, q, event, hop, hrunning, hrun, rfl⟩ := lock_inv h
      have hactive : tid ∈ active s := mem_active.mpr ⟨by rw [hop]; rfl, hrunning⟩
      rcases run_waits_or_ends hrun with ⟨rfl, -, rfl, -⟩ | ⟨rfl, -, rfl, -⟩ | ⟨hevent, -⟩
      · exact potential_waits hactive rfl (.inl List.mem_cons_self)
          fun other hold => hold.imp_left (List.mem_cons_of_mem _)
      · exact potential_waits hactive rfl (.inr List.mem_cons_self)
          fun other hold => hold.imp_right (List.mem_cons_of_mem _)
      · cases event with
        | none => exact absurd rfl hevent
        | some e => exact potential_ends hactive rfl
  | wake tid =>
      cases h
      refine potential_wake tid rfl fun other hne hold => ?_
      exact hold.imp (List.mem_erase_of_ne hne).mpr (List.mem_erase_of_ne hne).mpr
  | requestStop tid =>
      obtain ⟨op, waitsOn, -, -, rfl⟩ := Calls.requestStop_inv h
      exact potential_requestStop rfl

theorem countP_isLock_le {acts : List (Action Tid T)}
    (h : (system Tid T cfg capacity).Reaches acts s) :
    acts.countP Action.isLock ≤ budget acts := by
  have hbudget := (system Tid T cfg capacity).run_induction
    (P := fun acts s => potential s + acts.countP Action.isLock ≤ budget acts)
    (by simp [potential, active, busy, system, start, Threads.start]) ?_ acts s h
  · exact (Nat.le_add_left _ _).trans hbudget
  · intro acts s a t _ ih hstep
    have hdelta := potential_step hstep
    rw [budget_concat, List.countP_append, List.countP_singleton]
    omega

/-- For every queue and every interleaving: the threads run at most one section more
than there are threads for each call that is started, as many as there are threads for
each stop that is requested, and one for each spurious wakeup. So the calls that a
program makes cannot keep each other awake for ever. -/
theorem sections_bounded {acts : List (Action Tid T)}
    (h : (system Tid T cfg capacity).Reaches acts s) :
    acts.countP Action.isLock ≤ (Fintype.card Tid + 1) * acts.countP Action.isInvoke +
      Fintype.card Tid * acts.countP Action.isRequestStop + acts.countP Action.isWake :=
  countP_isLock_le h

/-- Two pops that wait on an `mpmc` queue, and both run again for one value. -/
theorem sections_bounded_two_pops :
    ∃ (acts : List (Action (Fin 3) Nat)) (s : System (Fin 3) Nat),
      (system (Fin 3) Nat ⟨.mpmc, .deque, 9⟩ 1).Reaches acts s ∧ acts.countP Action.isLock = 5 ∧
      acts.countP Action.isLock ≤ (Fintype.card (Fin 3) + 1) * acts.countP Action.isInvoke +
        Fintype.card (Fin 3) * acts.countP Action.isRequestStop + acts.countP Action.isWake := by
  obtain ⟨s, hrun, -⟩ := (system (Fin 3) Nat ⟨.mpmc, .deque, 9⟩ 1).exists_of_map
    [.invoke 0 (.popWait false), .lock 0 0, .invoke 1 (.popWait false), .lock 1 0,
      .invoke 2 (.pushWait false 7), .lock 2 0, .lock 1 0, .lock 0 0]
    (b := true) (fun s => s.queue.buf.isEmpty) rfl
  exact ⟨_, s, hrun, rfl, sections_bounded hrun⟩

end Sections

section Rest

theorem traitsPush_capacity (cfg : CvQueueConfig) (q : CvQueue Tid T) (v : T) (pick : Nat) :
    (traitsPush cfg q v pick).capacity = q.capacity := by
  simp only [traitsPush]
  split
  · split <;> rfl
  · split <;> rfl

/-- Only the calls that set the capacity change it. -/
theorem run_keeps_capacity {op : Op T} {tid : Tid} {stop : Bool} {pick : Nat}
    {event : Option (CvQueueEvent T)} (hfixed : op.setsCapacity = false)
    (hrun : op.run cfg q tid stop pick = some (q', event)) : q'.capacity = q.capacity := by
  cases run_cases hrun with
  | pushed v => exact traitsPush_capacity cfg q v pick
  | popped _ _ hpop =>
      obtain ⟨rest, -, hsame⟩ := traitsPop_eq_some hpop
      exact congrArg BoundedContainer.Container.capacity hsame
  | resized hop => rcases hop with rfl | rfl <;> cases hfixed
  | _ => rfl

/-- A section ends in `wait` only where no stop is requested. -/
theorem run_stop_ends {op : Op T} {tid : Tid} {pick : Nat} {event : Option (CvQueueEvent T)}
    (hrun : op.run cfg q tid true pick = some (q', event)) : event ≠ none := by
  rintro rfl
  cases run_cases hrun with
  | pushWaits hstop => cases hstop
  | popWaits hstop => cases hstop

theorem waiting_of_section {op : Op T} {tid other : Tid} {stop : Bool} {pick : Nat}
    {event : Option (CvQueueEvent T)} (hrun : op.run cfg q tid stop pick = some (q', event))
    (hwaits : q'.Waiting other) : q.Waiting other ∨ (other = tid ∧ event = none) := by
  rcases run_waits_or_ends hrun with ⟨rfl, -, rfl, -⟩ | ⟨rfl, -, rfl, -⟩ | ⟨-, hfull, hempty⟩
  · rcases hwaits with hwaits | hwaits
    · rcases List.mem_cons.mp hwaits with rfl | hwaits
      · exact .inr ⟨rfl, rfl⟩
      · exact .inl (.inl hwaits)
    · exact .inl (.inr hwaits)
  · rcases hwaits with hwaits | hwaits
    · exact .inl (.inl hwaits)
    · rcases List.mem_cons.mp hwaits with rfl | hwaits
      · exact .inr ⟨rfl, rfl⟩
      · exact .inl (.inr hwaits)
  · exact .inl (hwaits.imp (fun h => hfull.subset h) fun h => hempty.subset h)

/-- A thread whose call is not a pop does not wait for a value. -/
theorem Placed.kind (h : Placed s) {tid : Tid} {op : Op T} (hop : s.call tid = some op) :
    (tid ∈ s.queue.notFull.waiting → op.isPush = true) ∧
      (tid ∈ s.queue.notEmpty.waiting → op.isPop = true) := by
  constructor
  · intro hmem
    obtain ⟨op', hop', hkind⟩ := h.pushing tid hmem
    cases hop.symm.trans hop'
    exact hkind
  · intro hmem
    obtain ⟨op', hop', hkind⟩ := h.popping tid hmem
    cases hop.symm.trans hop'
    exact hkind

variable [DecidableEq Tid]

/-- No thread can run a section. -/
def AtRest (cfg : CvQueueConfig) (s : System Tid T) : Prop :=
  ∀ tid pick, step cfg s (.lock tid pick) = none

/-- The thread's call has a token, and a stop was requested on it. -/
def Stopping (s : System Tid T) (tid : Tid) (op : Op T) : Prop :=
  s.call tid = some op ∧ op.hasToken = true ∧ s.stopRequested tid = true

/-- A thread that should stop does not wait. -/
def StopsHeard (s : System Tid T) : Prop :=
  ∀ tid op, Stopping s tid op → ¬ s.queue.Waiting tid

theorem lock_isSome (cfg : CvQueueConfig) {tid : Tid} {op : Op T} (hop : s.call tid = some op)
    (hruns : ¬ s.queue.Waiting tid) (pick : Nat) : (step cfg s (.lock tid pick)).isSome := by
  rw [step_lock hop hruns, Option.isSome_map]
  exact run_isSome cfg s.queue tid _ pick op

theorem AtRest.waiting (h : AtRest cfg s) {tid : Tid} {op : Op T} (hop : s.call tid = some op) :
    s.queue.Waiting tid := by
  by_contra hruns
  have hsome := lock_isSome cfg hop hruns 0
  rw [h tid 0] at hsome
  cases hsome

theorem capacity_step (hfixed : ∀ tid op, s.call tid = some op → op.setsCapacity = false)
    (hstep : step cfg s a = some t) : t.queue.capacity = s.queue.capacity := by
  rcases step_inv hstep with ⟨tid, op, -, -, hq, -, -, -⟩ |
      ⟨tid, pick, op, q, event, -, hop, -, hrun, rfl⟩ | ⟨-, hwoken, -, -⟩
  · rw [hq]
  · rw [finish_queue]
    exact run_keeps_capacity (hfixed tid op hop) hrun
  · exact hwoken.capacity

theorem StopsHeard.step (h : StopsHeard s) (hplaced : Placed s)
    (hstep : CvQueue.step cfg s a = some t) : StopsHeard t := by
  intro other op' ⟨hop', htoken, hstop⟩ hwaits
  cases a with
  | invoke tid op =>
      obtain ⟨-, rfl⟩ := Calls.invoke_inv hstep
      by_cases heq : other = tid
      · subst heq
        simp at hstop
      · simp only [Function.update_of_ne heq] at hop' hstop
        exact h other op' ⟨hop', htoken, hstop⟩ hwaits
  | lock tid pick =>
      obtain ⟨op, q, event, hop, hrunning, hrun, rfl⟩ := lock_inv hstep
      rw [finish_queue] at hwaits
      have hsame : (s.finish tid q event).stopRequested = s.stopRequested := by
        cases event <;> rfl
      rw [hsame] at hstop
      rcases waiting_of_section hrun hwaits with hold | ⟨rfl, rfl⟩
      · rcases finish_call s tid q event other with hcall | ⟨-, -, hnone⟩
        · exact h other op' ⟨hcall ▸ hop', htoken, hstop⟩ hold
        · rw [hnone] at hop'
          cases hop'
      · -- The section saw the request, so it did not end in `wait`.
        have hcall : s.call other = some op' := hop'
        cases hop.symm.trans hcall
        rw [htoken, hstop] at hrun
        exact run_stop_ends hrun rfl
  | wake tid =>
      cases hstep
      exact h other op' ⟨hop', htoken, hstop⟩
        (hwaits.imp List.mem_of_mem_erase List.mem_of_mem_erase)
  | requestStop tid =>
      obtain ⟨op, waitsOn, hcall, htoken', rfl⟩ := Calls.requestStop_inv hstep
      by_cases heq : other = tid
      · subst heq
        cases op with
        | pushWait token v =>
            cases token <;> cases htoken'
            rcases hwaits with hfull | hempty
            · cases hfull
            · cases ((hplaced.kind hcall).2 hempty)
        | popWait token =>
            cases token <;> cases htoken'
            rcases hwaits with hfull | hempty
            · cases ((hplaced.kind hcall).1 hfull)
            · cases hempty
        | setCapacity | setCapacityAndReserve | clear | close | reopen => cases htoken'
      · simp only [Function.update_of_ne heq] at hstop
        have hwoken := woken_notifyAllOn s.queue waitsOn
        exact h other op' ⟨hop', htoken, hstop⟩
          (hwaits.imp (hwoken.notFull.subset ·) (hwoken.notEmpty.subset ·))

/-- What holds in all runs in which the capacity stays and the roles are kept. -/
structure Settled (cfg : CvQueueConfig) (capacity : Int) (s : System Tid T) : Prop
    extends NoneStranded cfg s where
  heard : StopsHeard s
  capacity_eq : s.queue.capacity = capacity

theorem settled_of_run {acts : List (Action Tid T)}
    (hrun : (system Tid T cfg capacity).GoodRun
      (fun s a => KeepsRoles cfg s a ∧ KeepsCapacity a) acts s) : Settled cfg capacity s := by
  have hheard : StopsHeard (start capacity : System Tid T) := by
    rintro tid op ⟨hop, -⟩
    cases hop
  refine hrun.invariant ⟨noneStranded_start capacity, hheard, rfl⟩
    fun s a t _ hgood hs hstep => ?_
  exact ⟨hs.toNoneStranded.step hgood.1 hgood.2 hstep, hs.heard.step hs.placed hstep,
    (capacity_step hs.fixed hstep).trans hs.capacity_eq⟩

/-- All calls that are going on are of this kind, and none of them should stop. -/
def OnlyCalls (kind : Op T → Bool) (s : System Tid T) : Prop :=
  ∀ tid op, s.call tid = some op → kind op = true ∧ ¬ Stopping s tid op

/-- For each of the four modes, with at most one producer and one consumer where the
mode says so, in every run that keeps a positive capacity: where no thread can run a
section, no call is going on, or the queue is open and full and all calls are pushes, or
it is open and empty and all calls are pops. None of these calls has been asked to stop. -/
theorem rest_only_full_or_empty {acts : List (Action Tid T)} (hcapacity : 0 < capacity)
    (hrun : (system Tid T cfg capacity).GoodRun
      (fun s a => KeepsRoles cfg s a ∧ KeepsCapacity a) acts s) (hrest : AtRest cfg s) :
    (∀ tid, s.call tid = none) ∨
    (s.queue.closed = false ∧ capacity ≤ (s.queue.buf.length : Int) ∧ OnlyCalls Op.isPush s) ∨
    (s.queue.closed = false ∧ s.queue.buf = [] ∧ OnlyCalls Op.isPop s) := by
  have h := settled_of_run hrun
  have hfull := h.full
  have hempty := h.empty
  rw [FullWhileWaiting, h.capacity_eq] at hfull
  have hheard {tid : Tid} {op : Op T} (hop : s.call tid = some op) : ¬ Stopping s tid op :=
    fun hstop => h.heard tid op hstop (hrest.waiting hop)
  by_cases hnofull : s.queue.notFull.waiting = []
  · by_cases hnoempty : s.queue.notEmpty.waiting = []
    · refine .inl fun tid => ?_
      cases hop : s.call tid with
      | none => rfl
      | some op =>
          rcases hrest.waiting hop with hmem | hmem
          · simp [hnofull] at hmem
          · simp [hnoempty] at hmem
    · obtain ⟨hbuf, hopen⟩ := hempty hnoempty
      refine .inr (.inr ⟨hopen, hbuf, fun tid op hop => ⟨?_, hheard hop⟩⟩)
      rcases hrest.waiting hop with hmem | hmem
      · simp [hnofull] at hmem
      · exact (h.placed.kind hop).2 hmem
  · obtain ⟨hlength, hopen⟩ := hfull hnofull
    refine .inr (.inl ⟨hopen, hlength, fun tid op hop => ⟨?_, hheard hop⟩⟩)
    rcases hrest.waiting hop with hmem | hmem
    · exact (h.placed.kind hop).1 hmem
    · rw [(hempty (List.ne_nil_of_mem hmem)).1, List.length_nil] at hlength
      omega

/-- A consumer alone on a `spsc` vector waits, and what it sees is an empty queue. -/
theorem rest_only_full_or_empty_pop :
    ∃ s, (system (Fin 1) Nat ⟨.spsc, .vector, 9⟩ 1).GoodRun
        (fun s a => KeepsRoles ⟨.spsc, .vector, 9⟩ s a ∧ KeepsCapacity a)
        [.invoke 0 (.popWait false), .lock 0 0] s ∧
      AtRest ⟨.spsc, .vector, 9⟩ s ∧ s.queue.closed = false ∧ s.queue.buf = [] ∧
      OnlyCalls Op.isPop s := by
  obtain ⟨s, hreach, hsees⟩ := (system (Fin 1) Nat ⟨.spsc, .vector, 9⟩ 1).exists_of_map
    [.invoke 0 (.popWait false), .lock 0 0] (b := ([0], true, []))
    (fun s => (s.queue.notEmpty.waiting, (s.call 0).isSome, s.queue.buf)) rfl
  simp only [Prod.mk.injEq] at hsees
  obtain ⟨hwaiting, hcall, hbuf⟩ := hsees
  have hgood : ∀ a ∈ [.invoke 0 (.popWait false), .lock 0 0], ∀ s : System (Fin 1) Nat,
      KeepsRoles ⟨.spsc, .vector, 9⟩ s a ∧ KeepsCapacity a := by
    intro a ha s
    simp only [List.mem_cons, List.not_mem_nil, or_false] at ha
    rcases ha with rfl | rfl
    · exact ⟨⟨nofun, fun _ _ _ _ => Subsingleton.elim _ _⟩, rfl⟩
    · exact ⟨trivial, trivial⟩
  have hrun := TransitionSystem.GoodRun.of_forall hreach hgood
  have hrest : AtRest ⟨.spsc, .vector, 9⟩ s := by
    intro tid pick
    have hwaits : s.queue.Waiting tid := .inr (by simp [hwaiting, Subsingleton.elim tid 0])
    exact Calls.step_lock_eq_none (.inr hwaits)
  refine ⟨s, hrun, hrest, ?_⟩
  rcases rest_only_full_or_empty (by decide) hrun hrest with hnone | ⟨-, hlength, -⟩ | hempty
  · simp [hnone 0] at hcall
  · simp [hbuf] at hlength
  · exact hempty

end Rest

section Close

def Op.isReopen : Op T → Bool
  | .reopen => true
  | _ => false

def Action.reopens : Action Tid T → Bool
  | .invoke _ op => op.isReopen
  | _ => false

/-- A value went in or out. -/
def moves : CvQueueEvent T → Bool
  | .pushed _ | .popped _ => true
  | _ => false

/-- Nobody waits on a closed queue. -/
def ClosedWakes (q : CvQueue Tid T) : Prop :=
  q.closed = true → ∀ tid, ¬ q.Waiting tid

theorem run_closedWakes {op : Op T} {tid : Tid} {stop : Bool} {pick : Nat}
    {event : Option (CvQueueEvent T)} (h : ClosedWakes q)
    (hrun : op.run cfg q tid stop pick = some (q', event)) : ClosedWakes q' := by
  intro hclosed other hwaits
  cases run_cases hrun with
  | refused | resized => exact h hclosed other hwaits
  | pushed v _ hopen =>
      have hsame := congrArg BoundedContainer.Container.opened (traitsPush_toContainer cfg q v pick)
      simp [toContainer, hopen, hclosed] at hsame
  | popped _ hopen hpop =>
      obtain ⟨rest, -, hsame⟩ := traitsPop_eq_some hpop
      have hopened := congrArg BoundedContainer.Container.opened hsame
      simp [toContainer, hopen, hclosed] at hopened
  | pushWaits _ hopen => simp [hopen] at hclosed
  | popWaits _ hopen => simp [hopen] at hclosed
  | cleared =>
      rcases hwaits with hfull | hempty
      · cases hfull
      · exact h hclosed other (.inr hempty)
  | closed =>
      rcases hwaits with hfull | hempty
      · cases hfull
      · cases hempty
  | reopened => cases hclosed

/-- A closed queue that no call opens again. -/
structure Shut (s : System Tid T) : Prop where
  closed : s.queue.closed = true
  nobodyWaits : ∀ tid, ¬ s.queue.Waiting tid
  calls : ∀ tid op, s.call tid = some op → op.isReopen = false

/-- On a closed queue every section ends its call, and no value moves. -/
theorem run_shut {op : Op T} {tid : Tid} {stop : Bool} {pick : Nat}
    {event : Option (CvQueueEvent T)} (hclosed : q.closed = true) (hcall : op.isReopen = false)
    (hrun : op.run cfg q tid stop pick = some (q', event)) :
    q'.closed = true ∧ ∃ e, event = some e ∧ moves e = false := by
  cases run_cases hrun with
  | @refused _ e hevent =>
      refine ⟨hclosed, e, rfl, ?_⟩
      cases e <;> first
        | rfl
        | cases hevent
  | pushed _ _ hopen => simp [hopen] at hclosed
  | popped _ hopen => simp [hopen] at hclosed
  | pushWaits _ hopen => simp [hopen] at hclosed
  | popWaits _ hopen => simp [hopen] at hclosed
  | resized => exact ⟨hclosed, _, rfl, rfl⟩
  | cleared => exact ⟨hclosed, _, rfl, rfl⟩
  | closed => exact ⟨rfl, _, rfl, rfl⟩
  | reopened => cases hcall

variable [DecidableEq Tid]

theorem closedWakes_step (h : ClosedWakes s.queue) (hstep : step cfg s a = some t) :
    ClosedWakes t.queue := by
  rcases step_inv hstep with ⟨tid, op, -, -, hq, -, -, -⟩ |
      ⟨tid, pick, op, q, event, -, -, -, hrun, rfl⟩ | ⟨-, hwoken, -, -⟩
  · rw [hq]
    exact h
  · rw [finish_queue]
    exact run_closedWakes h hrun
  · intro hclosed other hwaits
    rw [hwoken.closed] at hclosed
    exact h hclosed other (hwaits.imp (fun hfull => hwoken.notFull.subset hfull)
      fun hempty => hwoken.notEmpty.subset hempty)

/-- Everything a step of a shut queue can be. -/
theorem Shut.cases (h : Shut s) (hkeeps : a.reopens = false) (hstep : step cfg s a = some t) :
    t.queue.closed = true ∧
    ((∃ tid op, a = .invoke tid op ∧ s.call tid = none ∧ op.isReopen = false ∧
        t.call = Function.update s.call tid (some op) ∧ t.history = s.history) ∨
      (∃ tid pick op e, a = .lock tid pick ∧ s.call tid = some op ∧ moves e = false ∧
        t.call = Function.update s.call tid none ∧ t.history = s.history ++ [(tid, e)]) ∨
      (a.isInvoke = false ∧ a.isLock = false ∧ t.call = s.call ∧ t.history = s.history)) := by
  cases a with
  | invoke tid op =>
      obtain ⟨hidle, rfl⟩ := Calls.invoke_inv hstep
      exact ⟨h.closed, .inl ⟨tid, op, rfl, hidle, hkeeps, rfl, rfl⟩⟩
  | lock tid pick =>
      obtain ⟨op, q, event, hop, -, hrun, rfl⟩ := lock_inv hstep
      obtain ⟨hclosed, e, rfl, hmoves⟩ := run_shut h.closed (h.calls tid op hop) hrun
      exact ⟨hclosed, .inr (.inl ⟨tid, pick, op, e, rfl, hop, hmoves, rfl, rfl⟩)⟩
  | wake tid =>
      cases hstep
      exact ⟨h.closed, .inr (.inr ⟨rfl, rfl, rfl, rfl⟩)⟩
  | requestStop tid =>
      obtain ⟨op, waitsOn, -, -, rfl⟩ := Calls.requestStop_inv hstep
      have hwoken := woken_notifyAllOn s.queue waitsOn
      exact ⟨hwoken.closed.trans h.closed, .inr (.inr ⟨rfl, rfl, rfl, rfl⟩)⟩

theorem Shut.step (h : Shut s) (hkeeps : a.reopens = false)
    (hstep : CvQueue.step cfg s a = some t) : Shut t := by
  obtain ⟨hclosed, hcases⟩ := h.cases hkeeps hstep
  have hnobody := closedWakes_step (fun _ => h.nobodyWaits) hstep hclosed
  refine ⟨hclosed, hnobody, fun other op' hop' => ?_⟩
  rcases hcases with ⟨tid, op, -, -, hop, hcall, -⟩ | ⟨tid, pick, op, e, -, -, -, hcall, -⟩ |
      ⟨-, -, hcall, -⟩
  · rw [hcall] at hop'
    rcases eq_or_ne other tid with rfl | hne
    · rw [Function.update_self] at hop'
      cases hop'
      exact hop
    · rw [Function.update_of_ne hne] at hop'
      exact h.calls other op' hop'
  · rw [hcall] at hop'
    rcases eq_or_ne other tid with rfl | hne
    · rw [Function.update_self] at hop'
      cases hop'
    · rw [Function.update_of_ne hne] at hop'
      exact h.calls other op' hop'
  · rw [hcall] at hop'
    exact h.calls other op' hop'

/-- What has happened since `u`: no value has moved, and every call has taken one
section or is still to take it. -/
structure Drained (u : System Tid T) (after : List (Action Tid T)) (s : System Tid T) : Prop where
  shut : Shut s
  history : ∃ news, s.history = u.history ++ news ∧ ∀ entry ∈ news, moves entry.2 = false
  sections : ∀ tid, after.countP (Action.isLockOf tid) + (s.call tid).isSome.toNat =
    (u.call tid).isSome.toNat + after.countP (Action.isInvokeOf tid)

theorem Drained.step {u : System Tid T} {after : List (Action Tid T)} (h : Drained u after s)
    (hkeeps : a.reopens = false) (hstep : CvQueue.step cfg s a = some t) :
    Drained u (after ++ [a]) t := by
  obtain ⟨news, hnews, hmoves⟩ := h.history
  refine ⟨h.shut.step hkeeps hstep, ?_, fun other => ?_⟩
  · rcases (h.shut.cases hkeeps hstep).2 with ⟨-, -, -, -, -, -, hhistory⟩ |
        ⟨tid, -, -, e, -, -, he, -, hhistory⟩ | ⟨-, -, -, hhistory⟩
    · exact ⟨news, hhistory.trans hnews, hmoves⟩
    · refine ⟨news ++ [(tid, e)], by rw [hhistory, hnews, List.append_assoc], fun entry hin => ?_⟩
      rcases List.mem_append.mp hin with hin | hin
      · exact hmoves entry hin
      · rw [List.mem_singleton.mp hin]
        exact he
    · exact ⟨news, hhistory.trans hnews, hmoves⟩
  · have hbefore := h.sections other
    rw [List.countP_append, List.countP_append, List.countP_singleton, List.countP_singleton]
    rcases (h.shut.cases hkeeps hstep).2 with ⟨tid, op, rfl, hidle, -, hcall, -⟩ |
        ⟨tid, pick, op, e, rfl, hop, -, hcall, -⟩ | ⟨hinvoke, hlock, hcall, -⟩
    · rcases eq_or_ne tid other with rfl | hne
      · simp [Action.isLockOf, Action.isInvokeOf, hcall, hidle] at hbefore ⊢
        omega
      · simp [Action.isLockOf, Action.isInvokeOf, hcall, hne, Function.update_of_ne hne.symm]
        omega
    · rcases eq_or_ne tid other with rfl | hne
      · simp [Action.isLockOf, Action.isInvokeOf, hcall, hop] at hbefore ⊢
        omega
      · simp [Action.isLockOf, Action.isInvokeOf, hcall, hne, Function.update_of_ne hne.symm]
        omega
    · have hnot : a.isLockOf other = false ∧ a.isInvokeOf other = false := by
        cases a with
        | invoke => cases hinvoke
        | lock => cases hlock
        | wake | requestStop => exact ⟨rfl, rfl⟩
      simp [hnot.1, hnot.2, hcall, hbefore]

/-- From any state that a run reaches with a closed queue, as long as no call opens it
again: nobody waits, no value goes in or out, and each call takes exactly one section,
which the thread can run at once. -/
theorem closed_returns {before after : List (Action Tid T)} {u s : System Tid T}
    (hbefore : (system Tid T cfg capacity).Reaches before u) (hclosed : u.queue.closed = true)
    (hcalls : ∀ tid op, u.call tid = some op → op.isReopen = false)
    (hafter : (system Tid T cfg capacity).exec u after = some s)
    (hkeeps : ∀ a ∈ after, a.reopens = false) :
    (∀ tid, ¬ s.queue.Waiting tid) ∧
    (∃ news, s.history = u.history ++ news ∧ ∀ entry ∈ news, moves entry.2 = false) ∧
    (∀ tid, after.countP (Action.isLockOf tid) + (s.call tid).isSome.toNat =
      (u.call tid).isSome.toNat + after.countP (Action.isInvokeOf tid)) ∧
    ∀ tid pick, (s.call tid).isSome →
      ∃ t, step cfg s (.lock tid pick) = some t ∧ t.call tid = none := by
  have hwakes : ClosedWakes u.queue := (system Tid T cfg capacity).invariant
    (P := fun s => ClosedWakes s.queue) nofun
    (fun _ _ _ _ hs hstep => closedWakes_step hs hstep) hbefore.reachable
  have hstart : Drained u [] u :=
    ⟨⟨hclosed, hwakes hclosed, hcalls⟩, ⟨[], (List.append_nil _).symm, nofun⟩, fun _ => by simp⟩
  have hdrained : Drained u after s := (system Tid T cfg capacity).exec_induction
    (P := fun acts s => (∀ a ∈ acts, a.reopens = false) → Drained u acts s) (fun _ => hstart)
    (fun acts s a t ih hstep hall => (ih fun b hb => hall b (List.mem_append_left _ hb)).step
      (hall a (by simp)) hstep) after s hafter hkeeps
  refine ⟨hdrained.shut.nobodyWaits, hdrained.history, hdrained.sections, fun tid pick hin => ?_⟩
  obtain ⟨op, hop⟩ := Option.isSome_iff_exists.mp hin
  obtain ⟨t, ht⟩ := Option.isSome_iff_exists.mp
    (lock_isSome cfg hop (hdrained.shut.nobodyWaits tid) pick)
  refine ⟨t, ht, ?_⟩
  obtain ⟨op', q, event, hop', -, hrun, rfl⟩ := lock_inv ht
  obtain ⟨-, e, rfl, -⟩ := run_shut hdrained.shut.closed (hdrained.shut.calls tid op' hop') hrun
  simp [System.finish]

/-- A pop waits when the queue is closed; it returns, and so does a later push. -/
theorem closed_returns_pop :
    ∃ u s : System (Fin 2) Nat,
      (system (Fin 2) Nat ⟨.spsc, .vector, 9⟩ 1).Reaches
        [.invoke 0 (.popWait false), .lock 0 0, .invoke 1 .close, .lock 1 0] u ∧
      (system (Fin 2) Nat ⟨.spsc, .vector, 9⟩ 1).exec u
        [.lock 0 0, .invoke 1 (.pushWait false 7), .lock 1 0] = some s ∧
      s.history = [(1, .closed), (0, .popFalse), (1, .pushFalse)] ∧
      ∀ tid, ¬ s.queue.Waiting tid := by
  obtain ⟨u, hbefore, hu⟩ := (system (Fin 2) Nat ⟨.spsc, .vector, 9⟩ 1).exists_of_map
    [.invoke 0 (.popWait false), .lock 0 0, .invoke 1 .close, .lock 1 0]
    (b := (true, some (.popWait false), none)) (fun u => (u.queue.closed, u.call 0, u.call 1)) rfl
  obtain ⟨s, hall, hs⟩ := (system (Fin 2) Nat ⟨.spsc, .vector, 9⟩ 1).exists_of_map
    ([.invoke 0 (.popWait false), .lock 0 0, .invoke 1 .close, .lock 1 0] ++
      [.lock 0 0, .invoke 1 (.pushWait false 7), .lock 1 0])
    (b := [(1, .closed), (0, .popFalse), (1, .pushFalse)]) (fun s => s.history) rfl
  have hafter : (system (Fin 2) Nat ⟨.spsc, .vector, 9⟩ 1).exec u
      [.lock 0 0, .invoke 1 (.pushWait false 7), .lock 1 0] = some s := by
    rw [TransitionSystem.Reaches, TransitionSystem.exec_append, hbefore] at hall
    exact hall
  simp only [Prod.mk.injEq] at hu
  obtain ⟨hclosed, hpop, hidle⟩ := hu
  have hcalls : ∀ tid op, u.call tid = some op → op.isReopen = false := by
    intro tid op hop
    have htid : tid = 0 ∨ tid = 1 := by omega
    rcases htid with rfl | rfl
    · cases hpop.symm.trans hop
      rfl
    · cases hidle.symm.trans hop
  refine ⟨u, s, hbefore, hafter, hs, (closed_returns hbefore hclosed hcalls hafter ?_).1⟩
  intro a ha
  simp only [List.mem_cons, List.not_mem_nil, or_false] at ha
  rcases ha with rfl | rfl | rfl <;> rfl

end Close

end YkUtil.Exec.CvQueue
