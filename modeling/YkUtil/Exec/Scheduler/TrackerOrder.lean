import YkUtil.Exec.Scheduler.TrackerThread

/-!
The `join` on the thread of the statistics tracker, and the order of the ticks. The
thread looks for a stop before a tick only, so one more tick may begin; the copies that
the thread and `wait_for_all_tasks` tick with are ticked in the order in which they were
made, as long as nothing changes the statistics behind the last one.
-/

namespace YkUtil.Exec

open YkUtil.Lib

/-- The steps of a thread that finds a stop requested when it looks for one. -/
def TrackerPc.stepsLeft : TrackerPc → Nat
  | .calling _ => 5
  | .ticking _ => 4
  | .loop => 3
  | .waitFor => 2
  | .copied _ _ => 1
  | .ended => 0

/-- The ticks such a thread begins. -/
def TrackerPc.ticksLeft : TrackerPc → Nat
  | .calling _ => 1
  | _ => 0

def TrackingAction.isTick {E : Type*} : TrackingAction E → Bool
  | .tickBegins => true
  | _ => false

def TrackingAction.isJoin {E : Type*} : TrackingAction E → Bool
  | .join => true
  | _ => false

def TrackerCall.stats : TrackerCall → Option TrackedStats
  | .tick stats => some stats
  | .resetFirstTick => none

/-- The copy that the thread has not yet ticked with. -/
def TrackerPc.copy : TrackerPc → Option TrackedStats
  | .copied _ stats | .calling stats => some stats
  | _ => none

/-- `wait_for_all_tasks` has its copy of the statistics. -/
def MasterPc.finishing : MasterPc → Bool
  | .copied _ | .joining (.waitForAllTasks _) | .ticking _ => true
  | _ => false

namespace Tracking

variable {E : Type*} {s t u : Tracking E} {a : TrackingAction E}

section Joining

def stepsLeft (s : Tracking E) : Nat := s.thread.elim 0 fun thread => thread.pc.stepsLeft

def ticksLeft (s : Tracking E) : Nat := s.thread.elim 0 fun thread => thread.pc.ticksLeft

/-- While the master is in `join`, every step of the thread is one of those it has left. -/
theorem joining_step {next : AfterJoin} (h : Guarded s) (hmaster : s.master = .joining next)
    (hnot : a.isJoin = false) (hstep : step s a = some t) :
    t.master = .joining next ∧ stepsLeft t + a.isThreadStep.toNat ≤ stepsLeft s ∧
      ticksLeft t + a.isTick.toNat ≤ ticksLeft s := by
  cases step_cases hstep with
  | asks _ hidle => cases hmaster.symm.trans hidle
  | asksLast hcopied => cases hmaster.symm.trans hcopied
  | halts =>
      refine ⟨hmaster, ?_, ?_⟩
      · cases hthread : s.thread <;>
          simp [stepsLeft, requestStop, hthread, TrackingAction.isThreadStep]
      · cases hthread : s.thread <;> simp [ticksLeft, requestStop, hthread, TrackingAction.isTick]
  | skips hother =>
      refine ⟨hmaster, by simp [hother], ?_⟩
      have htick : a.isTick = false := by
        cases a with
        | tickBegins => cases hother
        | _ => rfl
      simp [htick]
  | launches hidle => cases hmaster.symm.trans hidle
  | copies hidle => cases hmaster.symm.trans hidle
  | joins => cases hnot
  | finalTickEnds hticking => cases hmaster.symm.trans hticking
  | @moves _ thread pc hthread hmove =>
      have hstop := h.joining next hmaster thread hthread
      refine ⟨hmaster, ?_, ?_⟩
      · simp only [stepsLeft, goOn, hthread, Option.elim_some]
        generalize thread.pc = old at hmove
        cases hmove with
        | calls hrunning =>
            rw [hstop] at hrunning
            cases hrunning
        | _ => simp [TrackerPc.stepsLeft, TrackingAction.isThreadStep]
      · simp only [ticksLeft, goOn, hthread, Option.elim_some]
        generalize thread.pc = old at hmove
        cases hmove with
        | calls hrunning =>
            rw [hstop] at hrunning
            cases hrunning
        | _ => simp [TrackerPc.ticksLeft, TrackingAction.isTick]
  | tickBegins hthread hpc =>
      exact ⟨hmaster, by simp [stepsLeft, goOn, hthread, hpc, TrackerPc.stepsLeft,
        TrackingAction.isThreadStep], by simp [ticksLeft, goOn, hthread, hpc, TrackerPc.ticksLeft,
        TrackingAction.isTick]⟩
  | throws _ hthread hpc =>
      exact ⟨hmaster, by simp [stepsLeft, goOn, hthread, hpc, TrackerPc.stepsLeft,
        TrackingAction.isThreadStep], by simp [ticksLeft, goOn, hthread, hpc, TrackerPc.ticksLeft,
        TrackingAction.isTick]⟩
  | updates | stopsPool => exact ⟨hmaster, Nat.le_refl _, Nat.le_refl _⟩

/-- Either `join` returns, or the thread has a step. -/
theorem joining_enabled {next : AfterJoin} (h : Guarded s) (hmaster : s.master = .joining next) :
    (step s .join).isSome ∨ ∃ a t, a.isThreadStep = true ∧ step s a = some t := by
  have hafter (s' : Tracking E) (htracker : s'.tracker = s.tracker)
      (hexception : s'.exception = s.exception) : (afterJoin s' next).isSome := by
    cases next with
    | waitForAllTasks prevStats =>
        have hsome := h.waits prevStats (.inr hmaster)
        simp only [afterJoin, htracker, hexception]
        split
        · rfl
        · rw [Option.isSome_map]
          exact hsome
    | _ => rfl
  cases hthread : s.thread with
  | none =>
      left
      simp only [step, hmaster, hthread]
      exact hafter s rfl rfl
  | some thread =>
      have hstep {a : TrackingAction E} {t : Tracking E}
          (ha : step s a = s.thread.bind fun thread => s.threadStep thread thread.pc a)
          (hthreadStep : a.isThreadStep = true) (ht : s.threadStep thread thread.pc a = some t) :
          ∃ a t, a.isThreadStep = true ∧ step s a = some t :=
        ⟨a, t, hthreadStep, by rw [ha, hthread]; exact ht⟩
      have htracker (hruns : thread.pc ≠ .ended) := h.thread thread hthread hruns
      cases hpc : thread.pc with
      | loop => exact .inr (hstep (a := .checkPool) rfl rfl (by rw [hpc]; rfl))
      | waitFor =>
          refine .inr (hstep (a := .wake true) (t := s.goOn thread (.copied true s.stats))
            rfl rfl ?_)
          rw [hpc, threadStep, htracker (by simp [hpc]), Option.map_some]
      | copied cvOk stats => exact .inr (hstep (a := .checkStop) rfl rfl (by rw [hpc]; rfl))
      | calling stats =>
          refine .inr (hstep (a := .tickBegins) (t := {s.goOn thread (.ticking stats) with
            calls := s.calls ++ [(thread.tracker, .tick stats)]}) rfl rfl ?_)
          rw [hpc, threadStep, htracker (by simp [hpc]), Option.map_some]
      | ticking stats => exact .inr (hstep (a := .tickEnds none) rfl rfl (by rw [hpc]; rfl))
      | ended =>
          left
          obtain ⟨tracker, pc, stop⟩ := thread
          cases hpc
          simp only [step, hmaster, hthread]
          exact hafter _ rfl rfl

/-- From any state in which the master is in `join`, and for as long as it is there: the
thread takes at most five steps and begins at most one tick, and there is always a step
that it can take, the end of its tick included, until the `join` can return. -/
theorem tracker_join_returns {before after : List (TrackingAction E)} {next : AfterJoin}
    (hbefore : (system E).Reaches before u) (hmaster : u.master = .joining next)
    (hafter : (system E).exec u after = some s) (hnot : ∀ a ∈ after, a.isJoin = false) :
    after.countP TrackingAction.isThreadStep ≤ 5 ∧ after.countP TrackingAction.isTick ≤ 1 ∧
      ((step s .join).isSome ∨ ∃ a t, a.isThreadStep = true ∧ step s a = some t) := by
  have hinv : ∀ acts s, (system E).exec u acts = some s → (∀ a ∈ acts, a.isJoin = false) →
      Guarded s ∧ s.master = .joining next ∧
      stepsLeft s + acts.countP TrackingAction.isThreadStep ≤ stepsLeft u ∧
      ticksLeft s + acts.countP TrackingAction.isTick ≤ ticksLeft u := by
    refine (system E).exec_induction
      (fun _ => ⟨guarded_of_reachable hbefore.reachable, hmaster, Nat.le_refl _, Nat.le_refl _⟩) ?_
    intro acts s a t ih hstep hall
    obtain ⟨hguarded, hjoining, hsteps, hticks⟩ :=
      ih fun b hb => hall b (List.mem_append_left _ hb)
    obtain ⟨hstays, hstepsNow, hticksNow⟩ :=
      joining_step hguarded hjoining (hall a (by simp)) hstep
    refine ⟨hguarded.step hstep, hstays, ?_, ?_⟩
    · rw [List.countP_append, List.countP_singleton]
      cases hthread : a.isThreadStep <;> simp [hthread] at hstepsNow ⊢ <;> omega
    · rw [List.countP_append, List.countP_singleton]
      cases htick : a.isTick <;> simp [htick] at hticksNow ⊢ <;> omega
  obtain ⟨hguarded, hjoining, hsteps, hticks⟩ := hinv after s hafter hnot
  have hfive : stepsLeft u ≤ 5 := by
    unfold stepsLeft
    cases u.thread with
    | none => exact Nat.zero_le 5
    | some thread => cases hpc : thread.pc <;> simp [hpc, TrackerPc.stepsLeft]
  have hone : ticksLeft u ≤ 1 := by
    unfold ticksLeft
    cases u.thread with
    | none => exact Nat.zero_le 1
    | some thread => cases hpc : thread.pc <;> simp [hpc, TrackerPc.ticksLeft]
  exact ⟨by omega, by omega, joining_enabled hguarded hjoining⟩

/-- The master joins a thread that is in a tick. -/
theorem tracker_join_returns_tick :
    ∃ u s, (system Nat).Reaches
        [.setStatsTracker (some 3), .join, .start, .checkPool, .wake true, .checkStop, .tickBegins,
          .waitForAllTasks, .requestStop] u ∧
      (system Nat).exec u [.tickEnds none, .checkPool, .wake true, .checkStop] = some s ∧
      ((step s .join).isSome ∨ ∃ a t, a.isThreadStep = true ∧ step s a = some t) := by
  obtain ⟨u, hbefore, hu⟩ := (system Nat).exists_of_map
    [.setStatsTracker (some 3), .join, .start, .checkPool, .wake true, .checkStop, .tickBegins,
      .waitForAllTasks, .requestStop]
    (b := .joining (.waitForAllTasks .initial)) (fun u => u.master) rfl
  obtain ⟨s, hall, -⟩ := (system Nat).exists_of_map
    ([.setStatsTracker (some 3), .join, .start, .checkPool, .wake true, .checkStop, .tickBegins,
      .waitForAllTasks, .requestStop] ++ [.tickEnds none, .checkPool, .wake true, .checkStop])
    (b := .joining (.waitForAllTasks .initial)) (fun s => s.master) rfl
  have hafter : (system Nat).exec u [.tickEnds none, .checkPool, .wake true, .checkStop] =
      some s := by
    rw [TransitionSystem.Reaches, TransitionSystem.exec_append, hbefore] at hall
    exact hall
  refine ⟨u, s, hbefore, hafter, (tracker_join_returns hbefore hu hafter ?_).2.2⟩
  intro a ha
  simp only [List.mem_cons, List.not_mem_nil, or_false] at ha
  rcases ha with rfl | rfl | rfl | rfl <;> rfl

end Joining

section Order

/-- The statistics of the ticks. -/
def ticked (calls : List (Nat × TrackerCall)) : List TrackedStats :=
  calls.filterMap fun call => call.2.stats

/-- The counters do not decrease, and nothing changes them once `wait_for_all_tasks` has
its copy: the tasks are done. -/
def Steady (s : Tracking E) : TrackingAction E → Prop
  | .updateStats stats => s.stats.counters ≤ stats.counters ∧ s.master.finishing = false
  | _ => True

instance (s : Tracking E) (a : TrackingAction E) : Decidable (Steady s a) :=
  match a with
  | .updateStats stats =>
      inferInstanceAs (Decidable (s.stats.counters ≤ stats.counters ∧ s.master.finishing = false))
  | .setStatsTracker _ | .launchStatsTracker | .haltStatsTracker | .start | .waitForAllTasks
  | .abort | .requestStop | .join | .finalTickEnds | .checkPool | .wake _ | .checkStop
  | .tickBegins | .tickEnds _ | .stopPool => inferInstanceAs (Decidable True)

/-- The runs that go on from a state. -/
def runsFrom (u : Tracking E) : TransitionSystem (Tracking E) (TrackingAction E) :=
  {init := u, step := step}

def Below (stats : List TrackedStats) (bound : TrackedStats) : Prop :=
  ∀ x ∈ stats, x.counters ≤ bound.counters

/-- Every copy that is still to be ticked with is behind the ticks there have been. -/
structure Ascending (news : List (Nat × TrackerCall)) (s : Tracking E) : Prop where
  sorted : ((ticked news).map TrackedStats.counters).Pairwise (· ≤ ·)
  below : Below (ticked news) s.stats
  copies : ∀ thread copied, s.thread = some thread → thread.pc.copy = some copied →
    Below (ticked news) copied ∧ copied.counters ≤ s.stats.counters

/-- What has happened since `u`. -/
structure InOrder (u s : Tracking E) : Prop where
  calls : ∃ news, s.calls = u.calls ++ news ∧ Ascending news s
  waits : ∀ prevStats, Waits s prevStats → prevStats = s.stats
  ticking : ∀ prevStats, s.master = .ticking prevStats → s.thread = none ∧
    ∃ calls tracker, s.calls = calls ++ [(tracker, .tick s.stats)]

theorem ticked_concat (news : List (Nat × TrackerCall)) (tracker : Nat) (stats : TrackedStats) :
    ticked (news ++ [(tracker, .tick stats)]) = ticked news ++ [stats] := by
  simp [ticked, TrackerCall.stats]

theorem Ascending.tick {news : List (Nat × TrackerCall)} (h : Ascending news s)
    {stats : TrackedStats} (hbelow : Below (ticked news) stats)
    (hle : stats.counters ≤ s.stats.counters) (tracker : Nat) (hstats : t.stats = s.stats)
    (hnone : ∀ thread, t.thread = some thread → thread.pc.copy = none) :
    Ascending (news ++ [(tracker, .tick stats)]) t where
  sorted := by
    rw [ticked_concat, List.map_append, List.map_singleton, List.pairwise_append]
    refine ⟨h.sorted, List.pairwise_singleton _ _, ?_⟩
    rintro x hx y hy
    obtain ⟨stats', hmem, rfl⟩ := List.mem_map.mp hx
    rw [List.mem_singleton.mp hy]
    exact hbelow stats' hmem
  below := by
    intro x hx
    rw [ticked_concat, List.mem_append, List.mem_singleton] at hx
    rw [hstats]
    rcases hx with hx | rfl
    · exact h.below x hx
    · exact hle
  copies := by
    intro thread copied hthread hcopy
    rw [hnone thread hthread] at hcopy
    cases hcopy

/-- The rule for a step that ticks nothing and leaves the statistics alone. -/
theorem Ascending.keep {news : List (Nat × TrackerCall)} (h : Ascending news s)
    (hstats : t.stats = s.stats)
    (hcopy : ∀ thread copied, t.thread = some thread → thread.pc.copy = some copied →
      copied = s.stats ∨ ∃ old, s.thread = some old ∧ old.pc.copy = some copied) :
    Ascending news t where
  sorted := h.sorted
  below := hstats ▸ h.below
  copies := by
    intro thread copied hthread hcopied
    rw [hstats]
    rcases hcopy thread copied hthread hcopied with rfl | ⟨old, hold, hcopied⟩
    · exact ⟨h.below, le_refl _⟩
    · exact h.copies old copied hold hcopied

/-- The same for the whole invariant. -/
theorem InOrder.keep (h : InOrder u s) (hcalls : t.calls = s.calls) (hstats : t.stats = s.stats)
    (hcopy : ∀ thread copied, t.thread = some thread → thread.pc.copy = some copied →
      copied = s.stats ∨ ∃ old, s.thread = some old ∧ old.pc.copy = some copied)
    (hwaits : ∀ prevStats, Waits t prevStats → prevStats = s.stats ∨ Waits s prevStats)
    (hticking : ∀ prevStats, t.master = .ticking prevStats →
      s.master = .ticking prevStats ∧ (s.thread = none → t.thread = none)) : InOrder u t where
  calls := by
    obtain ⟨news, hnews, hascending⟩ := h.calls
    exact ⟨news, hcalls.trans hnews, hascending.keep hstats hcopy⟩
  waits := by
    intro prevStats hwait
    rw [hstats]
    rcases hwaits prevStats hwait with rfl | hold
    · rfl
    · exact h.waits prevStats hold
  ticking := by
    intro prevStats hmaster
    obtain ⟨hold, hthread⟩ := hticking prevStats hmaster
    obtain ⟨hnone, hlast⟩ := h.ticking prevStats hold
    rw [hcalls, hstats]
    exact ⟨hthread hnone, hlast⟩

theorem copy_of_thread (thread : TrackerThread) (copied : TrackedStats)
    (hthread : s.thread = some thread) (hcopy : thread.pc.copy = some copied) :
    copied = s.stats ∨ ∃ old, s.thread = some old ∧ old.pc.copy = some copied :=
  .inr ⟨thread, hthread, hcopy⟩

theorem copy_requestStop (thread : TrackerThread) (copied : TrackedStats)
    (hthread : s.requestStop.thread = some thread) (hcopy : thread.pc.copy = some copied) :
    copied = s.stats ∨ ∃ old, s.thread = some old ∧ old.pc.copy = some copied := by
  obtain ⟨old, hold, rfl⟩ := requestStop_thread hthread
  exact .inr ⟨old, hold, hcopy⟩

theorem InOrder.launched (h : InOrder u s) (hidle : s.master = .idle) : InOrder u s.launched := by
  unfold Tracking.launched
  split
  · exact h
  · rename_i tracker htracker
    obtain ⟨news, hnews, hascending⟩ := h.calls
    refine ⟨⟨news ++ [(tracker, .resetFirstTick)], ?_, ?_⟩, h.waits, ?_⟩
    · simp [hnews]
    · have hsame : ticked (news ++ [(tracker, .resetFirstTick)]) = ticked news := by
        simp [ticked, TrackerCall.stats]
      refine ⟨hsame ▸ hascending.sorted, hsame ▸ hascending.below, ?_⟩
      intro thread copied hthread hcopy
      cases hthread
      cases hcopy
    · intro prevStats hmaster
      cases hidle.symm.trans hmaster

theorem InOrder.joined (h : InOrder u s) {next : AfterJoin} (hmaster : s.master = .joining next)
    (hafter : afterJoin {s with thread := none} next = some t) : InOrder u t := by
  have hidle : InOrder u {s with thread := none, master := .idle} := by
    refine h.keep rfl rfl ?_ ?_ ?_
    · intro thread copied hthread
      cases hthread
    · rintro prevStats (hwait | hwait) <;> cases hwait
    · intro prevStats hticking
      cases hticking
  rcases afterJoin_cases hafter with ⟨tracker, -, rfl⟩ | ⟨-, rfl⟩ | ⟨prevStats, error, -, -, rfl⟩ |
      ⟨prevStats, tracker, rfl, -, -, rfl⟩ | ⟨-, rfl⟩
  · refine hidle.keep rfl rfl ?_ (fun _ hwait => .inr hwait) ?_
    · intro thread copied hthread
      cases hthread
    · intro prevStats hticking
      cases hticking
  · have hlaunched := hidle.launched rfl
    unfold Tracking.launched at hlaunched ⊢
    cases htracker : s.tracker <;> simp only [htracker] at hlaunched ⊢ <;> exact hlaunched
  · refine hidle.keep rfl rfl ?_ (fun _ hwait => .inr hwait) ?_
    · intro thread copied hthread
      cases hthread
    · intro prevStats hticking
      cases hticking
  · have hlast : prevStats = s.stats := h.waits prevStats (.inr hmaster)
    subst hlast
    obtain ⟨news, hnews, hascending⟩ := h.calls
    refine ⟨⟨news ++ [(tracker, .tick s.stats)], ?_, ?_⟩, ?_,
      fun _ _ => ⟨rfl, s.calls, tracker, rfl⟩⟩
    · simp [hnews]
    · exact hascending.tick hascending.below (le_refl _) tracker rfl nofun
    · rintro prevStats (hwait | hwait) <;> cases hwait
  · exact hidle

theorem InOrder.step (h : InOrder u s) (hsteady : Steady s a)
    (hstep : Tracking.step s a = some t) : InOrder u t := by
  cases step_cases hstep with
  | asks next hidle hnext =>
      refine h.keep rfl rfl copy_requestStop ?_ (by rintro prevStats ⟨⟩)
      rintro prevStats (hwait | hwait)
      · cases hwait
      · cases hwait
        exact absurd rfl (hnext prevStats)
  | asksLast hmaster =>
      refine h.keep rfl rfl copy_requestStop ?_ (by rintro prevStats ⟨⟩)
      rintro prevStats (hwait | hwait)
      · cases hwait
      · cases hwait
        exact .inr (.inl hmaster)
  | halts =>
      refine h.keep rfl rfl copy_requestStop (fun _ hwait => .inr hwait) fun _ hmaster => ?_
      refine ⟨hmaster, fun hnone => ?_⟩
      rw [requestStop, hnone]
      rfl
  | skips => exact h
  | launches hidle => exact h.launched hidle
  | copies hidle =>
      refine h.keep rfl rfl copy_of_thread ?_ (by rintro prevStats ⟨⟩)
      rintro prevStats (hwait | hwait)
      · cases hwait
        exact .inl rfl
      · cases hwait
  | joins hmaster _ hafter => exact h.joined hmaster hafter
  | finalTickEnds =>
      refine h.keep rfl rfl copy_of_thread ?_ (by rintro prevStats ⟨⟩)
      rintro prevStats (hwait | hwait) <;> cases hwait
  | @moves _ thread pc hthread hmove =>
      refine h.keep rfl rfl ?_ (fun _ hwait => .inr hwait) fun _ hmaster => ⟨hmaster, ?_⟩
      · intro thread' copied hthread' hcopy
        cases hthread'
        generalize hold : thread.pc = old at hmove
        cases hmove with
        | copies =>
            cases hcopy
            exact .inl rfl
        | calls => exact .inr ⟨thread, hthread, by rw [hold]; exact hcopy⟩
        | _ => cases hcopy
      · intro hnone
        cases hthread.symm.trans hnone
  | @tickBegins thread stats tracker hthread hpc =>
      obtain ⟨news, hnews, hascending⟩ := h.calls
      obtain ⟨hbelow, hle⟩ := hascending.copies thread stats hthread (by rw [hpc]; rfl)
      refine ⟨⟨news ++ [(tracker, .tick stats)], ?_, ?_⟩, h.waits, ?_⟩
      · simp [hnews]
      · refine hascending.tick hbelow hle tracker rfl fun thread' hthread' => ?_
        cases hthread'
        rfl
      · intro prevStats hmaster
        cases hthread.symm.trans (h.ticking prevStats hmaster).1
  | throws error hthread =>
      refine h.keep rfl rfl ?_ (fun _ hwait => .inr hwait) fun _ hmaster => ⟨hmaster, ?_⟩
      · intro thread' copied hthread' hcopy
        cases hthread'
        cases hcopy
      · intro hnone
        cases hthread.symm.trans hnone
  | updates stats =>
      obtain ⟨hle, hrunning⟩ := hsteady
      obtain ⟨news, hnews, hascending⟩ := h.calls
      have hbound : Below (ticked news) stats := fun x hx => (hascending.below x hx).trans hle
      refine ⟨⟨news, hnews, hascending.sorted, hbound, ?_⟩, ?_, ?_⟩
      · intro thread copied hthread hcopy
        obtain ⟨hbelow, hcopied⟩ := hascending.copies thread copied hthread hcopy
        exact ⟨hbelow, hcopied.trans hle⟩
      · rintro prevStats (hwait | hwait) <;> simp only at hwait <;> rw [hwait] at hrunning <;>
          cases hrunning
      · intro prevStats hmaster
        simp only at hmaster
        rw [hmaster] at hrunning
        cases hrunning
  | stopsPool =>
      exact h.keep rfl rfl copy_of_thread (fun _ hwait => .inr hwait)
        fun _ hmaster => ⟨hmaster, id⟩

/-- From any state in which the master is in no call and the thread is over, as long as
the counters do not decrease and stand still at the end: the ticks get the statistics in
the order of their copies, whether the thread or `wait_for_all_tasks` ticks, so they are
a run whose counters never decrease; and the last tick gets the final statistics. -/
theorem ticks_in_order {acts : List (TrackingAction E)} (hidle : u.master = .idle) (hover : u.Over)
    (hrun : (runsFrom u).GoodRun Steady acts s) :
    ∃ news, s.calls = u.calls ++ news ∧
      (∀ run : TrackerRun, run.ticks.map Tick.stats = ticked news → run.NeverDecreases) ∧
      ∀ prevStats, s.master = .ticking prevStats →
        ∃ calls tracker, s.calls = calls ++ [(tracker, .tick s.stats)] := by
  have hstart : InOrder u u := by
    refine ⟨⟨[], (List.append_nil _).symm, List.Pairwise.nil, nofun, ?_⟩, ?_, ?_⟩
    · intro thread copied hthread hcopy
      rw [hover thread hthread] at hcopy
      cases hcopy
    · rintro prevStats (hwait | hwait) <;> cases hidle.symm.trans hwait
    · intro prevStats hmaster
      cases hidle.symm.trans hmaster
  have h : InOrder u s :=
    hrun.invariant hstart fun _ _ _ _ hsteady hs hstep => hs.step hsteady hstep
  obtain ⟨news, hnews, hascending⟩ := h.calls
  refine ⟨news, hnews, fun run hticks => ?_, fun prevStats hmaster => ?_⟩
  · have hcounters : run.observed.map Prod.fst = (ticked news).map TrackedStats.counters := by
      rw [← hticks]
      simp [TrackerRun.observed, Tick.observed, Function.comp_def]
    rw [TrackerRun.NeverDecreases, hcounters]
    exact hascending.sorted
  · exact (h.ticking prevStats hmaster).2

/-- The thread ticks with the first value, `wait_for_all_tasks` with the second. -/
theorem ticks_in_order_two :
    ∃ s : Tracking Nat, (runsFrom (system Nat).init).GoodRun Steady
        [.setStatsTracker (some 3), .join, .start, .checkPool, .wake true, .checkStop,
          .updateStats {TrackedStats.initial with producerOutput := 5}, .tickBegins, .tickEnds none,
          .waitForAllTasks, .requestStop, .checkPool, .wake false, .checkStop, .join] s ∧
      ∃ calls tracker, s.calls = calls ++ [(tracker, .tick s.stats)] := by
  obtain ⟨s, hreach, hmaster⟩ := ((runsFrom (system Nat).init).restrict Steady).exists_of_map
    [.setStatsTracker (some 3), .join, .start, .checkPool, .wake true, .checkStop,
      .updateStats {TrackedStats.initial with producerOutput := 5}, .tickBegins, .tickEnds none,
      .waitForAllTasks, .requestStop, .checkPool, .wake false, .checkStop, .join]
    (b := .ticking {TrackedStats.initial with producerOutput := 5}) (fun s => s.master) rfl
  have hrun := TransitionSystem.GoodRun.of_restrict hreach
  have hover : (system Nat).init.Over := by
    intro thread hmem
    cases hmem
  obtain ⟨_, -, -, hlast⟩ := ticks_in_order rfl hover hrun
  exact ⟨s, hrun, hlast _ hmaster⟩

end Order

end Tracking

end YkUtil.Exec
