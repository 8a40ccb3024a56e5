import YkUtil.Lib.TransitionSystem
import YkUtil.Exec.Scheduler.Tracker

/-!
The thread that ticks the statistics tracker, against the calls of the master thread.
The tracker has no lock of its own: the master requests a stop and joins before it
touches the tracker. The thread looks for a stop between its copy of the statistics and
the tick only. An exception of a tick ends the thread and is kept for
`wait_for_all_tasks`.
-/

namespace YkUtil.Exec

open YkUtil.Lib

/-- Where the tracker thread is: at the loop condition, in `wait_for`, behind it with a
copy of the statistics, about to tick, or in the tick. -/
inductive TrackerPc where
  | loop
  | waitFor
  | copied (cvOk : Bool) (stats : TrackedStats)
  | calling (stats : TrackedStats)
  | ticking (stats : TrackedStats)
  | ended

/-- A joinable `stats_tracker_thread_`. `tracker` is the tracker it was launched for. -/
structure TrackerThread where
  tracker : Nat
  pc : TrackerPc
  stopRequested : Bool

/-- What the master thread does behind `join`. -/
inductive AfterJoin where
  | setStatsTracker (tracker : Option Nat)
  | launchStatsTracker
  | waitForAllTasks (prevStats : TrackedStats)
  | abort

/-- The master thread is in no call, in `wait_for_all_tasks` with its copy of the
statistics, in `join`, or in the tick at the end of `wait_for_all_tasks`. -/
inductive MasterPc where
  | idle
  | copied (prevStats : TrackedStats)
  | joining (next : AfterJoin)
  | ticking (prevStats : TrackedStats)

inductive TrackerCall where
  | resetFirstTick
  | tick (stats : TrackedStats)

/-- `tracker` names the tracker that is set. `calls`, `thrown` and `rethrown` list the
calls on the trackers, what their ticks have thrown in the thread, and what
`wait_for_all_tasks` has rethrown; no step reads them. -/
structure Tracking (E : Type*) where
  tracker : Option Nat
  thread : Option TrackerThread
  exception : Option E
  master : MasterPc
  stats : TrackedStats
  poolStopped : Bool
  calls : List (Nat × TrackerCall)
  thrown : List E
  rethrown : List E

/-- `join`, `finalTickEnds` and `requestStop` are the parts of the calls of the master.
`updateStats` is any block that changes the statistics. -/
inductive TrackingAction (E : Type*) where
  | setStatsTracker (tracker : Option Nat)
  | launchStatsTracker
  | haltStatsTracker
  | start
  | waitForAllTasks
  | abort
  | requestStop
  | join
  | finalTickEnds
  | checkPool
  | wake (cvOk : Bool)
  | checkStop
  | tickBegins
  | tickEnds (error : Option E)
  | updateStats (stats : TrackedStats)
  | stopPool

def TrackingAction.isThreadStep {E : Type*} : TrackingAction E → Bool
  | .checkPool | .wake _ | .checkStop | .tickBegins | .tickEnds _ => true
  | _ => false

namespace Tracking

variable {E : Type*}

def requestStop (s : Tracking E) : Tracking E :=
  {s with thread := s.thread.map fun thread => {thread with stopRequested := true}}

/-- The thread goes on at `pc`. -/
def goOn (s : Tracking E) (thread : TrackerThread) (pc : TrackerPc) : Tracking E :=
  {s with thread := some {thread with pc := pc}}

/-- `launch_stats_tracker` behind its `join`. -/
def launched (s : Tracking E) : Tracking E :=
  match s.tracker with
  | none => s
  | some tracker =>
      {s with
        thread := some {tracker := tracker, pc := .loop, stopRequested := false}
        calls := s.calls ++ [(tracker, .resetFirstTick)]}

/-- The first half of the three calls that begin with `request_stop` and `join`. -/
def ask (s : Tracking E) (next : AfterJoin) : Option (Tracking E) :=
  match s.master with
  | .idle => some {s.requestStop with master := .joining next}
  | _ => none

/-- The thread, if it is joinable, has ended. -/
def Over (s : Tracking E) : Prop := ∀ thread ∈ s.thread, thread.pc = .ended

/-- What follows `join`. A tick without a tracker has no step. -/
def afterJoin (s : Tracking E) : AfterJoin → Option (Tracking E)
  | .setStatsTracker tracker => some {s with tracker := tracker, master := .idle}
  | .launchStatsTracker => some {s.launched with master := .idle}
  | .waitForAllTasks prevStats =>
      match s.exception with
      | some error =>
          some {s with exception := none, rethrown := s.rethrown ++ [error], master := .idle}
      | none => s.tracker.map fun tracker =>
          {s with master := .ticking prevStats, calls := s.calls ++ [(tracker, .tick prevStats)]}
  | .abort => some {s with master := .idle}

/-- The body of the thread. -/
def threadStep (s : Tracking E) (thread : TrackerThread) :
    TrackerPc → TrackingAction E → Option (Tracking E)
  | .loop, .checkPool => some (s.goOn thread (if s.poolStopped then .ended else .waitFor))
  | .waitFor, .wake cvOk => s.tracker.map fun _ => s.goOn thread (.copied cvOk s.stats)
  | .copied cvOk stats, .checkStop =>
      some (s.goOn thread (if thread.stopRequested || !cvOk then .ended else .calling stats))
  | .calling stats, .tickBegins => s.tracker.map fun tracker =>
      {s.goOn thread (.ticking stats) with calls := s.calls ++ [(tracker, .tick stats)]}
  | .ticking _, .tickEnds none => some (s.goOn thread .loop)
  | .ticking _, .tickEnds (some error) =>
      some {s.goOn thread .ended with exception := some error, thrown := s.thrown ++ [error]}
  | _, _ => none

def step (s : Tracking E) : TrackingAction E → Option (Tracking E)
  | .setStatsTracker tracker => s.ask (.setStatsTracker tracker)
  | .launchStatsTracker => s.ask .launchStatsTracker
  | .abort => s.ask .abort
  | .haltStatsTracker => some (if s.tracker.isSome then s.requestStop else s)
  | .start =>
      match s.master with
      | .idle => some (if s.thread.isSome then s else s.launched)
      | _ => none
  | .waitForAllTasks =>
      match s.master with
      | .idle => some (if s.tracker.isSome then {s with master := .copied s.stats} else s)
      | _ => none
  | .requestStop =>
      match s.master with
      | .copied prevStats =>
          some {s.requestStop with master := .joining (.waitForAllTasks prevStats)}
      | _ => none
  | .join =>
      match s.master, s.thread with
      | .joining next, none => s.afterJoin next
      | .joining next, some ⟨_, .ended, _⟩ => afterJoin {s with thread := none} next
      | _, _ => none
  | .finalTickEnds =>
      match s.master with
      | .ticking _ => some {s with master := .idle}
      | _ => none
  | .updateStats stats => some {s with stats := stats}
  | .stopPool => some {s with poolStopped := true}
  | a => s.thread.bind fun thread => s.threadStep thread thread.pc a

def system (E : Type*) : TransitionSystem (Tracking E) (TrackingAction E) :=
  {init :=
    {tracker := none
     thread := none
     exception := none
     master := .idle
     stats := .initial
     poolStopped := false
     calls := []
     thrown := []
     rethrown := []}
   step := step}

/-- A step of the thread with no effect but on its own place. -/
inductive Moves (s : Tracking E) (thread : TrackerThread) :
    TrackerPc → TrackingAction E → TrackerPc → Prop where
  | leaves (hstop : s.poolStopped = true) : Moves s thread .loop .checkPool .ended
  | waits (hstop : s.poolStopped = false) : Moves s thread .loop .checkPool .waitFor
  | copies (cvOk : Bool) : Moves s thread .waitFor (.wake cvOk) (.copied cvOk s.stats)
  | stops {cvOk : Bool} {stats : TrackedStats} :
      Moves s thread (.copied cvOk stats) .checkStop .ended
  | calls {stats : TrackedStats} (hstop : thread.stopRequested = false) :
      Moves s thread (.copied true stats) .checkStop (.calling stats)
  | returns {stats : TrackedStats} : Moves s thread (.ticking stats) (.tickEnds none) .loop

/-- Everything a step can be. -/
inductive Step (s : Tracking E) : TrackingAction E → Tracking E → Prop where
  | asks {a : TrackingAction E} (next : AfterJoin) (hidle : s.master = .idle)
      (hnext : ∀ prevStats, next ≠ .waitForAllTasks prevStats) :
      Step s a {s.requestStop with master := .joining next}
  | asksLast {prevStats : TrackedStats} (hmaster : s.master = .copied prevStats) :
      Step s .requestStop {s.requestStop with master := .joining (.waitForAllTasks prevStats)}
  | halts : Step s .haltStatsTracker s.requestStop
  | skips {a : TrackingAction E} (hnot : a.isThreadStep = false) : Step s a s
  | launches (hidle : s.master = .idle) (hthread : s.thread = none) : Step s .start s.launched
  | copies (hidle : s.master = .idle) (htracker : s.tracker.isSome) :
      Step s .waitForAllTasks {s with master := .copied s.stats}
  | joins {next : AfterJoin} {t : Tracking E} (hmaster : s.master = .joining next) (hover : s.Over)
      (hafter : afterJoin {s with thread := none} next = some t) : Step s .join t
  | finalTickEnds {prevStats : TrackedStats} (hmaster : s.master = .ticking prevStats) :
      Step s .finalTickEnds {s with master := .idle}
  | moves {a : TrackingAction E} {thread : TrackerThread} {pc : TrackerPc}
      (hthread : s.thread = some thread) (hmove : Moves s thread thread.pc a pc) :
      Step s a (s.goOn thread pc)
  | tickBegins {thread : TrackerThread} {stats : TrackedStats} {tracker : Nat}
      (hthread : s.thread = some thread) (hpc : thread.pc = .calling stats)
      (htracker : s.tracker = some tracker) : Step s .tickBegins
        {s.goOn thread (.ticking stats) with calls := s.calls ++ [(tracker, .tick stats)]}
  | throws {thread : TrackerThread} {stats : TrackedStats} (error : E)
      (hthread : s.thread = some thread) (hpc : thread.pc = .ticking stats) :
      Step s (.tickEnds (some error)) {s.goOn thread .ended with
        exception := some error
        thrown := s.thrown ++ [error]}
  | updates (stats : TrackedStats) : Step s (.updateStats stats) {s with stats := stats}
  | stopsPool : Step s .stopPool {s with poolStopped := true}

variable {s t u : Tracking E} {a : TrackingAction E}

theorem ask_eq_some {next : AfterJoin} (h : s.ask next = some t) :
    s.master = .idle ∧ t = {s.requestStop with master := .joining next} := by
  unfold ask at h
  split at h
  · rename_i hidle
    cases h
    exact ⟨hidle, rfl⟩
  · cases h

theorem threadStep_cases {thread : TrackerThread} (hthread : s.thread = some thread)
    (h : s.threadStep thread thread.pc a = some t) : Step s a t := by
  cases hpc : thread.pc <;> cases a <;> rw [hpc] at h <;>
    simp only [threadStep, reduceCtorEq, Option.some.injEq] at h
  case loop.checkPool =>
    subst h
    refine .moves hthread (hpc ▸ ?_)
    cases hstop : s.poolStopped
    · exact .waits hstop
    · exact .leaves hstop
  case waitFor.wake cvOk =>
    obtain ⟨tracker, -, rfl⟩ := Option.map_eq_some_iff.mp h
    exact .moves hthread (hpc ▸ .copies cvOk)
  case copied.checkStop cvOk stats =>
    subst h
    refine .moves hthread (hpc ▸ ?_)
    cases hstop : thread.stopRequested
    · cases cvOk
      · exact .stops
      · exact .calls hstop
    · exact .stops
  case calling.tickBegins stats =>
    obtain ⟨tracker, htracker, rfl⟩ := Option.map_eq_some_iff.mp h
    exact .tickBegins hthread hpc htracker
  case ticking.tickEnds stats error =>
    cases error with
    | none =>
        cases h
        exact .moves hthread (hpc ▸ .returns)
    | some error =>
        cases h
        exact .throws error hthread hpc

theorem step_cases (h : step s a = some t) : Step s a t := by
  cases a with
  | setStatsTracker tracker | launchStatsTracker | abort =>
      obtain ⟨hidle, rfl⟩ := ask_eq_some h
      exact .asks _ hidle nofun
  | haltStatsTracker =>
      simp only [step, Option.some.injEq] at h
      split at h <;> subst h
      · exact .halts
      · exact .skips rfl
  | start =>
      simp only [step] at h
      split at h
      · rename_i hidle
        simp only [Option.some.injEq] at h
        split at h <;> rename_i hthread <;> subst h
        · exact .skips rfl
        · exact .launches hidle (Option.not_isSome_iff_eq_none.mp hthread)
      · cases h
  | waitForAllTasks =>
      simp only [step] at h
      split at h
      · rename_i hidle
        simp only [Option.some.injEq] at h
        split at h <;> rename_i htracker <;> subst h
        · exact .copies hidle htracker
        · exact .skips rfl
      · cases h
  | requestStop =>
      simp only [step] at h
      split at h
      · rename_i hmaster
        cases h
        exact .asksLast hmaster
      · cases h
  | join =>
      simp only [step] at h
      split at h
      · rename_i next hmaster hthread
        refine .joins hmaster (fun thread hmem => by simp [hthread] at hmem) ?_
        rw [← h]
        congr 1
        cases s
        cases hthread
        rfl
      · rename_i next tracker stop hmaster hthread
        refine .joins hmaster (fun thread hmem => ?_) h
        rw [hthread] at hmem
        cases hmem
        rfl
      · cases h
  | finalTickEnds =>
      simp only [step] at h
      split at h
      · rename_i hmaster
        cases h
        exact .finalTickEnds hmaster
      · cases h
  | updateStats stats =>
      cases h
      exact .updates stats
  | stopPool =>
      cases h
      exact .stopsPool
  | checkPool | wake | checkStop | tickBegins | tickEnds =>
      obtain ⟨thread, hthread, h⟩ := Option.bind_eq_some_iff.mp h
      exact threadStep_cases hthread h

/-- What follows `join`, where it has a step. -/
theorem afterJoin_cases {next : AfterJoin} (h : s.afterJoin next = some t) :
    (∃ tracker, next = .setStatsTracker tracker ∧
      t = {s with tracker := tracker, master := .idle}) ∨
    (next = .launchStatsTracker ∧ t = {s.launched with master := .idle}) ∨
    (∃ prevStats error, next = .waitForAllTasks prevStats ∧ s.exception = some error ∧
      t = {s with exception := none, rethrown := s.rethrown ++ [error], master := .idle}) ∨
    (∃ prevStats tracker, next = .waitForAllTasks prevStats ∧ s.exception = none ∧
      s.tracker = some tracker ∧ t = {s with
        master := .ticking prevStats
        calls := s.calls ++ [(tracker, .tick prevStats)]}) ∨
    (next = .abort ∧ t = {s with master := .idle}) := by
  cases next with
  | setStatsTracker tracker =>
      cases h
      exact .inl ⟨tracker, rfl, rfl⟩
  | launchStatsTracker =>
      cases h
      exact .inr (.inl ⟨rfl, rfl⟩)
  | waitForAllTasks prevStats =>
      simp only [afterJoin] at h
      split at h
      · rename_i error herror
        cases h
        exact .inr (.inr (.inl ⟨prevStats, error, rfl, herror, rfl⟩))
      · rename_i hnone
        obtain ⟨tracker, htracker, rfl⟩ := Option.map_eq_some_iff.mp h
        exact .inr (.inr (.inr (.inl ⟨prevStats, tracker, rfl, hnone, htracker, rfl⟩)))
  | abort =>
      cases h
      exact .inr (.inr (.inr (.inr ⟨rfl, rfl⟩)))

section Safety

/-- The master is between the two halves of `wait_for_all_tasks`. -/
def Waits (s : Tracking E) (prevStats : TrackedStats) : Prop :=
  s.master = .copied prevStats ∨ s.master = .joining (.waitForAllTasks prevStats)

/-- Who may use the tracker, and what becomes of the exceptions. -/
structure Guarded (s : Tracking E) : Prop where
  thread : ∀ thread, s.thread = some thread → thread.pc ≠ .ended → s.tracker = some thread.tracker
  waits : ∀ prevStats, Waits s prevStats → s.tracker.isSome
  ticking : ∀ prevStats, s.master = .ticking prevStats → s.thread = none ∧ s.exception = none
  joining : ∀ next, s.master = .joining next → ∀ thread ∈ s.thread, thread.stopRequested = true
  reported : (s.rethrown ++ s.exception.toList).Sublist s.thrown

theorem guarded_init : Guarded (system E).init where
  thread := nofun
  waits := by
    rintro prevStats (h | h) <;> cases h
  ticking := nofun
  joining := nofun
  reported := List.Sublist.refl _

theorem requestStop_thread {thread : TrackerThread} (h : s.requestStop.thread = some thread) :
    ∃ old, s.thread = some old ∧ thread = {old with stopRequested := true} := by
  obtain ⟨old, hold, rfl⟩ := Option.map_eq_some_iff.mp h
  exact ⟨old, hold, rfl⟩

theorem Guarded.requestStop (h : Guarded s) : Guarded s.requestStop where
  thread := by
    intro thread hthread hruns
    obtain ⟨old, hold, rfl⟩ := requestStop_thread hthread
    exact h.thread old hold hruns
  waits := h.waits
  ticking := by
    intro prevStats hmaster
    obtain ⟨hthread, hnone⟩ := h.ticking prevStats hmaster
    exact ⟨by rw [Tracking.requestStop, hthread]; rfl, hnone⟩
  joining := by
    intro next _ thread hthread
    obtain ⟨old, -, rfl⟩ := requestStop_thread hthread
    rfl
  reported := h.reported

theorem Guarded.launched (h : Guarded s) (hidle : s.master = .idle) : Guarded s.launched := by
  unfold Tracking.launched
  split
  · exact h
  · rename_i tracker htracker
    refine ⟨?_, h.waits, ?_, ?_, h.reported⟩
    · intro thread hthread _
      cases hthread
      exact htracker
    · intro prevStats hmaster
      cases hidle.symm.trans hmaster
    · intro next hmaster
      cases hidle.symm.trans hmaster

/-- The master stands elsewhere, but not in a tick and not in a wait for the end. -/
theorem Guarded.at (h : Guarded s) {master : MasterPc}
    (hticking : ∀ prevStats, master ≠ .ticking prevStats)
    (hwaits : ∀ prevStats, Waits {s with master := master} prevStats → s.tracker.isSome)
    (hjoining : ∀ next, master = .joining next → ∀ thread ∈ s.thread, thread.stopRequested = true) :
    Guarded {s with master := master} where
  thread := h.thread
  waits := hwaits
  ticking := fun prevStats hmaster => absurd hmaster (hticking prevStats)
  joining := hjoining
  reported := h.reported

theorem Guarded.idle (h : Guarded s) : Guarded {s with master := .idle} := by
  refine h.at nofun ?_ nofun
  rintro prevStats (hmaster | hmaster) <;> cases hmaster

/-- The thread is joined; nobody but the master is left. -/
theorem Guarded.joined (h : Guarded s) {next : AfterJoin}
    (hafter : afterJoin {s with thread := none} next = some t) : Guarded t := by
  have hnone : Guarded {s with thread := none, master := .idle} := by
    refine ⟨nofun, ?_, nofun, nofun, h.reported⟩
    rintro prevStats (hidle | hidle) <;> cases hidle
  rcases afterJoin_cases hafter with ⟨tracker, -, rfl⟩ | ⟨-, rfl⟩ |
      ⟨prevStats, error, -, herror, rfl⟩ | ⟨prevStats, tracker, -, hempty, htracker, rfl⟩ | ⟨-, rfl⟩
  · refine ⟨nofun, ?_, nofun, nofun, h.reported⟩
    rintro prevStats (hidle | hidle) <;> cases hidle
  · have hlaunched := hnone.launched rfl
    unfold Tracking.launched at hlaunched ⊢
    cases htracker : s.tracker <;> simp only [htracker] at hlaunched ⊢ <;> exact hlaunched
  · refine ⟨nofun, ?_, nofun, nofun, ?_⟩
    · rintro prevStats (hidle | hidle) <;> cases hidle
    · have hreported := h.reported
      have hstored : s.exception = some error := herror
      simpa [hstored] using hreported
  · refine ⟨nofun, ?_, fun _ _ => ⟨rfl, hempty⟩, nofun, h.reported⟩
    rintro prevStats (hidle | hidle) <;> cases hidle
  · exact hnone

theorem Guarded.goOn (h : Guarded s) {thread : TrackerThread} (pc : TrackerPc)
    (hthread : s.thread = some thread) (hruns : thread.pc ≠ .ended) :
    Guarded (s.goOn thread pc) where
  thread := by
    intro thread' hthread' _
    cases hthread'
    exact h.thread thread hthread hruns
  waits := h.waits
  ticking := by
    intro prevStats hmaster
    have hnone := (h.ticking prevStats hmaster).1
    rw [hthread] at hnone
    cases hnone
  joining := by
    intro next hmaster thread' hthread'
    cases hthread'
    exact h.joining next hmaster thread hthread
  reported := h.reported

theorem Guarded.step (h : Guarded s) (hstep : Tracking.step s a = some t) : Guarded t := by
  cases step_cases hstep with
  | asks next hidle hnext =>
      refine h.requestStop.at nofun ?_ ?_
      · rintro prevStats (hmaster | hmaster)
        · cases hmaster
        · cases hmaster
          exact absurd rfl (hnext prevStats)
      · intro _ _ thread hthread
        obtain ⟨old, -, rfl⟩ := requestStop_thread hthread
        rfl
  | @asksLast prevStats hmaster =>
      refine h.requestStop.at nofun (fun _ _ => h.waits prevStats (.inl hmaster)) ?_
      intro _ _ thread hthread
      obtain ⟨old, -, rfl⟩ := requestStop_thread hthread
      rfl
  | halts => exact h.requestStop
  | skips => exact h
  | launches hidle => exact h.launched hidle
  | copies hidle htracker => exact h.at nofun (fun _ _ => htracker) nofun
  | joins _ _ hafter => exact h.joined hafter
  | finalTickEnds => exact h.idle
  | moves hthread hmove =>
      refine h.goOn _ hthread fun hended => ?_
      rw [hended] at hmove
      cases hmove
  | @tickBegins thread stats tracker hthread hpc =>
      have hgo := h.goOn (.ticking stats) hthread (by rw [hpc]; nofun)
      exact ⟨hgo.thread, hgo.waits, hgo.ticking, hgo.joining, hgo.reported⟩
  | throws error hthread hpc =>
      have hgo := h.goOn .ended hthread (by rw [hpc]; nofun)
      refine ⟨hgo.thread, hgo.waits, ?_, hgo.joining, ?_⟩
      · intro prevStats hmaster
        have hnone := (h.ticking prevStats hmaster).1
        rw [hthread] at hnone
        cases hnone
      · have hold := (List.sublist_append_left _ _).trans h.reported
        exact hold.append (List.Sublist.refl [error])
  | updates | stopsPool => exact ⟨h.thread, h.waits, h.ticking, h.joining, h.reported⟩

theorem guarded_of_reachable (h : (system E).Reachable s) : Guarded s :=
  (system E).invariant guarded_init (fun _ _ _ _ hs hstep => hs.step hstep) h

/-- For every interleaving of the calls of the master with the thread: while the thread
runs, the tracker it was launched for is set, and the master is not in a tick; what
`wait_for_all_tasks` rethrows was thrown by a tick in the thread, each exception once and
in order, and it ticks itself only when none is stored. -/
theorem tracker_guarded (h : (system E).Reachable s) :
    (∀ thread, s.thread = some thread → thread.pc ≠ .ended →
      s.tracker = some thread.tracker ∧ ∀ prevStats, s.master ≠ .ticking prevStats) ∧
    (∀ prevStats, s.master = .ticking prevStats → s.thread = none ∧ s.exception = none) ∧
    (s.rethrown ++ s.exception.toList).Sublist s.thrown := by
  have hguarded := guarded_of_reachable h
  refine ⟨fun thread hthread hruns => ⟨hguarded.thread thread hthread hruns, ?_⟩,
    hguarded.ticking, hguarded.reported⟩
  intro prevStats hmaster
  have hnone := (hguarded.ticking prevStats hmaster).1
  rw [hthread] at hnone
  cases hnone

/-- The thread is in a tick, after another one has thrown and has been reported. -/
theorem tracker_guarded_tick :
    ∃ s, (system Nat).Reachable s ∧ s.thrown = [7] ∧ s.rethrown = [7] ∧
      ∃ thread, s.thread = some thread ∧ s.tracker = some thread.tracker := by
  obtain ⟨s, hrun, hs⟩ := (system Nat).exists_of_map
    [.setStatsTracker (some 3), .join, .start, .checkPool, .wake true, .checkStop, .tickBegins,
      .tickEnds (some 7), .waitForAllTasks, .requestStop, .join, .start, .checkPool, .wake true,
      .checkStop, .tickBegins]
    (b := ([7], [7], some ⟨3, .ticking .initial, false⟩))
    (fun s => (s.thrown, s.rethrown, s.thread)) rfl
  simp only [Prod.mk.injEq] at hs
  obtain ⟨hthrown, hrethrown, hthread⟩ := hs
  have hguarded := (tracker_guarded hrun.reachable).1 _ hthread nofun
  exact ⟨s, hrun.reachable, hthrown, hrethrown, _, hthread, hguarded.1⟩

end Safety

end Tracking

end YkUtil.Exec
