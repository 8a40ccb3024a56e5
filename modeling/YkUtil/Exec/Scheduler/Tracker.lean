import YkUtil.Exec.Scheduler.Stats
import YkUtil.Lib.Differences
import Mathlib.Algebra.BigOperators.Group.List.Lemmas
import Mathlib.Algebra.Order.Monoid.Prod
import Mathlib.Algebra.Order.Group.Int

/-!
`scheduler_stats_tracker`. A tick hands the difference to the statistics of the
tick before to `scheduler_delta_stats`, and calls back, when a counter or
`is_running` has changed. `reset_first_tick` does not forget the statistics of
the tick before.
-/

namespace YkUtil.Exec

open YkUtil.Lib

/-- A tick reads `is_running` too. -/
structure TrackedStats extends SchedulerStats where
  isRunning : Bool

namespace TrackedStats

def initial : TrackedStats := {SchedulerStats.ofInputs false 0 with isRunning := false}

def sameCount (stats other : TrackedStats) : Bool :=
  stats.producerInputConsumedAll == other.producerInputConsumedAll &&
  stats.producerInputConsumed == other.producerInputConsumed &&
  stats.producerInputProcessed == other.producerInputProcessed &&
  stats.producerOutput == other.producerOutput &&
  stats.consumerInputProcessed == other.consumerInputProcessed

def countUpdated (stats other : TrackedStats) : Bool :=
  !stats.sameCount other || stats.isRunning != other.isRunning

/-- The two counters whose differences are taken. -/
def counters (stats : TrackedStats) : Int × Int :=
  (stats.producerOutput, stats.consumerInputProcessed)

theorem counters_eq_of_not_updated {stats other : TrackedStats}
    (h : stats.countUpdated other = false) : stats.counters = other.counters := by
  simp only [countUpdated, sameCount, Bool.or_eq_false_iff, Bool.not_eq_false', Bool.and_eq_true,
    beq_iff_eq] at h
  obtain ⟨⟨⟨_, houtput⟩, hprocessed⟩, _⟩ := h
  rw [counters, counters, houtput, hprocessed]

end TrackedStats

/-- What `scheduler_delta_stats` is made from. -/
structure DeltaStats where
  delta : Int
  producerOutputDelta : Int
  consumerProcessDelta : Int

namespace DeltaStats

def between (delta : Int) (prevStats stats : TrackedStats) : DeltaStats :=
  {delta := delta
   producerOutputDelta := stats.producerOutput - prevStats.producerOutput
   consumerProcessDelta := stats.consumerInputProcessed - prevStats.consumerInputProcessed}

def counters (deltas : DeltaStats) : Int × Int :=
  (deltas.producerOutputDelta, deltas.consumerProcessDelta)

end DeltaStats

/-- `callback` says whether there is one. -/
structure StatsTracker where
  callback : Bool
  firstTick : Int
  tick : Int
  lastTick : Int
  stats : TrackedStats
  prevStats : TrackedStats
  deltaStats : DeltaStats

/-- A call of `tick`. The callback may throw, if it is called. -/
structure Tick where
  now : Int
  stats : TrackedStats
  throws : Bool

/-- A call of `reset_first_tick` and the ticks behind it. -/
structure TrackerRun where
  resetAt : Int
  ticks : List Tick

/-- The counters of a tick, and whether it comes to an end. -/
def Tick.observed (call : Tick) : (Int × Int) × Bool := (call.stats.counters, !call.throws)

def TrackerRun.observed (r : TrackerRun) : List ((Int × Int) × Bool) := r.ticks.map Tick.observed

/-- The counters never decrease within the run. -/
def TrackerRun.NeverDecreases (r : TrackerRun) : Prop :=
  (r.observed.map Prod.fst).Pairwise (· ≤ ·)

/-- The run's final counters, zero before the first tick. -/
def TrackerRun.finalCounters (r : TrackerRun) : Int × Int := Differences.final r.observed

namespace StatsTracker

def make (callback : Bool) : StatsTracker :=
  {callback := callback
   firstTick := 0
   tick := 0
   lastTick := 0
   stats := .initial
   prevStats := .initial
   deltaStats := {delta := 0, producerOutputDelta := 0, consumerProcessDelta := 0}}

def resetFirstTick (t : StatsTracker) (now : Int) : StatsTracker :=
  {t with
    firstTick := now
    deltaStats := {delta := 0, producerOutputDelta := 0, consumerProcessDelta := 0}}

/-- The tracker behind the call, and what the call handed to
`scheduler_delta_stats`. An exception of the callback leaves at once. -/
def doTick (t : StatsTracker) (call : Tick) : StatsTracker × Option DeltaStats :=
  let t := {t with tick := call.now, stats := call.stats}
  if t.callback && t.stats.countUpdated t.prevStats then
    let deltas := DeltaStats.between (t.tick - t.lastTick) t.prevStats t.stats
    let t := {t with deltaStats := deltas}
    if call.throws then (t, some deltas)
    else ({t with lastTick := t.tick, prevStats := t.stats}, some deltas)
  else ({t with lastTick := t.tick, prevStats := t.stats}, none)

def ticks (t : StatsTracker) : List Tick → StatsTracker × List DeltaStats
  | [] => (t, [])
  | call :: rest =>
      let answer := t.doTick call
      let behind := answer.1.ticks rest
      (behind.1, answer.2.toList ++ behind.2)

def run (t : StatsTracker) (r : TrackerRun) : StatsTracker × List DeltaStats :=
  (t.resetFirstTick r.resetAt).ticks r.ticks

def afterRuns (t : StatsTracker) (rs : List TrackerRun) : StatsTracker :=
  rs.foldl (fun t r => (t.run r).1) t

/-- What a run of ticks should hand over, from the state it starts in. -/
structure Telescopes (t : StatsTracker) (r : TrackerRun) : Prop where
  nonneg : ∀ deltas ∈ (t.run r).2, 0 ≤ deltas.counters
  sum_eq : ((t.run r).2.map DeltaStats.counters).sum = r.finalCounters

variable {t : StatsTracker}

@[simp] theorem resetFirstTick_prevStats (now : Int) :
    (t.resetFirstTick now).prevStats = t.prevStats := rfl

/-- What one tick hands over and remembers. -/
theorem doTick_cases (call : Tick) (hcallback : t.callback = true) :
    ((t.doTick call).2.map DeltaStats.counters = some (call.stats.counters - t.prevStats.counters) ∨
      (t.doTick call).2 = none ∧ call.stats.counters - t.prevStats.counters = 0) ∧
    (t.doTick call).1.prevStats.counters =
      Differences.next t.prevStats.counters call.observed ∧
    (t.doTick call).1.callback = true := by
  unfold doTick Differences.next Tick.observed
  dsimp only
  cases hupdated : call.stats.countUpdated t.prevStats with
  | true =>
      rw [hcallback, Bool.and_self, if_pos rfl]
      cases hthrows : call.throws with
      | true => exact ⟨.inl rfl, rfl, rfl⟩
      | false => exact ⟨.inl rfl, rfl, rfl⟩
  | false =>
      have hsame := TrackedStats.counters_eq_of_not_updated hupdated
      rw [Bool.and_false, if_neg Bool.false_ne_true]
      refine ⟨.inr ⟨rfl, sub_eq_zero.mpr hsame⟩, ?_, hcallback⟩
      split
      · rfl
      · exact hsame

theorem doTick_sum (call : Tick) (hcallback : t.callback = true) :
    ((t.doTick call).2.toList.map DeltaStats.counters).sum =
      call.stats.counters - t.prevStats.counters := by
  rcases (doTick_cases call hcallback).1 with hsome | ⟨hnone, hzero⟩
  · obtain ⟨deltas, hdeltas, heq⟩ := Option.map_eq_some_iff.mp hsome
    rw [hdeltas, ← heq]
    simp
  · rw [hnone, hzero]
    rfl

theorem doTick_nonneg_iff (call : Tick) (hcallback : t.callback = true) :
    (∀ deltas ∈ (t.doTick call).2.toList, 0 ≤ deltas.counters) ↔
      0 ≤ call.stats.counters - t.prevStats.counters := by
  rcases (doTick_cases call hcallback).1 with hsome | ⟨hnone, hzero⟩
  · obtain ⟨deltas, hdeltas, heq⟩ := Option.map_eq_some_iff.mp hsome
    rw [hdeltas, ← heq]
    simp
  · rw [hnone, hzero]
    simp

/-- The ticks hand over the differences to what is remembered, as far as they
are not zero. -/
theorem ticks_sum (calls : List Tick) (hcallback : t.callback = true) :
    ((t.ticks calls).2.map DeltaStats.counters).sum =
      (Differences.differences t.prevStats.counters (calls.map Tick.observed)).sum := by
  induction calls generalizing t with
  | nil => rfl
  | cons call rest ih =>
      obtain ⟨_, hnext, hcallback'⟩ := doTick_cases call hcallback
      rw [ticks, List.map_append, List.sum_append, doTick_sum call hcallback, ih hcallback', hnext]
      rfl

theorem ticks_nonneg_iff (calls : List Tick) (hcallback : t.callback = true) :
    (∀ deltas ∈ (t.ticks calls).2, 0 ≤ deltas.counters) ↔
      ∀ d ∈ Differences.differences t.prevStats.counters (calls.map Tick.observed), 0 ≤ d := by
  induction calls generalizing t with
  | nil => simp [ticks, Differences.differences]
  | cons call rest ih =>
      obtain ⟨_, hnext, hcallback'⟩ := doTick_cases call hcallback
      rw [ticks, List.forall_mem_append, doTick_nonneg_iff call hcallback, ih hcallback', hnext,
        List.map_cons, Differences.differences, List.forall_mem_cons]
      rfl

theorem ticks_prevStats (calls : List Tick) (hcallback : t.callback = true) :
    (t.ticks calls).1.prevStats.counters =
      Differences.remembered t.prevStats.counters (calls.map Tick.observed) ∧
    (t.ticks calls).1.callback = true := by
  induction calls generalizing t with
  | nil => exact ⟨rfl, hcallback⟩
  | cons call rest ih =>
      obtain ⟨_, hnext, hcallback'⟩ := doTick_cases call hcallback
      have hrest := ih hcallback'
      rw [hnext] at hrest
      exact hrest

/-- Without a callback nothing is handed over. -/
theorem ticks_of_no_callback (calls : List Tick) (hcallback : t.callback = false) :
    (t.ticks calls).2 = [] ∧ (t.ticks calls).1.callback = false := by
  induction calls generalizing t with
  | nil => exact ⟨rfl, hcallback⟩
  | cons call rest ih =>
      have hcall : (t.doTick call).2 = none ∧ (t.doTick call).1.callback = false := by
        simp [doTick, hcallback]
      obtain ⟨hrest, hcallback'⟩ := ih hcall.2
      exact ⟨by rw [ticks, hcall.1, hrest]; rfl, hcallback'⟩

/-- The counters that `prev_stats_` holds behind the runs: those of the last tick
that came to an end. -/
def carried (before : List TrackerRun) : Int × Int :=
  Differences.remembered 0 (before.flatMap TrackerRun.observed)

/-- A run with ticks starts from counters that are no greater than its first
ones, and that are made up for by what the run hands over twice. Without a
callback it must end at zero. -/
def Clean (callback : Bool) (before : List TrackerRun) (r : TrackerRun) : Prop :=
  match callback, r.observed with
  | _, [] => True
  | true, first :: rest =>
      carried before ≤ first.1 ∧
        Differences.repeated (carried before) (first :: rest) = carried before
  | false, _ :: _ => r.finalCounters = 0

theorem afterRuns_prevStats (hcallback : t.callback = true) (before : List TrackerRun) :
    (t.afterRuns before).prevStats.counters =
      Differences.remembered t.prevStats.counters (before.flatMap TrackerRun.observed) ∧
    (t.afterRuns before).callback = true := by
  induction before generalizing t with
  | nil => exact ⟨rfl, hcallback⟩
  | cons r rest ih =>
      obtain ⟨hprev, hcallback'⟩ :=
        ticks_prevStats (t := t.resetFirstTick r.resetAt) r.ticks hcallback
      have hrest := ih (t := (t.run r).1) hcallback'
      rw [List.flatMap_cons, Differences.remembered, List.foldl_append]
      rw [run, hprev] at hrest
      exact hrest

theorem afterRuns_of_no_callback (hcallback : t.callback = false) (before : List TrackerRun) :
    (t.afterRuns before).callback = false := by
  induction before generalizing t with
  | nil => exact hcallback
  | cons r rest ih =>
      exact ih (t := (t.run r).1)
        (ticks_of_no_callback (t := t.resetFirstTick r.resetAt) r.ticks hcallback).2

/-- What a run hands over, in terms of the counters it is compared with first. -/
theorem telescopes_iff_of_callback (hcallback : t.callback = true) {r : TrackerRun}
    {first : (Int × Int) × Bool} {rest : List ((Int × Int) × Bool)}
    (hobserved : r.observed = first :: rest) (hmono : r.NeverDecreases) :
    t.Telescopes r ↔ t.prevStats.counters ≤ first.1 ∧
      Differences.repeated t.prevStats.counters (first :: rest) = t.prevStats.counters := by
  have hcallback' : (t.resetFirstTick r.resetAt).callback = true := hcallback
  have hnonneg := ticks_nonneg_iff r.ticks hcallback'
  have hsum := ticks_sum r.ticks hcallback'
  rw [TrackerRun.NeverDecreases, hobserved] at hmono
  rw [resetFirstTick_prevStats, ← TrackerRun.observed, hobserved] at hnonneg hsum
  rw [Differences.differences_nonneg_iff _ _ _ hmono] at hnonneg
  rw [Differences.sum_differences, ← hobserved, ← TrackerRun.finalCounters] at hsum
  rw [← hobserved]
  constructor
  · intro htelescopes
    refine ⟨hnonneg.mp htelescopes.nonneg, ?_⟩
    have heq := hsum.symm.trans htelescopes.sum_eq
    rw [sub_add_eq_add_sub, sub_eq_iff_eq_add] at heq
    exact add_left_cancel heq
  · rintro ⟨hle, hrepeated⟩
    refine ⟨hnonneg.mpr hle, ?_⟩
    rw [run, hsum, hrepeated, sub_add_cancel]

theorem telescopes_of_no_ticks {r : TrackerRun} (hobserved : r.observed = []) :
    t.Telescopes r := by
  have hticks : r.ticks = [] := List.map_eq_nil_iff.mp hobserved
  refine ⟨?_, ?_⟩
  · rw [run, hticks]
    intro deltas hmem
    cases hmem
  · rw [run, hticks, TrackerRun.finalCounters, hobserved]
    rfl

theorem telescopes_iff_of_no_callback (hcallback : t.callback = false) (r : TrackerRun) :
    t.Telescopes r ↔ r.finalCounters = 0 := by
  have hnone : (t.run r).2 = [] :=
    (ticks_of_no_callback (t := t.resetFirstTick r.resetAt) r.ticks hcallback).1
  constructor
  · intro htelescopes
    rw [← htelescopes.sum_eq, hnone]
    rfl
  · intro hzero
    refine ⟨?_, ?_⟩
    · rw [hnone]
      intro deltas hmem
      cases hmem
    · rw [hnone, hzero]
      rfl

theorem telescopes_iff_clean (callback : Bool) (before : List TrackerRun) {r : TrackerRun}
    (hmono : r.NeverDecreases) :
    ((make callback).afterRuns before).Telescopes r ↔ Clean callback before r := by
  unfold Clean
  cases hobserved : r.observed with
  | nil => exact iff_of_true (telescopes_of_no_ticks hobserved) trivial
  | cons first rest =>
      cases callback with
      | false =>
          exact telescopes_iff_of_no_callback (afterRuns_of_no_callback rfl before) r
      | true =>
          obtain ⟨hprev, hcallback⟩ := afterRuns_prevStats (t := make true) rfl before
          rw [telescopes_iff_of_callback hcallback hobserved hmono, hprev]
          rfl

/-- For every history of runs whose counters never decrease, the differences
handed over in each run are not negative and add up to its final counters if and
only if every run starts clean. -/
theorem runs_telescope_iff (callback : Bool) (rs : List TrackerRun)
    (hmono : ∀ r ∈ rs, r.NeverDecreases) :
    (∀ before r after, rs = before ++ r :: after →
      ((make callback).afterRuns before).Telescopes r) ↔
    ∀ before r after, rs = before ++ r :: after → Clean callback before r := by
  have hrun (before : List TrackerRun) (r : TrackerRun) (after : List TrackerRun)
      (heq : rs = before ++ r :: after) :=
    telescopes_iff_clean callback before
      (hmono r (heq ▸ List.mem_append_right _ List.mem_cons_self))
  constructor
  · intro hall before r after heq
    exact (hrun before r after heq).mp (hall before r after heq)
  · intro hall before r after heq
    exact (hrun before r after heq).mpr (hall before r after heq)

/-- A tick of a run in which all that is put out is processed at once. -/
def countedTick (now : Int) (count : Nat) : Tick :=
  {now := now
   stats := {TrackedStats.initial with producerOutput := count, consumerInputProcessed := count}
   throws := false}

theorem runs_telescope_iff_first_run :
    ((make true).afterRuns []).Telescopes ⟨0, [countedTick 1 0, countedTick 2 5]⟩ := by
  refine (runs_telescope_iff true [⟨0, [countedTick 1 0, countedTick 2 5]⟩] ?_).mpr ?_
    [] _ [] rfl
  · intro r hr
    rw [List.mem_singleton.mp hr]
    exact List.pairwise_pair.mpr (by decide)
  · intro before r after heq
    cases before with
    | nil =>
        obtain ⟨rfl, _⟩ := List.cons.inj heq
        exact ⟨by decide, by decide⟩
    | cons first rest =>
        obtain ⟨_, heq⟩ := List.cons.inj heq
        simp at heq

/-- The second run starts from zero again, and its first difference is minus what
the first run counted. -/
theorem second_run_negative : ¬ ∀ (callback : Bool) (rs : List TrackerRun),
    (∀ r ∈ rs, r.NeverDecreases) → ∀ before r after, rs = before ++ r :: after →
      ((make callback).afterRuns before).Telescopes r := by
  intro hall
  have htelescopes := hall true
    [⟨0, [countedTick 1 0, countedTick 2 5]⟩, ⟨3, [countedTick 4 0, countedTick 5 7]⟩]
    (by
      intro r hr
      rcases List.mem_pair.mp hr with rfl | rfl <;> exact List.pairwise_pair.mpr (by decide))
    [⟨0, [countedTick 1 0, countedTick 2 5]⟩] _ [] rfl
  have hfirst := htelescopes.nonneg
    {delta := 2, producerOutputDelta := -5, consumerProcessDelta := -5} List.mem_cons_self
  exact absurd hfirst.1 (by decide)

end StatsTracker

end YkUtil.Exec
