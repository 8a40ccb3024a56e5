import Mathlib.Data.List.Basic
import YkUtil.Exec.WorkerPool.Launch

/-!
The two loops of `worker_pool` that hand out the exceptions of its workers.
`rethrow_exceptions` stops at the first entry that has one and clears it;
`halt_and_clear_impl` goes through all entries and throws in the end. The workers
have ended, so that all a `join` does is to leave the thread not joinable.
-/

namespace YkUtil.Exec

open YkUtil.Lib

/-- `ThreadData`. -/
structure ThreadData (E : Type*) where
  joinable : Bool
  exception : Option E

/-- A `worker_pool` whose workers have ended. -/
structure EndedPool (E : Type*) where
  threads : List (ThreadData E)
  stopRequested : Bool
  rethrowExceptionsOnExit : Bool

namespace EndedPool

variable {E : Type*}

/-- The body of the loop joins the thread if it can. -/
def joined (w : ThreadData E) : ThreadData E :=
  if w.joinable then {w with joinable := false} else w

/-- The loop of `rethrow_exceptions`, with the exception that leaves it. -/
def rethrowLoop : List (ThreadData E) → List (ThreadData E) × Option E
  | [] => ([], none)
  | w :: rest =>
      match (joined w).exception with
      | some e => ({joined w with exception := none} :: rest, some e)
      | none =>
          let (rest', thrown) := rethrowLoop rest
          (joined w :: rest', thrown)

/-- `rethrow_exceptions`. -/
def rethrowExceptions (p : EndedPool E) : EndedPool E × Option E :=
  if p.stopRequested then
    let (threads, thrown) := rethrowLoop p.threads
    ({p with threads := threads}, thrown)
  else (p, none)

/-- The loop of `halt_and_clear_impl`, with what it leaves in the variable that
was `firstException` before. -/
def haltLoop (isExiting rethrowOnExit : Bool) (firstException : Option E) :
    List (ThreadData E) → Option E
  | [] => firstException
  | w :: rest =>
      if w.joinable then
        if isExiting && (rethrowOnExit && w.exception.isSome) then
          haltLoop isExiting rethrowOnExit w.exception rest
        else haltLoop isExiting rethrowOnExit firstException rest
      else haltLoop isExiting rethrowOnExit firstException rest

/-- `halt_and_clear_impl<IsExiting>`, with the exception that leaves it. -/
def haltAndClearImpl (isExiting : Bool) (p : EndedPool E) : EndedPool E × Option E :=
  let firstException := haltLoop isExiting p.rethrowExceptionsOnExit none p.threads
  ({p with threads := [], stopRequested := true}, if isExiting then firstException else none)

/-- The exceptions in the entries, in launch order. -/
def stored (threads : List (ThreadData E)) : List E := threads.filterMap ThreadData.exception

@[simp] theorem joined_exception (w : ThreadData E) : (joined w).exception = w.exception := by
  unfold joined
  split <;> rfl

theorem stored_cons (w : ThreadData E) (rest : List (ThreadData E)) :
    stored (w :: rest) = w.exception.toList ++ stored rest := by
  cases h : w.exception <;> simp [stored, h]

/-! ## Calls of `rethrow_exceptions` -/

/-- One call takes the first stored exception. -/
theorem rethrowLoop_stored (threads : List (ThreadData E)) :
    (rethrowLoop threads).2 = (stored threads).head? ∧
      stored (rethrowLoop threads).1 = (stored threads).tail := by
  induction threads with
  | nil => exact ⟨rfl, rfl⟩
  | cons w rest ih =>
      simp only [rethrowLoop, joined_exception]
      cases h : w.exception with
      | some e => simp [stored_cons, h]
      | none => simpa [stored_cons, h] using ih

theorem rethrowExceptions_stored {p : EndedPool E} (hstop : p.stopRequested = true) :
    p.rethrowExceptions.2 = (stored p.threads).head? ∧
      stored p.rethrowExceptions.1.threads = (stored p.threads).tail ∧
      p.rethrowExceptions.1.stopRequested = true := by
  obtain ⟨hthrown, hrest⟩ := rethrowLoop_stored p.threads
  rw [rethrowExceptions, if_pos hstop]
  exact ⟨hthrown, hrest, hstop⟩

theorem stored_length_lt {p p' : EndedPool E} {e : E} (h : p.rethrowExceptions = (p', some e)) :
    (stored p'.threads).length < (stored p.threads).length := by
  by_cases hstop : p.stopRequested = true
  · obtain ⟨hthrown, hrest, -⟩ := rethrowExceptions_stored hstop
    rw [h] at hthrown hrest
    cases hstored : stored p.threads with
    | nil => rw [hstored] at hthrown; cases hthrown
    | cons first rest => simp [hrest, hstored]
  · rw [rethrowExceptions, if_neg hstop] at h
    cases h

/-- Calls of `rethrow_exceptions` until one returns, with what the others have
thrown. -/
def rethrowAll (p : EndedPool E) : List E × EndedPool E :=
  match _h : p.rethrowExceptions with
  | (p', none) => ([], p')
  | (p', some e) => (e :: (rethrowAll p').1, (rethrowAll p').2)
termination_by (stored p.threads).length
decreasing_by all_goals exact stored_length_lt _h

/-- Every stored exception is delivered once, in launch order, and none is left. -/
def Delivers (p : EndedPool E) : Prop :=
  (rethrowAll p).1 = stored p.threads ∧ stored (rethrowAll p).2.threads = []

theorem delivers_of_stopped {p : EndedPool E} (hstop : p.stopRequested = true) : Delivers p := by
  unfold Delivers
  fun_induction rethrowAll p with
  | case1 p p' h =>
      obtain ⟨hthrown, hrest, -⟩ := rethrowExceptions_stored hstop
      rw [h] at hthrown hrest
      have hempty : stored p.threads = [] := List.head?_eq_none_iff.mp hthrown.symm
      exact ⟨hempty.symm, by rw [hrest, hempty, List.tail_nil]⟩
  | case2 p p' e h ih =>
      obtain ⟨hthrown, hrest, hstop'⟩ := rethrowExceptions_stored hstop
      rw [h] at hthrown hrest hstop'
      obtain ⟨hdelivered, hnone⟩ := ih hstop'
      refine ⟨?_, hnone⟩
      rw [hdelivered, hrest]
      exact List.cons_head?_tail hthrown.symm

/-- The entry of a thread that nobody has joined. -/
def entry (exception : Option E) : ThreadData E := {joinable := true, exception := exception}

/-- Every worker has ended, with the given outcomes in launch order. -/
def ofOutcomes (outcomes : List (Option E)) : EndedPool E :=
  {threads := outcomes.map entry
   stopRequested := true
   rethrowExceptionsOnExit := true}

/-- The steps that a call takes when all workers have ended leave in the entries
what the loop does. -/
theorem rethrowLoop_exec {s : LaunchPool E} {seen rest : List (Option E)}
    (hlauncher : s.launcher = .rethrowing seen.length) (hexceptions : s.exceptions = seen ++ rest)
    (hlength : s.threads.length = s.exceptions.length)
    (hended : ∀ w ∈ s.threads, w.status.ended = true) :
    ∃ n t, (LaunchPool.system E).exec s (List.replicate n .next) = some t ∧ t.launcher = .idle ∧
      t.exceptions = seen ++ (rethrowLoop (rest.map entry)).1.map ThreadData.exception := by
  have hstep : (LaunchPool.system E).step s .next = s.rethrowNext seen.length := by
    simp [LaunchPool.system, LaunchPool.step, hlauncher]
  induction rest generalizing s seen with
  | nil =>
      refine ⟨1, {s with launcher := .idle}, ?_, rfl, hexceptions⟩
      have hnone : s.exceptions[seen.length]? = none := by simp [hexceptions]
      simp [TransitionSystem.exec, hstep, LaunchPool.rethrowNext, hnone]
  | cons exception rest ih =>
      have hat : s.exceptions[seen.length]? = some exception := by simp [hexceptions]
      have hlt : seen.length < s.threads.length := by simp [hlength, hexceptions]
      have hw : s.threads[seen.length]? = some s.threads[seen.length] :=
        List.getElem?_eq_getElem hlt
      have hjoined := hended _ (List.getElem_mem hlt)
      cases exception with
      | none =>
          let s' : LaunchPool E := {s with launcher := .rethrowing (seen.length + 1)}
          have hnext : (LaunchPool.system E).step s .next = some s' := by
            rw [hstep]
            simp [LaunchPool.rethrowNext, hat, hw, hjoined, s']
          have hlauncher' : s'.launcher = .rethrowing (seen ++ [none]).length := by simp [s']
          obtain ⟨n, t, hrun, hidle, ht⟩ := ih hlauncher'
            (by simp [s', hexceptions]) hlength hended
            (by simp [LaunchPool.system, LaunchPool.step, hlauncher'])
          refine ⟨n + 1, t, ?_, hidle, ?_⟩
          · rw [List.replicate_succ, TransitionSystem.exec, hnext]
            exact hrun
          · simp [ht, rethrowLoop, entry]
      | some e =>
          refine ⟨1, {s.setStatus seen.length .rethrown with
            exceptions := s.exceptions.set seen.length none
            launcher := .idle}, ?_, rfl, ?_⟩
          · simp [TransitionSystem.exec, hstep, LaunchPool.rethrowNext, hat, hw, hjoined]
          · have hkept : rest.map (ThreadData.exception ∘ entry) = rest := List.map_id rest
            simp [hexceptions, rethrowLoop, entry, joined, hkept]

/-- A call of `rethrow_exceptions` after all workers have ended is a run of the
pool and its threads. -/
theorem rethrowExceptions_exec {s : LaunchPool E} (hs : (LaunchPool.system E).Reachable s)
    (hidle : s.launcher = .idle) (hstop : s.stopRequested = true)
    (hended : ∀ w ∈ s.threads, w.status.ended = true) :
    ∃ n t, (LaunchPool.system E).exec s (.rethrowExceptions :: List.replicate n .next) = some t ∧
      t.launcher = .idle ∧ t.exceptions =
        (ofOutcomes s.exceptions).rethrowExceptions.1.threads.map ThreadData.exception := by
  have hlength : s.threads.length = s.exceptions.length := by
    simpa [hidle, LauncherPc.missing] using (LaunchPool.launchInv_of_reachable hs).lengths
  let s' : LaunchPool E := {s with launcher := .rethrowing 0}
  have hcall : (LaunchPool.system E).step s .rethrowExceptions = some s' := by
    simp [LaunchPool.system, LaunchPool.step, hidle, hstop, s']
  have hlauncher : s'.launcher = .rethrowing ([] : List (Option E)).length := rfl
  obtain ⟨n, t, hrun, hreturned, ht⟩ :=
    rethrowLoop_exec hlauncher (List.nil_append _).symm hlength hended
  refine ⟨n, t, ?_, hreturned, ht⟩
  rw [TransitionSystem.exec, hcall]
  exact hrun

/-! ## The exception of the exit -/

/-- The loop keeps the last stored exception. -/
theorem haltLoop_eq {threads : List (ThreadData E)} (hjoinable : ∀ w ∈ threads, w.joinable = true)
    (firstException : Option E) :
    haltLoop true true firstException threads = (stored threads).getLast?.or firstException := by
  induction threads generalizing firstException with
  | nil => rfl
  | cons w rest ih =>
      have hrest := ih fun v hv => hjoinable v (List.mem_cons_of_mem _ hv)
      rw [haltLoop, if_pos (hjoinable w List.mem_cons_self), stored_cons]
      cases h : w.exception with
      | none => simpa using hrest firstException
      | some e =>
          rw [Option.toList_some, List.singleton_append, List.getLast?_cons]
          simpa using hrest (some e)

/-- The exit reports what the first call of `rethrow_exceptions` would have
thrown, the first stored exception. -/
def ReportsFirst (p : EndedPool E) : Prop :=
  (p.haltAndClearImpl true).2 = p.rethrowExceptions.2 ∧
    (p.haltAndClearImpl true).2 = (stored p.threads).head?

theorem haltAndClearImpl_reports {p : EndedPool E} (hexit : p.rethrowExceptionsOnExit = true)
    (hjoinable : ∀ w ∈ p.threads, w.joinable = true) :
    (p.haltAndClearImpl true).2 = (stored p.threads).getLast? := by
  simp only [haltAndClearImpl, hexit, haltLoop_eq hjoinable, Option.or_none, if_true]

theorem getLast?_eq_head?_iff {l : List E} (hl : l.Nodup) :
    l.getLast? = l.head? ↔ l.length ≤ 1 := by
  cases l with
  | nil => simp
  | cons a rest =>
      cases rest with
      | nil => simp
      | cons b rest =>
          refine iff_of_false (fun h => ?_) (by simp)
          rw [List.getLast?_cons_cons, List.head?_cons] at h
          exact (List.nodup_cons.mp hl).1 (List.mem_of_getLast? h)

/-- For every stopped pool whose threads nobody has joined, and that rethrows on
exit: the repeated calls deliver all stored exceptions in launch order, and the
exit reports the first one exactly if the last one is the same. For exceptions
that are all different this is to say that at most one worker has failed. -/
theorem exit_reports_first_iff {p : EndedPool E} (hstop : p.stopRequested = true)
    (hexit : p.rethrowExceptionsOnExit = true) (hjoinable : ∀ w ∈ p.threads, w.joinable = true) :
    (Delivers p ∧ ReportsFirst p ↔ (stored p.threads).getLast? = (stored p.threads).head?) ∧
      ((stored p.threads).Nodup →
        (Delivers p ∧ ReportsFirst p ↔ (stored p.threads).length ≤ 1)) := by
  have hreports : Delivers p ∧ ReportsFirst p ↔
      (stored p.threads).getLast? = (stored p.threads).head? := by
    rw [and_iff_right (delivers_of_stopped hstop), ReportsFirst,
      haltAndClearImpl_reports hexit hjoinable, (rethrowExceptions_stored hstop).1, and_self]
  exact ⟨hreports, fun hdistinct => hreports.trans (getLast?_eq_head?_iff hdistinct)⟩

/-- Three workers of which the second has failed. -/
theorem exit_reports_first_iff_one :
    Delivers (ofOutcomes [none, some "e", none]) ∧
      ReportsFirst (ofOutcomes [none, some "e", none]) :=
  (exit_reports_first_iff (p := ofOutcomes [none, some "e", none]) rfl rfl
    (by simp [ofOutcomes, entry])).1.mpr rfl

/-- Two workers have failed: `rethrow_exceptions` throws the exception of the
first one, the exit that of the second. -/
theorem exit_reports_last :
    (ofOutcomes [some "first", some "second"]).rethrowExceptions.2 = some "first" ∧
      ((ofOutcomes [some "first", some "second"]).haltAndClearImpl true).2 = some "second" ∧
      ¬ ReportsFirst (ofOutcomes [some "first", some "second"]) := by
  refine ⟨rfl, rfl, fun h => ?_⟩
  exact absurd h.1 (by decide)

end EndedPool

end YkUtil.Exec
