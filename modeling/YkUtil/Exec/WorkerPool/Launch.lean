import YkUtil.Lib.TransitionSystem

/-!
`worker_pool::launch` against the threads it launches. A thread starts to run
when it is created, and its entry in `threads_` is appended afterwards with an
empty exception; the handler of a worker that throws uses the index that was read
before. Each step is atomic; the memory of the vector is not modelled.
-/

namespace YkUtil.Exec

open YkUtil.Lib

/-- What a launched thread has come to. `threw` is in the handler, before the
assignment to `threads_[id].exception`; `stored` has made it and `overran` has
made it past the end of `threads_`. -/
inductive ThreadStatus (E : Type*) where
  | running
  | returned
  | threw (e : E)
  | stored (e : E)
  | overran (e : E)
  | rethrown

/-- A thread with the index its function has captured. -/
structure LaunchedThread (E : Type*) where
  id : Nat
  status : ThreadStatus E

/-- Where the thread is that calls `launch`, `rethrow_exceptions` and
`halt_and_clear`. The latter two have joined the threads before `next`. -/
inductive LauncherPc where
  | idle
  | sized (id : Nat)
  | spawned (id : Nat)
  | rethrowing (next : Nat)
  | halting (next : Nat)
  deriving DecidableEq

/-- `exceptions` are those of the entries of `threads_`; `threads` are the
threads launched since the last clear, in order. -/
structure LaunchPool (E : Type*) where
  exceptions : List (Option E)
  threads : List (LaunchedThread E)
  launcher : LauncherPc
  stopRequested : Bool

inductive LaunchAction (E : Type*) where
  | readSize
  | spawn
  | append
  | returns (thread : Nat)
  | throws (thread : Nat) (e : E)
  | store (thread : Nat)
  | rethrowExceptions
  | haltAndClear
  | next

/-- Launched threads without an entry. -/
def LauncherPc.missing : LauncherPc → Nat
  | .spawned _ => 1
  | _ => 0

namespace ThreadStatus

variable {E : Type*}

/-- The thread can be joined. -/
def ended : ThreadStatus E → Bool
  | .running | .threw _ => false
  | _ => true

end ThreadStatus

namespace LaunchPool

variable {E : Type*}

def setStatus (s : LaunchPool E) (thread : Nat) (status : ThreadStatus E) : LaunchPool E :=
  {s with threads := s.threads.modify thread fun w => {w with status := status}}

/-- `threads_[id].exception = std::current_exception()`. -/
def store (s : LaunchPool E) (thread : Nat) (w : LaunchedThread E) (e : E) : LaunchPool E :=
  if w.id < s.exceptions.length then
    {s.setStatus thread (.stored e) with exceptions := s.exceptions.set w.id (some e)}
  else s.setStatus thread (.overran e)

/-- `rethrow_exceptions` at its next entry: the thread is joined and its
exception, if there is one, is cleared and leaves the call. -/
def rethrowNext (s : LaunchPool E) (next : Nat) : Option (LaunchPool E) :=
  match s.exceptions[next]?, s.threads[next]? with
  | none, _ => some {s with launcher := .idle}
  | some exception, some w =>
      if w.status.ended then
        match exception with
        | none => some {s with launcher := .rethrowing (next + 1)}
        | some _ => some {s.setStatus next .rethrown with
            exceptions := s.exceptions.set next none
            launcher := .idle}
      else none
  | some _, none => none

/-- `halt_and_clear` at its next entry: the thread is joined, and the list is
cleared in the end. -/
def haltNext (s : LaunchPool E) (next : Nat) : Option (LaunchPool E) :=
  match s.exceptions[next]?, s.threads[next]? with
  | none, _ => some {s with exceptions := [], threads := [], launcher := .idle}
  | some _, some w =>
      if w.status.ended then some {s with launcher := .halting (next + 1)} else none
  | some _, none => none

def step (s : LaunchPool E) : LaunchAction E → Option (LaunchPool E)
  | .readSize =>
      if s.launcher = .idle then some {s with launcher := .sized s.exceptions.length} else none
  | .spawn =>
      match s.launcher with
      | .sized id => some {s with
          threads := s.threads ++ [{id := id, status := .running}]
          launcher := .spawned id}
      | _ => none
  | .append =>
      match s.launcher with
      | .spawned _ => some {s with exceptions := s.exceptions ++ [none], launcher := .idle}
      | _ => none
  | .returns thread =>
      match s.threads[thread]? with
      | some ⟨_, .running⟩ => some (s.setStatus thread .returned)
      | _ => none
  | .throws thread e =>
      match s.threads[thread]? with
      | some ⟨_, .running⟩ => some {s.setStatus thread (.threw e) with stopRequested := true}
      | _ => none
  | .store thread =>
      match s.threads[thread]? with
      | some ⟨id, .threw e⟩ => some (s.store thread ⟨id, .threw e⟩ e)
      | _ => none
  | .rethrowExceptions =>
      if s.launcher = .idle then
        some (if s.stopRequested then {s with launcher := .rethrowing 0} else s)
      else none
  | .haltAndClear =>
      if s.launcher = .idle then some {s with launcher := .halting 0, stopRequested := true}
      else none
  | .next =>
      match s.launcher with
      | .rethrowing next => s.rethrowNext next
      | .halting next => s.haltNext next
      | _ => none

def system (E : Type*) : TransitionSystem (LaunchPool E) (LaunchAction E) :=
  {init := {exceptions := [], threads := [], launcher := .idle, stopRequested := false}
   step := step}

/-- What an entry of `threads_` holds for a thread. -/
def EntryFor (exceptions : List (Option E)) (id : Nat) : ThreadStatus E → Prop
  | .stored e => exceptions[id]? = some (some e)
  | _ => exceptions[id]? = none ∨ exceptions[id]? = some none

/-- Threads are named by their places, and the entry of the last one may still
be missing. -/
structure LaunchInv (s : LaunchPool E) : Prop where
  ids : ∀ (i : Nat) (w : LaunchedThread E), s.threads[i]? = some w → w.id = i
  lengths : s.threads.length = s.exceptions.length + s.launcher.missing
  pending : ∀ id, s.launcher = .sized id ∨ s.launcher = .spawned id → id = s.exceptions.length
  entries : ∀ (i : Nat) (w : LaunchedThread E), s.threads[i]? = some w →
    EntryFor s.exceptions i w.status

variable {s t : LaunchPool E} {a : LaunchAction E} {i : Nat} {w : LaunchedThread E}

theorem launchInv_init : LaunchInv (system E).init :=
  ⟨by simp [system], rfl, by simp [system], by simp [system]⟩

/-- A step of the launcher that leaves the lists alone. -/
theorem LaunchInv.moveLauncher (h : LaunchInv s) {launcher : LauncherPc} {stopRequested : Bool}
    (hmissing : launcher.missing = s.launcher.missing)
    (hpending : ∀ id, launcher = .sized id ∨ launcher = .spawned id → id = s.exceptions.length) :
    LaunchInv {s with launcher := launcher, stopRequested := stopRequested} :=
  ⟨h.ids, by rw [hmissing]; exact h.lengths, hpending, h.entries⟩

theorem setStatus_getElem? (hw : s.threads[i]? = some w) {status : ThreadStatus E} {j : Nat}
    {v : LaunchedThread E} (hv : (s.setStatus i status).threads[j]? = some v) :
    (j = i ∧ v = {w with status := status}) ∨ (j ≠ i ∧ s.threads[j]? = some v) := by
  simp only [LaunchPool.setStatus] at hv
  by_cases heq : i = j
  · subst heq
    rw [List.getElem?_modify_eq, hw] at hv
    exact .inl ⟨rfl, (Option.some.inj hv).symm⟩
  · rw [List.getElem?_modify_ne _ _ heq] at hv
    exact .inr ⟨Ne.symm heq, hv⟩

theorem spawn_getElem? {id j : Nat} {v : LaunchedThread E}
    (hv : (s.threads ++ [{id := id, status := .running}])[j]? = some v) :
    (j = s.threads.length ∧ v = {id := id, status := .running}) ∨ s.threads[j]? = some v := by
  rw [List.getElem?_append] at hv
  split at hv
  · exact .inr hv
  · obtain ⟨hlt, hv⟩ := List.getElem?_eq_some_iff.mp hv
    rw [List.length_singleton] at hlt
    have hj : j = s.threads.length := by omega
    simp only [hj, Nat.sub_self, List.getElem_cons_zero] at hv
    exact .inl ⟨hj, hv.symm⟩

/-- A thread comes to `status`, and at most its own entry changes. -/
theorem LaunchInv.setStatus (h : LaunchInv s) (hw : s.threads[i]? = some w)
    {status : ThreadStatus E} {exceptions : List (Option E)} {stopRequested : Bool}
    (hlength : exceptions.length = s.exceptions.length)
    (hother : ∀ j, j ≠ i → exceptions[j]? = s.exceptions[j]?)
    (hentry : EntryFor exceptions i status) :
    LaunchInv {s.setStatus i status with
      exceptions := exceptions, stopRequested := stopRequested} := by
  refine ⟨fun j v hv => ?_, ?_, ?_, fun j v hv => ?_⟩
  · obtain ⟨rfl, rfl⟩ | ⟨_, hold⟩ := setStatus_getElem? hw hv
    · exact h.ids j w hw
    · exact h.ids j v hold
  · simpa only [LaunchPool.setStatus, List.length_modify, hlength] using h.lengths
  · simpa only [LaunchPool.setStatus, hlength] using h.pending
  · obtain ⟨rfl, rfl⟩ | ⟨hne, hold⟩ := setStatus_getElem? hw hv
    · exact hentry
    · have hsame := h.entries j v hold
      cases hstatus : v.status <;> rw [hstatus] at hsame <;>
        simpa only [EntryFor, hother j hne] using hsame

/-- An entry that holds nothing, whatever the thread is at, unless it has
stored. -/
theorem LaunchInv.entry_empty (h : LaunchInv s) (hw : s.threads[i]? = some w)
    {status : ThreadStatus E} (hold : ∀ e, w.status ≠ .stored e) (hnew : ∀ e, status ≠ .stored e) :
    EntryFor s.exceptions i status := by
  have hentry := h.entries i w hw
  have hempty : s.exceptions[i]? = none ∨ s.exceptions[i]? = some none := by
    cases hstatus : w.status <;> rw [hstatus] at hentry
    case stored e => exact absurd hstatus (hold e)
    all_goals exact hentry
  cases status with
  | stored e => exact absurd rfl (hnew e)
  | _ => exact hempty

theorem LaunchInv.spawn (h : LaunchInv s) {id : Nat} (hlauncher : s.launcher = .sized id) :
    LaunchInv {s with
      threads := s.threads ++ [{id := id, status := .running}]
      launcher := .spawned id} := by
  have hid := h.pending id (.inl hlauncher)
  have hlengths : s.threads.length = s.exceptions.length := by
    simpa [hlauncher, LauncherPc.missing] using h.lengths
  refine ⟨fun j v hv => ?_, ?_, ?_, fun j v hv => ?_⟩
  · obtain ⟨rfl, rfl⟩ | hold := spawn_getElem? hv
    · exact hid.trans hlengths.symm
    · exact h.ids j v hold
  · simp [hlengths, LauncherPc.missing]
  · simpa using hid
  · obtain ⟨rfl, rfl⟩ | hold := spawn_getElem? hv
    · exact .inl (List.getElem?_eq_none (Nat.le_of_eq hlengths.symm))
    · exact h.entries j v hold

theorem LaunchInv.append (h : LaunchInv s) {id : Nat} (hlauncher : s.launcher = .spawned id) :
    LaunchInv {s with exceptions := s.exceptions ++ [none], launcher := .idle} := by
  have hlengths := h.lengths
  rw [hlauncher] at hlengths
  refine ⟨h.ids, ?_, by simp, fun j v hv => ?_⟩
  · simpa [LauncherPc.missing] using hlengths
  · have hentry := h.entries j v hv
    have hempty (hnone : s.exceptions[j]? = none ∨ s.exceptions[j]? = some none) :
        (s.exceptions ++ [none])[j]? = none ∨ (s.exceptions ++ [none])[j]? = some none := by
      rw [List.getElem?_append]
      split
      · exact hnone
      · cases j - s.exceptions.length <;> simp
    cases hstatus : v.status <;> rw [hstatus] at hentry
    case stored e =>
      have hlt := (List.getElem?_eq_some_iff.mp hentry).1
      simp only [EntryFor, List.getElem?_append_left hlt]
      exact hentry
    all_goals exact hempty hentry

theorem LaunchInv.store (h : LaunchInv s) {e : E} (hw : s.threads[i]? = some w)
    (hstatus : w.status = .threw e) : LaunchInv (s.store i w e) := by
  have hid := h.ids i w hw
  unfold LaunchPool.store
  split
  · rename_i hlt
    rw [hid] at hlt ⊢
    refine h.setStatus hw (List.length_set ..) (fun j hne => List.getElem?_set_ne (Ne.symm hne)) ?_
    simp [EntryFor, hlt]
  · exact h.setStatus hw rfl (fun _ _ => rfl)
      (h.entry_empty hw (by simp [hstatus]) (by simp))

/-- The ways a step changes the pool. -/
inductive Steps (s : LaunchPool E) : LaunchAction E → LaunchPool E → Prop where
  | moves {a : LaunchAction E} {launcher : LauncherPc} {stopRequested : Bool} :
      launcher.missing = s.launcher.missing →
      (∀ id, launcher = .sized id ∨ launcher = .spawned id → id = s.exceptions.length) →
      Steps s a {s with launcher := launcher, stopRequested := stopRequested}
  | spawns {id : Nat} : s.launcher = .sized id →
      Steps s .spawn {s with
        threads := s.threads ++ [{id := id, status := .running}]
        launcher := .spawned id}
  | appends {id : Nat} : s.launcher = .spawned id →
      Steps s .append {s with exceptions := s.exceptions ++ [none], launcher := .idle}
  | leaves {a : LaunchAction E} {thread id : Nat} {status : ThreadStatus E}
      {stopRequested : Bool} : s.threads[thread]? = some ⟨id, .running⟩ →
      (∀ e, status ≠ .stored e) → (∀ e, status ≠ .overran e) →
      Steps s a {s.setStatus thread status with stopRequested := stopRequested}
  | stores {thread id : Nat} {e : E} : s.threads[thread]? = some ⟨id, .threw e⟩ →
      Steps s (.store thread) (s.store thread ⟨id, .threw e⟩ e)
  | rethrows {next : Nat} {e : E} {w : LaunchedThread E} : s.launcher = .rethrowing next →
      s.exceptions[next]? = some (some e) → s.threads[next]? = some w →
      Steps s .next {s.setStatus next .rethrown with
        exceptions := s.exceptions.set next none
        launcher := .idle}
  | clears : Steps s .next {s with exceptions := [], threads := [], launcher := .idle}

theorem rethrowNext_cases {next : Nat} (hlauncher : s.launcher = .rethrowing next)
    (hstep : s.rethrowNext next = some t) : Steps s .next t := by
  have hmissing : s.launcher.missing = 0 := by simp [hlauncher, LauncherPc.missing]
  unfold LaunchPool.rethrowNext at hstep
  split at hstep
  · cases hstep
    exact .moves hmissing.symm (by simp)
  · rename_i exception w hexception hw
    split at hstep
    · split at hstep
      · cases hstep
        exact .moves hmissing.symm (by simp)
      · cases hstep
        exact .rethrows hlauncher hexception hw
    · cases hstep
  · cases hstep

theorem haltNext_cases {next : Nat} (hlauncher : s.launcher = .halting next)
    (hstep : s.haltNext next = some t) : Steps s .next t := by
  have hmissing : s.launcher.missing = 0 := by simp [hlauncher, LauncherPc.missing]
  unfold LaunchPool.haltNext at hstep
  split at hstep
  · cases hstep
    exact .clears
  · split at hstep <;> cases hstep
    exact .moves hmissing.symm (by simp)
  · cases hstep

theorem step_cases (hstep : s.step a = some t) : Steps s a t := by
  cases a with
  | readSize =>
      simp only [LaunchPool.step, Option.ite_none_right_eq_some, Option.some.injEq] at hstep
      obtain ⟨hidle, rfl⟩ := hstep
      exact .moves (by simp [hidle, LauncherPc.missing]) (by simp)
  | spawn =>
      simp only [LaunchPool.step] at hstep
      split at hstep <;> cases hstep
      exact .spawns (by assumption)
  | append =>
      simp only [LaunchPool.step] at hstep
      split at hstep <;> cases hstep
      exact .appends (by assumption)
  | returns thread =>
      simp only [LaunchPool.step] at hstep
      split at hstep <;> cases hstep
      rename_i hw
      exact .leaves hw (by simp) (by simp)
  | throws thread e =>
      simp only [LaunchPool.step] at hstep
      split at hstep <;> cases hstep
      rename_i hw
      exact .leaves hw (by simp) (by simp)
  | store thread =>
      simp only [LaunchPool.step] at hstep
      split at hstep <;> cases hstep
      rename_i hw
      exact .stores hw
  | rethrowExceptions =>
      simp only [LaunchPool.step, Option.ite_none_right_eq_some, Option.some.injEq] at hstep
      obtain ⟨hidle, rfl⟩ := hstep
      split
      · exact .moves (by simp [hidle, LauncherPc.missing]) (by simp)
      · exact .moves rfl (by simp [hidle])
  | haltAndClear =>
      simp only [LaunchPool.step, Option.ite_none_right_eq_some, Option.some.injEq] at hstep
      obtain ⟨hidle, rfl⟩ := hstep
      exact .moves (by simp [hidle, LauncherPc.missing]) (by simp)
  | next =>
      simp only [LaunchPool.step] at hstep
      split at hstep
      · exact rethrowNext_cases (by assumption) hstep
      · exact haltNext_cases (by assumption) hstep
      · cases hstep

theorem LaunchInv.rethrow (h : LaunchInv s) {next : Nat} {e : E}
    (hlauncher : s.launcher = .rethrowing next) (hexception : s.exceptions[next]? = some (some e))
    (hw : s.threads[next]? = some w) :
    LaunchInv {s.setStatus next .rethrown with
      exceptions := s.exceptions.set next none
      launcher := .idle} := by
  have hlt := (List.getElem?_eq_some_iff.mp hexception).1
  have hset : LaunchInv {s.setStatus next .rethrown with
      exceptions := s.exceptions.set next none, stopRequested := s.stopRequested} :=
    h.setStatus hw (List.length_set ..) (fun j hne => List.getElem?_set_ne (Ne.symm hne))
      (by simp [EntryFor, hlt])
  apply hset.moveLauncher
  · change LauncherPc.idle.missing = s.launcher.missing
    rw [hlauncher]
    rfl
  · simp

theorem LaunchInv.step (h : LaunchInv s) (hstep : s.step a = some t) : LaunchInv t := by
  cases step_cases hstep with
  | moves hmissing hpending => exact h.moveLauncher hmissing hpending
  | spawns hlauncher => exact h.spawn hlauncher
  | appends hlauncher => exact h.append hlauncher
  | leaves hw hstored _ =>
      exact h.setStatus hw rfl (fun _ _ => rfl) (h.entry_empty hw (by simp) hstored)
  | stores hw => exact h.store hw rfl
  | rethrows hlauncher hexception hw => exact h.rethrow hlauncher hexception hw
  | clears => exact ⟨by simp, rfl, by simp, by simp⟩

theorem launchInv_of_reachable (h : (system E).Reachable s) : LaunchInv s :=
  (system E).invariant launchInv_init (fun _ _ _ _ hs hstep => hs.step hstep) h

/-- The handler's index is in range when its own entry has been appended. -/
theorem LaunchInv.index_iff (h : LaunchInv s) (hw : s.threads[i]? = some w) :
    w.id < s.exceptions.length ↔ s.launcher ≠ .spawned w.id := by
  have hid := h.ids i w hw
  have hlengths := h.lengths
  have hlt := (List.getElem?_eq_some_iff.mp hw).1
  constructor
  · intro hrange hspawned
    have := h.pending w.id (.inr hspawned)
    omega
  · intro hother
    by_contra hrange
    cases hlauncher : s.launcher with
    | spawned id =>
        have hpending := h.pending id (.inr hlauncher)
        rw [hlauncher, LauncherPc.missing] at hlengths
        refine hother ?_
        rw [hlauncher]
        congr 1
        omega
    | _ =>
        simp only [hlauncher, LauncherPc.missing] at hlengths
        omega

/-- A handler runs when its entry has been appended. -/
def AfterAppend (s : LaunchPool E) : LaunchAction E → Prop
  | .store thread => ∀ w ∈ s.threads[thread]?, s.launcher ≠ .spawned w.id
  | _ => True

/-- A thread that has overrun was in its handler while its entry was missing. -/
theorem LaunchInv.overran_step (h : LaunchInv s) (hstep : s.step a = some t) {id : Nat} {e : E}
    (hv : t.threads[i]? = some ⟨id, .overran e⟩) :
    s.threads[i]? = some ⟨id, .overran e⟩ ∨
      a = .store i ∧ s.threads[i]? = some ⟨id, .threw e⟩ ∧ s.launcher = .spawned id := by
  have hstatus {thread : Nat} {w : LaunchedThread E} {status : ThreadStatus E}
      (hw : s.threads[thread]? = some w) (hne : status ≠ .overran e)
      (hv : (s.setStatus thread status).threads[i]? = some ⟨id, .overran e⟩) :
      s.threads[i]? = some ⟨id, .overran e⟩ := by
    obtain ⟨_, heq⟩ | ⟨_, hold⟩ := setStatus_getElem? hw hv
    · exact absurd (congrArg LaunchedThread.status heq).symm hne
    · exact hold
  cases step_cases hstep with
  | moves => exact .inl hv
  | spawns =>
      obtain ⟨_, heq⟩ | hold := spawn_getElem? hv
      · cases heq
      · exact .inl hold
  | appends => exact .inl hv
  | leaves hw _ hne => exact .inl (hstatus hw (hne e) hv)
  | stores hw =>
      unfold LaunchPool.store at hv
      split at hv
      · exact .inl (hstatus hw (by simp) hv)
      · rename_i hrange
        obtain ⟨rfl, heq⟩ | ⟨_, hold⟩ := setStatus_getElem? hw hv
        · cases heq
          have hspawned := mt (h.index_iff hw).mpr hrange
          exact .inr ⟨rfl, hw, not_not.mp hspawned⟩
        · exact .inl hold
  | rethrows _ _ hw => exact .inl (hstatus hw (by simp) hv)
  | clears => simp at hv

theorem not_overran_of_run {acts : List (LaunchAction E)}
    (h : (system E).GoodRun AfterAppend acts s) {id : Nat} {e : E} :
    s.threads[i]? ≠ some ⟨id, .overran e⟩ := by
  induction h with
  | nil => simp [system]
  | snoc hprev hgood hstep ih =>
      intro hv
      have hinv := launchInv_of_reachable hprev.reaches.reachable
      obtain hold | ⟨rfl, hw, hspawned⟩ := hinv.overran_step hstep hv
      · exact ih hold
      · exact hgood _ hw hspawned

/-- For any interleaving of the launching thread with any number of workers: a
handler's index is below `threads_.size()` if and only if its own entry has been
appended; an exception stored in range stays until it is rethrown, and one stored
out of range is never there. In a run whose handlers all run after the append of
their entry, every exception is therefore stored and kept. -/
theorem exceptions_kept_iff_appended (E : Type*) :
    (∀ s : LaunchPool E, (system E).Reachable s →
      ∀ (i : Nat) (w : LaunchedThread E) (e : E), s.threads[i]? = some w →
        (w.status = .threw e → (w.id < s.exceptions.length ↔ s.launcher ≠ .spawned w.id)) ∧
        (w.status = .stored e → s.exceptions[w.id]? = some (some e)) ∧
        (w.status = .overran e → s.exceptions[w.id]? ≠ some (some e))) ∧
    ∀ acts (s : LaunchPool E), (system E).GoodRun AfterAppend acts s →
      ∀ (i : Nat) (w : LaunchedThread E) (e : E), s.threads[i]? = some w →
        w.status ≠ .overran e := by
  constructor
  · intro s hs i w e hw
    have hinv := launchInv_of_reachable hs
    have hentry := hinv.entries i w hw
    rw [hinv.ids i w hw] at *
    refine ⟨fun _ => ?_, fun hstored => ?_, fun hoverran => ?_⟩
    · have hindex := hinv.index_iff hw
      rwa [hinv.ids i w hw] at hindex
    · rw [hstored] at hentry
      exact hentry
    · rw [hoverran] at hentry
      rcases hentry with hnone | hnone <;> simp [hnone]
  · intro acts s hrun i w e hw hoverran
    obtain ⟨id, status⟩ := w
    subst hoverran
    exact not_overran_of_run hrun hw

/-- A worker throws after its entry has been appended; the exception is there
when the pool is halted. -/
theorem exceptions_kept_iff_appended_one_worker :
    ∃ s : LaunchPool String, (system String).Reachable s ∧ s.launcher = .halting 0 ∧
      s.exceptions[0]? = some (some "e") := by
  obtain ⟨s, hrun, hs⟩ := (system String).exists_of_map
    [.readSize, .spawn, .append, .throws 0 "e", .store 0, .haltAndClear]
    (b := (.halting 0, some ⟨0, .stored "e"⟩)) (fun s => (s.launcher, s.threads[0]?)) rfl
  simp only [Prod.mk.injEq] at hs
  obtain ⟨hlauncher, hw⟩ := hs
  exact ⟨s, hrun.reachable, hlauncher,
    ((exceptions_kept_iff_appended String).1 s hrun.reachable 0 _ "e" hw).2.1 rfl⟩

/-- A worker throws at once: its handler uses index 0 of an empty `threads_`,
the entry is appended empty, and `rethrow_exceptions` returns. -/
theorem early_exception_lost :
    ∃ s t : LaunchPool String, ∃ acts, (system String).Reachable s ∧
      s.threads[0]? = some ⟨0, .threw "e"⟩ ∧ s.exceptions.length = 0 ∧
      (system String).exec s acts = some t ∧ t.threads[0]? = some ⟨0, .overran "e"⟩ ∧
      t.exceptions = [none] ∧ t.launcher = .idle := by
  obtain ⟨s, hrun, hs⟩ := (system String).exists_of_map
    [.readSize, .spawn, .throws 0 "e"]
    (b := (some ⟨0, .threw "e"⟩, 0, some (some ⟨0, .overran "e"⟩, [none], .idle)))
    (fun s => (s.threads[0]?, s.exceptions.length,
      ((system String).exec s [.store 0, .append, .rethrowExceptions, .next, .next]).map fun t =>
        (t.threads[0]?, t.exceptions, t.launcher))) rfl
  simp only [Prod.mk.injEq, Option.map_eq_some_iff] at hs
  obtain ⟨hw, hlength, t, hexec, hoverran, hexceptions, hidle⟩ := hs
  exact ⟨s, t, _, hrun.reachable, hw, hlength, hexec, hoverran, hexceptions, hidle⟩

end LaunchPool

end YkUtil.Exec
