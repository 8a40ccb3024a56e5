import YkUtil.Exec.CvQueue.Capacity

/-!
As long as the buffer does not throw and the capacities fit, the checks and the
exceptions make no difference: behind every run there is one of the queue over
a buffer that never throws. That queue has no `reserve_capacity`.
-/

namespace YkUtil.Exec.CvQueue.Throwing

open YkUtil.Lib

variable {Tid T : Type*} {cfg : Config} {q q' : CvQueue Tid T} {tid : Tid} {stop : Bool}
  {pick : Nat}

theorem Config.accepts_iff {n : Int} (hn : cfg.Fits n) :
    cfg.Accepts n ↔ 0 ≤ n ∧ n ≤ cfg.maxSize := by
  constructor
  · intro h
    exact ⟨h.1, (Config.fits_iff_of_accepts h).mp hn⟩
  · rintro ⟨hlow, hhigh⟩
    exact Config.accepts_of_le hlow hhigh

theorem setCapacity_eq {n : Int} (hn : cfg.Fits n) :
    setCapacity cfg q n = ((q.setCapacity cfg.toCvQueueConfig n).1,
      .ofEvent (some (q.setCapacity cfg.toCvQueueConfig n).2)) := by
  have haccepts := Config.accepts_iff hn
  unfold setCapacity CvQueue.setCapacity Config.checkCapacity
  by_cases hlow : n < 0
  · simp only [if_pos hlow]
    rfl
  · rw [Config.Accepts, and_iff_right (Int.not_lt.mp hlow), and_iff_right (Int.not_lt.mp hlow)]
      at haccepts
    by_cases hhigh : (cfg.maxSize : Int) < n
    · have hcast : cfg.maxSize < cfg.cast n := by omega
      simp only [if_neg hlow, if_pos hhigh, if_pos hcast]
      rfl
    · have hcast : ¬ cfg.maxSize < cfg.cast n := by omega
      simp only [if_neg hlow, if_neg hhigh, if_neg hcast]
      rfl

/-- What it does when the room is there is `set_capacity`. -/
theorem setCapacityAndReserve_eq (cfg : Config) (q : CvQueue Tid T) (n : Int) :
    setCapacityAndReserve cfg q n false = setCapacity cfg q n := by
  rcases setCapacityAndReserve_cases cfg q n false with ⟨hn, e, hreserve⟩ | ⟨hn, hreserve⟩
  · obtain ⟨e', he'⟩ := Config.checkCapacity_of_not_accepts hn
    rw [setCapacityAndReserve, setCapacity, he']
  · rw [hreserve, setCapacity, Config.checkCapacity_of_accepts hn]
    rfl

theorem reserveCapacity_eq (hq : InBounds cfg q) :
    reserveCapacity cfg q false = (q, .reserved) := by
  have haccepts : cfg.Accepts q.capacity := Config.accepts_of_le hq.1 hq.2
  rw [reserveCapacity, Config.reserveFails_of_accepts haccepts]
  rfl

/-- A section of a call that both queues have. -/
theorem run_call_eq {op : CvQueue.Op T} (hq : InBounds cfg q)
    (hop : ∀ n, (Op.call op).newCapacity = some n → cfg.Fits n) :
    (Op.call op).run cfg q tid stop pick false =
      (op.run cfg.toCvQueueConfig q tid stop pick).map
        fun (q', event) => (q', .ofEvent event) := by
  cases op with
  | pushWait token v =>
      simp only [Op.run, CvQueue.Op.run, Option.map_some, Option.some.injEq]
      unfold pushWait CvQueue.pushWait
      split
      · rfl
      split
      · rename_i hcond
        split
        · rfl
        · rename_i hopen
          have hfits := hq.pushFits hcond (Bool.eq_false_of_not_eq_true hopen)
          have hroom : ¬ cfg.maxSize < q.buf.length + 1 := Nat.not_lt.mpr hfits
          rw [if_neg (by simp [Config.emplaceFails, hroom])]
          rfl
      · rfl
  | setCapacity n =>
      simp only [Op.run, CvQueue.Op.run, Option.map_some]
      rw [setCapacity_eq (hop n rfl)]
  | setCapacityAndReserve n =>
      simp only [Op.run, CvQueue.Op.run, Option.map_some]
      rw [setCapacityAndReserve_eq, setCapacity_eq (hop n rfl)]
  | popWait | clear | close | reopen => rfl

/-! ## The run behind a run -/

/-- The call, if both queues have it. -/
def Op.plain : Op T → Option (CvQueue.Op T)
  | .call op => some op
  | .reserveCapacity => none

def Outcome.event : Outcome T → Option (CvQueueEvent T)
  | .returns event => some event
  | .throws .interrupted => some .interrupted
  | .throws (.lengthError error) => some (.lengthError error)
  | .waits | .reserved | .throws .buffer => none

def Record.entry (record : Record Tid T) : Option (Tid × CvQueueEvent T) :=
  record.outcome.event.map fun event => (record.tid, event)

@[simp] theorem event_ofEvent (event : Option (CvQueueEvent T)) :
    (Outcome.ofEvent event).event = event := by
  cases event with
  | none => rfl
  | some event => cases event <;> rfl

/-- The state of the queue over a buffer that never throws. -/
structure Plain (s : System Tid T) (u : CvQueue.System Tid T) : Prop where
  queue : u.queue = s.queue
  call : ∀ tid, u.call tid = (s.call tid).bind Op.plain
  stopRequested : ∀ tid, (u.call tid).isSome → u.stopRequested tid = s.stopRequested tid
  history : u.history = s.history.filterMap Record.entry

theorem construct_ofCapacity {fails : Bool} {construction : Construction}
    (hq : construct cfg fails construction = .ok q) : q = ofCapacity q.capacity := by
  cases construction with
  | default =>
      cases hq
      rfl
  | capacity n =>
      simp only [construct] at hq
      split at hq
      · cases hq
      · split at hq <;> cases hq
        rfl

/-- The buffer gets the room it asks for, and a capacity given to the call fits. -/
def Unfailing (cfg : Config) (q : CvQueue Tid T) (fails : Bool) (op : Op T) : Prop :=
  fails = false ∧ CapacityFits cfg q fails op

variable [DecidableEq Tid] {s t : System Tid T} {u : CvQueue.System Tid T} {a : Action Tid T}

theorem Plain.invoke (h : Plain s u) {op : CvQueue.Op T} :
    Plain {s with
        call := Function.update s.call tid (some (.call op))
        stopRequested := Function.update s.stopRequested tid false}
      {u with
        call := Function.update u.call tid (some op)
        stopRequested := Function.update u.stopRequested tid false} := by
  refine ⟨h.queue, fun other => ?_, fun other hin => ?_, h.history⟩
  · by_cases hother : other = tid
    · subst hother
      simp [Op.plain]
    · simp [Function.update_of_ne hother, h.call]
  · by_cases hother : other = tid
    · subst hother
      simp
    · simp only [Function.update_of_ne hother] at hin ⊢
      exact h.stopRequested other hin

/-- Both queues end a section that both have. -/
theorem Plain.finish (h : Plain s u) (event : Option (CvQueueEvent T)) :
    Plain (s.finish tid q (.ofEvent event)) (u.finish tid q event) := by
  have hhistory : s.history.filterMap Record.entry ++
      (event.map fun event => (tid, event)).toList =
      (s.finish tid q (.ofEvent event)).history.filterMap Record.entry := by
    simp only [System.finish, List.filterMap_append, List.filterMap_cons, Record.entry,
      event_ofEvent, List.filterMap_nil]
    cases event <;> rfl
  cases event with
  | none =>
      refine ⟨rfl, h.call, h.stopRequested, ?_⟩
      rw [← hhistory, ← h.history]
      exact (List.append_nil _).symm
  | some event =>
      have hcall : (s.finish tid q (.ofEvent (some event))).call =
          Function.update s.call tid none := by
        cases event <;> rfl
      refine ⟨rfl, fun other => ?_, fun other hin => ?_, ?_⟩
      · rw [hcall]
        by_cases hother : other = tid
        · subst hother
          simp [CvQueue.System.finish]
        · simp [CvQueue.System.finish, Function.update_of_ne hother, h.call]
      · by_cases hother : other = tid
        · subst hother
          simp [CvQueue.System.finish] at hin
        · simp only [CvQueue.System.finish, Function.update_of_ne hother] at hin
          exact h.stopRequested other hin
      · rw [← hhistory, ← h.history]
        rfl

/-- The other queue takes the step too, unless it does not have the call. -/
theorem Plain.step (h : Plain s u) (hq : InBounds cfg s.queue)
    (hgood : OnSection (Unfailing cfg) s a) (hstep : Throwing.step cfg s a = some t) :
    Plain t u ∨ ∃ b u', CvQueue.step cfg.toCvQueueConfig u b = some u' ∧ Plain t u' := by
  cases a with
  | invoke tid op =>
      have havailable := Calls.available_of_step hstep
      obtain ⟨hidle, rfl⟩ := Calls.invoke_inv hstep
      have hnone : u.call tid = none := by rw [h.call, hidle, Option.bind_none]
      cases op with
      | call op => exact .inr ⟨.invoke tid op, _, Calls.step_invoke hnone havailable, h.invoke⟩
      | reserveCapacity =>
          refine .inl ⟨h.queue, fun other => ?_, fun other hin => ?_, h.history⟩
          · by_cases hother : other = tid
            · subst hother
              simpa [Op.plain] using hnone
            · simp [Function.update_of_ne hother, h.call]
          · have hother : other ≠ tid := by
              rintro rfl
              simp [hnone] at hin
            simpa [Function.update_of_ne hother] using h.stopRequested other hin
  | lock tid pick =>
      obtain ⟨op, q, outcome, hcall, hruns, hrun, rfl⟩ := Calls.lock_inv hstep
      obtain ⟨hfails, hcapacity⟩ := (onSection_lock hcall).mp hgood
      change op.run cfg s.queue tid _ pick.pick pick.fails = some (q, outcome) at hrun
      rw [hfails] at hrun
      cases op with
      | call op =>
          rw [run_call_eq hq hcapacity, Option.map_eq_some_iff] at hrun
          obtain ⟨⟨q', event⟩, hplain, heq⟩ := hrun
          cases heq
          have hucall : u.call tid = some op := by rw [h.call, hcall]; rfl
          refine .inr ⟨.lock tid pick.pick, _, ?_, h.finish event⟩
          rw [step_lock hucall (by rw [h.queue]; exact hruns), h.queue,
            h.stopRequested tid (by rw [hucall]; rfl)]
          exact Option.map_eq_some_iff.mpr ⟨_, hplain, rfl⟩
      | reserveCapacity =>
          simp only [Op.run, reserveCapacity_eq hq, Option.some.injEq] at hrun
          cases hrun
          refine .inl ⟨h.queue, fun other => ?_, h.stopRequested, ?_⟩
          · by_cases hother : other = tid
            · subst hother
              simp [calls, System.finish, h.call, hcall, Op.plain]
            · simp [calls, System.finish, Function.update_of_ne hother, h.call]
          · simp [calls, System.finish, h.history, Record.entry, Outcome.event]
  | wake tid =>
      cases hstep
      refine .inr ⟨.wake tid, _, rfl, ?_, h.call, h.stopRequested, h.history⟩
      rw [h.queue]
  | requestStop tid =>
      obtain ⟨op, waitsOn, hcall, htoken, rfl⟩ := Calls.requestStop_inv hstep
      cases op with
      | call op =>
          have hucall : u.call tid = some op := by rw [h.call, hcall]; rfl
          have hutoken : op.token = some waitsOn := htoken
          refine .inr ⟨.requestStop tid, _, Calls.step_requestStop hucall hutoken, ?_⟩
          refine ⟨by rw [h.queue], h.call, fun other hin => ?_, h.history⟩
          by_cases hother : other = tid
          · subst hother
            simp
          · simpa [Function.update_of_ne hother] using h.stopRequested other hin
      | reserveCapacity => cases htoken

/-- However the queue was constructed and in every interleaving: where nothing is
asked of the buffer that it does not have, the run is one of the queue over a
buffer that never throws, with the same queue and the same history. -/
theorem plain_of_unfailing {fails : Bool} {construction : Construction}
    (hq : construct cfg fails construction = .ok q) (hfits : construction.Fits cfg)
    {acts : List (Action Tid T)}
    (hrun : (system cfg q).GoodRun (OnSection (Unfailing cfg)) acts s) :
    ∃ u, (CvQueue.system Tid T cfg.toCvQueueConfig q.capacity).Reachable u ∧ Plain s u ∧
      InBounds cfg s.queue := by
  induction hrun with
  | nil =>
      refine ⟨_, TransitionSystem.reachable_init _, ⟨?_, fun _ => rfl, fun _ => nofun, rfl⟩,
        (construct_inBounds_iff hq).mpr hfits⟩
      exact (construct_ofCapacity hq).symm
  | @snoc acts s t a _ hgood hstep ih =>
      obtain ⟨u, hu, hplain, hbounds⟩ := ih
      have hchecked : Checked cfg s a := hgood.mono fun _ _ _ hgood => hgood.2
      have hbounds' := (inBounds_step_iff hbounds hstep).mpr hchecked
      rcases hplain.step hbounds hgood hstep with hsame | ⟨b, u', hustep, hplain'⟩
      · exact ⟨u, hu, hsame, hbounds'⟩
      · exact ⟨u', hu.step hustep, hplain', hbounds'⟩

end YkUtil.Exec.CvQueue.Throwing
