import YkUtil.Exec.CvQueue.Throw

/-!
Calls that end in an exception. A section that throws, and every section in
which its call went to sleep before, leaves the buffer, the capacity and the
closed flag as they were, with one exception: `set_capacity_and_reserve` assigns
the capacity before it calls `reserve`.
-/

namespace YkUtil.Exec.CvQueue.Throwing

open YkUtil.Lib
open YkUtil.Lib.BoundedContainer (Container)

variable {Tid T : Type*} {cfg : Config} {q q' : CvQueue Tid T} {tid : Tid}
  {stop fails : Bool} {pick : Nat} {outcome : Outcome T}

theorem quiet_ofEvent {event : Option (CvQueueEvent T)} (h : (Outcome.ofEvent event).quiet = true) :
    event = none ∨ ∃ e, event = some e ∧ refused e = true := by
  cases event with
  | none => exact Or.inl rfl
  | some e =>
      right
      refine ⟨e, rfl, ?_⟩
      cases e with
      | interrupted | lengthError | pushFalse | popFalse => rfl
      | pushed | popped | capacitySet | cleared | closed | opened => cases h

theorem toContainer_of_quiet {op : CvQueue.Op T} {event : Option (CvQueueEvent T)}
    (h : op.run cfg.toCvQueueConfig q tid stop pick = some (q', event))
    (hquiet : (Outcome.ofEvent event).quiet = true) : toContainer q' = toContainer q := by
  have hevent := quiet_ofEvent hquiet
  cases run_cases h with
  | refused | pushWaits | popWaits => rfl
  | pushed | popped | resized | cleared | closed | reopened => simp [refused] at hevent

/-- The buffer does not throw where the call has already assigned another
capacity. -/
def RoomGranted (cfg : Config) (q : CvQueue Tid T) (fails : Bool) (op : Op T) : Prop :=
  ∀ n, op = .call (.setCapacityAndReserve n) → cfg.Accepts n → n ≠ q.capacity → fails = false

theorem roomGranted_of_ne {op : Op T} (hop : ∀ n, op ≠ .call (.setCapacityAndReserve n)) :
    RoomGranted cfg q fails op :=
  fun n hn => absurd hn (hop n)

/-- Every section that waits or throws leaves the fields alone, but for the one
whose `reserve` throws after the assignment. -/
theorem run_quiet_iff {op : Op T} (h : op.run cfg q tid stop pick fails = some (q', outcome)) :
    (outcome.quiet = true → toContainer q' = toContainer q) ↔ RoomGranted cfg q fails op := by
  cases op with
  | reserveCapacity =>
      refine iff_of_true (fun _ => ?_) (roomGranted_of_ne fun n => by simp)
      simp only [Op.run, reserveCapacity, Option.some.injEq] at h
      split at h <;> cases h <;> rfl
  | call op =>
      cases op with
      | pushWait token v =>
          refine iff_of_true ?_ (roomGranted_of_ne fun n => by simp)
          simp only [Op.run, Option.some.injEq] at h
          have hpush := pushWait_toContainer cfg q tid v stop pick fails
          rw [h] at hpush
          exact hpush.2
      | setCapacity n =>
          refine iff_of_true ?_ (roomGranted_of_ne fun n => by simp)
          simp only [Op.run, Option.some.injEq] at h
          rcases setCapacity_cases cfg q n with ⟨_, e, heq⟩ | ⟨_, heq⟩ <;> cases heq.symm.trans h
          · exact fun _ => rfl
          · exact fun hquiet => nomatch hquiet
      | setCapacityAndReserve n =>
          simp only [Op.run, Option.some.injEq] at h
          rcases setCapacityAndReserve_cases cfg q n fails with ⟨hn, e, heq⟩ | ⟨hn, heq⟩ <;>
            cases heq.symm.trans h
          · refine iff_of_true (fun _ => rfl) fun m hm hacc => ?_
            cases hm
            exact absurd hacc hn
          · cases fails with
            | false => exact iff_of_true (fun hquiet => nomatch hquiet) fun _ _ _ _ => rfl
            | true =>
                constructor
                · intro hsame m hm _ hne
                  cases hm
                  exact absurd (congrArg Container.capacity (hsame rfl)) hne
                · intro hroom _
                  by_cases hne : n = q.capacity
                  · rw [hne]
                  · exact absurd (hroom n rfl hn hne) (by simp)
      | popWait | clear | close | reopen =>
          refine iff_of_true ?_ (roomGranted_of_ne fun n => by simp)
          simp only [Op.run, Option.map_eq_some_iff] at h
          obtain ⟨⟨q'', event⟩, hrun, hq⟩ := h
          cases hq
          exact toContainer_of_quiet hrun

/-- No call that has thrown so far has changed the container, in the section
that threw or in one that waited before. -/
def Transparent (s : System Tid T) : Prop :=
  ∀ r ∈ s.history, r.outcome.quiet = true → r.after = r.before

/-- The side condition of a step: a `set_capacity_and_reserve` that has passed
its checks with another capacity gets the room it asks for. -/
def Granted (cfg : Config) : System Tid T → Action Tid T → Prop :=
  OnSection (RoomGranted cfg)

variable [DecidableEq Tid]

theorem transparent_step_iff {s t : System Tid T} {a : Action Tid T} (hs : Transparent s)
    (hstep : step cfg s a = some t) : Transparent t ↔ Granted cfg s a := by
  rcases step_inv hstep with ⟨tid, pick, op, stop, q, outcome, rfl, hcall, hrun, rfl⟩ |
    ⟨hother, -, hhistory⟩
  · apply Iff.trans _ ((run_quiet_iff hrun).trans (onSection_lock hcall).symm)
    constructor
    · intro ht
      exact ht _ (List.mem_append_right _ (List.mem_singleton_self _))
    · intro hlast r hr
      rcases List.mem_append.mp hr with hr | hr
      · exact hs r hr
      · rw [List.mem_singleton.mp hr]
        exact hlast
  · refine iff_of_true ?_ (onSection_of_other hother)
    rw [Transparent, hhistory]
    exact hs

/-- For every queue to begin with and any interleaving: all calls that throw
leave the container as it was exactly if no `reserve` throws under a
`set_capacity_and_reserve` that changes the capacity. -/
theorem exception_unchanged_iff (cfg : Config) (q : CvQueue Tid T) {acts : List (Action Tid T)}
    {s : System Tid T} (hrun : (system cfg q).Reaches acts s) :
    (∀ before after u, acts = before ++ after → (system cfg q).Reaches before u →
      Transparent u) ↔ (system cfg q).GoodRun (Granted cfg) acts s := by
  apply TransitionSystem.along_iff_goodRun (P := Transparent) ?_ ?_ hrun
  · intro r hr
    cases hr
  · intro s a t _ hs hstep
    exact transparent_step_iff hs hstep

/-- `mpmc_cv_vector<int>`. -/
def vectorInt : Config :=
  {flags := .mpmc
   traits := .vector
   maxSize := 2 ^ 61 - 1
   sizeBits := 64
   maxSize_lt := by decide}

/-- A capacity that is refused after one that is set. -/
theorem exception_unchanged_iff_negative :
    ∃ s, (system vectorInt (ofCapacity defaultCapacity : CvQueue (Fin 1) Nat)).Reaches
        [.invoke 0 (.call (.setCapacityAndReserve 8)), .lock 0 ⟨0, false⟩,
         .invoke 0 (.call (.setCapacity (-1))), .lock 0 ⟨0, false⟩] s ∧ Transparent s := by
  let ts := system vectorInt (ofCapacity defaultCapacity : CvQueue (Fin 1) Nat)
  obtain ⟨s, hrun, -⟩ := ts.exists_of_map
    [.invoke 0 (.call (.setCapacityAndReserve 8)), .lock 0 ⟨0, false⟩,
     .invoke 0 (.call (.setCapacity (-1))), .lock 0 ⟨0, false⟩]
    (b := 8) (fun s => s.queue.capacity) rfl
  have hgood : ts.GoodRun (Granted vectorInt) _ s := .of_forall hrun fun a ha s => by
    simp only [List.mem_cons, List.not_mem_nil, or_false] at ha
    rcases ha with rfl | rfl | rfl | rfl
    · trivial
    · exact fun _ _ _ _ _ _ => rfl
    · trivial
    · exact fun _ _ _ _ _ _ => rfl
  have hall := (exception_unchanged_iff _ _ hrun).mpr hgood
  exact ⟨s, hrun, hall _ [] s (List.append_nil _).symm hrun⟩

/-- The allocation of 2^60 values fails, and the capacity is 2^60 afterwards. -/
theorem capacity_kept_on_bad_alloc :
    ∃ (q : CvQueue (Fin 1) Nat) (s : _), construct vectorInt false .default = .ok q ∧
      (system vectorInt q).Reachable s ∧
      s.history.map (fun r => (r.outcome, r.before.capacity, r.after.capacity)) =
        [(.throws .buffer, 1024, 2 ^ 60)] ∧ ¬ Transparent s := by
  let ts := system vectorInt (ofCapacity defaultCapacity : CvQueue (Fin 1) Nat)
  obtain ⟨s, hrun, hs⟩ := ts.exists_of_map
    [.invoke 0 (.call (.setCapacityAndReserve (2 ^ 60))), .lock 0 ⟨0, true⟩]
    (b := [(Outcome.throws Thrown.buffer, (1024 : Int), (2 ^ 60 : Int))])
    (fun s => s.history.map fun r => (r.outcome, r.before.capacity, r.after.capacity)) rfl
  refine ⟨_, s, rfl, hrun.reachable, hs, fun htransparent => ?_⟩
  obtain ⟨r, hr, hsame⟩ := List.exists_of_mem_map (hs ▸ List.mem_singleton_self _)
  simp only [Prod.mk.injEq] at hsame
  have hkept := htransparent r hr (by rw [hsame.1]; rfl)
  rw [hkept] at hsame
  exact absurd (hsame.2.1.symm.trans hsame.2.2) (by decide)

end YkUtil.Exec.CvQueue.Throwing
