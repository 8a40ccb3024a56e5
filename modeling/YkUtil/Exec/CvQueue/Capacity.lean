import YkUtil.Exec.CvQueue.Throw

/-!
The capacity and `max_size()`. `push_wait` relies on the capacity alone, so it
asks the buffer for at most `max_size()` values as long as the capacity is no
larger. Every function that is given a capacity checks it; the default
constructor is not given one.
-/

namespace YkUtil.Exec.CvQueue.Throwing

open YkUtil.Lib
open YkUtil.Lib.BoundedContainer (Container)

variable {Tid T : Type*} {cfg : Config} {q q' : CvQueue Tid T} {tid : Tid}
  {stop fails : Bool} {pick : Nat} {outcome : Outcome T}

namespace Config

/-- The checks do not let a capacity above `max_size()` through: the cast of such
a capacity is above it too. -/
def Fits (cfg : Config) (n : Int) : Prop := n ≤ cfg.maxSize ∨ cfg.maxSize < cfg.cast n

theorem fits_of_lt {n : Int} (h : n < 2 ^ cfg.sizeBits) : cfg.Fits n := by
  by_cases hn : n ≤ cfg.maxSize
  · exact Or.inl hn
  · right
    have hcast : (cfg.cast n : Int) = n := cast_of_lt (by omega) h
    omega

theorem fits_iff_of_accepts {n : Int} (h : cfg.Accepts n) : cfg.Fits n ↔ n ≤ cfg.maxSize :=
  ⟨fun hn => hn.resolve_right (Nat.not_lt.mpr h.2), Or.inl⟩

theorem fits_of_not_accepts {n : Int} (h : ¬ cfg.Accepts n) : cfg.Fits n := by
  by_cases hlow : 0 ≤ n
  · exact Or.inr (Nat.not_le.mp fun hhigh => h ⟨hlow, hhigh⟩)
  · exact Or.inl (by omega)

theorem accepts_of_le {n : Int} (hlow : 0 ≤ n) (hhigh : n ≤ cfg.maxSize) : cfg.Accepts n := by
  have hlt : (cfg.maxSize : Int) < 2 ^ cfg.sizeBits := by
    exact_mod_cast cfg.maxSize_lt
  have hcast : (cfg.cast n : Int) = n := cast_of_lt hlow (Int.lt_of_le_of_lt hhigh hlt)
  exact ⟨hlow, by omega⟩

end Config

/-- A push that goes ahead has seen room. -/
theorem length_lt_of_cond (hcond : q.pushWaitCond = true) (hopen : q.pushWaitCondError = false) :
    (q.buf.length : Int) < q.capacity := by
  simp only [pushWaitCondError] at hopen
  simpa only [pushWaitCond, hopen, Bool.or_false, decide_eq_true_eq] using hcond

/-! ## The bound -/

theorem capacity_of_run {op : CvQueue.Op T} {event : Option (CvQueueEvent T)}
    (h : op.run cfg.toCvQueueConfig q tid stop pick = some (q', event))
    (hop : (Op.call op).newCapacity = none) : q'.capacity = q.capacity := by
  cases run_cases h with
  | refused | pushWaits | popWaits | cleared | closed | reopened => rfl
  | pushed v => exact congrArg Container.capacity (traitsPush_toContainer _ _ _ _)
  | popped _ _ hpop =>
      obtain ⟨rest, -, hq⟩ := traitsPop_eq_some hpop
      exact congrArg Container.capacity hq
  | resized hset => rcases hset with rfl | rfl <;> cases hop

/-- The capacity after a section is the one it was given, if that passes the
checks, whether or not the buffer throws afterwards. -/
theorem run_capacity {op : Op T} (h : op.run cfg q tid stop pick fails = some (q', outcome)) :
    q'.capacity = (op.newCapacity.filter fun n => decide (cfg.Accepts n)).getD q.capacity := by
  cases op with
  | reserveCapacity =>
      simp only [Op.run, reserveCapacity, Option.some.injEq] at h
      split at h <;> cases h <;> rfl
  | call op =>
      cases op with
      | pushWait token v =>
          simp only [Op.run, Option.some.injEq] at h
          have hpush := pushWait_toContainer cfg q tid v stop pick fails
          rw [h] at hpush
          exact hpush.1
      | setCapacity n =>
          simp only [Op.run, Option.some.injEq] at h
          rcases setCapacity_cases cfg q n with ⟨hn, e, heq⟩ | ⟨hn, heq⟩ <;> cases heq.symm.trans h
          · simp [Op.newCapacity, Option.filter, hn]
          · simp [Op.newCapacity, Option.filter, hn]
      | setCapacityAndReserve n =>
          simp only [Op.run, Option.some.injEq] at h
          rcases setCapacityAndReserve_cases cfg q n fails with ⟨hn, e, heq⟩ | ⟨hn, heq⟩ <;>
            cases heq.symm.trans h
          · simp [Op.newCapacity, Option.filter, hn]
          · simp [Op.newCapacity, Option.filter, hn]
      | popWait | clear | close | reopen =>
          simp only [Op.run, Option.map_eq_some_iff] at h
          obtain ⟨⟨q'', event⟩, hrun, hq⟩ := h
          cases hq
          exact capacity_of_run hrun rfl

/-- The capacity is one that the buffer can hold. -/
def InBounds (cfg : Config) (q : CvQueue Tid T) : Prop :=
  0 ≤ q.capacity ∧ q.capacity ≤ cfg.maxSize

/-- A `push_wait` that goes ahead asks the buffer for no more than it can
hold. -/
def PushFits (cfg : Config) (q : CvQueue Tid T) : Prop :=
  q.pushWaitCond = true → q.pushWaitCondError = false → q.buf.length + 1 ≤ cfg.maxSize

theorem InBounds.pushFits (h : InBounds cfg q) : PushFits cfg q := by
  intro hcond hopen
  have hlt := length_lt_of_cond hcond hopen
  have hhigh := h.2
  omega

/-- The constructor that ran has let no capacity above `max_size()` through. -/
def Construction.Fits (cfg : Config) : Construction → Prop
  | .default => defaultCapacity ≤ cfg.maxSize
  | .capacity n => cfg.Fits n

/-- A capacity given to a call fits. -/
def CapacityFits (cfg : Config) (_ : CvQueue Tid T) (_ : Bool) (op : Op T) : Prop :=
  ∀ n, op.newCapacity = some n → cfg.Fits n

/-- The side condition of a step. -/
def Checked (cfg : Config) : System Tid T → Action Tid T → Prop :=
  OnSection (CapacityFits cfg)

theorem construct_inBounds_iff {construction : Construction}
    (hq : construct cfg fails construction = .ok q) : InBounds cfg q ↔ construction.Fits cfg := by
  cases construction with
  | default =>
      cases hq
      exact ⟨fun h => h.2, fun h => ⟨Int.le_of_lt (by decide : 0 < defaultCapacity), h⟩⟩
  | capacity n =>
      by_cases hn : cfg.Accepts n
      · simp only [construct, Config.checkCapacity_of_accepts hn] at hq
        split at hq <;> cases hq
        rw [Construction.Fits, Config.fits_iff_of_accepts hn]
        exact ⟨fun h => h.2, fun h => ⟨hn.1, h⟩⟩
      · obtain ⟨e, he⟩ := Config.checkCapacity_of_not_accepts hn
        simp [construct, he] at hq

theorem run_inBounds_iff {op : Op T} (hq : InBounds cfg q)
    (h : op.run cfg q tid stop pick fails = some (q', outcome)) :
    InBounds cfg q' ↔ CapacityFits cfg q fails op := by
  have hcapacity := run_capacity h
  unfold CapacityFits
  cases hop : op.newCapacity with
  | none =>
      refine iff_of_true ?_ fun n hn => by cases hn
      rw [hop] at hcapacity
      rw [InBounds, hcapacity]
      exact hq
  | some n =>
      simp only [Option.some.injEq, forall_eq']
      by_cases hn : cfg.Accepts n
      · have hnew : q'.capacity = n := by simpa [hop, Option.filter, hn] using hcapacity
        rw [InBounds, hnew, Config.fits_iff_of_accepts hn]
        exact ⟨fun h => h.2, fun h => ⟨hn.1, h⟩⟩
      · have hold : q'.capacity = q.capacity := by
          simpa [hop, Option.filter, hn] using hcapacity
        refine iff_of_true ?_ (Config.fits_of_not_accepts hn)
        rw [InBounds, hold]
        exact hq

variable [DecidableEq Tid]

theorem inBounds_step_iff {s t : System Tid T} {a : Action Tid T} (hs : InBounds cfg s.queue)
    (hstep : step cfg s a = some t) : InBounds cfg t.queue ↔ Checked cfg s a := by
  rcases step_inv hstep with ⟨tid, pick, op, stop, q, outcome, rfl, hcall, hrun, rfl⟩ |
    ⟨hother, hsame, -⟩
  · exact (run_inBounds_iff hs hrun).trans (onSection_lock hcall).symm
  · refine iff_of_true ?_ (onSection_of_other hother)
    have hcapacity : t.queue.capacity = s.queue.capacity := congrArg Container.capacity hsame
    rw [InBounds, hcapacity]
    exact hs

/-- For every buffer, every way to construct the queue and any interleaving:
the capacity is in bounds and no push asks for too much in any state of the run,
exactly if the constructor and every call that is given a capacity let none
above `max_size()` through. -/
theorem capacity_bounded_iff {construction : Construction}
    (hq : construct cfg fails construction = .ok q) {acts : List (Action Tid T)}
    {s : System Tid T} (hrun : (system cfg q).Reaches acts s) :
    (∀ before after u, acts = before ++ after → (system cfg q).Reaches before u →
      InBounds cfg u.queue ∧ PushFits cfg u.queue) ↔
    construction.Fits cfg ∧ (system cfg q).GoodRun (Checked cfg) acts s := by
  have hinit := construct_inBounds_iff hq
  have hbound : ∀ u : System Tid T,
      InBounds cfg u.queue ∧ PushFits cfg u.queue ↔ InBounds cfg u.queue :=
    fun u => and_iff_left_of_imp InBounds.pushFits
  simp only [hbound]
  by_cases hfits : construction.Fits cfg
  · rw [and_iff_right hfits]
    apply TransitionSystem.along_iff_goodRun (P := fun s => InBounds cfg s.queue)
      (hinit.mpr hfits) ?_ hrun
    intro s a t _ hs hstep
    exact inBounds_step_iff hs hstep
  · refine iff_of_false (fun hall => hfits ?_) fun h => hfits h.1
    exact hinit.mp (hall [] acts _ rfl rfl)

/-- `mpmc_cv_inplace_vector<int, N>`. -/
def inplaceVector (N : Nat) (hN : N < 2 ^ 64) : Config :=
  {flags := .mpmc
   traits := .vector
   maxSize := N
   sizeBits := 64
   maxSize_lt := hN}

/-- A queue of capacity 4 over four places, with the capacity set to 2. -/
theorem capacity_bounded_iff_inplace :
    ∃ (q : CvQueue (Fin 1) Nat) (s : _),
      construct (inplaceVector 4 (by decide)) false (.capacity 4) = .ok q ∧
      (system (inplaceVector 4 (by decide)) q).Reaches
        [.invoke 0 (.call (.setCapacity 2)), .lock 0 ⟨0, false⟩] s ∧
      s.queue.capacity = 2 ∧ PushFits (inplaceVector 4 (by decide)) s.queue := by
  let cfg := inplaceVector 4 (by decide)
  let q : CvQueue (Fin 1) Nat := ofCapacity 4
  have hchecked : Checked cfg
      {queue := q
       call := Function.update (fun _ => none) 0 (some (.call (.setCapacity 2)))
       stopRequested := Function.update (fun _ => false) 0 false
       history := []} (.lock 0 ⟨0, false⟩) := by
    intro op hcall n hn
    cases (Option.some.inj hcall : Op.call (.setCapacity 2) = op)
    cases hn
    exact Config.fits_of_lt (by decide)
  have hstart : (system cfg q).GoodRun (Checked cfg) [] (system cfg q).init := .nil
  have hinvoke : Checked cfg (system cfg q).init (.invoke 0 (.call (.setCapacity 2))) := trivial
  have hgood := (hstart.snoc hinvoke rfl).snoc hchecked rfl
  have hconstruct : construct cfg false (.capacity 4) = .ok q := rfl
  have hfits : (Construction.capacity 4).Fits cfg := Config.fits_of_lt (by decide)
  have hall := (capacity_bounded_iff hconstruct hgood.reaches).mpr ⟨hfits, hgood⟩
  exact ⟨q, _, hconstruct, hgood.reaches, rfl,
    (hall _ [] _ (List.append_nil _).symm hgood.reaches).2⟩

/-- Over four places the default capacity is still 1024: with all four taken
`push_wait` goes ahead, and the buffer throws. -/
theorem default_exceeds :
    ∃ (q : CvQueue (Fin 1) Nat) (s : _),
      construct (inplaceVector 4 (by decide)) false .default = .ok q ∧
      (system (inplaceVector 4 (by decide)) q).Reachable s ∧
      ¬ InBounds (inplaceVector 4 (by decide)) s.queue ∧
      ¬ PushFits (inplaceVector 4 (by decide)) s.queue := by
  let ts := system (inplaceVector 4 (by decide)) (ofCapacity defaultCapacity : CvQueue (Fin 1) Nat)
  let push : List (Action (Fin 1) Nat) :=
    [.invoke 0 (.call (.pushWait false 7)), .lock 0 ⟨0, false⟩]
  obtain ⟨s, hrun, hs⟩ := ts.exists_of_map (push ++ push ++ push ++ push ++ push)
    (b := ((1024 : Int), false, [7, 7, 7, 7], some (Outcome.throws Thrown.buffer)))
    (fun s => (s.queue.capacity, s.queue.closed, s.queue.buf,
      s.history.getLast?.map Record.outcome)) (by decide +kernel)
  simp only [Prod.mk.injEq] at hs
  obtain ⟨hcapacity, hclosed, hbuf, -⟩ := hs
  refine ⟨_, s, rfl, hrun.reachable, fun h => ?_, fun h => ?_⟩
  · rw [InBounds, hcapacity] at h
    exact absurd h.2 (by decide)
  · have hroom := h (by simp [pushWaitCond, hcapacity, hbuf]) hclosed
    rw [hbuf] at hroom
    exact absurd hroom (by decide)

end YkUtil.Exec.CvQueue.Throwing
