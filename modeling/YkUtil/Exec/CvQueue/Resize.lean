import YkUtil.Exec.CvQueue.Wakeup

/-!
One producer, one consumer, and a third thread that changes the capacity. The
pop notifies only when the size was at the capacity at that moment, so a
capacity raised while the producer sleeps hides the pops it is waiting for.
The producer is stranded when it is still asleep with the buffer empty: the
next `pop_wait` then sleeps as well.
-/

namespace YkUtil.Exec.CvQueue

open YkUtil.Lib

variable {Tid T : Type*} {cfg : CvQueueConfig} {s t : System Tid T}
  {q' : CvQueue Tid T} {a : Action Tid T} {producer consumer : Tid}

/-- The calls of the three kinds of thread: `push_wait`, `pop_wait`, and all
others, with capacities of at least one. -/
def InRole [DecidableEq Tid] (producer consumer : Tid) : Action Tid T → Prop
  | .invoke tid op =>
      if tid = producer then op.isPush = true
      else if tid = consumer then op.isPop = true
      else op.isPush = false ∧ op.isPop = false ∧
        ∀ n, op = .setCapacity n ∨ op = .setCapacityAndReserve n → 1 ≤ n
  | _ => True

/-- The queue is open and both threads sleep on it with no notification. -/
def Deadlock (producer consumer : Tid) (s : System Tid T) : Prop :=
  s.queue.closed = false ∧ producer ∈ s.queue.notFull.waiting ∧
    consumer ∈ s.queue.notEmpty.waiting

/-- The section about to run leaves the producer asleep on an empty buffer: a
push that finds no room in an empty buffer, or a pop that takes the last value
below the capacity while the producer sleeps. -/
def StrandsProducer (s : System Tid T) : Action Tid T → Prop
  | .lock tid _ => ∃ op, s.call tid = some op ∧
      (op.hasToken && s.stopRequested tid) = false ∧ s.queue.closed = false ∧
      ((op.isPush = true ∧ s.queue.buf = [] ∧ s.queue.capacity ≤ 0) ∨
        (op.isPop = true ∧ s.queue.buf.length = 1 ∧ 1 < s.queue.capacity ∧
          s.queue.notFull.waiting ≠ []))
  | _ => False

/-- What holds on every run of the three kinds of thread. -/
structure Cast (producer consumer : Tid) (s : System Tid T) : Prop where
  placed : Placed s
  pushing : ∀ tid, InCall Op.isPush s tid → tid = producer
  popping : ∀ tid, InCall Op.isPop s tid → tid = consumer
  pops : producer ≠ consumer → ∀ op, s.call consumer = some op → op.isPop = true

/-- The producer sleeps only on a buffer the consumer can still pop. -/
def ValueWhileWaiting (q : CvQueue Tid T) : Prop :=
  q.notFull.waiting ≠ [] → q.buf ≠ [] ∧ q.closed = false

theorem InRole.of_push [DecidableEq Tid] {tid : Tid} {op : Op T}
    (h : InRole producer consumer (.invoke tid op)) (hpush : op.isPush = true) :
    tid = producer := by
  simp only [InRole] at h
  split at h
  · assumption
  split at h
  · cases op <;> simp [Op.isPush, Op.isPop] at hpush h
  · simp [h.1] at hpush

theorem InRole.of_pop [DecidableEq Tid] {tid : Tid} {op : Op T}
    (h : InRole producer consumer (.invoke tid op)) (hpop : op.isPop = true) : tid = consumer := by
  simp only [InRole] at h
  split at h
  · cases op <;> simp [Op.isPush, Op.isPop] at hpop h
  split at h
  · assumption
  · simp [h.2.1] at hpop

theorem cast_start (capacity : Int) :
    Cast producer consumer (start capacity : System Tid T) where
  placed := placed_start capacity
  pushing := nofun
  popping := nofun
  pops := fun _ => nofun

theorem Cast.onePerRole (h : Cast producer consumer s) : OnePerRole cfg s where
  producer := fun _ tid tid' hp hp' => (h.pushing tid hp).trans (h.pushing tid' hp').symm
  consumer := fun _ tid tid' hp hp' => (h.popping tid hp).trans (h.popping tid' hp').symm

/-- Which threads the pop of a `spsc` queue leaves asleep. -/
theorem traitsPop_spsc (hspsc : cfg.isSingleProducer = true ∧ cfg.isSingleConsumer = true)
    {q : CvQueue Tid T} {v : T} {pick : Nat} (h : traitsPop cfg q pick = some (v, q')) :
    q.buf.length = q'.buf.length + 1 ∧ q'.closed = q.closed ∧
      (q.capacity ≤ (q.buf.length : Int) → q'.notFull = q.notFull.notifyOne pick) ∧
      ((q.buf.length : Int) < q.capacity → q'.notFull = q.notFull) := by
  simp only [traitsPop, doPop_eq_take, hspsc.1, hspsc.2, Bool.and_self, if_true,
    Option.map_eq_some_iff] at h
  obtain ⟨⟨w, rest⟩, htake, h⟩ := h
  have hlength := (BoundedContainer.take_perm htake).length_eq
  split at h <;> cases h
  · exact ⟨hlength, rfl, fun _ => rfl, fun hlt => absurd hlt (by omega)⟩
  · exact ⟨hlength, rfl, fun hle => absurd hle (by assumption), fun _ => rfl⟩

/-- A section that does not strand the producer leaves it asleep on a value at
most. -/
theorem run_valueWhileWaiting (hspsc : cfg.isSingleProducer = true ∧ cfg.isSingleConsumer = true)
    (hcast : Cast producer consumer s) (h : ValueWhileWaiting s.queue) {tid : Tid} {pick : Nat}
    {op : Op T} {event : Option (CvQueueEvent T)} (hop : s.call tid = some op)
    (hkeeps : ¬ StrandsProducer s (.lock tid pick))
    (hrun : op.run cfg s.queue tid (op.hasToken && s.stopRequested tid) pick =
      some (q', event)) : ValueWhileWaiting q' := by
  cases run_cases hrun with
  | refused => exact h
  | pushed v =>
      intro hwaits
      rw [traitsPush_notFull] at hwaits
      have hcontainer := traitsPush_toContainer cfg s.queue v pick
      have hbuf := congrArg BoundedContainer.Container.contents hcontainer
      have hopened := congrArg BoundedContainer.Container.opened hcontainer
      simp only [toContainer] at hbuf hopened
      exact ⟨by simp [hbuf], by rw [Bool.not_inj hopened]; exact (h hwaits).2⟩
  | pushWaits hstop hopen hfull =>
      refine fun _ => ⟨fun hnil => ?_, hopen⟩
      have hbuf : s.queue.buf = [] := hnil
      refine hkeeps ⟨_, hop, hstop, hopen, Or.inl ⟨rfl, hbuf, ?_⟩⟩
      simpa [hbuf] using hfull
  | popped hstop hopen hpop =>
      obtain ⟨hlength, hclosed, hfull, hroom⟩ := traitsPop_spsc hspsc hpop
      intro hwaits
      refine ⟨fun hnil => ?_, by rw [hclosed, hopen]⟩
      rw [hnil, List.length_nil] at hlength
      rcases Int.lt_or_le (s.queue.buf.length : Int) s.queue.capacity with hlt | hle
      · rw [hroom hlt] at hwaits
        exact hkeeps ⟨_, hop, hstop, hopen, Or.inr ⟨rfl, hlength, by omega, hwaits⟩⟩
      · rw [hfull hle] at hwaits
        exact hwaits (notFull_unique hcast.placed hcast.onePerRole hspsc.1 pick)
  | popWaits | resized => exact h
  | cleared | closed | reopened => exact fun hwaits => absurd rfl hwaits

/-- The invariant of the runs in which no section strands the producer. -/
structure NoDeadlock (producer consumer : Tid) (s : System Tid T) : Prop where
  cast : Cast producer consumer s
  value : ValueWhileWaiting s.queue
  empty : EmptyWhileWaiting s.queue

theorem NoDeadlock.not_deadlock (h : NoDeadlock producer consumer s) :
    ¬ Deadlock producer consumer s := by
  rintro ⟨_, hproducer, hconsumer⟩
  exact (h.value (List.ne_nil_of_mem hproducer)).1 (h.empty (List.ne_nil_of_mem hconsumer)).1

variable [DecidableEq Tid]

theorem Cast.step (h : Cast producer consumer s)
    (hrole : InRole producer consumer a) (hstep : CvQueue.step cfg s a = some t) :
    Cast producer consumer t where
  placed := h.placed.step hstep
  pushing := by
    intro tid htid
    rcases inCall_step hstep htid with hold | ⟨op, rfl, hpush⟩
    · exact h.pushing tid hold
    · exact hrole.of_push hpush
  popping := by
    intro tid htid
    rcases inCall_step hstep htid with hold | ⟨op, rfl, hpop⟩
    · exact h.popping tid hold
    · exact hrole.of_pop hpop
  pops := by
    intro hne op hop
    by_contra hother
    have hin : InCall (fun op => !op.isPop) t consumer := ⟨op, hop, by simpa using hother⟩
    rcases inCall_step hstep hin with ⟨op', hop', hother'⟩ | ⟨op', rfl, hother'⟩
    · simp [h.pops hne op' hop'] at hother'
    · simp only [InRole, hne.symm, if_false, if_true] at hrole
      simp [hrole] at hother'

theorem NoDeadlock.step (hspsc : cfg.isSingleProducer = true ∧ cfg.isSingleConsumer = true)
    (h : NoDeadlock producer consumer s) (hrole : InRole producer consumer a)
    (hkeeps : ¬ StrandsProducer s a) (hstep : CvQueue.step cfg s a = some t) :
    NoDeadlock producer consumer t := by
  have hcast := h.cast.step hrole hstep
  rcases step_inv hstep with ⟨tid, op, _, _, hq, _, _, _⟩ |
      ⟨tid, pick, op, q, event, rfl, hop, _, hrun, rfl⟩ | ⟨-, hwoken, _, _⟩
  · exact ⟨hcast, by rw [hq]; exact h.value, by rw [hq]; exact h.empty⟩
  · refine ⟨hcast, ?_, ?_⟩
    · rw [finish_queue]
      exact run_valueWhileWaiting hspsc h.cast h.value hop hkeeps hrun
    · rw [finish_queue]
      exact run_emptyWhileWaiting h.cast.placed h.cast.onePerRole h.empty hrun
  · refine ⟨hcast, ?_, h.empty.woken hwoken⟩
    intro hwaits
    rw [hwoken.buf, hwoken.closed]
    exact h.value fun hnil => hwaits (List.sublist_nil.mp (hnil ▸ hwoken.notFull))

/-- The producer sleeps on an empty, open buffer. -/
structure Stranded (producer : Tid) (q : CvQueue Tid T) : Prop where
  sleeps : producer ∈ q.notFull.waiting
  buf : q.buf = []
  opened : q.closed = false

variable (cfg) in
/-- A `pop_wait` that runs then joins the producer in its sleep. -/
theorem Stranded.lock_joins (h : Stranded producer t.queue) {token : Bool}
    (hcall : t.call consumer = some (.popWait token)) (hawake : ¬ t.queue.Waiting consumer)
    (hstop : (token && t.stopRequested consumer) = false) :
    ∃ u, CvQueue.step cfg t (.lock consumer 0) = some u ∧ Deadlock producer consumer u := by
  refine ⟨{t with queue := {t.queue with notEmpty := t.queue.notEmpty.wait consumer}}, ?_,
    h.opened, h.sleeps, List.mem_cons_self⟩
  rw [step_lock hcall hawake]
  simp [Op.run, hstop, popWait, popWaitCond, h.buf, h.opened, System.finish]

variable (cfg) in
/-- So does the next call of it. -/
theorem Stranded.call_joins (h : Stranded producer t.queue)
    (hidle : t.call consumer = none) (hawake : ¬ t.queue.Waiting consumer) (capacity : Int) :
    ∃ u, (system Tid T cfg capacity).exec t
        [.invoke consumer (.popWait false), .lock consumer 0] = some u ∧
      Deadlock producer consumer u := by
  let t' : System Tid T := {t with
    call := Function.update t.call consumer (some (.popWait false))
    stopRequested := Function.update t.stopRequested consumer false}
  have hinvoke : CvQueue.step cfg t (.invoke consumer (.popWait false)) = some t' :=
    Calls.step_invoke hidle rfl
  have hcall : t'.call consumer = some (.popWait false) := Function.update_self _ _ _
  obtain ⟨u, hu, hdead⟩ : ∃ u, CvQueue.step cfg t' (.lock consumer 0) = some u ∧
      Deadlock producer consumer u := Stranded.lock_joins cfg (t := t') h hcall hawake rfl
  exact ⟨u, by simp [TransitionSystem.exec, system, hinvoke, hu], hdead⟩

variable (cfg) in
/-- A stranded producer and a consumer that pops, in whatever place of its call
it is, end in a deadlock. -/
theorem Stranded.deadlocks (h : Stranded producer t.queue) (hcast : Cast producer consumer t)
    (hne : producer ≠ consumer) (capacity : Int) :
    ∃ more u, (∀ a ∈ more, InRole producer consumer a) ∧
      (system Tid T cfg capacity).exec t more = some u ∧ Deadlock producer consumer u := by
  by_cases hawake : t.queue.Waiting consumer
  · rcases hawake with hfull | hempty
    · exact absurd (hcast.pushing consumer (hcast.placed.pushing consumer hfull)).symm hne
    · exact ⟨[], t, nofun, rfl, h.opened, h.sleeps, hempty⟩
  cases hcall : t.call consumer with
  | none =>
      obtain ⟨u, hu, hdead⟩ := h.call_joins cfg hcall hawake capacity
      refine ⟨_, u, ?_, hu, hdead⟩
      simp [InRole, hne.symm, Op.isPop]
  | some op =>
      have hkind := hcast.pops hne op hcall
      cases op with
      | popWait token =>
          cases hstop : token && t.stopRequested consumer with
          | false =>
              obtain ⟨u, hu, hdead⟩ := h.lock_joins cfg hcall hawake hstop
              exact ⟨[.lock consumer 0], u, by simp [InRole],
                by simp [TransitionSystem.exec, system, hu], hdead⟩
          | true =>
              -- The call is interrupted; the next one sleeps.
              have hlock : CvQueue.step cfg t (.lock consumer 0) =
                  some (t.finish consumer t.queue (some .interrupted)) := by
                rw [step_lock hcall hawake]
                simp [Op.run, hstop, popWait]
              have hidle : (t.finish consumer t.queue (some .interrupted)).call consumer = none :=
                Function.update_self _ _ _
              obtain ⟨u, hu, hdead⟩ := Stranded.call_joins cfg
                (t := t.finish consumer t.queue (some .interrupted)) h hidle hawake capacity
              refine ⟨.lock consumer 0 :: [.invoke consumer (.popWait false), .lock consumer 0],
                u, by simp [InRole, hne.symm, Op.isPop], ?_, hdead⟩
              rw [TransitionSystem.exec]
              simp only [system] at hu ⊢
              rw [hlock]
              exact hu
      | _ => cases hkind

/-- A section that strands the producer does so. -/
theorem StrandsProducer.step (hspsc : cfg.isSingleProducer = true ∧ cfg.isSingleConsumer = true)
    (h : StrandsProducer s a) (hcast : Cast producer consumer s)
    (hstep : CvQueue.step cfg s a = some t) : Stranded producer t.queue := by
  cases a with
  | lock tid pick =>
      obtain ⟨op, q, event, hop, _, hrun, rfl⟩ := lock_inv hstep
      obtain ⟨op', hop', hstop, hopen, hwhy⟩ := h
      cases hop.symm.trans hop'
      rw [finish_queue]
      rw [hstop] at hrun
      rcases hwhy with ⟨hpush, hbuf, hcapacity⟩ | ⟨hpop, hlength, hroom, hsleeps⟩
      · have htid := hcast.pushing tid ⟨op, hop, hpush⟩
        subst htid
        cases op with
        | pushWait token v =>
            have hcond : s.queue.pushWaitCond = false := by
              simpa [pushWaitCond, hbuf, hopen] using hcapacity
            simp only [Op.run, pushWait, hcond, Option.some.injEq] at hrun
            cases hrun
            exact ⟨List.mem_cons_self, hbuf, hopen⟩
        | _ => cases hpush
      · cases op with
        | popWait token =>
            have hcond : s.queue.popWaitCond = true := by
              cases hbuf : s.queue.buf with
              | nil => simp [hbuf] at hlength
              | cons => simp [popWaitCond, hbuf]
            simp only [Op.run, popWait, hcond, popWaitCondError, hopen, Bool.false_eq_true,
              if_false, if_true] at hrun
            obtain ⟨⟨v, q''⟩, htake, hrun⟩ := Option.map_eq_some_iff.mp hrun
            cases hrun
            obtain ⟨hshorter, hclosed, _, hsame⟩ := traitsPop_spsc hspsc htake
            obtain ⟨tid', htid'⟩ := List.exists_mem_of_ne_nil _ hsleeps
            have hproducer := hcast.pushing tid' (hcast.placed.pushing tid' htid')
            have hempty : q''.buf = [] := List.length_eq_zero_iff.mp (by omega)
            have hasleep : producer ∈ q''.notFull.waiting := by
              rw [hsame (by omega), ← hproducer]
              exact htid'
            exact ⟨hasleep, hempty, hclosed.trans hopen⟩
        | _ => cases hpop
  | _ => exact h.elim

/-- On a `spsc` queue whose capacity a third thread may change: every run in
which no section strands the producer stays free of deadlocks, and after a
section that does strand it the consumer's next `pop_wait` makes one. -/
theorem deadlock_free_iff_not_stranded (producer consumer : Tid) (hne : producer ≠ consumer)
    (hspsc : cfg.isSingleProducer = true ∧ cfg.isSingleConsumer = true) (capacity : Int) :
    (∀ acts s, (system Tid T cfg capacity).GoodRun
        (fun s a => InRole producer consumer a ∧ ¬ StrandsProducer s a) acts s →
      ¬ Deadlock producer consumer s) ∧
    (∀ acts s a t, (system Tid T cfg capacity).GoodRun
        (fun _ a => InRole producer consumer a) acts s →
      InRole producer consumer a → StrandsProducer s a →
      (system Tid T cfg capacity).step s a = some t →
      ∃ more u, (∀ b ∈ more, InRole producer consumer b) ∧
        (system Tid T cfg capacity).exec t more = some u ∧ Deadlock producer consumer u) := by
  constructor
  · intro acts s hrun
    have h : NoDeadlock producer consumer s := hrun.invariant
      ⟨cast_start capacity, fun hwaits => absurd rfl hwaits, fun hwaits => absurd rfl hwaits⟩
      fun _ _ _ _ hgood hs hstep => hs.step hspsc hgood.1 hgood.2 hstep
    exact h.not_deadlock
  · intro acts s a t hrun hrole hstrands hstep
    have hcast : Cast producer consumer s := hrun.invariant (cast_start capacity)
      fun _ _ _ _ hgood hs hstep => hs.step hgood hstep
    exact (hstrands.step hspsc hcast hstep).deadlocks cfg (hcast.step hrole hstep) hne capacity

/-- The same two threads and a capacity raised to ten: the pop that is about to
run strands the producer, so a deadlock is ahead. -/
theorem deadlock_free_iff_not_stranded_raised :
    ∃ s t, (system (Fin 3) Nat ⟨.spsc, .vector, 100⟩ 1).step s (.lock 1 0) = some t ∧
      StrandsProducer s (.lock 1 0) ∧ ∃ more u, (∀ b ∈ more, InRole 0 1 b) ∧
        (system (Fin 3) Nat ⟨.spsc, .vector, 100⟩ 1).exec t more = some u ∧
        Deadlock 0 1 u := by
  obtain ⟨t, ht, _⟩ := (system (Fin 3) Nat ⟨.spsc, .vector, 100⟩ 1).exists_of_map
    ([.invoke 0 (.pushWait false 7), .lock 0 0, .invoke 0 (.pushWait false 8), .lock 0 0,
      .invoke 2 (.setCapacity 10), .lock 2 0, .invoke 1 (.popWait false)] ++ [.lock 1 0])
    (fun _ => ()) rfl
  obtain ⟨s, hs, hstep⟩ := (system (Fin 3) Nat ⟨.spsc, .vector, 100⟩ 1).exec_snoc_inv ht
  obtain ⟨s', hs', hseen⟩ := (system (Fin 3) Nat ⟨.spsc, .vector, 100⟩ 1).exists_of_map
    [.invoke 0 (.pushWait false 7), .lock 0 0, .invoke 0 (.pushWait false 8), .lock 0 0,
      .invoke 2 (.setCapacity 10), .lock 2 0, .invoke 1 (.popWait false)]
    (b := (some (.popWait false), false, [7], 10, [0]))
    (fun s => (s.call 1, s.queue.closed, s.queue.buf, s.queue.capacity,
      s.queue.notFull.waiting)) rfl
  have hsame : s' = s := Option.some.inj (hs'.symm.trans hs)
  subst hsame
  simp only [Prod.mk.injEq] at hseen
  obtain ⟨hcall, hopen, hbuf, hcapacity, hsleeps⟩ := hseen
  have hstrands : StrandsProducer s' (.lock 1 0) :=
    ⟨_, hcall, rfl, hopen, Or.inr ⟨rfl, by simp [hbuf], by simp [hcapacity], by simp [hsleeps]⟩⟩
  have hgood : ∀ a ∈ [.invoke 0 (.pushWait false 7), .lock 0 0, .invoke 0 (.pushWait false 8),
      .lock 0 0, .invoke 2 (.setCapacity 10), .lock 2 0, .invoke 1 (.popWait false)],
      ∀ _ : System (Fin 3) Nat, InRole (0 : Fin 3) 1 a := by
    simp [InRole, Op.isPush, Op.isPop]
  exact ⟨s', t, hstep, hstrands,
    (deadlock_free_iff_not_stranded 0 1 (by decide) ⟨rfl, rfl⟩ 1).2 _ s' (.lock 1 0) t
      (TransitionSystem.GoodRun.of_forall hs' hgood) trivial hstrands hstep⟩

/-- A vector of capacity one: the producer fills it and sleeps with its second
value, the capacity is raised to ten, the consumer pops the one value, which
notifies nobody, and sleeps in its next call. -/
theorem deadlock_after_set_capacity :
    ∃ acts s, (system (Fin 3) Nat ⟨.spsc, .vector, 100⟩ 1).Reaches acts s ∧
      (∀ a ∈ acts, InRole 0 1 a) ∧ Deadlock 0 1 s := by
  obtain ⟨s, hrun, hseen⟩ := (system (Fin 3) Nat ⟨.spsc, .vector, 100⟩ 1).exists_of_map
    [.invoke 0 (.pushWait false 7), .lock 0 0, .invoke 0 (.pushWait false 8), .lock 0 0,
      .invoke 2 (.setCapacity 10), .lock 2 0, .invoke 1 (.popWait false), .lock 1 0,
      .invoke 1 (.popWait false), .lock 1 0]
    (b := (false, [0], [1]))
    (fun s => (s.queue.closed, s.queue.notFull.waiting, s.queue.notEmpty.waiting)) rfl
  simp only [Prod.mk.injEq] at hseen
  refine ⟨_, s, hrun, ?_, hseen.1, by simp [hseen.2.1], by simp [hseen.2.2]⟩
  simp [InRole, Op.isPush, Op.isPop]

end YkUtil.Exec.CvQueue
