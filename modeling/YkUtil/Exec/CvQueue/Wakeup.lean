import YkUtil.Exec.CvQueue.Refinement

/-!
No wakeup is lost while the capacity is fixed. The four modes notify by four
rules, two of which look at the size first. Each leaves no thread waiting that
could go on: a thread that waits for room sees a full queue, one that waits
for a value sees an empty one.
-/

namespace YkUtil.Exec.CvQueue

open YkUtil.Lib

variable {Tid T : Type*} {cfg : CvQueueConfig} {s t : System Tid T}
  {q q' : CvQueue Tid T} {a : Action Tid T}

def Op.isPush : Op T → Bool
  | .pushWait _ _ => true
  | _ => false

def Op.isPop : Op T → Bool
  | .popWait _ => true
  | _ => false

def Op.setsCapacity : Op T → Bool
  | .setCapacity _ | .setCapacityAndReserve _ => true
  | _ => false

/-- The thread is in a call of this kind. -/
def InCall (kind : Op T → Bool) (s : System Tid T) (tid : Tid) : Prop :=
  ∃ op, s.call tid = some op ∧ kind op = true

/-- In a single-producer mode a thread starts `push_wait` only while no other
one is in it, and likewise for consumers. -/
def KeepsRoles (cfg : CvQueueConfig) (s : System Tid T) : Action Tid T → Prop
  | .invoke tid op =>
      (op.isPush = true → cfg.isSingleProducer = true →
        ∀ other, InCall Op.isPush s other → other = tid) ∧
      (op.isPop = true → cfg.isSingleConsumer = true →
        ∀ other, InCall Op.isPop s other → other = tid)
  | _ => True

def KeepsCapacity : Action Tid T → Prop
  | .invoke _ op => op.setsCapacity = false
  | _ => True

/-- A thread that waits for room sees a full, open queue. -/
def FullWhileWaiting (q : CvQueue Tid T) : Prop :=
  q.notFull.waiting ≠ [] → q.capacity ≤ (q.buf.length : Int) ∧ q.closed = false

/-- A thread that waits for a value sees an empty, open queue. -/
def EmptyWhileWaiting (q : CvQueue Tid T) : Prop :=
  q.notEmpty.waiting ≠ [] → q.buf = [] ∧ q.closed = false

/-- Waiting threads are in the call that waits, and in it once. -/
structure Placed (s : System Tid T) : Prop where
  pushing : ∀ tid ∈ s.queue.notFull.waiting, InCall Op.isPush s tid
  popping : ∀ tid ∈ s.queue.notEmpty.waiting, InCall Op.isPop s tid
  nodupFull : s.queue.notFull.waiting.Nodup
  nodupEmpty : s.queue.notEmpty.waiting.Nodup

structure OnePerRole (cfg : CvQueueConfig) (s : System Tid T) : Prop where
  producer : cfg.isSingleProducer = true →
    ∀ tid tid', InCall Op.isPush s tid → InCall Op.isPush s tid' → tid = tid'
  consumer : cfg.isSingleConsumer = true →
    ∀ tid tid', InCall Op.isPop s tid → InCall Op.isPop s tid' → tid = tid'

@[simp] theorem traitsPush_notFull (cfg : CvQueueConfig) (q : CvQueue Tid T) (v : T)
    (pick : Nat) : (traitsPush cfg q v pick).notFull = q.notFull := by
  simp only [traitsPush]
  split
  · split <;> rfl
  · split <;> rfl

theorem traitsPush_notEmpty_sublist (cfg : CvQueueConfig) (q : CvQueue Tid T) (v : T)
    (pick : Nat) :
    (traitsPush cfg q v pick).notEmpty.waiting.Sublist q.notEmpty.waiting := by
  simp only [traitsPush]
  split
  · split
    · exact q.notEmpty.notifyOne_sublist pick
    · exact List.Sublist.refl _
  · split
    · exact q.notEmpty.notifyOne_sublist pick
    · exact List.nil_sublist _

theorem traitsPop_notEmpty {v : T} {pick : Nat} (h : traitsPop cfg q pick = some (v, q')) :
    q'.notEmpty = q.notEmpty := by
  simp only [traitsPop, Option.map_eq_some_iff] at h
  obtain ⟨taken, _, h⟩ := h
  split at h
  · split at h <;> cases h <;> rfl
  · split at h <;> cases h <;> rfl

theorem traitsPop_notFull_sublist {v : T} {pick : Nat}
    (h : traitsPop cfg q pick = some (v, q')) :
    q'.notFull.waiting.Sublist q.notFull.waiting := by
  simp only [traitsPop, Option.map_eq_some_iff] at h
  obtain ⟨taken, _, h⟩ := h
  split at h
  · split at h <;> cases h
    · exact q.notFull.notifyOne_sublist pick
    · exact List.Sublist.refl _
  · split at h <;> cases h
    · exact q.notFull.notifyOne_sublist pick
    · exact List.nil_sublist _

/-- A section either ends in `wait`, because the condition is false, or ends
the call, and then nobody new waits. -/
theorem run_waits_or_ends {op : Op T} {tid : Tid} {stop : Bool} {pick : Nat}
    {event : Option (CvQueueEvent T)} (h : op.run cfg q tid stop pick = some (q', event)) :
    (event = none ∧ op.isPush = true ∧ q' = {q with notFull := q.notFull.wait tid} ∧
      q.capacity ≤ (q.buf.length : Int) ∧ q.closed = false) ∨
    (event = none ∧ op.isPop = true ∧ q' = {q with notEmpty := q.notEmpty.wait tid} ∧
      q.buf = [] ∧ q.closed = false) ∨
    (event ≠ none ∧ q'.notFull.waiting.Sublist q.notFull.waiting ∧
      q'.notEmpty.waiting.Sublist q.notEmpty.waiting) := by
  cases run_cases h with
  | refused =>
      exact Or.inr (Or.inr ⟨Option.some_ne_none _, List.Sublist.refl _, List.Sublist.refl _⟩)
  | pushed v =>
      refine Or.inr (Or.inr ⟨Option.some_ne_none _, ?_, traitsPush_notEmpty_sublist cfg q v pick⟩)
      rw [traitsPush_notFull]
  | pushWaits _ hopen hfull => exact Or.inl ⟨rfl, rfl, rfl, hfull, hopen⟩
  | popped _ _ hpop =>
      refine Or.inr (Or.inr ⟨Option.some_ne_none _, traitsPop_notFull_sublist hpop, ?_⟩)
      rw [traitsPop_notEmpty hpop]
  | popWaits _ hopen hempty => exact Or.inr (Or.inl ⟨rfl, rfl, rfl, hempty, hopen⟩)
  | resized =>
      exact Or.inr (Or.inr ⟨Option.some_ne_none _, List.Sublist.refl _, List.Sublist.refl _⟩)
  | cleared =>
      exact Or.inr (Or.inr ⟨Option.some_ne_none _, List.nil_sublist _, List.Sublist.refl _⟩)
  | closed | reopened =>
      exact Or.inr (Or.inr ⟨Option.some_ne_none _, List.nil_sublist _, List.nil_sublist _⟩)

theorem placed_start (capacity : Int) : Placed (start capacity : System Tid T) where
  pushing := nofun
  popping := nofun
  nodupFull := List.nodup_nil
  nodupEmpty := List.nodup_nil

/-- Waking threads, and changing the calls of threads that do not wait. -/
theorem Placed.of_sublist (h : Placed s)
    (hcall : ∀ tid, s.queue.Waiting tid → t.call tid = s.call tid)
    (hfull : t.queue.notFull.waiting.Sublist s.queue.notFull.waiting)
    (hempty : t.queue.notEmpty.waiting.Sublist s.queue.notEmpty.waiting) : Placed t where
  pushing := by
    intro tid htid
    have hwaits := hfull.subset htid
    obtain ⟨op, hop, hpush⟩ := h.pushing tid hwaits
    exact ⟨op, by rw [hcall tid (Or.inl hwaits), hop], hpush⟩
  popping := by
    intro tid htid
    have hwaits := hempty.subset htid
    obtain ⟨op, hop, hpop⟩ := h.popping tid hwaits
    exact ⟨op, by rw [hcall tid (Or.inr hwaits), hop], hpop⟩
  nodupFull := h.nodupFull.sublist hfull
  nodupEmpty := h.nodupEmpty.sublist hempty

theorem Placed.call_of_waiting (h : Placed s) {tid : Tid} (hwaits : s.queue.Waiting tid) :
    s.call tid ≠ none := by
  intro hnone
  rcases hwaits with hfull | hempty
  · obtain ⟨op, hop, _⟩ := h.pushing tid hfull
    simp [hnone] at hop
  · obtain ⟨op, hop, _⟩ := h.popping tid hempty
    simp [hnone] at hop

/-- In a single-producer mode one notification wakes all who wait for room. -/
theorem notFull_unique (hplaced : Placed s) (hone : OnePerRole cfg s)
    (hsingle : cfg.isSingleProducer = true) (pick : Nat) :
    (s.queue.notFull.notifyOne pick).waiting = [] :=
  CondVar.notifyOne_of_unique hplaced.nodupFull (fun a ha b hb =>
    hone.producer hsingle a b (hplaced.pushing a ha) (hplaced.pushing b hb)) pick

theorem notEmpty_unique (hplaced : Placed s) (hone : OnePerRole cfg s)
    (hsingle : cfg.isSingleConsumer = true) (pick : Nat) :
    (s.queue.notEmpty.notifyOne pick).waiting = [] :=
  CondVar.notifyOne_of_unique hplaced.nodupEmpty (fun a ha b hb =>
    hone.consumer hsingle a b (hplaced.popping a ha) (hplaced.popping b hb)) pick

section Notify

variable (hplaced : Placed s) (hone : OnePerRole cfg s)
include hplaced hone

/-- After a push nobody waits for a value. -/
theorem push_wakes (hempty : EmptyWhileWaiting s.queue) (v : T) (pick : Nat) :
    (traitsPush cfg s.queue v pick).notEmpty.waiting = [] := by
  simp only [traitsPush]
  split
  · rename_i hspsc
    simp only [Bool.and_eq_true] at hspsc
    split
    · exact notEmpty_unique hplaced hone hspsc.2 pick
    · -- `was_empty` is false: by the invariant nobody was waiting.
      rename_i hne
      by_contra hwaits
      exact hne (by simpa using (hempty hwaits).1)
  · split
    · rename_i hsingle
      exact notEmpty_unique hplaced hone hsingle pick
    · rfl

/-- After a pop nobody waits for room. -/
theorem pop_wakes (hfull : FullWhileWaiting s.queue) {v : T} {pick : Nat}
    (h : traitsPop cfg s.queue pick = some (v, q')) : q'.notFull.waiting = [] := by
  simp only [traitsPop, Option.map_eq_some_iff] at h
  obtain ⟨taken, _, h⟩ := h
  split at h
  · rename_i hspsc
    simp only [Bool.and_eq_true] at hspsc
    split at h <;> cases h
    · exact notFull_unique hplaced hone hspsc.1 pick
    · rename_i hroom
      by_contra hwaits
      exact hroom (hfull hwaits).1
  · split at h <;> cases h
    · rename_i hsingle
      exact notFull_unique hplaced hone hsingle pick
    · rfl

end Notify

theorem EmptyWhileWaiting.woken (h : EmptyWhileWaiting q) (hwoken : Woken q q') :
    EmptyWhileWaiting q' := by
  intro hwaits
  rw [hwoken.buf, hwoken.closed]
  exact h fun hnil => hwaits (List.sublist_nil.mp (hnil ▸ hwoken.notEmpty))

theorem FullWhileWaiting.woken (h : FullWhileWaiting q) (hwoken : Woken q q') :
    FullWhileWaiting q' := by
  intro hwaits
  rw [hwoken.buf, hwoken.closed, hwoken.capacity]
  exact h fun hnil => hwaits (List.sublist_nil.mp (hnil ▸ hwoken.notFull))

/-- No section leaves a thread waiting for a value that is there. -/
theorem run_emptyWhileWaiting {op : Op T} {tid : Tid} {stop : Bool} {pick : Nat}
    {event : Option (CvQueueEvent T)} (hplaced : Placed s) (hone : OnePerRole cfg s)
    (h : EmptyWhileWaiting s.queue)
    (hrun : op.run cfg s.queue tid stop pick = some (q', event)) : EmptyWhileWaiting q' := by
  cases run_cases hrun with
  | refused => exact h
  | pushed v => exact fun hwaits => absurd (push_wakes hplaced hone h v pick) hwaits
  | pushWaits | resized => exact h
  | popped _ _ hpop =>
      intro hwaits
      rw [traitsPop_notEmpty hpop] at hwaits
      obtain ⟨rest, htake, _⟩ := traitsPop_eq_some hpop
      rw [(h hwaits).1] at htake
      cases hcfg : order cfg <;> simp [hcfg, BoundedContainer.take] at htake
  | popWaits _ hopen hempty => exact fun _ => ⟨hempty, hopen⟩
  | cleared => exact fun hwaits => ⟨rfl, (h hwaits).2⟩
  | closed | reopened => exact fun hwaits => absurd rfl hwaits

/-- As long as the capacity stays, no section leaves a thread waiting for room
that is there. -/
theorem run_fullWhileWaiting {op : Op T} {tid : Tid} {stop : Bool} {pick : Nat}
    {event : Option (CvQueueEvent T)} (hplaced : Placed s) (hone : OnePerRole cfg s)
    (h : FullWhileWaiting s.queue) (hfixed : op.setsCapacity = false)
    (hrun : op.run cfg s.queue tid stop pick = some (q', event)) : FullWhileWaiting q' := by
  cases run_cases hrun with
  | refused => exact h
  | pushed v _ _ hroom =>
      intro hwaits
      rw [traitsPush_notFull] at hwaits
      have hfull := (h hwaits).1
      omega
  | pushWaits _ hopen hfull => exact fun _ => ⟨hfull, hopen⟩
  | popped _ _ hpop => exact fun hwaits => absurd (pop_wakes hplaced hone h hpop) hwaits
  | popWaits => exact h
  | resized hop => rcases hop with rfl | rfl <;> cases hfixed
  | cleared | closed | reopened => exact fun hwaits => absurd rfl hwaits

/-- The invariant of the runs with the promised roles and a fixed capacity. -/
structure NoneStranded (cfg : CvQueueConfig) (s : System Tid T) : Prop where
  placed : Placed s
  onePerRole : OnePerRole cfg s
  fixed : ∀ tid op, s.call tid = some op → op.setsCapacity = false
  full : FullWhileWaiting s.queue
  empty : EmptyWhileWaiting s.queue

theorem noneStranded_start (capacity : Int) :
    NoneStranded cfg (start capacity : System Tid T) where
  placed := placed_start capacity
  onePerRole := ⟨fun _ => nofun, fun _ => nofun⟩
  fixed := nofun
  full := fun hwaits => absurd rfl hwaits
  empty := fun hwaits => absurd rfl hwaits

variable [DecidableEq Tid]

/-- The call of a thread other than the one whose section ended is the same. -/
theorem finish_call (s : System Tid T) (tid : Tid) (q : CvQueue Tid T)
    (event : Option (CvQueueEvent T)) (other : Tid) :
    (s.finish tid q event).call other = s.call other ∨
      event ≠ none ∧ other = tid ∧ (s.finish tid q event).call other = none := by
  cases event with
  | none => exact Or.inl rfl
  | some e =>
      by_cases h : other = tid
      · exact Or.inr ⟨nofun, h, by simp [System.finish, h]⟩
      · exact Or.inl (by simp [System.finish, h])

theorem Placed.step (h : Placed s) (hstep : CvQueue.step cfg s a = some t) : Placed t := by
  rcases step_inv hstep with ⟨tid, op, _, hidle, hq, hcall, _, _⟩ |
      ⟨tid, pick, op, q, event, _, hop, hrunning, hrun, rfl⟩ | ⟨-, hwoken, hcall, _⟩
  · apply h.of_sublist
    · intro other hwaits
      have hne : other ≠ tid := fun heq => h.call_of_waiting hwaits (heq ▸ hidle)
      simp [hcall, hne]
    · rw [hq]
    · rw [hq]
  · rcases run_waits_or_ends hrun with ⟨rfl, hpush, rfl, _⟩ | ⟨rfl, hpop, rfl, _⟩ |
        ⟨hevent, hfull, hempty⟩
    · refine ⟨?_, h.popping, ?_, h.nodupEmpty⟩
      · intro other hother
        rcases List.mem_cons.mp hother with rfl | hother
        · exact ⟨op, hop, hpush⟩
        · exact h.pushing other hother
      · exact h.nodupFull.cons fun hmem => hrunning (Or.inl hmem)
    · refine ⟨h.pushing, ?_, h.nodupFull, ?_⟩
      · intro other hother
        rcases List.mem_cons.mp hother with rfl | hother
        · exact ⟨op, hop, hpop⟩
        · exact h.popping other hother
      · exact h.nodupEmpty.cons fun hmem => hrunning (Or.inr hmem)
    · apply h.of_sublist
      · intro other hwaits
        rcases finish_call s tid q event other with hsame | ⟨_, rfl, _⟩
        · exact hsame
        · exact absurd hwaits hrunning
      · rw [finish_queue]
        exact hfull
      · rw [finish_queue]
        exact hempty
  · exact h.of_sublist (fun _ _ => by rw [hcall]) hwoken.notFull hwoken.notEmpty

/-- A thread is in a call because it was, or because it starts it now. -/
theorem inCall_step {kind : Op T → Bool} {other : Tid} (hstep : CvQueue.step cfg s a = some t)
    (h : InCall kind t other) :
    InCall kind s other ∨ ∃ op, a = .invoke other op ∧ kind op = true := by
  obtain ⟨op', hop', hkind⟩ := h
  rcases step_inv hstep with ⟨tid, op, rfl, _, _, hcall, _, _⟩ |
      ⟨tid, pick, op, q, event, rfl, hop, _, _, rfl⟩ | ⟨-, _, hcall, _⟩
  · by_cases heq : other = tid
    · subst heq
      rw [hcall, Function.update_self] at hop'
      cases hop'
      exact Or.inr ⟨_, rfl, hkind⟩
    · rw [hcall, Function.update_of_ne heq] at hop'
      exact Or.inl ⟨op', hop', hkind⟩
  · rcases finish_call s tid q event other with hsame | ⟨_, _, hnone⟩
    · exact Or.inl ⟨op', by rw [← hsame, hop'], hkind⟩
    · simp [hnone] at hop'
  · exact Or.inl ⟨op', by rw [← hcall, hop'], hkind⟩

theorem unique_step {kind : Op T → Bool} (hstep : CvQueue.step cfg s a = some t)
    (hone : ∀ tid tid', InCall kind s tid → InCall kind s tid' → tid = tid')
    (hstart : ∀ tid op, a = .invoke tid op → kind op = true →
      ∀ other, InCall kind s other → other = tid) :
    ∀ tid tid', InCall kind t tid → InCall kind t tid' → tid = tid' := by
  intro tid tid' h h'
  rcases inCall_step hstep h with hold | ⟨op, rfl, hkind⟩
  · rcases inCall_step hstep h' with hold' | ⟨op', rfl, hkind'⟩
    · exact hone tid tid' hold hold'
    · exact hstart tid' op' rfl hkind' tid hold
  · rcases inCall_step hstep h' with hold' | ⟨op', hsame, _⟩
    · exact (hstart tid op rfl hkind tid' hold').symm
    · cases hsame
      rfl

theorem OnePerRole.step (h : OnePerRole cfg s) (hroles : KeepsRoles cfg s a)
    (hstep : CvQueue.step cfg s a = some t) : OnePerRole cfg t where
  producer := by
    intro hsingle
    apply unique_step hstep (h.producer hsingle)
    rintro tid op rfl hpush
    exact hroles.1 hpush hsingle
  consumer := by
    intro hsingle
    apply unique_step hstep (h.consumer hsingle)
    rintro tid op rfl hpop
    exact hroles.2 hpop hsingle

theorem fixed_step (h : ∀ tid op, s.call tid = some op → op.setsCapacity = false)
    (hkeeps : KeepsCapacity a) (hstep : CvQueue.step cfg s a = some t) :
    ∀ tid op, t.call tid = some op → op.setsCapacity = false := by
  intro tid op hop
  by_contra hsets
  simp only [Bool.not_eq_false] at hsets
  rcases inCall_step hstep ⟨op, hop, hsets⟩ with ⟨op', hop', hsets'⟩ | ⟨op', rfl, hsets'⟩
  · simp [h tid op' hop'] at hsets'
  · have hfixed : op'.setsCapacity = false := hkeeps
    simp [hfixed] at hsets'

theorem NoneStranded.step (h : NoneStranded cfg s) (hroles : KeepsRoles cfg s a)
    (hkeeps : KeepsCapacity a) (hstep : CvQueue.step cfg s a = some t) : NoneStranded cfg t := by
  have hplaced := h.placed.step hstep
  have honePerRole := h.onePerRole.step hroles hstep
  have hfixed := fixed_step h.fixed hkeeps hstep
  rcases step_inv hstep with ⟨tid, op, _, _, hq, _, _, _⟩ |
      ⟨tid, pick, op, q, event, _, hop, _, hrun, rfl⟩ | ⟨-, hwoken, _, _⟩
  · exact ⟨hplaced, honePerRole, hfixed, by rw [hq]; exact h.full, by rw [hq]; exact h.empty⟩
  · refine ⟨hplaced, honePerRole, hfixed, ?_, ?_⟩
    · rw [finish_queue]
      exact run_fullWhileWaiting h.placed h.onePerRole h.full (h.fixed tid op hop) hrun
    · rw [finish_queue]
      exact run_emptyWhileWaiting h.placed h.onePerRole h.empty hrun
  · exact ⟨hplaced, honePerRole, hfixed, h.full.woken hwoken, h.empty.woken hwoken⟩

/-- For each of the four modes, with at most one producer and one consumer
where the mode says so, and any interleaving of calls that leave the capacity
as it is: a thread that waits on `cv_not_full_` without a notification sees a
full, open queue, and one that waits so on `cv_not_empty_` an empty, open one. -/
theorem no_wakeup_lost {capacity : Int} {acts : List (Action Tid T)}
    (hrun : (system Tid T cfg capacity).GoodRun
      (fun s a => KeepsRoles cfg s a ∧ KeepsCapacity a) acts s) :
    (∀ tid ∈ s.queue.notFull.waiting,
      s.queue.capacity ≤ (s.queue.buf.length : Int) ∧ s.queue.closed = false) ∧
    (∀ tid ∈ s.queue.notEmpty.waiting, s.queue.buf = [] ∧ s.queue.closed = false) := by
  have h : NoneStranded cfg s := hrun.invariant (noneStranded_start capacity)
    fun _ _ _ _ hgood hs hstep => hs.step hgood.1 hgood.2 hstep
  exact ⟨fun tid htid => h.full (List.ne_nil_of_mem htid),
    fun tid htid => h.empty (List.ne_nil_of_mem htid)⟩

/-- A producer alone on a `spsc` vector of capacity one waits with its second
value, and what it sees is a full queue. -/
theorem no_wakeup_lost_full_queue :
    ∃ s, (system (Fin 1) Nat ⟨.spsc, .vector, 100⟩ 1).GoodRun
        (fun s a => KeepsRoles ⟨.spsc, .vector, 100⟩ s a ∧ KeepsCapacity a)
        [.invoke 0 (.pushWait false 1), .lock 0 0, .invoke 0 (.pushWait false 2), .lock 0 0] s ∧
      s.queue.notFull.waiting = [0] ∧
      s.queue.capacity ≤ (s.queue.buf.length : Int) ∧ s.queue.closed = false := by
  obtain ⟨s, hreach, hwaiting⟩ := (system (Fin 1) Nat ⟨.spsc, .vector, 100⟩ 1).exists_of_map
    [.invoke 0 (.pushWait false 1), .lock 0 0, .invoke 0 (.pushWait false 2), .lock 0 0]
    (b := [0]) (fun s => s.queue.notFull.waiting) rfl
  have hgood : ∀ a ∈ [.invoke 0 (.pushWait false 1), .lock 0 0,
      .invoke 0 (.pushWait false 2), .lock 0 0], ∀ s : System (Fin 1) Nat,
      KeepsRoles ⟨.spsc, .vector, 100⟩ s a ∧ KeepsCapacity a := by
    intro a ha s
    simp only [List.mem_cons, List.not_mem_nil, or_false] at ha
    rcases ha with rfl | rfl | rfl | rfl
    · exact ⟨⟨fun _ _ _ _ => Subsingleton.elim _ _, nofun⟩, rfl⟩
    · exact ⟨trivial, trivial⟩
    · exact ⟨⟨fun _ _ _ _ => Subsingleton.elim _ _, nofun⟩, rfl⟩
    · exact ⟨trivial, trivial⟩
  have hrun := TransitionSystem.GoodRun.of_forall hreach hgood
  exact ⟨s, hrun, hwaiting, (no_wakeup_lost hrun).1 0 (by simp [hwaiting])⟩

end YkUtil.Exec.CvQueue
