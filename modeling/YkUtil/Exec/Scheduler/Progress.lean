import YkUtil.Exec.Scheduler.Completion

/-!
Whether the workers can all stop before the tasks are done, when a consumer
call pops one value. They cannot once there is an input to claim: the fixed
producer stops producing at the end of the input only, so the last chunk is
reported, and no worker waits for a value with another one in its hands. With
no input to claim no chunk is ever reported, the flag for the processed inputs
stays down, and all workers wait for a value that nobody pushes.
-/

namespace YkUtil.Exec

open YkUtil.Lib

namespace WorkerPc

variable {T : Type*}

/-- The worker is in `do_worker_producer`, or has not come out of it. -/
def Producing : WorkerPc T → Prop
  | .claim | .threw _ | .undefined => True
  | pc => pc.InChunk

theorem InChunk.producing {pc : WorkerPc T} (h : pc.InChunk) : pc.Producing := by
  cases pc with
  | produce | push | producerUpdate => trivial
  | _ => exact h.elim

/-- A consumer call pops exactly one value. -/
def onePop : WorkerPc T → WorkerAction T → Bool
  | .consume gate _, .callPop => gate == 0
  | .consume gate _, .endCall => gate == 1
  | _, _ => true

end WorkerPc

namespace Scheduler

variable {W : Nat} {T : Type*}

def OnePop (s : Scheduler W T) : SchedulerAction W T → Prop
  | .worker id action => (s.pc id).onePop action = true
  | .setProducerChunkSize _ => True

instance (s : Scheduler W T) (a : SchedulerAction W T) : Decidable (OnePop s a) :=
  match a with
  | .worker id action => inferInstanceAs (Decidable ((s.pc id).onePop action = true))
  | .setProducerChunkSize _ => inferInstanceAs (Decidable True)

/-- Every worker has left its loop or is blocked in `pop_wait`. -/
def Stuck (s : Scheduler W T) : Prop :=
  ∀ id, s.pc id = .left ∨ ∃ gate taken, s.pc id = .pop gate taken ∧ s.queue = []

theorem afterProducer_fixed (ok reachesOne : Bool) :
    (afterProducer .fixedProducer ok reachesOne : WorkerPc T).Producing ∨ ok = false := by
  cases ok
  · exact .inr rfl
  · exact .inl trivial

theorem afterProducer_goes_on (kind : WorkerKind) (ok reachesOne : Bool) :
    (afterProducer kind ok reachesOne : WorkerPc T) = .claim ∨
      afterProducer kind ok reachesOne = startConsumer (T := T) := by
  cases kind <;> cases ok <;> cases reachesOne <;> simp [afterProducer]

theorem afterConsumer_goes_on (kind : WorkerKind) (reachesOne : Bool) :
    (afterConsumer kind true reachesOne : WorkerPc T) = .claim ∨
      afterConsumer kind true reachesOne = startConsumer (T := T) := by
  cases kind <;> cases reachesOne <;> simp [afterConsumer]

theorem afterConsumer_false (kind : WorkerKind) (reachesOne : Bool) :
    (afterConsumer kind false reachesOne : WorkerPc T) = .left := by
  cases kind <;> rfl

variable {cfg : SchedulerConfig} {s t : Scheduler W T} {id : Fin W} {pc : WorkerPc T}

/-- Once everything is finished nothing is counted any more, and it stays finished. -/
theorem ValueInv.finished_step {a : SchedulerAction W T} (h : ValueInv s)
    (hfinished : Finished cfg s) (hstep : Scheduler.step cfg s a = some t) :
    t.stats = s.stats ∧ Finished cfg t := by
  obtain ⟨hend, hout, hsettled⟩ := hfinished
  obtain ⟨hqueue, htaken⟩ := h.nothing_left hsettled
  have hstays (id : Fin W) {pc : WorkerPc T} (hpc : ¬ pc.InChunk) (other : Fin W) :
      ¬ (Function.update s.pc id pc other).InChunk :=
    (Function.forall_update_iff s.pc fun _ pc => ¬ pc.InChunk).mpr
      ⟨hpc, fun other _ => hout other⟩ other
  cases a with
  | setProducerChunkSize chunkSize =>
      cases hstep
      exact ⟨rfl, hend, hout, hsettled⟩
  | worker id action =>
      have hidle := hout id
      have hempty := htaken id
      have hsound := h.sound id
      cases workerStep_cases hstep with
      | endOfInput | callsPop | endsCall => exact ⟨rfl, hend, hstays id (fun hno => hno), hsettled⟩
      | claims _ hmore => exact absurd hend hmore
      | callsPush _ hpc | pushes hpc | endsInput hpc | endsChunk hpc | reports _ hpc =>
          rw [hpc] at hidle
          exact absurd trivial hidle
      | pops _ hv => simp [hqueue] at hv
      | settles reachesOne hpc =>
          obtain ⟨ok, r, n, heq, _⟩ := consumerUpdate_eq s id _ _ reachesOne
          rw [hpc] at hempty hsound
          simp only [WorkerPc.taken] at hempty
          have hgate := hsound.trans (congrArg Multiset.card hempty)
          rw [heq, hgate, hempty]
          exact ⟨rfl, hend, hstays id (afterConsumer_chunk _ ok r).1,
            (add_zero s.settled).trans hsettled⟩

theorem afterProducer_ne_left (kind : WorkerKind) (ok r : Bool) :
    (afterProducer kind ok r : WorkerPc T) ≠ .left := by
  rcases afterProducer_goes_on (T := T) kind ok r with hgoes | hgoes <;>
    simp [hgoes, startConsumer]

theorem afterConsumer_left {kind : WorkerKind} {ok r : Bool}
    (h : (afterConsumer kind ok r : WorkerPc T) = .left) : ok = false := by
  cases ok
  · rfl
  · rcases afterConsumer_goes_on (T := T) kind r with hgoes | hgoes <;>
      simp [hgoes, startConsumer] at h

/-- A worker leaves its loop when the tasks are done. -/
theorem done_of_leaves (h : InputInv cfg s) {action : WorkerAction T}
    (hstep : s.workerStep cfg id (s.pc id) action = some t) (hleft : t.pc id = .left) :
    t.stats.isAllTaskDone = true := by
  have hself (u : Scheduler W T) (pc : WorkerPc T) (hpc : (u.move id pc).pc id = .left) :
      pc = .left := by
    have hnew : (u.move id pc).pc id = pc := Function.update_self _ _ _
    exact hnew.symm.trans hpc
  cases workerStep_cases hstep with
  | settles reachesOne hpc =>
      obtain ⟨ok, r, n, heq, -, hdone⟩ := consumerUpdate_eq s id _ _ reachesOne
      rw [heq] at hleft
      exact hdone (afterConsumer_left (hself _ _ hleft))
  | @reports chunk gate reachesOne hpc =>
      rcases producerUpdate_cases s id chunk gate reachesOne with
        ⟨_, -, heq⟩ | ⟨_, _, _, -, heq, -⟩ <;> rw [heq] at hleft
      · cases hself _ _ hleft
      · exact absurd (hself _ _ hleft) (afterProducer_ne_left _ _ _)
  | claims hpc hmore =>
      rcases claim_cases id h hmore with ⟨-, heq⟩ | ⟨chunk, -, heq⟩ <;> rw [heq] at hleft
      · cases hself _ _ hleft
      · have hin := enterChunk_inChunk (T := T) chunk
        rw [hself _ _ hleft] at hin
        exact hin.elim
  | _ => cases hself _ _ hleft

/-- Where the claims fit, the first worker that leaves its loop finds the tasks done, and
they stay done. -/
theorem done_of_left {acts : List (SchedulerAction cfg.workers T)} {s : Scheduler cfg.workers T}
    (h : (system cfg T).GoodRun (Fits cfg) acts s) :
    ∀ id, s.pc id = .left → s.stats.isAllTaskDone = true := by
  refine (h.invariant (P := fun s => Inv cfg s ∧
    ∀ id, s.pc id = .left → s.stats.isAllTaskDone = true) ⟨inv_start cfg, fun id hleft => ?_⟩ ?_).2
  · change (start cfg T).pc id = .left at hleft
    rcases start_head (T := T) cfg id with hhead | hhead <;> rw [hhead] at hleft <;> cases hleft
  · intro s a t _ hfits ⟨hinv, hdone⟩ hstep
    refine ⟨hinv.step hfits hstep, fun id hleft => ?_⟩
    have hstays (hold : s.pc id = .left) : t.stats.isAllTaskDone = true := by
      have hbefore := hdone id hold
      rw [(hinv.values.finished_step (hinv.finished_of_done hbefore) hstep).1]
      exact hbefore
    cases a with
    | setProducerChunkSize chunkSize =>
        cases hstep
        exact hdone id hleft
    | worker other action =>
        by_cases heq : id = other
        · subst heq
          exact done_of_leaves hinv.chunks.toInputInv hstep hleft
        · exact hstays ((workerStep_pc_of_ne heq hstep).symm.trans hleft)

/-- Where the workers stop producing, leave and wait. -/
structure Stops (cfg : SchedulerConfig) (s : Scheduler W T) : Prop where
  producer : ∀ id : Fin W, id.val = 1 → (s.pc id).Producing ∨ s.pos = cfg.inputs
  left : ∀ _ : Fin W, (∀ id, s.pc id = .left) → s.stats.isAllTaskDone = true
  popping : ∀ id gate taken, s.pc id = .pop gate taken → taken = []

theorem stops_start (cfg : SchedulerConfig) : Stops cfg (start cfg T) := by
  refine ⟨fun id hid => .inl ?_, fun id hleft => ?_, fun id gate taken hpop => ?_⟩
  · simp [start, hid, WorkerPc.Producing]
  · have hleft := hleft id
    rcases start_head (T := T) cfg id with hhead | hhead <;> rw [hhead] at hleft <;> cases hleft
  · rcases start_head (T := T) cfg id with hhead | hhead <;> rw [hhead] at hpop <;> cases hpop

/-- Worker `id` goes on at `pc`, which may stop producing at the end of the
input and leave when the tasks are done. -/
theorem Stops.move (h : Stops cfg s) (hpc : t.pc = Function.update s.pc id pc)
    (hpos : s.pos = cfg.inputs → t.pos = cfg.inputs)
    (hproducer : id.val = 1 → pc.Producing ∨ t.pos = cfg.inputs)
    (hleft : pc = .left → t.stats.isAllTaskDone = true)
    (hpop : ∀ gate taken, pc = .pop gate taken → taken = []) : Stops cfg t := by
  have hself : t.pc id = pc := by rw [hpc, Function.update_self]
  have hothers {other : Fin W} (hne : other ≠ id) : t.pc other = s.pc other := by
    rw [hpc, Function.update_of_ne hne]
  refine ⟨fun other hother => ?_, fun _ hall => ?_, fun other gate taken hother => ?_⟩
  · by_cases heq : other = id
    · subst heq
      rw [hself]
      exact hproducer hother
    · rw [hothers heq]
      exact (h.producer other hother).imp_right hpos
  · exact hleft (hself.symm.trans (hall id))
  · by_cases heq : other = id
    · subst heq
      exact hpop gate taken (hself.symm.trans hother)
    · exact h.popping other gate taken ((hothers heq).symm.trans hother)

/-- Worker `id` goes on producing. -/
theorem Stops.produce (h : Stops cfg s) (hpc : t.pc = Function.update s.pc id pc)
    (hproducing : pc.Producing) (hpos : s.pos = cfg.inputs → t.pos = cfg.inputs) :
    Stops cfg t := by
  refine h.move hpc hpos (fun _ => .inl hproducing) ?_ ?_
  · rintro rfl
    exact absurd hproducing (fun hno => hno)
  · rintro gate taken rfl
    exact absurd hproducing (fun hno => hno)

theorem Stops.workerStep (hstops : Stops cfg s) (h : BaseInv cfg s) {action : WorkerAction T}
    (hone : (s.pc id).onePop action = true)
    (hstep : s.workerStep cfg id (s.pc id) action = some t) : Stops cfg t := by
  have hended (hconsuming : ¬ (s.pc id).Producing) (hid : id.val = 1) : s.pos = cfg.inputs :=
    (hstops.producer id hid).resolve_left hconsuming
  have hleft := done_of_leaves h.input hstep
  cases workerStep_cases hstep with
  | endOfInput hpc hend =>
      exact hstops.move rfl (fun hno => hno) (fun _ => .inr hend) (by simp [startConsumer])
        (by simp [startConsumer])
  | claims hpc hmore =>
      rcases claim_cases id h.input hmore with ⟨-, heq⟩ | ⟨chunk, -, heq⟩ <;> rw [heq]
      · exact hstops.produce rfl trivial (fun hno => absurd hno hmore)
      · exact hstops.produce rfl (enterChunk_inChunk chunk).producing
          (fun hno => absurd hno hmore)
  | callsPush | pushes | endsInput | endsChunk =>
      exact hstops.produce rfl trivial (fun hend => hend)
  | @reports chunk gate reachesOne hpc =>
      rcases producerUpdate_cases s id chunk gate reachesOne with
        ⟨_, -, heq⟩ | ⟨ok, r, n, -, heq, -, hends⟩ <;> rw [heq]
      · exact hstops.produce rfl trivial (fun hend => hend)
      · refine hstops.move rfl (fun hend => hend) (fun hid => ?_)
          (fun hleft => absurd hleft (afterProducer_ne_left _ _ _)) ?_
        · rw [hid]
          refine (afterProducer_fixed ok r).imp_right fun hok => ?_
          rcases hends hok with hdone | hall
          · exact ((h.input.reportedChunk hpc gate (n := n)
              (afterProducer_chunk (.ofId id.val) ok r).1).claimed_of_done hdone).2
          · exact (h.input.consumedAll.mp hall).2
        · rcases afterProducer_goes_on (T := T) (.ofId id.val) ok r with hgoes | hgoes <;>
            simp [hgoes, startConsumer]
  | callsPop hpc =>
      have hsound := h.values.sound id
      rw [hpc] at hone hended hsound
      refine hstops.move rfl (fun hend => hend)
        (fun hid => .inr (hended (fun hno => hno) hid)) (by simp) ?_
      rintro _ _ ⟨⟩
      simp only [WorkerPc.onePop, beq_iff_eq] at hone
      simpa [WorkerPc.Sound, hone, eq_comm] using hsound
  | endsCall hpc | pops hpc =>
      rw [hpc] at hended
      exact hstops.move rfl (fun hend => hend)
        (fun hid => .inr (hended (fun hno => hno) hid)) (by simp) (by simp)
  | settles reachesOne hpc =>
      obtain ⟨ok, r, n, heq, -, hdone⟩ := consumerUpdate_eq s id _ _ reachesOne
      rw [hpc] at hended
      rw [heq] at hdone ⊢
      refine hstops.move rfl (fun hend => hend) (fun hid => .inr (hended (fun hno => hno) hid))
        (fun hgone => hdone (afterConsumer_left hgone)) ?_
      cases ok
      · simp [afterConsumer_false]
      · rcases afterConsumer_goes_on (T := T) (.ofId id.val) r with hgoes | hgoes <;>
          simp [hgoes, startConsumer]

theorem Stops.step {a : SchedulerAction W T} (hstops : Stops cfg s) (h : BaseInv cfg s)
    (hone : OnePop s a) (hstep : Scheduler.step cfg s a = some t) : Stops cfg t := by
  cases a with
  | worker id action => exact hstops.workerStep h hone hstep
  | setProducerChunkSize chunkSize =>
      cases hstep
      exact ⟨hstops.producer, hstops.left, hstops.popping⟩

theorem stops_of_run {acts : List (SchedulerAction cfg.workers T)} {s : Scheduler cfg.workers T}
    (h : (system cfg T).GoodRun OnePop acts s) : Stops cfg s :=
  h.invariant (stops_start cfg) fun _ _ _ hreach hone hstops hstep =>
    hstops.step (baseInv_of_reachable hreach) hone hstep

/-- In a stuck state the fixed producer has seen the end of the input and
nobody holds a chunk or a value, so nothing is missing. -/
theorem BaseInv.done_of_stuck (h : BaseInv cfg s) (hstops : Stops cfg s) (hworkers : 1 < W)
    (hinputs : cfg.first < cfg.inputs) (hstuck : Stuck s) : s.stats.isAllTaskDone = true := by
  by_cases hleft : ∀ id, s.pc id = .left
  · exact hstops.left ⟨1, hworkers⟩ hleft
  · obtain ⟨waiting, hwaits⟩ := not_forall.mp hleft
    obtain ⟨-, -, -, hqueue⟩ := (hstuck waiting).resolve_left hwaits
    have hrests (id : Fin W) : ¬ (s.pc id).Producing ∧ (s.pc id).taken = 0 := by
      obtain hid | ⟨gate, taken, hid, -⟩ := hstuck id
      · rw [hid]
        exact ⟨fun hno => hno, rfl⟩
      · rw [hstops.popping id gate taken hid] at hid
        rw [hid]
        exact ⟨fun hno => hno, rfl⟩
    have hout (id : Fin W) : ¬ (s.pc id).InChunk := fun hin => (hrests id).1 hin.producing
    have hend : s.pos = cfg.inputs :=
      (hstops.producer ⟨1, hworkers⟩ rfl).resolve_left (hrests _).1
    have hall := h.input.consumedAll.mpr ⟨hinputs, hend⟩
    refine (SchedulerStats.isAllTaskDone_iff _).mpr ⟨h.input.reported hall hout, ?_⟩
    refine (h.values.settled_iff hout).mpr ?_
    have htaken : heldBy WorkerPc.taken s.pc = 0 := heldBy_eq_zero fun id => (hrests id).2
    rw [h.values.values, hqueue, htaken, Multiset.coe_nil, zero_add, add_zero]

/-- A worker that finds no input goes on as a consumer. -/
theorem exists_consuming {acts : List (SchedulerAction cfg.workers T)}
    {s : Scheduler cfg.workers T} {id : Fin cfg.workers}
    (hrun : (system cfg T).GoodRun OnePop acts s) (hend : s.pos = cfg.inputs)
    (hpc : s.pc id = (start cfg T).pc id) :
    ∃ acts', (system cfg T).GoodRun OnePop acts' (s.move id startConsumer) := by
  simp only [start] at hpc
  split at hpc
  · refine ⟨acts, ?_⟩
    rwa [move, ← hpc, Function.update_eq_self]
  · refine ⟨acts ++ [.worker id .claim], hrun.snoc ?_ ?_⟩
    · simp [OnePop, hpc, WorkerPc.onePop]
    · simp [system, step, hpc, workerStep, claim_of_end hend]

/-- With no input to claim, any set of workers can be made to wait for a
value. -/
theorem exists_waiting (hend : cfg.first = cfg.inputs) (waiting : Finset (Fin cfg.workers)) :
    ∃ acts s, (system cfg T).GoodRun OnePop acts s ∧ s.pos = cfg.inputs ∧ s.queue = [] ∧
      s.stats = (start cfg T).stats ∧
      ∀ id, s.pc id = if id ∈ waiting then .pop 1 [] else (start cfg T).pc id := by
  induction waiting using Finset.induction_on with
  | empty => exact ⟨[], start cfg T, .nil, hend, rfl, rfl, by simp⟩
  | insert id waiting hnew ih =>
      obtain ⟨acts, s, hrun, hpos, hqueue, hstats, hpc⟩ := ih
      obtain ⟨acts', hrun'⟩ := exists_consuming hrun hpos (by rw [hpc id, if_neg hnew])
      have hcall : (system cfg T).step (s.move id startConsumer) (.worker id .callPop) =
          some (s.move id (.pop 1 [])) := by
        simp [system, step, move, workerStep, startConsumer]
      refine ⟨acts' ++ [.worker id .callPop], s.move id (.pop 1 []), hrun'.snoc ?_ hcall, hpos,
        hqueue, hstats, fun other => ?_⟩
      · simp [OnePop, move, startConsumer, WorkerPc.onePop]
      · by_cases heq : other = id
        · subst heq
          simp [move]
        · simp [move, heq, hpc other]

/-- For any number of workers from two on, any input range, any chunk sizes and
any capacity, in any interleaving in which a consumer call pops exactly one
value: no state is stuck short of completion if and only if the claim iterator
starts before the end of the range. -/
theorem stuck_done_iff_input_to_claim (hworkers : 2 ≤ cfg.workers) :
    (∀ acts s, (system cfg T).GoodRun OnePop acts s → Stuck s →
      s.stats.isAllTaskDone = true) ↔ cfg.first < cfg.inputs := by
  constructor
  · intro hall
    by_contra hnone
    have hend : cfg.first = cfg.inputs := by
      have := (inputInv_start (T := T) cfg).posLe
      exact Nat.le_antisymm this (Nat.not_lt.mp hnone)
    obtain ⟨acts, s, hrun, _, hqueue, hstats, hpc⟩ := exists_waiting (T := T) hend Finset.univ
    have hdone := hall acts s hrun fun id => .inr ⟨1, [], by simp [hpc id], hqueue⟩
    rw [hstats] at hdone
    exact absurd hdone (by simp [start, SchedulerStats.ofInputs, SchedulerStats.isAllTaskDone])
  · intro hinputs acts s hrun hstuck
    exact (baseInv_of_reachable hrun.reaches.reachable).done_of_stuck (stops_of_run hrun)
      hworkers hinputs hstuck

/-- With one input the fixed consumer leaves and the fixed producer waits for a
second value, and the tasks are done. -/
theorem stuck_done_iff_input_to_claim_one_input :
    ∃ acts s, (system ⟨1, true, false, 1, 2, int32⟩ Nat).GoodRun OnePop acts s ∧ Stuck s ∧
      s.pc 0 = .left ∧ s.pc 1 = .pop 1 [] ∧ s.stats.isAllTaskDone = true := by
  obtain ⟨s, hrun, hs⟩ := ((system ⟨1, true, false, 1, 2, int32⟩ Nat).restrict OnePop).exists_of_map
    [.worker 1 .claim, .worker 1 (.callPush 7), .worker 1 .push, .worker 1 .endInput,
      .worker 1 (.producerUpdate false), .worker 0 .callPop, .worker 0 (.pop 0),
      .worker 0 .endCall, .worker 0 (.consumerUpdate false), .worker 1 .callPop]
    (b := (.left, .pop 1 [], [])) (fun s => (s.pc 0, s.pc 1, s.queue)) rfl
  simp only [Prod.mk.injEq] at hs
  obtain ⟨hconsumer, hproducer, hqueue⟩ := hs
  have hgood := TransitionSystem.GoodRun.of_restrict hrun
  have hstuck : Stuck s := Fin.forall_fin_two.mpr
    ⟨.inl hconsumer, .inr ⟨1, [], hproducer, hqueue⟩⟩
  exact ⟨_, s, hgood, hstuck, hconsumer, hproducer,
    (stuck_done_iff_input_to_claim (Nat.le_refl 2)).mpr (by decide) _ s hgood hstuck⟩

/-- On an empty input range both workers wait for a value, and the tasks are
not done. -/
theorem stuck_on_empty_input :
    ∃ acts s, (system ⟨0, true, false, 1, 2, int32⟩ Nat).GoodRun OnePop acts s ∧ Stuck s ∧
      s.stats.isAllTaskDone = false := by
  obtain ⟨s, hrun, hs⟩ := ((system ⟨0, true, false, 1, 2, int32⟩ Nat).restrict OnePop).exists_of_map
    [.worker 0 .callPop, .worker 1 .claim, .worker 1 .callPop]
    (b := (.pop 1 [], .pop 1 [], [], false))
    (fun s => (s.pc 0, s.pc 1, s.queue, s.stats.isAllTaskDone)) rfl
  simp only [Prod.mk.injEq] at hs
  obtain ⟨hconsumer, hproducer, hqueue, hdone⟩ := hs
  have hstuck : Stuck s := Fin.forall_fin_two.mpr
    ⟨.inr ⟨1, [], hconsumer, hqueue⟩, .inr ⟨1, [], hproducer, hqueue⟩⟩
  exact ⟨_, s, TransitionSystem.GoodRun.of_restrict hrun, hstuck, hdone⟩

end Scheduler

end YkUtil.Exec
