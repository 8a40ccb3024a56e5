import Mathlib.Tactic.Abel
import YkUtil.Exec.Scheduler.Chunks

/-!
When `is_all_task_done` holds. The three counters and two flags are compared
in two blocks and may agree for a while by accident; what rules that out is
that a chunk counts its pushes only when it is finished, and that the flag for
the processed inputs waits for the last chunk. It waits as long as the chunk sizes fit
the difference type.
-/

namespace YkUtil.Exec

open YkUtil.Lib

namespace WorkerPc

variable {T : Type*}

/-- The values pushed in that chunk so far. A pending push is in the gate's
count already. -/
def pushes : WorkerPc T → Nat
  | .produce _ _ gate | .producerUpdate _ gate => gate
  | .push _ _ gate _ => gate - 1
  | _ => 0

/-- The values the worker has popped in the call it is in. -/
def taken : WorkerPc T → Multiset T
  | .consume _ values | .pop _ values | .consumerUpdate _ values => values
  | _ => 0

/-- What holds of a program counter whatever the other workers do. -/
def Sound : WorkerPc T → Prop
  | .push _ _ gate _ => 1 ≤ gate
  | .consume gate values | .consumerUpdate gate values => gate = values.length
  | .pop gate values => gate = values.length + 1
  | _ => True

/-- A worker that holds nothing. -/
structure Idle (pc : WorkerPc T) : Prop where
  pushes : pc.pushes = 0
  taken : pc.taken = 0
  sound : pc.Sound

theorem pushes_of_not_inChunk {pc : WorkerPc T} (h : ¬ pc.InChunk) : pc.pushes = 0 := by
  cases pc with
  | produce | push | producerUpdate => exact absurd trivial h
  | _ => rfl

end WorkerPc

namespace Scheduler

variable {W : Nat} {T : Type*}

theorem enterChunk_idle (chunk : Chunk) : (enterChunk chunk : WorkerPc T).Idle := by
  unfold enterChunk
  split <;> exact ⟨rfl, rfl, trivial⟩

theorem afterProducer_idle (kind : WorkerKind) (ok reachesOne : Bool) :
    (afterProducer kind ok reachesOne : WorkerPc T).Idle := by
  cases kind <;> cases ok <;> cases reachesOne <;> exact ⟨rfl, rfl, by trivial⟩

theorem afterConsumer_idle (kind : WorkerKind) (ok reachesOne : Bool) :
    (afterConsumer kind ok reachesOne : WorkerPc T).Idle := by
  cases kind <;> cases ok <;> cases reachesOne <;> exact ⟨rfl, rfl, by trivial⟩

/-- The counters on the side of the values say what has been pushed and popped, except
for what the workers still hold. -/
structure ValueInv (s : Scheduler W T) : Prop where
  sound : ∀ id, (s.pc id).Sound
  output : s.pushed.card = s.stats.producerOutput + heldBy WorkerPc.pushes s.pc
  settledCount : s.settled.card = s.stats.consumerInputProcessed
  values : s.pushed = s.queue + s.settled + heldBy WorkerPc.taken s.pc

theorem valueInv_start (cfg : SchedulerConfig) : ValueInv (start cfg T) := by
  have hidle (id : Fin cfg.workers) : ((start cfg T).pc id).Idle := by
    rcases start_head (T := T) cfg id with hhead | hhead <;> rw [hhead] <;>
      exact ⟨rfl, rfl, by trivial⟩
  have hpushes := heldBy_eq_zero fun id => (hidle id).pushes
  have htaken := heldBy_eq_zero fun id => (hidle id).taken
  refine ⟨fun id => (hidle id).sound, ?_, rfl, ?_⟩
  · rw [hpushes]
    rfl
  · rw [htaken]
    rfl

variable {cfg : SchedulerConfig} {s t : Scheduler W T} {id : Fin W} {pc : WorkerPc T}

/-- The rule for a worker that goes on at `pc`. The counters change by what it held
before and holds now. -/
theorem ValueInv.exchange (h : ValueInv s) {old : WorkerPc T} (hold : s.pc id = old)
    (hpc : t.pc = Function.update s.pc id pc) (hsound : pc.Sound)
    (houtput : t.pushed.card + s.stats.producerOutput + old.pushes =
      s.pushed.card + t.stats.producerOutput + pc.pushes)
    (hsettledCount : t.settled.card = t.stats.consumerInputProcessed)
    (hvalues : t.pushed + (s.queue + s.settled + old.taken) =
      s.pushed + (t.queue + t.settled + pc.taken)) : ValueInv t := by
  subst hold
  have hpushes := heldBy_update WorkerPc.pushes s.pc id pc
  have htaken := heldBy_update WorkerPc.taken s.pc id pc
  rw [← hpc] at hpushes htaken
  refine ⟨?_, ?_, hsettledCount, ?_⟩
  · rw [hpc]
    exact (Function.forall_update_iff s.pc fun _ => WorkerPc.Sound).mpr
      ⟨hsound, fun other _ => h.sound other⟩
  · have := h.output
    omega
  · apply add_right_cancel (b := (s.queue + s.settled + (s.pc id).taken : Multiset T))
    calc t.pushed + (s.queue + s.settled + (s.pc id).taken)
        = s.pushed + (t.queue + t.settled + pc.taken) := hvalues
      _ = s.queue + s.settled + (heldBy WorkerPc.taken s.pc + pc.taken) +
          (t.queue + t.settled) := by
          rw [h.values]
          abel
      _ = t.queue + t.settled + heldBy WorkerPc.taken t.pc +
          (s.queue + s.settled + (s.pc id).taken) := by
          rw [← htaken]
          abel

/-- A worker goes on with what it holds. -/
theorem ValueInv.move (h : ValueInv s) {old : WorkerPc T} (hold : s.pc id = old)
    (hsound : pc.Sound) (hpushes : pc.pushes = old.pushes) (htaken : pc.taken = old.taken) :
    ValueInv (s.move id pc) := by
  refine h.exchange hold rfl hsound ?_ h.settledCount ?_
  · rw [hpushes]
    rfl
  · rw [htaken]
    rfl

theorem ValueInv.claim (h : ValueInv s) (hinput : InputInv cfg s) (hpc : s.pc id = .claim)
    (hne : s.pos ≠ cfg.inputs) : ValueInv (s.claim cfg id) := by
  rcases claim_cases id hinput hne with ⟨-, heq⟩ | ⟨chunk, -, heq⟩ <;> rw [heq]
  · exact h.move hpc trivial rfl rfl
  · have hidle := enterChunk_idle (T := T) chunk
    refine h.exchange hpc rfl hidle.sound ?_ h.settledCount ?_
    · rw [hidle.pushes]
      rfl
    · rw [hidle.taken]
      rfl

/-- A push adds its value to the queue and to what was pushed in the chunk. -/
theorem ValueInv.push (h : ValueInv s) {chunk : Chunk} {left gate : Nat} {v : T}
    (hpc : s.pc id = .push chunk left gate v) :
    ValueInv ({s with queue := s.queue ++ [v], pushed := s.pushed + {v}}.move id
      (.produce chunk left gate)) := by
  have hgate := h.sound id
  rw [hpc] at hgate
  simp only [WorkerPc.Sound] at hgate
  refine h.exchange hpc rfl trivial ?_ h.settledCount ?_
  · simp only [Scheduler.move, Multiset.card_add, Multiset.card_singleton, WorkerPc.pushes]
    omega
  · simp only [Scheduler.move, WorkerPc.taken, ← Multiset.coe_add, Multiset.coe_singleton]
    abel

/-- A pop moves a value from the queue into the hands of the worker. -/
theorem ValueInv.pop (h : ValueInv s) {gate index : Nat} {values : List T} {v : T}
    (hpc : s.pc id = .pop gate values) (hv : s.queue[index]? = some v) :
    ValueInv ({s with
      queue := s.queue.eraseIdx index}.move id (.consume gate (values ++ [v]))) := by
  have hsound := h.sound id
  rw [hpc] at hsound
  have hqueue : (s.queue : Multiset T) = {v} + (s.queue.eraseIdx index : List T) := by
    obtain ⟨hlt, rfl⟩ := List.getElem?_eq_some_iff.mp hv
    exact (Multiset.coe_eq_coe.mpr (List.getElem_cons_eraseIdx_perm hlt)).symm
  refine h.exchange hpc rfl (by simpa [WorkerPc.Sound] using hsound) rfl h.settledCount ?_
  simp only [Scheduler.move, WorkerPc.taken, ← Multiset.coe_add, Multiset.coe_singleton]
  rw [hqueue]
  abel

theorem ValueInv.reportedChunk (h : ValueInv s) {chunk : Chunk} {gate : Nat}
    (hpc : s.pc id = .producerUpdate chunk gate) (hidle : pc.Idle) {n : Nat} : ValueInv
    ({s with stats := (reportChunk s.stats chunk.count gate).1, notifies := n}.move id pc) := by
  rw [reportChunk_stats]
  refine h.exchange hpc rfl hidle.sound ?_ h.settledCount ?_
  · rw [hidle.pushes]
    simp only [Scheduler.move, WorkerPc.pushes]
    omega
  · rw [hidle.taken]
    rfl

/-- The values of a consumer call are counted and settled together. -/
theorem ValueInv.consumed (h : ValueInv s) {gate : Nat} {values : List T}
    (hpc : s.pc id = .consumerUpdate gate values) {ok r : Bool} {n : Nat} : ValueInv
    ({s with
      stats := {s.stats with consumerInputProcessed := s.stats.consumerInputProcessed + gate}
      settled := s.settled + values
      notifies := n}.move id (afterConsumer (.ofId id) ok r)) := by
  have hgate := h.sound id
  have hidle : (afterConsumer (.ofId id) ok r : WorkerPc T).Idle := afterConsumer_idle _ _ _
  rw [hpc] at hgate
  refine h.exchange hpc rfl hidle.sound ?_ ?_ ?_
  · rw [hidle.pushes]
    rfl
  · simpa [Scheduler.move, h.settledCount, WorkerPc.Sound] using hgate.symm
  · rw [hidle.taken]
    simp only [Scheduler.move, WorkerPc.taken]
    abel

theorem ValueInv.workerStep (h : ValueInv s) (hinput : InputInv cfg s) {action : WorkerAction T}
    (hstep : s.workerStep cfg id (s.pc id) action = some t) : ValueInv t := by
  have hsound := h.sound id
  cases workerStep_cases hstep with
  | endOfInput hpc => exact h.move hpc rfl rfl rfl
  | claims hpc hmore => exact h.claim hinput hpc hmore
  | callsPush v hpc => exact h.move hpc (Nat.succ_pos _) rfl rfl
  | pushes hpc => exact h.push hpc
  | endsInput hpc | endsChunk hpc => exact h.move hpc trivial rfl rfl
  | endsCall hpc =>
      rw [hpc] at hsound
      exact h.move hpc hsound rfl rfl
  | @reports chunk gate reachesOne hpc =>
      rcases producerUpdate_cases s id chunk gate reachesOne with
        ⟨_, -, heq⟩ | ⟨_, _, _, -, heq, -⟩ <;> rw [heq]
      · exact h.reportedChunk hpc ⟨rfl, rfl, by trivial⟩
      · exact h.reportedChunk hpc (afterProducer_idle _ _ _)
  | callsPop hpc =>
      rw [hpc] at hsound
      exact h.move hpc (by simpa [WorkerPc.Sound] using hsound) rfl rfl
  | pops hpc hv => exact h.pop hpc hv
  | settles reachesOne hpc =>
      obtain ⟨ok, r, n, heq, _⟩ := consumerUpdate_eq s id _ _ reachesOne
      rw [heq]
      exact h.consumed hpc

theorem ValueInv.setProducerChunkSize (h : ValueInv s) (chunkSize : Int) :
    ValueInv (s.setProducerChunkSize chunkSize) :=
  ⟨h.sound, h.output, h.settledCount, h.values⟩

/-- What holds in every reachable state. -/
structure BaseInv (cfg : SchedulerConfig) (s : Scheduler W T) : Prop where
  input : InputInv cfg s
  values : ValueInv s

theorem BaseInv.step {a : SchedulerAction W T} (h : BaseInv cfg s)
    (hstep : Scheduler.step cfg s a = some t) : BaseInv cfg t := by
  cases a with
  | worker id action => exact ⟨h.input.workerStep hstep, h.values.workerStep h.input hstep⟩
  | setProducerChunkSize chunkSize =>
      cases hstep
      exact ⟨h.input.setProducerChunkSize chunkSize, h.values.setProducerChunkSize chunkSize⟩

theorem baseInv_of_reachable {s : Scheduler cfg.workers T} (h : (system cfg T).Reachable s) :
    BaseInv cfg s :=
  (system cfg T).invariant ⟨inputInv_start cfg, valueInv_start cfg⟩
    (fun _ _ _ _ hs hstep => hs.step hstep) h

/-- What holds where the claims have fitted. -/
structure Inv (cfg : SchedulerConfig) (s : Scheduler W T) : Prop where
  chunks : ChunkInv cfg s
  values : ValueInv s

theorem inv_start (cfg : SchedulerConfig) : Inv cfg (start cfg T) :=
  ⟨chunkInv_start cfg, valueInv_start cfg⟩

theorem Inv.move (h : Inv cfg s) {old : WorkerPc T} (hold : s.pc id = old)
    (hsound : pc.ChunkSound ∧ pc.Sound) (hchunk : pc.chunk = old.chunk)
    (hpushes : pc.pushes = old.pushes) (htaken : pc.taken = old.taken) : Inv cfg (s.move id pc) :=
  ⟨h.chunks.move hold rfl hsound.1 hchunk rfl rfl rfl,
    h.values.move hold hsound.2 hpushes htaken⟩

theorem Inv.workerStep (h : Inv cfg s) {action : WorkerAction T}
    (hfits : ClaimFits cfg s action)
    (hstep : s.workerStep cfg id (s.pc id) action = some t) : Inv cfg t :=
  ⟨h.chunks.workerStep hfits hstep, h.values.workerStep h.chunks.toInputInv hstep⟩

theorem Inv.setProducerChunkSize (h : Inv cfg s) (chunkSize : Int) :
    Inv cfg (s.setProducerChunkSize chunkSize) :=
  ⟨h.chunks.setProducerChunkSize chunkSize, h.values.setProducerChunkSize chunkSize⟩

/-- The action is no claim, or the claim fits. -/
def Fits (cfg : SchedulerConfig) (s : Scheduler W T) : SchedulerAction W T → Prop
  | .worker _ action => ClaimFits cfg s action
  | .setProducerChunkSize _ => True

instance (cfg : SchedulerConfig) (s : Scheduler W T) (a : SchedulerAction W T) :
    Decidable (Fits cfg s a) :=
  match a with
  | .worker _ action => inferInstanceAs (Decidable (ClaimFits cfg s action))
  | .setProducerChunkSize _ => inferInstanceAs (Decidable True)

theorem Inv.step {a : SchedulerAction W T} (h : Inv cfg s) (hfits : Fits cfg s a)
    (hstep : Scheduler.step cfg s a = some t) : Inv cfg t := by
  cases a with
  | worker id action => exact h.workerStep hfits hstep
  | setProducerChunkSize chunkSize =>
      cases hstep
      exact h.setProducerChunkSize chunkSize

theorem inv_of_run {acts : List (SchedulerAction cfg.workers T)} {s : Scheduler cfg.workers T}
    (h : (system cfg T).GoodRun (Fits cfg) acts s) : Inv cfg s :=
  h.invariant (inv_start cfg) fun _ _ _ _ hfits hs hstep => hs.step hfits hstep

/-- The scheduler has finished: the input is used up, no chunk is out, and
every pushed value was popped by a consumer call that has been counted. -/
def Finished (cfg : SchedulerConfig) (s : Scheduler W T) : Prop :=
  s.pos = cfg.inputs ∧ (∀ id, ¬ (s.pc id).InChunk) ∧ s.settled = s.pushed

theorem ValueInv.output_of_no_chunk (h : ValueInv s) (hout : ∀ id, ¬ (s.pc id).InChunk) :
    s.pushed.card = s.stats.producerOutput := by
  have hpushes : heldBy WorkerPc.pushes s.pc = 0 := heldBy_eq_zero fun id =>
    WorkerPc.pushes_of_not_inChunk (hout id)
  rw [h.output, hpushes, Nat.add_zero]

theorem ValueInv.settled_le (h : ValueInv s) : s.settled ≤ s.pushed := by
  rw [h.values, add_right_comm]
  exact Multiset.le_add_left _ _

/-- With no chunk out the counters of the values agree exactly when everything pushed is
settled. -/
theorem ValueInv.settled_iff (h : ValueInv s) (hout : ∀ id, ¬ (s.pc id).InChunk) :
    s.stats.consumerInputProcessed = s.stats.producerOutput ↔ s.settled = s.pushed := by
  rw [← h.settledCount, ← h.output_of_no_chunk hout]
  exact ⟨fun hcounts => Multiset.eq_of_le_of_card_le h.settled_le hcounts.ge,
    fun hsettled => congrArg Multiset.card hsettled⟩

/-- The counters agree exactly when everything is finished. -/
theorem Inv.done_iff (h : Inv cfg s) (hclaimed : cfg.first < s.pos) :
    s.stats.isAllTaskDone = true ↔ Finished cfg s := by
  have hfirst := h.chunks.posLe
  rw [SchedulerStats.isAllTaskDone_iff, h.chunks.processedAll, h.chunks.consumedAll]
  constructor
  · rintro ⟨⟨⟨-, hend⟩, hout⟩, hcounts⟩
    exact ⟨hend, hout, (h.values.settled_iff hout).mp hcounts⟩
  · rintro ⟨hend, hout, hsettled⟩
    exact ⟨⟨⟨by omega, hend⟩, hout⟩, (h.values.settled_iff hout).mpr hsettled⟩

theorem InputInv.claimed_of_done (h : InputInv cfg s) (hdone : s.stats.isAllTaskDone = true) :
    cfg.first < s.pos ∧ s.pos = cfg.inputs := by
  have hprocessed := ((SchedulerStats.isAllTaskDone_iff _).mp hdone).1
  obtain ⟨hfirst, hend⟩ := h.consumedAll.mp (h.processed hprocessed)
  exact ⟨hend ▸ hfirst, hend⟩

theorem Inv.finished_of_done (h : Inv cfg s) (hdone : s.stats.isAllTaskDone = true) :
    Finished cfg s :=
  (h.done_iff (h.chunks.claimed_of_done hdone).1).mp hdone

/-- Then nothing is left in the queue or in the hands of a worker. -/
theorem ValueInv.nothing_left (h : ValueInv s) (hsettled : s.settled = s.pushed) :
    s.queue = [] ∧ ∀ id, (s.pc id).taken = 0 := by
  have hvalues := h.values
  rw [hsettled, add_right_comm, eq_comm, add_eq_right] at hvalues
  obtain ⟨hqueue, htaken⟩ := add_eq_zero.mp hvalues
  exact ⟨Multiset.coe_eq_zero _ |>.mp hqueue, heldBy_eq_zero_iff.mp htaken⟩

/-- The block that completes the tasks notifies. -/
theorem notifies_of_done {a : SchedulerAction W T} (h : Inv cfg s)
    (hstep : Scheduler.step cfg s a = some t) (hbefore : s.stats.isAllTaskDone = false)
    (hafter : t.stats.isAllTaskDone = true) : t.notifies = s.notifies + 1 := by
  have hsame (hstats : t.stats.isAllTaskDone = s.stats.isAllTaskDone) :
      t.notifies = s.notifies + 1 := by
    rw [hstats, hbefore] at hafter
    cases hafter
  cases a with
  | setProducerChunkSize chunkSize =>
      cases hstep
      exact hsame rfl
  | worker id action =>
      cases workerStep_cases hstep with
      | reports reachesOne hpc =>
          obtain ⟨ok, r, n, heq, hnotified, _⟩ := producerUpdate_eq hpc h.chunks _ reachesOne
          rw [heq] at hafter ⊢
          exact hnotified hafter
      | settles reachesOne hpc =>
          obtain ⟨ok, r, n, heq, hnotified, _⟩ := consumerUpdate_eq s id _ _ reachesOne
          rw [heq, ← hnotified hafter]
          rfl
      | claims hpc hmore =>
          rcases claim_cases id h.chunks.toInputInv hmore with ⟨-, heq⟩ | ⟨chunk, -, heq⟩
          · exact hsame (by rw [heq]; rfl)
          · exact hsame (by rw [heq]; rfl)
      | _ => exact hsame rfl

/-- For any number of workers, any input and any numbers of values pushed and popped in
a call, in any interleaving whose claims fit: once an input has been claimed,
`is_all_task_done()` holds exactly when the input is used up, no chunk is out and every
pushed value was popped by a consumer call that has been counted; the queue is then
empty. The block that makes it true notifies. -/
theorem all_task_done_iff_finished {acts : List (SchedulerAction cfg.workers T)}
    {s : Scheduler cfg.workers T} (h : (system cfg T).GoodRun (Fits cfg) acts s) :
    (cfg.first < s.pos →
      (s.stats.isAllTaskDone = true ↔ s.pos = cfg.inputs ∧ (∀ id, ¬ (s.pc id).InChunk) ∧
        s.settled = s.pushed) ∧
      (s.stats.isAllTaskDone = true → s.queue = [])) ∧
    (∀ a t, (system cfg T).step s a = some t → s.stats.isAllTaskDone = false →
      t.stats.isAllTaskDone = true → t.notifies = s.notifies + 1) := by
  have hinv := inv_of_run h
  refine ⟨fun hclaimed => ⟨hinv.done_iff hclaimed, fun hdone => ?_⟩,
    fun a t hstep => notifies_of_done hinv hstep⟩
  exact (hinv.values.nothing_left (hinv.finished_of_done hdone).2.2).1

/-- Two workers and one input: its value is popped and counted as consumed
before its chunk is reported, and the report completes the tasks. -/
theorem all_task_done_iff_finished_pop_first :
    ∃ s t : Scheduler 2 Nat, (system ⟨1, true, false, 1, 2, int32⟩ Nat).Reachable s ∧
      s.stats.consumerInputProcessed = 1 ∧ s.stats.producerOutput = 0 ∧
      (system ⟨1, true, false, 1, 2, int32⟩ Nat).step s (.worker 1 (.producerUpdate true)) =
        some t ∧
      t.notifies = s.notifies + 1 ∧ t.pos = 1 ∧ t.settled = t.pushed ∧ t.queue = [] := by
  obtain ⟨s, hrun, hs⟩ :=
    ((system ⟨1, true, false, 1, 2, int32⟩ Nat).restrict
      (Fits ⟨1, true, false, 1, 2, int32⟩)).exists_of_map
      [.worker 1 .claim, .worker 1 (.callPush 7), .worker 1 .push, .worker 1 .endInput,
        .worker 0 .callPop, .worker 0 (.pop 0), .worker 0 .endCall,
        .worker 0 (.consumerUpdate false)]
      (b := (1, 0, false, some (1, true)))
      (fun s => (s.stats.consumerInputProcessed, s.stats.producerOutput, s.stats.isAllTaskDone,
        ((system ⟨1, true, false, 1, 2, int32⟩ Nat).step s
          (.worker 1 (.producerUpdate true))).map fun t =>
            (t.pos, t.stats.isAllTaskDone))) rfl
  simp only [Prod.mk.injEq, Option.map_eq_some_iff] at hs
  obtain ⟨hconsumed, houtput, hbefore, t, hstep, hclaimed, hdone⟩ := hs
  have hgood := TransitionSystem.GoodRun.of_restrict hrun
  have hnotified := (all_task_done_iff_finished hgood).2 _ t hstep hbefore hdone
  have hreport : Fits ⟨1, true, false, 1, 2, int32⟩ s (.worker 1 (.producerUpdate true)) := trivial
  have ⟨hiff, hempty⟩ := (all_task_done_iff_finished (hgood.snoc hreport hstep)).1
    (by rw [hclaimed]; exact Nat.one_pos)
  have ⟨hend, _, hsettled⟩ := hiff.mp hdone
  exact ⟨s, t, hgood.reaches.reachable, hconsumed, houtput, hstep, hnotified, hend, hsettled,
    hempty hdone⟩

/-- Six inputs with a difference type of 32 bits. The chunk size is three in that type, so
two chunks take the inputs, and their counts add up to a negative `long long`: the report
of the first completes the tasks, with the second still being produced. -/
theorem done_with_chunk_out :
    ∃ s : Scheduler 3 Nat, (system ⟨6, false, false, 1, 3, int32⟩ Nat).Reachable s ∧
      s.pos = 6 ∧ s.stats.producerInputConsumed = -8589934586 ∧
      s.stats.isAllTaskDone = true ∧ s.notifies = 1 ∧ (s.pc 2).InChunk := by
  obtain ⟨s, hrun, hs⟩ := (system ⟨6, false, false, 1, 3, int32⟩ Nat).exists_of_map
    [.setProducerChunkSize 0x7FFFFFFF00000003, .worker 1 .claim, .worker 2 .claim,
      .worker 1 .endInput, .worker 1 .endInput, .worker 1 .endInput,
      .worker 1 (.producerUpdate true)]
    (b := (6, -8589934586, true, 1, .produce ⟨3, 3, 0x7FFFFFFF00000003⟩ 3 0))
    (fun s => (s.pos, s.stats.producerInputConsumed, s.stats.isAllTaskDone, s.notifies, s.pc 2)) rfl
  simp only [Prod.mk.injEq] at hs
  obtain ⟨hpos, hconsumed, hdone, hnotifies, hpc⟩ := hs
  exact ⟨s, hrun.reachable, hpos, hconsumed, hdone, hnotifies, by rw [hpc]; trivial⟩

end Scheduler

end YkUtil.Exec
