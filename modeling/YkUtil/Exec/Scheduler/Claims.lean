import Mathlib.Data.List.Range
import Mathlib.Tactic.Abel
import Mathlib.Tactic.FinCases
import YkUtil.Exec.Scheduler.Shutdown

/-!
Which inputs the producers get. A ledger beside the run notes the sub-range of
every claim, the inputs in the order in which `producer_func` is called with
them, and the calls of the two setters for the flags. No step reads it.
-/

namespace YkUtil.Exec

open YkUtil.Lib

/-- `claimed` holds the sub-ranges as first index and number of inputs. -/
structure Ledger (W : Nat) (T : Type*) where
  run : StoppableScheduler W T
  claimed : List (Nat × Nat)
  handed : List Nat
  consumedAllCalls : Nat
  processedAllCalls : Nat

namespace WorkerPc

variable {T : Type*}

/-- The inputs of the worker's chunk that `producer_func` has not been called with
yet. -/
def pending : WorkerPc T → List Nat
  | .produce chunk remaining _ | .push chunk remaining _ _ =>
      List.range' (chunk.first + chunk.inputs - remaining + 1) (remaining - 1)
  | _ => []

/-- A worker that produces is at one of the inputs of its chunk. -/
def LeftSound : WorkerPc T → Prop
  | .produce chunk remaining _ | .push chunk remaining _ _ =>
      1 ≤ remaining ∧ remaining ≤ chunk.inputs
  | _ => True

theorem pending_of_not_inChunk {pc : WorkerPc T} (h : ¬ pc.InChunk) : pc.pending = [] := by
  cases pc with
  | produce | push => exact absurd trivial h
  | _ => rfl

end WorkerPc

namespace Ledger

variable {W : Nat} {T : Type*}

/-- What the step of a worker adds to the ledger. -/
def note (cfg : SchedulerConfig) (s : Ledger W T) : WorkerPc T → WorkerAction T → Ledger W T
  | .claim, .claim =>
      let sched := s.run.sched
      match claimBlock cfg.difference cfg.inputs sched.pos sched.chunkSize sched.stats with
      | .takes chunk _ _ => {s with
          claimed := s.claimed ++ [(chunk.first, chunk.inputs)]
          handed := s.handed ++ List.range' chunk.first (min 1 chunk.inputs)
          consumedAllCalls := s.consumedAllCalls +
            if sched.pos + chunk.inputs = cfg.inputs then 1 else 0}
      | _ => s
  | .produce chunk left _, .endInput =>
      if left ≤ 1 then s
      else {s with handed := s.handed ++ [chunk.first + chunk.inputs - (left - 1)]}
  | .producerUpdate chunk _, .producerUpdate _ =>
      let stats := s.run.sched.stats
      {s with processedAllCalls := s.processedAllCalls +
        if stats.producerInputConsumedAll = true ∧ stats.producerInputConsumed ≤
          longLong.convert (stats.producerInputProcessed + chunk.count) then 1 else 0}
  | _, _ => s

def record (cfg : SchedulerConfig) (s : Ledger W T) : StoppableAction W T → Ledger W T
  | .worker id action => s.note cfg (s.run.sched.pc id) action
  | _ => s

def step (cfg : StoppableConfig) (s : Ledger W T) (a : StoppableAction W T) : Option (Ledger W T) :=
  (StoppableScheduler.step cfg s.run a).map fun run =>
    {s.record cfg.toSchedulerConfig a with run := run}

/-- The runs with any closing, stop request, exception and chunk size at any
point. -/
def system (cfg : StoppableConfig) (T : Type*) :
    TransitionSystem (Ledger cfg.workers T) (StoppableAction cfg.workers T) :=
  {init :=
    {run := StoppableScheduler.start cfg T false
     claimed := []
     handed := []
     consumedAllCalls := 0
     processedAllCalls := 0}
   step := step cfg}

/-- The inputs that claimed chunks still hold back. -/
def outstanding (s : Ledger W T) : Multiset Nat :=
  heldBy (fun pc : WorkerPc T => (pc.pending : Multiset Nat)) s.run.sched.pc

/-- The consumed prefix of the input. -/
def consumed (cfg : SchedulerConfig) (s : Ledger W T) : List Nat :=
  List.range' cfg.first (s.run.sched.pos - cfg.first)

/-- The ledger accounts for every consumed input. -/
structure LedgerInv (cfg : SchedulerConfig) (s : Ledger W T) : Prop where
  chunks : Scheduler.ChunkInv cfg s.run.sched
  left : ∀ id, (s.run.sched.pc id).LeftSound
  claimed : (s.claimed.flatMap fun c => List.range' c.1 c.2) = s.consumed cfg
  handed : (s.consumed cfg : Multiset Nat) = s.handed + s.outstanding
  consumedAllCalls : s.consumedAllCalls = s.run.sched.stats.producerInputConsumedAll.toNat
  processedAllCalls : s.processedAllCalls = s.run.sched.stats.producerInputProcessedAll.toNat

theorem ledgerInv_start (cfg : StoppableConfig) :
    LedgerInv cfg.toSchedulerConfig (system cfg T).init := by
  have hhead (id : Fin cfg.workers) :
      ((Scheduler.start cfg.toSchedulerConfig T).pc id).pending = [] ∧
        ((Scheduler.start cfg.toSchedulerConfig T).pc id).LeftSound := by
    rcases Scheduler.start_head (T := T) cfg.toSchedulerConfig id with hhead | hhead <;>
      rw [hhead] <;> exact ⟨rfl, trivial⟩
  have hnone : (system cfg T).init.outstanding = 0 := heldBy_eq_zero fun id => by
    exact congrArg _ (hhead id).1
  refine ⟨Scheduler.chunkInv_start _, fun id => (hhead id).2, ?_, ?_, rfl, rfl⟩
  · simp [system, consumed, StoppableScheduler.start, Scheduler.start]
  · rw [hnone]
    simp [system, consumed, StoppableScheduler.start, Scheduler.start]

variable {cfg : SchedulerConfig} {s t : Ledger W T} {id : Fin W} {pc old : WorkerPc T}

/-- The rule for a worker that goes on at `pc`. -/
theorem LedgerInv.exchange (h : LedgerInv cfg s) (hold : s.run.sched.pc id = old)
    (hpc : t.run.sched.pc = Function.update s.run.sched.pc id pc)
    (hchunks : Scheduler.ChunkInv cfg t.run.sched) (hleft : pc.LeftSound)
    (hclaimed : (t.claimed.flatMap fun c => List.range' c.1 c.2) = t.consumed cfg)
    (hhanded : (t.consumed cfg + s.handed + old.pending : Multiset Nat) =
      s.consumed cfg + t.handed + pc.pending)
    (hconsumedAllCalls :
      t.consumedAllCalls = t.run.sched.stats.producerInputConsumedAll.toNat)
    (hprocessedAllCalls :
      t.processedAllCalls = t.run.sched.stats.producerInputProcessedAll.toNat) :
    LedgerInv cfg t := by
  have houtstanding := heldBy_update (fun pc : WorkerPc T => (pc.pending : Multiset Nat))
    s.run.sched.pc id pc
  rw [← hpc, hold] at houtstanding
  refine ⟨hchunks, ?_, hclaimed, ?_, hconsumedAllCalls, hprocessedAllCalls⟩
  · rw [hpc]
    exact (Function.forall_update_iff s.run.sched.pc fun _ => WorkerPc.LeftSound).mpr
      ⟨hleft, fun other _ => h.left other⟩
  · apply add_right_cancel (b := (s.handed + old.pending : Multiset Nat))
    calc (t.consumed cfg + (s.handed + old.pending) : Multiset Nat)
        = s.consumed cfg + t.handed + pc.pending := by rw [← add_assoc, hhanded]
      _ = s.handed + t.handed + (s.outstanding + pc.pending) := by
          rw [h.handed]
          abel
      _ = t.handed + t.outstanding + (s.handed + old.pending) := by
          rw [outstanding, ← houtstanding, outstanding]
          abel

/-- A worker's step that the ledger does not note. -/
theorem LedgerInv.move (h : LedgerInv cfg s) (hold : s.run.sched.pc id = old)
    {run : StoppableScheduler W T} {sched : Scheduler W T} (hrun : run.sched = sched.move id pc)
    (hchunks : Scheduler.ChunkInv cfg (sched.move id pc)) (hleft : pc.LeftSound)
    (hpending : pc.pending = old.pending)
    (hpc : sched.pc = s.run.sched.pc) (hpos : sched.pos = s.run.sched.pos)
    (hconsumedAll : sched.stats.producerInputConsumedAll =
      s.run.sched.stats.producerInputConsumedAll)
    (hprocessedAll : sched.stats.producerInputProcessedAll =
      s.run.sched.stats.producerInputProcessedAll) : LedgerInv cfg {s with run := run} := by
  have hconsumed : consumed cfg {s with run := run} = s.consumed cfg := by
    simp only [consumed, hrun, Scheduler.move, hpos]
  refine h.exchange hold ?_ (hrun ▸ hchunks) hleft ?_ ?_ ?_ ?_
  · simp only [hrun, Scheduler.move, hpc]
  · rw [hconsumed]
    exact h.claimed
  · rw [hconsumed, hpending]
  · rw [h.consumedAllCalls, ← hconsumedAll, hrun]
    rfl
  · rw [h.processedAllCalls, ← hprocessedAll, hrun]
    rfl

/-- A claim extends the consumed prefix by its sub-range. -/
theorem range'_claim {first pos count : Nat} (h : first ≤ pos) :
    List.range' first (pos + count - first) =
      List.range' first (pos - first) ++ List.range' pos count := by
  have hsplit : List.range' (first + (pos - first)) count = List.range' pos count := by
    rw [Nat.add_sub_cancel' h]
  rw [← hsplit, List.range'_append_1, Nat.sub_add_comm h]

theorem LedgerInv.claim (h : LedgerInv cfg s) (hpc : s.run.sched.pc id = .claim)
    (hmore : s.run.sched.pos ≠ cfg.inputs) (hfits : Scheduler.ClaimFits cfg s.run.sched .claim)
    {run : StoppableScheduler W T} (hrun : run.sched = s.run.sched.claim cfg id) :
    LedgerInv cfg {s.note cfg .claim .claim with run := run} := by
  have hchunks := h.chunks.claim hmore hfits hpc
  have hone := h.chunks.one_le_inputs hmore
  have hflag := h.chunks.consumedAll_false hmore
  have hcalls := h.consumedAllCalls
  rw [hflag] at hcalls
  rw [Scheduler.claim_eq h.chunks hmore hfits] at hrun hchunks
  simp only [note, claimBlock_of_take hmore hflag (h.chunks.takes hmore hfits)]
  have hstart : (Scheduler.fitting cfg s.run.sched).first = s.run.sched.pos := rfl
  generalize Scheduler.fitting cfg s.run.sched = chunk at *
  have hrange : List.range' cfg.first (s.run.sched.pos + chunk.inputs - cfg.first) = _ :=
    range'_claim h.chunks.firstLe
  have hleft : (WorkerPc.produce chunk chunk.inputs 0 : WorkerPc T).LeftSound :=
    ⟨hone, Nat.le_refl _⟩
  refine h.exchange hpc (by rw [hrun]; rfl) (by rw [hrun]; exact hchunks) hleft ?_ ?_ ?_ ?_
  · simp only [List.flatMap_append, h.claimed, consumed, hrun, Scheduler.move, hrange, hstart]
    simp
  · have hsub : List.range' s.run.sched.pos chunk.inputs =
        s.run.sched.pos :: List.range' (s.run.sched.pos + 1) (chunk.inputs - 1) := by
      rw [← List.range'_succ, Nat.sub_add_cancel hone]
    simp only [consumed, hrun, Scheduler.move, hrange, WorkerPc.pending, hsub, hstart,
      Nat.min_eq_left hone, Nat.add_sub_cancel, Multiset.coe_add, Multiset.coe_eq_coe]
    simp only [List.append_nil, List.append_assoc]
    exact (List.Perm.refl _).append List.perm_append_comm
  · simp only [hrun, Scheduler.move, hcalls]
    by_cases hlast : s.run.sched.pos + chunk.inputs = cfg.inputs <;> simp [hlast]
  · simp only [hrun, Scheduler.move]
    exact h.processedAllCalls

/-- The next input of a chunk. -/
theorem LedgerInv.endInput (h : LedgerInv cfg s) {chunk : Chunk} {remaining gate : Nat}
    (hpc : s.run.sched.pc id = .produce chunk remaining gate) (hleft : 1 < remaining)
    {run : StoppableScheduler W T}
    (hrun : run.sched = s.run.sched.move id (.produce chunk (remaining - 1) gate)) :
    LedgerInv cfg {s.note cfg (.produce chunk remaining gate) .endInput with run := run} := by
  have hsound := h.chunks.sound id
  have hbounds := h.left id
  rw [hpc] at hsound hbounds
  have hnext : (WorkerPc.produce chunk (remaining - 1) gate : WorkerPc T).LeftSound :=
    ⟨by omega, Nat.le_trans (Nat.sub_le _ _) hbounds.2⟩
  have hchunks : Scheduler.ChunkInv cfg run.sched := by
    rw [hrun]
    exact h.chunks.move hpc rfl hsound rfl rfl rfl rfl
  have hconsumed : consumed cfg {s.note cfg (.produce chunk remaining gate) .endInput with
      run := run} = s.consumed cfg := by
    simp only [consumed, hrun, Scheduler.move]
  have hsub : List.range' (chunk.first + chunk.inputs - remaining + 1) (remaining - 1) =
      (chunk.first + chunk.inputs - (remaining - 1)) ::
        List.range' (chunk.first + chunk.inputs - (remaining - 1) + 1) (remaining - 1 - 1) := by
    obtain ⟨_, hle⟩ := hbounds
    have hinput : chunk.first + chunk.inputs - remaining + 1 =
        chunk.first + chunk.inputs - (remaining - 1) := by omega
    rw [hinput, ← List.range'_succ, Nat.sub_add_cancel (by omega)]
  have hnot : ¬ remaining ≤ 1 := by omega
  simp only [note, if_neg hnot] at hconsumed ⊢
  refine h.exchange hpc (by rw [hrun]; rfl) hchunks hnext ?_ ?_ ?_ ?_
  · rw [hconsumed]
    exact h.claimed
  · rw [hconsumed]
    simp only [WorkerPc.pending, hsub, Multiset.coe_add, Multiset.coe_eq_coe, List.append_assoc]
    exact List.Perm.refl _
  · rw [hrun]
    exact h.consumedAllCalls
  · rw [hrun]
    exact h.processedAllCalls

theorem LedgerInv.report (h : LedgerInv cfg s) {chunk : Chunk} {gate : Nat} (reachesOne : Bool)
    (hpc : s.run.sched.pc id = .producerUpdate chunk gate) {run : StoppableScheduler W T}
    (hrun : run.sched = s.run.sched.producerUpdate id chunk gate reachesOne) :
    LedgerInv cfg {s.note cfg (.producerUpdate chunk gate) (.producerUpdate reachesOne) with
      run := run} := by
  have hfalse := h.chunks.processed_false hpc
  have houtstanding := h.chunks.outstanding
  have hcalls := h.processedAllCalls
  rw [hfalse] at hcalls
  have hchunk := Scheduler.chunk_le hpc
  obtain ⟨ok, r, n, heq, _⟩ := Scheduler.producerUpdate_eq hpc h.chunks gate reachesOne
  rw [heq] at hrun
  have hpending : (Scheduler.afterProducer (.ofId id) ok r : WorkerPc T).pending = [] ∧
      (Scheduler.afterProducer (.ofId id) ok r : WorkerPc T).LeftSound := by
    cases WorkerKind.ofId id.val <;> cases ok <;> cases r <;> exact ⟨rfl, trivial⟩
  refine h.exchange hpc (by rw [hrun]; rfl) (by rw [hrun]; exact h.chunks.reportedChunk hpc gate)
    hpending.2 ?_ ?_ ?_ ?_
  · simp only [consumed, hrun, Scheduler.move, note]
    exact h.claimed
  · rw [hpending.1]
    simp only [consumed, hrun, Scheduler.move, note]
    rfl
  · rw [hrun, Scheduler.reportChunk_eq hpc h.chunks]
    exact h.consumedAllCalls
  · have hiff : (s.run.sched.stats.producerInputConsumed ≤
        s.run.sched.stats.producerInputProcessed + chunk.inputs) ↔
        heldBy WorkerPc.chunk s.run.sched.pc = chunk.inputs := by omega
    rw [hrun, Scheduler.reportChunk_eq hpc h.chunks]
    simp only [note, hcalls, h.chunks.processed_add hpc, hiff, Scheduler.move]
    by_cases hlast : heldBy WorkerPc.chunk s.run.sched.pc = chunk.inputs <;>
      cases s.run.sched.stats.producerInputConsumedAll <;> simp [hlast]

theorem LedgerInv.works (h : LedgerInv cfg s) {action : WorkerAction T}
    {run : StoppableScheduler W T} (hfits : Scheduler.ClaimFits cfg s.run.sched action)
    (hstep : s.run.sched.workerStep cfg id (s.run.sched.pc id) action = some run.sched) :
    LedgerInv cfg {s.note cfg (s.run.sched.pc id) action with run := run} := by
  have hchunks := h.chunks.workerStep hfits hstep
  have hleft := h.left id
  generalize hrun : run.sched = sched at hstep hchunks
  cases Scheduler.workerStep_cases hstep with
  | endOfInput hpc hend =>
      rw [hpc]
      simp only [note, claimBlock, if_pos hend]
      exact h.move hpc hrun hchunks trivial rfl rfl rfl rfl rfl
  | claims hpc hmore =>
      rw [hpc]
      exact h.claim hpc hmore hfits hrun
  | callsPush _ hpc | pushes hpc | callsPop hpc | pops hpc | endsCall hpc =>
      rw [hpc] at hleft ⊢
      exact h.move hpc hrun hchunks hleft rfl rfl rfl rfl rfl
  | endsInput hpc hmore =>
      rw [hpc]
      exact h.endInput hpc hmore hrun
  | @endsChunk chunk remaining gate hpc hlast =>
      have hnone : (WorkerPc.produce chunk remaining gate : WorkerPc T).pending = [] := by
        rw [WorkerPc.pending, Nat.sub_eq_zero_of_le hlast, List.range'_zero]
      rw [hpc]
      simp only [note, if_pos hlast]
      exact h.move hpc hrun hchunks trivial hnone.symm rfl rfl rfl rfl
  | reports reachesOne hpc =>
      rw [hpc]
      exact h.report reachesOne hpc hrun
  | settles reachesOne hpc =>
      obtain ⟨ok, r, n, heq, _⟩ := Scheduler.consumerUpdate_eq s.run.sched id _ _ reachesOne
      have hpending : (Scheduler.afterConsumer (.ofId id) ok r : WorkerPc T).pending = [] ∧
          (Scheduler.afterConsumer (.ofId id) ok r : WorkerPc T).LeftSound := by
        cases WorkerKind.ofId id.val <;> cases ok <;> cases r <;> exact ⟨rfl, trivial⟩
      rw [heq] at hrun hchunks
      rw [hpc]
      exact h.move hpc hrun hchunks hpending.2 hpending.1 rfl rfl rfl rfl

/-- A step that changes neither the workers nor the counters. -/
theorem LedgerInv.same (h : LedgerInv cfg s) {run : StoppableScheduler W T}
    (hchunks : Scheduler.ChunkInv cfg run.sched) (hpc : run.sched.pc = s.run.sched.pc)
    (hpos : run.sched.pos = s.run.sched.pos) (hstats : run.sched.stats = s.run.sched.stats) :
    LedgerInv cfg {s with run := run} := by
  refine ⟨hchunks, ?_, ?_, ?_, ?_, ?_⟩
  · simp only [hpc]
    exact h.left
  · simp only [consumed, hpos]
    exact h.claimed
  · simp only [consumed, outstanding, hpos, hpc]
    exact h.handed
  · simp only [hstats]
    exact h.consumedAllCalls
  · simp only [hstats]
    exact h.processedAllCalls

theorem LedgerInv.step {cfg : StoppableConfig} {a : StoppableAction W T}
    (h : LedgerInv cfg.toSchedulerConfig s) (hfits : StoppableScheduler.Fits cfg s.run a)
    (hstep : Ledger.step cfg s a = some t) : LedgerInv cfg.toSchedulerConfig t := by
  simp only [Ledger.step, Option.map_eq_some_iff] at hstep
  obtain ⟨run, hrun, rfl⟩ := hstep
  have hmoves {id : Fin W} {pc old : WorkerPc T} (hold : s.run.sched.pc id = old)
      (hsound : pc.ChunkSound) (hleft : pc.LeftSound) (hchunk : pc.chunk = old.chunk)
      (hpending : pc.pending = old.pending) :
      LedgerInv cfg.toSchedulerConfig {s with run := s.run.move id pc} :=
    h.move hold rfl (h.chunks.move hold rfl hsound hchunk rfl rfl rfl) hleft hpending rfl rfl rfl
      rfl
  have hchunks := StoppableScheduler.chunkInv_step h.chunks hfits hrun
  cases StoppableScheduler.step_cases hrun with
  | works _ _ hworks => exact h.works hfits hworks
  | blockThrows _ _ hworks hthrown => exact absurd hthrown (h.chunks.not_thrown hfits hworks)
  | @leaves id _ _ _ hpc =>
      cases hold : s.run.sched.pc id <;> rw [hold] at hpc <;> cases hpc
      all_goals exact hmoves hold trivial trivial rfl rfl
  | @pushFails id chunk remaining gate v _ _ hpc =>
      have hsound := h.chunks.sound id
      have hleft := h.left id
      rw [hpc] at hsound hleft
      exact hmoves hpc hsound hleft rfl rfl
  | popFails _ _ hpc => exact hmoves hpc trivial trivial rfl rfl
  | enters | throws | closes | stops | setsChunkSize => exact h.same hchunks rfl rfl rfl

/-- The action is no claim, or the claim fits. -/
def Fits (cfg : StoppableConfig) (s : Ledger W T) (a : StoppableAction W T) : Prop :=
  StoppableScheduler.Fits cfg s.run a

instance (cfg : StoppableConfig) (s : Ledger W T) (a : StoppableAction W T) :
    Decidable (Fits cfg s a) :=
  inferInstanceAs (Decidable (StoppableScheduler.Fits cfg s.run a))

theorem ledgerInv_of_run {cfg : StoppableConfig} {acts : List (StoppableAction cfg.workers T)}
    {s : Ledger cfg.workers T} (h : (system cfg T).GoodRun (Fits cfg) acts s) :
    LedgerInv cfg.toSchedulerConfig s :=
  h.invariant (ledgerInv_start cfg) fun _ _ _ _ hfits hs hstep => hs.step hfits hstep

/-- For any input range and any number of workers, in any interleaving whose claims fit,
with the chunk size changed, the queue closed, a stop requested and exceptions thrown at
any point: the claimed sub-ranges make up the consumed prefix, one after the other;
`producer_func` gets each input of it at most once, and exactly once when no chunk is
out; processed, consumed and total are ordered; each of the two setters is called at
most once and throws nothing. -/
theorem claims_partition_consumed {cfg : StoppableConfig}
    {acts : List (StoppableAction cfg.workers T)} {s : Ledger cfg.workers T}
    (h : (system cfg T).GoodRun (Fits cfg) acts s) :
    (s.claimed.flatMap fun c => List.range' c.1 c.2) = s.consumed cfg.toSchedulerConfig ∧
    s.handed.Nodup ∧ s.handed ⊆ s.consumed cfg.toSchedulerConfig ∧
    ((∀ id, ¬ (s.run.sched.pc id).InChunk) →
      s.handed.Perm (s.consumed cfg.toSchedulerConfig)) ∧
    0 ≤ s.run.sched.stats.producerInputProcessed ∧
    s.run.sched.stats.producerInputProcessed ≤ s.run.sched.stats.producerInputConsumed ∧
    (s.consumed cfg.toSchedulerConfig).length = s.run.sched.stats.producerInputConsumed ∧
    s.run.sched.stats.producerInputConsumed ≤ cfg.inputs ∧
    s.run.sched.stats.producerInputTotal = (if cfg.sized then some cfg.inputs else none) ∧
    s.consumedAllCalls ≤ 1 ∧ s.processedAllCalls ≤ 1 ∧
    ∀ id error, s.run.sched.pc id ≠ .threw error := by
  have hinv := ledgerInv_of_run h
  have hclaimed := hinv.chunks.claimed
  have hfirst := hinv.chunks.firstLe
  have hposLe := hinv.chunks.posLe
  have houtstanding := hinv.chunks.outstanding
  have hsub : (s.handed : Multiset Nat) ≤ s.consumed cfg.toSchedulerConfig := by
    rw [hinv.handed]
    exact Multiset.le_add_right _ _
  refine ⟨hinv.claimed, ?_, (Multiset.coe_le.mp hsub).subset, fun hout => ?_, hinv.chunks.nonneg,
    by omega, ?_, by omega, hinv.chunks.total, ?_, ?_, fun id error hthrew => ?_⟩
  · exact Multiset.coe_nodup.mp
      (Multiset.nodup_of_le hsub (Multiset.coe_nodup.mpr (List.nodup_range' ..)))
  · have hnone : s.outstanding = 0 := heldBy_eq_zero fun id => by
      simp only [WorkerPc.pending_of_not_inChunk (hout id), Multiset.coe_nil]
    exact (Multiset.coe_eq_coe.mp (by rw [hinv.handed, hnone, add_zero])).symm
  · rw [consumed, List.length_range']
    omega
  · rw [hinv.consumedAllCalls]
    exact Bool.toNat_le _
  · rw [hinv.processedAllCalls]
    exact Bool.toNat_le _
  · have hsound := hinv.chunks.sound id
    rw [hthrew] at hsound
    exact hsound

/-- Three inputs in two chunks, the second of which is reported first. -/
theorem claims_partition_consumed_two_chunks :
    ∃ s : Ledger 3 Nat, (system ⟨⟨3, true, false, 1, 3, int32⟩, false⟩ Nat).Reachable s ∧
      s.claimed = [(0, 2), (2, 1)] ∧ s.handed = [0, 2, 1] ∧
      s.handed.Perm (s.consumed ⟨3, true, false, 1, 3, int32⟩) ∧ s.consumedAllCalls = 1 ∧
      s.processedAllCalls ≤ 1 := by
  obtain ⟨s, hrun, hs⟩ :=
    ((system ⟨⟨3, true, false, 1, 3, int32⟩, false⟩ Nat).restrict
      (Fits ⟨⟨3, true, false, 1, 3, int32⟩, false⟩)).exists_of_map
      [.setProducerChunkSize 2, .checkStop 1, .worker 1 .claim, .checkStop 2, .worker 2 .claim,
        .worker 2 .endInput, .worker 2 (.producerUpdate true), .worker 1 .endInput,
        .worker 1 .endInput, .worker 1 (.producerUpdate true)]
      (b := ([(0, 2), (2, 1)], [0, 2, 1], 1, .consume 0 [], .consume 0 [], .consume 0 []))
      (fun s => (s.claimed, s.handed, s.consumedAllCalls, s.run.sched.pc 0, s.run.sched.pc 1,
        s.run.sched.pc 2)) rfl
  simp only [Prod.mk.injEq] at hs
  obtain ⟨hclaimed, hhanded, hcalls, h0, h1, h2⟩ := hs
  have hout (id : Fin 3) : ¬ (s.run.sched.pc id).InChunk := by
    fin_cases id <;> simp [h0, h1, h2, WorkerPc.InChunk]
  have hgood := TransitionSystem.GoodRun.of_restrict hrun
  obtain ⟨_, _, _, hall, _, _, _, _, _, _, hprocessed, _⟩ := claims_partition_consumed hgood
  exact ⟨s, hgood.reaches.reachable, hclaimed, hhanded, hall hout, hcalls, hprocessed⟩

/-- Six inputs with a difference type of 32 bits. The chunk size is three in that type, so
two claims take three inputs each, and count far more; the report of the second finds that
the counts do not match. -/
theorem narrowed_chunks_miscounted :
    ∃ s : Ledger 2 Nat, (system ⟨⟨6, true, false, 1, 2, int32⟩, false⟩ Nat).Reachable s ∧
      s.claimed = [(0, 3), (3, 3)] ∧
      s.run.sched.stats.producerInputConsumed = 8589934598 ∧
      s.run.sched.stats.producerInputTotal = some 6 ∧
      s.run.sched.pc 1 = .threw (.countMismatch 6 8589934598) := by
  obtain ⟨s, hrun, hs⟩ := (system ⟨⟨6, true, false, 1, 2, int32⟩, false⟩ Nat).exists_of_map
    [.setProducerChunkSize 4294967299, .checkStop 1, .worker 1 .claim, .worker 1 .endInput,
      .worker 1 .endInput, .worker 1 .endInput, .worker 1 (.producerUpdate true), .checkStop 1,
      .worker 1 .claim, .worker 1 .endInput, .worker 1 .endInput, .worker 1 .endInput,
      .worker 1 (.producerUpdate true)]
    (b := ([(0, 3), (3, 3)], 8589934598, some 6, .threw (.countMismatch 6 8589934598)))
    (fun s => (s.claimed, s.run.sched.stats.producerInputConsumed,
      s.run.sched.stats.producerInputTotal, s.run.sched.pc 1)) rfl
  simp only [Prod.mk.injEq] at hs
  exact ⟨s, hrun.reachable, hs⟩

end Ledger

end YkUtil.Exec
