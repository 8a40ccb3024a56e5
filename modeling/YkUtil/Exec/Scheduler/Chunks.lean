import YkUtil.Exec.Scheduler.Workers

/-!
The input side of the scheduler: chunks are claimed in one block and reported
in another, by many workers out of order. The counters and flags for the input
depend on the chunks that are out and on nothing that the user functions do. They
count in `long long` whatever is claimed, and count inputs as long as the chunk sizes
fit the difference type.
-/

namespace YkUtil.Exec

open YkUtil.Lib

namespace WorkerPc

variable {T : Type*}

/-- The worker has claimed a chunk and not yet reported it. -/
def InChunk : WorkerPc T → Prop
  | .produce _ _ _ | .push _ _ _ _ | .producerUpdate _ _ => True
  | _ => False

/-- What the worker will report for the chunk it is in. -/
def count : WorkerPc T → Int
  | .produce chunk _ _ | .push chunk _ _ _ | .producerUpdate chunk _ => chunk.count
  | _ => 0

/-- The inputs of the chunk the worker is in. -/
def chunk : WorkerPc T → Nat
  | .produce chunk _ _ | .push chunk _ _ _ | .producerUpdate chunk _ => chunk.inputs
  | _ => 0

/-- A chunk that fits is not empty and counts its inputs. -/
def ChunkSound : WorkerPc T → Prop
  | .produce chunk _ _ | .push chunk _ _ _ | .producerUpdate chunk _ =>
      1 ≤ chunk.inputs ∧ chunk.count = chunk.inputs
  | .threw _ | .undefined => False
  | _ => True

theorem count_of_not_inChunk {pc : WorkerPc T} (h : ¬ pc.InChunk) : pc.count = 0 := by
  cases pc with
  | produce | push | producerUpdate => exact absurd trivial h
  | _ => rfl

theorem count_eq_chunk {pc : WorkerPc T} (h : pc.ChunkSound) : pc.count = pc.chunk := by
  cases pc with
  | produce | push | producerUpdate => exact h.2
  | _ => rfl

theorem chunk_eq_zero_iff {pc : WorkerPc T} (h : pc.ChunkSound) :
    pc.chunk = 0 ↔ ¬ pc.InChunk := by
  cases pc with
  | produce | producerUpdate | push =>
      have hone := h.1
      simp only [chunk, InChunk, not_true_eq_false, iff_false]
      omega
  | _ => simp [chunk, InChunk]

end WorkerPc

namespace Scheduler

variable {W : Nat} {T : Type*}

/-- The counters and flags for the input, whatever has been claimed. -/
structure InputInv (cfg : SchedulerConfig) (s : Scheduler W T) : Prop where
  chunkSize : 1 ≤ s.chunkSize
  total : s.stats.producerInputTotal = if cfg.sized then some cfg.inputs else none
  firstLe : cfg.first ≤ s.pos
  posLe : s.pos ≤ cfg.inputs
  wrapped : s.stats.producerInputConsumed =
    longLong.convert (s.stats.producerInputProcessed + heldBy WorkerPc.count s.pc)
  consumedAll : s.stats.producerInputConsumedAll = true ↔
    cfg.first < cfg.inputs ∧ s.pos = cfg.inputs
  processed : s.stats.producerInputProcessedAll = true → s.stats.producerInputConsumedAll = true
  reported : s.stats.producerInputConsumedAll = true → (∀ id, ¬ (s.pc id).InChunk) →
    s.stats.producerInputProcessedAll = true

/-- Where the chunks have fitted, the counters say what has been claimed and
reported, except for the chunks that are out, and the flag for the processed inputs
waits for the last chunk. -/
structure ChunkInv (cfg : SchedulerConfig) (s : Scheduler W T) : Prop
    extends InputInv cfg s where
  sound : ∀ id, (s.pc id).ChunkSound
  claimed : cfg.first + s.stats.producerInputConsumed = s.pos
  nonneg : 0 ≤ s.stats.producerInputProcessed
  outstanding : s.stats.producerInputConsumed =
    s.stats.producerInputProcessed + (heldBy WorkerPc.chunk s.pc : Nat)
  lastChunk : s.stats.producerInputProcessedAll = true → heldBy WorkerPc.chunk s.pc = 0

/-- The claim takes what the chunk size says, and counts it. -/
def ClaimFits (cfg : SchedulerConfig) (s : Scheduler W T) : WorkerAction T → Prop
  | .claim => s.pos ≠ cfg.inputs → ChunkFits cfg.difference cfg.inputs s.pos s.chunkSize
  | _ => True

instance (cfg : SchedulerConfig) (s : Scheduler W T) (action : WorkerAction T) :
    Decidable (ClaimFits cfg s action) :=
  match action with
  | .claim => inferInstanceAs (Decidable (_ → _))
  | .callPush _ | .push | .endInput | .producerUpdate _ | .callPop | .pop _ | .endCall
  | .consumerUpdate _ => inferInstanceAs (Decidable True)

variable {cfg : SchedulerConfig} {s t : Scheduler W T} {id : Fin W} {pc : WorkerPc T}

theorem start_head (cfg : SchedulerConfig) (id : Fin cfg.workers) :
    ((start cfg T).pc id = startConsumer ∨ (start cfg T).pc id = .claim) := by
  simp only [start]
  split
  · exact .inl rfl
  · exact .inr rfl

theorem inputInv_start (cfg : SchedulerConfig) : InputInv cfg (start cfg T) := by
  have hcount : heldBy WorkerPc.count (start cfg T).pc = 0 := heldBy_eq_zero fun id => by
    rcases start_head (T := T) cfg id with hhead | hhead <;> rw [hhead] <;> rfl
  have hfirst : cfg.first ≤ cfg.inputs ∧ ¬ (cfg.first < cfg.inputs ∧ cfg.first = cfg.inputs) := by
    unfold SchedulerConfig.first
    split <;> omega
  refine ⟨Int.le_refl _, rfl, Nat.le_refl _, hfirst.1, ?_, ?_, ?_, ?_⟩
  · rw [hcount]
    rfl
  · exact iff_of_false (by simp [start, SchedulerStats.ofInputs]) hfirst.2
  · simp [start, SchedulerStats.ofInputs]
  · simp [start, SchedulerStats.ofInputs]

theorem chunkInv_start (cfg : SchedulerConfig) : ChunkInv cfg (start cfg T) := by
  have hchunk : heldBy WorkerPc.chunk (start cfg T).pc = 0 := heldBy_eq_zero fun id => by
    rcases start_head (T := T) cfg id with hhead | hhead <;> rw [hhead] <;> rfl
  refine ⟨inputInv_start cfg, fun id => ?_, Int.add_zero _, Int.le_refl _, ?_, fun _ => hchunk⟩
  · rcases start_head (T := T) cfg id with hhead | hhead <;> rw [hhead] <;> trivial
  · rw [hchunk]
    rfl

/-- A consumed count is a number of `count_type`. -/
theorem InputInv.consumed_le (h : InputInv cfg s) :
    s.stats.producerInputConsumed ≤ longLong.max :=
  h.wrapped ▸ longLong.convert_le_max _

theorem InputInv.consumedAll_false (h : InputInv cfg s) (hne : s.pos ≠ cfg.inputs) :
    s.stats.producerInputConsumedAll = false := by
  by_contra hset
  exact hne (h.consumedAll.mp (by simpa using hset)).2

/-- A step that keeps the worker's chunk and every counter for the input. -/
theorem InputInv.move (h : InputInv cfg s) {old : WorkerPc T} (hold : s.pc id = old)
    (hpc : t.pc = Function.update s.pc id pc) (hcount : pc.count = old.count)
    (hchunk : old.InChunk → pc.InChunk) (hchunkSize : t.chunkSize = s.chunkSize)
    (hpos : t.pos = s.pos)
    (hstats : t.stats = {s.stats with
      producerOutput := t.stats.producerOutput
      consumerInputProcessed := t.stats.consumerInputProcessed}) : InputInv cfg t := by
  subst hold
  have hheld : heldBy WorkerPc.count t.pc = heldBy WorkerPc.count s.pc := by
    have hupdate := heldBy_update WorkerPc.count s.pc id pc
    rw [← hpc, hcount] at hupdate
    exact add_right_cancel hupdate
  constructor
  case chunkSize => exact hchunkSize ▸ h.chunkSize
  case total => rw [hstats]; exact h.total
  case firstLe => exact hpos ▸ h.firstLe
  case posLe => exact hpos ▸ h.posLe
  case wrapped => rw [hheld, hstats]; exact h.wrapped
  case consumedAll => rw [hstats, hpos]; exact h.consumedAll
  case processed => rw [hstats]; exact h.processed
  case reported =>
    rw [hstats, hpc]
    intro hall hout
    obtain ⟨hself, hothers⟩ := (Function.forall_update_iff s.pc fun _ pc => ¬ pc.InChunk).mp hout
    refine h.reported hall fun other hin => ?_
    by_cases heq : other = id
    · exact hself (hchunk (heq ▸ hin))
    · exact hothers other heq hin

/-- The same where the chunks have fitted. -/
theorem ChunkInv.move (h : ChunkInv cfg s) {old : WorkerPc T} (hold : s.pc id = old)
    (hpc : t.pc = Function.update s.pc id pc) (hsound : pc.ChunkSound)
    (hchunk : pc.chunk = old.chunk) (hchunkSize : t.chunkSize = s.chunkSize)
    (hpos : t.pos = s.pos)
    (hstats : t.stats = {s.stats with
      producerOutput := t.stats.producerOutput
      consumerInputProcessed := t.stats.consumerInputProcessed}) : ChunkInv cfg t := by
  subst hold
  have hold := h.sound id
  have hcount : pc.count = (s.pc id).count := by
    rw [WorkerPc.count_eq_chunk hsound, WorkerPc.count_eq_chunk hold, hchunk]
  have hin : (s.pc id).InChunk → pc.InChunk := by
    have hnew := WorkerPc.chunk_eq_zero_iff hsound
    rw [hchunk, WorkerPc.chunk_eq_zero_iff hold] at hnew
    exact (not_iff_not.mp hnew).mp
  have hheld : heldBy WorkerPc.chunk t.pc = heldBy WorkerPc.chunk s.pc := by
    have hupdate := heldBy_update WorkerPc.chunk s.pc id pc
    rw [← hpc, hchunk] at hupdate
    exact add_right_cancel hupdate
  refine ⟨h.toInputInv.move rfl hpc hcount hin hchunkSize hpos hstats, fun other => ?_, ?_, ?_, ?_,
    ?_⟩
  · rw [hpc]
    exact (Function.forall_update_iff s.pc fun _ => WorkerPc.ChunkSound).mpr
      ⟨hsound, fun other _ => h.sound other⟩ other
  · rw [hstats, hpos]
    exact h.claimed
  · rw [hstats]
    exact h.nonneg
  · rw [hstats, hheld]
    exact h.outstanding
  · rw [hstats, hheld]
    exact h.lastChunk

theorem enterChunk_count (chunk : Chunk) : (enterChunk chunk : WorkerPc T).count = chunk.count := by
  unfold enterChunk
  split <;> rfl

theorem enterChunk_inChunk (chunk : Chunk) : (enterChunk chunk : WorkerPc T).InChunk := by
  unfold enterChunk
  split <;> trivial

/-- The state after a claim that takes `chunk`. -/
def claimed (cfg : SchedulerConfig) (s : Scheduler W T) (id : Fin W) (chunk : Chunk) :
    Scheduler W T :=
  {s with
    pos := s.pos + chunk.inputs
    stats := {s.stats with
      producerInputConsumed := longLong.convert (s.stats.producerInputConsumed + chunk.count)
      producerInputConsumedAll := decide (s.pos + chunk.inputs = cfg.inputs)}}.move id
    (enterChunk chunk)

/-- A claim never raises a flag that is up. -/
theorem claim_cases (id : Fin W) (h : InputInv cfg s) (hne : s.pos ≠ cfg.inputs) :
    (takeChunk cfg.difference cfg.inputs s.pos s.chunkSize = none ∧
      s.claim cfg id = s.move id .undefined) ∨
    ∃ chunk, takeChunk cfg.difference cfg.inputs s.pos s.chunkSize = some chunk ∧
      s.claim cfg id = s.claimed cfg id chunk := by
  have hflag := h.consumedAll_false hne
  cases htake : takeChunk cfg.difference cfg.inputs s.pos s.chunkSize with
  | none => exact .inl ⟨rfl, by simp only [claim, claimBlock, if_neg hne, htake]⟩
  | some chunk =>
      refine .inr ⟨chunk, rfl, ?_⟩
      rw [claim, claimBlock_of_take hne hflag htake]
      rfl

theorem InputInv.claimed (h : InputInv cfg s) (hpc : s.pc id = .claim)
    (hne : s.pos ≠ cfg.inputs) {chunk : Chunk}
    (htake : takeChunk cfg.difference cfg.inputs s.pos s.chunkSize = some chunk) :
    InputInv cfg (s.claimed cfg id chunk) := by
  have hfirst := h.firstLe
  have hposLe := h.posLe
  have hinputs := (takeChunk_bounds htake).2
  have hheld : heldBy WorkerPc.count (s.claimed cfg id chunk).pc =
      heldBy WorkerPc.count s.pc + chunk.count := by
    have hupdate := heldBy_update WorkerPc.count s.pc id (enterChunk chunk)
    rw [hpc, enterChunk_count] at hupdate
    exact (add_zero _).symm.trans hupdate
  constructor
  case chunkSize => exact h.chunkSize
  case total => exact h.total
  case firstLe =>
    simp only [Scheduler.claimed, Scheduler.move]
    omega
  case posLe =>
    simp only [Scheduler.claimed, Scheduler.move]
    omega
  case wrapped =>
    rw [hheld]
    simp only [Scheduler.claimed, Scheduler.move]
    rw [h.wrapped, longLong.convert_convert_add, Int.add_assoc]
  case consumedAll =>
    simp only [Scheduler.claimed, Scheduler.move, decide_eq_true_eq]
    omega
  case processed =>
    intro hprocessed
    have hall := h.processed hprocessed
    rw [h.consumedAll_false hne] at hall
    cases hall
  case reported =>
    intro _ hout
    refine absurd ?_ (hout id)
    simp only [Scheduler.claimed, Scheduler.move, Function.update_self]
    exact enterChunk_inChunk chunk

theorem InputInv.claim (h : InputInv cfg s) (hpc : s.pc id = .claim)
    (hne : s.pos ≠ cfg.inputs) : InputInv cfg (s.claim cfg id) := by
  rcases claim_cases id h hne with ⟨-, heq⟩ | ⟨chunk, htake, heq⟩ <;> rw [heq]
  · exact h.move hpc rfl rfl (fun hin => hin) rfl rfl rfl
  · exact h.claimed hpc hne htake

/-- A claim fits where the chunk size does, if a `long long` can count the inputs. -/
theorem InputInv.claimFits (h : InputInv cfg s) (hsize : s.chunkSize ≤ cfg.difference.max)
    (hinputs : cfg.inputs ≤ longLong.max) (action : WorkerAction T) : ClaimFits cfg s action := by
  cases action with
  | claim =>
      refine fun _ => ⟨hsize, ?_⟩
      have hposLe := h.posLe
      simp only [chunkInputs]
      omega
  | _ => trivial

/-- The chunk of a claim that fits. -/
def fitting (cfg : SchedulerConfig) (s : Scheduler W T) : Chunk :=
  {first := s.pos
   inputs := chunkInputs cfg.inputs s.pos s.chunkSize
   count := chunkInputs cfg.inputs s.pos s.chunkSize}

section Claim

variable (h : ChunkInv cfg s) (hne : s.pos ≠ cfg.inputs) (hfits : ClaimFits cfg s .claim)
include h hne

theorem ChunkInv.one_le_inputs : 1 ≤ (fitting cfg s).inputs := by
  have hsize := h.chunkSize
  have hposLe := h.posLe
  simp only [fitting, chunkInputs]
  omega

include hfits

theorem ChunkInv.takes :
    takeChunk cfg.difference cfg.inputs s.pos s.chunkSize = some (fitting cfg s) :=
  takeChunk_of_fits (hfits hne) h.chunkSize

theorem claim_eq : s.claim cfg id = {s with
      pos := s.pos + (fitting cfg s).inputs
      stats := {s.stats with
        producerInputConsumed := s.stats.producerInputConsumed + (fitting cfg s).inputs
        producerInputConsumedAll := decide (s.pos + (fitting cfg s).inputs = cfg.inputs)}}.move id
      (.produce (fitting cfg s) (fitting cfg s).inputs 0) := by
  have hone := h.one_le_inputs hne
  have hclaimed := h.claimed
  have hmax : ((s.pos + (fitting cfg s).inputs : Nat) : Int) ≤ longLong.max := (hfits hne).claimed
  have hcount : longLong.convert (s.stats.producerInputConsumed + (fitting cfg s).inputs) =
      s.stats.producerInputConsumed + (fitting cfg s).inputs := by
    have hfirst := h.firstLe
    apply longLong.convert_of_le_max <;> omega
  have henter : (enterChunk (fitting cfg s) : WorkerPc T) =
      .produce (fitting cfg s) (fitting cfg s).inputs 0 := if_neg (by omega)
  rw [claim, claimBlock_of_take hne (h.consumedAll_false hne) (h.takes hne hfits)]
  simp only [henter]
  rw [← hcount]
  rfl

theorem ChunkInv.claim (hpc : s.pc id = .claim) : ChunkInv cfg (s.claim cfg id) := by
  have hinput := h.toInputInv.claim hpc hne
  have hone := h.one_le_inputs hne
  have hclaimed := h.claimed
  have houtstanding := h.outstanding
  rw [claim_eq h hne hfits] at hinput ⊢
  have hheld := heldBy_update WorkerPc.chunk s.pc id
    (.produce (fitting cfg s) (fitting cfg s).inputs 0)
  rw [hpc] at hheld
  simp only [WorkerPc.chunk, add_zero] at hheld
  refine ⟨hinput, ?_, ?_, h.nonneg, ?_, fun hprocessed => ?_⟩
  · exact (Function.forall_update_iff s.pc fun _ => WorkerPc.ChunkSound).mpr
      ⟨⟨hone, rfl⟩, fun other _ => h.sound other⟩
  · simp only [Scheduler.move]
    omega
  · simp only [Scheduler.move]
    omega
  · have hall := h.processed hprocessed
    rw [h.consumedAll_false hne] at hall
    cases hall

end Claim

/-- The block after a chunk counts it, and raises the flag for the processed inputs
when the counts say that it was the last one. -/
theorem reportChunk_stats (stats : SchedulerStats) (count : Int) (output : Nat) :
    (reportChunk stats count output).1 = {stats with
      producerInputProcessed := longLong.convert (stats.producerInputProcessed + count)
      producerOutput := stats.producerOutput + output
      producerInputProcessedAll := stats.producerInputProcessedAll ||
        (stats.producerInputConsumedAll && decide (stats.producerInputConsumed ≤
          longLong.convert (stats.producerInputProcessed + count)))} := by
  unfold reportChunk SchedulerStats.setProducerInputProcessedAll
  by_cases hlast : stats.producerInputConsumedAll = true ∧ stats.producerInputConsumed ≤
      longLong.convert (stats.producerInputProcessed + count)
  · simp only [hlast, and_self, if_true, decide_true, Bool.and_self, Bool.or_true]
    split
    · rename_i hset
      rw [← hset]
    · split
      · rfl
      · split <;> rfl
  · have hnot : (stats.producerInputConsumedAll && decide (stats.producerInputConsumed ≤
        longLong.convert (stats.producerInputProcessed + count))) = false := by
      simpa using hlast
    simp only [hlast, if_false, hnot, Bool.or_false]

/-- What the block after a chunk comes to. A worker stops producing only when the input
is used up; all tasks done is notified. -/
theorem producerUpdate_cases (s : Scheduler W T) (id : Fin W) (chunk : Chunk) (output : Nat)
    (reachesOne : Bool) :
    (∃ error, (reportChunk s.stats chunk.count output).2 = some error ∧
      s.producerUpdate id chunk output reachesOne =
        {s with stats := (reportChunk s.stats chunk.count output).1}.move id (.threw error)) ∨
    ∃ ok r n, (reportChunk s.stats chunk.count output).2 = none ∧
      s.producerUpdate id chunk output reachesOne =
        {s with stats := (reportChunk s.stats chunk.count output).1, notifies := n}.move id
          (afterProducer (.ofId id) ok r) ∧
      ((reportChunk s.stats chunk.count output).1.isAllTaskDone = true → n = s.notifies + 1) ∧
      (ok = false → (reportChunk s.stats chunk.count output).1.isAllTaskDone = true ∨
        s.stats.producerInputConsumedAll = true) := by
  have hflag : (reportChunk s.stats chunk.count output).1.producerInputConsumedAll =
      s.stats.producerInputConsumedAll := by
    rw [reportChunk_stats]
  unfold producerUpdate
  generalize reportChunk s.stats chunk.count output = report at hflag
  obtain ⟨stats, error⟩ := report
  cases error with
  | some error => exact .inl ⟨error, rfl, rfl⟩
  | none =>
      right
      simp only
      split
      · rename_i hdone
        exact ⟨false, false, _, trivial, rfl, fun _ => rfl, fun _ => .inl hdone⟩
      · rename_i hmore
        split
        · rename_i hall
          exact ⟨false, false, s.notifies, trivial, rfl, fun hdone => absurd hdone hmore,
            fun _ => .inr (hflag ▸ hall)⟩
        · exact ⟨true, reachesOne, s.notifies, trivial, rfl, fun hdone => absurd hdone hmore,
            by simp⟩

theorem afterProducer_chunk (kind : WorkerKind) (ok r : Bool) :
    ¬ (afterProducer kind ok r : WorkerPc T).InChunk ∧
      (afterProducer kind ok r : WorkerPc T).ChunkSound ∧
      (afterProducer kind ok r : WorkerPc T).chunk = 0 := by
  cases kind <;> cases ok <;> cases r <;> exact ⟨id, trivial, rfl⟩

theorem afterConsumer_chunk (kind : WorkerKind) (ok r : Bool) :
    ¬ (afterConsumer kind ok r : WorkerPc T).InChunk ∧
      (afterConsumer kind ok r : WorkerPc T).ChunkSound ∧
      (afterConsumer kind ok r : WorkerPc T).chunk = 0 := by
  cases kind <;> cases ok <;> cases r <;> exact ⟨id, trivial, rfl⟩

/-- The last chunk is the one whose count completes the total. -/
theorem ChunkInv.processed_total (h : ChunkInv cfg s) {inputs : Nat}
    (hall : s.stats.producerInputConsumedAll = true)
    (hlast : heldBy WorkerPc.chunk s.pc = inputs) :
    s.stats.producerInputProcessed + inputs = cfg.inputs := by
  have hclaimed := h.claimed
  have houtstanding := h.outstanding
  obtain ⟨hsome, hend⟩ := h.consumedAll.mp hall
  have hfirst : cfg.first = 0 := by
    unfold SchedulerConfig.first at hsome ⊢
    split at hsome
    · omega
    · rename_i hlazy
      rw [if_neg hlazy]
  omega

section Report

variable {chunk : Chunk} {gate : Nat} (hpc : s.pc id = .producerUpdate chunk gate)
include hpc

/-- The report of the last chunk makes the counts agree. -/
theorem InputInv.consumed_of_last (h : InputInv cfg s)
    (hothers : ∀ other, other ≠ id → ¬ (s.pc other).InChunk) :
    s.stats.producerInputConsumed =
      longLong.convert (s.stats.producerInputProcessed + chunk.count) := by
  have hheld := heldBy_update WorkerPc.count s.pc id .left
  have hleft : ¬ (WorkerPc.left : WorkerPc T).InChunk := fun hno => hno
  have hzero : heldBy WorkerPc.count (Function.update s.pc id .left) = 0 :=
    heldBy_eq_zero fun other => WorkerPc.count_of_not_inChunk <|
      (Function.forall_update_iff s.pc fun _ pc => ¬ pc.InChunk).mpr ⟨hleft, hothers⟩ other
  rw [hpc, hzero, zero_add] at hheld
  simp only [WorkerPc.count, add_zero] at hheld
  rw [h.wrapped, ← hheld]

/-- No chunk is out any more after it, so it raises the flag. -/
theorem InputInv.reportedChunk (h : InputInv cfg s) (output : Nat) {n : Nat}
    (hout : ¬ pc.InChunk) : InputInv cfg
      ({s with stats := (reportChunk s.stats chunk.count output).1, notifies := n}.move id pc) := by
  have hheld := heldBy_update WorkerPc.count s.pc id pc
  rw [hpc, WorkerPc.count_of_not_inChunk hout, add_zero] at hheld
  simp only [WorkerPc.count] at hheld
  rw [reportChunk_stats]
  constructor
  case chunkSize => exact h.chunkSize
  case total => exact h.total
  case firstLe => exact h.firstLe
  case posLe => exact h.posLe
  case wrapped =>
    simp only [Scheduler.move]
    rw [h.wrapped, longLong.convert_convert_add, ← hheld]
    congr 1
    omega
  case consumedAll => exact h.consumedAll
  case processed =>
    simp only [Scheduler.move, Bool.or_eq_true, Bool.and_eq_true]
    rintro (hset | ⟨hall, -⟩)
    · exact h.processed hset
    · exact hall
  case reported =>
    intro hall hnone
    have hequal := h.consumed_of_last hpc fun other hne => by
      simpa only [Scheduler.move, Function.update_of_ne hne] using hnone other
    simp only [Scheduler.move] at hall ⊢
    rw [hall, hequal]
    simp

theorem chunk_le : chunk.inputs ≤ heldBy WorkerPc.chunk s.pc := by
  have hle := le_heldBy WorkerPc.chunk s.pc id
  rwa [hpc] at hle

variable (h : ChunkInv cfg s)
include h

theorem ChunkInv.processed_false : s.stats.producerInputProcessedAll = false := by
  by_contra hset
  have hzero := h.lastChunk (by simpa using hset)
  have hchunk := heldBy_eq_zero_iff.mp hzero id
  have hsound := h.sound id
  rw [hpc] at hchunk hsound
  exact absurd hchunk (Nat.ne_of_gt hsound.1)

theorem ChunkInv.processed_add :
    longLong.convert (s.stats.producerInputProcessed + chunk.count) =
      s.stats.producerInputProcessed + chunk.inputs := by
  have houtstanding := h.outstanding
  have hchunk := chunk_le hpc
  have hle := h.consumed_le
  have hnonneg := h.nonneg
  have hsound := h.sound id
  rw [hpc] at hsound
  rw [hsound.2]
  apply longLong.convert_of_le_max
  · omega
  · omega

/-- A finished chunk is counted; the flag for the processed inputs goes up when
no other chunk is out, and nothing is thrown. -/
theorem reportChunk_eq (output : Nat) : reportChunk s.stats chunk.count output = ({s.stats with
    producerInputProcessed := s.stats.producerInputProcessed + chunk.inputs
    producerOutput := s.stats.producerOutput + output
    producerInputProcessedAll := s.stats.producerInputConsumedAll &&
      decide (heldBy WorkerPc.chunk s.pc = chunk.inputs)}, none) := by
  have hfalse := h.processed_false hpc
  have houtstanding := h.outstanding
  have hchunk := chunk_le hpc
  have hlast : s.stats.producerInputConsumed ≤ s.stats.producerInputProcessed + chunk.inputs ↔
      heldBy WorkerPc.chunk s.pc = chunk.inputs := by omega
  refine Prod.ext ?_ ?_
  · rw [reportChunk_stats, h.processed_add hpc, hfalse, Bool.false_or]
    simp only [hlast]
  · unfold reportChunk SchedulerStats.setProducerInputProcessedAll
    simp only [h.processed_add hpc, hfalse, h.total, Bool.false_eq_true, if_false, hlast]
    split
    · rename_i hall
      have htotal := h.processed_total hall.1 hall.2
      cases cfg.sized
      · rfl
      · simp [htotal]
    · rfl

/-- The block after a chunk: the worker goes on with empty hands, and stops
producing only when the input is used up. All tasks done is notified. -/
theorem producerUpdate_eq (output : Nat) (reachesOne : Bool) :
    ∃ ok r n, s.producerUpdate id chunk output reachesOne =
        {s with stats := (reportChunk s.stats chunk.count output).1, notifies := n}.move id
          (afterProducer (.ofId id) ok r) ∧
      ((reportChunk s.stats chunk.count output).1.isAllTaskDone = true → n = s.notifies + 1) ∧
      (ok = false → s.pos = cfg.inputs) := by
  have hreport := reportChunk_eq hpc h output
  rcases producerUpdate_cases s id chunk output reachesOne with
    ⟨error, herror, -⟩ | ⟨ok, r, n, -, heq, hdone, hends⟩
  · rw [hreport] at herror
    cases herror
  · refine ⟨ok, r, n, heq, hdone, fun hok => ?_⟩
    rcases hends hok with hdone | hall
    · rw [hreport] at hdone
      have hall := ((SchedulerStats.isAllTaskDone_iff _).mp hdone).1
      exact (h.consumedAll.mp (Bool.and_eq_true_iff.mp hall).1).2
    · exact (h.consumedAll.mp hall).2

theorem ChunkInv.reportedChunk (output : Nat) {ok r : Bool} {n : Nat} : ChunkInv cfg
    ({s with stats := (reportChunk s.stats chunk.count output).1, notifies := n}.move id
      (afterProducer (.ofId id) ok r)) := by
  obtain ⟨hout, hsound, hnone⟩ := afterProducer_chunk (T := T) (.ofId id) ok r
  have hinput := h.toInputInv.reportedChunk hpc output (n := n) hout
  have hheld := heldBy_update WorkerPc.chunk s.pc id (afterProducer (.ofId id) ok r)
  rw [hpc, hnone, add_zero] at hheld
  simp only [WorkerPc.chunk] at hheld
  have houtstanding := h.outstanding
  rw [reportChunk_eq hpc h] at hinput ⊢
  refine ⟨hinput, ?_, h.claimed, ?_, ?_, ?_⟩
  · exact (Function.forall_update_iff s.pc fun _ => WorkerPc.ChunkSound).mpr
      ⟨hsound, fun other _ => h.sound other⟩
  · exact Int.add_nonneg h.nonneg (Int.natCast_nonneg _)
  · simp only [Scheduler.move]
    omega
  · simp only [Scheduler.move, Bool.and_eq_true, decide_eq_true_eq]
    omega

end Report

theorem consumerUpdate_eq (s : Scheduler W T) (id : Fin W) (gate : Nat) (values : List T)
    (reachesOne : Bool) : ∃ ok r n, s.consumerUpdate id gate values reachesOne =
      {s with
        stats := {s.stats with consumerInputProcessed := s.stats.consumerInputProcessed + gate}
        settled := s.settled + values
        notifies := n}.move id (afterConsumer (.ofId id) ok r) ∧
      ((s.consumerUpdate id gate values reachesOne).stats.isAllTaskDone = true →
        n = s.notifies + 1) ∧
      (ok = false → (s.consumerUpdate id gate values reachesOne).stats.isAllTaskDone = true) := by
  unfold consumerUpdate
  simp only
  split
  · rename_i hdone
    exact ⟨false, false, _, rfl, fun _ => rfl, fun _ => hdone⟩
  · rename_i hmore
    exact ⟨true, reachesOne, s.notifies, rfl, fun hdone => absurd hdone hmore, by simp⟩

/-- A worker's step moves no other worker. -/
theorem workerStep_pc_of_ne {action : WorkerAction T} {other : Fin W} (hne : other ≠ id)
    (hstep : s.workerStep cfg id (s.pc id) action = some t) : t.pc other = s.pc other := by
  have hother (u : Scheduler W T) (pc : WorkerPc T) : (u.move id pc).pc other = u.pc other :=
    Function.update_of_ne hne _ _
  cases workerStep_cases hstep with
  | claims =>
      unfold Scheduler.claim
      split <;> exact hother _ _
  | @reports chunk gate reachesOne =>
      rcases producerUpdate_cases s id chunk gate reachesOne with
        ⟨_, -, heq⟩ | ⟨_, _, _, -, heq, -⟩ <;> rw [heq] <;> exact hother _ _
  | settles reachesOne =>
      obtain ⟨ok, r, n, heq, _⟩ := consumerUpdate_eq s id _ _ reachesOne
      rw [heq]
      exact hother _ _
  | _ => exact hother _ _

theorem workerStep_chunkSize {action : WorkerAction T}
    (hstep : s.workerStep cfg id (s.pc id) action = some t) : t.chunkSize = s.chunkSize := by
  cases workerStep_cases hstep with
  | claims =>
      unfold claim
      split <;> rfl
  | @reports chunk gate reachesOne =>
      rcases producerUpdate_cases s id chunk gate reachesOne with
        ⟨_, -, heq⟩ | ⟨_, _, _, -, heq, -⟩ <;> rw [heq] <;> rfl
  | settles reachesOne =>
      obtain ⟨_, _, _, heq, -⟩ := consumerUpdate_eq s id _ _ reachesOne
      rw [heq]
      rfl
  | _ => rfl

theorem InputInv.workerStep (h : InputInv cfg s) {action : WorkerAction T}
    (hstep : s.workerStep cfg id (s.pc id) action = some t) : InputInv cfg t := by
  cases workerStep_cases hstep with
  | claims hpc hmore => exact h.claim hpc hmore
  | @reports chunk gate reachesOne hpc =>
      rcases producerUpdate_cases s id chunk gate reachesOne with
        ⟨_, -, heq⟩ | ⟨_, _, _, -, heq, -⟩
      · rw [heq]
        exact h.reportedChunk hpc gate fun hno => hno
      · rw [heq]
        exact h.reportedChunk hpc gate (afterProducer_chunk _ _ _).1
  | settles reachesOne hpc =>
      obtain ⟨ok, r, n, heq, _⟩ := consumerUpdate_eq s id _ _ reachesOne
      rw [heq]
      exact h.move hpc rfl (WorkerPc.count_of_not_inChunk (afterConsumer_chunk _ _ _).1)
        (fun hno => hno.elim) rfl rfl rfl
  | endOfInput hpc | callsPush _ hpc | pushes hpc | endsInput hpc | endsChunk hpc | callsPop hpc
  | pops hpc | endsCall hpc => exact h.move hpc rfl rfl (fun hin => hin) rfl rfl rfl

theorem ChunkInv.workerStep (h : ChunkInv cfg s) {action : WorkerAction T}
    (hfits : ClaimFits cfg s action)
    (hstep : s.workerStep cfg id (s.pc id) action = some t) : ChunkInv cfg t := by
  have hsound := h.sound id
  cases workerStep_cases hstep with
  | claims hpc hmore => exact h.claim hmore hfits hpc
  | reports reachesOne hpc =>
      obtain ⟨ok, r, n, heq, _⟩ := producerUpdate_eq hpc h _ reachesOne
      rw [heq]
      exact h.reportedChunk hpc _
  | settles reachesOne hpc =>
      obtain ⟨ok, r, n, heq, _⟩ := consumerUpdate_eq s id _ _ reachesOne
      obtain ⟨-, hhead, hnone⟩ := afterConsumer_chunk (T := T) (.ofId id) ok r
      rw [heq]
      exact h.move hpc rfl hhead hnone rfl rfl rfl
  | endOfInput hpc | callsPop hpc | pops hpc | endsCall hpc =>
      exact h.move hpc rfl trivial rfl rfl rfl rfl
  | callsPush _ hpc | pushes hpc | endsInput hpc | endsChunk hpc =>
      rw [hpc] at hsound
      exact h.move hpc rfl hsound rfl rfl rfl rfl

theorem InputInv.setProducerChunkSize (h : InputInv cfg s) (chunkSize : Int) :
    InputInv cfg (s.setProducerChunkSize chunkSize) :=
  {h with chunkSize := one_le_newChunkSize h.chunkSize chunkSize}

theorem ChunkInv.setProducerChunkSize (h : ChunkInv cfg s) (chunkSize : Int) :
    ChunkInv cfg (s.setProducerChunkSize chunkSize) :=
  {h with chunkSize := one_le_newChunkSize h.chunkSize chunkSize}

theorem ChunkInv.chunk_zero_iff (h : ChunkInv cfg s) :
    heldBy WorkerPc.chunk s.pc = 0 ↔ ∀ id, ¬ (s.pc id).InChunk := by
  rw [heldBy_eq_zero_iff]
  exact forall_congr' fun id => WorkerPc.chunk_eq_zero_iff (h.sound id)

theorem ChunkInv.processedAll (h : ChunkInv cfg s) : s.stats.producerInputProcessedAll = true ↔
    s.stats.producerInputConsumedAll = true ∧ ∀ id, ¬ (s.pc id).InChunk :=
  ⟨fun hset => ⟨h.processed hset, h.chunk_zero_iff.mp (h.lastChunk hset)⟩,
    fun hall => h.toInputInv.reported hall.1 hall.2⟩

end Scheduler

end YkUtil.Exec
