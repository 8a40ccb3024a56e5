import YkUtil.Exec.Scheduler.Completion
import YkUtil.Exec.Scheduler.QueueGate

/-!
The `single_push` scheduler. The gate of a producer is not counted: it knows
whether it was discarded, and, in a debug build, whether it was accessed. One
gate is made for a chunk and every call for an input of the chunk gets it. The
consumers are those of the counted gate; a `single_pop` consumer that accesses
its gate once is one of them.
-/

namespace YkUtil.Exec

open YkUtil.Lib

/-- `debug` is a build without `NDEBUG`. -/
structure SinglePushConfig extends SchedulerConfig where
  debug : Bool

/-- `called` says that the producer call that is running has used the gate. -/
structure ProducerGate where
  gate : QueueGate
  called : Bool

structure SinglePush (W : Nat) (T : Type*) where
  sched : Scheduler W T
  gate : Fin W → ProducerGate
  failed : Fin W → Option GateFailure

inductive SinglePushAction (W : Nat) (T : Type*) where
  | worker (id : Fin W) (action : WorkerAction T)
  | discard (id : Fin W)
  | setProducerChunkSize (chunkSize : Int)

def ProducerGate.make : ProducerGate := {gate := .make, called := false}

namespace SinglePush

variable {W : Nat} {T : Type*}

def fail (s : SinglePush W T) (id : Fin W) (failure : GateFailure) : SinglePush W T :=
  {s with failed := Function.update s.failed id (some failure)}

def setGate (s : SinglePush W T) (id : Fin W) (gate : ProducerGate) : SinglePush W T :=
  {s with gate := Function.update s.gate id gate}

/-- A producer call uses the gate exactly once: it calls `push_wait` or
`discard` and then returns. A report whose assertion fails ends the program. -/
def workerStep (cfg : SinglePushConfig) (s : SinglePush W T) (id : Fin W) (pc : WorkerPc T)
    (action : WorkerAction T) : Option (SinglePush W T) :=
  let used := s.gate id
  let go := (s.sched.workerStep cfg.toSchedulerConfig id pc action).map fun sched =>
    {s with sched := sched}
  match pc, action with
  | .claim, .claim => go.map fun t => t.setGate id .make
  | .produce _ _ _, .callPush _ =>
      if used.called then none
      else match used.gate.enterQueue cfg.debug with
        | .error failure => some (s.fail id failure)
        | .ok gate => go.map fun t => t.setGate id {gate := gate, called := true}
  | .produce _ _ _, .endInput =>
      if used.called then go.map fun t => t.setGate id {used with called := false} else none
  | .producerUpdate chunk _, .producerUpdate reachesOne =>
      (used.gate.output cfg.debug).map fun output =>
        {s with sched := s.sched.producerUpdate id chunk output reachesOne}
  | _, _ => go

/-- `gate.discard()`. -/
def discard (s : SinglePush W T) (id : Fin W) : WorkerPc T → Option (SinglePush W T)
  | .produce _ _ _ =>
      let used := s.gate id
      if used.called then none
      else match used.gate.discard with
        | .error failure => some (s.fail id failure)
        | .ok gate => some (s.setGate id {gate := gate, called := true})
  | _ => none

def step (cfg : SinglePushConfig) (s : SinglePush W T) :
    SinglePushAction W T → Option (SinglePush W T)
  | .worker id action =>
      if (s.failed id).isSome then none else s.workerStep cfg id (s.sched.pc id) action
  | .discard id => if (s.failed id).isSome then none else s.discard id (s.sched.pc id)
  | .setProducerChunkSize chunkSize =>
      some {s with sched := s.sched.setProducerChunkSize chunkSize}

def system (cfg : SinglePushConfig) (T : Type*) :
    TransitionSystem (SinglePush cfg.workers T) (SinglePushAction cfg.workers T) :=
  {init :=
    {sched := Scheduler.start cfg.toSchedulerConfig T
     gate := fun _ => .make
     failed := fun _ => none}
   step := step cfg}

/-- What a worker's step does to its gate. -/
inductive GateStep (debug : Bool) (used : ProducerGate) :
    WorkerPc T → WorkerAction T → ProducerGate → Prop where
  | makes : GateStep debug used .claim .claim .make
  | pushes {chunk : Chunk} {left pushed : Nat} {v : T} {gate : QueueGate}
      (hcalled : used.called = false) (henter : used.gate.enterQueue debug = .ok gate) :
      GateStep debug used (.produce chunk left pushed) (.callPush v) {gate := gate, called := true}
  | endsInput {chunk : Chunk} {left pushed : Nat} (hcalled : used.called = true) :
      GateStep debug used (.produce chunk left pushed) .endInput {used with called := false}
  | keeps {pc : WorkerPc T} {action : WorkerAction T}
      (haction : action = .push ∨ action = .callPop ∨ (∃ index, action = .pop index) ∨
        action = .endCall ∨ ∃ reachesOne, action = .consumerUpdate reachesOne) :
      GateStep debug used pc action used

/-- Everything a step can be. -/
inductive Step (cfg : SinglePushConfig) (s : SinglePush W T) :
    SinglePushAction W T → SinglePush W T → Prop where
  | works {id : Fin W} {action : WorkerAction T} {sched : Scheduler W T} {used : ProducerGate}
      (hstep : s.sched.workerStep cfg.toSchedulerConfig id (s.sched.pc id) action = some sched)
      (hgate : GateStep cfg.debug (s.gate id) (s.sched.pc id) action used) :
      Step cfg s (.worker id action) (setGate {s with sched := sched} id used)
  | reports {id : Fin W} {chunk : Chunk} {pushed output : Nat} (reachesOne : Bool)
      (hpc : s.sched.pc id = .producerUpdate chunk pushed)
      (houtput : (s.gate id).gate.output cfg.debug = some output) :
      Step cfg s (.worker id (.producerUpdate reachesOne))
        {s with sched := s.sched.producerUpdate id chunk output reachesOne}
  | discards {id : Fin W} {chunk : Chunk} {left pushed : Nat} {gate : QueueGate}
      (hpc : s.sched.pc id = .produce chunk left pushed) (hcalled : (s.gate id).called = false)
      (hdiscard : (s.gate id).gate.discard = .ok gate) :
      Step cfg s (.discard id) (s.setGate id {gate := gate, called := true})
  | fails {id : Fin W} {chunk : Chunk} {left pushed : Nat} {a : SinglePushAction W T}
      {failure : GateFailure}
      (hpc : s.sched.pc id = .produce chunk left pushed) (hcalled : (s.gate id).called = false)
      (hused : (s.gate id).gate.alreadyAccessed = true ∨ (s.gate id).gate.attached = false) :
      Step cfg s a (s.fail id failure)
  | setsChunkSize (chunkSize : Int) : Step cfg s (.setProducerChunkSize chunkSize)
      {s with sched := s.sched.setProducerChunkSize chunkSize}

variable {cfg : SinglePushConfig} {s t : SinglePush W T} {a : SinglePushAction W T} {id : Fin W}

theorem workerStep_cases {action : WorkerAction T}
    (h : s.workerStep cfg id (s.sched.pc id) action = some t) :
    Step cfg s (.worker id action) t := by
  have hkeeps (hold : ∀ sched, s.sched.workerStep cfg.toSchedulerConfig id (s.sched.pc id) action =
        some sched → GateStep cfg.debug (s.gate id) (s.sched.pc id) action (s.gate id))
      (hgo : (s.sched.workerStep cfg.toSchedulerConfig id (s.sched.pc id) action).map
        (fun sched => {s with sched := sched}) = some t) : Step cfg s (.worker id action) t := by
    obtain ⟨sched, hsched, rfl⟩ := Option.map_eq_some_iff.mp hgo
    have hsame : setGate {s with sched := sched} id (s.gate id) = {s with sched := sched} := by
      simp only [setGate, Function.update_eq_self]
    rw [← hsame]
    exact .works hsched (hold sched hsched)
  cases hpc : s.sched.pc id <;> cases action
  case claim.claim =>
    rw [hpc] at h
    simp only [workerStep, Option.map_map, Option.map_eq_some_iff] at h
    obtain ⟨sched, hsched, rfl⟩ := h
    exact .works (hpc ▸ hsched) (hpc ▸ .makes)
  case produce.callPush chunk left pushed v =>
    rw [hpc] at h
    simp only [workerStep, Option.ite_none_left_eq_some] at h
    obtain ⟨hcalled, h⟩ := h
    have hcalled : (s.gate id).called = false := by simpa using hcalled
    split at h
    · rename_i failure henter
      cases h
      exact .fails hpc hcalled (QueueGate.enterQueue_error henter)
    · rename_i gate henter
      simp only [Option.map_map, Option.map_eq_some_iff] at h
      obtain ⟨sched, hsched, rfl⟩ := h
      exact .works (hpc ▸ hsched) (hpc ▸ .pushes hcalled henter)
  case produce.endInput chunk left pushed =>
    rw [hpc] at h
    simp only [workerStep, Option.map_map, Option.ite_none_right_eq_some,
      Option.map_eq_some_iff] at h
    obtain ⟨hcalled, sched, hsched, rfl⟩ := h
    exact .works (hpc ▸ hsched) (hpc ▸ .endsInput hcalled)
  case producerUpdate.producerUpdate chunk pushed reachesOne =>
    rw [hpc] at h
    simp only [workerStep, Option.map_eq_some_iff] at h
    obtain ⟨output, houtput, rfl⟩ := h
    exact .reports reachesOne hpc houtput
  all_goals
    refine hkeeps (fun sched hsched => ?_) (by rw [hpc] at h ⊢; exact h)
    rw [hpc] at hsched
    first
      | cases hsched; done
      | exact .keeps (by simp)

theorem step_cases (h : step cfg s a = some t) : Step cfg s a t := by
  cases a with
  | worker id action =>
      simp only [step, Option.ite_none_left_eq_some] at h
      exact workerStep_cases h.2
  | discard id =>
      simp only [step, Option.ite_none_left_eq_some] at h
      obtain ⟨_, h⟩ := h
      cases hpc : s.sched.pc id <;> rw [hpc] at h <;>
        simp only [discard, reduceCtorEq, Option.ite_none_left_eq_some] at h
      obtain ⟨hcalled, h⟩ := h
      have hcalled : (s.gate id).called = false := by simpa using hcalled
      split at h <;> cases h
      · rename_i hdiscard
        exact .fails hpc hcalled (.inr (QueueGate.discard_error hdiscard))
      · rename_i hdiscard
        exact .discards hpc hcalled hdiscard
  | setProducerChunkSize chunkSize =>
      cases h
      exact .setsChunkSize chunkSize

end SinglePush

/-- What the gate knows of the calls for the chunk so far: each has pushed or
discarded, and none came after a discard. -/
def ProducerGate.Sound {T : Type*} (used : ProducerGate) : WorkerPc T → Prop
  | .produce chunk left pushed => 1 ≤ left ∧ left ≤ chunk.inputs ∧
      pushed + (!used.gate.attached).toNat + left = chunk.inputs + used.called.toNat ∧
      (used.gate.alreadyAccessed = true → 1 ≤ pushed)
  | .push chunk left pushed _ => 1 ≤ left ∧ left ≤ chunk.inputs ∧ used.called = true ∧
      used.gate.attached = true ∧ pushed + left = chunk.inputs + 1
  | .producerUpdate chunk pushed => pushed + (!used.gate.attached).toNat = chunk.inputs
  | _ => True

namespace SinglePush

variable {W : Nat} {T : Type*}

structure GateInv (cfg : SinglePushConfig) (s : SinglePush W T) : Prop where
  input : Scheduler.InputInv cfg.toSchedulerConfig s.sched
  gates : ∀ id, (s.gate id).Sound (s.sched.pc id)

theorem gateInv_start (cfg : SinglePushConfig) : GateInv cfg (system cfg T).init := by
  refine ⟨Scheduler.inputInv_start _, fun id => ?_⟩
  simp only [system, Scheduler.start]
  split <;> trivial

variable {cfg : SinglePushConfig} {s t : SinglePush W T} {a : SinglePushAction W T} {id : Fin W}

/-- Worker `id` goes on with `gate`. -/
theorem GateInv.worker (h : GateInv cfg s) {used : ProducerGate} {sched : Scheduler W T}
    (hinput : Scheduler.InputInv cfg.toSchedulerConfig sched)
    (hpc : ∀ other, other ≠ id → sched.pc other = s.sched.pc other)
    (hgate : used.Sound (sched.pc id)) : GateInv cfg (setGate {s with sched := sched} id used) := by
  refine ⟨hinput, fun other => ?_⟩
  by_cases heq : other = id
  · subst heq
    simpa only [setGate, Function.update_self] using hgate
  · simpa only [setGate, Function.update_of_ne heq, hpc other heq] using h.gates other

theorem GateInv.works (h : GateInv cfg s) {action : WorkerAction T} {sched : Scheduler W T}
    {used : ProducerGate}
    (hstep : s.sched.workerStep cfg.toSchedulerConfig id (s.sched.pc id) action = some sched)
    (hgate : GateStep cfg.debug (s.gate id) (s.sched.pc id) action used) :
    GateInv cfg (setGate {s with sched := sched} id used) := by
  refine h.worker (h.input.workerStep hstep)
    (fun other hne => Scheduler.workerStep_pc_of_ne hne hstep) ?_
  have hsound := h.gates id
  have hself (u : Scheduler W T) (pc : WorkerPc T) : (u.move id pc).pc id = pc :=
    Function.update_self _ _ _
  cases Scheduler.workerStep_cases hstep with
  | endOfInput | callsPop | pops | endsCall =>
      rw [hself]
      trivial
  | claims hpc hmore =>
      rw [hpc] at hgate
      cases hgate with
      | makes =>
          rcases Scheduler.claim_cases id h.input hmore with ⟨-, heq⟩ | ⟨chunk, -, heq⟩
          · rw [heq, hself]
            trivial
          · rw [heq, Scheduler.claimed, hself, Scheduler.enterChunk]
            split
            · rename_i hnone
              exact hnone.symm
            · exact ⟨by omega, Nat.le_refl _, by simp [ProducerGate.make, QueueGate.make],
                by simp [ProducerGate.make, QueueGate.make]⟩
      | keeps haction => simp at haction
  | callsPush v hpc =>
      rw [hpc] at hgate hsound
      rw [hself]
      obtain ⟨hone, hle, hcalls, _⟩ := hsound
      cases hgate with
      | pushes hcalled henter =>
          obtain ⟨hattached, hattached', -⟩ := QueueGate.enterQueue_cases henter
          rw [hcalled, hattached] at hcalls
          simp only [Bool.not_true, Bool.toNat_false] at hcalls
          exact ⟨hone, hle, rfl, hattached', by omega⟩
      | keeps haction => simp at haction
  | pushes hpc =>
      rw [hpc] at hgate hsound
      rw [hself]
      obtain ⟨hone, hle, hcalled, hattached, hcalls⟩ := hsound
      cases hgate
      refine ⟨hone, hle, ?_, fun _ => by omega⟩
      rw [hcalled, hattached]
      simpa using hcalls
  | endsInput hpc hmore =>
      rw [hpc] at hgate hsound
      rw [hself]
      obtain ⟨hone, hle, hcalls, haccessed⟩ := hsound
      cases hgate with
      | endsInput hcalled =>
          rw [hcalled, Bool.toNat_true] at hcalls
          exact ⟨by omega, by omega, by simp only [Bool.toNat_false]; omega, haccessed⟩
      | keeps haction => simp at haction
  | endsChunk hpc hlast =>
      rw [hpc] at hgate hsound
      rw [hself]
      obtain ⟨hone, hle, hcalls, haccessed⟩ := hsound
      cases hgate with
      | endsInput hcalled =>
          rw [hcalled, Bool.toNat_true] at hcalls
          simp only [ProducerGate.Sound]
          omega
      | keeps haction => simp at haction
  | reports _ hpc =>
      rw [hpc] at hgate
      cases hgate with
      | keeps haction => simp at haction
  | settles reachesOne hpc =>
      obtain ⟨ok, r, n, heq, _⟩ := Scheduler.consumerUpdate_eq s.sched id _ _ reachesOne
      rw [heq, hself]
      cases WorkerKind.ofId id.val <;> cases ok <;> cases r <;> trivial

theorem GateInv.reports (h : GateInv cfg s) {chunk : Chunk} {pushed : Nat} (output : Nat)
    (reachesOne : Bool) (hpc : s.sched.pc id = .producerUpdate chunk pushed) :
    GateInv cfg {s with sched := s.sched.producerUpdate id chunk output reachesOne} := by
  have hothers (pc : WorkerPc T) (hsound : (s.gate id).Sound pc) (other : Fin W) :
      (s.gate other).Sound (Function.update s.sched.pc id pc other) :=
    (Function.forall_update_iff s.sched.pc fun other => (s.gate other).Sound).mpr
      ⟨hsound, fun other _ => h.gates other⟩ other
  rcases Scheduler.producerUpdate_cases s.sched id chunk output reachesOne with
    ⟨_, -, heq⟩ | ⟨ok, r, _, -, heq, -⟩ <;> rw [heq]
  · exact ⟨h.input.reportedChunk hpc _ (fun hno => hno), hothers _ trivial⟩
  · refine ⟨h.input.reportedChunk hpc _ (Scheduler.afterProducer_chunk _ _ _).1, hothers _ ?_⟩
    cases WorkerKind.ofId id.val <;> cases ok <;> cases r <;> trivial

theorem GateInv.discards (h : GateInv cfg s) {chunk : Chunk} {left pushed : Nat} {gate : QueueGate}
    (hpc : s.sched.pc id = .produce chunk left pushed) (hcalled : (s.gate id).called = false)
    (hdiscard : (s.gate id).gate.discard = .ok gate) :
    GateInv cfg (s.setGate id {gate := gate, called := true}) := by
  obtain ⟨hattached, rfl⟩ := QueueGate.discard_cases hdiscard
  refine h.worker h.input (fun _ _ => rfl) ?_
  have hsound := h.gates id
  rw [hpc] at hsound ⊢
  obtain ⟨hone, hle, hcalls, haccessed⟩ := hsound
  rw [hcalled, hattached] at hcalls
  simp only [Bool.not_true, Bool.toNat_false] at hcalls
  refine ⟨hone, hle, ?_, haccessed⟩
  simp only [Bool.not_false, Bool.toNat_true]
  omega

theorem GateInv.step (h : GateInv cfg s) (hstep : SinglePush.step cfg s a = some t) :
    GateInv cfg t := by
  cases step_cases hstep with
  | works hworks hgate => exact h.works hworks hgate
  | reports reachesOne hpc => exact h.reports _ reachesOne hpc
  | discards hpc hcalled hdiscard => exact h.discards hpc hcalled hdiscard
  | fails => exact ⟨h.input, h.gates⟩
  | setsChunkSize chunkSize => exact ⟨h.input.setProducerChunkSize chunkSize, h.gates⟩

theorem gateInv_of_reachable {s : SinglePush cfg.workers T} (h : (system cfg T).Reachable s) :
    GateInv cfg s :=
  (system cfg T).invariant (gateInv_start cfg) (fun _ _ _ _ hs hstep => hs.step hstep) h

/-- What a chunk adds to `producer_output`. -/
theorem growth {chunk : Chunk} {pushed : Nat} (reachesOne : Bool)
    (hpc : s.sched.pc id = .producerUpdate chunk pushed)
    (hstep : SinglePush.step cfg s (.worker id (.producerUpdate reachesOne)) = some t) :
    ∃ output, (s.gate id).gate.output cfg.debug = some output ∧
      t.sched.stats.producerOutput = s.sched.stats.producerOutput + output := by
  simp only [SinglePush.step, hpc, workerStep, Option.ite_none_left_eq_some,
    Option.map_eq_some_iff] at hstep
  obtain ⟨-, output, houtput, rfl⟩ := hstep
  refine ⟨output, houtput, ?_⟩
  rcases Scheduler.producerUpdate_cases s.sched id chunk output reachesOne with
    ⟨_, -, heq⟩ | ⟨ok, r, _, -, heq, -⟩ <;>
    simp only [heq, Scheduler.reportChunk_stats, Scheduler.move]

/-- The growth is the number of pushes for chunks of one input only. -/
theorem GateInv.output_iff (h : GateInv cfg s) {chunk : Chunk} {pushed output : Nat}
    (hpc : s.sched.pc id = .producerUpdate chunk pushed)
    (houtput : (s.gate id).gate.output cfg.debug = some output) :
    output = pushed ↔ chunk.inputs = 1 := by
  have hsound := h.gates id
  rw [hpc] at hsound
  simp only [ProducerGate.Sound] at hsound
  rw [QueueGate.output_eq houtput]
  cases hattached : (s.gate id).gate.attached <;>
    simp only [hattached, Bool.not_false, Bool.not_true, Bool.toNat_false, Bool.toNat_true]
      at hsound ⊢ <;>
    omega

/-- A claim fits and takes at most one input: the chunk size is one, or one input is
left. -/
def OneInput (cfg : SinglePushConfig) (s : SinglePush W T) : SinglePushAction W T → Prop
  | .worker _ .claim => Scheduler.ClaimFits cfg.toSchedulerConfig s.sched .claim ∧
      chunkInputs cfg.inputs s.sched.pos s.sched.chunkSize ≤ 1
  | _ => True

instance (cfg : SinglePushConfig) (s : SinglePush W T) (a : SinglePushAction W T) :
    Decidable (OneInput cfg s a) :=
  match a with
  | .worker _ .claim => inferInstanceAs (Decidable (_ ∧ _))
  | .worker _ (.callPush _) | .worker _ .push | .worker _ .endInput | .worker _ (.producerUpdate _)
  | .worker _ .callPop | .worker _ (.pop _) | .worker _ .endCall | .worker _ (.consumerUpdate _)
  | .discard _ | .setProducerChunkSize _ => inferInstanceAs (Decidable True)

theorem OneInput.fits {action : WorkerAction T} (h : OneInput cfg s (.worker id action)) :
    Scheduler.ClaimFits cfg.toSchedulerConfig s.sched action := by
  cases action with
  | claim => exact h.1
  | _ => trivial

/-- With chunks of one input the gate says as much as a counted one. -/
structure OneInputInv (cfg : SinglePushConfig) (s : SinglePush W T) : Prop where
  gates : GateInv cfg s
  sched : Scheduler.Inv cfg.toSchedulerConfig s.sched
  chunk : ∀ id, (s.sched.pc id).chunk ≤ 1
  failed : ∀ id, s.failed id = none

theorem oneInputInv_start (cfg : SinglePushConfig) : OneInputInv cfg (system cfg T).init := by
  refine ⟨gateInv_start cfg, Scheduler.inv_start _, fun id => ?_, fun _ => rfl⟩
  simp only [system, Scheduler.start]
  split <;> exact Nat.zero_le _

theorem chunk_le_one {action : WorkerAction T} {sched : Scheduler W T} (h : OneInputInv cfg s)
    (hone : OneInput cfg s (.worker id action))
    (hstep : s.sched.workerStep cfg.toSchedulerConfig id (s.sched.pc id) action = some sched)
    (other : Fin W) : (sched.pc other).chunk ≤ 1 := by
  by_cases heq : other = id
  · subst heq
    have hold := h.chunk other
    have hself (u : Scheduler W T) (pc : WorkerPc T) : (u.move other pc).pc other = pc :=
      Function.update_self _ _ _
    cases Scheduler.workerStep_cases hstep with
    | claims hpc hmore =>
        rw [Scheduler.claim_eq h.sched.chunks hmore hone.1, hself]
        exact hone.2
    | callsPush _ hpc | pushes hpc | endsInput hpc | endsChunk hpc =>
        rw [hpc] at hold
        rw [hself]
        exact hold
    | reports reachesOne hpc =>
        obtain ⟨ok, r, n, hupdate, _⟩ :=
          Scheduler.producerUpdate_eq hpc h.sched.chunks _ reachesOne
        rw [hupdate, hself, (Scheduler.afterProducer_chunk _ ok r).2.2]
        exact Nat.zero_le _
    | settles reachesOne hpc =>
        obtain ⟨ok, r, n, hupdate, _⟩ :=
          Scheduler.consumerUpdate_eq s.sched other _ _ reachesOne
        rw [hupdate, hself, (Scheduler.afterConsumer_chunk _ ok r).2.2]
        exact Nat.zero_le _
    | _ =>
        rw [hself]
        exact Nat.zero_le _
  · rw [Scheduler.workerStep_pc_of_ne heq hstep]
    exact h.chunk other

/-- The report of a chunk of one input is the report of a counted gate. -/
theorem OneInputInv.report_eq (h : OneInputInv cfg s) {chunk : Chunk} {pushed : Nat}
    {output : Nat} (reachesOne : Bool) (hpc : s.sched.pc id = .producerUpdate chunk pushed)
    (houtput : (s.gate id).gate.output cfg.debug = some output) :
    s.sched.workerStep cfg.toSchedulerConfig id (s.sched.pc id) (.producerUpdate reachesOne) =
      some (s.sched.producerUpdate id chunk output reachesOne) := by
  have hle := h.chunk id
  have hsound := h.sched.chunks.sound id
  rw [hpc] at hle hsound
  have hone : chunk.inputs = 1 := Nat.le_antisymm hle hsound.1
  rw [(h.gates.output_iff hpc houtput).mpr hone, hpc]
  rfl

theorem OneInputInv.step (h : OneInputInv cfg s) (hone : OneInput cfg s a)
    (hstep : SinglePush.step cfg s a = some t) : OneInputInv cfg t := by
  have hgates := h.gates.step hstep
  cases step_cases hstep with
  | works hworks =>
      exact ⟨hgates, h.sched.workerStep hone.fits hworks, chunk_le_one h hone hworks, h.failed⟩
  | reports reachesOne hpc houtput =>
      have hworks := h.report_eq reachesOne hpc houtput
      exact ⟨hgates, h.sched.workerStep hone.fits hworks, chunk_le_one h hone hworks, h.failed⟩
  | discards => exact ⟨hgates, h.sched, h.chunk, h.failed⟩
  | @fails id chunk left pushed _ _ hpc hcalled hused =>
      -- a call that has not used the gate is the first of its chunk
      have hle := h.chunk id
      have hsound := h.gates.gates id
      rw [hpc] at hle hsound
      obtain ⟨hfirst, hleft, hcalls, haccessed⟩ := hsound
      rw [hcalled, Bool.toNat_false] at hcalls
      simp only [WorkerPc.chunk] at hle
      rcases hused with hused | hused
      · have := haccessed hused
        omega
      · rw [hused, Bool.not_false, Bool.toNat_true] at hcalls
        omega
  | setsChunkSize chunkSize =>
      exact ⟨hgates, h.sched.setProducerChunkSize chunkSize, h.chunk, h.failed⟩

theorem oneInputInv_of_run {acts : List (SinglePushAction cfg.workers T)}
    {s : SinglePush cfg.workers T} (h : (system cfg T).GoodRun (OneInput cfg) acts s) :
    OneInputInv cfg s :=
  h.invariant (oneInputInv_start cfg) fun _ _ _ _ hone hs hstep => hs.step hone hstep

/-- For any configuration, chunk sizes and interleaving: the report of a chunk
adds its number of pushes to `producer_output` if and only if the chunk has one
input. In a run whose claims all fit and take one input nothing fails at a gate, and
`is_all_task_done()` holds exactly when the input is used up, no chunk is out and
every pushed value is consumed; no value is in the queue then. -/
theorem single_push_output_iff_one_input (cfg : SinglePushConfig) :
    (∀ s t : SinglePush cfg.workers T, (system cfg T).Reachable s →
      ∀ id chunk pushed reachesOne, s.sched.pc id = .producerUpdate chunk pushed →
      (system cfg T).step s (.worker id (.producerUpdate reachesOne)) = some t →
      (t.sched.stats.producerOutput = s.sched.stats.producerOutput + pushed ↔
        chunk.inputs = 1)) ∧
    ∀ acts (s : SinglePush cfg.workers T), (system cfg T).GoodRun (OneInput cfg) acts s →
      (∀ id, s.failed id = none) ∧
      (cfg.first < s.sched.pos →
        (s.sched.stats.isAllTaskDone = true ↔ s.sched.pos = cfg.inputs ∧
          (∀ id, ¬ (s.sched.pc id).InChunk) ∧ s.sched.settled = s.sched.pushed) ∧
        (s.sched.stats.isAllTaskDone = true → s.sched.queue = [])) := by
  constructor
  · intro s t hs id chunk pushed reachesOne hpc hstep
    obtain ⟨output, houtput, hgrowth⟩ := growth reachesOne hpc hstep
    rw [hgrowth, ← (gateInv_of_reachable hs).output_iff hpc houtput]
    exact Nat.add_left_cancel_iff
  · intro acts s hrun
    have hinv := oneInputInv_of_run hrun
    refine ⟨hinv.failed, fun hclaimed => ⟨hinv.sched.done_iff hclaimed, fun hdone => ?_⟩⟩
    exact (hinv.sched.values.nothing_left (hinv.sched.finished_of_done hdone).2.2).1

/-- Two inputs in two chunks, the first of which is pushed and the second
discarded. -/
theorem single_push_output_iff_one_input_discard :
    ∃ s t : SinglePush 2 Nat, (system ⟨⟨2, true, false, 2, 2, int32⟩, true⟩ Nat).Reachable s ∧
      (system ⟨⟨2, true, false, 2, 2, int32⟩, true⟩ Nat).step s (.worker 1 (.producerUpdate true)) =
        some t ∧
      t.sched.stats.producerOutput = s.sched.stats.producerOutput + 0 ∧
      t.sched.stats.isAllTaskDone = true ∧ t.sched.queue = [] := by
  obtain ⟨s, hrun, hs⟩ :=
    ((system ⟨⟨2, true, false, 2, 2, int32⟩, true⟩ Nat).restrict
      (OneInput ⟨⟨2, true, false, 2, 2, int32⟩, true⟩)).exists_of_map
      [.worker 1 .claim, .worker 1 (.callPush 7), .worker 1 .push, .worker 1 .endInput,
        .worker 1 (.producerUpdate false), .worker 1 .claim, .discard 1, .worker 0 .callPop,
        .worker 0 (.pop 0), .worker 0 .endCall, .worker 0 (.consumerUpdate true),
        .worker 1 .endInput]
      (b := (.producerUpdate ⟨1, 1, 1⟩ 0, some (2, true)))
      (fun s => (s.sched.pc 1, ((system ⟨⟨2, true, false, 2, 2, int32⟩, true⟩ Nat).step s
        (.worker 1 (.producerUpdate true))).map fun t =>
          (t.sched.pos, t.sched.stats.isAllTaskDone))) rfl
  simp only [Prod.mk.injEq, Option.map_eq_some_iff] at hs
  obtain ⟨hpc, t, hstep, hclaimed, hdone⟩ := hs
  have hgood := TransitionSystem.GoodRun.of_restrict hrun
  obtain ⟨hgrowth, hrest⟩ :=
    single_push_output_iff_one_input (T := Nat) ⟨⟨2, true, false, 2, 2, int32⟩, true⟩
  have hone : OneInput ⟨⟨2, true, false, 2, 2, int32⟩, true⟩ s (.worker 1 (.producerUpdate true)) :=
    trivial
  have hempty := (hrest _ t (hgood.snoc hone hstep)).2 (by rw [hclaimed]; exact Nat.two_pos)
  exact ⟨s, t, hgood.reaches.reachable, hstep,
    (hgrowth s t hgood.reaches.reachable 1 _ 0 true hpc hstep).mpr rfl, hdone, hempty.2 hdone⟩

/-- Chunk size two and two inputs in a release build: both calls push, the
report counts one, and one pop completes the tasks with a value in the queue. -/
theorem single_push_done_too_early :
    ∃ s : SinglePush 2 Nat, (system ⟨⟨2, true, false, 2, 2, int32⟩, false⟩ Nat).Reachable s ∧
      s.sched.pushed.card = 2 ∧ s.sched.stats.producerOutput = 1 ∧ s.sched.settled.card = 1 ∧
      s.sched.queue = [8] ∧ s.sched.stats.isAllTaskDone = true := by
  obtain ⟨s, hrun, hs⟩ := (system ⟨⟨2, true, false, 2, 2, int32⟩, false⟩ Nat).exists_of_map
    [.setProducerChunkSize 2, .worker 1 .claim, .worker 1 (.callPush 7), .worker 1 .push,
      .worker 1 .endInput, .worker 1 (.callPush 8), .worker 1 .push, .worker 1 .endInput,
      .worker 1 (.producerUpdate true), .worker 0 .callPop, .worker 0 (.pop 0),
      .worker 0 .endCall, .worker 0 (.consumerUpdate true)]
    (b := (2, 1, 1, [8], true))
    (fun s => (s.sched.pushed.card, s.sched.stats.producerOutput, s.sched.settled.card,
      s.sched.queue, s.sched.stats.isAllTaskDone)) rfl
  simp only [Prod.mk.injEq] at hs
  exact ⟨s, hrun.reachable, hs⟩

end SinglePush

end YkUtil.Exec
