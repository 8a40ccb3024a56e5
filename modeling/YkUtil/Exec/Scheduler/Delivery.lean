import YkUtil.Exec.Scheduler.Progress

/-!
What a scheduler computes when its user functions do. The producer function pushes a
fixed list of values for each input, and a consumer call pops one value. No value is lost
or made up, whatever the interleaving, the chunk sizes and the capacity of the queue. As
long as the chunk sizes fit the difference type, every value of every input is consumed
once, and the workers come to rest after a number of steps that depends on the inputs and
the workers only.
-/

namespace YkUtil.Exec

open YkUtil.Lib

/-- A scheduler, and what the producer calls of each worker's chunk have yet to push:
the values of the input the worker is at, and then those of the inputs after it. -/
structure Job (W : Nat) (T : Type*) where
  run : Scheduler W T
  todo : Fin W → List (List T)

namespace Job

variable {W : Nat} {T : Type*}

/-- The values for `count` inputs from number `first` on. -/
def outputs (produce : Nat → List T) (first count : Nat) : List (List T) :=
  (List.range' first count).map produce

/-- How many inputs the next claim takes. -/
def claims (cfg : SchedulerConfig) (s : Scheduler W T) : Nat :=
  match takeChunk cfg.difference cfg.inputs s.pos s.chunkSize with
  | some chunk => chunk.inputs
  | none => 0

/-- What is left to push after a step, if the user functions take it. -/
def next [DecidableEq T] (cfg : SchedulerConfig) (produce : Nat → List T) (s : Job W T)
    (id : Fin W) : WorkerPc T → WorkerAction T → Option (List (List T))
  | .claim, .claim =>
      some (outputs produce s.run.pos (claims cfg s.run))
  | .produce _ _ _, .callPush v =>
      match s.todo id with
      | (w :: vs) :: rest => if w = v then some (vs :: rest) else none
      | _ => none
  | .produce _ _ _, .endInput =>
      match s.todo id with
      | [] :: rest => some rest
      | _ => none
  | pc, action => if pc.onePop action then some (s.todo id) else none

/-- Worker `id` has taken a step. -/
def go (s : Job W T) (id : Fin W) (run : Scheduler W T) (todo : List (List T)) : Job W T :=
  {run := run, todo := Function.update s.todo id todo}

def step [DecidableEq T] (cfg : SchedulerConfig) (produce : Nat → List T) (s : Job W T) :
    SchedulerAction W T → Option (Job W T)
  | .worker id action =>
      (s.next cfg produce id (s.run.pc id) action).bind fun todo =>
        (s.run.workerStep cfg id (s.run.pc id) action).map fun run => s.go id run todo
  | .setProducerChunkSize chunkSize => some {s with run := s.run.setProducerChunkSize chunkSize}

/-- The interleavings of the workers with these user functions. -/
def system [DecidableEq T] (cfg : SchedulerConfig) (produce : Nat → List T) :
    TransitionSystem (Job cfg.workers T) (SchedulerAction cfg.workers T) :=
  {init := {run := Scheduler.start cfg T, todo := fun _ => []}, step := step cfg produce}

/-- The action is no claim, or the claim fits. -/
def Fits (cfg : SchedulerConfig) (s : Job W T) (a : SchedulerAction W T) : Prop :=
  Scheduler.Fits cfg s.run a

instance (cfg : SchedulerConfig) (s : Job W T) (a : SchedulerAction W T) :
    Decidable (Fits cfg s a) :=
  inferInstanceAs (Decidable (Scheduler.Fits cfg s.run a))

/-- Everything a worker's step can be. -/
inductive Step (cfg : SchedulerConfig) (produce : Nat → List T) (s : Job W T) (id : Fin W) :
    WorkerAction T → Job W T → Prop where
  | endOfInput (hpc : s.run.pc id = .claim) (hend : s.run.pos = cfg.inputs) :
      Step cfg produce s id .claim (s.go id (s.run.move id Scheduler.startConsumer) [])
  | claims (hpc : s.run.pc id = .claim) (hmore : s.run.pos ≠ cfg.inputs) :
      Step cfg produce s id .claim (s.go id (s.run.claim cfg id)
        (outputs produce s.run.pos (claims cfg s.run)))
  | callsPush {chunk : Chunk} {left gate : Nat} {v : T} {vs : List T} {rest : List (List T)}
      (hpc : s.run.pc id = .produce chunk left gate) (htodo : s.todo id = (v :: vs) :: rest) :
      Step cfg produce s id (.callPush v)
        (s.go id (s.run.move id (.push chunk left (gate + 1) v)) (vs :: rest))
  | pushes {chunk : Chunk} {left gate : Nat} {v : T} (hpc : s.run.pc id = .push chunk left gate v)
      (hroom : s.run.queue.length < cfg.capacity) :
      Step cfg produce s id .push (s.go id ({s.run with
        queue := s.run.queue ++ [v]
        pushed := s.run.pushed + {v}}.move id (.produce chunk left gate)) (s.todo id))
  | endsInput {chunk : Chunk} {left gate : Nat} {rest : List (List T)}
      (hpc : s.run.pc id = .produce chunk left gate) (hleft : 1 < left)
      (htodo : s.todo id = [] :: rest) :
      Step cfg produce s id .endInput
        (s.go id (s.run.move id (.produce chunk (left - 1) gate)) rest)
  | endsChunk {chunk : Chunk} {left gate : Nat} {rest : List (List T)}
      (hpc : s.run.pc id = .produce chunk left gate) (hleft : left ≤ 1)
      (htodo : s.todo id = [] :: rest) :
      Step cfg produce s id .endInput (s.go id (s.run.move id (.producerUpdate chunk gate)) rest)
  | reports {chunk : Chunk} {gate : Nat} (reachesOne : Bool)
      (hpc : s.run.pc id = .producerUpdate chunk gate) :
      Step cfg produce s id (.producerUpdate reachesOne)
        (s.go id (s.run.producerUpdate id chunk gate reachesOne) (s.todo id))
  | callsPop {taken : List T} (hpc : s.run.pc id = .consume 0 taken) :
      Step cfg produce s id .callPop (s.go id (s.run.move id (.pop 1 taken)) (s.todo id))
  | pops {gate index : Nat} {taken : List T} {v : T} (hpc : s.run.pc id = .pop gate taken)
      (hv : s.run.queue[index]? = some v) :
      Step cfg produce s id (.pop index) (s.go id ({s.run with
        queue := s.run.queue.eraseIdx index}.move id (.consume gate (taken ++ [v]))) (s.todo id))
  | endsCall {taken : List T} (hpc : s.run.pc id = .consume 1 taken) :
      Step cfg produce s id .endCall
        (s.go id (s.run.move id (.consumerUpdate 1 taken)) (s.todo id))
  | settles {gate : Nat} {taken : List T} (reachesOne : Bool)
      (hpc : s.run.pc id = .consumerUpdate gate taken) :
      Step cfg produce s id (.consumerUpdate reachesOne)
        (s.go id (s.run.consumerUpdate id gate taken reachesOne) (s.todo id))

theorem claims_le (cfg : SchedulerConfig) (s : Scheduler W T) :
    claims cfg s ≤ cfg.inputs - s.pos := by
  unfold claims
  split
  · rename_i chunk htake
    exact (takeChunk_bounds htake).2
  · exact Nat.zero_le _

section Cases

variable [DecidableEq T] {cfg : SchedulerConfig} {produce : Nat → List T} {s t : Job W T}
  {id : Fin W}

theorem step_cases {action : WorkerAction T}
    (h : step cfg produce s (.worker id action) = some t) : Step cfg produce s id action t := by
  simp only [step, Option.bind_eq_some_iff, Option.map_eq_some_iff] at h
  obtain ⟨todo, hnext, run, hstep, rfl⟩ := h
  cases Scheduler.workerStep_cases hstep with
  | endOfInput hpc hend =>
      have hnone : claims cfg s.run = 0 := by
        have hle := claims_le cfg s.run
        omega
      simp only [hpc, next, hnone, Option.some.injEq] at hnext
      subst hnext
      exact .endOfInput hpc hend
  | claims hpc hmore =>
      simp only [hpc, next, Option.some.injEq] at hnext
      subst hnext
      exact .claims hpc hmore
  | callsPush v hpc =>
      simp only [hpc, next] at hnext
      split at hnext
      · rename_i w vs rest htodo
        simp only [Option.ite_none_right_eq_some, Option.some.injEq] at hnext
        obtain ⟨rfl, rfl⟩ := hnext
        exact .callsPush hpc htodo
      · cases hnext
  | endsInput hpc hleft | endsChunk hpc hleft =>
      simp only [hpc, next] at hnext
      split at hnext
      · rename_i rest htodo
        cases hnext
        first
          | exact .endsInput hpc hleft htodo
          | exact .endsChunk hpc hleft htodo
      · cases hnext
  | pushes hpc hroom =>
      simp only [hpc, next, WorkerPc.onePop, if_true, Option.some.injEq] at hnext
      subst hnext
      exact .pushes hpc hroom
  | reports reachesOne hpc =>
      simp only [hpc, next, WorkerPc.onePop, if_true, Option.some.injEq] at hnext
      subst hnext
      exact .reports reachesOne hpc
  | callsPop hpc =>
      simp only [hpc, next, WorkerPc.onePop, beq_iff_eq, Option.ite_none_right_eq_some,
        Option.some.injEq] at hnext
      obtain ⟨rfl, rfl⟩ := hnext
      exact .callsPop hpc
  | pops hpc hv =>
      simp only [hpc, next, WorkerPc.onePop, if_true, Option.some.injEq] at hnext
      subst hnext
      exact .pops hpc hv
  | endsCall hpc =>
      simp only [hpc, next, WorkerPc.onePop, beq_iff_eq, Option.ite_none_right_eq_some,
        Option.some.injEq] at hnext
      obtain ⟨rfl, rfl⟩ := hnext
      exact .endsCall hpc
  | settles reachesOne hpc =>
      simp only [hpc, next, WorkerPc.onePop, if_true, Option.some.injEq] at hnext
      subst hnext
      exact .settles reachesOne hpc

end Cases

/-- What a worker has yet to push of the inputs it has claimed. -/
def owed : WorkerPc T × List (List T) → List T
  | (.push _ _ _ v, todo) => v :: todo.flatten
  | (_, todo) => todo.flatten

/-- What a worker at `pc` can have left to push. -/
def Shape : WorkerPc T → List (List T) → Prop
  | .produce _ left _, todo | .push _ left _ _, todo => todo.length = left ∧ 1 ≤ left
  | .consume gate _, todo => gate ≤ 1 ∧ todo = []
  | .pop gate _, todo => gate = 1 ∧ todo = []
  | _, todo => todo = []

def pairs (s : Job W T) (id : Fin W) : WorkerPc T × List (List T) := (s.run.pc id, s.todo id)

/-- The values of the inputs that are not claimed yet. -/
def unclaimed (cfg : SchedulerConfig) (produce : Nat → List T) (s : Scheduler W T) : List T :=
  (outputs produce s.pos (cfg.inputs - s.pos)).flatten

/-- The values of all inputs. -/
def total (cfg : SchedulerConfig) (produce : Nat → List T) : Multiset T :=
  (outputs produce cfg.first (cfg.inputs - cfg.first)).flatten

/-- Nothing is lost or made up on the way from the inputs to the queue, and the
fixed consumer never produces. -/
structure Ledger (cfg : SchedulerConfig) (produce : Nat → List T) (s : Job W T) : Prop where
  shape : ∀ id, Shape (s.run.pc id) (s.todo id)
  consumer : ∀ id : Fin W, id.val = 0 → ¬ (s.run.pc id).Producing
  values : s.run.pushed + heldBy (fun p => (owed p : Multiset T)) s.pairs +
    unclaimed cfg produce s.run = total cfg produce

section Ledger

variable {cfg : SchedulerConfig} {produce : Nat → List T} {s t : Job W T} {id : Fin W}

theorem pairs_go {run : Scheduler W T} {pc : WorkerPc T} (todo : List (List T))
    (hpc : run.pc = Function.update s.run.pc id pc) :
    (s.go id run todo).pairs = Function.update s.pairs id (pc, todo) := by
  funext other
  by_cases heq : other = id
  · subst heq
    simp [pairs, go, hpc]
  · simp [pairs, go, hpc, heq]

/-- A chunk of inputs is claimed from the front. -/
theorem unclaimed_claim (produce : Nat → List T) {s : Scheduler W T} {count : Nat}
    (hcount : count ≤ cfg.inputs - s.pos) :
    (outputs produce s.pos (cfg.inputs - s.pos)).flatten =
      (outputs produce s.pos count).flatten ++
        (outputs produce (s.pos + count) (cfg.inputs - (s.pos + count))).flatten := by
  have hsplit : cfg.inputs - s.pos = count + (cfg.inputs - (s.pos + count)) := by omega
  rw [hsplit, outputs, ← List.range'_append_1, List.map_append, List.flatten_append]
  congr 4

theorem enterChunk_shape (produce : Nat → List T) (pos : Nat) (chunk : Chunk) :
    Shape (Scheduler.enterChunk chunk : WorkerPc T) (outputs produce pos chunk.inputs) ∧
      owed ((Scheduler.enterChunk chunk : WorkerPc T), outputs produce pos chunk.inputs) =
        (outputs produce pos chunk.inputs).flatten := by
  unfold Scheduler.enterChunk
  split
  · rename_i hnone
    rw [hnone]
    exact ⟨rfl, rfl⟩
  · exact ⟨⟨by simp [outputs], by omega⟩, rfl⟩

/-- The rule for a worker that goes on at `pc` with `todo` left to push. -/
theorem Ledger.go (h : Ledger cfg produce s) {old pc : WorkerPc T} {todo : List (List T)}
    {run : Scheduler W T} (hold : s.run.pc id = old)
    (hpc : run.pc = Function.update s.run.pc id pc) (hshape : Shape pc todo)
    (hconsumer : id.val = 0 → ¬ pc.Producing)
    (hvalues : run.pushed + owed (pc, todo) + unclaimed cfg produce run =
      s.run.pushed + owed (old, s.todo id) + unclaimed cfg produce s.run) :
    Ledger cfg produce (s.go id run todo) := by
  subst hold
  have howed := heldBy_update (fun p => (owed p : Multiset T)) s.pairs id (pc, todo)
  rw [← pairs_go todo hpc] at howed
  constructor
  case shape =>
    intro other
    by_cases heq : other = id
    · subst heq
      simpa [Job.go, hpc] using hshape
    · simpa [Job.go, hpc, heq] using h.shape other
  case consumer =>
    intro other hother
    by_cases heq : other = id
    · subst heq
      simpa [Job.go, hpc] using hconsumer hother
    · simpa [Job.go, hpc, heq] using h.consumer other hother
  case values =>
    apply add_right_cancel (b := (owed (s.pairs id) : Multiset T))
    calc run.pushed + heldBy (fun p => (owed p : Multiset T)) (s.go id run todo).pairs +
          unclaimed cfg produce run + owed (s.pairs id)
        = run.pushed + unclaimed cfg produce run +
          (heldBy (fun p => (owed p : Multiset T)) (s.go id run todo).pairs +
            owed (s.pairs id)) := by abel
      _ = run.pushed + owed (pc, todo) + unclaimed cfg produce run +
          heldBy (fun p => (owed p : Multiset T)) s.pairs := by
          rw [howed]
          abel
      _ = total cfg produce + owed (s.pairs id) := by
          rw [hvalues, ← h.values]
          simp only [pairs]
          abel

theorem ledger_start (cfg : SchedulerConfig) (produce : Nat → List T) :
    Ledger cfg produce {run := Scheduler.start cfg T, todo := fun _ => []} := by
  refine ⟨fun id => ?_, fun id hid => ?_, ?_⟩
  · simp only [Scheduler.start]
    split
    · exact ⟨Nat.zero_le _, rfl⟩
    · rfl
  · simp [Scheduler.start, hid, Scheduler.startConsumer, WorkerPc.Producing, WorkerPc.InChunk]
  · have howed : heldBy (fun p => (owed p : Multiset T))
        (pairs {run := Scheduler.start cfg T, todo := fun _ => []}) = 0 :=
      heldBy_eq_zero fun id => by
        simp only [pairs, Scheduler.start]
        split <;> rfl
    rw [howed]
    rfl

/-- The block after a chunk sends the fixed consumer nowhere to produce. -/
theorem afterProducer_shape (id : Fin W) (ok r : Bool) :
    Shape (Scheduler.afterProducer (.ofId id) ok r : WorkerPc T) [] ∧
      owed ((Scheduler.afterProducer (.ofId id) ok r : WorkerPc T), []) = [] ∧
      (id.val = 0 → ¬ (Scheduler.afterProducer (.ofId id) ok r : WorkerPc T).Producing) := by
  refine ⟨?_, ?_, fun hid => ?_⟩
  · rcases Scheduler.afterProducer_goes_on (T := T) (.ofId id) ok r with hgoes | hgoes <;>
      simp [hgoes, Shape, Scheduler.startConsumer]
  · rcases Scheduler.afterProducer_goes_on (T := T) (.ofId id) ok r with hgoes | hgoes <;>
      simp [hgoes, owed, Scheduler.startConsumer]
  · rw [hid]
    exact fun hno => hno

theorem afterConsumer_shape (id : Fin W) (ok r : Bool) :
    Shape (Scheduler.afterConsumer (.ofId id) ok r : WorkerPc T) [] ∧
      owed ((Scheduler.afterConsumer (.ofId id) ok r : WorkerPc T), []) = [] ∧
      (id.val = 0 → ¬ (Scheduler.afterConsumer (.ofId id) ok r : WorkerPc T).Producing) := by
  refine ⟨?_, ?_, fun hid => ?_⟩
  · cases ok
    · simp [Scheduler.afterConsumer_false, Shape]
    · rcases Scheduler.afterConsumer_goes_on (T := T) (.ofId id) r with hgoes | hgoes <;>
        simp [hgoes, Shape, Scheduler.startConsumer]
  · cases ok
    · simp [Scheduler.afterConsumer_false, owed]
    · rcases Scheduler.afterConsumer_goes_on (T := T) (.ofId id) r with hgoes | hgoes <;>
        simp [hgoes, owed, Scheduler.startConsumer]
  · rw [hid]
    cases ok <;> exact fun hno => hno

/-- What a worker has left to push is empty where it holds no chunk. -/
theorem Ledger.todo_nil (h : Ledger cfg produce s) {pc : WorkerPc T} (hpc : s.run.pc id = pc)
    (hout : ¬ pc.InChunk ∨ ∃ count gate, pc = .producerUpdate count gate) : s.todo id = [] := by
  have hshape := h.shape id
  rw [hpc] at hshape
  cases pc with
  | produce | push => exact absurd trivial (hout.resolve_right (by simp))
  | consume | pop => exact hshape.2
  | _ => exact hshape

theorem Ledger.claimed (h : Ledger cfg produce s) (hinput : Scheduler.InputInv cfg s.run)
    (hpc : s.run.pc id = .claim) (hmore : s.run.pos ≠ cfg.inputs) : Ledger cfg produce
      (s.go id (s.run.claim cfg id) (outputs produce s.run.pos (claims cfg s.run))) := by
  have htodo := h.todo_nil hpc (.inl fun hno => hno)
  have hconsumer (pc : WorkerPc T) (hid : id.val = 0) : ¬ pc.Producing := by
    have hidle := h.consumer id hid
    rw [hpc] at hidle
    exact absurd trivial hidle
  rcases Scheduler.claim_cases id hinput hmore with
    ⟨htake, heq⟩ | ⟨chunk, htake, heq⟩ <;> rw [heq]
  · have hnone : Job.claims cfg s.run = 0 := by
      rw [Job.claims, htake]
    rw [hnone]
    exact h.go hpc rfl rfl (hconsumer _) (by rw [htodo]; rfl)
  · have hcount : Job.claims cfg s.run = chunk.inputs := by
      rw [Job.claims, htake]
    have hfront := unclaimed_claim produce (takeChunk_bounds htake).2
    obtain ⟨hshape, howed⟩ := enterChunk_shape produce s.run.pos chunk
    rw [hcount]
    refine h.go hpc rfl hshape (hconsumer _) ?_
    rw [howed]
    simp only [unclaimed, Scheduler.claimed, Scheduler.move, hfront, htodo, owed, List.flatten_nil,
      Multiset.coe_nil, ← Multiset.coe_add]
    abel

theorem Ledger.step (h : Ledger cfg produce s) (hinput : Scheduler.InputInv cfg s.run)
    {action : WorkerAction T} (hstep : Step cfg produce s id action t) : Ledger cfg produce t := by
  have hproducer (hproducing : (s.run.pc id).Producing) (pc : WorkerPc T) (hid : id.val = 0) :
      ¬ pc.Producing := absurd hproducing (h.consumer id hid)
  have hshape := h.shape id
  cases hstep with
  | endOfInput hpc hend =>
      rw [hpc] at hshape
      exact h.go hpc rfl ⟨Nat.zero_le _, rfl⟩ (fun _ hno => hno) (by rw [hshape]; rfl)
  | claims hpc hmore => exact h.claimed hinput hpc hmore
  | callsPush hpc htodo =>
      rw [hpc, htodo] at hshape
      rw [hpc] at hproducer
      exact h.go hpc rfl hshape (hproducer trivial _) (by rw [htodo]; rfl)
  | pushes hpc =>
      rw [hpc] at hshape hproducer
      refine h.go hpc rfl hshape (hproducer trivial _) ?_
      simp only [unclaimed, Scheduler.move, owed, ← Multiset.cons_coe, ← Multiset.singleton_add]
      abel
  | endsInput hpc hleft htodo =>
      rw [hpc, htodo] at hshape
      rw [hpc] at hproducer
      refine h.go hpc rfl ⟨?_, ?_⟩ (hproducer trivial _) (by rw [htodo]; rfl)
      · rw [← hshape.1]
        rfl
      · omega
  | endsChunk hpc hleft htodo =>
      rw [hpc, htodo] at hshape
      rw [hpc] at hproducer
      refine h.go hpc rfl ?_ (hproducer trivial _) (by rw [htodo]; rfl)
      have hlength := hshape.1
      rw [List.length_cons] at hlength
      exact List.eq_nil_of_length_eq_zero (by omega)
  | @reports chunk gate reachesOne hpc =>
      have htodo := h.todo_nil hpc (.inr ⟨_, _, rfl⟩)
      rw [hpc] at hproducer
      rcases Scheduler.producerUpdate_cases s.run id chunk gate reachesOne with
        ⟨_, -, heq⟩ | ⟨ok, r, _, -, heq, -⟩ <;> rw [heq, htodo]
      · exact h.go hpc rfl rfl (hproducer trivial _) (by rw [htodo]; rfl)
      · obtain ⟨hnew, howed, hconsumer⟩ := afterProducer_shape (T := T) id ok r
        refine h.go hpc rfl hnew hconsumer ?_
        rw [howed, htodo]
        rfl
  | callsPop hpc | endsCall hpc =>
      have htodo := h.todo_nil hpc (.inl fun hno => hno)
      rw [hpc] at hshape
      exact h.go hpc rfl (by simp [Shape, htodo]) (fun _ hno => hno) (by rw [htodo]; rfl)
  | pops hpc =>
      have htodo := h.todo_nil hpc (.inl fun hno => hno)
      rw [hpc] at hshape
      exact h.go hpc rfl ⟨hshape.1.le, htodo⟩ (fun _ hno => hno) (by rw [htodo]; rfl)
  | settles reachesOne hpc =>
      obtain ⟨ok, r, n, heq, _⟩ := Scheduler.consumerUpdate_eq s.run id _ _ reachesOne
      obtain ⟨hnew, howed, hconsumer⟩ := afterConsumer_shape (T := T) id ok r
      have htodo := h.todo_nil hpc (.inl fun hno => hno)
      rw [heq, htodo]
      refine h.go hpc rfl hnew hconsumer ?_
      rw [howed, htodo]
      rfl

/-- When the tasks are done nothing is owed any more. -/
theorem Ledger.settled_of_done (h : Ledger cfg produce s) (hinv : Scheduler.Inv cfg s.run)
    (hdone : s.run.stats.isAllTaskDone = true) :
    s.run.settled = total cfg produce ∧ s.run.queue = [] := by
  obtain ⟨hend, hout, hsettled⟩ := hinv.finished_of_done hdone
  have howed : heldBy (fun p => (owed p : Multiset T)) s.pairs = 0 := heldBy_eq_zero fun id => by
    have hout := hout id
    have htodo := h.todo_nil rfl (.inl hout)
    cases hpc : s.run.pc id with
    | push | produce | producerUpdate =>
        rw [hpc] at hout
        exact absurd trivial hout
    | _ => simp [pairs, hpc, htodo, owed]
  have hvalues := h.values
  have hnone : unclaimed cfg produce s.run = [] := by
    rw [unclaimed, hend, Nat.sub_self]
    rfl
  rw [howed, hnone, Multiset.coe_nil, add_zero, add_zero] at hvalues
  exact ⟨hsettled.trans hvalues, (hinv.values.nothing_left hsettled).1⟩

end Ledger

/-- The steps a worker can take until it has nothing left to do, with those the
values it has still to push cost the consumers. -/
def cost : WorkerPc T × List (List T) → Nat
  | (.claim, _) => 3
  | (.produce _ left _, todo) => 4 + left + 7 * todo.flatten.length
  | (.push _ left _ _, todo) => 10 + left + 7 * todo.flatten.length
  | (.producerUpdate _ _, _) | (.consumerUpdate _ _, _) => 4
  | (.consume gate _, _) => if gate = 0 then 2 else 5
  | (.pop _ _, _) => 1
  | (.left, _) | (.threw _, _) | (.undefined, _) => 0

/-- A queued value costs the pop and the block after it, an input its claim. -/
def potential (cfg : SchedulerConfig) (produce : Nat → List T) (s : Job W T) : Nat :=
  heldBy cost s.pairs + 5 * s.run.queue.length + 3 * (cfg.inputs - s.run.pos) +
    7 * (unclaimed cfg produce s.run).length

/-- The steps of workers, without the calls that set the chunk size. -/
def isWorker : SchedulerAction W T → Bool
  | .worker _ _ => true
  | .setProducerChunkSize _ => false

section Potential

variable {cfg : SchedulerConfig} {produce : Nat → List T} {s t : Job W T} {id : Fin W}

theorem potential_go {old pc : WorkerPc T} {todo : List (List T)} {run : Scheduler W T}
    (hold : s.run.pc id = old) (hpc : run.pc = Function.update s.run.pc id pc)
    (hcost : cost (pc, todo) + 5 * run.queue.length + 3 * (cfg.inputs - run.pos) +
        7 * (unclaimed cfg produce run).length + 1 ≤
      cost (old, s.todo id) + 5 * s.run.queue.length + 3 * (cfg.inputs - s.run.pos) +
        7 * (unclaimed cfg produce s.run).length) :
    potential cfg produce (s.go id run todo) + 1 ≤ potential cfg produce s := by
  subst hold
  have hheld := heldBy_update cost s.pairs id (pc, todo)
  rw [← pairs_go todo hpc] at hheld
  simp only [potential]
  simp only [pairs] at hheld
  change heldBy cost (s.go id run todo).pairs + 5 * run.queue.length +
    3 * (cfg.inputs - run.pos) + 7 * (unclaimed cfg produce run).length + 1 ≤ _
  omega

/-- A step that leaves the queue and the inputs alone. -/
theorem potential_move {old pc : WorkerPc T} {todo : List (List T)} {run : Scheduler W T}
    (hold : s.run.pc id = old) (hpc : run.pc = Function.update s.run.pc id pc)
    (hqueue : run.queue = s.run.queue) (hpos : run.pos = s.run.pos)
    (hcost : cost (pc, todo) < cost (old, s.todo id)) :
    potential cfg produce (s.go id run todo) + 1 ≤ potential cfg produce s := by
  refine potential_go hold hpc ?_
  rw [unclaimed, unclaimed, hqueue, hpos]
  omega

/-- Every step of a worker is paid for, if a claim takes inputs. -/
theorem Ledger.potential_step (h : Ledger cfg produce s)
    (hchunks : Scheduler.ChunkInv cfg s.run) {action : WorkerAction T}
    (hfits : Scheduler.ClaimFits cfg s.run action) (hstep : Step cfg produce s id action t) :
    potential cfg produce t + 1 ≤ potential cfg produce s := by
  have hshape := h.shape id
  cases hstep with
  | endOfInput hpc => exact potential_move hpc rfl rfl rfl (by simp [cost, Scheduler.startConsumer])
  | claims hpc hmore =>
      have hone := hchunks.one_le_inputs hmore
      have htake := hchunks.takes hmore hfits
      have hcount : claims cfg s.run = (Scheduler.fitting cfg s.run).inputs := by
        rw [claims, htake]
      have hle := (takeChunk_bounds htake).2
      have hfront := congrArg List.length (unclaimed_claim produce hle)
      rw [Scheduler.claim_eq hchunks hmore hfits, hcount]
      refine potential_go hpc rfl ?_
      simp only [cost, unclaimed, Scheduler.move]
      rw [List.length_append] at hfront
      omega
  | callsPush hpc htodo =>
      refine potential_move hpc rfl rfl rfl ?_
      simp only [cost, htodo, List.flatten_cons, List.length_append, List.length_cons]
      omega
  | pushes hpc =>
      refine potential_go hpc rfl ?_
      simp only [cost, unclaimed, Scheduler.move, List.length_append, List.length_singleton]
      omega
  | endsInput hpc hleft htodo | endsChunk hpc hleft htodo =>
      rw [hpc] at hshape
      have hone := hshape.2
      refine potential_move hpc rfl rfl rfl ?_
      simp only [cost, htodo, List.flatten_cons, List.nil_append]
      omega
  | @reports chunk gate reachesOne hpc =>
      rcases Scheduler.producerUpdate_cases s.run id chunk gate reachesOne with
        ⟨_, -, heq⟩ | ⟨ok, r, _, -, heq, -⟩ <;> rw [heq]
      · exact potential_move hpc rfl rfl rfl (by simp [cost])
      · refine potential_move hpc rfl rfl rfl ?_
        rcases Scheduler.afterProducer_goes_on (T := T) (.ofId id) ok r with hgoes | hgoes <;>
          simp [hgoes, cost, Scheduler.startConsumer]
  | callsPop hpc => exact potential_move hpc rfl rfl rfl (by simp [cost])
  | pops hpc hv =>
      rw [hpc] at hshape
      have hindex := (List.getElem?_eq_some_iff.mp hv).1
      refine potential_go hpc rfl ?_
      simp only [cost, unclaimed, Scheduler.move, hshape.1, List.length_eraseIdx_of_lt hindex,
        Nat.one_ne_zero, if_false]
      omega
  | endsCall hpc => exact potential_move hpc rfl rfl rfl (by simp [cost])
  | settles reachesOne hpc =>
      obtain ⟨ok, r, n, heq, _⟩ := Scheduler.consumerUpdate_eq s.run id _ _ reachesOne
      rw [heq]
      refine potential_move hpc rfl rfl rfl ?_
      cases ok
      · simp [Scheduler.afterConsumer_false, cost]
      · rcases Scheduler.afterConsumer_goes_on (T := T) (.ofId id) r with hgoes | hgoes <;>
          simp [hgoes, cost, Scheduler.startConsumer]

theorem potential_start_le (cfg : SchedulerConfig) (produce : Nat → List T) :
    potential cfg produce {run := Scheduler.start cfg T, todo := fun _ => []} ≤
      3 * cfg.workers + 3 * (cfg.inputs - cfg.first) + 7 * (total cfg produce).card := by
  have hheld : heldBy cost (pairs {run := Scheduler.start cfg T, todo := fun _ => []}) ≤
      3 * cfg.workers := by
    have hone (id : Fin cfg.workers) :
        cost (pairs {run := Scheduler.start cfg T, todo := fun _ => []} id) ≤ 3 := by
      simp only [pairs, Scheduler.start]
      split <;> simp [cost, Scheduler.startConsumer]
    calc heldBy cost (pairs {run := Scheduler.start cfg T, todo := fun _ => []})
        ≤ ∑ _id : Fin cfg.workers, 3 := Finset.sum_le_sum fun id _ => hone id
      _ = 3 * cfg.workers := by simp [Nat.mul_comm]
  simp only [potential, Scheduler.start, unclaimed, total, Multiset.coe_card, List.length_nil] at *
  omega

end Potential

section Runs

variable [DecidableEq T] {cfg : SchedulerConfig} {produce : Nat → List T}
  {acts : List (SchedulerAction cfg.workers T)} {s t : Job cfg.workers T}

theorem onePop_of_next {id : Fin cfg.workers} {pc : WorkerPc T} {action : WorkerAction T}
    {todo : List (List T)} (h : s.next cfg produce id pc action = some todo) :
    pc.onePop action = true := by
  unfold next at h
  split at h
  · rfl
  · rfl
  · rfl
  · exact (Option.ite_none_right_eq_some.mp h).1

/-- The user functions of a job restrict what the workers do. -/
theorem run_of_step {a : SchedulerAction cfg.workers T}
    (h : (system cfg produce).step s a = some t) :
    Scheduler.OnePop s.run a ∧ (Scheduler.system cfg T).step s.run a = some t.run := by
  cases a with
  | setProducerChunkSize chunkSize =>
      cases h
      exact ⟨trivial, rfl⟩
  | worker id action =>
      simp only [system, step, Option.bind_eq_some_iff, Option.map_eq_some_iff] at h
      obtain ⟨todo, hnext, run, hstep, rfl⟩ := h
      exact ⟨onePop_of_next hnext, hstep⟩

theorem run_of_reaches (h : (system cfg produce).Reaches acts s) :
    (Scheduler.system cfg T).GoodRun Scheduler.OnePop acts s.run := by
  refine (system cfg produce).run_induction
    (P := fun acts s => (Scheduler.system cfg T).GoodRun Scheduler.OnePop acts s.run)
    .nil ?_ acts s h
  intro acts s a t _ hs hstep
  obtain ⟨hone, hrun⟩ := run_of_step hstep
  exact hs.snoc hone hrun

theorem baseInv_of_reachable (h : (system cfg produce).Reachable s) :
    Scheduler.BaseInv cfg s.run := by
  obtain ⟨acts, hacts⟩ := h
  exact Scheduler.baseInv_of_reachable (run_of_reaches hacts).reaches.reachable

theorem fits_of_run (h : (system cfg produce).GoodRun (Fits cfg) acts s) :
    (Scheduler.system cfg T).GoodRun (Scheduler.Fits cfg) acts s.run := by
  induction h with
  | nil => exact .nil
  | snoc _ hfits hstep ih => exact ih.snoc hfits (run_of_step hstep).2

theorem inv_of_run (h : (system cfg produce).GoodRun (Fits cfg) acts s) :
    Scheduler.Inv cfg s.run := Scheduler.inv_of_run (fits_of_run h)

theorem ledger_of_reachable (h : (system cfg produce).Reachable s) : Ledger cfg produce s := by
  refine (system cfg produce).invariant (ledger_start cfg produce) ?_ h
  intro s a t hs hledger hstep
  cases a with
  | worker id action => exact hledger.step (baseInv_of_reachable hs).input (step_cases hstep)
  | setProducerChunkSize chunkSize =>
      cases hstep
      exact ⟨hledger.shape, hledger.consumer, hledger.values⟩

/-- The workers of a job take a bounded number of steps, whatever the chunk
sizes that are set on the way. -/
theorem countP_isWorker_le (h : (system cfg produce).GoodRun (Fits cfg) acts s) :
    acts.countP isWorker ≤
      3 * cfg.workers + 3 * (cfg.inputs - cfg.first) + 7 * (total cfg produce).card := by
  have hstart := potential_start_le cfg produce
  have hcount := h.countP_le isWorker (potential cfg produce) fun acts s a t hrun hfits hstep => by
    cases a with
    | worker id action =>
        exact (ledger_of_reachable hrun.reaches.reachable).potential_step (inv_of_run hrun).chunks
          hfits (step_cases hstep)
    | setProducerChunkSize chunkSize =>
        cases hstep
        exact Nat.le_refl _
  exact (Nat.le_add_left _ _).trans (hcount.trans hstart)

/-- A worker has a step to take, or has left, or waits for the queue. -/
theorem Ledger.enabled (h : Ledger cfg produce s) (id : Fin cfg.workers) :
    (∃ action t, Job.step cfg produce s (.worker id action) = some t) ∨ s.run.pc id = .left ∨
      ¬ (s.run.pc id).ChunkSound ∨
      (∃ gate taken, s.run.pc id = .pop gate taken ∧ s.run.queue = []) ∨
      ∃ chunk left gate v, s.run.pc id = .push chunk left gate v ∧
        cfg.capacity ≤ s.run.queue.length := by
  have hshape := h.shape id
  have henabled (action : WorkerAction T)
      (hstep : (Job.step cfg produce s (.worker id action)).isSome) :
      ∃ action t, Job.step cfg produce s (.worker id action) = some t :=
    ⟨action, Option.isSome_iff_exists.mp hstep⟩
  cases hpc : s.run.pc id with
  | claim => exact .inl (henabled .claim (by simp [Job.step, hpc, next, Scheduler.workerStep]))
  | produce count left gate =>
      rw [hpc] at hshape
      refine .inl ?_
      cases htodo : s.todo id with
      | nil =>
          rw [htodo] at hshape
          exact absurd hshape.2 (by simp [← hshape.1])
      | cons values rest =>
          cases values with
          | nil =>
              apply henabled .endInput
              simp only [Job.step, hpc, next, htodo, Scheduler.workerStep, Option.bind_some,
                Option.isSome_map]
              split <;> rfl
          | cons v vs =>
              exact henabled (.callPush v)
                (by simp [Job.step, hpc, next, htodo, Scheduler.workerStep])
  | push count left gate v =>
      by_cases hroom : s.run.queue.length < cfg.capacity
      · exact .inl (henabled .push
          (by simp [Job.step, hpc, next, WorkerPc.onePop, Scheduler.workerStep, hroom]))
      · exact .inr (.inr (.inr (.inr ⟨count, left, gate, v, rfl, by omega⟩)))
  | producerUpdate count gate =>
      exact .inl (henabled (.producerUpdate false)
        (by simp [Job.step, hpc, next, WorkerPc.onePop, Scheduler.workerStep]))
  | consume gate taken =>
      rw [hpc] at hshape
      have hgate := hshape.1
      refine .inl ?_
      cases gate with
      | zero =>
          exact henabled .callPop
            (by simp [Job.step, hpc, next, WorkerPc.onePop, Scheduler.workerStep])
      | succ gate =>
          obtain rfl : gate = 0 := by omega
          exact henabled .endCall
            (by simp [Job.step, hpc, next, WorkerPc.onePop, Scheduler.workerStep])
  | pop gate taken =>
      cases hqueue : s.run.queue with
      | nil => exact .inr (.inr (.inr (.inl ⟨gate, taken, rfl, rfl⟩)))
      | cons v queue =>
          exact .inl (henabled (.pop 0)
            (by simp [Job.step, hpc, next, WorkerPc.onePop, Scheduler.workerStep, hqueue]))
  | consumerUpdate gate taken =>
      exact .inl (henabled (.consumerUpdate false)
        (by simp [Job.step, hpc, next, WorkerPc.onePop, Scheduler.workerStep]))
  | left => exact .inr (.inl rfl)
  | threw | undefined => exact .inr (.inr (.inl fun hno => hno))

/-- No worker has a step to take. -/
def AtRest (cfg : SchedulerConfig) (produce : Nat → List T) (s : Job cfg.workers T) : Prop :=
  ∀ id action, step cfg produce s (.worker id action) = none

/-- A push that waits at rest would wait for the fixed consumer, which has left
only if everything is done. -/
theorem stuck_of_atRest (h : (system cfg produce).GoodRun (Fits cfg) acts s)
    (hworkers : 2 ≤ cfg.workers) (hcapacity : 1 ≤ cfg.capacity)
    (hrest : AtRest cfg produce s) : Scheduler.Stuck s.run := by
  have hinv := inv_of_run h
  have hledger := ledger_of_reachable h.reaches.reachable
  have hwaits (id : Fin cfg.workers) : s.run.pc id = .left ∨
      (∃ gate taken, s.run.pc id = .pop gate taken ∧ s.run.queue = []) ∨
      ∃ chunk left gate v, s.run.pc id = .push chunk left gate v ∧
        cfg.capacity ≤ s.run.queue.length := by
    rcases hledger.enabled id with ⟨action, t, hstep⟩ | hleft | hunsound | hwaits
    · rw [hrest id action] at hstep
      cases hstep
    · exact .inl hleft
    · exact absurd (hinv.chunks.sound id) hunsound
    · exact .inr hwaits
  intro id
  rcases hwaits id with hleft | hpop | ⟨chunk, left, gate, v, hpush, hfull⟩
  · exact .inl hleft
  · exact .inr hpop
  · exfalso
    rcases hwaits ⟨0, by omega⟩ with hleft | ⟨_, _, _, hempty⟩ | ⟨_, _, _, _, hpc, _⟩
    · have hdone := Scheduler.done_of_left (fits_of_run h) _ hleft
      have hout := (hinv.finished_of_done hdone).2.1 id
      rw [hpush] at hout
      exact hout trivial
    · rw [hempty, List.length_nil] at hfull
      omega
    · have hconsumer := hledger.consumer ⟨0, by omega⟩ rfl
      rw [hpc] at hconsumer
      exact hconsumer trivial

theorem delivered_of_atRest (hworkers : 2 ≤ cfg.workers) (hcapacity : 1 ≤ cfg.capacity)
    (hinputs : cfg.first < cfg.inputs) (h : (system cfg produce).GoodRun (Fits cfg) acts s)
    (hrest : AtRest cfg produce s) : s.run.stats.isAllTaskDone = true ∧
      s.run.settled = total cfg produce ∧ s.run.queue = [] := by
  have hbase := baseInv_of_reachable h.reaches.reachable
  have hdone := hbase.done_of_stuck (Scheduler.stops_of_run (run_of_reaches h.reaches)) hworkers
    hinputs (stuck_of_atRest h hworkers hcapacity hrest)
  exact ⟨hdone, (ledger_of_reachable h.reaches.reachable).settled_of_done (inv_of_run h) hdone⟩

/-- With at least two workers, a queue that holds at least one value and an input to
claim, as long as the claims fit: the workers take at most three steps for each worker and
each input and seven for each value, whatever they do in between; and when none of them has
a step to take, the tasks are done, and the values settled are the values of all inputs. A
push that waits for the full queue is no exception, since the fixed consumer never
produces. -/
theorem delivers_every_value (hworkers : 2 ≤ cfg.workers) (hcapacity : 1 ≤ cfg.capacity)
    (hinputs : cfg.first < cfg.inputs) (h : (system cfg produce).GoodRun (Fits cfg) acts s) :
    acts.countP isWorker ≤
      3 * cfg.workers + 3 * (cfg.inputs - cfg.first) + 7 * (total cfg produce).card ∧
    (AtRest cfg produce s →
      s.run.stats.isAllTaskDone = true ∧ s.run.settled = total cfg produce ∧
        s.run.queue = []) := by
  refine ⟨countP_isWorker_le h, fun hrest => ?_⟩
  exact delivered_of_atRest hworkers hcapacity hinputs h hrest

/-- Two inputs, with no value and one: the fixed consumer leaves, and the fixed
producer waits for another value. -/
theorem delivers_every_value_two_inputs :
    ∃ acts s, (system ⟨2, true, false, 1, 2, int32⟩ fun i => List.replicate i 7).Reaches acts s ∧
      acts.countP isWorker = 13 ∧ s.run.stats.isAllTaskDone = true ∧ s.run.settled = {7} := by
  obtain ⟨s, hrun, hs⟩ :=
    ((system ⟨2, true, false, 1, 2, int32⟩ fun i => List.replicate i 7).restrict
      (Fits ⟨2, true, false, 1, 2, int32⟩)).exists_of_map
      [.worker 1 .claim, .worker 1 .endInput, .worker 1 (.producerUpdate false), .worker 1 .claim,
        .worker 1 (.callPush 7), .worker 1 .push, .worker 1 .endInput,
        .worker 1 (.producerUpdate false), .worker 0 .callPop, .worker 0 (.pop 0),
        .worker 0 .endCall, .worker 0 (.consumerUpdate false), .worker 1 .callPop]
      (b := (.left, .pop 1 [], [])) (fun s => (s.run.pc 0, s.run.pc 1, s.run.queue))
      (by decide +kernel)
  simp only [Prod.mk.injEq] at hs
  obtain ⟨hconsumer, hproducer, hqueue⟩ := hs
  have hgood := TransitionSystem.GoodRun.of_restrict hrun
  have hrest : AtRest ⟨2, true, false, 1, 2, int32⟩ (fun i => List.replicate i 7) s := by
    refine Fin.forall_fin_two.mpr ⟨fun action => ?_, fun action => ?_⟩
    · cases action <;> simp [step, hconsumer, next, Scheduler.workerStep]
    · cases action <;> simp [step, hproducer, next, Scheduler.workerStep, hqueue]
  obtain ⟨hdone, hsettled, _⟩ := (delivers_every_value (Nat.le_refl 2) (Nat.le_refl 1)
    (by decide) hgood).2 hrest
  exact ⟨_, s, hgood.reaches, rfl, hdone, hsettled.trans rfl⟩

end Runs

end Job

end YkUtil.Exec
