import YkUtil.Exec.AtomicQueue.Spurious

/-!
`cancelable_bounded_push` and `cancelable_pop` of `queue_traits`: loops that
call `try_push` or `try_pop` until one of them returns true or a stop is
requested. The push forwards the same arguments to every attempt, so an attempt
that moved from them and then failed would ruin the next one.
-/

namespace YkUtil.Exec.AtomicQueue

open YkUtil.Lib

variable {Tid Tok A T : Type*} {c : Nat}

/-- How an element is made of arguments `A`, and what that leaves of them: for
an rvalue, what was moved from. -/
structure Forwarding (A T : Type*) where
  build : A → T
  consume : A → A

/-- The arguments of a push or the variable of a pop, as they are now and as
they were at the call. A variable is `none` after a read of dead bytes. -/
inductive Operand (A T : Type*) where
  | args (now original : A)
  | value (now original : Option T)
  deriving DecidableEq

/-- A thread inside a cancelable call. The last two fields are read by no step:
what the call has made known, and that no step of it has changed the queue. -/
structure Caller (Tok A T : Type*) where
  token : Tok
  operand : Operand A T
  events : List (Event T)
  untouched : Prop

/-- A cancelable call that has returned, and whether a stop of its token had
been requested by then. -/
structure Finished (Tid Tok A T : Type*) where
  tid : Tid
  caller : Caller Tok A T
  ok : Bool
  stopped : Bool

structure CancelSystem (Tid Tok A T : Type*) (c : Nat) where
  base : System Tid T c
  caller : Tid → Option (Caller Tok A T)
  stopped : Tok → Bool
  finished : List (Finished Tid Tok A T)

/-- `condition` evaluates the loop condition; `attempt` is an atomic step of
the attempt. `plain` is an action of a thread in no cancelable call. -/
inductive CancelAction (Tid Tok A T : Type*) where
  | plain (action : Action Tid T)
  | push (tid : Tid) (token : Tok) (args : A)
  | pop (tid : Tid) (token : Tok) (value : T)
  | requestStop (token : Tok)
  | condition (tid : Tid)
  | attempt (tid : Tid)

def Action.tid : Action Tid T → Tid
  | .invoke tid _ => tid
  | .tick tid => tid

def Operand.call (fwd : Forwarding A T) : Operand A T → Call T
  | .args now _ => .tryPush (fwd.build now)
  | .value _ _ => .tryPop

/-- The event of an attempt that returns false. -/
def Operand.failed : Operand A T → Event T
  | .args _ _ => .tryPushFalse
  | .value _ _ => .tryPopFalse

/-- A push uses its arguments in `construct`, a pop assigns to its variable
from the slot; no other statement names them. -/
def Operand.after [NeZero c] (fwd : Forwarding A T) (q : AtomicQueue T c) :
    Operand A T → Pc T → Operand A T
  | .args now original, .construct _ _ _ => .args (fwd.consume now) original
  | .value _ original, .extract _ tail => .value (q.slotAt tail).extract original
  | operand, _ => operand

variable [DecidableEq Tid] [NeZero c]

def Caller.after (fwd : Forwarding A T) (caller : Caller Tok A T) (q : AtomicQueue T c)
    (pc : Pc T) : Caller Tok A T :=
  let outcome := advance .unbounded q pc
  {token := caller.token
   operand := caller.operand.after fwd q pc
   events := caller.events ++ outcome.2.2.toList
   untouched := caller.untouched ∧ outcome.1 = q}

namespace CancelSystem

def enter (s : CancelSystem Tid Tok A T c) (tid : Tid) (token : Tok) (operand : Operand A T) :
    CancelSystem Tid Tok A T c :=
  let caller : Caller Tok A T :=
    {token := token, operand := operand, events := [], untouched := True}
  {s with caller := Function.update s.caller tid (some caller)}

/-- The call returns `ok`. -/
def finish (s : CancelSystem Tid Tok A T c) (tid : Tid) (caller : Caller Tok A T) (ok : Bool) :
    CancelSystem Tid Tok A T c :=
  {s with
    caller := Function.update s.caller tid none
    finished := s.finished ++ [⟨tid, caller, ok, s.stopped caller.token⟩]}

/-- After an atomic step that leaves the call as `caller`: a true attempt ends
the call, a false one goes back to the condition. -/
def proceed (s : CancelSystem Tid Tok A T c) (tid : Tid) (caller : Caller Tok A T)
    (event : Option (Event T)) : CancelSystem Tid Tok A T c :=
  if Event.returned event = some true then s.finish tid caller true
  else {s with caller := Function.update s.caller tid (some caller)}

end CancelSystem

/-- A thread in a cancelable call whose program counter is idle is at the loop
condition. -/
def cancelStep [DecidableEq Tok] (fwd : Forwarding A T) (s : CancelSystem Tid Tok A T c) :
    CancelAction Tid Tok A T → Option (CancelSystem Tid Tok A T c)
  | .plain action =>
      match s.caller action.tid with
      | some _ => none
      | none => (step .unbounded s.base action).map fun base => {s with base := base}
  | .push tid token args =>
      match s.caller tid, s.base.pc tid with
      | none, .idle => some (s.enter tid token (.args args args))
      | _, _ => none
  | .pop tid token value =>
      match s.caller tid, s.base.pc tid with
      | none, .idle => some (s.enter tid token (.value (some value) (some value)))
      | _, _ => none
  | .requestStop token => some {s with stopped := Function.update s.stopped token true}
  | .condition tid =>
      match s.caller tid, s.base.pc tid with
      | some caller, .idle =>
          if s.stopped caller.token then some (s.finish tid caller false)
          else (step .unbounded s.base (.invoke tid (caller.operand.call fwd))).map
            fun base => {s with base := base}
      | _, _ => none
  | .attempt tid =>
      match s.caller tid with
      | none => none
      | some caller => (step .unbounded s.base (.tick tid)).map fun base =>
          CancelSystem.proceed {s with base := base} tid
            (caller.after fwd s.base.queue (s.base.pc tid))
            (advance .unbounded s.base.queue (s.base.pc tid)).2.2

def cancelSystem (fwd : Forwarding A T) (Tid Tok : Type*) [DecidableEq Tid] [DecidableEq Tok]
    (c : Nat) [NeZero c] :
    TransitionSystem (CancelSystem Tid Tok A T c) (CancelAction Tid Tok A T) :=
  {init :=
    {base := start Tid T c, caller := fun _ => none, stopped := fun _ => false, finished := []}
   step := cancelStep fwd}

/-- The operand is as it was at the call. -/
def Operand.Unused : Operand A T → Prop
  | .args now original => now = original
  | .value now original => now = original

/-- Nothing but failed attempts so far: the operand is as it was, and so is the
queue as far as this call goes. -/
structure Caller.Fresh (caller : Caller Tok A T) : Prop where
  failed : ∀ e ∈ caller.events, e = caller.operand.failed
  unused : caller.operand.Unused
  untouched : caller.untouched

/-- After failed attempts came the events `won`. -/
def Caller.Won (caller : Caller Tok A T) (won : List (Event T)) : Prop :=
  ∃ fails, caller.events = fails ++ won ∧ ∀ f ∈ fails, f = caller.operand.failed

/-- What holds of a call whose thread is at a program counter. -/
inductive Holding (fwd : Forwarding A T) (caller : Caller Tok A T) : Pc T → Prop where
  | condition : caller.Fresh → Holding fwd caller .idle
  | trying {pc : Pc T} :
      Pc.trying pc = some (caller.operand.call fwd) → caller.Fresh → Holding fwd caller pc
  | construct {mode : Mode} {k : Nat} {now original : A} :
      caller.operand = .args now original → caller.Won [.headTicket k (fwd.build original)] →
        Holding fwd caller (.construct mode (fwd.build original) k)
  | storePush {mode : Mode} {k : Nat} {now original : A} :
      caller.operand = .args now original → caller.Won [.headTicket k (fwd.build original)] →
        Holding fwd caller (.storePush mode k)
  | extract {mode : Mode} {k : Nat} {now original : Option T} :
      caller.operand = .value now original → caller.Won [.tailTicket k] →
        Holding fwd caller (.extract mode k)
  | destroy {mode : Mode} {k : Nat} {now original : Option T} :
      caller.operand = .value now original → caller.Won [.tailTicket k] →
        Holding fwd caller (.destroy mode k now)
  | storePop {mode : Mode} {k : Nat} {now original : Option T} :
      caller.operand = .value now original → caller.Won [.tailTicket k] →
        Holding fwd caller (.storePop mode k now)

/-- What holds of a call whose attempt has returned true. -/
inductive Succeeded (fwd : Forwarding A T) (caller : Caller Tok A T) : Prop where
  | push {k : Nat} {now original : A} : caller.operand = .args now original →
      caller.Won [.headTicket k (fwd.build original), .pushed k] → Succeeded fwd caller
  | pop {k : Nat} {now original : Option T} : caller.operand = .value now original →
      caller.Won [.tailTicket k, .popped k now] → Succeeded fwd caller

/-- One step of `try_push` before it has a ticket: it goes on looking, gives up,
or wins the ticket. Only the last changes the queue. -/
theorem trying_push_step (q : AtomicQueue T c) {pc : Pc T} {v : T}
    (h : Pc.trying pc = some (.tryPush v)) :
    ((advance .unbounded q pc).1 = q ∧
      Pc.trying (advance .unbounded q pc).2.1 = some (.tryPush v) ∧
      (advance .unbounded q pc).2.2 = none) ∨
    ((advance .unbounded q pc).1 = q ∧ (advance .unbounded q pc).2.1 = .idle ∧
      (advance .unbounded q pc).2.2 = some .tryPushFalse) ∨
    ∃ k, (advance .unbounded q pc).2.1 = .construct .nonBlocking v k ∧
      (advance .unbounded q pc).2.2 = some (.headTicket k v) := by
  cases pc with
  | tryPushLoad w =>
      cases h
      exact .inl ⟨rfl, rfl, rfl⟩
  | tryPushCheck w k =>
      cases h
      left
      simp only [advance]
      split <;> exact ⟨rfl, rfl, rfl⟩
  | tryPushCas w k =>
      cases h
      simp only [advance]
      split
      · exact .inr (.inr ⟨k, rfl, rfl⟩)
      · exact .inl ⟨rfl, rfl, rfl⟩
  | tryPushReload w k =>
      cases h
      simp only [advance]
      split
      · exact .inr (.inl ⟨rfl, rfl, rfl⟩)
      · exact .inl ⟨rfl, rfl, rfl⟩
  | _ => cases h

theorem trying_pop_step (q : AtomicQueue T c) {pc : Pc T} (h : Pc.trying pc = some .tryPop) :
    ((advance .unbounded q pc).1 = q ∧
      Pc.trying (advance .unbounded q pc).2.1 = some .tryPop ∧
      (advance .unbounded q pc).2.2 = none) ∨
    ((advance .unbounded q pc).1 = q ∧ (advance .unbounded q pc).2.1 = .idle ∧
      (advance .unbounded q pc).2.2 = some .tryPopFalse) ∨
    ∃ k, (advance .unbounded q pc).2.1 = .extract .nonBlocking k ∧
      (advance .unbounded q pc).2.2 = some (.tailTicket k) := by
  cases pc with
  | tryPopLoad => exact .inl ⟨rfl, rfl, rfl⟩
  | tryPopCheck k =>
      left
      simp only [advance]
      split <;> exact ⟨rfl, rfl, rfl⟩
  | tryPopCas k =>
      simp only [advance]
      split
      · exact .inr (.inr ⟨k, rfl, rfl⟩)
      · exact .inl ⟨rfl, rfl, rfl⟩
  | tryPopReload k =>
      simp only [advance]
      split
      · exact .inr (.inl ⟨rfl, rfl, rfl⟩)
      · exact .inl ⟨rfl, rfl, rfl⟩
  | _ => cases h

/-- Where an attempt that has won ticket `k` goes on, and what it makes known. -/
def Operand.ticket (fwd : Forwarding A T) (k : Nat) : Operand A T → Pc T × Event T
  | .args now _ => (.construct .nonBlocking (fwd.build now) k, .headTicket k (fwd.build now))
  | .value _ _ => (.extract .nonBlocking k, .tailTicket k)

/-- One step of an attempt before it has a ticket. -/
theorem trying_step (fwd : Forwarding A T) (q : AtomicQueue T c) {operand : Operand A T}
    {pc : Pc T} (h : Pc.trying pc = some (operand.call fwd)) :
    ((advance .unbounded q pc).1 = q ∧
      Pc.trying (advance .unbounded q pc).2.1 = some (operand.call fwd) ∧
      (advance .unbounded q pc).2.2 = none) ∨
    ((advance .unbounded q pc).1 = q ∧ (advance .unbounded q pc).2.1 = .idle ∧
      (advance .unbounded q pc).2.2 = some operand.failed) ∨
    ∃ k, (advance .unbounded q pc).2.1 = (operand.ticket fwd k).1 ∧
      (advance .unbounded q pc).2.2 = some (operand.ticket fwd k).2 := by
  cases operand with
  | args now original => exact trying_push_step q h
  | value now original => exact trying_pop_step q h

/-- Only a step that finishes an attempt returns. -/
theorem returned_failed (operand : Operand A T) :
    Event.returned (some operand.failed) = some false := by
  cases operand <;> rfl

theorem returned_ticket (fwd : Forwarding A T) (k : Nat) (operand : Operand A T) :
    Event.returned (some (operand.ticket fwd k).2) = none := by
  cases operand <;> rfl

/-- An attempt without a ticket has not used its operand. -/
theorem after_trying (fwd : Forwarding A T) (q : AtomicQueue T c) (operand : Operand A T)
    {pc : Pc T} {call : Call T} (h : Pc.trying pc = some call) :
    operand.after fwd q pc = operand := by
  cases operand with
  | args now original => cases pc <;> first | rfl | cases h
  | value now original => cases pc <;> first | rfl | cases h

theorem after_failed (fwd : Forwarding A T) (q : AtomicQueue T c) (operand : Operand A T)
    (pc : Pc T) : (operand.after fwd q pc).failed = operand.failed := by
  cases operand with
  | args now original => cases pc <;> rfl
  | value now original => cases pc <;> rfl

section After

variable {fwd : Forwarding A T} {caller : Caller Tok A T} {q : AtomicQueue T c} {pc : Pc T}

theorem Caller.Fresh.after {call : Call T} (h : caller.Fresh) (htry : Pc.trying pc = some call)
    (hqueue : (advance .unbounded q pc).1 = q)
    (hevent : ∀ e ∈ (advance .unbounded q pc).2.2, e = caller.operand.failed) :
    (caller.after fwd q pc).Fresh := by
  have hoperand := after_trying fwd q caller.operand htry
  constructor
  case failed =>
    intro e he
    change e = (caller.operand.after fwd q pc).failed
    rw [hoperand]
    simp only [Caller.after, List.mem_append, Option.mem_toList] at he
    exact he.elim (h.failed e) (hevent e)
  case unused =>
    change (caller.operand.after fwd q pc).Unused
    rw [hoperand]
    exact h.unused
  case untouched => exact ⟨h.untouched, hqueue⟩

theorem Caller.Fresh.won {e : Event T} (h : caller.Fresh)
    (hevent : (advance .unbounded q pc).2.2 = some e) : (caller.after fwd q pc).Won [e] := by
  refine ⟨caller.events, ?_, ?_⟩
  · simp only [Caller.after, hevent, Option.toList_some]
  · intro f hf
    exact (h.failed f hf).trans (after_failed fwd q caller.operand pc).symm

theorem Caller.Won.after {won : List (Event T)} (h : caller.Won won) :
    (caller.after fwd q pc).Won (won ++ (advance .unbounded q pc).2.2.toList) := by
  obtain ⟨fails, hevents, hfails⟩ := h
  refine ⟨fails, ?_, ?_⟩
  · simp only [Caller.after, hevents, List.append_assoc]
  · intro f hf
    exact (hfails f hf).trans (after_failed fwd q caller.operand pc).symm

/-- A call that has won a ticket with its operand unused. -/
theorem Holding.of_ticket {k : Nat} (hunused : caller.operand.Unused)
    (hwon : caller.Won [(caller.operand.ticket fwd k).2]) :
    Holding fwd caller (caller.operand.ticket fwd k).1 := by
  cases hcase : caller.operand with
  | args now original =>
      rw [hcase] at hunused hwon
      cases hunused
      exact .construct hcase hwon
  | value now original =>
      rw [hcase] at hwon
      exact .extract hcase hwon

/-- An attempt that has no ticket yet takes one step. -/
theorem Holding.attempt_trying (htry : Pc.trying pc = some (caller.operand.call fwd))
    (h : caller.Fresh) :
    Event.returned (advance .unbounded q pc).2.2 ≠ some true ∧
      Holding fwd (caller.after fwd q pc) (advance .unbounded q pc).2.1 := by
  have hoperand : (caller.after fwd q pc).operand = caller.operand :=
    after_trying fwd q caller.operand htry
  rcases trying_step fwd q htry with ⟨hqueue, hpc, hnone⟩ | ⟨hqueue, hpc, hfailed⟩ |
    ⟨k, hpc, hwon⟩
  · refine ⟨by simp [hnone, Event.returned], .trying ?_ (h.after htry hqueue (by simp [hnone]))⟩
    rw [hoperand, hpc]
  · refine ⟨by simp [hfailed, returned_failed], ?_⟩
    rw [hpc]
    apply Holding.condition
    apply h.after htry hqueue
    simp [hfailed]
  · refine ⟨by simp [hwon, returned_ticket], ?_⟩
    rw [hpc, ← hoperand]
    apply Holding.of_ticket
    · rw [hoperand]
      exact h.unused
    · rw [hoperand]
      exact h.won hwon

theorem Caller.after_operand : (caller.after fwd q pc).operand = caller.operand.after fwd q pc :=
  rfl

/-- One atomic step of an attempt: it leaves the call where the invariant says,
or ends it. -/
theorem Holding.attempt (h : Holding fwd caller pc) (hbusy : pc ≠ .idle) :
    (Event.returned (advance .unbounded q pc).2.2 ≠ some true ∧
      Holding fwd (caller.after fwd q pc) (advance .unbounded q pc).2.1) ∨
    (Event.returned (advance .unbounded q pc).2.2 = some true ∧
      Succeeded fwd (caller.after fwd q pc)) := by
  cases h with
  | condition => exact absurd rfl hbusy
  | trying htry hfresh => exact .inl (Holding.attempt_trying htry hfresh)
  | @construct mode k now original hoperand hwon =>
      have hused : (caller.after fwd q (.construct mode (fwd.build original) k)).operand =
          .args (fwd.consume now) original := by
        rw [Caller.after_operand, hoperand]
        rfl
      exact .inl ⟨nofun, .storePush hused hwon.after⟩
  | @storePush mode k now original hoperand hwon =>
      have hkept : (caller.after fwd q (.storePush mode k)).operand = .args now original := by
        rw [Caller.after_operand, hoperand]
        rfl
      exact .inr ⟨rfl, .push hkept hwon.after⟩
  | @extract mode k now original hoperand hwon =>
      have hread : (caller.after fwd q (.extract mode k)).operand =
          .value (q.slotAt k).extract original := by
        rw [Caller.after_operand, hoperand]
        rfl
      exact .inl ⟨nofun, .destroy hread hwon.after⟩
  | @destroy mode k now original hoperand hwon =>
      have hkept : (caller.after fwd q (.destroy mode k now)).operand = .value now original := by
        rw [Caller.after_operand, hoperand]
        rfl
      exact .inl ⟨nofun, .storePop hkept hwon.after⟩
  | @storePop mode k now original hoperand hwon =>
      have hkept : (caller.after fwd q (.storePop mode k now)).operand = .value now original := by
        rw [Caller.after_operand, hoperand]
        rfl
      exact .inr ⟨rfl, .pop hkept hwon.after⟩

end After

end YkUtil.Exec.AtomicQueue
