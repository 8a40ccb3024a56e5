import Mathlib.Algebra.Order.Ring.Int
import YkUtil.Exec.CvQueue.Refinement

/-!
`cv_queue` over a buffer that may throw. The queue has its buffer `reserve`
room and `emplace` values, and either may fail and then leaves the buffer as it
was. `static_cast<typename BufT::size_type>` of a capacity is explicit here,
since the checks compare what it gives with `max_size()`.
-/

namespace YkUtil.Exec.CvQueue.Throwing

open YkUtil.Lib
open YkUtil.Lib.BoundedContainer (Container)

variable {Tid T : Type*}

/-- An instantiation, with the width of the buffer's `size_type`. -/
structure Config extends CvQueueConfig where
  sizeBits : Nat
  maxSize_lt : maxSize < 2 ^ sizeBits

namespace Config

/-- `static_cast<typename BufT::size_type>(capacity)`. -/
def cast (cfg : Config) (capacity : Int) : Nat := (capacity % 2 ^ cfg.sizeBits).toNat

/-- `reserve` throws: the room is more than `max_size()`, or `fails` says that
the buffer does not get it. -/
def reserveFails (cfg : Config) (room : Nat) (fails : Bool) : Bool :=
  fails || decide (cfg.maxSize < room)

/-- `emplace` or `emplace_back` throws, likewise. -/
def emplaceFails (cfg : Config) (buf : List T) (fails : Bool) : Bool :=
  fails || decide (cfg.maxSize < buf.length + 1)

/-- The two checks on a new capacity. -/
def checkCapacity (cfg : Config) (capacity : Int) : Except LengthError Unit :=
  if capacity < 0 then .error .negative
  else if cfg.maxSize < cfg.cast capacity then
    .error (.exceedsMaxSize capacity cfg.maxSize)
  else .ok ()

/-- The capacity passes the two checks. -/
def Accepts (cfg : Config) (capacity : Int) : Prop :=
  0 ≤ capacity ∧ cfg.cast capacity ≤ cfg.maxSize

instance (cfg : Config) (capacity : Int) : Decidable (cfg.Accepts capacity) :=
  inferInstanceAs (Decidable (_ ∧ _))

theorem checkCapacity_of_accepts {cfg : Config} {n : Int} (h : cfg.Accepts n) :
    cfg.checkCapacity n = .ok () := by
  obtain ⟨hlow, hhigh⟩ := h
  rw [checkCapacity, if_neg (Int.not_lt.mpr hlow), if_neg (Nat.not_lt.mpr hhigh)]

theorem checkCapacity_of_not_accepts {cfg : Config} {n : Int} (h : ¬ cfg.Accepts n) :
    ∃ e, cfg.checkCapacity n = .error e := by
  unfold checkCapacity
  split
  · exact ⟨_, rfl⟩
  · rename_i hlow
    split
    · exact ⟨_, rfl⟩
    · rename_i hhigh
      exact absurd ⟨Int.not_lt.mp hlow, Nat.not_lt.mp hhigh⟩ h

theorem reserveFails_of_accepts {cfg : Config} {n : Int} (h : cfg.Accepts n) (fails : Bool) :
    cfg.reserveFails (cfg.cast n) fails = fails := by
  rw [reserveFails, decide_eq_false (Nat.not_lt.mpr h.2), Bool.or_false]

/-- A capacity that the buffer's `size_type` can represent. -/
theorem cast_of_lt {cfg : Config} {n : Int} (hlow : 0 ≤ n) (hhigh : n < 2 ^ cfg.sizeBits) :
    (cfg.cast n : Int) = n := by
  rw [cast, Int.emod_eq_of_lt hlow hhigh, Int.toNat_of_nonneg hlow]

end Config

/-- What leaves a call that does not return. -/
inductive Thrown where
  | lengthError (error : LengthError)
  | interrupted
  | buffer
  deriving DecidableEq

/-- How a critical section ends. -/
inductive Outcome (T : Type*) where
  | waits
  | returns (event : CvQueueEvent T)
  | reserved
  | throws (exception : Thrown)
  deriving DecidableEq

/-- The end of a section that does not ask the buffer for anything. -/
def Outcome.ofEvent : Option (CvQueueEvent T) → Outcome T
  | none => .waits
  | some .interrupted => .throws .interrupted
  | some (.lengthError error) => .throws (.lengthError error)
  | some event => .returns event

/-- The two constructors. -/
inductive Construction where
  | default
  | capacity (initialCapacity : Int)

/-- The constructor without arguments is defaulted and leaves the member
initialisers to do. -/
def construct (cfg : Config) (fails : Bool) : Construction → Except Thrown (CvQueue Tid T)
  | .default => .ok (ofCapacity defaultCapacity)
  | .capacity n =>
      match cfg.checkCapacity n with
      | .error e => .error (.lengthError e)
      | .ok () =>
          if cfg.traits.hasReserve && cfg.reserveFails (cfg.cast n) fails then .error .buffer
          else .ok (ofCapacity n)

/-- `set_capacity`. -/
def setCapacity (cfg : Config) (q : CvQueue Tid T) (n : Int) : CvQueue Tid T × Outcome T :=
  match cfg.checkCapacity n with
  | .error e => (q, .throws (.lengthError e))
  | .ok () => ({q with capacity := n}, .returns (.capacitySet n))

/-- `reserve_capacity`. -/
def reserveCapacity (cfg : Config) (q : CvQueue Tid T) (fails : Bool) :
    CvQueue Tid T × Outcome T :=
  if cfg.reserveFails (cfg.cast q.capacity) fails then (q, .throws .buffer) else (q, .reserved)

/-- `set_capacity_and_reserve`. -/
def setCapacityAndReserve (cfg : Config) (q : CvQueue Tid T) (n : Int) (fails : Bool) :
    CvQueue Tid T × Outcome T :=
  match cfg.checkCapacity n with
  | .error e => (q, .throws (.lengthError e))
  | .ok () =>
      let q' := {q with capacity := n}
      if cfg.reserveFails (cfg.cast q'.capacity) fails then (q', .throws .buffer)
      else (q', .returns (.capacitySet n))

/-- A section of `push_wait`. The buffer throws out of `traits_type::push`
before that notifies anyone. -/
def pushWait (cfg : Config) (q : CvQueue Tid T) (tid : Tid) (v : T) (stop : Bool) (pick : Nat)
    (fails : Bool) : CvQueue Tid T × Outcome T :=
  if stop then (q, .throws .interrupted)
  else if q.pushWaitCond then
    if q.pushWaitCondError then (q, .returns .pushFalse)
    else if cfg.emplaceFails q.buf fails then (q, .throws .buffer)
    else (traitsPush cfg.toCvQueueConfig q v pick, .returns (.pushed v))
  else ({q with notFull := q.notFull.wait tid}, .waits)

/-- A call. -/
inductive Op (T : Type*) where
  | call (op : CvQueue.Op T)
  | reserveCapacity

def Op.available (cfg : Config) : Op T → Bool
  | .call op => op.available cfg.toCvQueueConfig
  | .reserveCapacity => cfg.traits.hasReserve

def Op.token : Op T → Option WaitsOn
  | .call op => op.token
  | .reserveCapacity => none

/-- The capacity that a call would set. -/
def Op.newCapacity : Op T → Option Int
  | .call (.setCapacity n) | .call (.setCapacityAndReserve n) => some n
  | _ => none

/-- One critical section of a call. `fails` says that the buffer throws where
it is asked for room. -/
def Op.run (cfg : Config) (q : CvQueue Tid T) (tid : Tid) (stop : Bool) (pick : Nat)
    (fails : Bool) : Op T → Option (CvQueue Tid T × Outcome T)
  | .call (.pushWait _ v) => some (pushWait cfg q tid v stop pick fails)
  | .call (.setCapacity n) => some (setCapacity cfg q n)
  | .call (.setCapacityAndReserve n) => some (setCapacityAndReserve cfg q n fails)
  | .reserveCapacity => some (Throwing.reserveCapacity cfg q fails)
  | .call op =>
      (op.run cfg.toCvQueueConfig q tid stop pick).map fun (q', event) => (q', .ofEvent event)

/-- The section ends without a result: the call goes to sleep or throws. -/
def Outcome.quiet : Outcome T → Bool
  | .waits | .throws _ => true
  | .returns _ | .reserved => false

theorem pushWait_toContainer (cfg : Config) (q : CvQueue Tid T) (tid : Tid) (v : T) (stop : Bool)
    (pick : Nat) (fails : Bool) :
    (pushWait cfg q tid v stop pick fails).1.capacity = q.capacity ∧
      ((pushWait cfg q tid v stop pick fails).2.quiet = true →
        toContainer (pushWait cfg q tid v stop pick fails).1 = toContainer q) := by
  unfold pushWait
  split
  · exact ⟨rfl, fun _ => rfl⟩
  split
  · split
    · exact ⟨rfl, fun _ => rfl⟩
    split
    · exact ⟨rfl, fun _ => rfl⟩
    · exact ⟨congrArg Container.capacity (traitsPush_toContainer _ _ _ _), fun h => nomatch h⟩
  · exact ⟨rfl, fun _ => rfl⟩

theorem setCapacity_cases (cfg : Config) (q : CvQueue Tid T) (n : Int) :
    (¬ cfg.Accepts n ∧ ∃ e, setCapacity cfg q n = (q, .throws (.lengthError e))) ∨
      (cfg.Accepts n ∧
        setCapacity cfg q n = ({q with capacity := n}, .returns (.capacitySet n))) := by
  by_cases hn : cfg.Accepts n
  · right
    rw [setCapacity, Config.checkCapacity_of_accepts hn]
    exact ⟨hn, rfl⟩
  · left
    obtain ⟨e, he⟩ := Config.checkCapacity_of_not_accepts hn
    rw [setCapacity, he]
    exact ⟨hn, e, rfl⟩

/-- The capacity is assigned before the buffer is asked for room. -/
theorem setCapacityAndReserve_cases (cfg : Config) (q : CvQueue Tid T) (n : Int) (fails : Bool) :
    (¬ cfg.Accepts n ∧ ∃ e, setCapacityAndReserve cfg q n fails = (q, .throws (.lengthError e))) ∨
      (cfg.Accepts n ∧ setCapacityAndReserve cfg q n fails =
        ({q with capacity := n},
          if fails then .throws .buffer else .returns (.capacitySet n))) := by
  by_cases hn : cfg.Accepts n
  · right
    rw [setCapacityAndReserve, Config.checkCapacity_of_accepts hn]
    refine ⟨hn, ?_⟩
    simp only [Config.reserveFails_of_accepts hn]
    split <;> rfl
  · left
    obtain ⟨e, he⟩ := Config.checkCapacity_of_not_accepts hn
    rw [setCapacityAndReserve, he]
    exact ⟨hn, e, rfl⟩

/-- A critical section that has been run, with the container before and after
it. -/
structure Record (Tid T : Type*) where
  tid : Tid
  before : Container T
  outcome : Outcome T
  after : Container T

abbrev System (Tid T : Type*) := Threads Tid T (Op T) (Record Tid T)

/-- What a section leaves open: whom it wakes, and whether the buffer throws. -/
structure Pick where
  pick : Nat
  fails : Bool

abbrev Action (Tid T : Type*) := ThreadAction Tid (Op T) Pick

variable {cfg : Config} {s t : System Tid T} {a : Action Tid T}
  {good : CvQueue Tid T → Bool → Op T → Prop}

/-- A side condition on critical sections, given the queue they find and whether
the buffer throws, as one on steps. -/
def OnSection (good : CvQueue Tid T → Bool → Op T → Prop) (s : System Tid T) :
    Action Tid T → Prop
  | .lock tid pick => ∀ op, s.call tid = some op → good s.queue pick.fails op
  | _ => True

theorem onSection_lock {tid : Tid} {pick : Pick} {op : Op T} (hcall : s.call tid = some op) :
    OnSection good s (.lock tid pick) ↔ good s.queue pick.fails op := by
  constructor
  · intro h
    exact h op hcall
  · intro h op' hcall'
    cases hcall.symm.trans hcall'
    exact h

theorem OnSection.mono {better : CvQueue Tid T → Bool → Op T → Prop} (h : OnSection good s a)
    (himp : ∀ q fails op, good q fails op → better q fails op) : OnSection better s a := by
  cases a with
  | lock tid pick => exact fun op hcall => himp _ _ _ (h op hcall)
  | invoke | wake | requestStop => trivial

theorem onSection_of_other (hother : ∀ tid pick, a ≠ .lock tid pick) : OnSection good s a := by
  cases a with
  | lock tid pick => exact absurd rfl (hother tid pick)
  | invoke | wake | requestStop => trivial

variable [DecidableEq Tid]

/-- A section of `tid` ends: unless it waits, the call has returned or thrown. -/
def System.finish (s : System Tid T) (tid : Tid) (q : CvQueue Tid T) (outcome : Outcome T) :
    System Tid T :=
  let record := {tid := tid
                 before := toContainer s.queue
                 outcome := outcome
                 after := toContainer q}
  {s with
    queue := q
    call := match outcome with
      | .waits => s.call
      | _ => Function.update s.call tid none
    history := s.history ++ [record]}

def calls (Tid T : Type*) [DecidableEq Tid] (cfg : Config) :
    Calls Tid T (Op T) Pick (Outcome T) (Record Tid T) where
  available := Op.available cfg
  token := Op.token
  run q tid stop pick := Op.run cfg q tid stop pick.pick pick.fails
  finish := System.finish

def step (cfg : Config) : System Tid T → Action Tid T → Option (System Tid T) :=
  (calls Tid T cfg).step

/-- The interleavings on a queue that has been constructed. -/
def system (cfg : Config) (q : CvQueue Tid T) : TransitionSystem (System Tid T) (Action Tid T) :=
  {init := .start q, step := step cfg}

/-! ## What a section does to the fields -/

/-- Everything a step can be: a critical section, or one that leaves the
container alone. -/
theorem step_inv (h : step cfg s a = some t) :
    (∃ tid pick op stop q outcome, a = .lock tid pick ∧ s.call tid = some op ∧
      op.run cfg s.queue tid stop pick.pick pick.fails = some (q, outcome) ∧
      t = s.finish tid q outcome) ∨
    ((∀ tid pick, a ≠ .lock tid pick) ∧ toContainer t.queue = toContainer s.queue ∧
      t.history = s.history) := by
  rcases Calls.step_inv h with ⟨tid, op, rfl, -, hq, -, -, hhistory⟩ |
    ⟨tid, pick, op, q, outcome, rfl, hcall, -, hrun, rfl⟩ | ⟨hother, hwoken, -, hhistory⟩
  · exact .inr ⟨by simp, congrArg toContainer hq, hhistory⟩
  · exact .inl ⟨tid, pick, op, _, q, outcome, rfl, hcall, hrun, rfl⟩
  · exact .inr ⟨hother, hwoken.toContainer_eq, hhistory⟩

end YkUtil.Exec.CvQueue.Throwing
