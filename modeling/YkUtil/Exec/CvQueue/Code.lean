import YkUtil.Lib.BoundedContainer
import YkUtil.Lib.CondVar

/-!
`cv_queue` and `detail::cv_queue_traits`. Every operation holds `mtx_` while it
touches the queue and gives it up only inside `wait`, so an operation is a
sequence of critical sections and each section is one function here. The
mutex itself needs no model: sections follow one another.
-/

namespace YkUtil.Exec

open YkUtil.Lib

/-- `cv_queue_flag`. -/
structure CvQueueFlags where
  multiProducer : Bool
  multiConsumer : Bool
  stopTokenSupport : Bool
  queueBasedPushPop : Bool
  deriving DecidableEq

namespace CvQueueFlags

def spsc : CvQueueFlags :=
  {multiProducer := false
   multiConsumer := false
   stopTokenSupport := false
   queueBasedPushPop := false}

def spmc : CvQueueFlags := {spsc with multiConsumer := true}

def mpsc : CvQueueFlags := {spsc with multiProducer := true}

def mpmc : CvQueueFlags := {spmc with multiProducer := true}

end CvQueueFlags

/-- The requires-expressions of `cv_queue_traits`, evaluated for a buffer. -/
structure BufTraits where
  hasReserve : Bool
  hasBackAccess : Bool
  hasFrontAccess : Bool
  hasPlainQueueAccess : Bool
  hasPlainStackAccess : Bool

namespace BufTraits

/-- `std::vector`. -/
def vector : BufTraits :=
  {hasReserve := true
   hasBackAccess := true
   hasFrontAccess := false
   hasPlainQueueAccess := false
   hasPlainStackAccess := false}

/-- `std::deque`. -/
def deque : BufTraits :=
  {hasReserve := false
   hasBackAccess := true
   hasFrontAccess := true
   hasPlainQueueAccess := false
   hasPlainStackAccess := false}

def hasBothAccess (t : BufTraits) : Bool := t.hasBackAccess && t.hasFrontAccess

end BufTraits

/-- One instantiation of `cv_queue`. `maxSize` is the buffer's `max_size()`. -/
structure CvQueueConfig where
  flags : CvQueueFlags
  traits : BufTraits
  maxSize : Nat

namespace CvQueueConfig

def isMultiProducer (cfg : CvQueueConfig) : Bool := cfg.flags.multiProducer

def isSingleProducer (cfg : CvQueueConfig) : Bool := !cfg.isMultiProducer

def isMultiConsumer (cfg : CvQueueConfig) : Bool := cfg.flags.multiConsumer

def isSingleConsumer (cfg : CvQueueConfig) : Bool := !cfg.isMultiConsumer

def isQueueBasedPushPop (cfg : CvQueueConfig) : Bool := cfg.flags.queueBasedPushPop

def enableStopTokenSupport (cfg : CvQueueConfig) : Bool := cfg.flags.stopTokenSupport

def defaultAccessStrategyIsStack (cfg : CvQueueConfig) : Bool := !cfg.isQueueBasedPushPop

/-- The two `static_assert`s on the buffer. -/
def Accepted (cfg : CvQueueConfig) : Prop :=
  (cfg.isQueueBasedPushPop = true →
    cfg.traits.hasBothAccess = true ∨ cfg.traits.hasPlainQueueAccess = true) ∧
  (cfg.traits.hasBackAccess = true ∨ cfg.traits.hasPlainStackAccess = true)

end CvQueueConfig

/-- `std::length_error`, with the values its text shows. -/
inductive LengthError where
  | negative
  | exceedsMaxSize (capacity : Int) (maxSize : Nat)
  deriving DecidableEq

/-- `default_capacity`. -/
def defaultCapacity : Int := 1024

structure CvQueue (Tid T : Type*) where
  buf : List T
  capacity : Int
  closed : Bool
  notFull : CondVar Tid
  notEmpty : CondVar Tid

/-- What a critical section ends with; a section that ends in `wait` has no
event. -/
inductive CvQueueEvent (T : Type*) where
  | pushed (v : T)
  | popped (v : T)
  | pushFalse
  | popFalse
  | interrupted
  | capacitySet (capacity : Int)
  | lengthError (error : LengthError)
  | cleared (dropped : List T)
  | closed
  | opened
  deriving DecidableEq

namespace CvQueue

variable {Tid T : Type*}

def ofCapacity (capacity : Int) : CvQueue Tid T :=
  {buf := [], capacity := capacity, closed := false, notFull := .empty, notEmpty := .empty}

def emplaceBack (buf : List T) (v : T) : List T := buf ++ [v]

/-- `emplace` of a plain stack or queue is `emplace_back` of what it adapts. -/
def emplace (buf : List T) (v : T) : List T := emplaceBack buf v

/-- The move out of `back()`, then `pop_back()`. -/
def takeBack (buf : List T) : Option (T × List T) :=
  buf.getLast?.map fun v => (v, buf.dropLast)

/-- The move out of `top()`, then `pop()`: a plain stack has its top at the
back. -/
def takeTop (buf : List T) : Option (T × List T) := takeBack buf

/-- The move out of `front()`, then `pop_front()`. -/
def takeFront (buf : List T) : Option (T × List T) :=
  buf.head?.map fun v => (v, buf.tail)

/-- The move out of `front()`, then `pop()` of a plain queue. -/
def takeHead (buf : List T) : Option (T × List T) := takeFront buf

def doPush (cfg : CvQueueConfig) (buf : List T) (v : T) : List T :=
  if cfg.traits.hasBackAccess then emplaceBack buf v else emplace buf v

/-- `none` reads a value of an empty buffer. -/
def doPop (cfg : CvQueueConfig) (buf : List T) : Option (T × List T) :=
  if cfg.defaultAccessStrategyIsStack then
    if cfg.traits.hasBackAccess then takeBack buf else takeTop buf
  else
    if cfg.traits.hasFrontAccess then takeFront buf else takeHead buf

/-- `cv_queue_traits::push`: the overload for one producer and one consumer,
and the one for the other modes. -/
def traitsPush (cfg : CvQueueConfig) (q : CvQueue Tid T) (v : T) (pick : Nat) : CvQueue Tid T :=
  let q' := {q with buf := doPush cfg q.buf v}
  if cfg.isSingleProducer && cfg.isSingleConsumer then
    if q.buf.isEmpty then {q' with notEmpty := q.notEmpty.notifyOne pick} else q'
  else if cfg.isSingleConsumer then {q' with notEmpty := q.notEmpty.notifyOne pick}
  else {q' with notEmpty := q.notEmpty.notifyAll}

/-- `cv_queue_traits::pop`, likewise. -/
def traitsPop (cfg : CvQueueConfig) (q : CvQueue Tid T) (pick : Nat) :
    Option (T × CvQueue Tid T) :=
  (doPop cfg q.buf).map fun (v, rest) =>
    let q' := {q with buf := rest}
    if cfg.isSingleProducer && cfg.isSingleConsumer then
      if q.capacity ≤ (q.buf.length : Int) then
        (v, {q' with notFull := q.notFull.notifyOne pick})
      else (v, q')
    else if cfg.isSingleProducer then (v, {q' with notFull := q.notFull.notifyOne pick})
    else (v, {q' with notFull := q.notFull.notifyAll})

def pushWaitCond (q : CvQueue Tid T) : Bool :=
  decide ((q.buf.length : Int) < q.capacity) || q.closed

def pushWaitCondError (q : CvQueue Tid T) : Bool := q.closed

def popWaitCond (q : CvQueue Tid T) : Bool := !q.buf.isEmpty || q.closed

def popWaitCondError (q : CvQueue Tid T) : Bool := q.closed

/-- A section of `push_wait`, from taking the lock (in the call, or on waking
up in `wait`) to giving it up. `stop` says that the call has a stop token and
a stop was requested on it. -/
def pushWait (cfg : CvQueueConfig) (q : CvQueue Tid T) (tid : Tid) (v : T) (stop : Bool)
    (pick : Nat) : CvQueue Tid T × Option (CvQueueEvent T) :=
  if stop then (q, some .interrupted)
  else if q.pushWaitCond then
    if q.pushWaitCondError then (q, some .pushFalse)
    else (traitsPush cfg q v pick, some (.pushed v))
  else ({q with notFull := q.notFull.wait tid}, none)

/-- A section of `pop_wait`. The outer `none` is a read of an empty buffer. -/
def popWait (cfg : CvQueueConfig) (q : CvQueue Tid T) (tid : Tid) (stop : Bool) (pick : Nat) :
    Option (CvQueue Tid T × Option (CvQueueEvent T)) :=
  if stop then some (q, some .interrupted)
  else if q.popWaitCond then
    if q.popWaitCondError then some (q, some .popFalse)
    else (traitsPop cfg q pick).map fun (v, q') => (q', some (.popped v))
  else some ({q with notEmpty := q.notEmpty.wait tid}, none)

/-- The checks that `set_capacity` and `set_capacity_and_reserve` share. The
second also calls `reserve`, which changes no value in the buffer. -/
def setCapacity (cfg : CvQueueConfig) (q : CvQueue Tid T) (newCapacity : Int) :
    CvQueue Tid T × CvQueueEvent T :=
  if newCapacity < 0 then (q, .lengthError .negative)
  else if (cfg.maxSize : Int) < newCapacity then
    (q, .lengthError (.exceedsMaxSize newCapacity cfg.maxSize))
  else ({q with capacity := newCapacity}, .capacitySet newCapacity)

def close (q : CvQueue Tid T) : CvQueue Tid T :=
  {q with closed := true, notFull := q.notFull.notifyAll, notEmpty := q.notEmpty.notifyAll}

/-- `open`. -/
def reopen (q : CvQueue Tid T) : CvQueue Tid T :=
  {q with closed := false, notFull := q.notFull.notifyAll, notEmpty := q.notEmpty.notifyAll}

def clear (q : CvQueue Tid T) : CvQueue Tid T :=
  {q with buf := [], notFull := q.notFull.notifyAll}

end CvQueue

end YkUtil.Exec
