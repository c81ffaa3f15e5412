import Mathlib.Logic.Function.Basic
import Mathlib.Data.Nat.Notation
import Sneks.Lib.Run

/-!
# The lifecycle event queue of `sys/io`

`lifecycle_handler_fn` runs in the sysmsg thread and posts process lifecycle
events into a circular buffer; `lifecycle_sync` runs in the dispatch thread and
drains it. The two share the array `lce_queue` and one atomic control word
`lce_ctrl`, whose bits `0..9` are the write position, `10..19` the read position
and `20` the overflow mark.

Each thread is a program counter holding its local variables, and one step of
the model is one access to shared memory. `posted` and `processed` are ghost
logs of the events handed to `lifecycle_handler_fn` and of those that
`lifecycle_sync` has taken out of the queue.
-/

namespace Sneks.Io.Lifecycle

def numLcEvents : ℕ := 128

/-- Process lifecycle tags (`MPL_*`), the low byte of `body[1]`. -/
inductive LcTag
  | fork (child : ℕ)
  | exec
  | exit (signo waitstatus exitcode : ℕ)
  | weird (tag : ℕ)
  deriving DecidableEq, Repr

/-- `struct lc_event`: what a lifecycle message says about process `primary`. -/
structure LcEvent where
  primary : ℕ
  tag : LcTag
  deriving DecidableEq, Repr

/-- The event `lifecycle_handler_fn` makes of a message body. `primary` and `child`
    are unsigned shorts, `signo` a short. -/
def LcEvent.ofBody (body : ℕ → ℕ) : LcEvent where
  primary := body 0 % 2 ^ 16
  tag := match body 1 % 2 ^ 8 with
    | 0 => .fork ((body 1 >>> 8) % 2 ^ 16)
    | 1 => .exec
    | 2 => .exit ((body 1 >>> 8) % 2 ^ 16) (body 2) (body 3)
    | tag => .weird tag

def wrPos (ctrl : ℕ) : ℕ := ctrl &&& 0x3ff

/-- `ctrl >> 10`: the read position, with the overflow mark still above it. -/
def rdPos (ctrl : ℕ) : ℕ := ctrl >>> 10

def overflow (ctrl : ℕ) : Bool := ctrl.testBit 20

inductive Producer
  | idle
  /-- The control word was loaded with room in the queue. -/
  | fill (ctrl wrpos : ℕ) (ev : LcEvent)
  /-- The queue was found full; the overflow mark is about to be set. -/
  | mark (ctrl wrpos : ℕ) (ev : LcEvent)
  /-- In the compare-and-exchange loop; `real` tells a queue slot from `ev_dummy`. -/
  | publish (ctrl wrpos : ℕ) (ev : LcEvent) (real : Bool)

inductive Consumer
  | idle
  /-- Processing event `i` of `count`, from slot `first` on. -/
  | drain (ctrl first count i : ℕ)
  /-- In the compare-and-exchange loop. -/
  | publish (ctrl first count : ℕ)

structure State where
  lceCtrl : ℕ
  lceQueue : ℕ → LcEvent
  producer : Producer
  consumer : Consumer
  /-- The server has called `abort()` or failed an assertion. -/
  aborted : Bool
  posted : List LcEvent
  processed : List LcEvent

def State.init : State where
  lceCtrl := 0
  lceQueue _ := ⟨0, .fork 0⟩
  producer := .idle
  consumer := .idle
  aborted := false
  posted := []
  processed := []

/-- Steps: a sysmsg upcall with a message body, the next step of either thread,
    or a call of `lifecycle_sync` by the dispatch thread. -/
inductive Step
  | post (body : ℕ → ℕ)
  | produce
  | sync
  | consume

/-- `lifecycle_handler_fn` up to the load of the control word. The switch on the
    tag touches nothing shared (`sysmsg_add_filter` and the poke go elsewhere). -/
def State.post (s : State) (ev : LcEvent) : State :=
  let ctrl := s.lceCtrl
  let wrpos := wrPos ctrl
  { s with
    posted := s.posted ++ [ev]
    producer :=
      if overflow ctrl then .publish ctrl wrpos ev false
      else if rdPos ctrl = (wrpos + 1) % numLcEvents then .mark ctrl wrpos ev
      else .fill ctrl wrpos ev }

def producedCtrl (ctrl wrpos : ℕ) : ℕ :=
  (ctrl &&& (0x3ff <<< 10)) ||| (wrpos + 1) % numLcEvents

def consumedCtrl (ctrl first count : ℕ) : ℕ :=
  ((first + count) % numLcEvents) <<< 10 ||| wrPos ctrl

/-- One further step of `lifecycle_handler_fn`. -/
def State.produce (s : State) : Option State :=
  match s.producer with
  | .idle => none
  | .fill ctrl wrpos ev =>
    some { s with
      lceQueue := Function.update s.lceQueue wrpos ev
      producer := .publish ctrl wrpos ev true }
  | .mark ctrl wrpos ev =>
    some { s with
      lceCtrl := s.lceCtrl ||| (1 <<< 20)
      producer := .publish ctrl wrpos ev false }
  | .publish ctrl wrpos ev real =>
    if wrPos ctrl ≠ wrpos then
      -- assert((ctrl & 0x3ff) == wrpos): single producer
      some { s with aborted := true }
    else if s.lceCtrl = ctrl then
      some { s with lceCtrl := producedCtrl ctrl wrpos, producer := .idle }
    else if overflow s.lceCtrl then some { s with producer := .idle }
    else some { s with producer := .publish s.lceCtrl wrpos ev real }

/-- `lifecycle_sync` up to its first decision. -/
def State.sync (s : State) : Option State :=
  match s.consumer with
  | .idle =>
    let ctrl := s.lceCtrl
    if overflow ctrl then some { s with aborted := true }
    else if rdPos ctrl = wrPos ctrl then some s
    else
      let first := rdPos ctrl
      -- count is an int; the loop after this wraps it once
      let count := if first ≤ wrPos ctrl then wrPos ctrl - first
        else wrPos ctrl + numLcEvents - first
      some { s with consumer := .drain ctrl first count 0 }
  | _ => none

def State.consume (s : State) : Option State :=
  match s.consumer with
  | .idle => none
  | .drain ctrl first count i =>
    if i < count then
      some { s with
        processed := s.processed ++ [s.lceQueue ((first + i) % numLcEvents)]
        consumer := .drain ctrl first count (i + 1) }
    else some { s with consumer := .publish ctrl first count }
  | .publish ctrl first count =>
    if rdPos ctrl ≠ first then
      -- assert(ctrl >> 10 == first): single consumer
      some { s with aborted := true }
    else if s.lceCtrl = ctrl then
      some { s with lceCtrl := consumedCtrl ctrl first count, consumer := .idle }
    else some { s with consumer := .publish s.lceCtrl first count }

def exec (s : State) (step : Step) : Option State :=
  if s.aborted then none
  else match step with
    | .post body =>
      match s.producer with
      | .idle => some (s.post (.ofBody body))
      | _ => none
    | .produce => s.produce
    | .sync => s.sync
    | .consume => s.consume

end Sneks.Io.Lifecycle
