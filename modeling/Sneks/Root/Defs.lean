import Mathlib.Logic.Function.Basic
import Mathlib.Data.Nat.Notation
import Mathlib.Data.Int.Notation
import Sneks.Pid

/-!
# Root's tables of tasks and processes

The data that root's UAPI thread works on (`root/uapi.c`, `root/sig.c`): the
thread number bitmaps, the part that system tasks and processes share
(`struct task_common`), user processes (`struct process`), the child multimap,
the threads sleeping in `waitid(P_ALL, ...)` and the pending confirm handler of
`lib/rollback.c`.

A process table slot keeps what it holds when the process is freed, as the range
allocator's memory does. `inc` numbers the processes that ever were, `log`
records what happened to each of them, and `utcbLoc` is where the kernel has been
told that a thread's UTCB is; none of them is read by the code.
-/

namespace Sneks.Root

inductive Errno
  | EPERM | ENOENT | ESRCH | EIO | ECHILD | EAGAIN | ENOMEM | EINVAL | ENOSYS
  deriving DecidableEq, Repr

def tnosPerBitmap : ℕ := 65536

structure Fpage where
  address : ℕ
  sizeLog2 : ℕ
  deriving DecidableEq, Repr

/-- `struct task_common`. No `utcbArea` is `L4_Nilpage`; no `utcbFree` is the null
    pointer left by `task_common_dtor`. -/
structure Task where
  utcbArea : Option Fpage
  utcbFree : Option (ℕ → Bool)
  threads : List Tid

/-- Signal sets, bit `sig - 1` for signal `sig`. -/
abbrev SigSet := BitVec 64

/-- `struct process`, less its `task`. `waitAny` and `savedMask` are `PF_WAIT_ANY`
    and `PF_SAVED_MASK` of `flags`; `deadList` holds the zombie children's PIDs. -/
structure Process where
  waitAny : Bool
  savedMask : Bool
  ppid : ℕ
  realUid : ℕ
  effUid : ℕ
  savedUid : ℕ
  waitTid : Option Tid
  signo : ℤ
  status : ℤ
  code : ℤ
  ignSet : SigSet
  dflSet : SigSet
  maskSet : SigSet
  pendingSet : SigSet
  savedMaskSet : SigSet
  sighelperTid : Option Tid
  sighelperUtcb : ℕ
  deadList : List ℕ
  inc : ℕ

def Process.blank : Process where
  waitAny := false
  savedMask := false
  ppid := 0
  realUid := 0
  effUid := 0
  savedUid := 0
  waitTid := none
  signo := 0
  status := 0
  code := 0
  ignSet := 0
  dflSet := 0
  maskSet := 0
  pendingSet := 0
  savedMaskSet := 0
  sighelperTid := none
  sighelperUtcb := 0
  deadList := []
  inc := 0

/-- What happens in the life of process number `inc`. -/
inductive Event
  | zombify (inc : ℕ)
  /-- The `MPL_EXIT` message of `zombify`. -/
  | exitBroadcast (inc pid : ℕ) (signo status code : ℤ)
  deriving DecidableEq, Repr

/-- The confirm handler `call_destroy_process` with its arguments. -/
structure Confirm where
  dead : ℕ
  self : ℕ
  deriving DecidableEq, Repr

structure State where
  task : ℕ → Task
  proc : ℕ → Process
  /-- Which ids of `ra_process` are handed out. -/
  allocated : ℕ → Bool
  nextUserPid : ℕ
  tnoFreeMaps : ℕ → ℕ → Bool
  tnoFreeCounts : ℕ → ℕ
  utcbLoc : Tid → ℕ
  /-- `pid_to_child_hash`: the parent a child was filed under, and the child. -/
  pidToChild : List (ℕ × ℕ)
  waitanyHash : List Tid
  confirm : Option Confirm
  vmTid : Tid
  nextInc : ℕ
  log : List Event

namespace State

variable (s : State)

def setProc (pid : ℕ) (p : Process) : State := { s with proc := Function.update s.proc pid p }

def setTask (pid : ℕ) (t : Task) : State := { s with task := Function.update s.task pid t }

/-- `get_process`, once the pending confirm handler has run: is there such a process? -/
def hasProcess (pid : ℕ) : Bool :=
  0 < pid && pid ≤ maxPid && (s.task pid).utcbArea.isSome

/-- `get_task`. System tasks are numbered from `SNEKS_MIN_SYSID` on. -/
def hasTask (pid : ℕ) : Bool :=
  if isSystask pid then (s.task pid).utcbArea.isSome else s.hasProcess pid

end State

-- Threads

/-- `bitmap_ffs`: the first `i` in `[first, first + n)` with its bit set, or the end. -/
def bitmapFfs (bits : ℕ → Bool) (first : ℕ) : ℕ → ℕ
  | 0 => first
  | n + 1 => if bits first then first else bitmapFfs bits (first + 1) n

/-- `tidlist_remove_from`: overwrites the first entry with the last one. -/
def tidlistRemoveFrom (tids : List Tid) (tid : Tid) : List Tid :=
  match tids.idxOf? tid with
  | none => tids
  | some ix => (tids.set ix (tids.getLastD tid)).dropLast

def utcbSizeLog2 : ℕ := 9

namespace State

variable (s : State)

def setTno (map bit : ℕ) (free : Bool) (count : ℕ) : State :=
  { s with
    tnoFreeMaps := Function.update s.tnoFreeMaps map
      (Function.update (s.tnoFreeMaps map) bit free)
    tnoFreeCounts := Function.update s.tnoFreeCounts map count }

/-- `L4_ThreadControl` puts the UTCB of `tid` at `utcb`. -/
def placeUtcb (tid : Tid) (utcb : ℕ) : State := { s with utcbLoc := Function.update s.utcbLoc tid utcb }

def freeThreadno (tid : Tid) : Option State :=
  let map := tid.threadNo >>> 16
  let bit := tid.threadNo % 2 ^ 16
  if s.tnoFreeMaps map bit then none
  else if s.tnoFreeCounts map + 1 ≤ tnosPerBitmap then
    some (s.setTno map bit true (s.tnoFreeCounts map + 1))
  else none

/-- The bitmap a new thread number is taken from: the first nonempty one for a
    system task, the one of its two high PID bits for a process. -/
def tnoMap (pid : ℕ) : ℕ :=
  if isSystask pid then
    if s.tnoFreeCounts 0 ≠ 0 then 0
    else if s.tnoFreeCounts 1 ≠ 0 then 1
    else if s.tnoFreeCounts 2 ≠ 0 then 2
    else if s.tnoFreeCounts 3 ≠ 0 then 3
    else 4
  else (pid &&& 0x6000) >>> 13

/-- The id that `allocate_thread` makes for task `pid` from its bitmap position. A thread id has 18 bits
    for the number and 14 for the version. -/
def makeTid (pid map bit : ℕ) : Tid where
  threadNo := (map <<< 16 ||| bit) % 2 ^ 18
  version := (if isSystask pid then (pid - minSysid) <<< 2 ||| 2 else (pid &&& 0x1fff) <<< 1 ||| 1) % 2 ^ 14

/-- `allocate_thread`: a thread id and its UTCB location, or the nil thread. -/
def allocateThread (pid : ℕ) : Option (State × Option (Tid × ℕ)) :=
  let map := s.tnoMap pid
  if map > 3 ∨ s.tnoFreeCounts map = 0 then some (s, none)
  else if !s.hasTask pid then some (s, none)
  else
    let bit := bitmapFfs (s.tnoFreeMaps map) 0 tnosPerBitmap
    let tid := makeTid pid map bit
    -- assertions on the bit found, and assert(pidof_NP(tid) == pid)
    if bit ≥ tnosPerBitmap ∨ pidof tid ≠ pid then none
    else match (s.task pid).utcbArea, (s.task pid).utcbFree with
      | some area, some free =>
        let nSlots := 2 ^ (area.sizeLog2 - utcbSizeLog2)
        let slot := bitmapFfs free 0 nSlots
        -- the thread number goes back when the task has no UTCB slot left
        if slot = nSlots then some (s, none)
        else
          let t := s.task pid
          let utcb := area.address + slot <<< utcbSizeLog2
          some (((s.setTno map bit false (s.tnoFreeCounts map - 1)).setTask pid
            { t with
              utcbFree := some (Function.update free slot false)
              threads := t.threads ++ [tid] }).placeUtcb tid utcb,
            some (tid, utcb))
      -- the UTCB bitmap of a task without threads may be gone
      | _, _ => none

def freeThread (pid : ℕ) (tid : Tid) (utcbLoc : ℕ) : Option State :=
  match (s.task pid).utcbArea, (s.task pid).utcbFree with
  | some area, some free =>
    let slot := (utcbLoc - area.address) >>> utcbSizeLog2
    if utcbLoc < area.address ∨ utcbLoc - area.address ≥ 2 ^ area.sizeLog2 then none
    else if free slot then none
    else
      let t := s.task pid
      some (s.setTask pid { t with
        utcbFree := some (Function.update free slot true)
        threads := tidlistRemoveFrom t.threads tid })
  | _, _ => none

def freeThreadnos (tids : List Tid) : Option State := tids.foldlM freeThreadno s

def taskDtor (pid : ℕ) : Option State := do
  let s' ← s.freeThreadnos (s.task pid).threads
  if (s.task pid).utcbArea.isNone then none
  else some (s'.setTask pid { s.task pid with utcbFree := none, threads := [] })

end State

end Sneks.Root
