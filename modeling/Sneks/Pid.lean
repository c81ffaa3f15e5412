import Mathlib.Data.UInt

/-!
# Process and thread identifiers

User processes are numbered from 1 to `SNEKS_MAX_PID`, system tasks from
`SNEKS_MIN_SYSID` on, and a thread id tells which process the thread is in
(`lib/pidof.c`).
-/

namespace Sneks

def maxPid : ℕ := 32767

def minSysid : ℕ := 50000

def isSystask (pid : ℕ) : Bool := minSysid ≤ pid

structure Tid where
  threadNo : ℕ
  version : ℕ
  deriving DecidableEq, Repr

/-- `pidof_NP`: the process a thread id belongs to. -/
def pidof (tid : Tid) : ℕ :=
  if tid.version % 2 = 1 then
    (tid.version >>> 1) ||| ((tid.threadNo &&& 0x30000) >>> 3)
  else if tid.version % 4 = 2 then minSysid + (tid.version >>> 2)
  else 0

end Sneks
