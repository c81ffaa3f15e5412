import Sneks.Root.Defs

/-!
# Signals and process death

`root/sig.c` and the part of `root/uapi.c` that ends a process. In the source
`sig_send` and `zombify` call each other; here `sigAct` stops where
`sig_default` would call `zombify` and says so in its result. `zombify` sends
nothing but `SIGCHLD`, which is never deadly, so the recursion ends there.
-/

namespace Sneks.Root

def SIGABRT : ℕ := 6
def SIGKILL : ℕ := 9
def SIGSEGV : ℕ := 11
def SIGTERM : ℕ := 15
def SIGCHLD : ℕ := 17

def CLD_EXITED : ℤ := 1
def CLD_KILLED : ℤ := 2

def sigBit (sig : ℕ) : SigSet := 1#64 <<< (sig - 1)

/-- Signals that `sig_default` kills the process for. -/
def deadly (sig : ℕ) : Bool := sig = SIGSEGV || sig = SIGABRT || sig = SIGKILL || sig = SIGTERM

/-- `ffsll`: one more than the lowest bit set, or 0. -/
def ffsll (set : SigSet) : ℕ :=
  let bit := bitmapFfs (set.getLsbD ·) 0 64
  if bit = 64 then 0 else bit + 1

inductive Disposition
  | masked | alreadyPending | default | ignored | handled
  deriving DecidableEq, Repr

def Process.disposition (p : Process) (sig : ℕ) : Disposition :=
  if p.maskSet &&& sigBit sig ≠ 0 then .masked
  else if ~~~p.pendingSet &&& sigBit sig = 0 then .alreadyPending
  else if p.dflSet &&& sigBit sig ≠ 0 then .default
  else if p.ignSet &&& sigBit sig = 0 then .handled
  else .ignored

namespace State

variable (s : State)

def setRecord (pid : ℕ) (signo status code : ℤ) : State :=
  let p := s.proc pid
  s.setProc pid { p with signo := signo, status := status, code := code }

def addPending (pid sig : ℕ) : State :=
  let p := s.proc pid
  s.setProc pid { p with pendingSet := p.pendingSet ||| sigBit sig }

/-- `sig_deliver`: starts the helper thread unless one is running or the process
    signals itself. A process without threads fails the assertion. -/
def sigDeliver (pid sig : ℕ) (self : Bool) : Option State :=
  if (s.proc pid).sighelperTid.isSome || self then some (s.addPending pid sig)
  else if (s.task pid).threads = [] then none
  else do
    let (s, r) ← s.allocateThread pid
    match r with
    | none => some s
    | some (tid, utcb) =>
      let p := s.proc pid
      some ((s.setProc pid { p with sighelperTid := some tid, sighelperUtcb := utcb }).addPending
        pid sig)

/-- `sig_default` up to its call of `zombify`; the result tells whether it gets there.
    The assertion tests the bit after the signal's own, and a shift by 64 is one by 0. -/
def sigDefault (pid sig : ℕ) : Option (State × Bool) :=
  let p := s.proc pid
  if deadly sig then some (s.setRecord pid sig 0 CLD_KILLED, true)
  else if ~~~p.pendingSet &&& (1#64 <<< (sig % 64)) = 0 then none
  else some (s, false)

def sigAct (pid sig : ℕ) (self : Bool) : Option (State × Bool) :=
  let p := s.proc pid
  if sig < 1 ∨ 64 < sig then none
  else match p.disposition sig with
    | .masked => some (s.addPending pid sig, false)
    | .alreadyPending => some (s, false)
    | .default => if p.ignSet &&& sigBit sig ≠ 0 then none else s.sigDefault pid sig
    | .ignored => some (s, false)
    | .handled => (s.sigDeliver pid sig self).map (·, false)

def sigRemoveHelper (pid : ℕ) : Option State :=
  match (s.proc pid).sighelperTid with
  | none => none
  | some tid => do
    let s ← s.freeThread pid tid (s.proc pid).sighelperUtcb
    let s ← s.freeThreadno tid
    let p := s.proc pid
    some (s.setProc pid { p with sighelperTid := none })

def dropHelper (pid : ℕ) : Option State :=
  if (s.proc pid).sighelperTid.isSome then s.sigRemoveHelper pid else some s

def destroyProcess (pid : ℕ) : State :=
  let t := s.task pid
  { s.setTask pid { t with utcbArea := none } with
    pidToChild := s.pidToChild.erase ((s.proc pid).ppid, pid)
    allocated := Function.update s.allocated pid false }

/-- The parent that `zombify` reports to: init where the recorded one is gone. -/
def parentOf (pid : ℕ) : ℕ :=
  if s.hasProcess (s.proc pid).ppid then (s.proc pid).ppid else 1

/-- Reparenting to init in `zombify`. Without the recorded parent, a dying init or a
    missing one is a panic. -/
def reparent (pid : ℕ) : Option State :=
  let p := s.proc pid
  if s.hasProcess p.ppid then some s
  else if pid = 1 ∨ !s.hasProcess 1 then none
  else some (s.setProc pid { p with ppid := 1 })

/-- The thread to tell about the death of `pid`: the one waiting for it, or any
    one of `parent` that waits for all children. -/
def waiter (pid parent : ℕ) : Option Tid :=
  match (s.proc pid).waitTid with
  | some tid => some tid
  | none => if (s.proc parent).waitAny then s.waitanyHash.find? (pidof · = parent) else none

/-- `waitany_hash` without one waiting thread of `parent`. -/
def otherWaiters (parent : ℕ) : List Tid :=
  match s.waitanyHash.find? (pidof · = parent) with
  | some tid => s.waitanyHash.erase tid
  | none => s.waitanyHash

/-- Takes the waiter off `waitany_hash`, and clears `PF_WAIT_ANY` with the last one. -/
def takeWaiter (pid parent : ℕ) : State :=
  if (s.proc pid).waitTid.isNone && (s.proc parent).waitAny then
    let s' := { s with waitanyHash := s.otherWaiters parent }
    if s'.waitanyHash.any (pidof · = parent) then s'
    else
      let q := s.proc parent
      s'.setProc parent { q with waitAny := false }
  else s

def broadcastExit (pid : ℕ) : State :=
  let p := s.proc pid
  { s with log := s.log ++ [.exitBroadcast p.inc pid p.signo p.status p.code] }

def logZombify (pid : ℕ) : State := { s with log := s.log ++ [.zombify (s.proc pid).inc] }

/-- `list_add_tail(&parent->dead_list, &p->dead_link)`. -/
def addDead (parent pid : ℕ) : State :=
  let q := s.proc parent
  s.setProc parent { q with deadList := q.deadList ++ [pid] }

/-- The last part of `zombify`: the process is reaped by a waiter whose reply
    succeeds, and listed with its parent otherwise. -/
def bury (pid parent : ℕ) (waiter : Option Tid) (replyOk : Bool) : State :=
  if waiter.isSome && replyOk then s.destroyProcess pid else s.addDead parent pid

/-- The first part of `zombify`: the helper goes, `process_dtor` runs and the parent
    is sent `SIGCHLD`. -/
def layOut (pid : ℕ) : Option State := do
  let s ← (s.logZombify pid).dropHelper pid
  let s ← s.taskDtor pid
  let s ← s.reparent pid
  let (s, _) ← s.sigAct (s.proc pid).ppid SIGCHLD false
  some s

/-- `zombify`. `replyOk` tells whether the reply to the waiter goes through. -/
def zombify (pid : ℕ) (replyOk : Bool) : Option State := do
  let s ← s.layOut pid
  let parent := (s.proc pid).ppid
  let w := s.waiter pid parent
  some (((s.takeWaiter pid parent).broadcastExit pid).bury pid parent w replyOk)

def sigSend (pid sig : ℕ) (self replyOk : Bool) : Option State := do
  let (s, dies) ← s.sigAct pid sig self
  if dies then s.zombify pid replyOk else some s

end State

end Sneks.Root
