import Sneks.Root.Signal
import Sneks.Lib.Run

/-!
# The calls of root's UAPI

One step is one call handled by the UAPI thread, together with what the
environment answers while the call is handled: whether a program loads, whether
a reply to a waiting thread goes through, and what the range allocator's memory
holds when `ra_alloc` hands out a slot, which nothing clears.

The confirm handler that `uapi_wait` leaves behind is run by the first
`get_process` of the call after it, or by `check_rollback` after a receive-side
failure, and dropped when the reply to `wait` fails. Both are steps of their own;
only `uapi_spawn` does something before its first `get_process`.
-/

namespace Sneks.Root

inductive Load
  /-- It cannot be opened, or is no program image. -/
  | rejected (e : Errno)
  /-- `VM::fork`, mapping the image or `VM::configure` fails. -/
  | failed (e : Errno)
  /-- The address space is configured, but the startup stack or the exec message fails. -/
  | unlaunched (utcbArea : Fpage) (e : Errno)
  | loaded (utcbArea : Fpage)

/-- What `uapi_fork` meets: the slot's memory, and whether the UTCB bitmap, the child
    multimap and `VM::fork` can be had. -/
structure ForkEnv where
  mem : Process
  bitmapOk : Bool
  hashOk : Bool
  vmError : Option Errno

inductive WaitFor
  | pid (id : ℕ)
  | all
  | unsupported

/-- The calls. `replyOk` tells whether a reply to a thread waiting for a process that
    dies in this call goes through. -/
inductive Call
  | createThread
  | removeThread (tid : Tid) (utcbAddr : ℕ)
  | spawn (load : Load) (mem : Process)
  | exec (load : Load)
  | kill (pid sig : ℤ) (earlyReplyOk replyOk : Bool)
  | exit (status : ℤ) (replyOk : Bool)
  | wait (id : WaitFor) (nohang : Bool)
  | fork (env : ForkEnv)
  | sigset (setName : ℕ) (orBits andBits : SigSet) (replyOk : Bool)
  | sigsuspend (mask : SigSet)
  | setresugid (mode : ℤ) (rUid eUid sUid : ℕ)

inductive Step
  | call (sender : Tid) (call : Call)
  | confirm
  | dropConfirm

def toShort (n : ℤ) : ℤ := n.bmod (2 ^ 16)

abbrev Result := Except Errno ℕ

def allocUtcbBitmap (area : Fpage) : ℕ → Bool := (· < 2 ^ (area.sizeLog2 - utcbSizeLog2))

/-- `process_ctor`. The flags, the identities and the exit record keep what the
    memory held. -/
def processCtor (mem : Process) (inc : ℕ) : Process :=
  { mem with
    deadList := [], waitTid := none, ignSet := 0, dflSet := ~~~0, maskSet := 0,
    pendingSet := 0, sighelperTid := none, inc := inc }

namespace State

variable (s : State)

/-- `call_destroy_process`. Deleting what is not listed would corrupt the lists. -/
def callDestroyProcess (c : Confirm) : Option State :=
  let self := s.proc c.self
  if c.dead ∈ self.deadList then
    some ((s.setProc c.self { self with deadList := self.deadList.erase c.dead }).destroyProcess c.dead)
  else none

def syncConfirm : Option State :=
  match s.confirm with
  | none => some s
  | some c => { s with confirm := none }.callDestroyProcess c

/-- `alloc_process`, in at most `n` rounds. The compare-and-exchange compares the
    counter with what it was before the increment. -/
def allocProcess (mem : Process) : ℕ → State → Option (State × Option ℕ)
  | 0, s => some (s, none)
  | n + 1, s =>
    let old := s.nextUserPid
    let s := { s with nextUserPid := old + 1 }
    let yes : Bool := s.nextUserPid = old
    let (s, maybe) :=
      if old > maxPid then
        if yes then ({ s with nextUserPid := 2 }, 1) else (s, s.nextUserPid)
      else (s, old)
    if old > maxPid && !(yes || maybe ≤ maxPid) then none
    else if s.allocated maybe then allocProcess mem n s
    else
      some ({ s with
        allocated := Function.update s.allocated maybe true
        proc := Function.update s.proc maybe (processCtor mem s.nextInc)
        nextInc := s.nextInc + 1 }, some maybe)

def abandon (pid : ℕ) : State :=
  let t := s.task pid
  { s.setTask pid { t with utcbArea := none } with
    allocated := Function.update s.allocated pid false }

/-- What `configure` does to the task: a UTCB area, no threads. -/
def configure (pid : ℕ) (area : Fpage) : State :=
  s.setTask pid ⟨some area, some (allocUtcbBitmap area), []⟩

/-- `launch_process`: the first thread, if there is one to have. -/
def launchProcess (pid : ℕ) : Option (State × Bool) := do
  let (s, r) ← s.allocateThread pid
  some (s, r.isSome)

/-- The identity a spawned process starts with. Only the real and effective uids are
    set for a child of a process. -/
def spawnIdentity (caller pid : ℕ) : Option (State × Bool) :=
  if isSystask caller then
    let p := s.proc pid
    some (s.setProc pid { p with realUid := 0, effUid := 0, savedUid := 0, ppid := 0 }, true)
  else do
    let s ← s.syncConfirm
    if s.hasProcess caller then
      let p := s.proc pid
      let parent := s.proc caller
      some (s.setProc pid
        { p with realUid := parent.realUid, effUid := parent.effUid, ppid := caller }, true)
    else some (s, false)

/-- `uapi_spawn` from the configured address space on. -/
def spawnLaunch (pid : ℕ) (area : Fpage) : Option (State × Result) := do
  let s := s.configure pid area
  let s ← s.syncConfirm
  let (s, ok) ← s.launchProcess pid
  if ok then some (s, .ok pid) else some (s.abandon pid, .error .ENOMEM)

/-- `uapi_spawn` past the allocation of the process. -/
def spawnInto (caller pid : ℕ) (load : Load) : Option (State × Result) := do
  let (s, ok) ← s.spawnIdentity caller pid
  if !ok then some (s.abandon pid, .error .EINVAL)
  else match load with
    | .loaded area => s.spawnLaunch pid area
    | .rejected e | .failed e | .unlaunched _ e => some (s.abandon pid, .error e)

def spawn (caller : ℕ) (load : Load) (mem : Process) : Option (State × Result) :=
  match load with
  | .rejected e => some (s, .error e)
  | load => do
    let (s, r) ← s.allocProcess mem maxPid
    match r with
    | none => some (s, .error .ENOMEM)
    | some pid => s.spawnInto caller pid load

/-- The child's process record in `uapi_fork`. -/
def forkRecord (src dst : Process) (pid : ℕ) : Process :=
  { dst with
    ppid := pid, realUid := src.realUid, effUid := src.effUid, savedUid := src.savedUid,
    ignSet := src.ignSet, dflSet := src.dflSet, maskSet := src.maskSet, pendingSet := 0 }

/-- `uapi_fork` past the allocation of the process. Failures leave it behind. -/
def forkInto (pid newpid : ℕ) (env : ForkEnv) : Option (State × Result) :=
  let area := (s.task pid).utcbArea
  let bitmap := if env.bitmapOk then area.map allocUtcbBitmap else none
  let s := s.setTask newpid ⟨area, bitmap, []⟩
  if !env.bitmapOk then some (s, .error .ENOMEM)
  else
    let s := s.setProc newpid (forkRecord (s.proc pid) (s.proc newpid) pid)
    if !env.hashOk then some (s, .error .ENOMEM)
    else
      let s := { s with pidToChild := s.pidToChild ++ [(pid, newpid)] }
      match env.vmError with
      | some e => some (s, .error e)
      | none => do
        let (s, ok) ← s.launchProcess newpid
        -- abort() when a fresh space has no thread to give
        if ok then some (s, .ok newpid) else none

def fork (pid : ℕ) (env : ForkEnv) : Option (State × Result) :=
  if isSystask pid then some (s, .error .EINVAL)
  else if !s.hasProcess pid then none
  else do
    let (s, r) ← s.allocProcess env.mem maxPid
    match r with
    | none => some (s, .error .EAGAIN)
    | some newpid => s.forkInto pid newpid env

/-- `uapi_exec`. Past `process_dtor` it cannot fail; the caller is just gone. -/
def exec (caller : ℕ) (load : Load) : Option (State × Result) :=
  if isSystask caller then some (s, .error .EINVAL)
  else if !s.hasProcess caller then none
  else match load with
    | .rejected e => some (s, .error e)
    | .failed _ => do
      let s ← s.taskDtor caller
      some (s, .ok 0)
    | .unlaunched area _ => do
      let s ← s.taskDtor caller
      some (s.configure caller area, .ok 0)
    | .loaded area => do
      let s ← s.taskDtor caller
      let (s, _) ← (s.configure caller area).launchProcess caller
      some (s, .ok 0)

def createThread (pid : ℕ) : Option (State × Result) :=
  if pid = 0 ∨ !s.hasTask pid then some (s, .error .EINVAL)
  else do
    let (s, r) ← s.allocateThread pid
    match r with
    | none => some (s, .error .ENOMEM)
    | some (tid, _) => if 500 ≤ tid.threadNo then some (s, .ok tid.threadNo) else none

/-- `uapi_remove_thread`. A task that loses its last thread is kept as it is. -/
def removeThread (pid : ℕ) (tid : Tid) (utcbAddr : ℕ) : Option (State × Result) :=
  if pid = 0 ∨ !s.hasTask pid then some (s, .error .EINVAL)
  else if tid ∉ (s.task pid).threads then some (s, .error .EINVAL)
  else do
    let s ← s.freeThread pid tid utcbAddr
    let s ← s.freeThreadno tid
    some (s, .ok 0)

def exit (pid : ℕ) (status : ℤ) (replyOk : Bool) : Option (State × Result) :=
  if isSystask pid then do
    let s ← s.taskDtor pid
    some (s, .ok 0)
  else if !s.hasProcess pid then none
  else do
    let s ← (s.setRecord pid 0 (toShort status) CLD_EXITED).zombify pid replyOk
    some (s, .ok 0)

/-- May a process with the identity of `sender` signal `p`? -/
def mayKill (sender p : Process) : Bool :=
  sender.effUid = 0 || sender.realUid = p.realUid || sender.realUid = p.savedUid
    || sender.effUid = p.realUid || sender.effUid = p.savedUid

/-- The checks of `root_uapi_kill`, and its early reply to vm. -/
def killError (senderPid : ℕ) (pid sig : ℤ) (earlyReplyOk : Bool) : Option Errno :=
  if pid ≤ 0 ∨ !s.hasProcess pid.toNat then some .ESRCH
  else if !isSystask senderPid && !mayKill (s.proc senderPid) (s.proc pid.toNat) then some .EPERM
  else if sig < 0 ∨ 64 < sig then some .EINVAL
  else if senderPid = pidof s.vmTid ∧ !earlyReplyOk then some .EAGAIN
  else none

def kill (senderPid : ℕ) (pid sig : ℤ) (earlyReplyOk replyOk : Bool) : Option (State × Result) :=
  match s.killError senderPid pid sig earlyReplyOk with
  | some e => some (s, .error e)
  | none =>
    if sig = 0 then some (s, .ok 0)
    else do
      let s ← s.sigSend pid.toNat sig.toNat (pid = senderPid) replyOk
      some (s, .ok 0)

/-- The signals of a set, lowest first, as the loop over `ffsll` visits them. -/
def sigList (set : SigSet) : List ℕ := ((List.range 64).filter (set.getLsbD ·)).map (· + 1)

/-- The signals that a change of the mask by `andBits` lets through. -/
def released (p : Process) (andBits : SigSet) : SigSet :=
  p.pendingSet &&& (p.maskSet &&& ~~~andBits)

def remask (p : Process) (orBits andBits : SigSet) : Process :=
  { p with
    maskSet := (p.maskSet &&& andBits) ||| orBits
    pendingSet := p.pendingSet &&& ~~~released p andBits }

/-- Changing the mask: pending signals that `andBits` unmasks are sent anew. -/
def setMask (pid : ℕ) (orBits andBits : SigSet) (replyOk : Bool) : Option State :=
  let p := s.proc pid
  if p.ignSet &&& p.dflSet ≠ 0 then none
  else (sigList (released p andBits &&& ~~~p.ignSet)).foldlM
    (fun s sig => s.sigSend pid sig true replyOk) (s.setProc pid (remask p orBits andBits))

/-- Changing `ign_set` or `dfl_set`: a bit that changes in one is cleared in the other. -/
def changedSets (set other orBits andBits : SigSet) : SigSet × SigSet :=
  let new := (set &&& andBits) ||| orBits
  (new, other &&& ~~~(set ^^^ new))

/-- Reading signals out of the pending set. In sigsuspend mode all but the lowest one
    go back and the mask is restored; `ffsl` sees the low 32 bits only. -/
def readPending (p : Process) (conceal : Bool) (andBits : SigSet) : Option (Process × SigSet) :=
  let oldval := if conceal then p.pendingSet &&& ~~~p.maskSet else p.pendingSet
  let keep := if conceal then andBits ||| p.maskSet else andBits
  let p := { p with pendingSet := p.pendingSet &&& keep }
  if oldval ≠ 0 ∧ p.savedMask then
    let low := ffsll oldval
    if ffsll (sigBit low &&& 0xffffffff#64) ≠ low then none
    else some ({ p with
      pendingSet := p.pendingSet ||| (oldval &&& ~~~sigBit low)
      savedMask := false
      maskSet := p.savedMaskSet }, sigBit low)
  else some (p, oldval)

def sigset (sender : Tid) (setName : ℕ) (orBits andBits : SigSet) (replyOk : Bool) :
    Option (State × Result) :=
  let pid := pidof sender
  let p := s.proc pid
  if !s.hasProcess pid then none
  else if setName = 4 ∧ (p.pendingSet ||| andBits) = 0 ∧ p.sighelperTid = some sender then do
    let s ← s.sigRemoveHelper pid
    some (s, .ok 0)
  else match setName with
    | 0 =>
      let (ign, dfl) := changedSets p.ignSet p.dflSet orBits andBits
      if ign &&& dfl ≠ 0 then none
      else some (s.setProc pid { p with ignSet := ign, dflSet := dfl }, .ok p.ignSet.toNat)
    | 1 =>
      let (dfl, ign) := changedSets p.dflSet p.ignSet orBits andBits
      if ign &&& dfl ≠ 0 then none
      else some (s.setProc pid { p with ignSet := ign, dflSet := dfl }, .ok p.dflSet.toNat)
    | 2 => do
      let s ← s.setMask pid orBits andBits replyOk
      some (s, .ok p.maskSet.toNat)
    | 3 => do
      let (p', sigs) ← readPending p false andBits
      some (s.setProc pid p', .ok sigs.toNat)
    | 4 => do
      let (p', sigs) ← readPending p true andBits
      some (s.setProc pid p', .ok sigs.toNat)
    | _ => some (s, .ok 0)

/-- `root_uapi_sigsuspend`. The bit it clears is made as an `int`. -/
def sigsuspend (pid : ℕ) (mask : SigSet) : Option (State × Result) :=
  let p := s.proc pid
  if !s.hasProcess pid then some (s, .error .EINVAL)
  else if p.savedMask then some (s, .error .EAGAIN)
  else
    let trig := ffsll (p.pendingSet &&& ~~~mask)
    if trig > 0 then
      let bit := (~~~(1#32 <<< ((trig - 1) % 32))).signExtend 64
      some (s.setProc pid { p with pendingSet := p.pendingSet &&& bit }, .ok trig)
    else
      some (s.setProc pid
        { p with savedMaskSet := p.maskSet, maskSet := mask, savedMask := true }, .ok 0)

def hasChildren (pid : ℕ) : Bool :=
  s.pidToChild.any fun e => e.1 = pid && (s.proc e.2).ppid = pid

/-- The reaping part of `uapi_wait`: the child is destroyed once the reply is through. -/
def waitDead (self dead : ℕ) : State × Result := ({ s with confirm := some ⟨dead, self⟩ }, .ok dead)

/-- `uapi_wait`. A caller that does not exist would be a null pointer. -/
def wait (sender : Tid) (id : WaitFor) (nohang : Bool) : Option (State × Result) :=
  let caller := pidof sender
  if isSystask caller then some (s, .error .EINVAL)
  else if !s.hasProcess caller then none
  else match id with
    | .pid child =>
      if !s.hasProcess child ∨ (s.proc child).ppid ≠ caller then some (s, .error .ECHILD)
      else if (s.task child).threads = [] then some (s.waitDead caller child)
      else if nohang then some (s, .ok 0)
      else
        let p := s.proc child
        some (s.setProc child { p with waitTid := some sender }, .ok 0)
    | .all =>
      match (s.proc caller).deadList with
      | dead :: _ =>
        if (s.proc dead).ppid = caller then some (s.waitDead caller dead) else none
      | [] =>
        if !s.hasChildren caller then some (s, .error .ECHILD)
        else if nohang then some (s, .ok 0)
        else
          let self := s.proc caller
          some ({ s.setProc caller { self with waitAny := true } with
            waitanyHash := s.waitanyHash ++ [sender] }, .ok 0)
    | .unsupported => some (s, .error .EINVAL)

def noUid : ℕ := 2 ^ 32 - 1

/-- The assignments at the end of `uapi_setresugid`. -/
def assignUids (p : Process) (rUid eUid sUid : ℕ) : Process :=
  { p with
    realUid := if rUid ≠ noUid then rUid else p.realUid
    effUid := if eUid ≠ noUid then eUid else p.effUid
    savedUid := if sUid ≠ noUid then sUid else p.savedUid }

def setresugid (pid : ℕ) (mode : ℤ) (rUid eUid sUid : ℕ) : Option (State × Result) :=
  let p := s.proc pid
  if !s.hasProcess pid then some (s, .error .ESRCH)
  else if mode < 1 ∨ 3 < mode then some (s, .error .EINVAL)
  else if mode = 1 then
    if p.effUid = 0 then some (s.setProc pid (assignUids p rUid rUid rUid), .ok 0)
    else if rUid = p.effUid ∨ rUid = p.savedUid then
      -- assert(s_uid == -1)
      if sUid = noUid then some (s.setProc pid (assignUids p noUid rUid sUid), .ok 0) else none
    else some (s, .error .EPERM)
  else if mode = 2 then some (s, .error .ENOSYS)
  else if p.effUid ≠ 0 ∧ ∃ c ∈ [rUid, eUid, sUid],
      c ≠ noUid ∧ c ≠ p.realUid ∧ c ≠ p.effUid ∧ c ≠ p.savedUid then
    some (s, .error .EPERM)
  else some (s.setProc pid (assignUids p rUid eUid sUid), .ok 0)

def handle (sender : Tid) : Call → Option (State × Result)
  | .createThread => s.createThread (pidof sender)
  | .removeThread tid utcbAddr => s.removeThread (pidof sender) tid utcbAddr
  | .spawn load mem => s.spawn (pidof sender) load mem
  | .exec load => s.exec (pidof sender) load
  | .kill pid sig earlyReplyOk replyOk => s.kill (pidof sender) pid sig earlyReplyOk replyOk
  | .exit status replyOk => s.exit (pidof sender) status replyOk
  | .wait id nohang => s.wait sender id nohang
  | .fork env => s.fork (pidof sender) env
  | .sigset setName orBits andBits replyOk => s.sigset sender setName orBits andBits replyOk
  | .sigsuspend mask => s.sigsuspend (pidof sender) mask
  | .setresugid mode rUid eUid sUid => s.setresugid (pidof sender) mode rUid eUid sUid

end State

def Call.isSpawn : Call → Bool
  | .spawn .. => true
  | _ => false

def respond (s : State) (sender : Tid) (call : Call) : Option (State × Result) :=
  if sender ∉ (s.task (pidof sender)).threads then none
  else if s.confirm.isSome && !call.isSpawn then none
  else s.handle sender call

def exec (s : State) : Step → Option State
  | .call sender call => (respond s sender call).map (·.1)
  | .confirm => if s.confirm.isSome then s.syncConfirm else none
  | .dropConfirm => some { s with confirm := none }

end Sneks.Root
