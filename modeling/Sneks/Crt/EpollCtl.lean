import Mathlib.Data.Int.Notation
import Mathlib.Data.List.Sort
import Sneks.Crt.Epoll

/-!
# `epoll_ctl` and `epoll_wait`

`user/crt/epoll.c`, with `SIGIO` and level-triggered interests. `n_level` counts the latter, and
`epoll_consume` has an array of so many places for those that it finds events of. Who waits is left out.

`htable_firstval` is taken to give what has the hash's file, in the order of the table. `qsort` leaves
entries that compare equal in their order.
-/

namespace Sneks.Crt.EpollCtl
open Lib

def EPOLL_CTL_ADD : ℕ := 1
def EPOLL_CTL_DEL : ℕ := 2
def EPOLL_CTL_MOD : ℕ := 3

def EPOLLHUP : BitVec 32 := 0x10
def EPOLLEXCLUSIVE : BitVec 32 := 1#32 <<< 28
def EPOLLWAKEUP : BitVec 32 := 1#32 <<< 29
def EPOLLONESHOT : BitVec 32 := 1#32 <<< 30
def EPOLLET : BitVec 32 := 1#32 <<< 31

def STBUF_SIZE : ℕ := 32

inductive Errno
  | EPERM | ENOENT | EBADF | ENOMEM | EEXIST | EINVAL
  deriving DecidableEq

def isLevel (events : BitVec 32) : Bool := ~~~events &&& EPOLLET ≠ 0#32

structure Interest where
  events : BitVec 32
  data : BitVec 64
  spid : ℕ
  fd : ℕ
  handle : BitVec 32
  deriving DecidableEq

namespace Interest

def level (i : Interest) : Bool := isLevel i.events

/-- `cmp_interest_by_spid_handle_asc`, with a key. -/
def cmpKey (spid : ℕ) (handle : BitVec 32) (i : Interest) : ℤ :=
  if spid = i.spid then (handle - i.handle).toInt else (spid : ℤ) - i.spid

/-- `qsort` with `cmp_interest_by_spid_handle_asc`. -/
def sort (fds : List Interest) : List Interest := fds.insertionSort fun i j => cmpKey i.spid i.handle j ≤ 0

end Interest

def bsearch (spid : ℕ) (handle : BitVec 32) (fds : List Interest) (l u : ℕ) : Option ℕ :=
  if l < u then
    let idx := (l + u) / 2
    match fds[idx]? with
    | none => none
    | some i =>
      let comparison := i.cmpKey spid handle
      if comparison < 0 then bsearch spid handle fds l idx
      else if 0 < comparison then bsearch spid handle fds (idx + 1) u
      else some idx
  else none
termination_by u - l

structure Event where
  mask : BitVec 32
  handle : BitVec 32
  deriving DecidableEq

structure Head where
  pid : ℕ
  evs : List Event
  deriving DecidableEq

def nEvs (q : List Head) : ℕ := (q.map (·.evs.length)).sum

structure EpollEvent where
  events : BitVec 32
  data : BitVec 64
  deriving DecidableEq

/-- `struct epoll`, less who waits. The interests are in the order of the table. -/
structure Instance where
  fds : List Interest
  lastSync : ℕ
  nLevel : ℕ

/-- Why there is no next state: the assertion on `n_levs_hit` fails, or the one on the count of a head,
    or the program stops elsewhere, or the answers are none that there can be. -/
inductive Stop
  | levsHit | headCount | stopped
  deriving DecidableEq

-- A pass over the queue

section Pass
variable {σ : Type} (visit : ℕ → Event → σ → Except Stop (Event × σ)) (go : σ → Bool)

def visitHead (pid : ℕ) : List Event → σ → Except Stop (List Event × σ × Bool)
  | [], st => .ok ([], st, true)
  | ev :: evs, st => do
    let (ev, st) ← visit pid ev st
    if go st then
      let (rest, st, done) ← visitHead pid evs st
      return (ev :: rest, st, done)
    else return (ev :: evs, st, evs.isEmpty)

/-- From a head on, with `live_heads` at the end of the queue. -/
def visitHeads : List Head → σ → ℕ → Except Stop (List Head × σ × Option ℕ)
  | [], st, live => .ok ([], st, some live)
  | hd :: hds, st, live =>
    if hd.pid = 0 then do
      let (rest, st, live) ← visitHeads hds st live
      return (hd :: rest, st, live)
    else if hd.evs.isEmpty then do
      let (rest, st, live) ← visitHeads hds st (live + 1)
      return (⟨0, []⟩ :: rest, st, live)
    else if go st then do
      let (evs, st, done) ← visitHead visit go hd.pid hd.evs st
      if done then
        let (rest, st, live) ← visitHeads hds st live
        return (⟨hd.pid, evs⟩ :: rest, st, live)
      else return (⟨hd.pid, evs⟩ :: hds, st, none)
    else .ok (hd :: hds, st, none)

def evqFirst : List Head → Except Stop Bool
  | [] => .ok false
  | hd :: hds => if hd.evs.isEmpty then .error .headCount else if hd.pid ≠ 0 then .ok true else evqFirst hds

/-- The loop over `evq_first` and `evq_next`, as long as `go` says. -/
def pass (q : List Head) (st : σ) : Except Stop (List Head × σ) := do
  let found ← evqFirst q
  if found then
    let (heads, st, live) ← visitHeads visit go q st 0
    return (if live = some 0 then [] else heads, st)
  else return (q, st)

end Pass

-- `epoll_consume`

/-- The events to be returned, and `levs_hit`. -/
structure Consumed where
  got : List EpollEvent
  levs : List Interest

def consumeEvent (nLevel maxevents pid : ℕ) : List Interest → Event → Consumed → Except Stop (Event × Consumed)
  | [], ev, st => .ok (ev, st)
  | cand :: cands, ev, st =>
    if maxevents ≤ st.got.length then .ok (ev, st)
    else if cand.spid ≠ pid ∨ cand.handle ≠ ev.handle then consumeEvent nLevel maxevents pid cands ev st
    else
      let hit := cand.events &&& ev.mask
      if hit = 0#32 then consumeEvent nLevel maxevents pid cands ev st
      else
        let got := st.got ++ [⟨hit, cand.data⟩]
        let ev := ⟨ev.mask &&& ~~~hit, ev.handle⟩
        if cand.level then
          if st.levs.length < nLevel then consumeEvent nLevel maxevents pid cands ev ⟨got, st.levs ++ [cand]⟩
          else .error .levsHit
        else consumeEvent nLevel maxevents pid cands ev ⟨got, st.levs⟩

def visitConsume (ep : Instance) (maxevents pid : ℕ) (ev : Event) (st : Consumed) : Except Stop (Event × Consumed) :=
  if ev.mask = 0#32 then .ok (ev, st) else consumeEvent ep.nLevel maxevents pid ep.fds ev st

def pollSpan (maxevents : ℕ) : List (Interest × BitVec 32) → List EpollEvent → List EpollEvent
  | [], got => got
  | (i, st) :: span, got =>
    if maxevents ≤ got.length then got
    else
      let hit := (i.events ||| EPOLLHUP) &&& st
      if st = ~~~0#32 ∨ hit = 0#32 then pollSpan maxevents span got
      else pollSpan maxevents span (got ++ [⟨hit, i.data⟩])

/-- `poll_levels`. `files` are the servers of the open files, and `levels` what they answer. What is
    not answered has its handle for a status. -/
def pollLevels (files : ℕ → Option ℕ) (maxevents : ℕ) :
    List Interest → List (Option (List (BitVec 32))) → List EpollEvent → Except Stop (List EpollEvent)
  | [], _, got => .ok got
  | first :: ls, levels, got =>
    if maxevents ≤ got.length then .ok got
    else
      let span := first :: (ls.takeWhile (·.spid = first.spid)).take (STBUF_SIZE - 1)
      match files first.fd, levels with
      | some _, some st :: levels =>
        let hbuf := st ++ (span.map (·.handle)).drop st.length
        pollLevels files maxevents (ls.drop (span.length - 1)) levels (pollSpan maxevents (span.zip hbuf) got)
      | _, _ => .error .stopped
termination_by ls => ls.length

def epollConsume (ep : Instance) (maxevents : ℕ) (files : ℕ → Option ℕ)
    (levels : List (Option (List (BitVec 32)))) (q : List Head) : Except Stop (List Head × List EpollEvent) := do
  let (q, st) ← pass (visitConsume ep maxevents) (fun st => st.got.length < maxevents) q ⟨[], []⟩
  if st.got.length < maxevents ∧ st.levs.length < ep.nLevel then
    let levsHit := Interest.sort st.levs
    let ls := ep.fds.filter fun cand => cand.level && (bsearch cand.spid cand.handle levsHit 0 levsHit.length).isNone
    if ep.nLevel < ls.length then .error .stopped
    else
      let got ← pollLevels files maxevents (Interest.sort ls) levels st.got
      return (q, got)
  else return (q, st.got)

-- `epoll_resync_consume`

/-- The copy of the interests, in which `fd` is 0xffff for one that was seen, and the events. -/
structure Resync where
  fds : List Interest
  got : List EpollEvent

def visitResync (maxevents pid : ℕ) (ev : Event) (st : Resync) : Except Stop (Event × Resync) :=
  if ev.mask = 0#32 then .ok (ev, st)
  else
    match bsearch pid ev.handle st.fds 0 st.fds.length with
    | none => .ok (ev, st)
    | some k =>
      match st.fds[k]? with
      | none => .ok (ev, st)
      | some ex =>
        let hit := ex.events &&& ev.mask
        if ex.fd = 0xffff ∨ hit = 0#32 then .ok (ev, st)
        else
          let fds := if hit = ex.events then st.fds.set k { ex with fd := 0xffff } else st.fds
          if st.got.length < maxevents then .ok (⟨ev.mask &&& ~~~hit, ev.handle⟩, ⟨fds, st.got ++ [⟨hit, ex.data⟩]⟩)
          else .ok (ev, ⟨fds, st.got⟩)

/-- The queue and `sigio_sync_count`, and the answers of servers to come. -/
structure Polling where
  heads : List Head
  syncCount : ℕ
  statuses : List (Option (List (BitVec 32)))

namespace Polling

variable (p : Polling)

def resync : Polling := { p with syncCount := p.syncCount + 1 }

/-- `poll_handles`. A server answers for no more than it was asked. -/
def pollHandles (spid : ℕ) (handles : List (BitVec 32)) : Except Stop Polling :=
  if p.heads.length = EVBUFSZ / 2 ∨ nEvs p.heads = EVBUFSZ then .ok p.resync
  else if handles.length = 0 ∨ STBUF_SIZE < handles.length then .error .stopped
  else
    match p.statuses with
    | [] => .error .stopped
    | none :: statuses => .ok { p.resync with statuses := statuses }
    | some st :: statuses =>
      if handles.length < st.length then .error .stopped
      else
        let new := ((st.zip handles).filter fun x => x.1 ≠ 0#32 ∧ x.1 ≠ ~~~0#32).take (EVBUFSZ - nEvs p.heads)
        .ok { p with heads := p.heads ++ [⟨spid, new.map fun x => ⟨x.1, x.2⟩⟩], statuses := statuses }

def flush (bufpid : ℤ) (hbuf : List (BitVec 32)) : Except Stop Polling :=
  if hbuf = [] then .ok p else if bufpid ≤ 0 then .error .stopped else p.pollHandles bufpid.toNat hbuf

def pollFds (files : ℕ → Option ℕ) : List Interest → ℤ → List (BitVec 32) → Polling → Except Stop Polling
  | [], bufpid, hbuf, p => if hbuf = [] then .ok p else p.pollHandles bufpid.toNat hbuf
  | i :: fds, bufpid, hbuf, p =>
    if i.fd = 0xffff then pollFds files fds bufpid hbuf p
    else
      match files i.fd with
      | none => pollFds files fds bufpid hbuf p
      | some server =>
        if bufpid ≠ i.spid ∨ hbuf.length = STBUF_SIZE then do
          let p ← p.flush bufpid hbuf
          if server ≠ i.spid then .error .stopped
          else pollFds files fds i.spid [i.handle] p
        else pollFds files fds bufpid (hbuf ++ [i.handle]) p

end Polling

/-- `epoll_resync_consume`, up to the call of `epoll_consume`. -/
def epollResync (ep : Instance) (maxevents : ℕ) (files : ℕ → Option ℕ) (p : Polling) :
    Except Stop (Polling × List EpollEvent) := do
  let (q, st) ← pass (visitResync maxevents) (fun _ => true) p.heads ⟨Interest.sort ep.fds, []⟩
  let p ← Polling.pollFds files st.fds (-1) [] { p with heads := q }
  return (p, st.got)

-- Calls

/-- The instances by their handles, the queue of the process, and the table of `check_notify`. -/
structure State where
  epolls : ℕ → Option Instance
  heads : List Head
  syncCount : ℕ
  known : List ℕ

/-- What happens within a call of `epoll_ctl`. `table` is the order of the table with a new interest,
    and `refresh` what `refresh_notify` returns. -/
structure CtlAnswers where
  malloc : Bool
  added : Bool
  table : List Interest
  refresh : ℤ
  sent : Bool

/-- What happens within a call of `epoll_wait`. -/
structure WaitAnswers where
  malloc : Bool
  files : ℕ → Option ℕ
  statuses : List (Option (List (BitVec 32)))
  levels : List (Option (List (BitVec 32)))

inductive Step
  | create (ep : ℕ)
  | close (ep : ℕ)
  | sigio
  /-- A notification of a server, with masks and handles. -/
  | notify (pid : ℕ) (evs : List Event)
  /-- `file` is the server and the handle of the file. -/
  | ctl (ep op fd : ℕ) (file : Option (ℕ × BitVec 32)) (event : Option EpollEvent) (a : CtlAnswers)
  | wait (ep : ℕ) (maxevents : ℤ) (a : WaitAnswers)

namespace State

variable (s : State)

def init : State := ⟨fun _ => none, [], 0, []⟩

def setEpoll (ep : ℕ) (i : Instance) : State := { s with epolls := Function.update s.epolls ep (some i) }

def room (count : ℕ) : Bool := s.heads.length ≠ EVBUFSZ / 2 ∧ count ≤ EVBUFSZ - nEvs s.heads

def notify (pid : ℕ) (evs : List Event) : State :=
  if s.room evs.length then { s with heads := s.heads ++ [⟨pid, evs⟩] } else s

section
variable (ep : ℕ) (i : Instance) (fd spid : ℕ) (handle : BitVec 32) (event : Option EpollEvent) (a : CtlAnswers)

def find : Option Interest := i.fds.find? fun old => old.fd = fd && old.spid = spid && old.handle = handle

def addable : Except Errno Interest :=
  if (find i fd spid handle).isSome then .error .EEXIST
  else
    match event with
    | none => .error .EINVAL
    | some ev =>
      if ev.events &&& (EPOLLONESHOT ||| EPOLLWAKEUP) ≠ 0#32 ∨ ~~~ev.events &&& EPOLLEXCLUSIVE ≠ 0#32 then .error .EINVAL
      else if a.malloc && a.added then .ok ⟨ev.events ||| EPOLLHUP, ev.data, spid, fd, handle⟩
      else .error .ENOMEM

def ctlAdd : Except Stop (State × Except Errno ℤ) :=
  match addable i fd spid handle event a with
  | .error e => .ok (s, .error e)
  | .ok new =>
    if ¬ a.table.Perm (new :: i.fds) then .error .stopped
    else
      let nLevel := if new.level then i.nLevel + 1 else i.nLevel
      let s' := s.setEpoll ep ⟨a.table, i.lastSync, nLevel⟩
      if new.level ∧ spid ∈ s.known then .ok (s', .ok 0)
      else
        let s' := { s' with known := if new.level then spid :: s.known else s.known }
        if a.refresh < 0 then .ok (s'.setEpoll ep ⟨a.table.erase new, i.lastSync, nLevel⟩, .error .EPERM)
        else if a.refresh = 0 then .ok (s', .ok 0)
        else if a.sent then .ok (s'.notify spid [⟨BitVec.ofInt 32 a.refresh, handle⟩], .ok 0)
        else .error .stopped

def ctlDel : Except Stop (State × Except Errno ℤ) :=
  match find i fd spid handle with
  | none => .ok (s, .error .ENOENT)
  | some old =>
    if old.level ∧ i.nLevel = 0 then .error .stopped
    else
      let nLevel := if old.level then i.nLevel - 1 else i.nLevel
      .ok (s.setEpoll ep ⟨i.fds.erase old, i.lastSync, nLevel⟩, .ok (min a.refresh 0))

def ctlMod : Except Stop (State × Except Errno ℤ) :=
  match find i fd spid handle, event with
  | none, _ => .ok (s, .error .ENOENT)
  | some _, none => .error .stopped
  | some old, some ev =>
    let new := { old with events := ev.events ||| EPOLLHUP, data := ev.data }
    .ok (s.setEpoll ep { i with fds := i.fds.replace old new }, .ok (min a.refresh 0))

end

def ctl (ep op fd : ℕ) (file : Option (ℕ × BitVec 32)) (event : Option EpollEvent) (a : CtlAnswers) :
    Except Stop (State × Except Errno ℤ) :=
  match s.epolls ep, file with
  | some i, some (spid, handle) =>
    if op = EPOLL_CTL_ADD then s.ctlAdd ep i fd spid handle event a
    else if op = EPOLL_CTL_DEL then s.ctlDel ep i fd spid handle a
    else if op = EPOLL_CTL_MOD then s.ctlMod ep i fd spid handle event a
    else .ok (s, .error .EINVAL)
  | _, _ => .ok (s, .error .EBADF)

def wait (ep : ℕ) (maxevents : ℤ) (a : WaitAnswers) : Except Stop (State × Except Errno (List EpollEvent)) :=
  match s.epolls ep with
  | none => .ok (s, .error .EBADF)
  | some i =>
    if maxevents ≤ 0 then .ok (s, .error .EINVAL)
    else
      let m := maxevents.toNat % 65536
      if i.lastSync < s.syncCount then
        if !a.malloc then .error .stopped
        else do
          let (p, got) ← epollResync i m a.files ⟨s.heads, s.syncCount, a.statuses⟩
          let (q, more) ←
            if got.length < m then epollConsume i (m - got.length) a.files a.levels p.heads else .ok (p.heads, [])
          let s' := s.setEpoll ep { i with lastSync := s.syncCount }
          return ({ s' with heads := q, syncCount := p.syncCount }, .ok (got ++ more))
      else do
        let (q, got) ← epollConsume i m a.files a.levels s.heads
        return ({ s with heads := q }, .ok got)

def take : Step → Except Stop State
  | .create ep => if (s.epolls ep).isSome then .error .stopped else .ok (s.setEpoll ep ⟨[], s.syncCount, 0⟩)
  | .close ep => .ok { s with epolls := Function.update s.epolls ep none }
  | .sigio => .ok { s with syncCount := s.syncCount + 1 }
  | .notify pid evs => .ok (s.notify pid evs)
  | .ctl ep op fd file event a => (s.ctl ep op fd file event a).map (·.1)
  | .wait ep maxevents a => (s.wait ep maxevents a).map (·.1)

def exec (step : Step) : Option State := (s.take step).toOption

def stop (step : Step) : Option Stop :=
  match s.take step with
  | .ok _ => none
  | .error e => some e

end State

end Sneks.Crt.EpollCtl
