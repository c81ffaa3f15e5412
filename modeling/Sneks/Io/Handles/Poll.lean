import Sneks.Io.Handles.Names

/-!
# Poll events

Notification of handles' status, from `sys/io/pollimpl.c`, on top of the calls of
`sys/io/io.c`. A poll event names the handle it is about by the id of its slot. A process
that inherited the handle knows it by another number, under which `get_fd` finds it, and
`get_fd` does not find inherited handles by their ids.

The answers of the `get_status` callback are arguments of the calls.
-/

namespace Sneks.Io.Handles
open Lib

def epollIn : ℕ := 0x001

def epollOut : ℕ := 0x004

def epollHup : ℕ := 0x010

def epollMask : ℕ := 0xf000201f

/-- The rest of `struct client`. `tid` is `blocker` until `CF_NOTIFY` is set, and `notify_tid`
    from then on. -/
structure PollClient where
  tid : Option Tid
  notify : Bool
  writeBlocked : Bool

def PollClient.zero : PollClient := ⟨none, false, false⟩

/-- The server with `events`, the bits of `IOD_EPOLL_MASK` in each handle's flags. -/
structure PollServer where
  io : State
  events : ℕ → ℕ
  poll : ℕ → PollClient

inductive RawTid
  | nil
  | localId
  | globalId (tid : Tid)

/-- A message that `send_poll_event` sends: the event mask and the number of the handle.
    `pid` and `handle` tell which client's handle it is about. -/
structure PollEvent where
  tid : Tid
  mask : ℕ
  number : ℕ
  pid : ℕ
  handle : ℕ
  deriving DecidableEq, Repr

namespace PollServer

variable (s : PollServer)

/-- What a step of `io.c` does to the flags of handles that it makes, and to clients that it
    makes: `io_add_fd` sets no epoll bits, and `fork_handle` copies those of the handle. -/
def carry (t : State) : PollServer where
  io := t
  events id :=
    if (s.io.fd id).owner.isSome ∨ (t.fd id).owner.isNone then s.events id
    else if (t.fd id).shadow then s.events (t.fd id).origFd
    else 0
  poll pid := if (s.io.clients pid).isSome then s.poll pid else .zero

def setEvents (id events : ℕ) : PollServer :=
  { s with events := Function.update s.events id (events &&& epollMask) }

def setPoll (pid : ℕ) (c : PollClient) : PollServer := { s with poll := Function.update s.poll pid c }

/-- `add_blocker`. With notification it is not implemented. -/
def addBlocker (pid : ℕ) (tid : Tid) (writing : Bool) : Option PollServer :=
  if (s.poll pid).notify then none
  else some (s.setPoll pid { s.poll pid with tid := some tid, writeBlocked := writing })

/-- The end of `io_impl_set_notify` for a thread that is not nil. A client that is blocked
    aborts the server. -/
def setNotifyTid (pid : ℕ) (tid : Tid) : Option PollServer :=
  if (s.poll pid).notify then some (s.setPoll pid { s.poll pid with tid := some tid })
  else
    let s := s.setPoll pid { s.poll pid with notify := true }
    match (s.poll pid).tid with
    | some blocker => (s.addBlocker pid blocker (s.poll pid).writeBlocked).map fun s =>
        s.setPoll pid { s.poll pid with tid := some tid }
    | none => some (s.setPoll pid { s.poll pid with tid := some tid })

/-- `io_impl_set_notify`. `status` is the callback's answer, if there is a callback. -/
def setNotify (sender : Tid) (fd events : ℕ) (tid : RawTid) (status : Option ℕ) :
    Option (PollServer × Result) :=
  match s.io.getFd (pidof sender) fd with
  | none => none
  | some none => some (s, .error .EBADF)
  | some (some id) =>
    let s := s.setEvents id events
    let exmask := status.elim 0 fun status => (events ||| epollHup) &&& status
    match tid with
    | .nil => some (s, .ok exmask)
    | .localId => some (s, .error .EINVAL)
    | .globalId tid => (s.setNotifyTid (pidof sender) tid).map (·, .ok exmask)

/-- The loop of `io_impl_get_status`: statuses, and the epoll bits of the first handles. -/
def getStatus (sender : Tid) (status : ℕ → ℕ) : List ℕ → List ℕ → PollServer → Option (PollServer × List ℕ)
  | [], _, s => some (s, [])
  | fd :: handles, notif, s =>
    match s.io.getFd (pidof sender) fd with
    | none => none
    | some none => (getStatus sender status handles notif.tail s).map fun r => (r.1, 0 :: r.2)
    | some (some id) =>
      let s := match notif with
        | [] => s
        | events :: _ => s.setEvents id events
      (getStatus sender status handles notif.tail s).map fun r => (r.1, status (s.io.fd id).file :: r.2)

/-- The end of `io_impl_read` and `io_impl_write` for a file that would block. -/
def block (sender : Tid) (fd : ℕ) (writing : Bool) : Option PollServer :=
  match s.io.getFd (pidof sender) fd with
  | none => none
  | some none => some s
  | some (some _) => s.addBlocker (pidof sender) sender writing

def sendPollEvent (id pid mask : ℕ) : List PollEvent :=
  let events := mask &&& epollMask
  if s.events id &&& events = 0 then []
  else
    match (s.poll pid).tid with
    | none => []
    | some tid => [⟨tid, events, id, pid, id⟩]

/-- `maybe_unblock` for a client without notification. `replied` tells if the reply succeeded. -/
def maybeUnblock (pid mask : ℕ) (replied : Bool) : PollServer :=
  let c := s.poll pid
  if !c.notify && replied &&
      (c.writeBlocked && (mask &&& epollOut ≠ 0) || !c.writeBlocked && (mask &&& (epollIn ||| epollHup) ≠ 0))
  then s.setPoll pid { c with tid := none }
  else s

def notifyEach (mask : ℕ) (replied : ℕ → Bool) : List ℕ → PollServer → Option (PollServer × List PollEvent)
  | [], s => some (s, [])
  | id :: ids, s =>
    match (s.io.fd id).owner with
    | none => none
    | some pid =>
      let sent := s.sendPollEvent id pid mask
      (notifyEach mask replied ids (s.maybeUnblock pid mask (replied id))).map fun r => (r.1, sent ++ r.2)

/-- `io_notify`, and the poll events it sends. -/
def ioNotify (file mask : ℕ) (replied : ℕ → Bool) : Option (PollServer × List PollEvent) :=
  match s.io.files file with
  | none => none
  | some handles => notifyEach mask replied handles s

def init : PollServer := ⟨State.init, fun _ => 0, fun _ => .zero⟩

end PollServer

/-- Steps of `io.c`, the calls of the `Poll` interface, reads and writes that block, and a
    file's change of status. -/
inductive ServerStep
  | io (a : Step)
  | setNotify (sender : Tid) (fd events : ℕ) (tid : RawTid) (status : Option ℕ)
  | getStatus (sender : Tid) (handles notif : List ℕ) (status : ℕ → ℕ)
  | block (sender : Tid) (fd : ℕ) (writing : Bool)
  | notify (file mask : ℕ) (replied : ℕ → Bool)

/-- One step of the server. Calls start with `sync_confirm`. -/
def PollServer.exec (s : PollServer) : ServerStep → Option PollServer
  | .io a => (Handles.exec s.io a).map s.carry
  | .setNotify sender fd events tid status =>
    if s.io.rb.confirm.isSome then none else (s.setNotify sender fd events tid status).map (·.1)
  | .getStatus sender handles notif status =>
    if s.io.rb.confirm.isSome then none
    else (PollServer.getStatus sender status handles notif s).map (·.1)
  | .block sender fd writing => if s.io.rb.confirm.isSome then none else s.block sender fd writing
  | .notify file mask replied => (s.ioNotify file mask replied).map (·.1)

variable {s t : PollServer} {mask pid file : ℕ} {replied : ℕ → Bool} {es : List PollEvent} {e : PollEvent}

-- Polling does not touch the tables

namespace PollServer

theorem addBlocker_io {tid : Tid} {writing : Bool} (hs : s.addBlocker pid tid writing = some t) :
    t.io = s.io := by
  simp only [addBlocker] at hs
  split at hs
  · cases hs
  · cases hs
    rfl

theorem setNotify_io {sender : Tid} {fd events : ℕ} {tid : RawTid} {status : Option ℕ} {r : Result}
    (hs : s.setNotify sender fd events tid status = some (t, r)) : t.io = s.io := by
  simp only [setNotify] at hs
  split at hs
  · cases hs
  · cases hs
    rfl
  split at hs
  · cases hs
    rfl
  · cases hs
    rfl
  obtain ⟨u, hu, he⟩ := Option.map_eq_some_iff.mp hs
  cases he
  simp only [setNotifyTid] at hu
  split at hu
  · cases hu
    rfl
  split at hu
  · obtain ⟨v, hv, rfl⟩ := Option.map_eq_some_iff.mp hu
    show v.io = s.io
    rw [addBlocker_io hv]
    rfl
  · cases hu
    rfl

theorem getStatus_io {sender : Tid} {status : ℕ → ℕ} {handles notif r : List ℕ}
    (hs : getStatus sender status handles notif s = some (t, r)) : t.io = s.io := by
  induction handles generalizing s notif r with
  | nil =>
    cases hs
    rfl
  | cons fd handles ih =>
    simp only [getStatus] at hs
    split at hs
    · cases hs
    · obtain ⟨u, hu, he⟩ := Option.map_eq_some_iff.mp hs
      cases he
      exact ih hu
    · obtain ⟨u, hu, he⟩ := Option.map_eq_some_iff.mp hs
      cases he
      refine (ih hu).trans ?_
      split <;> rfl

theorem block_io {sender : Tid} {fd : ℕ} {writing : Bool} (hs : s.block sender fd writing = some t) :
    t.io = s.io := by
  simp only [block] at hs
  split at hs
  · cases hs
  · cases hs
    rfl
  · exact addBlocker_io hs

theorem maybeUnblock_io {b : Bool} : (s.maybeUnblock pid mask b).io = s.io := by
  simp only [maybeUnblock]
  split <;> rfl

theorem notifyEach_spec {ids : List ℕ} (hs : notifyEach mask replied ids s = some (t, es)) :
    t.io = s.io ∧ ∀ e ∈ es, e.handle ∈ ids ∧ e.number = e.handle ∧
      (s.io.fd e.handle).owner = some e.pid := by
  induction ids generalizing s es with
  | nil =>
    cases hs
    exact ⟨rfl, nofun⟩
  | cons id ids ih =>
    simp only [notifyEach] at hs
    split at hs
    · cases hs
    next pid ho =>
    obtain ⟨⟨u, fs⟩, hu, he⟩ := Option.map_eq_some_iff.mp hs
    cases he
    obtain ⟨hio, hes⟩ := ih hu
    rw [maybeUnblock_io] at hio
    refine ⟨hio, fun e he => ?_⟩
    rcases List.mem_append.mp he with he | he
    · simp only [sendPollEvent] at he
      split at he
      · cases he
      split at he
      · cases he
      · rw [List.mem_singleton.mp he]
        exact ⟨List.mem_cons_self, rfl, ho⟩
    · obtain ⟨hm, hn, ho'⟩ := hes e he
      rw [maybeUnblock_io] at ho'
      exact ⟨List.mem_cons_of_mem _ hm, hn, ho'⟩

end PollServer

theorem Inv.server {a : ServerStep} (h : Inv s.io) (hs : s.exec a = some t) : Inv t.io := by
  cases a with
  | io a =>
    obtain ⟨u, hu, rfl⟩ := Option.map_eq_some_iff.mp hs
    exact h.exec hu
  | setNotify sender fd events tid status =>
    simp only [PollServer.exec] at hs
    split at hs
    · cases hs
    · obtain ⟨⟨u, r⟩, hu, rfl⟩ := Option.map_eq_some_iff.mp hs
      rw [PollServer.setNotify_io hu]
      exact h
  | getStatus sender handles notif status =>
    simp only [PollServer.exec] at hs
    split at hs
    · cases hs
    · obtain ⟨⟨u, r⟩, hu, rfl⟩ := Option.map_eq_some_iff.mp hs
      rw [PollServer.getStatus_io hu]
      exact h
  | block sender fd writing =>
    simp only [PollServer.exec] at hs
    split at hs
    · cases hs
    · rw [PollServer.block_io hs]
      exact h
  | notify file mask replied =>
    obtain ⟨⟨u, es⟩, hu, rfl⟩ := Option.map_eq_some_iff.mp hs
    simp only [PollServer.ioNotify] at hu
    split at hu
    · cases hu
    · rw [(PollServer.notifyEach_spec hu).1]
      exact h

theorem Inv.getFd_id {s : State} {id : ℕ} (h : Inv s) (ho : (s.fd id).owner = some pid) :
    s.getFd pid id = some (some id) ↔ (s.fd id).shadow = false := by
  have hpos : id ≠ 0 := by
    have := (h.coherent.range id (by rw [ho]; rfl)).1
    omega
  simp only [State.getFd, if_neg hpos, ho, if_true]
  cases (s.fd id).shadow <;> simp

/-- In every state that is reached and for every event that is sent there, the number in the
    event resolves to its handle exactly when the client did not inherit the handle. -/
theorem poll_events_named {as : List ServerStep} (h : Run PollServer.exec free PollServer.init as s)
    (hs : s.ioNotify file mask replied = some (t, es)) (he : e ∈ es) :
    t.io.getFd e.pid e.number = some (some e.handle) ↔ (s.io.fd e.handle).shadow = false := by
  have hinv : Inv s.io :=
    h.invariant (I := fun s => Inv s.io) (fun _ _ _ _ he hi => hi.server he) Inv.init
  simp only [PollServer.ioNotify] at hs
  split at hs
  · cases hs
  obtain ⟨hio, hes⟩ := PollServer.notifyEach_spec hs
  obtain ⟨-, hnumber, howner⟩ := hes e he
  rw [hio, hnumber]
  exact hinv.getFd_id howner

/-- Process 5 opens file 0 as 1 and forks 6. Process `pid` asks for events of handle 1. -/
def pollRun (pid : ℕ) : List ServerStep :=
  [.io (.call (userTid 5) .iofNew), .io (.call (userTid 5) (.addFd 0 false [1])),
   .io (.event (.fork 5 6 [2])), .setNotify (userTid pid) 1 epollIn (.globalId (userTid pid)) (some 0)]

def PollServer.pollSeen (s : PollServer) : Option (List PollEvent) :=
  (s.ioNotify 0 epollIn fun _ => true).map (·.2)

theorem poll_events_named_opener : ∃ s t, Run PollServer.exec free PollServer.init (pollRun 5) s ∧
    s.ioNotify 0 epollIn (fun _ => true) = some (t, [⟨userTid 5, epollIn, 1, 5, 1⟩]) ∧
    t.io.getFd 5 1 = some (some 1) := by
  obtain ⟨s, hrun, hs⟩ := Run.exists_of_evalRun PollServer.exec free PollServer.init (pollRun 5)
    (fun s => (s.pollSeen, (s.io.fd 1).shadow)) (some [⟨userTid 5, epollIn, 1, 5, 1⟩], false)
    (by decide +kernel)
  simp only [Prod.mk.injEq] at hs
  obtain ⟨⟨t, es⟩, ht, rfl⟩ := Option.map_eq_some_iff.mp hs.1
  exact ⟨s, t, hrun, ht, (poll_events_named hrun ht (List.mem_singleton.mpr rfl)).mpr hs.2⟩

/-- Process 6, which knows the handle as 1, is told about number 2, which is nothing to it. -/
theorem inherited_event : ∃ s t, Run PollServer.exec free PollServer.init (pollRun 6) s ∧
    s.ioNotify 0 epollIn (fun _ => true) = some (t, [⟨userTid 6, epollIn, 2, 6, 2⟩]) ∧
    t.io.getFd 6 1 = some (some 2) ∧ t.io.getFd 6 2 ≠ some (some 2) := by
  obtain ⟨s, hrun, hs⟩ := Run.exists_of_evalRun PollServer.exec free PollServer.init (pollRun 6)
    (fun s => (s.pollSeen, (s.ioNotify 0 epollIn fun _ => true).map fun r =>
      (r.1.io.getFd 6 1, r.1.io.getFd 6 2)))
    (some [⟨userTid 6, epollIn, 2, 6, 2⟩], some (some (some 2), some none)) (by decide +kernel)
  simp only [Prod.mk.injEq] at hs
  obtain ⟨⟨t, es⟩, ht, rfl⟩ := Option.map_eq_some_iff.mp hs.1
  obtain ⟨⟨u, fs⟩, hu, he⟩ := Option.map_eq_some_iff.mp hs.2
  obtain ⟨rfl, rfl⟩ := Prod.mk.inj (Option.some.inj (ht.symm.trans hu))
  simp only [Prod.mk.injEq] at he
  refine ⟨s, t, hrun, ht, he.1, ?_⟩
  rw [he.2]
  nofun

end Sneks.Io.Handles
