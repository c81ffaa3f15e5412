import Sneks.Pid
import Sneks.Lib.Run
import Sneks.Lib.BackIndexed

/-!
# Handles, clients and files of `sys/io`

The tables of the IO server library and the operations on them, from
`sys/io/io.c`. A handle (`struct fd`) is a slot of the range allocator `fd_ra`,
live while it has an owner; it is listed in its owner's and in its file's
`handles` array, and knows its position in both. A process that was forked finds
inherited handles through `fd_table`, which maps the parent's numbers to copies.

The range allocator is not part of the repository: every step carries the ids
that `ra_alloc(fd_ra, -1)` answers with, and the end of that list is a null
pointer. `nextFile`, `attached` and `closed` are ghost records: the files made so
far, how many handles a file ever had, and the calls of the close callback.
-/

namespace Sneks.Io.Handles
open Lib

def maxFd : ℕ := 65535

/-- `struct fd`. `owner` is the pid of the owning client, `shadow`, `transfer` and
    `cloexec` are `IOD_*` of `flags`. -/
structure Fd where
  file : ℕ
  owner : Option ℕ
  shadow : Bool
  transfer : Bool
  cloexec : Bool
  origFd : ℕ
  fileIx : ℕ
  clientIx : ℕ

/-- `struct client`, by its pid. An entry 0 of `fdTable` is none. -/
structure Client where
  handles : List ℕ
  fdTable : List ℕ

structure Transfer where
  fd : ℕ
  target : ℕ
  deriving DecidableEq, Repr

inductive Tag
  | close | dup | dupTo | other
  deriving DecidableEq, Repr

/-- `struct rbctx` of `lib/rollback.c`. Both handlers are `late_close_fd`, on this slot. -/
structure RbCtx where
  sender : Tid
  tag : Tag
  rollback : Option ℕ
  confirm : Option ℕ

structure State where
  fd : ℕ → Fd
  clients : ℕ → Option Client
  files : ℕ → Option (List ℕ)
  transfers : List Transfer
  rb : RbCtx
  nextFile : ℕ
  attached : ℕ → ℕ
  closed : List ℕ

inductive Errno
  | EBADF | EINVAL | EMFILE | ENFILE | ENOMEM
  deriving DecidableEq, Repr

abbrev Result := Except Errno ℕ

def ushort (n : ℕ) : ℕ := n % 2 ^ 16

/-- Is number `n` taken by the client's indirection table? -/
def Client.shadows (c : Client) (n : ℕ) : Bool := 0 < c.fdTable.getD n 0

def Client.tableNumbers (c : Client) : List ℕ := (List.range c.fdTable.length).filter (c.shadows ·)

namespace State

variable (s : State)

def setFd (id : ℕ) (f : Fd) : State := { s with fd := Function.update s.fd id f }

def setClient (pid : ℕ) (c : Client) : State :=
  { s with clients := Function.update s.clients pid (some c) }

/-- `get_client(pid, true)`: makes the client where there is none. -/
def getClient (pid : ℕ) : State :=
  match s.clients pid with
  | some _ => s
  | none => s.setClient pid ⟨[], []⟩

-- Making and destroying handles

/-- `alloc_fd`: ids that the client's table shadows are skipped. An answer that is
    not a free id of the range cannot happen. -/
def allocFd (c : Client) : List ℕ → Option (Option ℕ × List ℕ)
  | [] => some (none, [])
  | id :: ids =>
    if id = 0 ∨ maxFd < id ∨ (s.fd id).owner.isSome then none
    else if c.shadows id then allocFd c ids
    else some (some id, ids)

/-- Fills slot `id` and adds it to the arrays of its owner and its file. -/
def attach (id pid : ℕ) (f : Fd) : Option State :=
  match s.clients pid, s.files f.file with
  | some c, some hs =>
    some { s with
      fd := Function.update s.fd id { f with
        owner := some pid
        clientIx := ushort c.handles.length
        fileIx := ushort hs.length }
      clients := Function.update s.clients pid (some { c with handles := c.handles ++ [id] })
      files := Function.update s.files f.file (some (hs ++ [id]))
      attached := Function.update s.attached f.file (s.attached f.file + 1) }
  | _, _ => none

/-- Removes `id` from its owner's array, and tells the handle moved into the gap. -/
def removeFromClient (id : ℕ) : Option State :=
  let f := s.fd id
  match f.owner with
  | none => none
  | some pid =>
    match s.clients pid with
    | none => none
    | some c =>
      if c.handles.length ≤ f.clientIx then none
      else
        let hs := removeFast c.handles f.clientIx
        let s := s.setClient pid { c with handles := hs }
        match hs[f.clientIx]? with
        | some j => some (s.setFd j { s.fd j with clientIx := f.clientIx })
        | none => some s

/-- Removes `id` from its file's array likewise. -/
def removeFromFile (id : ℕ) : Option State :=
  let f := s.fd id
  match s.files f.file with
  | none => none
  | some hs =>
    if hs[f.fileIx]? ≠ some id then none
    else
      let hs := removeFast hs f.fileIx
      let s := { s with files := Function.update s.files f.file (some hs) }
      match hs[f.fileIx]? with
      | some j => some (s.setFd j { s.fd j with fileIx := f.fileIx })
      | none => some s

/-- The file's close callback and `file_dtor`, once the last handle is gone. -/
def closeFile (file : ℕ) (destroyFile : Bool) : State :=
  if s.files file = some [] ∧ destroyFile then
    { s with files := Function.update s.files file none, closed := s.closed ++ [file] }
  else s

def fdDtor (id : ℕ) (destroyFile : Bool) : Option State := do
  let f := s.fd id
  let pid ← f.owner
  let c ← s.clients pid
  if c.handles[f.clientIx]? ≠ some id then none
  else
    let s ← s.removeFromClient id
    let s ← s.removeFromFile id
    let s := s.closeFile f.file destroyFile
    let s := if f.transfer then { s with transfers := s.transfers.filter (·.fd ≠ id) } else s
    some (s.setFd id { s.fd id with owner := none })

def lateCloseFd (id : ℕ) : Option State :=
  let f := s.fd id
  match f.owner with
  | none => none
  | some pid =>
    if f.shadow then
      match s.clients pid with
      | none => none
      | some c =>
        if c.shadows f.origFd then
          (s.setClient pid { c with fdTable := c.fdTable.set f.origFd 0 }).fdDtor id true
        else none
    else s.fdDtor id true

def ioAddFd (pid file : ℕ) (cloexec : Bool) (ids : List ℕ) : Option (State × Result) :=
  let s := s.getClient pid
  match s.clients pid, s.files file with
  | some c, some hs =>
    if c.handles.length = maxFd then some (s, .error .EMFILE)
    else if hs.length = maxFd then some (s, .error .ENFILE)
    else
      match s.allocFd c ids with
      | none => none
      | some (none, _) => some (s, .error .ENFILE)
      | some (some id, _) =>
        match s.attach id pid ⟨file, none, false, false, cloexec, 0, 0, 0⟩ with
        | none => none
        | some s => some (s, .ok id)
  | _, _ => none

-- Fork

/-- `fork_handle`, and the entry that `fork_client` makes for it in the child's table.
    Running out of slots aborts the server. -/
def forkOne (child id : ℕ) (ids : List ℕ) : Option (State × List ℕ) := do
  let c ← s.clients child
  let (r, ids) ← s.allocFd c ids
  let newfd ← r
  let s ← s.attach newfd child { s.fd id with origFd := id, transfer := false, shadow := true }
  let c ← s.clients child
  if c.fdTable[id]? = some 0 then
    some (s.setClient child { c with fdTable := c.fdTable.set id newfd }, ids)
  else none

def forkAll (child : ℕ) : List ℕ → List ℕ → State → Option (State × List ℕ)
  | [], ids, s => some (s, ids)
  | id :: rest, ids, s => do
    let (s, ids) ← s.forkOne child id ids
    forkAll child rest ids s

/-- The second loop of `fork_client`. It looks the handle up by the number, where the
    parent's own copy is under the table's entry for the number. -/
def forkShadowed (child : ℕ) : List ℕ → List ℕ → State → Option (State × List ℕ)
  | [], ids, s => some (s, ids)
  | i :: rest, ids, s =>
    if (s.fd i).owner.isNone then forkShadowed child rest ids s
    else if (s.fd i).shadow then none
    else do
      let (s, ids) ← s.forkOne child i ids
      forkShadowed child rest ids s

def ownHandles (p : Client) : List ℕ := p.handles.filter fun id => !(s.fd id).shadow

def tableLen (p : Client) : ℕ :=
  ((s.ownHandles p ++ p.tableNumbers).map (· + 1)).foldl max 0

/-- `fork_client`, for a child that is not there yet. -/
def forkClient (parent child : ℕ) (ids : List ℕ) : Option State := do
  let p ← s.clients parent
  let own := s.ownHandles p
  let s := s.setClient child ⟨[], List.replicate (s.tableLen p) 0⟩
  let (s, ids) ← s.forkAll child own ids
  let (s, _) ← s.forkShadowed child p.tableNumbers ids
  let c ← s.clients child
  if c.handles.length = p.handles.length then some s else none

/-- `get_fd_nosync`: the slot that `fd` is to process `pid`. -/
def getFd (pid fd : ℕ) : Option (Option ℕ) :=
  if fd = 0 then none
  else if (s.fd fd).owner = some pid then some (if (s.fd fd).shadow then none else some fd)
  else
    match s.clients pid with
    | none => none
    | some c =>
      if c.shadows fd then
        if (s.fd (c.fdTable.getD fd 0)).shadow then some (some (c.fdTable.getD fd 0)) else none
      else some none

def setConfirm (sender : Tid) (tag : Tag) (id : ℕ) : State :=
  { s with rb := { s.rb with sender := sender, tag := tag, confirm := some id } }

def setRollback (sender : Tid) (tag : Tag) (id : ℕ) : State :=
  { s with rb := { s.rb with sender := sender, tag := tag, rollback := some id } }

/-- `io_impl_close`: the handle goes once the reply is through. -/
def close (sender : Tid) (fd : ℕ) : Option (State × Result) :=
  if fd = 0 then some (s, .error .EBADF)
  else
    match s.getFd (pidof sender) fd with
    | none => none
    | some none => some (s, .error .EBADF)
    | some (some id) => some (s.setConfirm sender .close id, .ok 0)

/-- The rest of `internal_dup` for a transfer: the record, or the end of the copy. -/
def addTransfer (id target : ℕ) (hashOk : Bool) : Option (State × Result) :=
  if hashOk then
    let s := { s with transfers := s.transfers ++ [Transfer.mk id target] }
    some (s.setFd id { s.fd id with transfer := true }, .ok id)
  else do
    let s ← s.fdDtor id false
    some (s, .error .ENOMEM)

def internalDup (sender : Tid) (tag : Tag) (oldfd : ℕ) (receiver : Option ℕ) (cloexec hashOk : Bool)
    (ids : List ℕ) : Option (State × Result) :=
  match s.getFd (pidof sender) oldfd with
  | none => none
  | some none => some (s, .error .EBADF)
  | some (some old) =>
    if receiver = some 0x10000 ∧ pidof sender < minSysid then some (s, .error .EINVAL)
    else do
      let (s, r) ← s.ioAddFd (pidof sender) (s.fd old).file cloexec ids
      match r with
      | .error e => some (s, .error e)
      | .ok id =>
        match receiver with
        | none => some (s.setRollback sender tag id, .ok id)
        | some target => do
          let (s, r) ← s.addTransfer id target hashOk
          match r with
          | .error e => some (s, .error e)
          | .ok _ => some (s.setRollback sender tag id, .ok id)

def transferMatch (t : Transfer) (pid : ℕ) : Bool :=
  t.target = pid || (t.target = 0x10000 && minSysid ≤ pid)

def touch (sender : Tid) (newfd : ℕ) : Option (State × Result) :=
  let pid := pidof sender
  let s := s.getClient pid
  match s.transfers.find? (fun t => t.fd = newfd && transferMatch t pid) with
  | none => some (s, .error .EBADF)
  | some t =>
    let s := { s with transfers := s.transfers.erase t }
    if (s.fd newfd).owner.isNone || !(s.fd newfd).transfer then some (s, .error .EBADF)
    else do
      let s ← s.removeFromClient newfd
      let c ← s.clients pid
      let s := s.setClient pid { c with handles := c.handles ++ [newfd] }
      some (s.setFd newfd { s.fd newfd with
        owner := some pid, clientIx := ushort c.handles.length, transfer := false }, .ok 0)

/-- `io_impl_set_handle_flags`, of which close-on-exec is the only flag. -/
def setHandleFlags (sender : Tid) (fd : ℕ) (orCloexec andCloexec : Bool) :
    Option (State × Result) :=
  match s.getFd (pidof sender) fd with
  | none => none
  | some none => some (s, .error .EBADF)
  | some (some id) =>
    let f := s.fd id
    some (s.setFd id { f with cloexec := (f.cloexec && andCloexec) || orCloexec }, .ok f.cloexec.toNat)

-- Lifecycle events

/-- `client_dtor`, whose loop destroys the first handle until there is none. -/
def clientDtor (pid : ℕ) : ℕ → State → Option State
  | 0, s => some { s with clients := Function.update s.clients pid none }
  | n + 1, s =>
    match s.clients pid with
    | none => none
    | some c =>
      match c.handles with
      | [] => some { s with clients := Function.update s.clients pid none }
      | id :: _ => do
        let s ← s.fdDtor id true
        clientDtor pid n s

/-- The loop over the client's handles at exec, from position `i` on. A closed handle's
    place is taken by another, which is looked at next. -/
def execLoop (pid : ℕ) : ℕ → ℕ → State → Option State
  | 0, _, s => some s
  | n + 1, i, s =>
    match s.clients pid with
    | none => none
    | some c =>
      match c.handles[i]? with
      | none => some s
      | some id =>
        if (s.fd id).cloexec then do
          let s ← s.lateCloseFd id
          execLoop pid n i s
        else execLoop pid n (i + 1) s

end State

/-- What `lifecycle_sync` takes from the queue. -/
inductive Event
  | fork (parent child : ℕ) (ids : List ℕ)
  | exec (pid : ℕ)
  | exit (pid : ℕ)

/-- One event of `lifecycle_sync`. Events of processes that are no clients are spurious,
    and so is a fork into a client that exists. -/
def State.event (s : State) : Event → Option State
  | .fork parent child ids =>
    if (s.clients parent).isNone || (s.clients child).isSome then some s
    else s.forkClient parent child ids
  | .exec pid =>
    match s.clients pid with
    | none => some s
    | some c => s.execLoop pid c.handles.length 0
  | .exit pid =>
    match s.clients pid with
    | none => some s
    | some c => s.clientDtor pid c.handles.length

inductive Call
  | iofNew
  | addFd (file : ℕ) (cloexec : Bool) (ids : List ℕ)
  | close (fd : ℕ)
  | dup (oldfd : ℕ) (cloexec : Bool) (ids : List ℕ)
  | dupTo (oldfd receiver : ℕ) (hashOk : Bool) (ids : List ℕ)
  | touch (newfd : ℕ)
  | setHandleFlags (fd : ℕ) (orCloexec andCloexec : Bool)

/-- `replyFailed` is a failed reply to the last call of `sender` with this tag;
    `confirm` runs the confirm handler, as the next call or a receive failure does. -/
inductive Step
  | call (sender : Tid) (call : Call)
  | event (ev : Event)
  | confirm
  | replyFailed (sender : Tid) (tag : Tag)

namespace State

variable (s : State)

def handle (sender : Tid) : Call → Option (State × Result)
  | .iofNew => some ({ s with
      files := Function.update s.files s.nextFile (some []), nextFile := s.nextFile + 1 }, .ok 0)
  | .addFd file cloexec ids => s.ioAddFd (pidof sender) file cloexec ids
  | .close fd => s.close sender fd
  | .dup oldfd cloexec ids => s.internalDup sender .dup oldfd none cloexec true ids
  | .dupTo oldfd receiver hashOk ids =>
    s.internalDup sender .dupTo oldfd (some receiver) false hashOk ids
  | .touch newfd => s.touch sender newfd
  | .setHandleFlags fd orCloexec andCloexec => s.setHandleFlags sender fd orCloexec andCloexec

def syncConfirm : Option State :=
  match s.rb.confirm with
  | none => some s
  | some id => { s with rb := { s.rb with confirm := none } }.lateCloseFd id

def checkRollback (sender : Tid) (tag : Tag) : Option State :=
  if s.rb.tag = tag ∧ s.rb.sender = sender then
    let s' := { s with rb := { s.rb with rollback := none, confirm := none } }
    match s.rb.rollback with
    | none => some s'
    | some id => s'.lateCloseFd id
  else some { s with rb := { s.rb with rollback := none } }

end State

/-- One step of the server. Every call starts with `sync_confirm`, and so does the
    handling of events, so neither is taken with a confirm handler pending. -/
def exec (s : State) : Step → Option State
  | .call sender call => if s.rb.confirm.isSome then none else (s.handle sender call).map (·.1)
  | .event ev => if s.rb.confirm.isSome then none else s.event ev
  | .confirm => s.syncConfirm
  | .replyFailed sender tag => s.checkRollback sender tag

def State.init : State where
  fd _ := ⟨0, none, false, false, false, 0, 0, 0⟩
  clients _ := none
  files _ := none
  transfers := []
  rb := ⟨⟨0, 0⟩, .other, none, none⟩
  nextFile := 0
  attached _ := 0
  closed := []

end Sneks.Io.Handles
