import Sneks.Crt.File

/-!
# Close-on-exec

`open`, `dup3`, `close` and `fcntl` of the user runtime (`user/crt/path.c`, `user/crt/file.c`)
against the handles of the I/O servers (`sys/io/io.c`). The runtime has one word of flags for a
descriptor. `collect_exec_fds` (`user/crt/exec.c`) goes by it, and a server that hears of the exec
goes by its own.

A server's function is done or not: a call that IPC fails has no effect there, as what was done
for it is rolled back. A handle that a server gives out is one it has not in use.
-/

namespace Sneks.Crt
open Lib
open Exec (Word FdBits FF_CWD)

def ENFILE : ℤ := 23

def IOD_CLOEXEC : Word := SNEKS_IO_FD_CLOEXEC <<< 16
def IOD_VALID_MASK : Word := IOD_CLOEXEC
def IOD_SHADOW : Word := 1 <<< 26
def IOD_TRANSFER : Word := 1 <<< 27
def IOD_EPOLL_MASK : Word := 0xf000201f
def IOD_PRIVATE_MASK : Word := IOD_SHADOW ||| IOD_TRANSFER ||| IOD_EPOLL_MASK
def IOF_NONBLOCK : Word := 0x800
def IOF_VALID_MASK : Word := IOF_NONBLOCK

structure Fd where
  file : ℕ
  flags : Word

abbrev Key := Word × Word

structure Servers where
  fds : Key → Option Fd
  /-- `struct io_file` has them. -/
  fileFlags : Word → ℕ → Word

namespace Servers

variable (srv : Servers)

def ioAddFd (key : Key) (file : ℕ) (flags : Word) : ℤ × Servers :=
  if flags &&& ~~~IOD_VALID_MASK ≠ 0 then (-EINVAL, srv)
  else if srv.fds key ≠ none then (-ENFILE, srv)
  else (0, { srv with fds := Function.update srv.fds key (some ⟨file, flags⟩) })

def ioDup (key : Key) (flags newHandle : Word) : ℤ × Servers :=
  if flags &&& ~~~SNEKS_IO_FD_CLOEXEC ≠ 0 then (-EINVAL, srv)
  else
    match srv.fds key with
    | none => (-EBADF, srv)
    | some fd =>
      let flags' := fd.flags &&& ~~~(IOD_PRIVATE_MASK ||| IOD_CLOEXEC)
      let flags' := if flags &&& SNEKS_IO_FD_CLOEXEC ≠ 0 then flags' ||| IOD_CLOEXEC else flags'
      srv.ioAddFd (key.1, newHandle) fd.file flags'

def closeFd (key : Key) : Servers := { srv with fds := Function.update srv.fds key none }

def setFileFlags (key : Key) (orMask andMask : Word) : ℤ × Word × Servers :=
  match srv.fds key with
  | none => (-EBADF, 0, srv)
  | some f =>
    let permitted := IOF_NONBLOCK
    let andMask := andMask ||| ~~~permitted
    let orMask := orMask &&& permitted
    let old := srv.fileFlags key.1 f.file &&& IOF_VALID_MASK
    let flags := (old &&& andMask) ||| orMask ||| (old &&& ~~~permitted)
    (0, old, { srv with
      fileFlags := fun s i => if s = key.1 ∧ i = f.file then flags else srv.fileFlags s i })

def setHandleFlags (key : Key) (orMask andMask : Word) : ℤ × Word × Servers :=
  match srv.fds key with
  | none => (-EBADF, 0, srv)
  | some f =>
    let permitted := SNEKS_IO_FD_CLOEXEC
    let andMask := andMask ||| ~~~permitted
    let orMask := orMask &&& permitted
    let old := (f.flags &&& IOD_CLOEXEC) >>> 16
    let newSet := (old &&& andMask) ||| orMask ||| (old &&& ~~~permitted)
    let flags := (f.flags &&& ~~~IOD_VALID_MASK) ||| ((newSet <<< 16) &&& IOD_VALID_MASK)
    (0, old, { srv with fds := Function.update srv.fds key (some { f with flags }) })

def lifecycleExec : Servers :=
  { srv with fds := fun key => (srv.fds key).filter fun fd => fd.flags &&& IOD_CLOEXEC = 0 }

end Servers

namespace Table

variable (t : Table)

/-- The descriptors that `collect_exec_fds` passes, by their numbers. -/
def execFds : List ℤ :=
  (t.fdMap.keys.mergeSort (· ≤ ·)).filter fun fd => ((t.get fd).any fun b => b.flags &&& FD_CLOEXEC = 0)

/-- An entry of `bufs`: the server, the handle, and the number with the working directory's mark. -/
def execEntry (cwdFd fd : ℤ) (b : FdBits) : Word × Word × Word :=
  (b.server, b.handle, BitVec.ofInt 32 fd ||| if fd = cwdFd then FF_CWD else 0)

def collectExecFds (cwdFd : ℤ) : List (Word × Word × Word) :=
  t.execFds.filterMap fun fd => (t.get fd).map (execEntry cwdFd fd)

/-- A new handle gets a descriptor, or it is closed again (`openat`, `dup3`). -/
def createOrClose (fd : ℤ) (server handle flags : Word) (st : Option Stat) (mem : Memory) :
    Except Stop (ℤ × Table) := do
  let (n, t) ← t.createFdExt fd server handle flags st mem
  if n < 0 then return (-1, { t with closed := (server, handle) :: t.closed })
  return (n, t)

end Table

structure Process where
  table : Table
  servers : Servers

/-- Answers to a call: an error of IPC if it is not 0, the handle that is new, how `__io_close`
ends, and memory. -/
structure Answers where
  ipc : ℤ
  newHandle : Word
  close : Key → ℤ
  mem : Table.Memory

inductive Cmd
  | F_GETFD | F_SETFD | F_GETFL | F_SETFL

def Cmd.fn : Cmd → Servers → Key → Word → Word → ℤ × Word × Servers
  | .F_GETFD | .F_SETFD => Servers.setHandleFlags
  | .F_GETFL | .F_SETFL => Servers.setFileFlags

inductive ProcessCall
  /-- A descriptor from before an exec, in `__file_init`. -/
  | inherit (fd : ℤ) (server handle : Word) (file : ℕ) (mem : Table.Memory)
  | openat (server : Word) (file : ℕ) (fileFlags flags : Word) (st : Option Stat) (ans : Answers)
  | dup2 (oldfd newfd : ℤ) (ans : Answers)
  | dup3 (oldfd newfd : ℤ) (flags : Word) (ans : Answers)
  | dupfd (fd low : ℤ) (ans : Answers)
  | fcntl (cmd : Cmd) (fd : ℤ) (val : Word) (ipc : ℤ)
  | close (fd : ℤ) (ans : Answers)
  /-- Another process sets the flags of a file. -/
  | others (server : Word) (file : ℕ) (fileFlags : Word)

namespace Process

variable (w : Process)

def init : Process := ⟨Table.init, ⟨fun _ => none, fun _ _ => 0⟩⟩

def finish (r : Except Stop (ℤ × Table)) (srv : Servers) (close : Key → ℤ) : Option Process :=
  r.toOption.map fun p =>
    ⟨{ p.2 with closed := [] }, p.2.closed.foldr (fun key srv => if close key = 0 then srv.closeFd key else srv) srv⟩

/-- The answer of a descriptor's server to `__io_close`. -/
def closeAnswer (fd : ℤ) (close : Key → ℤ) : ℤ :=
  match w.table.fdbits fd with
  | none => 0
  | some b => close (b.server, b.handle)

def inherit (fd : ℤ) (server handle : Word) (file : ℕ) (mem : Table.Memory) : Option Process :=
  let (n, srv) := w.servers.ioAddFd (server, handle) file 0
  if n ≠ 0 then none
  else
    match w.table.createFd fd server handle 0 mem with
    | .error _ => none
    | .ok (n, t) => if n < 0 then none else some ⟨t, srv⟩

def openat (server : Word) (file : ℕ) (fileFlags flags : Word) (st : Option Stat) (ans : Answers) : Option Process :=
  if ans.ipc ≠ 0 then some w
  else
    let srv := { w.servers with
      fileFlags := fun s i => if s = server ∧ i = file then fileFlags else w.servers.fileFlags s i }
    let (n, srv) := srv.ioAddFd (server, ans.newHandle) file (if flags &&& O_CLOEXEC ≠ 0 then IOD_CLOEXEC else 0)
    if n ≠ 0 then some w
    else
      let fflags := if flags &&& O_CLOEXEC ≠ 0 then FD_CLOEXEC else 0
      finish (w.table.createOrClose (-1) server ans.newHandle fflags st ans.mem) srv ans.close

/-- `__io_dup` of `dup3`, where it is called. -/
def askDup (oldfd newfd : ℤ) (flags : Word) (ans : Answers) : ℤ × Servers :=
  match w.table.fdbits oldfd with
  | none => (0, w.servers)
  | some b =>
    if oldfd = newfd ∨ flags &&& ~~~O_CLOEXEC ≠ 0 then (0, w.servers)
    else if ans.ipc ≠ 0 then (ans.ipc, w.servers)
    else
      w.servers.ioDup (b.server, b.handle) (if flags &&& O_CLOEXEC ≠ 0 then SNEKS_IO_FD_CLOEXEC else 0) ans.newHandle

def dup3 (oldfd newfd : ℤ) (flags : Word) (ans : Answers) : Option Process :=
  let (n, srv) := w.askDup oldfd newfd flags ans
  finish (w.table.dup3 oldfd newfd flags ⟨n, ans.newHandle, w.closeAnswer newfd ans.close, ans.mem⟩) srv ans.close

def dup2 (oldfd newfd : ℤ) (ans : Answers) : Option Process :=
  if oldfd = newfd then some w else w.dup3 oldfd newfd 0 ans

def fcntlDupfd (fd low : ℤ) (ans : Answers) : Option Process :=
  match w.table.fdbits fd with
  | none => some w
  | some _ =>
    if low < 0 then some w
    else
      match w.table.nextFreeFd low with
      | .error _ => none
      | .ok newfd => if newfd < 0 then some w else w.dup2 fd newfd ans

def setFlags (fd : ℤ) (b : FdBits) (flags : Word) : Table :=
  { w.table with fdMap := w.table.fdMap.insert fd { b with flags } }

def fcntl (cmd : Cmd) (fd : ℤ) (val : Word) (ipc : ℤ) : Option Process :=
  match w.table.fdbits fd with
  | none => some w
  | some b =>
    if ipc ≠ 0 then some w
    else
      match cmd with
      | .F_GETFL | .F_GETFD =>
        let (n, old, srv) := cmd.fn w.servers (b.server, b.handle) 0 (~~~0)
        some (if n = 0 then ⟨w.setFlags fd b old, srv⟩ else w)
      | .F_SETFL | .F_SETFD =>
        let (n, _, srv) := cmd.fn w.servers (b.server, b.handle) val 0
        some (if n = 0 then ⟨w.setFlags fd b val, srv⟩ else w)

def exec (call : ProcessCall) : Option Process :=
  match call with
  | .inherit fd server handle file mem => w.inherit fd server handle file mem
  | .openat server file fileFlags flags st ans => w.openat server file fileFlags flags st ans
  | .dup2 oldfd newfd ans => w.dup2 oldfd newfd ans
  | .dup3 oldfd newfd flags ans => w.dup3 oldfd newfd flags ans
  | .dupfd fd low ans => w.fcntlDupfd fd low ans
  | .fcntl cmd fd val ipc => w.fcntl cmd fd val ipc
  | .close fd ans => finish (w.table.close fd (w.closeAnswer fd ans.close)) w.servers ans.close
  | .others server file fileFlags =>
    some { w with servers := { w.servers with
      fileFlags := fun s i => if s = server ∧ i = file then fileFlags else w.servers.fileFlags s i } }

/-- The flags that the runtime has and the servers' are the same, each descriptor has its handle to
itself, and it is not one that is to be closed. -/
structure Agree (t : Table) (srv : Servers) : Prop where
  flag : ∀ fd b, t.get fd = some b → ∃ f, srv.fds (b.server, b.handle) = some f ∧
    (b.flags &&& FD_CLOEXEC ≠ 0 ↔ f.flags &&& IOD_CLOEXEC ≠ 0)
  own : ∀ fd fd' b b', t.get fd = some b → t.get fd' = some b' →
    (b.server, b.handle) = (b'.server, b'.handle) → fd = fd'
  gone : ∀ fd b, t.get fd = some b → (b.server, b.handle) ∉ t.closed

/-- `F_GETFL` and `F_SETFL` happen to leave the bit as it is: the first clears it, the second takes
it from the file's flags. -/
def Matches : ProcessCall → Prop
  | .fcntl .F_GETFL fd _ ipc => ipc = 0 → ∀ b, w.table.fdbits fd = some b → b.flags &&& FD_CLOEXEC = 0
  | .fcntl .F_SETFL fd val ipc =>
    ipc = 0 → ∀ b, w.table.fdbits fd = some b → b.flags &&& FD_CLOEXEC = val &&& FD_CLOEXEC
  | _ => True

def ExecAgrees : Prop :=
  ∀ cwdFd fd b, w.table.get fd = some b →
    (Table.execEntry cwdFd fd b ∈ w.table.collectExecFds cwdFd ↔
      w.servers.lifecycleExec.fds (b.server, b.handle) ≠ none)

end Process

-- What the table's functions do, whatever its marks are

namespace Table

variable {t t' : Table} {fd n : ℤ} {server handle flags : Word} {st : Option Stat} {mem : Memory}

theorem of_check {α : Type} {c : Bool} {f : Unit → Except Stop α} {r : α} (h : (check c >>= f) = .ok r) :
    c = true ∧ f () = .ok r := by
  cases c with
  | false => cases h
  | true => exact ⟨rfl, h⟩

theorem get_added (t : Table) (fd : ℤ) (bits : FdBits) (k : ℤ) :
    (t.added fd bits).get k = if k = fd then some bits else t.get k := by
  rw [get, added_fdMap]
  split
  · next heq =>
    subst heq
    exact AList.lookup_insert _
  · next hne => exact AList.lookup_insert_ne hne

structure More (t : Table) (fd : ℤ) (bits : FdBits) (t' : Table) : Prop where
  free : t.get fd = none
  get : ∀ k, t'.get k = if k = fd then some bits else t.get k
  closed : t'.closed = t.closed

theorem add_cases {bits : FdBits} (hfree : t.get fd = none) (h : t.add fd bits mem = .ok (n, t')) :
    n < 0 ∧ t' = t ∨ n = fd ∧ More t fd bits t' := by
  unfold add at h
  split at h
  · cases h
    exact .inl ⟨by decide, rfl⟩
  · split at h
    · cases h
      exact .inl ⟨by decide, rfl⟩
    · cases (of_check h).2
      exact .inr ⟨rfl, hfree, get_added t fd bits, (added_rest t fd bits).2.1⟩

theorem createFd_cases (h : t.createFd fd server handle flags mem = .ok (n, t')) :
    n < 0 ∧ t' = t ∨ 0 ≤ n ∧ More t n ⟨server, handle, flags⟩ t' := by
  replace h := (of_check h).2
  split at h
  · cases h
    exact .inl ⟨by decide, rfl⟩
  · split at h
    · cases h
      exact .inl ⟨by decide, rfl⟩
    · next hno =>
      split at h
      · cases hnext : t.nextFreeFd 0 with
        | error stop =>
          rw [hnext] at h
          cases h
        | ok m =>
          rw [hnext] at h
          change (if m < 0 then _ else _) = _ at h
          split at h
          · next hneg =>
            cases h
            exact .inl ⟨hneg, rfl⟩
          · next hnonneg =>
            obtain ⟨hfree, hadd⟩ := of_check h
            refine (add_cases (of_decide_eq_true hfree) hadd).imp_right fun hmore => ?_
            obtain ⟨rfl, hmore⟩ := hmore
            exact ⟨not_lt.mp hnonneg, hmore⟩
      · next hfd =>
        have hfree : t.get fd = none := by_contra fun hused => hno ⟨not_lt.mp hfd, hused⟩
        refine (add_cases hfree h).imp_right fun hmore => ?_
        obtain ⟨rfl, hmore⟩ := hmore
        exact ⟨not_lt.mp hfd, hmore⟩

theorem createFdExt_cases (h : t.createFdExt fd server handle flags st mem = .ok (n, t')) :
    n < 0 ∧ t'.fdMap = t.fdMap ∧ t'.closed = t.closed ∨ 0 ≤ n ∧ More t n ⟨server, handle, flags⟩ t' := by
  unfold createFdExt at h
  cases hx : t.createFd fd server handle flags mem with
  | error stop =>
    rw [hx] at h
    cases h
  | ok p =>
    obtain ⟨m, u⟩ := p
    have hcreate := createFd_cases hx
    rw [hx] at h
    dsimp only [bind, Except.bind] at h
    obtain ⟨rfl, hmap, hclosed⟩ : n = m ∧ t'.fdMap = u.fdMap ∧ t'.closed = u.closed := by
      split at h
      · cases h
        exact ⟨rfl, rfl, rfl⟩
      · split at h
        · cases h
        · split at h
          · cases h
          · cases h
            exact ⟨rfl, rfl, rfl⟩
    obtain ⟨hneg, rfl⟩ | ⟨hnonneg, hmore⟩ := hcreate
    · exact .inl ⟨hneg, hmap, hclosed⟩
    · refine .inr ⟨hnonneg, hmore.free, fun k => ?_, hclosed.trans hmore.closed⟩
      rw [get, hmap]
      exact hmore.get k

structure Less (t : Table) (fd : ℤ) (t' : Table) : Prop where
  get : ∀ k, t'.get k = if k = fd then none else t.get k
  closed : ∃ b, t.get fd = some b ∧ t'.closed = (b.server, b.handle) :: t.closed

theorem close_cases {m : ℤ} (h : t.close fd m = .ok (n, t')) : t' = t ∨ Less t fd t' := by
  unfold close at h
  cases hb : t.fdbits fd with
  | none =>
    rw [hb] at h
    cases h
    exact .inl rfl
  | some b =>
    rw [hb] at h
    cases (of_check h).2
    refine .inr ⟨fun k => ?_, b, (fdbits_eq_some hb).2, rfl⟩
    split
    · next heq =>
      subst heq
      exact get_eq_none.mpr fun hno => (mem_removed.mp hno).1 rfl
    · next hne => exact get_removed hne

theorem dup3_cases {oldfd newfd : ℤ} {ans : DupAnswers} (h : t.dup3 oldfd newfd flags ans = .ok (n, t')) :
    t' = t ∨ ∃ b u, t.fdbits oldfd = some b ∧ ¬ (oldfd = newfd ∨ flags &&& ~~~O_CLOEXEC ≠ 0) ∧ ans.dup = 0 ∧
      (u = t ∨ Less t newfd u) ∧
      u.createOrClose newfd b.server ans.newHandle (if flags &&& O_CLOEXEC ≠ 0 then SNEKS_IO_FD_CLOEXEC else 0)
        (u.fdext oldfd) ans.mem = .ok (n, t') := by
  rw [dup3] at h
  split at h
  · cases h
    exact .inl rfl
  · next hargs =>
    generalize (if flags &&& O_CLOEXEC ≠ 0 then SNEKS_IO_FD_CLOEXEC else 0) = flags' at h ⊢
    cases hb : t.fdbits oldfd with
    | none =>
      rw [hb] at h
      cases h
      exact .inl rfl
    | some b =>
      rw [hb] at h
      dsimp only at h
      split at h
      · cases h
        exact .inl rfl
      · next hdup =>
        refine .inr ⟨b, ?_⟩
        split at h
        · cases hclose : t.close newfd ans.close with
          | error stop =>
            rw [hclose] at h
            cases h
          | ok p =>
            rw [hclose] at h
            exact ⟨p.2, rfl, hargs, not_not.mp hdup, close_cases hclose, h⟩
        · exact ⟨t, rfl, hargs, not_not.mp hdup, .inl rfl, h⟩

end Table

namespace Process

variable {t t' : Table} {srv srv' : Servers} {fd : ℤ} {key : Key} {bits b : FdBits} {f : Fd}

-- The table and the servers

theorem Agree.unused (h : Agree t srv) (hkey : srv.fds key = none) (hb : t.get fd = some b) :
    (b.server, b.handle) ≠ key := by
  rintro rfl
  obtain ⟨f, hf, -⟩ := h.flag fd b hb
  rw [hkey] at hf
  cases hf

theorem Agree.of_fds (h : Agree t srv) (hfds : ∀ fd b, t.get fd = some b →
    srv'.fds (b.server, b.handle) = srv.fds (b.server, b.handle)) : Agree t srv' :=
  { h with flag := fun fd b hb => by rw [hfds fd b hb]; exact h.flag fd b hb }

theorem Agree.more (h : Agree t srv) (hmore : t.More fd bits t')
    (hf : srv.fds (bits.server, bits.handle) = some f) (hflag : bits.flags &&& FD_CLOEXEC ≠ 0 ↔ f.flags &&& IOD_CLOEXEC ≠ 0)
    (hkey : ∀ k b, t.get k = some b → (b.server, b.handle) ≠ (bits.server, bits.handle))
    (hclosed : (bits.server, bits.handle) ∉ t.closed) : Agree t' srv := by
  have hget {k : ℤ} {b : FdBits} (hb : t'.get k = some b) : k = fd ∧ b = bits ∨ k ≠ fd ∧ t.get k = some b := by
    rw [hmore.get] at hb
    split at hb
    · next heq => exact .inl ⟨heq, (Option.some.inj hb).symm⟩
    · next hne => exact .inr ⟨hne, hb⟩
  refine ⟨fun k b hb => ?_, fun k k' b b' hb hb' hsame => ?_, fun k b hb => ?_⟩
  · obtain ⟨rfl, rfl⟩ | ⟨-, hb⟩ := hget hb
    · exact ⟨f, hf, hflag⟩
    · exact h.flag k b hb
  · obtain ⟨rfl, rfl⟩ | ⟨hne, hb⟩ := hget hb <;> obtain ⟨rfl, rfl⟩ | ⟨hne', hb'⟩ := hget hb'
    · rfl
    · exact absurd hsame.symm (hkey k' b' hb')
    · exact absurd hsame (hkey k b hb)
    · exact h.own k k' b b' hb hb' hsame
  · rw [hmore.closed]
    obtain ⟨rfl, rfl⟩ | ⟨-, hb⟩ := hget hb
    · exact hclosed
    · exact h.gone k b hb

theorem Agree.less (h : Agree t srv) (hless : t.Less fd t') : Agree t' srv := by
  have hget {k : ℤ} {b : FdBits} (hb : t'.get k = some b) : k ≠ fd ∧ t.get k = some b := by
    rw [hless.get] at hb
    split at hb
    · cases hb
    · next hne => exact ⟨hne, hb⟩
  obtain ⟨b, hfd, hclosed⟩ := hless.closed
  refine ⟨fun k b hb => h.flag k b (hget hb).2, fun k k' b b' hb hb' => h.own k k' b b' (hget hb).2 (hget hb').2, ?_⟩
  intro k b' hb'
  obtain ⟨hne, hb'⟩ := hget hb'
  rw [hclosed, List.mem_cons, not_or]
  exact ⟨fun hsame => hne (h.own k fd b' b hb' hfd hsame), h.gone k b' hb'⟩

theorem Agree.forget (h : Agree t srv) (hmap : t'.fdMap = t.fdMap) (hclosed : t'.closed = key :: t.closed)
    (hkey : ∀ k b, t.get k = some b → (b.server, b.handle) ≠ key) : Agree t' srv := by
  have hget (k : ℤ) : t'.get k = t.get k := congrArg (AList.lookup k) hmap
  refine ⟨fun fd b hb => h.flag fd b (hget fd ▸ hb), fun fd fd' b b' hb hb' => ?_, fun fd b hb => ?_⟩
  · exact h.own fd fd' b b' (hget fd ▸ hb) (hget fd' ▸ hb')
  · rw [hget] at hb
    rw [hclosed, List.mem_cons, not_or]
    exact ⟨hkey fd b hb, h.gone fd b hb⟩

theorem Agree.createOrClose {server handle flags : Word} {st : Option Stat} {mem : Table.Memory} {n : ℤ}
    (h : Agree t srv) (hf : srv.fds (server, handle) = some f)
    (hflag : flags &&& FD_CLOEXEC ≠ 0 ↔ f.flags &&& IOD_CLOEXEC ≠ 0)
    (hkey : ∀ k b, t.get k = some b → (b.server, b.handle) ≠ (server, handle)) (hclosed : (server, handle) ∉ t.closed)
    (hx : t.createOrClose fd server handle flags st mem = .ok (n, t')) : Agree t' srv := by
  unfold Table.createOrClose at hx
  cases hu : t.createFdExt fd server handle flags st mem with
  | error stop =>
    rw [hu] at hx
    cases hx
  | ok p =>
    obtain ⟨m, u⟩ := p
    have hcreate := Table.createFdExt_cases hu
    rw [hu] at hx
    change (if m < 0 then _ else _) = _ at hx
    split at hx
    · next hneg =>
      cases hx
      obtain ⟨-, hmap, hsame⟩ | ⟨hnonneg, -⟩ := hcreate
      · exact h.forget hmap (congrArg _ hsame) hkey
      · omega
    · next hnonneg =>
      cases hx
      obtain ⟨hneg, -⟩ | ⟨-, hmore⟩ := hcreate
      · omega
      · exact h.more hmore hf hflag hkey hclosed

theorem fds_closeAll (closed : List Key) (close : Key → ℤ) (srv : Servers) (hkey : key ∉ closed) :
    (closed.foldr (fun key srv => if close key = 0 then srv.closeFd key else srv) srv).fds key = srv.fds key := by
  induction closed with
  | nil => rfl
  | cons k rest ih =>
    obtain ⟨hne, hrest⟩ := not_or.mp (List.mem_cons.not.mp hkey)
    rw [List.foldr_cons]
    split
    · exact (Function.update_of_ne hne _ _).trans (ih hrest)
    · exact ih hrest

structure Settled (w : Process) : Prop where
  agree : Agree w.table w.servers
  closed : w.table.closed = []

theorem Agree.finish {r : Except Stop (ℤ × Table)} {close : Key → ℤ} {w : Process}
    (h : ∀ n t, r = .ok (n, t) → Agree t srv) (hw : finish r srv close = some w) : Settled w := by
  obtain ⟨⟨n, t⟩, hr, rfl⟩ := Option.map_eq_some_iff.mp hw
  match r, hr with
  | .ok _, rfl =>
    have hagree := h n t rfl
    refine ⟨⟨fun fd b hb => ?_, hagree.own, fun _ _ _ => List.not_mem_nil⟩, rfl⟩
    obtain ⟨f, hf, hflag⟩ := hagree.flag fd b hb
    exact ⟨f, (fds_closeAll t.closed close srv (hagree.gone fd b hb)).trans hf, hflag⟩

end Process

-- The bit

theorem and_fd_cloexec (x : Word) : x &&& FD_CLOEXEC ≠ 0 ↔ x.getLsbD 0 = true := by
  have hbit : FD_CLOEXEC = BitVec.twoPow 32 0 := by decide
  rw [hbit, BitVec.and_twoPow]
  cases x.getLsbD 0 <;> decide

theorem and_iod_cloexec (x : Word) : x &&& IOD_CLOEXEC ≠ 0 ↔ x.getLsbD 16 = true := by
  have hbit : IOD_CLOEXEC = BitVec.twoPow 32 16 := by decide
  rw [hbit, BitVec.and_twoPow]
  cases x.getLsbD 16 <;> decide

namespace Servers

variable {srv srv' : Servers} {key : Key} {file : ℕ} {flags : Word} {n : ℤ}

theorem ioAddFd_zero (h : srv.ioAddFd key file flags = (0, srv')) : srv.fds key = none ∧
    srv' = { srv with fds := Function.update srv.fds key (some ⟨file, flags⟩) } := by
  unfold ioAddFd at h
  split at h
  · cases h
  · split at h
    · cases h
    · next hnone =>
      cases h
      exact ⟨not_not.mp hnone, rfl⟩

theorem ioDup_zero {newHandle : Word} (h : srv.ioDup key flags newHandle = (0, srv')) :
    srv.fds (key.1, newHandle) = none ∧ ∃ f, srv' = { srv with fds := Function.update srv.fds (key.1, newHandle) (some f) } ∧
      (flags &&& FD_CLOEXEC ≠ 0 ↔ f.flags &&& IOD_CLOEXEC ≠ 0) := by
  unfold ioDup at h
  split at h
  · cases h
  · cases hf : srv.fds key with
    | none =>
      rw [hf] at h
      cases h
    | some f =>
      rw [hf] at h
      obtain ⟨hnone, rfl⟩ := ioAddFd_zero h
      refine ⟨hnone, _, rfl, ?_⟩
      have hbit : (IOD_PRIVATE_MASK ||| IOD_CLOEXEC).getLsbD 16 = true := by decide
      have hset : IOD_CLOEXEC.getLsbD 16 = true := by decide
      show flags &&& FD_CLOEXEC ≠ 0 ↔ (if flags &&& FD_CLOEXEC ≠ 0 then _ else _) &&& IOD_CLOEXEC ≠ 0
      split
      · next hyes => exact iff_of_true hyes ((and_iod_cloexec _).mpr (by rw [BitVec.getLsbD_or, hset, Bool.or_true]))
      · next hno =>
        refine iff_of_false hno fun hc => ?_
        have hclear := (and_iod_cloexec _).mp hc
        rw [BitVec.getLsbD_and, BitVec.getLsbD_not, hbit, Bool.not_true, Bool.and_false, Bool.and_false] at hclear
        cases hclear

theorem ioAddFd_cases (h : srv.ioAddFd key file flags = (n, srv')) : srv' = srv ∨ n = 0 := by
  unfold ioAddFd at h
  split at h
  · cases h
    exact .inl rfl
  · split at h
    · cases h
      exact .inl rfl
    · cases h
      exact .inr rfl

theorem ioDup_cases {newHandle : Word} (h : srv.ioDup key flags newHandle = (n, srv')) : srv' = srv ∨ n = 0 := by
  unfold ioDup at h
  split at h
  · cases h
    exact .inl rfl
  · cases hf : srv.fds key with
    | none =>
      rw [hf] at h
      cases h
      exact .inl rfl
    | some f =>
      rw [hf] at h
      exact ioAddFd_cases h

theorem setHandleFlags_zero {orMask andMask old : Word} (h : srv.setHandleFlags key orMask andMask = (0, old, srv')) :
    ∃ f f', srv.fds key = some f ∧ srv' = { srv with fds := Function.update srv.fds key (some f') } ∧
      old.getLsbD 0 = f.flags.getLsbD 16 ∧
      f'.flags.getLsbD 16 = (f.flags.getLsbD 16 && andMask.getLsbD 0 || orMask.getLsbD 0) := by
  unfold setHandleFlags at h
  cases hf : srv.fds key with
  | none =>
    rw [hf] at h
    cases h
  | some f =>
    rw [hf] at h
    cases h
    have hset : IOD_CLOEXEC.getLsbD 16 = true := by decide
    have hvalid : IOD_VALID_MASK.getLsbD 16 = true := by decide
    have hone : SNEKS_IO_FD_CLOEXEC.getLsbD 0 = true := by decide
    refine ⟨f, _, rfl, rfl, ?_, ?_⟩
    · rw [BitVec.getLsbD_ushiftRight, BitVec.getLsbD_and, hset, Bool.and_true]
    · simp only [BitVec.getLsbD_or, BitVec.getLsbD_and, BitVec.getLsbD_not, BitVec.getLsbD_shiftLeft,
        BitVec.getLsbD_ushiftRight, hset, hvalid, hone, Nat.sub_self, Nat.add_zero]
      cases f.flags.getLsbD 16 <;> cases andMask.getLsbD 0 <;> cases orMask.getLsbD 0 <;> rfl

theorem setFileFlags_zero {orMask andMask old : Word} (h : srv.setFileFlags key orMask andMask = (0, old, srv')) :
    srv'.fds = srv.fds ∧ old.getLsbD 0 = false := by
  unfold setFileFlags at h
  cases hf : srv.fds key with
  | none =>
    rw [hf] at h
    cases h
  | some f =>
    rw [hf] at h
    cases h
    have hvalid : IOF_VALID_MASK.getLsbD 0 = false := by decide
    exact ⟨rfl, by rw [BitVec.getLsbD_and, hvalid, Bool.and_false]⟩

end Servers

namespace Process

variable {w w' : Process} {fd : ℤ} {b : FdBits}

theorem and_fd_cloexec_eq {x y : Word} : x &&& FD_CLOEXEC = y &&& FD_CLOEXEC ↔ x.getLsbD 0 = y.getLsbD 0 := by
  have hbit : FD_CLOEXEC = BitVec.twoPow 32 0 := by decide
  rw [hbit, BitVec.and_twoPow, BitVec.and_twoPow]
  cases x.getLsbD 0 <;> cases y.getLsbD 0 <;> decide

theorem Settled.setFlags {srv : Servers} {flags : Word} {f' : Fd} (h : Settled w) (hget : w.table.get fd = some b)
    (hfds : srv.fds = Function.update w.servers.fds (b.server, b.handle) (some f'))
    (hflag : flags.getLsbD 0 = f'.flags.getLsbD 16) : Settled ⟨w.setFlags fd b flags, srv⟩ := by
  have hset (k : ℤ) : (w.setFlags fd b flags).get k = if k = fd then some { b with flags } else w.table.get k := by
    split
    · next heq =>
      subst heq
      exact AList.lookup_insert _
    · next hne => exact AList.lookup_insert_ne hne
  have hcases {k : ℤ} {b' : FdBits} (hb : (w.setFlags fd b flags).get k = some b') :
      k = fd ∧ b' = { b with flags } ∨ k ≠ fd ∧ w.table.get k = some b' := by
    rw [hset] at hb
    split at hb
    · next heq => exact .inl ⟨heq, (Option.some.inj hb).symm⟩
    · next hne => exact .inr ⟨hne, hb⟩
  -- under the old word every descriptor has the handle that it has now
  have hold {k : ℤ} {b' : FdBits} (hb : (w.setFlags fd b flags).get k = some b') :
      ∃ b'', w.table.get k = some b'' ∧ (b''.server, b''.handle) = (b'.server, b'.handle) := by
    obtain ⟨rfl, rfl⟩ | ⟨-, hb⟩ := hcases hb
    · exact ⟨b, hget, rfl⟩
    · exact ⟨b', hb, rfl⟩
  refine ⟨⟨fun k b' hb => ?_, fun k k' b₁ b₂ hb₁ hb₂ hsame => ?_, fun k b' hb => ?_⟩, h.closed⟩
  · obtain ⟨rfl, rfl⟩ | ⟨hne, hb⟩ := hcases hb
    · refine ⟨f', by rw [hfds]; exact Function.update_self _ _ _, ?_⟩
      rw [and_fd_cloexec, and_iod_cloexec, hflag]
    · obtain ⟨f, hf, hsame⟩ := h.agree.flag k b' hb
      refine ⟨f, ?_, hsame⟩
      rw [hfds, Function.update_of_ne fun heq => hne (h.agree.own k fd b' b hb hget heq)]
      exact hf
  · obtain ⟨b₁', hb₁, hkey₁⟩ := hold hb₁
    obtain ⟨b₂', hb₂, hkey₂⟩ := hold hb₂
    exact h.agree.own k k' b₁' b₂' hb₁ hb₂ (hkey₁.trans (hsame.trans hkey₂.symm))
  · show _ ∉ w.table.closed
    rw [h.closed]
    exact List.not_mem_nil

theorem Agree.bit {t : Table} {srv : Servers} (h : Agree t srv) (hget : t.get fd = some b) :
    ∃ f, srv.fds (b.server, b.handle) = some f ∧ b.flags.getLsbD 0 = f.flags.getLsbD 16 := by
  obtain ⟨f, hf, hflag⟩ := h.flag fd b hget
  rw [and_fd_cloexec, and_iod_cloexec] at hflag
  exact ⟨f, hf, Bool.eq_iff_iff.mpr hflag⟩

theorem settled_ite {n : ℤ} (h : Settled w) (hzero : n = 0 → Settled w') : Settled (if n = 0 then w' else w) := by
  split
  · next hn => exact hzero hn
  · exact h

theorem fcntl_settled {cmd : Cmd} {val : Word} {ipc : ℤ} (h : Settled w) (hok : w.Matches (.fcntl cmd fd val ipc))
    (hw : w.fcntl cmd fd val ipc = some w') : Settled w' := by
  unfold fcntl at hw
  cases hb : w.table.fdbits fd with
  | none =>
    rw [hb] at hw
    cases hw
    exact h
  | some b =>
    rw [hb] at hw
    dsimp only at hw
    split at hw
    · cases hw
      exact h
    · next hipc =>
      have hget := (Table.fdbits_eq_some hb).2
      obtain ⟨f, hf, hbit⟩ := h.agree.bit hget
      have hsame : w.servers.fds = Function.update w.servers.fds (b.server, b.handle) (some f) := by
        rw [← hf, Function.update_eq_self]
      cases cmd with
      | F_GETFD =>
        rcases hx : w.servers.setHandleFlags (b.server, b.handle) 0 (~~~0) with ⟨n, old, srv⟩
        simp only [Cmd.fn, hx, Option.some.injEq] at hw
        subst hw
        refine settled_ite h fun hn => ?_
        obtain ⟨f', f'', hf', rfl, hold, hnew⟩ := Servers.setHandleFlags_zero (hn ▸ hx)
        obtain rfl : f = f' := Option.some.inj (hf.symm.trans hf')
        refine h.setFlags hget rfl (hold.trans ?_)
        rw [hnew]
        simp
      | F_SETFD =>
        rcases hx : w.servers.setHandleFlags (b.server, b.handle) val 0 with ⟨n, old, srv⟩
        simp only [Cmd.fn, hx, Option.some.injEq] at hw
        subst hw
        refine settled_ite h fun hn => ?_
        obtain ⟨f', f'', hf', rfl, -, hnew⟩ := Servers.setHandleFlags_zero (hn ▸ hx)
        refine h.setFlags hget rfl ?_
        rw [hnew]
        simp
      | F_GETFL =>
        rcases hx : w.servers.setFileFlags (b.server, b.handle) 0 (~~~0) with ⟨n, old, srv⟩
        simp only [Cmd.fn, hx, Option.some.injEq] at hw
        subst hw
        refine settled_ite h fun hn => ?_
        obtain ⟨hfds, hold⟩ := Servers.setFileFlags_zero (hn ▸ hx)
        refine h.setFlags hget (hfds.trans hsame) ?_
        have hclear : b.flags &&& FD_CLOEXEC = 0 &&& FD_CLOEXEC := hok (not_not.mp hipc) b hb
        rw [hold, ← hbit, and_fd_cloexec_eq.mp hclear]
        rfl
      | F_SETFL =>
        rcases hx : w.servers.setFileFlags (b.server, b.handle) val 0 with ⟨n, old, srv⟩
        simp only [Cmd.fn, hx, Option.some.injEq] at hw
        subst hw
        refine settled_ite h fun hn => ?_
        obtain ⟨hfds, -⟩ := Servers.setFileFlags_zero (hn ▸ hx)
        refine h.setFlags hget (hfds.trans hsame) ?_
        rw [← hbit, and_fd_cloexec_eq.mp (hok (not_not.mp hipc) b hb)]

theorem Agree.of_update {t : Table} {srv srv' : Servers} {key : Key} {f : Fd} (h : Agree t srv)
    (hnone : srv.fds key = none) (hfds : srv'.fds = Function.update srv.fds key (some f)) : Agree t srv' :=
  h.of_fds fun _ _ hb => by rw [hfds, Function.update_of_ne (h.unused hnone hb)]

theorem askDup_cases {oldfd newfd n : ℤ} {flags : Word} {ans : Answers} {srv : Servers}
    (h : w.askDup oldfd newfd flags ans = (n, srv)) : srv = w.servers ∨ ∃ b, w.table.fdbits oldfd = some b ∧ n = 0 ∧
      w.servers.ioDup (b.server, b.handle) (if flags &&& O_CLOEXEC ≠ 0 then SNEKS_IO_FD_CLOEXEC else 0)
        ans.newHandle = (0, srv) := by
  unfold askDup at h
  cases hb : w.table.fdbits oldfd with
  | none =>
    rw [hb] at h
    cases h
    exact .inl rfl
  | some b =>
    rw [hb] at h
    dsimp only at h
    split at h
    · cases h
      exact .inl rfl
    · split at h
      · cases h
        exact .inl rfl
      · obtain rfl | rfl := Servers.ioDup_cases h
        · exact .inl rfl
        · exact .inr ⟨b, rfl, rfl, h⟩

theorem askDup_zero {oldfd newfd : ℤ} {flags : Word} {ans : Answers} {srv : Servers}
    (hb : w.table.fdbits oldfd = some b) (hargs : ¬ (oldfd = newfd ∨ flags &&& ~~~O_CLOEXEC ≠ 0))
    (h : w.askDup oldfd newfd flags ans = (0, srv)) :
    w.servers.ioDup (b.server, b.handle) (if flags &&& O_CLOEXEC ≠ 0 then SNEKS_IO_FD_CLOEXEC else 0)
      ans.newHandle = (0, srv) := by
  unfold askDup at h
  rw [hb] at h
  dsimp only at h
  rw [if_neg hargs] at h
  split at h
  · next hipc => exact absurd (Prod.mk.inj h).1 hipc
  · exact h

theorem dup3_settled {oldfd newfd : ℤ} {flags : Word} {ans : Answers} (h : Settled w)
    (hw : w.dup3 oldfd newfd flags ans = some w') : Settled w' := by
  unfold dup3 at hw
  rcases hask : w.askDup oldfd newfd flags ans with ⟨n, srv⟩
  rw [hask] at hw
  refine Agree.finish (fun m t hx => ?_) hw
  obtain rfl | ⟨b, u, hb, hargs, rfl, hu, hcreate⟩ := Table.dup3_cases hx
  · obtain rfl | ⟨b, -, -, hdup⟩ := askDup_cases hask
    · exact h.agree
    · obtain ⟨hnone, f, rfl, -⟩ := Servers.ioDup_zero hdup
      exact h.agree.of_update hnone rfl
  · have hdup := askDup_zero hb hargs hask
    obtain ⟨hnone, f, rfl, hflag⟩ := Servers.ioDup_zero hdup
    have hagree : Agree u w.servers := by
      obtain rfl | hless := hu
      · exact h.agree
      · exact h.agree.less hless
    have hclosed : (b.server, ans.newHandle) ∉ u.closed := by
      obtain rfl | hless := hu
      · rw [h.closed]
        exact List.not_mem_nil
      · obtain ⟨b', hb', hclosed⟩ := hless.closed
        rw [hclosed, h.closed, List.mem_singleton]
        exact (h.agree.unused hnone hb').symm
    exact (hagree.of_update hnone rfl).createOrClose (Function.update_self _ _ _) hflag
      (fun k b' hb' => hagree.unused hnone hb') hclosed hcreate

theorem openat_settled {server fileFlags flags : Word} {file : ℕ} {st : Option Stat} {ans : Answers} (h : Settled w)
    (hw : w.openat server file fileFlags flags st ans = some w') : Settled w' := by
  unfold openat at hw
  split at hw
  · cases hw
    exact h
  · dsimp only at hw
    generalize hsrv : ({ w.servers with fileFlags := _ } : Servers) = srv₀ at hw
    rcases hadd : srv₀.ioAddFd (server, ans.newHandle) file (if flags &&& O_CLOEXEC ≠ 0 then IOD_CLOEXEC else 0)
      with ⟨n, srv⟩
    rw [hadd] at hw
    dsimp only at hw
    split at hw
    · cases hw
      exact h
    · next hn =>
      obtain rfl := not_not.mp hn
      obtain ⟨hnone, rfl⟩ := Servers.ioAddFd_zero hadd
      have hagree : Agree w.table srv₀ := hsrv ▸ h.agree.of_fds fun _ _ _ => rfl
      refine Agree.finish (fun m t hx => ?_) hw
      have hclosed : (server, ans.newHandle) ∉ w.table.closed := by
        rw [h.closed]
        exact List.not_mem_nil
      refine (hagree.of_update hnone rfl).createOrClose (Function.update_self _ _ _) ?_
        (fun k b' hb' => hagree.unused hnone hb') hclosed hx
      split <;> (dsimp only; decide)

theorem inherit_settled {server handle : Word} {file : ℕ} {mem : Table.Memory} (h : Settled w)
    (hw : w.inherit fd server handle file mem = some w') : Settled w' := by
  unfold inherit at hw
  rcases hadd : w.servers.ioAddFd (server, handle) file 0 with ⟨n, srv⟩
  rw [hadd] at hw
  dsimp only at hw
  split at hw
  · cases hw
  · next hn =>
    obtain rfl := not_not.mp hn
    obtain ⟨hnone, rfl⟩ := Servers.ioAddFd_zero hadd
    cases hx : w.table.createFd fd server handle 0 mem with
    | error stop =>
      rw [hx] at hw
      cases hw
    | ok p =>
      obtain ⟨m, t⟩ := p
      rw [hx] at hw
      dsimp only at hw
      split at hw
      · cases hw
      · next hnonneg =>
        cases hw
        obtain ⟨hneg, -⟩ | ⟨-, hmore⟩ := Table.createFd_cases hx
        · omega
        · refine ⟨(h.agree.of_update hnone rfl).more hmore (Function.update_self _ _ _) (by dsimp only; decide)
            (fun k b' hb' => h.agree.unused hnone hb') ?_, hmore.closed.trans h.closed⟩
          rw [h.closed]
          exact List.not_mem_nil

theorem dup2_settled {oldfd newfd : ℤ} {ans : Answers} (h : Settled w) (hw : w.dup2 oldfd newfd ans = some w') :
    Settled w' := by
  unfold dup2 at hw
  split at hw
  · cases hw
    exact h
  · exact dup3_settled h hw

theorem fcntlDupfd_settled {low : ℤ} {ans : Answers} (h : Settled w) (hw : w.fcntlDupfd fd low ans = some w') :
    Settled w' := by
  unfold fcntlDupfd at hw
  split at hw
  · cases hw
    exact h
  · split at hw
    · cases hw
      exact h
    · split at hw
      · cases hw
      · split at hw
        · cases hw
          exact h
        · exact dup2_settled h hw

theorem exec_settled {call : ProcessCall} (h : Settled w) (hok : w.Matches call) (hw : w.exec call = some w') :
    Settled w' := by
  cases call with
  | inherit fd server handle file mem => exact inherit_settled h hw
  | openat server file fileFlags flags st ans => exact openat_settled h hw
  | dup2 oldfd newfd ans => exact dup2_settled h hw
  | dup3 oldfd newfd flags ans => exact dup3_settled h hw
  | dupfd fd low ans => exact fcntlDupfd_settled h hw
  | fcntl cmd fd val ipc => exact fcntl_settled h hok hw
  | close fd ans =>
    refine Agree.finish (fun n t hx => ?_) hw
    obtain rfl | hless := Table.close_cases hx
    · exact h.agree
    · exact h.agree.less hless
  | others server file fileFlags =>
    cases hw
    exact ⟨h.agree.of_fds fun _ _ _ => rfl, h.closed⟩

theorem init_settled : Settled init where
  agree :=
    have hget (fd : ℤ) (b : FdBits) : init.table.get fd ≠ some b := fun h => by cases h
    ⟨fun fd b h => absurd h (hget fd b), fun fd _ b _ h => absurd h (hget fd b),
      fun fd b h => absurd h (hget fd b)⟩
  closed := rfl

theorem Settled.execAgrees (h : Settled w) : w.ExecAgrees := by
  intro cwdFd fd b hget
  obtain ⟨f, hf, hflag⟩ := h.agree.flag fd b hget
  have hcollect : Table.execEntry cwdFd fd b ∈ w.table.collectExecFds cwdFd ↔ fd ∈ w.table.execFds := by
    rw [Table.collectExecFds, List.mem_filterMap]
    refine ⟨fun ⟨k, hk, hentry⟩ => ?_, fun hfd => ⟨fd, hfd, by rw [hget]; rfl⟩⟩
    obtain ⟨b', hb', hsame⟩ := Option.map_eq_some_iff.mp hentry
    have hkey : (b'.server, b'.handle) = (b.server, b.handle) := by
      obtain ⟨hserver, hrest⟩ := Prod.mk.inj hsame
      exact Prod.ext hserver (Prod.mk.inj hrest).1
    rwa [← h.agree.own k fd b' b hb' hget hkey]
  have hkey : fd ∈ w.table.fdMap.keys :=
    AList.mem_keys.mp (AList.lookup_isSome.mp (Option.isSome_iff_exists.mpr ⟨b, hget⟩))
  have hlist : fd ∈ w.table.execFds ↔ b.flags &&& FD_CLOEXEC = 0 := by
    rw [Table.execFds, List.mem_filter, List.mem_mergeSort, hget, Option.any_some, decide_eq_true_eq]
    exact and_iff_right hkey
  have hserver : w.servers.lifecycleExec.fds (b.server, b.handle) ≠ none ↔ f.flags &&& IOD_CLOEXEC = 0 := by
    simp [Servers.lifecycleExec, hf]
  rw [hcollect, hlist, hserver]
  exact not_iff_not.mp hflag

/-- **Close-on-exec**: after calls that leave the bit alone where the runtime takes a file's flags
for it, the bit of each open descriptor is the one of its handle, and exec is passed the
descriptors whose handles stay open. -/
theorem cloexec_agrees {calls : List ProcessCall} (hrun : Run exec Matches init calls w) :
    Agree w.table w.servers ∧ w.ExecAgrees := by
  have hsettled : Settled w :=
    hrun.invariant (I := Settled) (fun _ _ _ hok hw h => exec_settled h hok hw) init_settled
  exact ⟨hsettled.agree, hsettled.execAgrees⟩

def openCloexec : ProcessCall :=
  .openat 0x20001 5 0 O_CLOEXEC none ⟨0, 7, fun _ => 0, Table.roomyMemory⟩

def opened : Process := (init.exec openCloexec).getD init

theorem exec_openCloexec : init.exec openCloexec = some opened := by
  obtain ⟨w, hw⟩ := Option.isSome_iff_exists.mp (by decide +kernel : (init.exec openCloexec).isSome = true)
  rw [opened, hw]
  rfl

theorem cloexec_agrees_opened : Agree opened.table opened.servers ∧ opened.ExecAgrees :=
  cloexec_agrees (.cons (a := openCloexec) trivial exec_openCloexec (.nil _))

/-- `F_GETFL` makes the runtime forget the bit. -/
theorem getfl_forgets : ¬ ∀ calls w, Run exec free init calls w → Agree w.table w.servers ∧ w.ExecAgrees := by
  intro h
  obtain ⟨w, hrun, hw⟩ := Run.exists_of_evalRun exec free init [openCloexec, .fcntl .F_GETFL 0 0 0]
    (fun w => (w.table.get 0, (w.servers.fds (0x20001, 7)).map Fd.flags)) (some ⟨0x20001, 7, 0⟩, some IOD_CLOEXEC)
    (by decide +kernel)
  obtain ⟨hget, hfds⟩ := Prod.mk.inj hw
  obtain ⟨f, hf, hflag⟩ := (h _ w hrun).1.flag 0 _ hget
  rw [hf, Option.map_some, Option.some.injEq] at hfds
  rw [hfds] at hflag
  exact absurd hflag (by decide)

end Process

end Sneks.Crt
