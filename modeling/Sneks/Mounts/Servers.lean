import Sneks.Io.Handles.Defs
import Sneks.Squashfs.Resolve

/-!
# Filesystem servers

Each filesystem is a server of its own. A path that meets a mount point goes on in another one, with a
handle there or at its root, as `otherfs_hash` of `sys/fs.squashfs/squashfs.c` says. The `..` of a
filesystem's root is such a mount point: it leads to a handle on the parent directory.

The servers run the IO library, of which this uses the model of handles. What a server reads of its image
and has of it in its hashes is a `Tree`, and resolution leaves it as it is. The text that
`propagate_resolve` sends of its parts is a parameter of the system.
-/

namespace Sneks.Mounts
open Io Squashfs

def tidOf (raw : ℕ) : Tid := ⟨raw / 2 ^ 14, raw % 2 ^ 14⟩

structure Otherfs where
  ino : ℕ
  dest : OtherFs

/-- A filesystem server. `fileIno` is the inode that a file was opened for. -/
structure Server where
  io : Handles.State
  otherfs : List Otherfs
  rootIno : ℕ
  fileIno : ℕ → ℕ
  tree : Squashfs.Tree Unit

/-- `struct mount_info`, its `subs` by their servers. -/
structure MountInfo where
  fs : ℕ
  super : ℕ
  superJoin : ℕ
  subs : List ℕ
  deriving DecidableEq

/-- Servers by their thread ids, and root's `mountinfo_fs`. -/
structure System where
  servers : ℕ → Option Server
  rootfs : ℕ
  mounts : List MountInfo
  /-- What `propagate_resolve` sends of a symlink's text or a path, what is left after it, and the stack. -/
  sent : Name → Option Name → List Name → Option Name

/-- An error of `Path/resolve`, a server's own or one of the IPC. -/
inductive PathError
  | own (e : ResolveError)
  | EBADF | ESRCH | ENAMETOOLONG | ipc
  deriving DecidableEq

structure Target where
  server : ℕ
  ino : ℕ
  type : DType
  deriving DecidableEq

def Server.busy (s : Server) : Bool := (List.range' 1 Handles.maxFd).any fun id => (s.io.fd id).owner.isSome

/-- `sync_confirm`, with which every call starts. -/
def Server.sync (s : Server) : Option Server := s.io.syncConfirm.map fun io => { s with io }

def Server.view (s : Server) : Squashfs.Tree Unit :=
  { s.tree with otherfs := fun ino _ => (s.otherfs.find? fun oth => oth.ino == ino).map (·.dest) }

def Server.start (s : Server) (pid dirfd : ℕ) : Except PathError ℕ :=
  if dirfd = 0 then .ok s.rootIno
  else
    match s.io.getFd pid dirfd with
    | none => .error .ipc
    | some none => .error .EBADF
    | some (some id) => .ok (s.fileIno (s.io.fd id).file)

namespace System

variable (sys : System)

def server (fs : ℕ) : Option Server := (sys.servers fs).bind Server.sync

def setServer (fs : ℕ) (s : Option Server) : System := { sys with servers := Function.update sys.servers fs s }

/-- `squashfs_resolve` at a server for process `pid`, and on through others: in each at most `turns` turns,
    and at most as many servers as the first number says. -/
def resolve (turns : ℕ) (flags : ResolveFlags) : ℕ → ℕ → ℕ → ℕ → Name → Option (Except PathError Target)
  | 0, _, _, _, _ => none
  | n + 1, fs, pid, dirfd, path =>
    match sys.server fs with
    | none => some (.error .ipc)
    | some s =>
      match s.start pid dirfd with
      | .error e => some (.error e)
      | .ok dirIno =>
        match Squashfs.resolve s.view flags turns dirIno path () with
        | none => none
        | some (.ok ino type, _) => some (.ok ⟨fs, ino, type⟩)
        | some (.error e, _) => some (.error (.own e))
        | some (.fault, _) => some (.error .ipc)
        | some (.propagate dest link rem stack, _) =>
          let dest := dest.getD ⟨sys.rootfs, 0⟩
          match sys.sent link rem stack with
          | none => some (.error .ENAMETOOLONG)
          | some text =>
            if (sys.server dest.tid).isNone then some (.error .ESRCH)
            else resolve turns flags n dest.tid (pidof (tidOf fs)) dest.dir text

end System

-- Confirming twice

section

variable {s t : Handles.State} {id : ℕ} {destroyFile : Bool}

theorem removeFromClient_rb (h : s.removeFromClient id = some t) : t.rb = s.rb := by
  unfold Handles.State.removeFromClient at h
  dsimp only at h
  split at h
  · cases h
  · split at h
    · cases h
    · split at h
      · cases h
      · split at h
        · cases h
          rfl
        · cases h
          rfl

theorem removeFromFile_rb (h : s.removeFromFile id = some t) : t.rb = s.rb := by
  unfold Handles.State.removeFromFile at h
  dsimp only at h
  split at h
  · cases h
  · split at h
    · cases h
    · split at h
      · cases h
        rfl
      · cases h
        rfl

theorem fdDtor_rb (h : s.fdDtor id destroyFile = some t) : t.rb = s.rb := by
  unfold Handles.State.fdDtor at h
  obtain ⟨pid, -, h⟩ := Option.bind_eq_some_iff.mp h
  obtain ⟨c, -, h⟩ := Option.bind_eq_some_iff.mp h
  split at h
  · cases h
  · obtain ⟨u, hu, h⟩ := Option.bind_eq_some_iff.mp h
    obtain ⟨v, hv, h⟩ := Option.bind_eq_some_iff.mp h
    have hclosed : ∀ file, (v.closeFile file destroyFile).rb = v.rb := by
      intro file
      rw [Handles.State.closeFile]
      split
      · rfl
      · rfl
    rw [← removeFromClient_rb hu, ← removeFromFile_rb hv, ← hclosed (s.fd id).file, ← Option.some.inj h]
    split
    · rfl
    · rfl

theorem lateCloseFd_rb (h : s.lateCloseFd id = some t) : t.rb = s.rb := by
  unfold Handles.State.lateCloseFd at h
  dsimp only at h
  split at h
  · cases h
  · split at h
    · split at h
      · cases h
      · split at h
        · exact (fdDtor_rb h).trans rfl
        · cases h
    · exact fdDtor_rb h

theorem syncConfirm_syncConfirm (h : s.syncConfirm = some t) : t.syncConfirm = some t := by
  have hnone : t.rb.confirm = none := by
    unfold Handles.State.syncConfirm at h
    split at h
    · next heq =>
      rw [← Option.some.inj h]
      exact heq
    · rw [lateCloseFd_rb h]
  unfold Handles.State.syncConfirm
  rw [hnone]

end

theorem Server.sync_sync {s t : Server} (h : s.sync = some t) : t.sync = some t := by
  obtain ⟨io, hio, rfl⟩ := Option.map_eq_some_iff.mp h
  rw [Server.sync, syncConfirm_syncConfirm hio]
  rfl

-- What resolution depends on

variable {sys sys' : System} {fs : ℕ} {s : Option Server}

theorem server_setServer_same : (sys.setServer fs s).server fs = s.bind Server.sync := by
  show (Function.update sys.servers fs s fs).bind Server.sync = _
  rw [Function.update_self]

theorem server_setServer_of_ne {t : ℕ} (h : t ≠ fs) : (sys.setServer fs s).server t = sys.server t := by
  show (Function.update sys.servers fs s t).bind Server.sync = _
  rw [Function.update_of_ne h]
  rfl

theorem resolve_congr (hserver : sys'.server = sys.server) (hroot : sys'.rootfs = sys.rootfs) (hsent : sys'.sent = sys.sent)
    (turns : ℕ) (flags : ResolveFlags) (n t pid dirfd : ℕ) (path : Name) :
    sys'.resolve turns flags n t pid dirfd path = sys.resolve turns flags n t pid dirfd path := by
  induction n generalizing t pid dirfd path with
  | zero => rfl
  | succ n ih =>
    unfold System.resolve
    rw [hserver, hroot, hsent]
    simp only [ih]

end Sneks.Mounts
