import Sneks.Mounts.Servers

/-!
# Unmounting

`do_umount` and `rm_mount_info` of `root/filsys.c`, and the `squashfs_shutdown` that the former calls at
the server. The server closes its handle on the parent directory before it looks whether it is in use,
and root looks for filesystems that are mounted below after the server has gone.
-/

namespace Sneks.Mounts
open Io Squashfs

inductive UmountError
  | EBUSY | EINVAL | ENOTDIR | EIO
  | path (e : PathError)
  deriving DecidableEq

def UmountError.ofPath : PathError → UmountError
  | .ipc => UmountError.EIO
  | e => .path e

/-- What `do_umount` meets with: how far paths are followed, if the poke thread takes `io_quit`'s message,
    if `wait_until_gone` returns zero, and what has happened between two polls. -/
structure Env where
  turns : ℕ
  hops : ℕ
  poked : Bool
  gone : Bool
  hear : System → System

namespace System

variable (sys : System) (env : Env)

/-- `__io_close` by server `fs`, which gets an error from itself. The error is only logged. -/
def ioClose (fs : ℕ) (dest : OtherFs) : System :=
  if dest.tid = fs then sys
  else
    match sys.server dest.tid with
    | none => sys
    | some s => sys.setServer dest.tid ((s.io.close (tidOf fs) dest.dir).map fun io => { s with io := io.1 })

def shutdown (poked : Bool) (fs : ℕ) : System × Except UmountError Unit :=
  match sys.server fs with
  | none => (sys, .error UmountError.EIO)
  | some s =>
    let sys := (s.otherfs.filter fun oth => oth.dest.dir ≠ 0).foldl (fun sys oth => sys.ioClose fs oth.dest) sys
    let s := { s with otherfs := s.otherfs.filter fun oth => oth.dest.dir = 0 }
    if s.busy then (sys.setServer fs (some s), .error .EBUSY)
    else (sys.setServer fs (if poked then none else some s), .ok ())

def getMountInfo (pid : ℕ) : Option MountInfo := sys.mounts.find? fun mi => pidof (tidOf mi.fs) == pid

def rmMountInfo (fs : ℕ) : Except UmountError System :=
  match sys.getMountInfo (pidof (tidOf fs)) with
  | none => .ok sys
  | some mi =>
    if mi.subs ≠ [] then .error .EBUSY
    else .ok { sys with mounts := (sys.mounts.erase mi).map fun m => { m with subs := m.subs.erase mi.fs } }

/-- `__path_resolve` from root, at a filesystem's own root. -/
def pathResolve (fs : ℕ) (path : Name) : Option (Except PathError Target) :=
  sys.resolve env.turns ⟨false, false⟩ env.hops fs 0 0 path

def deroot (path : Name) : Name := path.dropWhile (· == slash)

def umountTarget (pathspec : Name) : Option (Except UmountError ℕ) :=
  match sys.pathResolve env sys.rootfs (deroot pathspec) with
  | none => none
  | some (.error e) => some (.error (.ofPath e))
  | some (.ok target) =>
    if target.type ≠ .dir then some (.error .ENOTDIR)
    else
      match sys.pathResolve env target.server [] with
      | none => none
      | some (.error e) => some (.error (.ofPath e))
      | some (.ok root) =>
        if root.type ≠ .dir then some (.error .ENOTDIR)
        else if root.ino ≠ target.ino then some (.error .EINVAL)
        else some (.ok target.server)

def confirm (fs : ℕ) (pathspec : Name) : ℕ → System → Option (System × Except UmountError Unit)
  | 0, sys => some (sys, .ok ())
  | n + 1, sys =>
    let sys := env.hear sys
    match sys.pathResolve env sys.rootfs (deroot pathspec) with
    | none => none
    | some (.ok prev) => if prev.server ≠ fs then some (sys, .ok ()) else confirm fs pathspec n sys
    | some (.error .ESRCH) => confirm fs pathspec n sys
    | some (.error e) => some (sys, .error (.ofPath e))

def doUmount (pathspec : Name) : Option (System × Except UmountError Unit) :=
  match sys.umountTarget env pathspec with
  | none => none
  | some (.error e) => some (sys, .error e)
  | some (.ok fs) =>
    match sys.shutdown env.poked fs with
    | (sys, .error e) => some (sys, .error e)
    | (sys, .ok ()) =>
      match sys.rmMountInfo fs with
      | .error e => some (sys, .error e)
      | .ok sys => if env.gone then confirm env fs pathspec 20 sys else some (sys, .error UmountError.EIO)

def subs (fs : ℕ) : List ℕ := ((sys.getMountInfo (pidof (tidOf fs))).map (·.subs)).getD []

end System

def Server.parents (s : Server) : List Otherfs := s.otherfs.filter fun oth => oth.dest.dir ≠ 0

-- What it should do

variable {sys sys' : System} {env : Env} {fs : ℕ} {s : Server} {pathspec : Name}

structure Unchanged (sys sys' : System) (fs : ℕ) : Prop where
  running : (sys'.servers fs).isSome
  otherfs : ∀ t, (sys'.server t).map (·.otherfs) = (sys.server t).map (·.otherfs)
  handles : ∀ t, (sys'.server t).map (·.io) = (sys.server t).map (·.io)
  mounts : sys'.mounts = sys.mounts
  paths : ∀ turns flags n t pid dirfd path,
    sys'.resolve turns flags n t pid dirfd path = sys.resolve turns flags n t pid dirfd path

/-- The condition on the system before: a server in use has no handle on a parent directory, and below one
    that is not in use nothing is mounted, unless it does not quit and has no such handle. -/
def Safe (sys : System) (env : Env) (pathspec : Name) : Prop :=
  ∀ fs s, sys.umountTarget env pathspec = some (.ok fs) → sys.server fs = some s →
    (s.busy = true → s.parents = []) ∧
      (s.busy = false → sys.subs fs ≠ [] → env.poked = false ∧ s.parents = [])

-- The shutdown

def System.closed (sys : System) (fs : ℕ) (s : Server) : System :=
  s.parents.foldl (fun sys oth => sys.ioClose fs oth.dest) sys

def System.stripped (sys : System) (fs : ℕ) (s : Server) : System :=
  (sys.closed fs s).setServer fs (some { s with otherfs := s.otherfs.filter fun oth => oth.dest.dir = 0 })

theorem closed_mounts : (sys.closed fs s).mounts = sys.mounts := by
  have hall : ∀ (l : List Otherfs) (sys : System),
      (l.foldl (fun sys oth => sys.ioClose fs oth.dest) sys).mounts = sys.mounts := by
    intro l
    induction l with
    | nil => exact fun sys => rfl
    | cons oth l ih =>
      intro sys
      rw [List.foldl_cons, ih, System.ioClose]
      split
      · rfl
      · split
        · rfl
        · rfl
  exact hall s.parents sys

theorem shutdown_busy (hs : sys.server fs = some s) (hbusy : s.busy = true) (poked : Bool) :
    sys.shutdown poked fs = (sys.stripped fs s, .error .EBUSY) := by
  rw [System.shutdown, hs]
  exact if_pos hbusy

theorem shutdown_poked (hs : sys.server fs = some s) (hbusy : s.busy = false) :
    sys.shutdown true fs = ((sys.closed fs s).setServer fs none, .ok ()) := by
  rw [System.shutdown, hs]
  exact if_neg (Bool.eq_false_iff.mp hbusy)

theorem shutdown_unpoked (hs : sys.server fs = some s) (hbusy : s.busy = false) :
    sys.shutdown false fs = (sys.stripped fs s, .ok ()) := by
  rw [System.shutdown, hs]
  exact if_neg (Bool.eq_false_iff.mp hbusy)

theorem sync_of_server (hs : sys.server fs = some s) : s.sync = some s := by
  obtain ⟨t, -, ht⟩ := Option.bind_eq_some_iff.mp hs
  exact Server.sync_sync ht

theorem stripped_server (hs : sys.server fs = some s) : (sys.stripped fs s).server fs =
    some { s with otherfs := s.otherfs.filter fun oth => oth.dest.dir = 0 } := by
  obtain ⟨io, hio, heq⟩ := Option.map_eq_some_iff.mp (sync_of_server hs)
  have hsame : io = s.io := congrArg Server.io heq
  rw [System.stripped, server_setServer_same, Option.bind_some, Server.sync, hio, hsame]
  rfl

theorem parents_of_unchanged (hs : sys.server fs = some s) (h : Unchanged sys (sys.stripped fs s) fs) : s.parents = [] := by
  have htable := h.otherfs fs
  rw [stripped_server hs, hs] at htable
  have hall : s.otherfs.filter (fun oth => oth.dest.dir = 0) = s.otherfs := Option.some.inj htable
  rw [List.filter_eq_self] at hall
  exact List.filter_eq_nil_iff.mpr fun oth hmem => by simpa using hall oth hmem

theorem unchanged_of_parents (hs : sys.server fs = some s) (h : s.parents = []) : Unchanged sys (sys.stripped fs s) fs := by
  have hall : s.otherfs.filter (fun oth => oth.dest.dir = 0) = s.otherfs :=
    List.filter_eq_self.mpr fun oth hmem => by simpa using List.filter_eq_nil_iff.mp h oth hmem
  have hsys : sys.stripped fs s = sys.setServer fs (some s) := by
    rw [System.stripped, System.closed, h, hall]
    rfl
  have hserver : (sys.setServer fs (some s)).server = sys.server := by
    funext t
    by_cases heq : t = fs
    · rw [heq, server_setServer_same, Option.bind_some, sync_of_server hs, hs]
    · exact server_setServer_of_ne heq
  rw [hsys]
  constructor
  · show (Function.update sys.servers fs (some s) fs).isSome = true
    rw [Function.update_self]
    rfl
  · rw [hserver]
    exact fun t => rfl
  · rw [hserver]
    exact fun t => rfl
  · rfl
  · exact resolve_congr hserver rfl rfl

theorem ofPath_ne (e : PathError) : UmountError.ofPath e ≠ .EBUSY := by
  cases e with
  | _ => nofun

theorem confirm_ne {n : ℕ} {r : Except UmountError Unit} (h : System.confirm env fs pathspec n sys = some (sys', r)) :
    r ≠ .error .EBUSY := by
  induction n generalizing sys with
  | zero =>
    obtain ⟨-, rfl⟩ := Prod.mk.inj (Option.some.inj h)
    nofun
  | succ n ih =>
    unfold System.confirm at h
    dsimp only at h
    split at h
    · cases h
    · split at h
      · obtain ⟨-, rfl⟩ := Prod.mk.inj (Option.some.inj h)
        nofun
      · exact ih h
    · exact ih h
    · obtain ⟨-, rfl⟩ := Prod.mk.inj (Option.some.inj h)
      exact fun he => ofPath_ne _ (Except.error.inj he)

theorem rmMountInfo_eq (hmounts : sys'.mounts = sys.mounts) :
    (sys.subs fs ≠ [] → sys'.rmMountInfo fs = .error .EBUSY) ∧
      (sys.subs fs = [] → sys'.rmMountInfo fs ≠ .error .EBUSY) := by
  have hinfo : sys'.getMountInfo (pidof (tidOf fs)) = sys.getMountInfo (pidof (tidOf fs)) := by
    rw [System.getMountInfo, hmounts, System.getMountInfo]
  rw [System.rmMountInfo, hinfo, System.subs]
  cases sys.getMountInfo (pidof (tidOf fs)) with
  | none => exact ⟨fun h => absurd rfl h, fun _ => nofun⟩
  | some mi =>
    constructor
    · exact fun h => if_pos h
    · intro h
      have hnil : mi.subs = [] := h
      dsimp only
      rw [if_neg (not_not_intro hnil)]
      nofun

theorem doUmount_of_target (htarget : sys.umountTarget env pathspec = some (.ok fs))
    (hshut : sys.shutdown env.poked fs = (sys', .ok ())) (hmounts : sys'.mounts = sys.mounts) :
    (sys.subs fs ≠ [] → sys.doUmount env pathspec = some (sys', .error .EBUSY)) ∧
      (sys.subs fs = [] → ∀ last, sys.doUmount env pathspec ≠ some (last, .error .EBUSY)) := by
  obtain ⟨hbelow, hnone⟩ := @rmMountInfo_eq sys sys' fs hmounts
  unfold System.doUmount
  rw [htarget]
  dsimp only
  rw [hshut]
  dsimp only
  constructor
  · intro h
    rw [hbelow h]
  · intro h last
    have hne := hnone h
    split
    · next e he =>
      intro heq
      have herr : e = .EBUSY := Except.error.inj (Prod.mk.inj (Option.some.inj heq)).2
      exact hne (herr ▸ he)
    · split
      · exact fun heq => confirm_ne heq rfl
      · exact fun heq => nomatch Except.error.inj (Prod.mk.inj (Option.some.inj heq)).2

theorem doUmount_busy (htarget : sys.umountTarget env pathspec = some (.ok fs)) (hs : sys.server fs = some s)
    (hbusy : s.busy = true) : sys.doUmount env pathspec = some (sys.stripped fs s, .error .EBUSY) := by
  unfold System.doUmount
  rw [htarget]
  dsimp only
  rw [shutdown_busy hs hbusy]

/-- A refused request leaves everything as it was just where the condition holds. -/
theorem doUmount_unchanged_iff (sys : System) (env : Env) (pathspec : Name) :
    (∀ fs sys', sys.umountTarget env pathspec = some (.ok fs) → sys.doUmount env pathspec = some (sys', .error .EBUSY) →
      Unchanged sys sys' fs) ↔ Safe sys env pathspec := by
  constructor
  · intro h fs s htarget hs
    refine ⟨fun hbusy => ?_, fun hbusy hsubs => ?_⟩
    · exact parents_of_unchanged hs (h fs _ htarget (doUmount_busy htarget hs hbusy))
    · cases hpoked : env.poked with
      | true =>
        have hshut := shutdown_poked hs hbusy
        rw [← hpoked] at hshut
        have hrun := (h fs _ htarget ((doUmount_of_target htarget hshut closed_mounts).1 hsubs)).running
        have hgone : ((sys.closed fs s).setServer fs none).servers fs = none := Function.update_self _ _ _
        rw [hgone] at hrun
        cases hrun
      | false =>
        have hshut := shutdown_unpoked hs hbusy
        rw [← hpoked] at hshut
        exact ⟨rfl, parents_of_unchanged hs (h fs _ htarget ((doUmount_of_target htarget hshut closed_mounts).1 hsubs))⟩
  · intro h fs sys' htarget hrun
    cases hs : sys.server fs with
    | none =>
      have hshut : sys.shutdown env.poked fs = (sys, .error UmountError.EIO) := by rw [System.shutdown, hs]
      unfold System.doUmount at hrun
      rw [htarget] at hrun
      dsimp only at hrun
      rw [hshut] at hrun
      cases (Prod.mk.inj (Option.some.inj hrun)).2
    | some s =>
      obtain ⟨hbusy', hidle⟩ := h fs s htarget hs
      cases hbusy : s.busy with
      | true =>
        rw [doUmount_busy htarget hs hbusy] at hrun
        obtain ⟨rfl, -⟩ := Prod.mk.inj (Option.some.inj hrun)
        exact unchanged_of_parents hs (hbusy' hbusy)
      | false =>
        by_cases hsubs : sys.subs fs = []
        · exfalso
          cases hpoked : env.poked with
          | true =>
            have hshut := shutdown_poked hs hbusy
            rw [← hpoked] at hshut
            exact (doUmount_of_target htarget hshut closed_mounts).2 hsubs _ hrun
          | false =>
            have hshut := shutdown_unpoked hs hbusy
            rw [← hpoked] at hshut
            exact (doUmount_of_target htarget hshut closed_mounts).2 hsubs _ hrun
        · obtain ⟨hpoked, hparents⟩ := hidle hbusy hsubs
          have hshut := shutdown_unpoked hs hbusy
          rw [← hpoked] at hshut
          rw [(doUmount_of_target htarget hshut closed_mounts).1 hsubs] at hrun
          obtain ⟨rfl, -⟩ := Prod.mk.inj (Option.some.inj hrun)
          exact unchanged_of_parents hs hparents

/-- The root filesystem, with a handle of process 50001 on its root, and on its directory `m` the
    filesystem of that process, of which process 9 has a handle. -/
def mounted : System where
  servers fs :=
    if fs = 16386 then some {
      io := { Handles.State.init with
        fd := Function.update Handles.State.init.fd 1 ⟨7, some 50001, false, false, false, 0, 0, 0⟩
        clients := Function.update Handles.State.init.clients 50001 (some ⟨[1], []⟩) }
      otherfs := [⟨5, 32774, 0⟩]
      rootIno := 1
      fileIno := fun _ => 1
      tree := ⟨5, fun _ name s => (if name = [109] then .ok (.otherfs, 5) else .error .ENOENT, s),
        fun _ s => (none, s), fun _ _ => none, none, nofun⟩ }
    else if fs = 32774 then some {
      io := { Handles.State.init with
        fd := Function.update Handles.State.init.fd 1 ⟨3, some 9, false, false, false, 0, 0, 0⟩
        clients := Function.update Handles.State.init.clients 9 (some ⟨[1], []⟩) }
      otherfs := [⟨1234567, 16386, 1⟩]
      rootIno := 1
      fileIno := fun _ => 1
      tree := ⟨1, fun _ name s => (if name = [46, 46] then .ok (.otherfs, 1234567) else .error .ENOENT, s),
        fun _ s => (none, s), fun _ _ => none, none, nofun⟩ }
    else none
  rootfs := 16386
  mounts := [⟨16386, 0, 0, [32774]⟩, ⟨32774, 16386, 5, []⟩]
  sent link rem stack := some (link ++ (rem.toList ++ stack).flatMap fun part => slash :: part)

def plainEnv : Env := ⟨100, 10, true, true, id⟩

/-- What the `..` of a root leads to, before and after a request. -/
def parentOf (sys : System) : Option (Except PathError Target) := sys.resolve 100 ⟨false, false⟩ 10 32774 9 0 [46, 46]

theorem umount_loses_parent : ∃ sys', mounted.umountTarget plainEnv [47, 109] = some (.ok 32774) ∧
    mounted.doUmount plainEnv [47, 109] = some (sys', .error .EBUSY) ∧ parentOf mounted = some (.ok ⟨16386, 1, .dir⟩) ∧
      parentOf sys' = some (.error (.own .EINVAL)) ∧ ¬ Unchanged mounted sys' 32774 := by
  have hbefore : parentOf mounted = some (.ok ⟨16386, 1, .dir⟩) := by decide +kernel
  have hrun : (mounted.doUmount plainEnv [47, 109]).map (fun r => (parentOf r.1, r.2)) =
      some (some (.error (.own .EINVAL)), .error .EBUSY) := by decide +kernel
  obtain ⟨⟨sys', r⟩, heq, hpair⟩ := Option.map_eq_some_iff.mp hrun
  obtain ⟨hafter, rfl⟩ := Prod.mk.inj hpair
  refine ⟨sys', by decide +kernel, heq, hbefore, hafter, fun h => ?_⟩
  have hsame : parentOf sys' = parentOf mounted := h.paths 100 ⟨false, false⟩ 10 32774 9 0 [46, 46]
  rw [hbefore, hafter] at hsame
  cases hsame

end Sneks.Mounts
