import Mathlib.Data.List.Basic
import Sneks.Cookie.Window
import Sneks.Lib.Run

/-!
# Device numbers

A device node has a type, a major and a minor number. The filesystem packs them into an inode
number above those of its image (`dev_inode`, `sys/fs.squashfs/squashfs.c`) and, when that is
opened, passes the packed part on to root's device registry (`devices_open`, `root/devices.c`).
The registry unpacks it to find a driver, or to start one, and passes it on once more; the
driver unpacks it again (`chrdev_open`, `sys/chrdev/chrdev.c`).

Cookies are made and checked as in `Sneks.Cookie.Window`. IPC, `malloc`, `htable_add` and
`spawn_systask` answer as they please.
-/

namespace Sneks.Devices
open Lib Cookie

abbrev Word := BitVec 32

inductive Errno
  | EINVAL | ELOOP | ENOMEM | ENODEV | ETIMEDOUT | EIO
  deriving DecidableEq

-- The filesystem

/-- `struct dev`, an entry of the filesystem's device nodes. -/
structure Dev where
  major : BitVec 16
  minor : BitVec 16
  isChr : Bool
  deriving DecidableEq

/-- What `dev_inode` adds to the number of inodes. -/
def Dev.packed (d : Dev) : Word :=
  (if d.isChr then 2 else 0 : Word) <<< 30 ||| (d.major.setWidth 32 &&& 0x7fff) <<< 15 ||| (d.minor.setWidth 32 &&& 0x7fff)

def makedev (major minor : Word) : Word := (major &&& 0x7fff) <<< 15 ||| (minor &&& 0x7fff)

inductive InodeType
  | DIR | REG | SYMLINK | BLKDEV | CHRDEV
  deriving DecidableEq

structure Inode where
  inodeType : InodeType
  rdev : Word
  deriving DecidableEq

/-- The filesystem: the number of inodes in the superblock, and `inode_cache` by number. -/
structure Fs where
  inodes : Word
  cache : List (Word × Inode)

abbrev Image := Word → Option {t : InodeType // t ≠ .BLKDEV ∧ t ≠ .CHRDEV}

namespace Fs

variable (fs : Fs)

def getInode (image : Image) (ino : Word) : Fs × Option Inode :=
  match fs.cache.lookup ino with
  | some nod => (fs, some nod)
  | none =>
    if ino > fs.inodes then (fs, none)
    else
      match image ino with
      | none => (fs, none)
      | some t =>
        let nod : Inode := { inodeType := t, rdev := 0 }
        ({ fs with cache := (ino, nod) :: fs.cache }, some nod)

/-- `dev_inode`, with the number; none is a failed assertion. -/
def devInode (d : Dev) : Option (Fs × Word) :=
  let ino := fs.inodes + d.packed
  if ¬ ino > fs.inodes then none
  else
    match fs.cache.lookup ino with
    | some _ => some (fs, ino)
    | none =>
      let nod : Inode :=
        { inodeType := if d.isChr then .CHRDEV else .BLKDEV, rdev := makedev (d.major.setWidth 32) (d.minor.setWidth 32) }
      some ({ fs with cache := (ino, nod) :: fs.cache }, ino)

inductive OpenReply
  | error (e : Errno)
  | file
  | propagate (object cookie : Word)

/-- `squashfs_open`. Opening a file or a directory is left out. -/
def squashfsOpen (siphash : Siphash) (key : Key) (image : Image) (now : BitVec 64) (callerPid object cookie : Word) :
    Fs × OpenReply :=
  if ¬ validateCookie siphash cookie key now object callerPid then (fs, .error .EINVAL)
  else
    match fs.getInode image object with
    | (fs, none) => (fs, .error .EINVAL)
    | (fs, some nod) =>
      match nod.inodeType with
      | .REG | .DIR => (fs, .file)
      | .BLKDEV | .CHRDEV =>
        if object ≤ fs.inodes then (fs, .error .EINVAL)
        else
          let object := object - fs.inodes
          (fs, .propagate object (genCookie siphash key now object callerPid))
      | .SYMLINK => (fs, .error .ELOOP)

end Fs

inductive FsStep
  | getInode (ino : Word)
  | devInode (d : Dev)

def Fs.exec (image : Image) (fs : Fs) : FsStep → Option Fs
  | .getInode ino => some (fs.getInode image ino).1
  | .devInode d => (fs.devInode d).map Prod.fst

-- The registry and the driver

def devObject (t major minor : Word) : Word := (t &&& 3) <<< 30 ||| (major &&& 0x7fff) <<< 15 ||| (minor &&& 0x7fff)

/-- `struct dev_entry`. It is told from others by where it is. -/
structure DevEntry where
  addr : ℕ
  type : Word
  major : Word
  minor : Word
  server : ℕ
  timeouts : ℕ
  name : String
  deriving DecidableEq

/-- The entries that are in `devno_ht` and in `devname_ht`; they are added to both and deleted
    from both. -/
abbrev Registry := List DevEntry

inductive SendResult
  | ok | timeout | error
  deriving DecidableEq

def resolveDevice (object : Word) : Option String :=
  if object = devObject 2 1 3 ∨ object = devObject 2 1 5 ∨ object = devObject 2 1 7 then
    some "/initrd/lib/sneks-0.0p0/nullserv"
  else none

namespace Registry

variable (reg : Registry)

/-- `propagate_devnode_open` to a candidate: whether it was sent, and whether the candidate lives on. -/
def propagateDevnodeOpen (cand : DevEntry) : SendResult → Registry × Bool × Bool
  | .ok => (reg, true, false)
  | .timeout =>
    if cand.timeouts + 1 ≥ 5 then (reg.filter (·.addr ≠ cand.addr), false, false)
    else
      (reg.map fun ent => if ent.addr = cand.addr then { ent with timeouts := ent.timeouts + 1 } else ent, false, true)
  | .error => (reg.filter (·.addr ≠ cand.addr), false, false)

def tryEach (send : DevEntry → SendResult) : Registry → List DevEntry → Bool → Registry × Option ℕ × Bool
  | reg, [], live => (reg, none, live)
  | reg, cand :: rest, live =>
    match propagateDevnodeOpen reg cand (send cand) with
    | (reg, true, _) => (reg, some cand.server, live)
    | (reg, false, l) => tryEach send reg rest (live || l)

structure Env where
  send : DevEntry → SendResult
  /-- Where the entry is allocated, if there is memory. -/
  malloc : Option ℕ
  spawn : Option ℕ
  htableAdd : Bool
  sendNew : SendResult

inductive OpenReply
  | error (e : Errno)
  | propagate (server : ℕ) (object cookie : Word) (flags : Word)

/-- The type, the major and the minor number that `devices_open` reads from an object. -/
def deviceKey (object : Word) : Word × Word × Word := (object >>> 30, (object >>> 15) &&& 0x7fff, object &&& 0x7fff)

/-- The end of `devices_open`: a new driver is started. -/
def openNew (env : Env) (spawnpath : String) (object flags : Word) : Registry × OpenReply :=
  let (type, major, minor) := deviceKey object
  match env.malloc, env.spawn with
  | none, _ => (reg, .error .ENOMEM)
  | some _, none => (reg, .error .ENODEV)
  | some addr, some server =>
    let ent : DevEntry := { addr, type, major, minor, server, timeouts := 0, name := spawnpath }
    if ¬ env.htableAdd then (reg, .error .ENOMEM)
    else
      match propagateDevnodeOpen (ent :: reg) ent env.sendNew with
      | (reg, true, _) => (reg, .propagate server object 0x12345678 flags)
      | (reg, false, _) => (reg, .error .ETIMEDOUT)

/-- The second half of `devices_open`: lookup by name. -/
def openByName (env : Env) (live : Bool) (object flags : Word) : Registry × OpenReply :=
  match resolveDevice object with
  | none => (reg, .error .ENODEV)
  | some spawnpath =>
    match tryEach env.send reg (reg.filter fun cand => cand.name = spawnpath) live with
    | (reg, some server, _) => (reg, .propagate server object 0x12345678 flags)
    | (reg, none, live) => if live then (reg, .error .ETIMEDOUT) else openNew reg env spawnpath object flags

def devicesOpen (siphash : Siphash) (key : Key) (env : Env) (now : BitVec 64) (pid object cookie flags : Word) :
    Registry × OpenReply :=
  let (type, major, minor) := deviceKey object
  if type ≠ 2 ∧ type ≠ 0 then (reg, .error .ENODEV)
  else if ¬ validateCookie siphash cookie key now object pid then (reg, .error .EINVAL)
  else
    match tryEach env.send reg (reg.filter fun cand => cand.type = type ∧ cand.minor = minor ∧ cand.major = major)
      false with
    | (reg, some server, _) => (reg, .propagate server object 0x12345678 flags)
    | (reg, none, live) => openByName reg env live object flags

end Registry

/-- A call of `devices_open` with all its answers. -/
structure RootStep where
  siphash : Siphash
  key : Key
  env : Registry.Env
  now : BitVec 64
  pid : Word
  object : Word
  cookie : Word
  flags : Word

def Registry.exec (reg : Registry) (a : RootStep) : Option Registry :=
  some (reg.devicesOpen a.siphash a.key a.env a.now a.pid a.object a.cookie a.flags).1

def major (dev : Word) : Word := (dev.sshiftRight 15) &&& 0x7fff

def minor (dev : Word) : Word := dev &&& 0x7fff

/-- `O_RDONLY | O_WRONLY | O_RDWR | O_CLOEXEC | O_NONBLOCK`. -/
def openFlags : Word := 0 ||| 1 ||| 2 ||| 0o2000000 ||| 0o4000

def SNEKS_MIN_SYSID : ℕ := 50000

/-- The arguments that `chrdev_open` has for the driver's callback, when the message comes from
    `senderPid`. -/
def chrdevOpen (senderPid : ℕ) (object flags : Word) : Except Errno (Char × Word × Word × Word) :=
  if flags &&& ~~~openFlags ≠ 0 then .error .EINVAL
  else if senderPid < SNEKS_MIN_SYSID then .error .EINVAL
  else
    .ok (['.', '.', 'c', '.'].getD ((object >>> 30) &&& 3).toNat '.', major object, minor object, flags)

-- The round trip

def Dev.Short (d : Dev) : Prop := d.major.toNat < 2 ^ 15 ∧ d.minor.toNat < 2 ^ 15

def Dev.key (d : Dev) : Word × Word × Word := (if d.isChr then 2 else 0, d.major.setWidth 32, d.minor.setWidth 32)

def Dev.args (d : Dev) : Char × Word × Word := (if d.isChr then 'c' else 'b', d.major.setWidth 32, d.minor.setWidth 32)

def Fs.Reachable (image : Image) (inodes : Word) (fs : Fs) : Prop :=
  ∃ steps, Run (Fs.exec image) free { inodes, cache := [] } steps fs

def Registry.Reachable (reg : Registry) : Prop := ∃ steps, Run Registry.exec free [] steps reg

/-- Opened with a valid cookie, the inode number goes to the registry as this device's, and if
    the registry passes it on, then to a driver that is asked for this device. -/
def Opens (image : Image) (fs : Fs) (d : Dev) (ino : Word) : Prop :=
  ∀ siphash key now callerPid cookie, validateCookie siphash cookie key now ino callerPid = true →
    ∃ object cookie', (fs.squashfsOpen siphash key image now callerPid ino cookie).2 = .propagate object cookie' ∧
      Registry.deviceKey object = d.key ∧
      ∀ reg : Registry, reg.Reachable → ∀ env now' flags reg' server object' cookie'' flags',
        reg.devicesOpen siphash key env now' callerPid object cookie' flags =
          (reg', .propagate server object' cookie'' flags') →
        ∀ senderPid type maj min fl, chrdevOpen senderPid object' flags' = .ok (type, maj, min, fl) →
          (type, maj, min) = d.args

/-- The device has an inode number, which is no other device's and no inode's of the image, and
    opens as this device from then on. -/
def RoundTrips (image : Image) (inodes : Word) (d : Dev) : Prop :=
  ∀ fs : Fs, Fs.Reachable image inodes fs → ∃ fs₁ ino, fs.devInode d = some (fs₁, ino) ∧ inodes < ino ∧
    (∀ fs₂, Fs.Reachable image inodes fs₂ → ∀ d', Dev.Short d' → d' ≠ d →
      ∀ fs₃ ino', fs₂.devInode d' = some (fs₃, ino') → ino' ≠ ino) ∧
    ∀ steps fs₂, Run (Fs.exec image) free fs₁ steps fs₂ → Opens image fs₂ d ino

-- Packed numbers

theorem mask_toNat (x : Word) : (x &&& 0x7fff).toNat = x.toNat % 2 ^ 15 := by
  have hmask : (0x7fff : Word).toNat = 2 ^ 15 - 1 := by decide
  rw [BitVec.toNat_and, hmask, Nat.and_two_pow_sub_one_eq_mod]

theorem packed_toNat (t major minor : Word) (ht : t.toNat < 4) :
    (t <<< 30 ||| (major &&& 0x7fff) <<< 15 ||| (minor &&& 0x7fff)).toNat =
      2 ^ 30 * t.toNat + 2 ^ 15 * (major.toNat % 2 ^ 15) + minor.toNat % 2 ^ 15 := by
  have hmaj : major.toNat % 2 ^ 15 < 2 ^ 15 := Nat.mod_lt _ (by decide)
  have hmin : minor.toNat % 2 ^ 15 < 2 ^ 15 := Nat.mod_lt _ (by decide)
  have hlow : 2 ^ 15 * (major.toNat % 2 ^ 15) + minor.toNat % 2 ^ 15 < 2 ^ 30 := by omega
  have htop : (t <<< 30).toNat = 2 ^ 30 * t.toNat := by
    rw [BitVec.toNat_shiftLeft, Nat.shiftLeft_eq]
    omega
  have hmid : ((major &&& 0x7fff) <<< 15).toNat = 2 ^ 15 * (major.toNat % 2 ^ 15) := by
    rw [BitVec.toNat_shiftLeft, mask_toNat, Nat.shiftLeft_eq]
    omega
  rw [BitVec.or_assoc, BitVec.toNat_or, BitVec.toNat_or, htop, hmid, mask_toNat,
    ← Nat.two_pow_add_eq_or_of_lt hmin, ← Nat.two_pow_add_eq_or_of_lt hlow]
  omega

def Dev.typeNum (d : Dev) : Word := if d.isChr then 2 else 0

theorem Dev.typeNum_lt (d : Dev) : d.typeNum.toNat < 4 := by
  cases hd : d.isChr <;> simp [typeNum, hd]

theorem Dev.packed_toNat {d : Dev} (h : d.Short) :
    d.packed.toNat = 2 ^ 30 * d.typeNum.toNat + 2 ^ 15 * d.major.toNat + d.minor.toNat := by
  have hpack := Devices.packed_toNat d.typeNum (d.major.setWidth 32) (d.minor.setWidth 32) d.typeNum_lt
  rw [BitVec.toNat_setWidth_of_le (by decide), BitVec.toNat_setWidth_of_le (by decide), Nat.mod_eq_of_lt h.1,
    Nat.mod_eq_of_lt h.2] at hpack
  exact hpack

theorem Dev.packed_inj {d d' : Dev} (h : d.Short) (h' : d'.Short) (heq : d.packed = d'.packed) : d = d' := by
  have hnat := congrArg BitVec.toNat heq
  rw [packed_toNat h, packed_toNat h'] at hnat
  obtain ⟨hmaj, hmin⟩ := h
  obtain ⟨hmaj', hmin'⟩ := h'
  have htype : d.typeNum.toNat = d'.typeNum.toNat := by omega
  have hchr : d.isChr = d'.isChr := by
    simp only [typeNum] at htype
    cases hd : d.isChr <;> cases hd' : d'.isChr <;> simp [hd, hd'] at htype ⊢
  have hmajor : d.major = d'.major := BitVec.eq_of_toNat_eq (by omega)
  have hminor : d.minor = d'.minor := BitVec.eq_of_toNat_eq (by omega)
  cases d
  cases d'
  simp_all

theorem deviceKey_packed {d : Dev} (h : d.Short) : Registry.deviceKey d.packed = d.key := by
  have hpack := Dev.packed_toNat h
  obtain ⟨hmaj, hmin⟩ := h
  have htype : d.packed >>> 30 = d.typeNum := by
    apply BitVec.eq_of_toNat_eq
    rw [BitVec.toNat_ushiftRight, hpack, Nat.shiftRight_eq_div_pow]
    omega
  have hmajor : (d.packed >>> 15) &&& 0x7fff = d.major.setWidth 32 := by
    apply BitVec.eq_of_toNat_eq
    rw [mask_toNat, BitVec.toNat_ushiftRight, hpack, Nat.shiftRight_eq_div_pow,
      BitVec.toNat_setWidth_of_le (by decide)]
    omega
  have hminor : d.packed &&& 0x7fff = d.minor.setWidth 32 := by
    apply BitVec.eq_of_toNat_eq
    rw [mask_toNat, hpack, BitVec.toNat_setWidth_of_le (by decide)]
    omega
  rw [Registry.deviceKey, htype, hmajor, hminor]
  rfl

theorem major_eq (object : Word) : major object = (object >>> 15) &&& 0x7fff := by
  have hmask : (0x7fff : Word) = BitVec.ofNat 32 (2 ^ 15 - 1) := by decide
  ext i hi
  rw [major, BitVec.getElem_and, BitVec.getElem_and, BitVec.getElem_sshiftRight, BitVec.getElem_ushiftRight, hmask,
    ← BitVec.getLsbD_eq_getElem, BitVec.getLsbD_ofNat, Nat.testBit_two_pow_sub_one]
  by_cases hlow : i < 15
  · have hin : 15 + i < 32 := by omega
    simp [hin]
  · simp [hlow]

theorem chrdevOpen_packed {d : Dev} (h : d.Short) (hchr : d.isChr = true) {senderPid : ℕ} {flags fl : Word}
    {type : Char} {maj min : Word} (ho : chrdevOpen senderPid d.packed flags = .ok (type, maj, min, fl)) :
    (type, maj, min) = d.args := by
  have hkey := deviceKey_packed h
  rw [Registry.deviceKey, Dev.key, if_pos hchr] at hkey
  obtain ⟨htype, hrest⟩ := Prod.mk.inj hkey
  obtain ⟨hmajor, hminor⟩ := Prod.mk.inj hrest
  simp only [chrdevOpen] at ho
  split at ho
  · cases ho
  split at ho
  · cases ho
  · rw [htype, major_eq, hmajor, minor, hminor] at ho
    cases ho
    rw [Dev.args, if_pos hchr]
    rfl

-- The inode cache

def InodeType.Device (t : InodeType) : Prop := t = .BLKDEV ∨ t = .CHRDEV

structure Fs.Inv (inodes : Word) (fs : Fs) : Prop where
  inodes_eq : fs.inodes = inodes
  device : ∀ p ∈ fs.cache, inodes < p.1 → p.2.inodeType.Device

def Fs.HasDevice (fs : Fs) (ino : Word) : Prop := ∃ nod, fs.cache.lookup ino = some nod ∧ nod.inodeType.Device

def Fs.Grows (fs fs' : Fs) : Prop :=
  fs'.inodes = fs.inodes ∧ ∀ ino nod, fs.cache.lookup ino = some nod → fs'.cache.lookup ino = some nod

section

variable {image : Image} {inodes : Word} {fs fs' : Fs}

theorem Fs.Grows.add {ino : Word} {nod : Inode} (h : fs.cache.lookup ino = none) :
    fs.Grows { fs with cache := (ino, nod) :: fs.cache } := by
  refine ⟨rfl, fun other nod' hl => ?_⟩
  have hne : other ≠ ino := by
    rintro rfl
    rw [h] at hl
    cases hl
  simp only [List.lookup_cons, beq_false_of_ne hne]
  exact hl

theorem Fs.getInode_grows (ino : Word) : fs.Grows (fs.getInode image ino).1 := by
  rw [getInode]
  split
  · exact ⟨rfl, fun _ _ hl => hl⟩
  · next hnone =>
    split
    · exact ⟨rfl, fun _ _ hl => hl⟩
    split
    · exact ⟨rfl, fun _ _ hl => hl⟩
    · exact .add hnone

theorem Fs.getInode_inv (h : fs.Inv inodes) (ino : Word) : (fs.getInode image ino).1.Inv inodes := by
  rw [getInode]
  split
  · exact h
  split
  · exact h
  · next hle =>
    split
    · exact h
    · refine ⟨h.inodes_eq, fun p hp hlt => ?_⟩
      obtain rfl | hp := List.mem_cons.mp hp
      · rw [h.inodes_eq] at hle
        exact absurd hlt hle
      · exact h.device p hp hlt

theorem Fs.devInode_spec {d : Dev} {ino : Word} (h : fs.Inv inodes) (hd : fs.devInode d = some (fs', ino)) :
    ino = inodes + d.packed ∧ inodes < ino ∧ fs.Grows fs' ∧ fs'.Inv inodes ∧ fs'.HasDevice ino := by
  obtain rfl := h.inodes_eq
  simp only [devInode] at hd
  split at hd
  · cases hd
  next hgt =>
  have hgt := Decidable.not_not.mp hgt
  split at hd
  · next nod hnod =>
    cases hd
    have hmem : (fs.inodes + d.packed, nod) ∈ fs.cache := by
      obtain ⟨l₁, l₂, hsplit, -⟩ := List.lookup_eq_some_iff.mp hnod
      rw [hsplit]
      exact List.mem_append_right _ List.mem_cons_self
    exact ⟨rfl, hgt, ⟨rfl, fun _ _ hl => hl⟩, h, nod, hnod, h.device _ hmem hgt⟩
  · next hnone =>
    cases hd
    have hdev : (if d.isChr then InodeType.CHRDEV else InodeType.BLKDEV).Device := by
      split
      · exact .inr rfl
      · exact .inl rfl
    refine ⟨rfl, hgt, .add hnone, ⟨rfl, fun p hp hlt => ?_⟩, _, List.lookup_cons_self, hdev⟩
    obtain rfl | hp := List.mem_cons.mp hp
    · exact hdev
    · exact h.device p hp hlt

theorem Fs.exec_grows {a : FsStep} (h : fs.Inv inodes) (ha : fs.exec image a = some fs') :
    fs.Grows fs' ∧ fs'.Inv inodes := by
  cases a with
  | getInode ino =>
    cases ha
    exact ⟨getInode_grows ino, getInode_inv h ino⟩
  | devInode d =>
    obtain ⟨⟨fs₁, ino⟩, hd, rfl⟩ := Option.map_eq_some_iff.mp ha
    obtain ⟨-, -, hgrows, hinv, -⟩ := devInode_spec h hd
    exact ⟨hgrows, hinv⟩

theorem Fs.Reachable.inv (h : Fs.Reachable image inodes fs) : fs.Inv inodes := by
  obtain ⟨steps, hrun⟩ := h
  refine hrun.invariant (I := Fs.Inv inodes) (fun s a t _ ha hs => (exec_grows hs ha).2) ?_
  exact ⟨rfl, fun p hp => by cases hp⟩

theorem Fs.HasDevice.run {ino : Word} {steps : List FsStep} (hinv : fs.Inv inodes) (h : fs.HasDevice ino)
    (hrun : Run (Fs.exec image) free fs steps fs') : fs'.Inv inodes ∧ fs'.HasDevice ino := by
  refine hrun.invariant (I := fun fs => fs.Inv inodes ∧ fs.HasDevice ino) ?_ ⟨hinv, h⟩
  rintro s a t - ha ⟨hs, nod, hnod, hdev⟩
  obtain ⟨hgrows, ht⟩ := exec_grows hs ha
  exact ⟨ht, nod, hgrows.2 _ _ hnod, hdev⟩

theorem Fs.squashfsOpen_device (image : Image) {siphash : Siphash} {key : Key} {now : BitVec 64} {pid cookie ino : Word}
    (hinv : fs.Inv inodes) (h : fs.HasDevice ino) (hlt : inodes < ino)
    (hval : validateCookie siphash cookie key now ino pid = true) :
    (fs.squashfsOpen siphash key image now pid ino cookie).2 =
      .propagate (ino - inodes) (genCookie siphash key now (ino - inodes) pid) := by
  obtain ⟨nod, hnod, hdev⟩ := h
  have hget : fs.getInode image ino = (fs, some nod) := by
    rw [getInode, hnod]
  obtain rfl := hinv.inodes_eq
  have hgt : ¬ ino ≤ fs.inodes := BitVec.not_le.mpr hlt
  rw [squashfsOpen, if_neg (not_not_intro hval), hget]
  obtain hblk | hchr := hdev
  · simp only [hblk, if_neg hgt]
  · simp only [hchr, if_neg hgt]

end

-- The registry

namespace Registry

variable {reg reg' : Registry} {siphash : Siphash} {key : Key} {env : Env} {now : BitVec 64}
  {pid object cookie flags : Word}

def Chr (reg : Registry) : Prop := ∀ ent ∈ reg, ent.type = 2

theorem propagateDevnodeOpen_chr (h : reg.Chr) (cand : DevEntry) (r : SendResult) :
    (reg.propagateDevnodeOpen cand r).1.Chr := by
  cases r with
  | ok => exact h
  | error => exact fun ent he => h ent (List.mem_of_mem_filter he)
  | timeout =>
    rw [propagateDevnodeOpen]
    split
    · exact fun ent he => h ent (List.mem_of_mem_filter he)
    · intro ent he
      obtain ⟨old, hold, rfl⟩ := List.mem_map.mp he
      split
      · exact h old hold
      · exact h old hold

theorem Chr.propagate {cand : DevEntry} {r : SendResult} {b : Bool × Bool} (h : reg.Chr)
    (heq : reg.propagateDevnodeOpen cand r = (reg', b)) : reg'.Chr := by
  have hstep := propagateDevnodeOpen_chr h cand r
  rwa [heq] at hstep

theorem Chr.tryEach {send : DevEntry → SendResult} {cands : List DevEntry} {live : Bool} {r : Option ℕ × Bool}
    (h : reg.Chr) (heq : tryEach send reg cands live = (reg', r)) : reg'.Chr := by
  induction cands generalizing reg live with
  | nil =>
    cases heq
    exact h
  | cons cand rest ih =>
    rw [Registry.tryEach] at heq
    split at heq
    · next hsend =>
      cases heq
      exact h.propagate hsend
    · next hsend => exact ih (h.propagate hsend) heq

theorem resolveDevice_type {path : String} (h : resolveDevice object = some path) : object >>> 30 = 2 := by
  simp only [resolveDevice] at h
  split at h
  · next hobj =>
    obtain rfl | rfl | rfl := hobj <;> decide
  · cases h

theorem tryEach_some {send : DevEntry → SendResult} {cands : List DevEntry} {live l : Bool} {server : ℕ}
    (h : tryEach send reg cands live = (reg', some server, l)) : ∃ cand, cand ∈ cands := by
  match cands with
  | [] => cases h
  | cand :: _ => exact ⟨cand, List.mem_cons_self⟩

/-- What a call leaves: a registry of character devices, and a message about the object, if it
    sends one at all. -/
def OpenReply.Of (object : Word) : OpenReply → Prop
  | .error _ => True
  | .propagate _ object' _ _ => object' = object ∧ object >>> 30 = 2

theorem openNew_spec {path : String} {r : OpenReply} (h : reg.Chr) (htype : object >>> 30 = 2)
    (ho : reg.openNew env path object flags = (reg', r)) : reg'.Chr ∧ r.Of object := by
  simp only [openNew, deviceKey] at ho
  split at ho
  · cases ho
    exact ⟨h, trivial⟩
  · cases ho
    exact ⟨h, trivial⟩
  split at ho
  · cases ho
    exact ⟨h, trivial⟩
  have hnew : ∀ ent : DevEntry, ent.type = object >>> 30 → Chr (ent :: reg) := fun ent hent c hc => by
    obtain rfl | hc := List.mem_cons.mp hc
    · exact hent.trans htype
    · exact h c hc
  split at ho
  · next heq =>
    cases ho
    exact ⟨(hnew _ rfl).propagate heq, rfl, htype⟩
  · next heq =>
    cases ho
    exact ⟨(hnew _ rfl).propagate heq, trivial⟩

theorem openByName_spec {live : Bool} {r : OpenReply} (h : reg.Chr)
    (ho : reg.openByName env live object flags = (reg', r)) : reg'.Chr ∧ r.Of object := by
  rw [openByName] at ho
  split at ho
  · cases ho
    exact ⟨h, trivial⟩
  next path hpath =>
  have htype := resolveDevice_type hpath
  split at ho
  · next heq =>
    cases ho
    exact ⟨h.tryEach heq, rfl, htype⟩
  next heq =>
  have htried := h.tryEach heq
  split at ho
  · cases ho
    exact ⟨htried, trivial⟩
  · exact openNew_spec htried htype ho

theorem devicesOpen_spec {r : OpenReply} (h : reg.Chr)
    (ho : reg.devicesOpen siphash key env now pid object cookie flags = (reg', r)) : reg'.Chr ∧ r.Of object := by
  rw [devicesOpen] at ho
  generalize hkey : deviceKey object = num at ho
  obtain ⟨type, major, minor⟩ := num
  obtain ⟨rfl, -⟩ := Prod.mk.inj hkey
  simp only at ho
  by_cases htype : object >>> 30 ≠ 2 ∧ object >>> 30 ≠ 0
  · rw [if_pos htype] at ho
    cases ho
    exact ⟨h, trivial⟩
  rw [if_neg htype] at ho
  by_cases hval : validateCookie siphash cookie key now object pid = true
  · rw [if_neg (not_not_intro hval)] at ho
    split at ho
    · next heq =>
      cases ho
      -- a candidate has the type that is asked for
      obtain ⟨cand, hc⟩ := tryEach_some heq
      obtain ⟨hmem, hsame⟩ := List.mem_filter.mp hc
      have htype : cand.type = object >>> 30 := (of_decide_eq_true hsame).1
      exact ⟨h.tryEach heq, rfl, htype ▸ h cand hmem⟩
    · next heq => exact openByName_spec (h.tryEach heq) ho
  · rw [if_pos hval] at ho
    cases ho
    exact ⟨h, trivial⟩

theorem Reachable.chr (h : reg.Reachable) : reg.Chr := by
  obtain ⟨steps, hrun⟩ := h
  refine hrun.invariant (I := Chr) (fun s a t _ ha hs => ?_) (fun ent he => by cases he)
  cases ha
  exact (devicesOpen_spec hs rfl).1

end Registry

-- Both ends

theorem opens_packed {image : Image} {inodes : Word} {fs : Fs} {d : Dev} (h : d.Short) (hinv : fs.Inv inodes)
    (hdev : fs.HasDevice (inodes + d.packed)) (hlt : inodes < inodes + d.packed) :
    Opens image fs d (inodes + d.packed) := by
  intro siphash key now pid cookie hval
  have hopen := Fs.squashfsOpen_device image hinv hdev hlt hval
  have hsub : inodes + d.packed - inodes = d.packed := by bv_omega
  rw [hsub] at hopen
  refine ⟨d.packed, _, hopen, deviceKey_packed h, ?_⟩
  intro reg hreg env now' flags reg' server object' cookie' flags' ho senderPid type maj min fl hchrdev
  obtain ⟨-, rfl, htype⟩ := Registry.devicesOpen_spec hreg.chr ho
  have hchr : d.isChr = true := by
    have hkey := congrArg Prod.fst (deviceKey_packed h)
    rw [Registry.deviceKey, Dev.key, htype] at hkey
    by_contra hno
    simp [hno] at hkey
  exact chrdevOpen_packed h hchr hchrdev

/-- **Device numbers**: a device goes through exactly when its packed number is not zero and can
    be added to the number of inodes. -/
theorem devnum_roundTrips_iff (image : Image) (inodes : Word) (d : Dev) (h : d.Short) :
    RoundTrips image inodes d ↔
      (d.isChr = true ∨ d.major ≠ 0 ∨ d.minor ≠ 0) ∧ inodes.toNat + d.packed.toNat < 2 ^ 32 := by
  have hpack := Dev.packed_toNat h
  have hzero : d.packed.toNat = 0 ↔ ¬ (d.isChr = true ∨ d.major ≠ 0 ∨ d.minor ≠ 0) := by
    have hmaj : d.major = 0 ↔ d.major.toNat = 0 := BitVec.toNat_inj.symm
    have hmin : d.minor = 0 ↔ d.minor.toNat = 0 := BitVec.toNat_inj.symm
    rw [hpack, ne_eq, ne_eq, hmaj, hmin, Dev.typeNum]
    cases hd : d.isChr with
    | false =>
      simp only [Bool.false_eq_true, if_false, false_or]
      have htype : (0 : Word).toNat = 0 := rfl
      omega
    | true => simp
  have hlt : inodes < inodes + d.packed ↔ d.packed.toNat ≠ 0 ∧ inodes.toNat + d.packed.toNat < 2 ^ 32 := by
    rw [BitVec.lt_def, BitVec.toNat_add]
    have hinodes := inodes.isLt
    have hdev := d.packed.isLt
    omega
  rw [← not_iff_not.mpr hzero |>.trans not_not, ← ne_eq, ← hlt]
  constructor
  · intro hround
    obtain ⟨fs₁, ino, hd, hgt, -⟩ := hround { inodes, cache := [] } ⟨[], .nil _⟩
    obtain ⟨hino, -⟩ := Fs.devInode_spec ⟨rfl, fun p hp => by cases hp⟩ hd
    rwa [hino] at hgt
  · intro hgt fs hfs
    have hinv := hfs.inv
    obtain ⟨fs₁, hd⟩ : ∃ fs₁, fs.devInode d = some (fs₁, inodes + d.packed) := by
      obtain rfl := hinv.inodes_eq
      simp only [Fs.devInode, if_neg (not_not_intro hgt)]
      split
      · exact ⟨fs, rfl⟩
      · exact ⟨_, rfl⟩
    obtain ⟨-, -, -, hinv₁, hdev⟩ := Fs.devInode_spec hinv hd
    refine ⟨fs₁, inodes + d.packed, hd, hgt, ?_, fun steps fs₂ hrun => ?_⟩
    · intro fs₂ hfs₂ d' hd' hne fs₃ ino' hother heq
      obtain ⟨rfl, -⟩ := Fs.devInode_spec hfs₂.inv hother
      have hsame : d'.packed = d.packed := by bv_omega
      exact hne (Dev.packed_inj hd' h hsame)
    · obtain ⟨hinv₂, hdev₂⟩ := hdev.run hinv₁ hrun
      exact opens_packed h hinv₂ hdev₂ hgt

/-- `/dev/null` in an image of 100 inodes. -/
theorem devnum_roundTrips_null : RoundTrips (fun _ => none) 100 { major := 1, minor := 3, isChr := true } :=
  (devnum_roundTrips_iff (fun _ => none) 100 { major := 1, minor := 3, isChr := true } ⟨by decide, by decide⟩).mpr
    ⟨.inl rfl, by decide⟩

/-- Block device 0:0 would have the number of the last inode. -/
theorem devnum_not_roundTrips :
    ¬ ∀ (image : Image) (inodes : Word) (d : Dev), d.Short → RoundTrips image inodes d := by
  intro h
  obtain ⟨fs₁, ino, hd, -⟩ := h (fun _ => none) 100 { major := 0, minor := 0, isChr := false } ⟨by decide, by decide⟩
    { inodes := 100, cache := [] } ⟨[], .nil _⟩
  have hnone : Fs.devInode { inodes := 100, cache := [] } { major := 0, minor := 0, isChr := false } = none := by
    rw [Fs.devInode, if_pos (by decide)]
  rw [hnone] at hd
  cases hd

end Sneks.Devices
