import Sneks.Pid
import Sneks.Lib.Run
import Sneks.Lib.Bytes
import Sneks.Lib.SearchTree
import Mathlib.Logic.Function.Basic
import Mathlib.Data.Int.Notation

/-!
# The virtual memory server: `sys/vm`

Physical pages, the links that put them on a list, the virtual pages that refer to
them, and the mappings that page faults are repaired from, after `sys/vm/vm.c`.

Physical pages are named by page number and stand for their `struct pp`. A
`struct pl`, `struct vp` or `struct lazy_mmap` is named by a number that stands for
its address and is not used again. The buckets of the page cache are one list, newest
first: a link is in the bucket that the hash of its own key names.

Recolouring and removal in a red-black tree are a parameter. A step carries what the
allocator and the file servers answer while it is handled. Where the code calls
`abort()` or follows a null pointer the step has no result.
-/

namespace Sneks.Vm
open Lib

-- Words of 32 bits

def pageSize : ℕ := 4096

def word (n : ℕ) : ℕ := n % 2 ^ 32

def wordSub (a b : ℕ) : ℕ := word (a + (2 ^ 32 - b))

def pageFloor (x : ℕ) : ℕ := x / pageSize * pageSize

def pageCeil (x : ℕ) : ℕ := pageFloor (word (x + pageSize - 1))

def validAddrSize (addr size : ℕ) : Bool := addr ≤ 2 ^ 32 - 1 - size

def overlapExcl (a b c d : ℕ) : Bool := ¬ (word (a + b) ≤ c ∨ word (c + d) ≤ a)

abbrev Page := Block pageSize

/-- `L4_Readable`, `L4_Writable` and `L4_eXecutable`. -/
structure Rights where
  r : Bool
  w : Bool
  x : Bool
  deriving DecidableEq, Repr

def Rights.full : Rights := ⟨true, true, true⟩

def Rights.allow (have' need : Rights) : Bool :=
  (have'.r || !need.r) && (have'.w || !need.w) && (have'.x || !need.x)

def protToL4Rights (prot : ℕ) : Rights := ⟨prot.testBit 0, prot.testBit 1, prot.testBit 2⟩

/-- The flags of `mmap` that are read: `MAP_SHARED`, `MAP_PRIVATE`, `MAP_FIXED`, `MAP_ANONYMOUS`. -/
structure MapFlags where
  shared : Bool
  priv : Bool
  fixed : Bool
  anon : Bool
  deriving DecidableEq, Repr

structure Pl where
  page : ℕ
  live : Bool
  fsidIno : ℕ
  offset : ℕ

def Pl.fsid (l : Pl) : ℕ := l.fsidIno / 2 ^ 48

def Pl.ino (l : Pl) : ℕ := l.fsidIno % 2 ^ 48

/-- `struct vp`. `addr` is bits 31..12 of `vaddr`, the flags are the others. -/
structure Vp where
  addr : ℕ
  rights : Rights
  shared : Bool
  anon : Bool
  cow : Bool
  status : ℕ

/-- `struct lazy_mmap`. `rights` are bits 16..18 of `flags`; `MAP_FIXED` is never kept. -/
structure LazyMmap where
  addr : ℕ
  length : ℕ
  rights : Rights
  shared : Bool
  priv : Bool
  anon : Bool
  fdServ : Tid
  ino : ℕ
  offset : ℕ
  tailsz : ℕ

def LazyMmap.isAnonMmap (mm : LazyMmap) : Bool := mm.anon && mm.shared

def LazyMmap.fin (mm : LazyMmap) : ℕ := word (mm.addr + mm.length)

def LazyMmap.cutTo (mm : LazyMmap) (addr : ℕ) : LazyMmap :=
  { mm with length := wordSub addr mm.addr, tailsz := pageSize }

/-- The mapping moved up to start at `addr`; `offset` stays. -/
def LazyMmap.moveUp (mm : LazyMmap) (addr : ℕ) : LazyMmap :=
  { mm with addr := addr, length := wordSub mm.length (wordSub addr mm.addr) }

/-- The mapping at `addr`, of `length` bytes. -/
def LazyMmap.at (mm : LazyMmap) (addr length : ℕ) : LazyMmap := { mm with addr := addr, length := length }

/-- The page cache's name for a file: `fsid_ino`, as a link into the cache gets it. -/
def LazyMmap.fsidIno (mm : LazyMmap) : ℕ := pidof mm.fdServ % 2 ^ 16 * 2 ^ 48 + mm.ino % 2 ^ 48

/-- An `L4_Fpage_t`: `L4_Address` and `L4_Size`. The nil page is empty. -/
structure Fpage where
  address : ℕ
  size : ℕ
  deriving DecidableEq, Repr

def Fpage.nil : Fpage := ⟨0, 0⟩

/-- The fpage of raw value `~0ul`, which marks a space that is not configured. -/
def Fpage.unset : Fpage := ⟨2 ^ 32 - 2 ^ 10, 2 ^ 31⟩

def Fpage.overlap (a b : Fpage) : Bool :=
  a.address / max a.size b.size = b.address / max a.size b.size

abbrev RbTree := BinaryTree (ℕ × Bool)

def RbTree.mmaps (t : RbTree) : List ℕ := (inorder t).map Prod.fst

/-- What the server uses of `lib/rbtree.c`, `__rb_insert_color` and `__rb_erase`. -/
structure Rb where
  insertColor : ℕ → RbTree → RbTree
  erase : ℕ → RbTree → RbTree
  mmaps_insertColor : ∀ i t, (insertColor i t).mmaps = t.mmaps
  mmaps_erase : ∀ i t, t.mmaps.Nodup → (erase i t).mmaps = t.mmaps.erase i

/-- `struct vm_space`, less its virtual pages. `used` tells whether `vm_space_ra` has given it
    out. Nothing is ever put in `as_free`. -/
structure Space where
  used : Bool
  kipArea : Fpage
  utcbArea : Fpage
  sysinfoArea : Fpage
  maps : RbTree
  lastMmap : Option ℕ
  brk : ℕ
  mmapBot : ℕ

/-- The pages of the server. `link` and `owner` are the fields of `struct pp`, `pages` is the
    hash of virtual pages of each space, and `plbuf` the buffer of the call that is handled. -/
structure Mem where
  link : ℕ → Option ℕ
  owner : ℕ → Option ℕ
  data : ℕ → Page
  pl : ℕ → Pl
  vp : ℕ → Vp
  free : List ℕ
  active : List ℕ
  cache : List ℕ
  shareTable : List ℕ
  pages : ℕ → List ℕ
  plbuf : List ℕ
  nextPl : ℕ
  nextVp : ℕ

structure State where
  mem : Mem
  spaces : ℕ → Space
  mm : ℕ → LazyMmap
  anonMmapTable : List ℕ
  nextMm : ℕ
  nextAnonIno : ℕ

/-- What stays the same over a run: the tree, whether a failed assertion stops the server, its
    own thread, which is a system task's, the page of `the_sip`, the last address of user space,
    and the size of the page cache. -/
structure Config where
  rb : Rb
  asserts : Bool
  self : Tid
  theSip : ℕ
  userAddrMax : ℕ
  nPcBucketsLog2 : ℕ
  self_systask : self.version % 4 = 2
  self_lt : self.version < 2 ^ 14

def Config.assert (cfg : Config) (p : Prop) [Decidable p] : Option Unit :=
  if cfg.asserts ∧ ¬ p then none else some ()

inductive Errno
  | EINVAL | ENOMEM | EEXIST | EPERM | ENOSYS | EIO
  | server (n : ℤ)
  deriving DecidableEq, Repr

abbrev Result (α : Type) := Except Errno α

-- Keys of the page cache

def bob96bitmix (a b c : ℕ) : ℕ :=
  let a := wordSub (wordSub a b) c ^^^ (c >>> 13)
  let b := wordSub (wordSub b c) a ^^^ word (a <<< 8)
  let c := wordSub (wordSub c a) b ^^^ (b >>> 13)
  let a := wordSub (wordSub a b) c ^^^ (c >>> 12)
  let b := wordSub (wordSub b c) a ^^^ word (a <<< 16)
  let c := wordSub (wordSub c a) b ^^^ (b >>> 5)
  let a := wordSub (wordSub a b) c ^^^ (c >>> 3)
  let b := wordSub (wordSub b c) a ^^^ word (a <<< 10)
  wordSub (wordSub c a) b ^^^ (b >>> 15)

def hashCachedPage (a b c : ℕ) : ℕ :=
  bob96bitmix (bob96bitmix 0xdeadbeef 0xcafebabe a) (bob96bitmix 0xfeedface 0x12345678 b) c

def hashLazyMmap (mm : LazyMmap) (bump : ℕ) : ℕ :=
  hashCachedPage (word (mm.offset + bump))
    (word (pidof mm.fdServ <<< 16) ||| (mm.ino >>> 32) % 2 ^ 16) (mm.ino % 2 ^ 32)

/-- The hash that `push_cached_page` computes of a link. -/
def Pl.hash (l : Pl) : ℕ := hashCachedPage l.offset (l.fsidIno >>> 32) (l.fsidIno % 2 ^ 32)

def Config.bucket (cfg : Config) (hash : ℕ) : ℕ := hash % 2 ^ cfg.nPcBucketsLog2

/-- Is this the page at `bump` of the mapping? -/
def LazyMmap.isAt (mm : LazyMmap) (bump : ℕ) (l : Pl) : Prop :=
  l.live = true ∧ l.ino = mm.ino ∧ l.offset = word (mm.offset + bump) ∧ l.fsid = pidof mm.fdServ

instance (mm : LazyMmap) (bump : ℕ) (l : Pl) : Decidable (mm.isAt bump l) :=
  inferInstanceAs (Decidable (_ ∧ _))

-- Links and lists

/-- The lists that `push_page` is called with. -/
inductive Place
  | free | active
  deriving DecidableEq, Repr

namespace Mem

variable (m : Mem)

/-- `push_page`: the page gets a new link, a copy of the old one. -/
def pushPage (list : Place) (oldlink : ℕ) : Mem :=
  { m with
    pl := Function.update m.pl m.nextPl { m.pl oldlink with live := true }
    link := Function.update m.link (m.pl oldlink).page (some m.nextPl)
    nextPl := m.nextPl + 1
    free := if list = .free then m.nextPl :: m.free else m.free
    active := if list = .active then m.nextPl :: m.active else m.active }

/-- `push_cached_page` of a link that has been given its key. The key is looked up before, and
    nothing is added to a bucket in between. -/
def pushCachedPage (oldlink fsidIno offset : ℕ) : Mem :=
  { m with
    pl := Function.update m.pl m.nextPl ⟨(m.pl oldlink).page, true, fsidIno, offset⟩
    link := Function.update m.link (m.pl oldlink).page (some m.nextPl)
    nextPl := m.nextPl + 1
    cache := m.nextPl :: m.cache }

def findCachedPage (cfg : Config) (mm : LazyMmap) (bump : ℕ) : Option ℕ :=
  (m.cache.filter fun l => cfg.bucket (m.pl l).hash = cfg.bucket (hashLazyMmap mm bump)).find?
    fun l => mm.isAt bump (m.pl l)

def getFreePl : Option (ℕ × Mem) :=
  match m.free with
  | [] => none
  | l :: free => some (l, { m with free := free })

def Resident (v : ℕ) : Prop := ∃ pid, v ∈ m.pages pid

def setOwner (p : ℕ) (v : Option ℕ) : Mem := { m with owner := Function.update m.owner p v }

def setVp (v : ℕ) (virt : Vp) : Mem := { m with vp := Function.update m.vp v virt }

def setData (p : ℕ) (b : Page) : Mem := { m with data := Function.update m.data p b }

def addPage (pid v : ℕ) : Mem :=
  { m with pages := Function.update m.pages pid (v :: m.pages pid) }

def dropPage (pid v : ℕ) : Mem :=
  { m with pages := Function.update m.pages pid ((m.pages pid).erase v) }

def popPage (pid addr : ℕ) : Option (ℕ × Mem) :=
  ((m.pages pid).find? fun v => (m.vp v).addr = addr).map fun v => (v, m.dropPage pid v)

def hasShares (p : ℕ) : Bool := m.shareTable.any fun v => (m.vp v).status = p

/-- A free page becomes the anonymous memory of a virtual page, as wherever `VPF_ANON` is set:
    `get_free_pl`, the contents, the owner, `push_page` on the active list. -/
def attachFresh (v : ℕ) (b : Page) : Option Mem :=
  m.getFreePl.map fun (l, m) =>
    let p := (m.pl l).page
    (((m.setData p b).setOwner p (some v)).setVp v
      { m.vp v with status := p, anon := true }).pushPage .active l

-- Owners and shares

def addShare (status share : ℕ) (ok : Bool) : Mem × Bool :=
  match m.owner status with
  | none => (m.setOwner status (some share), true)
  | some _ => if ok then ({ m with shareTable := share :: m.shareTable }, true) else (m, false)

def rmShare (cfg : Config) (v : ℕ) : Option (Mem × Bool) :=
  let p := (m.vp v).status
  if m.owner p = some v then
    let m := m.setOwner p none
    some (m, !m.hasShares p)
  else do
    cfg.assert (v ∈ m.shareTable)
    let m := { m with shareTable := m.shareTable.erase v }
    some (m, (m.owner p).isNone && !m.hasShares p)

def freePage (link0 : ℕ) : Mem :=
  let m := { m with pl := Function.update m.pl link0 { m.pl link0 with live := false } }
  let m := m.pushPage .free link0
  { m with plbuf := link0 :: m.plbuf }

def flushPlbuf : Mem := { m with active := m.active.filter (· ∉ m.plbuf), plbuf := [] }

def removeVp (cfg : Config) (v : ℕ) : Option Mem := do
  let p := (m.vp v).status
  let link0 ← m.link p
  if (m.pl link0).fsidIno = 0 ∧ (m.vp v).cow = false then
    cfg.assert (m.owner p = some v)
    cfg.assert (m.hasShares (m.pl link0).page = false)
    let m := { m with link := Function.update m.link p none, owner := Function.update m.owner p none }
    some (m.freePage link0)
  else
    let (m, last) ← m.rmShare cfg v
    some (if last && (m.vp v).anon then m.freePage link0 else m)

/-- The loop of `remove_vp_range`, over `n` pages from `pos` on. -/
def removeVps (cfg : Config) (pid : ℕ) : ℕ → ℕ → Mem → Option Mem
  | 0, _, m => some m
  | n + 1, pos, m =>
    match m.popPage pid pos with
    | none => removeVps cfg pid n (pos + pageSize) m
    | some (v, m) => do
      let m ← m.removeVp cfg v
      removeVps cfg pid n (pos + pageSize) m

def removeVpRange (cfg : Config) (pid addr size : ℕ) : Option Mem :=
  let fin := word (addr + size)
  (removeVps cfg pid ((fin - addr + (pageSize - 1)) / pageSize) addr m).map (·.flushPlbuf)

end Mem

end Sneks.Vm
