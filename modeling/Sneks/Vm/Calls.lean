import Sneks.Vm.Maps

/-!
# Page faults and calls of the virtual memory server

The fault handler and the calls that change a space, after `sys/vm/vm.c`.
`breath_of_life` and I/O faults change nothing and are left out.
-/

namespace Sneks.Vm
open Lib

/-- What a file server and `htable_add` on `share_table` answer while a fault is handled. -/
structure PfAnswer where
  read : Option (List UInt8)
  share : Bool

structure ForkAnswer where
  mapMalloc : ℕ → Bool
  mapAnon : ℕ → Bool
  pageMalloc : ℕ → Bool
  pageAdd : ℕ → Bool
  share : ℕ → Bool

def pageOf (bytes : List UInt8) : Page := Block.write (fun _ => 0) 0 bytes

def tailPage (b : Page) (tailsz : ℕ) : Page := fun i => if i < tailsz then b i else 0

-- Page faults

def Vp.owned (v : Vp) : Vp := { v with rights := { v.rights with w := true }, cow := false }

/-- The flags when `pf_cow` makes a copy, which is anonymous. -/
def Vp.copied (v : Vp) : Vp := { v.owned with shared := false }

/-- The flags of a page, and of its copy, that `fork_pages` makes copy-on-write. -/
def Vp.forked (v : Vp) : Vp :=
  { v with rights := { v.rights with w := false }, cow := v.cow || v.rights.w }

namespace LazyMmap

def bump (mm : LazyMmap) (addr : ℕ) : ℕ := wordSub addr mm.addr / pageSize

def tailCase (mm : LazyMmap) (page : ℕ) : Prop :=
  page = wordSub mm.fin pageSize ∧ mm.tailsz < pageSize

instance (mm : LazyMmap) (page : ℕ) : Decidable (mm.tailCase page) :=
  inferInstanceAs (Decidable (_ ∧ _))

/-- `read_at`. Nobody answers for the nil thread, and the tasks that the kernel starts, whose
    process id is 0, serve no handle 0. -/
def readAt (cfg : Config) (mm : LazyMmap) (offset : ℕ) (ans : PfAnswer) : Option (List UInt8) := do
  cfg.assert (offset ≤ 2 ^ 31 - 1)
  if mm.fdServ = ⟨0, 0⟩ ∨ mm.fsidIno = 0 then none else ans.read

end LazyMmap

namespace Mem

variable (cfg : Config) (m : Mem)

/-- The start of `pf_cow`: a share that is secondary is removed. -/
def dropSecondary (virt : ℕ) : Option Mem :=
  if m.owner (m.vp virt).status = some virt then some m
  else if virt ∈ m.shareTable then some { m with shareTable := m.shareTable.erase virt }
  else none

def pfCow (virt : ℕ) : Option Mem := do
  let v := m.vp virt
  cfg.assert (v.cow = true)
  cfg.assert (v.rights.w = false)
  let primary := m.owner v.status
  let m ← m.dropSecondary virt
  if (primary = none ∨ primary = some virt) ∧ v.anon = true ∧ m.hasShares v.status = false then
    cfg.assert (v.shared = false)
    some ((m.setOwner v.status (some virt)).setVp virt v.owned)
  else
    let m := if primary = some virt then m.setOwner v.status none else m
    (m.setVp virt v.copied).attachFresh virt (m.data v.status)

/-- A page that the cache lacks is read and inserted. A read that fails ends in `abort`. -/
def loadPage (mm : LazyMmap) (bump offset : ℕ) (ans : PfAnswer) : Option (ℕ × Mem) := do
  let (link, m) ← m.getFreePl
  let bytes ← (if mm.anon then some [] else mm.readAt cfg offset ans)
  cfg.assert (mm.fsidIno / 2 ^ 48 = pidof mm.fdServ)
  cfg.assert (mm.fsidIno % 2 ^ 48 = mm.ino)
  let m := m.setData (m.pl link).page (pageOf bytes)
  some (m.nextPl, m.pushCachedPage link mm.fsidIno (word (mm.offset + bump)))

/-- `fetch_cached_page`. The flag tells that the page was loaded; it then belongs to `vp`. -/
def fetchCachedPage (mm : LazyMmap) (bump vp : ℕ) (ans : PfAnswer) : Option (ℕ × Bool × Mem) :=
  match m.findCachedPage cfg mm bump with
  | some cached => some (cached, false, m)
  | none =>
    (m.loadPage cfg mm bump (word ((mm.offset + bump) * pageSize)) ans).map fun (cached, m) =>
      (cached, true, m.setOwner (m.pl cached).page (some vp))

/-- The first half of `pf_mmap_shared`, up to a link of the page cache. -/
def findOrLoad (mm : LazyMmap) (page : ℕ) (ans : PfAnswer) : Option (ℕ × Mem) :=
  match m.findCachedPage cfg mm (mm.bump page) with
  | some cached => some (cached, m)
  | none => m.loadPage cfg mm (mm.bump page) (word (mm.offset * pageSize + wordSub page mm.addr)) ans

/-- `pf_mmap_shared`. What `add_share` answers is compared with zero, and never below it. -/
def pfMmapShared (vp : ℕ) (mm : LazyMmap) (page : ℕ) (ans : PfAnswer) : Option Mem := do
  let (cached, m) ← m.findOrLoad cfg mm page ans
  let p := (m.pl cached).page
  if mm.tailCase page then
    m.attachFresh vp (tailPage (m.data p) mm.tailsz)
  else
    some ((m.setVp vp { m.vp vp with status := p, shared := true }).addShare p vp ans.share).1

def pfMmapPrivate (vp : ℕ) (mm : LazyMmap) (page : ℕ) (ans : PfAnswer) : Option Mem := do
  let (cached, loaded, m) ← m.fetchCachedPage cfg mm (mm.bump page) vp ans
  let p := (m.pl cached).page
  let m ← m.attachFresh vp (if mm.tailCase page then tailPage (m.data p) mm.tailsz else m.data p)
  if loaded then
    cfg.assert (m.owner p = some vp)
    some (m.setOwner p none)
  else some m

def newVp (virt : Vp) : ℕ × Mem := (m.nextVp, { m.setVp m.nextVp virt with nextVp := m.nextVp + 1 })

/-- Read faults on writable pages that `pf_mmap_shared` has set up make them copy-on-write. -/
def markCow (vp : ℕ) (rwx : Rights) : Mem :=
  let v := m.vp vp
  if rwx.w = false ∧ v.rights.w = true then
    m.setVp vp { v with rights := { v.rights with w := false }, cow := true }
  else m

/-- The part of `vm_pf` that gives a fresh virtual page its physical page. -/
def pfRepair (vp : ℕ) (mm : LazyMmap) (page : ℕ) (rwx : Rights) (ans : PfAnswer) : Option Mem :=
  if mm.shared ∨ rwx.w = false ∧ mm.anon = false then
    (m.pfMmapShared cfg vp mm page ans).map (·.markCow vp rwx)
  else if mm.anon then m.attachFresh vp fun _ => 0
  else m.pfMmapPrivate cfg vp mm page ans

/-- The part of `vm_pf` that makes a page resident. -/
def pfMmap (pid : ℕ) (mm : LazyMmap) (page : ℕ) (rwx : Rights) (ans : PfAnswer) : Option (ℕ × Mem) :=
  let (vp, m) := m.newVp ⟨page, mm.rights, false, false, false, 0⟩
  (m.pfRepair cfg vp mm page rwx ans).map fun m => (vp, m.addPage pid vp)

-- Copying and removing virtual pages

/-- What `fork_pages` does with a page of the source: the page cache has it, or it is copied. -/
def forkSkips (v : Vp) : Bool := !v.anon && (v.shared || (!v.rights.w && !v.cow))

/-- The start of a copy in `fork_pages`: the copy, and the flags of the page itself. -/
def forkMark (dest cur : ℕ) : Mem :=
  let v := m.vp cur
  let (copy, m) := m.newVp v.forked
  let m := m.addPage dest copy
  if !v.cow && v.rights.w then m.setVp cur v.forked else m

/-- One copied page of `fork_pages`. Where the copy is not shared the page gets its flags back. -/
def forkPage (dest cur : ℕ) (share : Bool) : Mem × Bool :=
  let v := m.vp cur
  match (m.forkMark dest cur).addShare v.status m.nextVp share with
  | (m, true) => (m, true)
  | (m, false) => (if !v.cow && v.rights.w then m.setVp cur v else m, false)

/-- `fork_pages`, over the pages that are left. `copy` tells whether a virtual page is allocated
    that the page before did not need. -/
def forkPages (dest : ℕ) (ans : ForkAnswer) : Bool → List ℕ → Mem → Option (Mem × Bool)
  | _, [], m => some (m, true)
  | copy, cur :: rest, m => do
    let v := m.vp cur
    cfg.assert ((v.cow ^^ v.rights.w) = true)
    if copy = false ∧ ans.pageMalloc cur = false then some (m, false)
    else if forkSkips v then forkPages dest ans true rest m
    else if v.shared then none
    else if ans.pageAdd cur = false then some (m, false)
    else
      match m.forkPage dest cur (ans.share cur) with
      | (m, false) => some (m, false)
      | (m, true) => forkPages dest ans false rest m

/-- The virtual pages of a space, removed by `vm_erase` in the order the hash gives them. -/
def eraseVps (pid : ℕ) : List ℕ → Mem → Option Mem
  | [], m => some m
  | v :: rest, m => do
    let m ← (m.dropPage pid v).removeVp cfg v
    eraseVps pid rest m

end Mem

namespace State

variable (cfg : Config) (s : State)

/-- `vm_pf`. The answer is what is mapped, or none where the faulting thread gets no reply. -/
def vmPf (pid faddr : ℕ) (rwx : Rights) (ans : PfAnswer) : Option (State × Option (ℕ × Rights)) :=
  let sp := s.spaces pid
  let page := pageFloor faddr
  if maxPid < pid ∨ sp.utcbArea = .nil then some (s, none)
  else
    match (s.mem.pages pid).find? fun v => (s.mem.vp v).addr = page with
    | some old =>
      let v := s.mem.vp old
      if v.cow ∧ rwx.w then
        (s.mem.pfCow cfg old).map fun m =>
          ({ s with mem := m }, some ((m.vp old).status, (m.vp old).rights))
      else if v.rights.allow rwx = false then some (s, none)
      else some (s, some (v.status, v.rights))
    | none =>
      if sp.sysinfoArea.overlap ⟨faddr, 1⟩ then some (s, some (cfg.theSip, ⟨true, false, false⟩))
      else
        match s.findLazyMmap pid faddr with
        | (none, s) => some (s, none)
        | (some i, s) => do
          let mm := s.mm i
          cfg.assert (mm.addr ≤ faddr ∧ faddr < mm.fin)
          if mm.rights.allow rwx = false then some (s, none)
          else
            let (vp, m) ← s.mem.pfMmap cfg pid mm page rwx ans
            some ({ s with mem := m }, some ((m.vp vp).status, (m.vp vp).rights))

-- mmap, munmap, brk

/-- What is answered to `vm_mmap`: the file server's answer to `touch`, and the allocator. -/
structure MmapAnswer where
  malloc : Bool
  touch : Option ℤ
  anon : Bool

open Errno in
/-- The number that `touch` gives back as an error: positive ones are not of errno. -/
def touchError (n : ℤ) : Errno := if 0 < n then EIO else server n

def inoOf (fd : ℤ) : ℕ :=
  let fd := fd % 2 ^ 32
  ((if fd < 2 ^ 31 then fd else fd - 2 ^ 32) % 2 ^ 64).toNat

/-- `vm_mmap`. No server of the own process answers `touch`. -/
def vmMmap (sender target addr length prot : ℕ) (flags : MapFlags) (fdServ : Tid) (fd : ℤ)
    (offset : ℕ) (ans : MmapAnswer) : Option (State × Result ℕ) :=
  let target := if target = 0 then sender else target
  if length = 0 ∨ addr % pageSize ≠ 0 ∨ offset % pageSize ≠ 0 ∨ (flags.priv && flags.shared) ∨
      (!flags.priv && !flags.shared) ∨ maxPid < target ∨ target = 0 ∨
      (s.spaces target).kipArea = .nil then some (s, .error .EINVAL)
  else if ans.malloc = false then some (s, .error .ENOMEM)
  else
    let shared := flags.anon && flags.shared
    let touched : Option ℤ :=
      if !flags.anon && fdServ ≠ ⟨0, 0⟩ then
        if pidof fdServ = pidof cfg.self then some (ans.touch.getD 1) else ans.touch
      else none
    match touched with
    | some n => some (s, .error (touchError n))
    | none => do
      let (i, t) := s.newMm
        { addr := 0, length := 0, rights := protToL4Rights prot,
          shared := flags.shared, priv := flags.priv, anon := flags.anon,
          fdServ := if shared then cfg.self else fdServ,
          ino := inoOf (if shared then s.nextAnonIno else fd),
          offset := if shared then 0 else word (offset / pageSize),
          tailsz := length % pageSize }
      let t := if shared then { t with nextAnonIno := word (t.nextAnonIno + 1) } else t
      let (t, r) ← t.reserveMmap cfg target i addr (pageCeil length) flags.fixed ans.anon
      some (t, r.map fun _ => (t.mm i).addr)

def vmMunmap (sender addr size : ℕ) : Option (State × Result Unit) :=
  let addr := pageFloor addr
  let size := pageCeil size
  if sender = 0 ∨ maxPid < sender ∨ validAddrSize addr size = false ∨
      (s.spaces sender).kipArea = .nil then some (s, .error .EINVAL)
  else (s.munmapSpace cfg sender addr size).map (·, .ok ())

def brkGrow (pid addr : ℕ) (malloc : Bool) : Option (State × Result Unit) :=
  let brk := (s.spaces pid).brk
  let (found, s) := s.findLazyMmap pid brk
  let extend := found.filter fun i => (s.mm i).fin = brk ∧ (s.mm i).anon ∧ (s.mm i).priv
  let blocked := extend.any fun i => (s.nextMmap pid i).any fun next => (s.mm next).addr < addr
  match found, extend, blocked with
  | some _, none, _ => some (s, .ok ())
  | some _, some i, false => some (s.setMm i { s.mm i with length := wordSub addr (s.mm i).addr }, .ok ())
  | _, _, _ =>
    if malloc = false then some (s, .error .ENOMEM)
    else
      let (i, s) := s.newMm ⟨0, 0, .full, false, true, true, ⟨0, 0⟩, 0, 0, 0⟩
      s.reserveMmap cfg pid i brk (wordSub addr brk) true true

def brkShrink (pid addr : ℕ) : Option State :=
  let brk := (s.spaces pid).brk
  let (found, s) := s.findLazyMmap pid (wordSub brk 1)
  match found.filter fun i => (s.mm i).addr < addr ∧ (s.mm i).fin = brk ∧ (s.mm i).anon with
  | some i =>
    let s := s.setMm i { s.mm i with length := wordSub addr (s.mm i).addr }
    (s.mem.removeVpRange cfg pid addr (wordSub brk addr)).map fun m => { s with mem := m }
  | none => s.munmapSpace cfg pid addr (wordSub brk addr)

def brkAddr (cfg : Config) (addr : ℕ) : ℕ := pageCeil (min (max addr 0x10000) cfg.userAddrMax)

def brkMove (pid addr : ℕ) (malloc : Bool) : Option (State × Result Unit) :=
  let brk := (s.spaces pid).brk
  if brk = 0 then some (s, .ok ())
  else if brk < addr then s.brkGrow cfg pid addr malloc
  else (s.brkShrink cfg pid addr).map (·, .ok ())

def vmBrk (sender addr : ℕ) (malloc : Bool) : Option (State × Result Unit) :=
  if maxPid ≤ sender then some (s, .error .EINVAL)
  else do
    cfg.assert ((s.spaces sender).utcbArea ≠ .nil)
    let addr := brkAddr cfg addr
    let (s, r) ← s.brkMove cfg sender addr malloc
    match r with
    | .error e => some (s, .error e)
    | .ok () => some (s.setSpace sender { s.spaces sender with brk := addr }, .ok ())

-- fork

/-- `fork_maps`, over the mappings that are left. -/
def forkMaps (dest : ℕ) (ans : ForkAnswer) : List ℕ → State → Option (State × Bool)
  | [], s => some (s, true)
  | orig :: rest, s =>
    if ans.mapMalloc orig = false then some (s, false)
    else
      let (copy, s) := s.newMm (s.mm orig)
      if (s.mm copy).isAnonMmap then do
        cfg.assert ((s.mm copy).fdServ = cfg.self)
        if ans.mapAnon orig = false then some (s, false)
        else
          let s := { s with anonMmapTable := copy :: s.anonMmapTable }
          let (s, ok) := s.insertLazyMmap cfg dest copy
          cfg.assert (ok = true)
          forkMaps dest ans rest s
      else do
        let (s, ok) := s.insertLazyMmap cfg dest copy
        cfg.assert (ok = true)
        forkMaps dest ans rest s

/-- `vm_fork`. `ra_alloc` answers `id` where the caller asks for none; the order is the one in
    which the hash gives the pages of the source. -/
def vmFork (sender srcpid destpid id : ℕ) (order : List ℕ) (ans : ForkAnswer) :
    Option (State × Result ℕ) :=
  let src := s.spaces srcpid
  let pid := if 0 < destpid then destpid else id
  if maxPid < srcpid ∨ maxPid < destpid ∨ sender < minSysid ∨ srcpid ≠ 0 ∧ src.kipArea = .nil then
    some (s, .error .EINVAL)
  else if maxPid < pid then none
  else if (s.spaces pid).used then
    if 0 < destpid then some (s, .error .EEXIST) else none
  else
    let dest := { s.spaces pid with used := true, maps := .nil, lastMmap := none }
    let s := { s with mem := { s.mem with pages := Function.update s.mem.pages pid [] } }
    if srcpid = 0 then
      some (s.setSpace pid
        { dest with kipArea := .unset, utcbArea := .nil, brk := 0, mmapBot := cfg.userAddrMax }, .ok pid)
    else if ¬ order.Perm (s.mem.pages srcpid) then none
    else do
      let s := s.setSpace pid
        { dest with kipArea := src.kipArea, utcbArea := src.utcbArea, sysinfoArea := src.sysinfoArea,
                    brk := src.brk, mmapBot := src.mmapBot }
      let (s, ok) ← forkMaps cfg pid ans (s.mmaps srcpid) s
      if ok = false then some (s, .error .ENOMEM)
      else
        let (m, ok) ← Mem.forkPages cfg pid ans false order s.mem
        some ({ s with mem := m }, if ok then .ok pid else .error .ENOMEM)

-- configure, upload_page, erase

def vmConfigure (pid : ℕ) (utcb kip : Fpage) (malloc : Bool) : Option (State × Result ℕ) :=
  let sp := s.spaces pid
  let si : Fpage := ⟨word (kip.address + kip.size), pageSize⟩
  if maxPid < pid ∨ sp.kipArea ≠ .unset ∨ sp.utcbArea ≠ .nil ∨ kip.overlap utcb ∨ si.overlap utcb then
    some (s, .error .EINVAL)
  else
    let s := s.setSpace pid { sp with kipArea := kip, utcbArea := utcb, sysinfoArea := si }
    let resvLow := min kip.address (min utcb.address si.address)
    if resvLow ≤ 0x10000 then some (s, .error .EINVAL)
    else if malloc = false then some (s, .error .ENOMEM)
    else do
      let (i, s) := s.newMm ⟨0, 0, .full, false, true, true, ⟨0, 0⟩, 0, 0, 0⟩
      let (s, r) ← s.reserveMmap cfg pid i 0x10000 (resvLow - 0x10000) true true
      some (s, r.map fun _ =>
        wordSub (max (word (si.address + si.size)) (word (utcb.address + utcb.size))) 1)

/-- `vm_upload_page` removes what is resident at its address. -/
def dropOld (target addr : ℕ) : Option Mem :=
  match s.mem.popPage target addr with
  | none => some s.mem
  | some (old, m) => (m.removeVp cfg old).map (·.flushPlbuf)

def vmUploadPage (target addr : ℕ) (data : List UInt8) (prot : ℕ) (flags : MapFlags)
    (malloc : Bool) : Option (State × Result Unit) :=
  if (s.spaces target).utcbArea = .nil ∨ addr % pageSize ≠ 0 ∨ flags.anon = false ∨
      flags.fixed = false ∨ prot = 0 then some (s, .error .EINVAL)
  else if flags.shared then some (s, .error .ENOSYS)
  else if flags.priv = false then some (s, .error .EINVAL)
  else if malloc = false then some (s, .error .ENOMEM)
  else do
    let rights := protToL4Rights prot
    let (v, m) := s.mem.newVp ⟨addr, rights, false, true, false, 0⟩
    let (i, s) := { s with mem := m }.newMm ⟨0, 0, rights, false, true, true, ⟨0, 0⟩, 0, 0, 0⟩
    let (s, r) ← s.reserveMmap cfg target i addr pageSize true true
    match r with
    | .error e => some (s, .error e)
    | .ok () =>
      cfg.assert ((s.mm i).addr = addr ∧ (s.mm i).length = pageSize)
      let m ← s.dropOld cfg target addr
      let m ← m.attachFresh v (pageOf data)
      some ({ s with mem := m.addPage target v }, .ok ())

/-- What `vm_erase` takes for shared anonymous memory is cut. -/
def eraseAnon (i : ℕ) : Option State :=
  if (s.mm i).fdServ = cfg.self then do
    cfg.assert ((s.mm i).isAnonMmap = true)
    s.dropAnon cfg i
  else some s

def eraseMmaps (pid : ℕ) : List ℕ → State → Option State
  | [], s => some s
  | i :: rest, s => do
    let s ← s.eraseAnon cfg i
    eraseMmaps pid rest (s.eraseMmap cfg pid i)

def vmErase (sender target : ℕ) (order : List ℕ) : Option (State × Result Unit) :=
  let sp := s.spaces target
  if sender < minSysid then some (s, .error .EPERM)
  else if sp.utcbArea = .nil ∨ sp.kipArea = .nil then do
    cfg.assert (s.mem.pages target = [])
    cfg.assert (s.mmaps target = [])
    some (s, .error .EINVAL)
  else if ¬ order.Perm (s.mem.pages target) then none
  else do
    let m ← Mem.eraseVps cfg target order s.mem
    let s ← eraseMmaps cfg target (s.mmaps target) { s with mem := m.flushPlbuf }
    some (s.setSpace target { s.spaces target with
      used := false, kipArea := .nil, utcbArea := .nil, sysinfoArea := .nil, lastMmap := none }, .ok ())

end State

inductive Call
  | mmap (sender target addr length prot : ℕ) (flags : MapFlags) (fdServ : Tid) (fd : ℤ) (offset : ℕ)
      (ans : State.MmapAnswer)
  | munmap (sender addr size : ℕ)
  | brk (sender addr : ℕ) (malloc : Bool)
  | fork (sender srcpid destpid id : ℕ) (order : List ℕ) (ans : ForkAnswer)
  | configure (pid : ℕ) (utcb kip : Fpage) (malloc : Bool)
  | uploadPage (target addr : ℕ) (data : List UInt8) (prot : ℕ) (flags : MapFlags) (malloc : Bool)
  | erase (sender target : ℕ) (order : List ℕ)
  | fault (pid faddr : ℕ) (rwx : Rights) (ans : PfAnswer)

def exec (cfg : Config) (s : State) : Call → Option State
  | .mmap sender target addr length prot flags fdServ fd offset ans =>
    (s.vmMmap cfg sender target addr length prot flags fdServ fd offset ans).map Prod.fst
  | .munmap sender addr size => (s.vmMunmap cfg sender addr size).map Prod.fst
  | .brk sender addr malloc => (s.vmBrk cfg sender addr malloc).map Prod.fst
  | .fork sender srcpid destpid id order ans =>
    (s.vmFork cfg sender srcpid destpid id order ans).map Prod.fst
  | .configure pid utcb kip malloc => (s.vmConfigure cfg pid utcb kip malloc).map Prod.fst
  | .uploadPage target addr data prot flags malloc =>
    (s.vmUploadPage cfg target addr data prot flags malloc).map Prod.fst
  | .erase sender target order => (s.vmErase cfg sender target order).map Prod.fst
  | .fault pid faddr rwx ans => (s.vmPf cfg pid faddr rwx ans).map Prod.fst

structure PhysMem where
  pages : List ℕ
  nodup : pages.Nodup
  pos : ∀ p ∈ pages, 0 < p

/-- `init_phys`: each page gets a link on the free list. -/
def initPhys (phys : PhysMem) : Mem :=
  { link := fun p => if p ∈ phys.pages then some (phys.pages.idxOf p) else none
    owner := fun _ => none
    data := fun _ _ => 0
    pl := fun l => ⟨phys.pages.getD l 0, true, 0, 0⟩
    vp := fun _ => ⟨0, ⟨false, false, false⟩, false, false, false, 0⟩
    free := (List.range phys.pages.length).reverse
    active := []
    cache := []
    shareTable := []
    pages := fun _ => []
    plbuf := []
    nextPl := phys.pages.length
    nextVp := 0 }

def bootState (phys : PhysMem) : State where
  mem := initPhys phys
  spaces := fun _ => ⟨false, .nil, .nil, .nil, .nil, none, 0, 0⟩
  mm := fun _ => ⟨0, 0, ⟨false, false, false⟩, false, false, false, ⟨0, 0⟩, 0, 0, 0⟩
  anonMmapTable := []
  nextMm := 0
  nextAnonIno := 1

-- A server to run

def leaning : List (ℕ × Bool) → RbTree
  | [] => .nil
  | y :: l => .node y .nil (leaning l)

theorem inorder_leaning (l : List (ℕ × Bool)) : inorder (leaning l) = l := by
  induction l with
  | nil => rfl
  | cons y l ih => rw [leaning, inorder, inorder, ih, List.nil_append]

def plainRb : Rb where
  insertColor _ t := t
  erase i t := leaning ((inorder t).eraseP fun y => i == y.1)
  mmaps_insertColor _ _ := rfl
  mmaps_erase i t _ := by
    rw [RbTree.mmaps, RbTree.mmaps, inorder_leaning, List.erase_eq_eraseP, List.eraseP_map]
    rfl

def plainConfig : Config where
  rb := plainRb
  asserts := true
  self := ⟨0, 2⟩
  theSip := 0
  userAddrMax := 0xbfffffff
  nPcBucketsLog2 := 10
  self_systask := rfl
  self_lt := by decide

def threePhys : PhysMem where
  pages := [1, 2, 3]
  nodup := by decide
  pos := by decide

def spawnCalls : List Call :=
  [.fork 50000 0 5 0 [] ⟨fun _ => true, fun _ => true, fun _ => true, fun _ => true, fun _ => true⟩,
    .configure 5 ⟨0x200000, 0x1000⟩ ⟨0x100000, 0x1000⟩ true,
    .uploadPage 5 0x300000 [] 3 ⟨false, true, true, true⟩ true]

end Sneks.Vm
