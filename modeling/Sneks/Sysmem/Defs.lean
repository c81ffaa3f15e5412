import Sneks.Pid
import Sneks.Lib.Run
import Sneks.Lib.Bytes
import Mathlib.Logic.Function.Basic

/-!
# The system tasks' memory: `sys/sysmem`

Physical pages, the logical pages of system tasks, and replacement of active
pages by compression, from `sys/sysmem/sysmem.c`. Physical pages are named by
page number and stand for their `struct p_page`; a logical page is named by the
address of its `struct l_page`. A page that holds compressed memory starts with a
header, which is kept apart from the page's bytes.

LZ4 and the placement of the program image are parameters. A step carries what the
kernel answers while it is handled: `rights` are the answers of `L4_UnmapFpages`,
one list for each call. `store`, `handed`, `saved` and `unswaps` are ghost records:
the pages that hold compressed memory, the frames received by `send_phys`, what a
logical page held when it was last compressed, and for each page that was faulted
back in what it had held and what it holds.
-/

namespace Sneks.Sysmem
open Lib

def pageSize : ℕ := 4096

def chdrSize : ℕ := 28

def maxCompressedSize : ℕ := pageSize - chdrSize - 26

abbrev Page := Block pageSize

structure Lz4 where
  compress : Page → List UInt8
  decompress : List UInt8 → Option Page

def Lz4.Undoes (lz : Lz4) : Prop := ∀ p, lz.decompress (lz.compress p) = some p

/-- Where the program image is, in pages: `_start`, `_end` rounded up, and `first_mem`. -/
structure Layout where
  start : ℕ
  top : ℕ
  firstMem : ℕ
  start_pos : 0 < start
  start_le : start ≤ firstMem
  le_top : firstMem + 12 ≤ top

def Layout.initPages (lay : Layout) : List ℕ := List.range' lay.firstMem 12

def Layout.inImage (lay : Layout) (p : ℕ) : Prop := lay.start ≤ p ∧ p < lay.top

instance (lay : Layout) (p : ℕ) : Decidable (lay.inImage p) :=
  inferInstanceAs (Decidable (_ ∧ _))

structure PPage where
  owner : Option ℕ
  age : ℕ
  incompressible : Bool

/-- `struct l_page`. `page` and `swap` are bits 12..31 and `LF_SWAP` of `p_addr`. -/
structure LPage where
  lAddr : ℕ
  page : ℕ
  swap : Bool
  flags : ℕ

inductive Slot
  | a | b
  deriving DecidableEq, Repr

def Slot.other : Slot → Slot
  | .a => .b
  | .b => .a

/-- Slot `a` starts after the header, slot `b` ends with the page. -/
def Slot.offset (len : ℕ) : Slot → ℕ
  | .a => chdrSize
  | .b => pageSize - len

/-- `struct c_hdr`: `a`, `b` and `a_len`, `b_len` by slot. -/
structure CHdr where
  phys : ℕ
  lp : Slot → Option ℕ
  len : Slot → ℕ

abbrev Fpage := ℕ

namespace Fpage

def nil : Fpage := 0

def sizeLog2 (f : Fpage) : ℕ := (f >>> 4) % 64

def address (f : Fpage) : ℕ := f / 1024 * 1024

def overlap (f g : Fpage) : Bool := (f ^^^ g) >>> max f.sizeLog2 g.sizeLog2 = 0

end Fpage

/-- `struct systask`. `mem` is the tree in order, `ptr` the address of the structure. -/
structure Task where
  ptr : ℕ
  mem : List ℕ
  brk : ℕ
  minFault : ℕ
  utcbArea : Fpage
  kipArea : Fpage

inductive Kind
  | systask | pPage | lPage
  deriving DecidableEq, Repr

def Kind.size : Kind → ℕ
  | .systask => 36
  | .pPage => 20
  | .lPage => 24

/-- `struct alloc_head`. `next` is the address in the header of the page at the head. -/
structure AllocHead where
  pages : List ℕ
  next : ℕ
  trash : List ℕ

structure State where
  pages : ℕ → PPage
  mem : ℕ → Page
  hdr : ℕ → CHdr
  lpage : ℕ → LPage
  tasks : ℕ → Option Task
  heap : Kind → AllocHead
  free : List ℕ
  active : List ℕ
  reserved : List ℕ
  buddies : List ℕ
  numFree : ℕ
  replEnable : Bool
  hand : Option ℕ
  rights : List (List ℕ)
  store : List ℕ
  handed : List ℕ
  saved : ℕ → Page
  unswaps : List (Page × Page)

inductive Errno
  | EINVAL | ENOENT | EFAULT | EEXIST
  deriving DecidableEq, Repr

abbrev Result := Except Errno Unit

def pageFloor (addr : ℕ) : ℕ := addr / pageSize * pageSize

def pageEnd (addr : ℕ) : ℕ := pageFloor addr + (pageSize - 1)

def word (n : ℕ) : ℕ := n % 2 ^ 32

def listNext (l : List ℕ) (p : ℕ) : Option ℕ := (l.dropWhile (· ≠ p)).tail.head?

def CHdr.left (h : CHdr) : ℕ :=
  pageSize - chdrSize - if (h.lp .a).isSome then h.len .a else h.len .b

namespace State

variable (lz : Lz4) (lay : Layout) (s : State)

def setPage (p : ℕ) (pp : PPage) : State := { s with pages := Function.update s.pages p pp }

def setLpage (lp : ℕ) (l : LPage) : State := { s with lpage := Function.update s.lpage lp l }

def setHeap (k : Kind) (h : AllocHead) : State := { s with heap := Function.update s.heap k h }

def setTask (pid : ℕ) (t : Task) : State := { s with tasks := Function.update s.tasks pid (some t) }

-- Replacement

/-- The header on `buddy_list` that wastes least, if that is less than a page of its own. -/
def bestBuddy (size : ℕ) : Option ℕ :=
  (s.buddies.foldl (fun (best, waste) cand =>
    let left := (s.hdr cand).left
    if left < size then (best, waste)
    else if left - size < waste then (some cand, left - size)
    else (best, waste)) (none, pageSize - chdrSize - size)).1

def storeAlone (p lp : ℕ) (out : List UInt8) : State := { s with
  hdr := Function.update s.hdr p
    ⟨p, fun | .a => some lp | .b => none, fun | .a => out.length | .b => 0⟩
  mem := Function.update s.mem p ((s.mem p).write chdrSize out)
  buddies := p :: s.buddies
  lpage := Function.update s.lpage lp { s.lpage lp with swap := true }
  pages := Function.update s.pages p { s.pages p with owner := none }
  store := p :: s.store }

/-- Compressed contents of `p` go to the other slot of `best`, and `p` is free. -/
def storeWith (best p lp : ℕ) (out : List UInt8) : Option State :=
  let h := s.hdr best
  let slot : Slot := if h.lp .a = none then .a else .b
  if slot.offset out.length < chdrSize then none
  else some { s with
    hdr := Function.update s.hdr best { h with
      lp := Function.update h.lp slot (some lp), len := Function.update h.len slot out.length }
    mem := Function.update s.mem best ((s.mem best).write (slot.offset out.length) out)
    buddies := s.buddies.erase best
    lpage := Function.update s.lpage lp { s.lpage lp with page := best, swap := true }
    pages := Function.update s.pages p { s.pages p with owner := none }
    free := p :: s.free
    numFree := s.numFree + 1 }

def replaceActivePage (p : ℕ) : Option (State × Bool) :=
  match (s.pages p).owner with
  | none => none
  | some lp =>
    let out := lz.compress (s.mem p)
    if maxCompressedSize ≤ out.length then some (s, false)
    else if out.length = 0 then none
    else
      let s := { s with
        active := s.active.erase p, saved := Function.update s.saved lp (s.mem p) }
      match s.bestBuddy out.length with
      | none => some (s.storeAlone p lp out, true)
      | some best => (s.storeWith best p lp out).map (·, true)

def writable : ℕ := 2

def smattrPin : ℕ := 1

/-- One page of the second loop of `replace_pages`; tells if it was replaced. -/
def replaceOne (p rights : ℕ) : Option (State × Bool) :=
  let pp := s.pages p
  if rights ≠ 0 then
    some (s.setPage p { pp with
      age := pp.age + 1
      incompressible := pp.incompressible && rights &&& writable = 0 }, false)
  else if 0 < pp.age then some (s.setPage p { pp with age := pp.age / 2 }, false)
  else
    match pp.owner with
    | none => none
    | some lp =>
      if pp.incompressible || (s.lpage lp).flags &&& smattrPin ≠ 0 then some (s, false)
      else
        let next := listNext s.active p
        match s.replaceActivePage lz p with
        | none => none
        | some (s, false) => some (s.setPage p { s.pages p with incompressible := true }, false)
        | some (s, true) =>
          some ({ s with hand := if s.hand = some p then next <|> s.active.head? else s.hand }, true)

def replaceEach : List ℕ → List ℕ → State → ℕ → Option (State × ℕ)
  | [], _, s, freed => some (s, freed)
  | p :: ps, rights, s, freed =>
    match s.replaceOne lz p (rights.headD 0) with
    | none => none
    | some (s, replaced) => replaceEach ps rights.tail s (freed + replaced.toNat)

/-- `replace_pages`: pages freed, and whether the hand came around. -/
def replacePages : Option (State × ℕ × Bool) :=
  let hand := match s.hand with
    | some p => if (s.pages p).owner.isNone then s.active.head? else some p
    | none => s.active.head?
  match hand, s.rights with
  | some start, rights :: rest =>
    if start ∈ s.active then
      let upper := s.active.dropWhile (· ≠ start)
      let cycle := upper ++ s.active.takeWhile (· ≠ start)
      let seen := cycle.take 64
      if seen.any fun p => (s.pages p).owner.isNone then none else
      let s := { s with hand := cycle[seen.length % cycle.length]?, rights := rest }
      (s.replaceEach lz seen rights 0).map fun (s, freed) =>
        (s, freed, decide (upper.length ≤ seen.length))
    else none
  | _, _ => none

/-- The loop of `get_free_page`, up to the high watermark. -/
def replaceLoop : ℕ → ℕ → ℕ → State → Option State
  | 0, _, _, _ => none
  | n + 1, loops, loopFreed, s =>
    if 48 ≤ s.numFree then some s
    else
      match s.replacePages lz with
      | none => none
      | some (s, freed, looped) =>
        if looped then
          if 1 < loops ∧ loopFreed + freed = 0 then some s
          else replaceLoop n (loops + 1) 0 s
        else replaceLoop n loops (loopFreed + freed) s

def getFreePage : Option (State × ℕ) :=
  match s.free with
  | [] => none
  | p :: free =>
    let s := { s with free := free, numFree := s.numFree - 1 }.setPage p { s.pages p with age := 1 }
    if s.replEnable ∧ s.numFree < 16 then
      match s.replaceLoop lz (s.rights.length + 1) 0 0 with
      | none => none
      | some s => if s.numFree < 16 then none else some (s, p)
    else some (s, p)

-- Allocation below the size of a page

def getRam (k : Kind) : Option (State × ℕ) :=
  match s.getFreePage lz with
  | none => none
  | some (s, p) =>
    let h := s.heap k
    some (s.setHeap k { h with pages := p :: h.pages, next := p * pageSize + 4 + k.size },
      p * pageSize + 4)

/-- `alloc`. The last item of a page is never handed out. -/
def alloc (k : Kind) : Option (State × ℕ) :=
  let h := s.heap k
  match h.trash, h.pages with
  | ptr :: trash, _ => some (s.setHeap k { h with trash := trash }, ptr)
  | [], [] => s.getRam lz k
  | [], p :: _ =>
    let s := s.setHeap k { h with next := h.next + k.size }
    if (p + 1) * pageSize ≤ h.next + k.size then s.getRam lz k else some (s, h.next)

def recycle (k : Kind) (ptr : ℕ) : State :=
  s.setHeap k { s.heap k with trash := ptr :: (s.heap k).trash }

-- Tasks and their pages

def getTask (pid : ℕ) : Option State :=
  if pid < minSysid then none
  else
    match s.tasks pid with
    | some _ => some s
    | none =>
      match s.alloc lz .systask with
      | none => none
      | some (s, ptr) =>
        some (s.setTask pid ⟨ptr, [], 0x10000, 0xfffff000, Fpage.nil, Fpage.nil⟩)

/-- `get_lpage`, whose argument is the address of a page. -/
def getLpage (t : Task) (addr : ℕ) : Option ℕ := t.mem.find? fun lp => (s.lpage lp).lAddr = addr

def putLpage (pid lp : ℕ) : Option State :=
  match s.tasks pid with
  | none => none
  | some t =>
    let addr := (s.lpage lp).lAddr
    if (s.getLpage t addr).isSome then none
    else
      let below := fun q => (s.lpage q).lAddr < addr
      some (s.setTask pid { t with
        mem := t.mem.takeWhile below ++ lp :: t.mem.dropWhile below })

/-- Adds page `phys` to the active ones, for `lp`. -/
def activate (lp phys : ℕ) : State := { s with
  lpage := Function.update s.lpage lp { s.lpage lp with page := phys, swap := false }
  pages := Function.update s.pages phys { s.pages phys with owner := some lp }
  active := s.active ++ [phys] }

def decompress (lp : ℕ) : Option (State × ℕ) :=
  let ch := (s.lpage lp).page
  let h := s.hdr ch
  let slot : Slot := if h.lp .a = some lp then .a else .b
  if h.lp slot ≠ some lp then none
  else
    let off := slot.offset (h.len slot)
    let s := { s with
      hdr := Function.update s.hdr ch { h with lp := Function.update h.lp slot none } }
    if h.lp slot.other = none then
      match lz.decompress ((s.mem ch).read off (h.len slot)) with
      | none => none
      | some page => some ({ s with
          buddies := s.buddies.erase ch, store := s.store.erase ch
          mem := Function.update s.mem h.phys page }, h.phys)
    else
      match s.getFreePage lz with
      | none => none
      | some (s, phys) =>
        match lz.decompress ((s.mem ch).read off (h.len slot)) with
        | none => none
        | some page => some ({ s with
            buddies := ch :: s.buddies, mem := Function.update s.mem phys page }, phys)

def newLpage (pid addr flags : ℕ) : Option (State × ℕ) :=
  match s.alloc lz .lPage with
  | none => none
  | some (s, lp) =>
    ((s.setLpage lp ⟨addr, 0, false, flags⟩).putLpage pid lp).map (·, lp)

def populate (lp : ℕ) : Option State :=
  match s.getFreePage lz with
  | none => none
  | some (s, phys) => some (s.activate lp phys)

def unswap (lp : ℕ) : Option State :=
  match s.decompress lz lp with
  | none => none
  | some (t, phys) => some ({ t with unswaps := t.unswaps ++ [(s.saved lp, t.mem phys)] }.activate lp phys)

/-- The page that a fault at `addr` is about is brought in. -/
def faultIn (pid addr : ℕ) : Option (State × ℕ) :=
  match s.tasks pid with
  | none => none
  | some t =>
    match s.getLpage t addr with
    | none =>
      if t.brk < addr then none
      else
        match s.newLpage lz pid addr 0 with
        | none => none
        | some (s, lp) => (s.populate lz lp).map (·, lp)
    | some lp =>
      let l := s.lpage lp
      if l.page = 0 ∧ l.swap = false then
        if l.flags = 0 then none else (s.populate lz lp).map (·, lp)
      else if l.swap then (s.unswap lz lp).map (·, lp)
      else some (s, lp)

/-- `handle_pf`, and whether there is an answer. A segfault ends in `abort()`. -/
def handlePf (pid faddr : ℕ) : Option (State × Bool) :=
  let addr := pageFloor faddr
  if addr = 0 then some (s, false)
  else
    match s.getTask lz pid with
    | none => none
    | some s =>
      match s.faultIn lz pid addr with
      | none => none
      | some (s, lp) =>
        match s.tasks pid with
        | none => none
        | some t =>
          if (s.lpage lp).page = 0 then none
          else some (s.setTask pid { t with minFault := min t.minFault addr }, true)

-- Removal

def dropSlot (lp : ℕ) : Option State :=
  let ch := (s.lpage lp).page
  let h := s.hdr ch
  let slot : Slot := if h.lp .a = some lp then .a else .b
  if h.lp slot ≠ some lp then none
  else
    let s := { s with
      hdr := Function.update s.hdr ch { h with lp := Function.update h.lp slot none } }
    if h.lp slot.other = none then
      if (s.pages h.phys).owner.isSome then none
      else some { s with
        buddies := s.buddies.erase ch, store := s.store.erase ch
        free := h.phys :: s.free, numFree := s.numFree + 1 }
    else some { s with buddies := ch :: s.buddies }

def dropPage (lp : ℕ) : Option State :=
  let p := (s.lpage lp).page
  if p ∈ s.active then
    if (s.pages p).owner = some lp then
      some { s with
        active := s.active.erase p
        pages := Function.update s.pages p { s.pages p with owner := none }
        free := p :: s.free
        numFree := s.numFree + 1 }
    else none
  else some s

def eraseLpage (pid lp : ℕ) : Option State :=
  (s.tasks pid).map fun t => s.setTask pid { t with mem := t.mem.erase lp }

def dropMemory (lp : ℕ) : Option State :=
  if (s.lpage lp).swap then s.dropSlot lp else s.dropPage lp

def removeLpage (pid lp : ℕ) : Option State := do
  let s ← s.dropMemory lp
  let s ← s.eraseLpage pid lp
  some (s.recycle .lPage lp)

def removeLpages (pid : ℕ) (lps : List ℕ) : Option State :=
  lps.foldlM (fun s lp => s.removeLpage pid lp) s

def rmTask (pid : ℕ) : Option State :=
  if pid < minSysid then some s
  else
    match s.tasks pid with
    | none => some s
    | some t => do
      let s ← s.removeLpages pid t.mem
      some ({ s with tasks := Function.update s.tasks pid none }.recycle .systask t.ptr)

/-- The new `struct p_page` of a frame, which keeps no old age. -/
def newPpage (p : ℕ) : State := s.setPage p ⟨none, (s.pages p).age, false⟩

/-- `add_free_page`. Pages of the program image are reserved, but for those of `first_mem`,
    which have a structure already. -/
def addFreePage (p : ℕ) : State :=
  if lay.inImage p then
    if p ∈ lay.initPages then s else { s with reserved := s.reserved ++ [p] }
  else { s.newPpage p with
    free := s.free ++ [p]
    numFree := s.numFree + 1
    replEnable := s.replEnable || decide (60 < s.numFree + 1) }

def addTaskPage (pid p : ℕ) : Option State := do
  let (s, lp) ← (s.newPpage p).newLpage lz pid (p * pageSize) 0
  let s := (s.setPage p { s.pages p with age := 1 }).activate lp p
  let t ← s.tasks pid
  some (s.setTask pid { t with
    minFault := min t.minFault (p * pageSize), brk := max t.brk (pageEnd (p * pageSize)) })

/-- The loop of `impl_send_phys`. A frame is received once, frame 0 is none, and a task's
    frame is not one of the program image. -/
def addFrames (dest : Option ℕ) : List ℕ → State → Option State
  | [], s => some s
  | p :: ps, s =>
    if p = 0 ∨ p ∈ s.handed ∨ (dest.isSome ∧ lay.inImage p) then none
    else
      match s.alloc lz .pPage with
      | none => none
      | some (s, _) =>
        let s := { s with handed := p :: s.handed }
        match dest with
        | none => addFrames dest ps (s.addFreePage lay p)
        | some pid => (s.addTaskPage lz pid p).bind (addFrames dest ps)

/-- Faults of the sender while `impl_send_phys` waits for its second message. -/
def interimFaults (sender : ℕ) : List ℕ → State → Option State
  | [], s => some s
  | faddr :: rest, s =>
    match s.handlePf lz sender faddr with
    | some (s, true) => interimFaults sender rest s
    | _ => none

def getDest (dest : Option ℕ) : Option State :=
  match dest with
  | none => some s
  | some pid => s.getTask lz pid

/-- `impl_send_phys`. `received` tells if the second message came as it should. -/
def sendPhys (sender : ℕ) (dest : Option ℕ) (frame sizeLog2 : ℕ) (faults : List ℕ)
    (received : Bool) : Option State :=
  if dest.any (· < minSysid) then some s
  else do
    let s ← s.getDest lz dest
    let s ← s.interimFaults lz sender faults
    if received then
      if sizeLog2 < 12 then none
      else s.addFrames lz lay dest (List.range' frame (2 ^ (sizeLog2 - 12)))
    else some s

def removeAt (pid : ℕ) (t : Task) (addr : ℕ) : Option State :=
  match s.getLpage t addr with
  | none => some s
  | some lp => s.removeLpage pid lp

/-- `lp` goes to another task or another address. -/
def moveLpage (srcPid destPid lp destAddr : ℕ) : Option State := do
  let s ← s.eraseLpage srcPid lp
  let s ← (s.setLpage lp { s.lpage lp with lAddr := destAddr }).putLpage destPid lp
  let t ← s.tasks destPid
  some (s.setTask destPid { t with
    minFault := min t.minFault destAddr, brk := max t.brk (pageEnd destAddr) })

def sendVirt (srcPid srcAddr : ℕ) (dest : Option ℕ) (destAddr : ℕ) : Option (State × Result) :=
  if srcPid < minSysid then some (s, .error .EINVAL)
  else do
    let s ← s.getTask lz srcPid
    let src ← s.tasks srcPid
    if srcAddr % pageSize ≠ 0 then none
    else
      match s.getLpage src srcAddr with
      | none => some (s, .error .EFAULT)
      | some lp =>
        match dest with
        | none => (s.removeLpage srcPid lp).map (·, .ok ())
        | some destPid =>
          if destPid < minSysid then some (s, .error .EINVAL)
          else do
            let s ← s.getTask lz destPid
            let t ← s.tasks destPid
            if destAddr % pageSize ≠ 0 then none
            else do
              let s ← s.removeAt destPid t destAddr
              (s.moveLpage srcPid destPid lp destAddr).map (·, .ok ())

/-- The first loop of `impl_brk`: the first page found at or after `addr`. At the end of the
    address space it goes on from 0, and without a page it does not end. -/
def brkFind (t : Task) (high : ℕ) : ℕ → ℕ → Option (Option ℕ)
  | 0, _ => none
  | n + 1, addr =>
    if addr < high then
      match s.getLpage t addr with
      | some lp => some (some lp)
      | none => brkFind t high n (word (addr + pageSize))
    else some none

def brk (pid newBrk : ℕ) : Option State :=
  if pid < minSysid then some s
  else do
    let s ← s.getTask lz pid
    let t ← s.tasks pid
    if newBrk < t.brk then
      let low := pageFloor (word (newBrk + (pageSize - 1)))
      let high := pageEnd t.brk
      match s.brkFind t high (2 ^ 20 + 1) low with
      | none => none
      | some none => some (s.setTask pid { t with brk := newBrk })
      | some (some lp) => do
        let s ← s.removeLpages pid
          ((t.mem.dropWhile (· ≠ lp)).takeWhile fun q => (s.lpage q).lAddr < high)
        let t ← s.tasks pid
        some (s.setTask pid { t with brk := newBrk })
    else some (s.setTask pid { t with brk := newBrk })

def setKernelAreas (pid : ℕ) (utcbArea kipArea : Fpage) : State × Result :=
  match s.tasks pid with
  | none => (s, .error .ENOENT)
  | some t =>
    if utcbArea = Fpage.nil ∨ kipArea = Fpage.nil then (s, .error .EINVAL)
    else if t.utcbArea ≠ Fpage.nil ∨ t.kipArea ≠ Fpage.nil then (s, .error .EEXIST)
    else (s.setTask pid { t with utcbArea := utcbArea, kipArea := kipArea }, .ok ())

/-- One page of the loop of `impl_alter_flags`. -/
def alterPage (pid addr orMask andMask : ℕ) : Option State := do
  let t ← s.tasks pid
  if addr % pageSize ≠ 0 then none
  else
    match s.getLpage t addr with
    | some lp =>
      let l := s.lpage lp
      let s := s.setLpage lp { l with flags := (l.flags ||| orMask) &&& andMask }
      if (s.lpage lp).flags = 0 ∧ l.page = 0 ∧ l.swap = false then s.removeLpage pid lp else some s
    | none => (s.newLpage lz pid addr orMask).map (·.1)

/-- The loop of `impl_alter_flags`. It does not end where it passes the end of the address
    space. -/
def alterLoop (pid high orMask andMask : ℕ) : ℕ → ℕ → State → Option State
  | 0, _, _ => none
  | n + 1, addr, s =>
    if addr < high then
      match s.alterPage lz pid addr orMask andMask with
      | none => none
      | some s => alterLoop pid high orMask andMask n (word (addr + pageSize)) s
    else some s

def alterFlags (sender : ℕ) (task : Option ℕ) (range : Fpage) (orMask andMask : ℕ) :
    Option (State × Result) :=
  let size := 2 ^ range.sizeLog2
  if orMask &&& andMask ≠ orMask then some (s, .error .EINVAL)
  else if size < 12 then some (s, .error .EINVAL)
  else if task = some sender then some (s, .error .EINVAL)
  else
    let pid := task.getD sender
    match s.tasks pid with
    | none => some (s, .error .EINVAL)
    | some t =>
      if t.utcbArea.overlap range ∨ t.kipArea.overlap range then some (s, .error .EINVAL)
      else
        (alterLoop lz pid (word (range.address + size)) orMask andMask (2 ^ 20 + 1) range.address s).map
          (·, .ok ())

def write (pid addr : ℕ) (page : Page) : Option State := do
  let t ← s.tasks pid
  let lp ← s.getLpage t addr
  let l := s.lpage lp
  if l.swap = false ∧ l.page ≠ 0 then
    some { s with mem := Function.update s.mem l.page page }
  else none

end State

inductive Op
  | fault (pid faddr : ℕ)
  | rmTask (pid : ℕ)
  | sendPhys (sender : ℕ) (dest : Option ℕ) (frame sizeLog2 : ℕ) (faults : List ℕ) (received : Bool)
  | sendVirt (srcPid srcAddr : ℕ) (dest : Option ℕ) (destAddr : ℕ)
  | brk (pid newBrk : ℕ)
  | setKernelAreas (pid : ℕ) (utcbArea kipArea : Fpage)
  | alterFlags (sender : ℕ) (task : Option ℕ) (range : Fpage) (orMask andMask : ℕ)
  | write (pid addr : ℕ) (page : Page)

structure Step where
  op : Op
  rights : List (List ℕ)

namespace State

def handle (lz : Lz4) (lay : Layout) (s : State) : Op → Option State
  | .fault pid faddr => (s.handlePf lz pid faddr).map (·.1)
  | .rmTask pid => s.rmTask pid
  | .sendPhys sender dest frame sizeLog2 faults received =>
    s.sendPhys lz lay sender dest frame sizeLog2 faults received
  | .sendVirt srcPid srcAddr dest destAddr => (s.sendVirt lz srcPid srcAddr dest destAddr).map (·.1)
  | .brk pid newBrk => s.brk lz pid newBrk
  | .setKernelAreas pid utcbArea kipArea => some (s.setKernelAreas pid utcbArea kipArea).1
  | .alterFlags sender task range orMask andMask =>
    (s.alterFlags lz sender task range orMask andMask).map (·.1)
  | .write pid addr page => s.write pid addr page

/-- `add_first_mem`: sysmem before its first call. -/
def init (lay : Layout) : State where
  pages _ := ⟨none, 0, false⟩
  mem _ _ := 0
  hdr _ := ⟨0, fun _ => none, fun _ => 0⟩
  lpage _ := ⟨0, 0, false, 0⟩
  tasks _ := none
  heap _ := ⟨[], 0, []⟩
  free := lay.initPages
  active := []
  reserved := []
  buddies := []
  numFree := 12
  replEnable := false
  hand := none
  rights := []
  store := []
  handed := []
  saved _ _ := 0
  unswaps := []

end State

def exec (lz : Lz4) (lay : Layout) (s : State) (a : Step) : Option State :=
  { s with rights := a.rights }.handle lz lay a.op

/-- `send_virt` is not called with its source page as the destination. -/
def apart (_ : State) (a : Step) : Prop :=
  match a.op with
  | .sendVirt srcPid srcAddr dest destAddr => ¬ (dest = some srcPid ∧ destAddr = srcAddr)
  | _ => True

instance (s : State) : (a : Step) → Decidable (apart s a)
  | ⟨.sendVirt srcPid srcAddr dest destAddr, _⟩ =>
    inferInstanceAs (Decidable (¬ (dest = some srcPid ∧ destAddr = srcAddr)))
  | ⟨.fault .., _⟩ | ⟨.rmTask .., _⟩ | ⟨.sendPhys .., _⟩ | ⟨.brk .., _⟩ | ⟨.setKernelAreas .., _⟩
  | ⟨.alterFlags .., _⟩ | ⟨.write .., _⟩ => inferInstanceAs (Decidable True)

end Sneks.Sysmem
