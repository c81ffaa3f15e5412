import Sneks.Vm.Defs

/-!
# Mappings of the virtual memory server

Looking up, adding, cutting and removing the mappings of a space, after `sys/vm/vm.c`.
-/

namespace Sneks.Vm
open Lib

namespace State

variable (cfg : Config) (s : State)

def setSpace (pid : ℕ) (sp : Space) : State := { s with spaces := Function.update s.spaces pid sp }

def setMm (i : ℕ) (mm : LazyMmap) : State := { s with mm := Function.update s.mm i mm }

def setMaps (pid : ℕ) (t : RbTree) : State := s.setSpace pid { s.spaces pid with maps := t }

def setLast (pid : ℕ) (i : Option ℕ) : State := s.setSpace pid { s.spaces pid with lastMmap := i }

theorem setSpace_spaces (s : State) (pid q : ℕ) (sp : Space) :
    (s.setSpace pid sp).spaces q = if q = pid then sp else s.spaces q := by
  simp [setSpace, Function.update_apply]

theorem setMm_mm (s : State) (i j : ℕ) (mm : LazyMmap) :
    (s.setMm i mm).mm j = if j = i then mm else s.mm j := by
  simp [setMm, Function.update_apply]

def mmaps (pid : ℕ) : List ℕ := (s.spaces pid).maps.mmaps

def newMm (mm : LazyMmap) : ℕ × State := (s.nextMm, { s.setMm s.nextMm mm with nextMm := s.nextMm + 1 })

-- The tree of a space

def dirAddr (addr : ℕ) (y : ℕ × Bool) : Ordering :=
  if addr < (s.mm y.1).addr then .lt
  else if (s.mm y.1).fin ≤ addr then .gt
  else .eq

def dirMm (i : ℕ) (y : ℕ × Bool) : Ordering :=
  if wordSub (s.mm i).fin 1 < (s.mm y.1).addr then .lt
  else if wordSub (s.mm y.1).fin 1 < (s.mm i).addr then .gt
  else .eq

def insertLazyMmap (pid i : ℕ) : State × Bool :=
  match linkNode (i, true) (s.dirMm i) (s.spaces pid).maps with
  | .error _ => (s, false)
  | .ok t => (s.setMaps pid (cfg.rb.insertColor i t), true)

def findLazyMmap (pid addr : ℕ) : Option ℕ × State :=
  let sp := s.spaces pid
  match sp.lastMmap.filter fun i =>
      (s.mm i).addr ≤ addr ∧ addr - (s.mm i).addr < (s.mm i).length with
  | some i => (some i, s)
  | none =>
    match (probe (s.dirAddr addr) sp.maps).filter fun y => s.dirAddr addr y = .eq with
    | some y => (some y.1, s.setLast pid (some y.1))
    | none => (none, s)

def nextMmap (pid i : ℕ) : Option ℕ := ((s.mmaps pid).dropWhile (· ≠ i)).tail.head?

/-- `first_lazy_mmap`. Where the way down meets nothing, it goes right past what lies before the
    end of the range, then left past what ends at its start or before. -/
def firstLazyMmap (pid addr sz : ℕ) : Option ℕ :=
  match probe (s.dirAddr addr) (s.spaces pid).maps with
  | none => none
  | some cand =>
    if s.dirAddr addr cand = .eq then some cand.1
    else
      match ((s.mmaps pid).dropWhile (· ≠ cand.1)).find? fun i =>
          ¬ word (addr + sz) ≤ (s.mm i).addr with
      | none => none
      | some c => ((s.mmaps pid).reverse.dropWhile (· ≠ c)).find? fun i => ¬ (s.mm i).fin ≤ addr

-- Cutting

def covered (i addr : ℕ) : Bool :=
  s.anonMmapTable.any fun oth =>
    (s.mm oth).ino = (s.mm i).ino ∧ oth ≠ i ∧
      overlapExcl addr pageSize (s.mm oth).addr (s.mm oth).length

def cutPage (i first page : ℕ) (m : Mem) : Option Mem :=
  match m.findCachedPage cfg (s.mm i) (word ((s.mm i).offset + page)) with
  | none => some m
  | some link =>
    if s.covered i (word (first + page * pageSize)) then some m
    else do
      cfg.assert (m.hasShares (m.pl link).page = false)
      cfg.assert (m.owner (m.pl link).page = none)
      some (m.freePage link)

def cutAnonMmap (i first last : ℕ) : Option State := do
  let mm := s.mm i
  cfg.assert (mm.isAnonMmap = true)
  let final := wordSub mm.fin 1
  let last := if last = first then final else min final last
  let first := max mm.addr first
  let m ← (List.range (word (wordSub last first + 1) / pageSize)).foldlM
    (fun m page => s.cutPage cfg i first page m) s.mem
  some { s with mem := m.flushPlbuf }

/-- Takes a mapping out of `anon_mmap_table`. -/
def delAnon (i : ℕ) : State := { s with anonMmapTable := s.anonMmapTable.erase i }

def dropAnon (i : ℕ) : Option State := (s.cutAnonMmap cfg i 0 0).map (·.delAnon i)

def eraseMmap (pid i : ℕ) : State := s.setMaps pid (cfg.rb.erase i (s.spaces pid).maps)

def unmapWhole (pid cur : ℕ) : Option State := do
  let s ← (if (s.mm cur).isAnonMmap then s.dropAnon cfg cur else some s)
  let s := s.eraseMmap cfg pid cur
  some (if (s.spaces pid).lastMmap = some cur then s.setLast pid none else s)

/-- A mapping is shortened to end at `addr`, and a fragment for its tail from `fin` on is inserted. -/
def splitMmap (pid addr fin cur : ℕ) : State × Bool :=
  let mm := s.mm cur
  let (tail, s) := s.newMm (mm.moveUp fin)
  (s.setMm cur (mm.cutTo addr)).insertLazyMmap cfg pid tail

def unmapMiddle (pid addr fin cur : ℕ) : Option State := do
  let r := s.splitMmap cfg pid addr fin cur
  cfg.assert (r.2 = true)
  if (s.mm cur).isAnonMmap then
    let t ← r.1.cutAnonMmap cfg cur (r.1.mm cur).fin (wordSub fin 1)
    some { t with anonMmapTable := s.nextMm :: t.anonMmapTable }
  else some r.1

def unmapLeft (addr cur : ℕ) : Option State := do
  let mm := s.mm cur
  cfg.assert (addr < mm.fin)
  let s := s.setMm cur (mm.cutTo addr)
  if mm.isAnonMmap then s.cutAnonMmap cfg cur mm.addr (wordSub (s.mm cur).fin 1) else some s

def unmapRight (addr fin cur : ℕ) : Option State := do
  let mm := s.mm cur
  cfg.assert (fin < mm.fin)
  cfg.assert (mm.addr < fin)
  let s ← (if mm.isAnonMmap then s.cutAnonMmap cfg cur mm.addr (wordSub addr 1) else some s)
  some (s.setMm cur (mm.moveUp fin))

/-- One turn of the loop of `munmap_space`. Allocations that fail abort. -/
def unmapOne (pid addr fin cur : ℕ) : Option State :=
  let mm := s.mm cur
  if addr ≤ mm.addr ∧ mm.fin ≤ fin then s.unmapWhole cfg pid cur
  else if mm.addr < addr ∧ fin < mm.fin then s.unmapMiddle cfg pid addr fin cur
  else if mm.addr < addr then s.unmapLeft cfg addr cur
  else s.unmapRight cfg addr fin cur

/-- The loop of `munmap_space` from the mapping `cur` on. -/
def munmapLoop (pid addr fin : ℕ) : ℕ → State → Option ℕ → Option State
  | _, s, none => some s
  | 0, _, some _ => none
  | n + 1, s, some cur => do
    cfg.assert (addr ≤ (s.mm cur).addr ∨ addr < (s.mm cur).fin)
    if fin ≤ (s.mm cur).addr then some s
    else
      let t ← s.unmapOne cfg pid addr fin cur
      munmapLoop pid addr fin n t (s.nextMmap pid cur)

/-- `munmap_space`. Every turn goes right in the tree, and past the tail that is added at most
    once the loop stops. -/
def munmapSpace (pid addr size : ℕ) : Option State := do
  cfg.assert (addr % pageSize = 0 ∧ size % pageSize = 0)
  cfg.assert (validAddrSize addr size = true)
  let m ← s.mem.removeVpRange cfg pid addr size
  let s := { s with mem := m }
  let s ← munmapLoop cfg pid addr (word (addr + size)) ((s.mmaps pid).length + 2) s
    (s.firstLazyMmap pid addr size)
  cfg.assert (s.firstLazyMmap pid addr size = none)
  some s

-- Placing

def nogo (pid address length : ℕ) : Bool :=
  let sp := s.spaces pid
  [sp.utcbArea, sp.kipArea, sp.sysinfoArea, ⟨wordSub sp.brk pageSize, pageSize⟩].any fun fp =>
    overlapExcl fp.address fp.size address length

/-- The start of fresh address space below `mmap_bot`. -/
def carveAddr (pid length : ℕ) : ℕ := word (wordSub (s.spaces pid).mmapBot length + 1)

def carve (pid i length : ℕ) : State :=
  let sp := s.spaces pid
  (s.setSpace pid { sp with mmapBot := wordSub sp.mmapBot length }).setMm i
    ((s.mm i).at (s.carveAddr pid length) length)

/-- The insertions of `reserve_mmap` for a hint, which may be none. -/
def placeHint (pid i address length : ℕ) : State × Bool :=
  let hint := if address = 0 then (s, false) else s.insertLazyMmap cfg pid i
  if hint.2 then hint else (s.carve pid i length).insertLazyMmap cfg pid i

/-- The insertions of `reserve_mmap` at a fixed address. -/
def placeFixed (pid i address length : ℕ) : Option (State × Bool) :=
  let first := s.insertLazyMmap cfg pid i
  if first.2 then some first
  else (s.munmapSpace cfg pid address length).map (·.insertLazyMmap cfg pid i)

def place (pid i address length : ℕ) (fixed : Bool) : Option (State × Bool) :=
  if fixed then s.placeFixed cfg pid i address length
  else some (s.placeHint cfg pid i address length)

/-- A mapping enters `anon_mmap_table` if it is of shared anonymous memory. -/
def addAnon (i : ℕ) : State :=
  if (s.mm i).isAnonMmap then { s with anonMmapTable := i :: s.anonMmapTable } else s

/-- `reserve_mmap` of the mapping `i`. `ok` answers `htable_add` on `anon_mmap_table`. -/
def reserveMmap (pid i address length : ℕ) (fixed ok : Bool) : Option (State × Result Unit) := do
  cfg.assert (length % pageSize = 0)
  cfg.assert (address % pageSize = 0)
  let bad := s.nogo pid address length
  if bad ∧ fixed then some (s, .error .EEXIST)
  else if (s.mm i).isAnonMmap ∧ ok = false then some (s, .error .ENOMEM)
  else
    let address := if bad then 0 else address
    let r ← ((s.addAnon i).setMm i ((s.mm i).at address length)).place cfg pid i address length fixed
    cfg.assert (r.2 = true)
    some (r.1, .ok ())

end State

end Sneks.Vm
