import Mathlib.Data.List.AList
import Mathlib.Data.List.MinMax
import Mathlib.Order.Bounds.Basic
import Sneks.Exec.Fdlist
import Sneks.Lib.Run

/-!
# The table of descriptors in a program

`__create_fd`, `__create_fd_ext`, `close`, `dup3` and `F_DUPFD` of the user runtime
(`user/crt/file.c`). The tables are maps from numbers, with a mark at the first free number and one
at the last that is taken. Answers of servers and of `malloc` come with the call. Results are the
functions' own; `errno` is left out.

`closed` is no part of the source. It has the handles that were given to `__io_close`.
-/

namespace Sneks.Crt
open Lib
open Exec (Word FdBits)

abbrev Stat := List UInt8

def MAX_FD : ℤ := (1 <<< 15) - 1

def EBADF : ℤ := 9
def ENOMEM : ℤ := 12
def EEXIST : ℤ := 17
def EINVAL : ℤ := 22
def EMFILE : ℤ := 24

def FD_CLOEXEC : Word := 1
def SNEKS_IO_FD_CLOEXEC : Word := 1
def O_CLOEXEC : Word := 0x80000

inductive Stop
  | assertion | abort
  deriving DecidableEq

structure Table where
  fdMap : AList fun _ : ℤ => FdBits
  fdextMap : AList fun _ : ℤ => Stat
  firstFree : ℤ
  lastAlloc : ℤ
  closed : List (Word × Word)
  deriving DecidableEq

namespace Table

def init : Table := ⟨∅, ∅, 0, -1, []⟩

variable (t : Table)

def get (fd : ℤ) : Option FdBits := t.fdMap.lookup fd

def invariants : Bool :=
  t.firstFree ≤ t.lastAlloc + 1 ∧ (t.fdMap.keys = [] ∨ 0 ≤ t.lastAlloc) ∧
    (t.fdMap.keys ≠ [] ∨ t.firstFree = 0) ∧ (t.fdMap.keys ≠ [] ∨ t.lastAlloc = -1) ∧
    t.get t.firstFree = none ∧ (t.lastAlloc < 0 ∨ t.get t.lastAlloc ≠ none) ∧
    ∀ fd ∈ t.fdextMap.keys, t.get fd ≠ none

def check (c : Bool) : Except Stop Unit := if c then .ok () else .error .assertion

def fdbits (fd : ℤ) : Option FdBits := if fd < 0 ∨ MAX_FD < fd then none else t.get fd

def fdext (fd : ℤ) : Option Stat := t.fdextMap.lookup fd

/-- `sintmap_after`: the next number that is taken. -/
def after (ix : ℤ) : Option ℤ := (t.fdMap.keys.filter (ix < ·)).min?

/-- `while(ix <= MAX_FD) { if(sintmap_get(&fd_map, ++ix) == NULL) break; }`, and whether it broke. -/
def scan (ix : ℤ) : ℤ × Bool :=
  if _h : ix ≤ MAX_FD then if t.get (ix + 1) = none then (ix + 1, true) else scan (ix + 1)
  else (ix, false)
termination_by (MAX_FD + 1 - ix).toNat
decreasing_by omega

/-- `while(last_alloc > 0) { if(sintmap_get(&fd_map, --last_alloc) != NULL) break; }`. -/
def retreat (last : ℤ) : ℤ :=
  if _h : 0 < last then if t.get (last - 1) ≠ none then last - 1 else retreat (last - 1) else last
termination_by last.toNat
decreasing_by omega

def nextFreeFd (low : ℤ) : Except Stop ℤ := do
  check t.invariants
  check (0 ≤ low)
  if t.lastAlloc < low then return low
  if low ≤ t.firstFree then return t.firstFree
  match t.after (low - 1) with
  | none => throw .assertion
  | some ix =>
    if low < ix then return low
    match t.scan ix with
    | (ix, true) => return ix
    | (_, false) => return -EMFILE

/-- Whether `malloc` and `sintmap_add` find memory, for a descriptor and for its `fd_ext`. -/
structure Memory where
  bits : Bool
  add : Bool
  ext : Bool
  addExt : Bool

def Memory.ok (mem : Memory) : Bool := mem.bits && mem.add

def added (fd : ℤ) (bits : FdBits) : Table :=
  let t' := { t with fdMap := t.fdMap.insert fd bits, lastAlloc := max t.lastAlloc fd }
  if fd = t.firstFree then { t' with firstFree := (t'.scan t.firstFree).1 } else t'

/-- `__create_fd`, from where the number is chosen. -/
def add (fd : ℤ) (bits : FdBits) (mem : Memory) : Except Stop (ℤ × Table) := do
  if mem.bits = false then return (-ENOMEM, t)
  if mem.add = false then return (-ENOMEM, t)
  check (t.added fd bits).invariants
  return (fd, t.added fd bits)

def createFd (fd : ℤ) (server handle flags : Word) (mem : Memory) : Except Stop (ℤ × Table) := do
  check t.invariants
  if flags &&& ~~~FD_CLOEXEC ≠ 0 then return (-EINVAL, t)
  if 0 ≤ fd ∧ t.get fd ≠ none then return (-EEXIST, t)
  if fd < 0 then
    let fd ← t.nextFreeFd 0
    if fd < 0 then return (fd, t)
    check (t.get fd = none)
    t.add fd ⟨server, handle, flags⟩ mem
  else t.add fd ⟨server, handle, flags⟩ mem

def createFdExt (reqfd : ℤ) (server handle flags : Word) (st : Option Stat) (mem : Memory) :
    Except Stop (ℤ × Table) := do
  let (fd, t) ← t.createFd reqfd server handle flags mem
  match st with
  | none => return (fd, t)
  | some st =>
    if mem.ext = false then .error .abort
    else if t.fdextMap.lookup fd ≠ none ∨ mem.addExt = false then .error .abort
    else return (fd, { t with fdextMap := t.fdextMap.insert fd st })

def ntoerr (n result : ℤ) : ℤ := if n = 0 then result else -1

/-- `sintmap_del`, and the first free number. -/
def erased (fd : ℤ) : Table := { t with fdMap := t.fdMap.erase fd, firstFree := min t.firstFree fd }

/-- The tables without `fd`, and their marks. -/
def removed (fd : ℤ) : Table :=
  let t' := t.erased fd
  let t' :=
    if fd = t.lastAlloc then
      { t' with lastAlloc := t'.retreat t.lastAlloc, firstFree := min t'.firstFree (t'.retreat t.lastAlloc + 1) }
    else t'
  if t.fdext fd ≠ none then { t' with fdextMap := t.fdextMap.erase fd } else t'

def close (fd n : ℤ) : Except Stop (ℤ × Table) := do
  match t.fdbits fd with
  | none => return (-1, t)
  | some b =>
    let t := { t.removed fd with closed := (b.server, b.handle) :: t.closed }
    check t.invariants
    return (ntoerr n 0, t)

/-- What `dup3` is told: by `__io_dup`, by `__io_close` about the old descriptor, by `malloc`. -/
structure DupAnswers where
  dup : ℤ
  newHandle : Word
  close : ℤ
  mem : Memory

def dup3 (oldfd newfd : ℤ) (flags : Word) (ans : DupAnswers) : Except Stop (ℤ × Table) := do
  if oldfd = newfd ∨ flags &&& ~~~O_CLOEXEC ≠ 0 then return (-1, t)
  let flags := if flags &&& O_CLOEXEC ≠ 0 then SNEKS_IO_FD_CLOEXEC else 0
  match t.fdbits oldfd with
  | none => return (-1, t)
  | some bits =>
    if ans.dup ≠ 0 then return (-1, t)
    let (_, t) ← if 0 ≤ newfd ∧ t.fdbits newfd ≠ none then t.close newfd ans.close else .ok (0, t)
    let (n, t) ← t.createFdExt newfd bits.server ans.newHandle flags (t.fdext oldfd) ans.mem
    if n < 0 then return (-1, { t with closed := (bits.server, ans.newHandle) :: t.closed })
    return (n, t)

def dup2 (oldfd newfd : ℤ) (ans : DupAnswers) : Except Stop (ℤ × Table) :=
  if oldfd = newfd then .ok (newfd, t) else t.dup3 oldfd newfd 0 ans

def dup (oldfd : ℤ) (ans : DupAnswers) : Except Stop (ℤ × Table) := t.dup2 oldfd (-1) ans

def fcntlDupfd (fd low : ℤ) (ans : DupAnswers) : Except Stop (ℤ × Table) := do
  match t.fdbits fd with
  | none => return (-1, t)
  | some _ =>
    if low < 0 then return (-1, t)
    let newfd ← t.nextFreeFd low
    if newfd < 0 then return (ntoerr newfd 0, t)
    t.dup2 fd newfd ans

def LeastUnused (low n : ℤ) : Prop :=
  IsLeast {k | low ≤ k ∧ k ≤ MAX_FD ∧ k ∉ t.fdMap} n ∨
    (∀ k, low ≤ k → k ≤ MAX_FD → k ∈ t.fdMap) ∧ n = -EMFILE

/-- A number is unused from `low` to `MAX_FD`; or there is a lower one, and the first that is past
both is taken. -/
def Findable (low : ℤ) : Prop :=
  (∃ k, low ≤ k ∧ k ≤ MAX_FD ∧ k ∉ t.fdMap) ∨
    max low (MAX_FD + 1) ∈ t.fdMap ∧ ∃ k, 0 ≤ k ∧ k < low ∧ k ∉ t.fdMap

/-- A number other than `fd` is unused up to `MAX_FD + 1`. -/
def Roomy (fd : ℤ) : Prop := ∃ k, 0 ≤ k ∧ k ≤ MAX_FD + 1 ∧ k ≠ fd ∧ k ∉ t.fdMap

def number (fd : ℤ) : ℤ := if fd < 0 then t.firstFree else fd

/-- A descriptor can be added, and without memory there is no `fd_ext` for it. -/
def Addable (fd : ℤ) (st : Option Stat) (mem : Memory) : Prop :=
  (fd < 0 → t.firstFree ≤ MAX_FD) ∧ if mem.ok then t.Roomy (t.number fd) else st = none

inductive FdCall
  | create (reqfd : ℤ) (server handle flags : Word) (st : Option Stat) (mem : Memory)
  | close (fd n : ℤ)
  | dup (oldfd : ℤ) (ans : DupAnswers)
  | dup2 (oldfd newfd : ℤ) (ans : DupAnswers)
  | dup3 (oldfd newfd : ℤ) (flags : Word) (ans : DupAnswers)
  | dupfd (fd low : ℤ) (ans : DupAnswers)

def exec : FdCall → Except Stop (ℤ × Table)
  | .create reqfd server handle flags st mem => t.createFdExt reqfd server handle flags st mem
  | .close fd n => t.close fd n
  | .dup oldfd ans => t.dup oldfd ans
  | .dup2 oldfd newfd ans => t.dup2 oldfd newfd ans
  | .dup3 oldfd newfd flags ans => t.dup3 oldfd newfd flags ans
  | .dupfd fd low ans => t.fcntlDupfd fd low ans

def next (call : FdCall) : Option Table := (t.exec call).toOption.map Prod.snd

/-- A copy under `newfd` can be made, when what is there has been closed. -/
def DupFits (oldfd newfd : ℤ) (ans : DupAnswers) : Prop :=
  oldfd ≠ newfd → t.fdbits oldfd ≠ none → ans.dup = 0 →
    if MAX_FD < newfd ∧ newfd ∈ t.fdMap then t.fdext oldfd = none
    else t.Addable newfd (t.fdext oldfd) ans.mem

def Fits : FdCall → Prop
  | .create reqfd _ _ flags st mem =>
    if flags &&& ~~~FD_CLOEXEC ≠ 0 ∨ reqfd ∈ t.fdMap then st = none else t.Addable reqfd st mem
  | .close fd _ => t.fdbits fd ≠ none → ∃ k ∈ t.fdMap, k ≠ fd
  | .dup oldfd ans => t.DupFits oldfd (-1) ans
  | .dup2 oldfd newfd ans => t.DupFits oldfd newfd ans
  | .dup3 oldfd newfd flags ans => flags &&& ~~~O_CLOEXEC = 0 → t.DupFits oldfd newfd ans
  | .dupfd fd low ans => t.fdbits fd ≠ none → 0 ≤ low →
    t.Findable low ∧ ∀ n, t.LeastUnused low n → 0 ≤ n → t.DupFits fd n ans

/-- A call ends the program in no other way than `abort`, or it returns with a table as told. -/
def Ends (P : Table → Prop) : Except Stop (ℤ × Table) → Prop
  | .error .assertion => False
  | .error .abort => True
  | .ok (_, t) => P t

def Kept (t t' : Table) : Prop :=
  ∃ handles, t'.closed = handles ++ t.closed ∧
    ∀ fd b, t.get fd = some b → t'.get fd = some b ∨ (b.server, b.handle) ∈ handles

variable {t : Table} {fd low n ix : ℤ}

structure Good (t : Table) : Prop where
  nonneg : ∀ k ∈ t.fdMap, 0 ≤ k
  first_nonneg : 0 ≤ t.firstFree
  first_le : t.firstFree ≤ MAX_FD + 1
  free : t.firstFree ∉ t.fdMap
  below : ∀ k, 0 ≤ k → k < t.firstFree → k ∈ t.fdMap
  le_last : ∀ k ∈ t.fdMap, k ≤ t.lastAlloc
  last : (∀ k, k ∉ t.fdMap) ∧ t.lastAlloc = -1 ∨ t.lastAlloc ∈ t.fdMap
  ext : ∀ k ∈ t.fdextMap, k ∈ t.fdMap

theorem get_eq_none : t.get fd = none ↔ fd ∉ t.fdMap := AList.lookup_eq_none

theorem init_good : Good init where
  nonneg := by simp [init]
  first_nonneg := by decide
  first_le := by decide
  free := by simp [init]
  below := by simp only [init]; omega
  le_last := by simp [init]
  last := .inl ⟨by simp [init], rfl⟩
  ext := by simp [init]

theorem Good.first_le_last (h : Good t) : t.firstFree ≤ t.lastAlloc + 1 := by
  by_contra hlt
  obtain ⟨hempty, hlast⟩ | hlast := h.last
  · exact hempty 0 (h.below 0 le_rfl (by omega))
  · have hnonneg := h.nonneg _ hlast
    have hle := h.le_last (t.lastAlloc + 1) (h.below _ (by omega) (by omega))
    omega

theorem Good.invariants (h : Good t) : t.invariants = true := by
  simp only [Table.invariants, decide_eq_true_eq, ne_eq, get_eq_none, not_not]
  have hext : ∀ k ∈ t.fdextMap.keys, k ∈ t.fdMap := fun k hk => h.ext k (AList.mem_keys.mpr hk)
  obtain ⟨hempty, hlast⟩ | hlast := h.last
  · have hnil : t.fdMap.keys = [] :=
      List.eq_nil_iff_forall_not_mem.mpr fun k hk => hempty k (AList.mem_keys.mpr hk)
    have hmark := h.first_le_last
    have hzero : t.firstFree = 0 := le_antisymm (by omega) h.first_nonneg
    exact ⟨by omega, .inl hnil, .inr hzero, .inr hlast, h.free, .inl (by omega), hext⟩
  · have hne : t.fdMap.keys ≠ [] := List.ne_nil_of_mem (AList.mem_keys.mp hlast)
    exact ⟨h.first_le_last, .inr (h.nonneg _ hlast), .inl hne, .inl hne, h.free, .inr hlast, hext⟩

theorem scan_spec (t : Table) (ix : ℤ) :
    (t.scan ix).2 = true ∧ ix < (t.scan ix).1 ∧ (t.scan ix).1 ≤ MAX_FD + 1 ∧ (t.scan ix).1 ∉ t.fdMap ∧
        (∀ k, ix < k → k < (t.scan ix).1 → k ∈ t.fdMap) ∨
      (t.scan ix).2 = false ∧ ∀ k, ix < k → k ≤ MAX_FD + 1 → k ∈ t.fdMap := by
  fun_induction scan t ix with
  | case1 ix h hnone => exact .inl ⟨rfl, by omega, by omega, get_eq_none.mp hnone, by omega⟩
  | case2 ix h hsome ih =>
    have hused : ix + 1 ∈ t.fdMap := not_not.mp fun hno => hsome (get_eq_none.mpr hno)
    obtain ⟨hfound, hlt, hle, hfree, hbelow⟩ | ⟨hpast, hall⟩ := ih
    · refine .inl ⟨hfound, by omega, hle, hfree, fun k hk hkr => ?_⟩
      obtain rfl | hk : k = ix + 1 ∨ ix + 1 < k := by omega
      · exact hused
      · exact hbelow k hk hkr
    · refine .inr ⟨hpast, fun k hk hkm => ?_⟩
      obtain rfl | hk : k = ix + 1 ∨ ix + 1 < k := by omega
      · exact hused
      · exact hall k hk hkm
  | case3 ix h => exact .inr ⟨rfl, by omega⟩

theorem retreat_spec (hle : ∀ k ∈ t.fdMap, k ≤ n) (hn : n ∉ t.fdMap) (hex : ∃ k ∈ t.fdMap, 0 ≤ k) :
    t.retreat n ∈ t.fdMap ∧ ∀ k ∈ t.fdMap, k ≤ t.retreat n := by
  have hlt : ∀ k ∈ t.fdMap, k ≤ n - 1 := fun k hk => by
    have hne : k ≠ n := fun heq => hn (heq ▸ hk)
    have hkn := hle k hk
    omega
  fun_induction retreat t n with
  | case1 n h hused => exact ⟨not_not.mp fun hno => hused (get_eq_none.mpr hno), hlt⟩
  | case2 n h hfree ih =>
    have hfree : n - 1 ∉ t.fdMap := get_eq_none.mp (not_not.mp hfree)
    refine ih hlt hfree fun k hk => ?_
    have hne : k ≠ n - 1 := fun heq => hfree (heq ▸ hk)
    have hkn := hlt k hk
    omega
  | case3 n h =>
    obtain ⟨k, hk, hnonneg⟩ := hex
    have hkn := hlt k hk
    omega

theorem after_spec (hex : ∃ k ∈ t.fdMap, low ≤ k) :
    ∃ ix, t.after (low - 1) = some ix ∧ ix ∈ t.fdMap ∧ low ≤ ix ∧ ∀ k ∈ t.fdMap, low ≤ k → ix ≤ k := by
  obtain ⟨k, hk, hlow⟩ := hex
  have hmem (k : ℤ) : k ∈ t.fdMap.keys.filter (low - 1 < ·) ↔ k ∈ t.fdMap ∧ low ≤ k := by
    rw [List.mem_filter, decide_eq_true_eq, ← AList.mem_keys]
    exact and_congr_right fun _ => by omega
  cases hmin : t.after (low - 1) with
  | none =>
    have hnil := List.min?_eq_none_iff.mp hmin
    exact absurd ((hmem k).mpr ⟨hk, hlow⟩) (hnil ▸ List.not_mem_nil)
  | some ix =>
    obtain ⟨hix, hle⟩ := List.min?_eq_some_iff.mp hmin
    obtain ⟨hused, hge⟩ := (hmem ix).mp hix
    exact ⟨ix, rfl, hused, hge, fun k hk hlow => hle k ((hmem k).mpr ⟨hk, hlow⟩)⟩

theorem check_of {c : Bool} (h : c = true) : check c = .ok () := if_pos h

theorem nextFreeFd_spec (h : Good t) (hlow : 0 ≤ low) : ∃ n, t.nextFreeFd low = .ok n ∧
    (IsLeast {k | low ≤ k ∧ k ∉ t.fdMap} n ∧ (low ≤ t.firstFree → n = t.firstFree) ∧ n ≤ max low (MAX_FD + 1) ∨
      n = -EMFILE ∧ t.firstFree < low ∧ low ∈ t.fdMap ∧ ∀ k, low ≤ k → k ≤ MAX_FD + 1 → k ∈ t.fdMap) := by
  have hbelow : low ≤ t.firstFree → ∀ k, low ≤ k → k ∉ t.fdMap → t.firstFree ≤ k := by
    intro hle k hk hfree
    by_contra hlt
    exact hfree (h.below k (by omega) (by omega))
  simp only [nextFreeFd, check_of h.invariants, check_of (decide_eq_true hlow), bind, Except.bind, pure, Except.pure]
  split_ifs with hlast hfirst
  · have hfree : low ∉ t.fdMap := fun hused => by
      have hle := h.le_last low hused
      omega
    have hmark := h.first_le_last
    exact ⟨low, rfl, .inl ⟨⟨⟨le_rfl, hfree⟩, fun k hk => hk.1⟩, by omega, by omega⟩⟩
  · have hle := h.first_le
    exact ⟨_, rfl, .inl ⟨⟨⟨hfirst, h.free⟩, fun k hk => hbelow hfirst k hk.1 hk.2⟩, fun _ => rfl, by omega⟩⟩
  · have hmark := h.first_le_last
    obtain ⟨-, hnil⟩ | hused := h.last
    · omega
    obtain ⟨ix, hafter, hix, hge, hmin⟩ := after_spec ⟨_, hused, not_lt.mp hlast⟩
    simp only [hafter]
    by_cases hgap : low < ix
    · have hfree : low ∉ t.fdMap := fun hused => by
        have hle := hmin low hused le_rfl
        omega
      refine ⟨low, by rw [if_pos hgap], .inl ⟨⟨⟨le_rfl, hfree⟩, fun k hk => hk.1⟩, by omega, by omega⟩⟩
    · obtain rfl : ix = low := by omega
      rw [if_neg hgap]
      obtain ⟨hfound, hlt, hle, hfree, hall⟩ | ⟨hpast, hall⟩ := scan_spec t ix
      · refine ⟨_, by rw [← Prod.mk.eta (p := t.scan ix), hfound], .inl ⟨⟨⟨by omega, hfree⟩, ?_⟩, by omega, by omega⟩⟩
        intro k ⟨hk, hkfree⟩
        by_contra hkr
        obtain rfl | hk : k = ix ∨ ix < k := by omega
        · exact hkfree hix
        · exact hkfree (hall k hk (by omega))
      · refine ⟨-EMFILE, by rw [← Prod.mk.eta (p := t.scan ix), hpast], .inr ⟨rfl, by omega, hix, ?_⟩⟩
        intro k hk hkm
        obtain rfl | hk : k = ix ∨ ix < k := by omega
        · exact hix
        · exact hall k hk hkm

theorem leastUnused_iff (h : Good t) (hlow : 0 ≤ low) :
    (∃ n, t.nextFreeFd low = .ok n ∧ t.LeastUnused low n) ↔ t.Findable low := by
  obtain ⟨n, heq, ⟨⟨⟨hge, hfree⟩, hmin⟩, hfirst, hle⟩ | ⟨rfl, hfirst, hused, hall⟩⟩ := nextFreeFd_spec h hlow
  · simp only [heq, Except.ok.injEq, exists_eq_left']
    constructor
    · rintro (⟨⟨-, hmax, -⟩, -⟩ | ⟨-, rfl⟩)
      · exact .inl ⟨n, hge, hmax, hfree⟩
      · simp only [EMFILE] at hge
        omega
    · intro hfind
      suffices hmax : n ≤ MAX_FD from .inl ⟨⟨hge, hmax, hfree⟩, fun k hk => hmin ⟨hk.1, hk.2.2⟩⟩
      obtain ⟨k, hk, hkm, hkfree⟩ | ⟨htaken, k, hk, hklow, hkfree⟩ := hfind
      · exact (hmin ⟨hk, hkfree⟩).trans hkm
      · have hne : n ≠ max low (MAX_FD + 1) := fun hn => hfree (hn ▸ htaken)
        omega
  · simp only [heq, Except.ok.injEq, exists_eq_left']
    refine iff_of_true (.inr ⟨fun k hk hkm => hall k hk (by omega), rfl⟩) (.inr ⟨?_, ?_⟩)
    · obtain hle | hlt := le_or_gt low (MAX_FD + 1)
      · rw [max_eq_right hle]
        exact hall _ hle le_rfl
      · rwa [max_eq_left hlt.le]
    · exact ⟨t.firstFree, h.first_nonneg, hfirst, h.free⟩

theorem Kept.refl (t : Table) : Kept t t := ⟨[], rfl, fun _ _ h => .inl h⟩

theorem Kept.trans {t' t'' : Table} (h : Kept t t') (h' : Kept t' t'') : Kept t t'' := by
  obtain ⟨handles, hclosed, hkept⟩ := h
  obtain ⟨handles', hclosed', hkept'⟩ := h'
  refine ⟨handles' ++ handles, by rw [hclosed', hclosed, List.append_assoc], fun fd b hb => ?_⟩
  obtain hb | hmem := hkept fd b hb
  · exact (hkept' fd b hb).imp_right (List.mem_append_left _)
  · exact .inr (List.mem_append_right _ hmem)

theorem Kept.of_get {t' : Table} (hclosed : t'.closed = t.closed)
    (hget : ∀ fd ∈ t.fdMap, t'.get fd = t.get fd) : Kept t t' := by
  refine ⟨[], hclosed, fun fd b hb => .inl ?_⟩
  rw [hget fd (AList.lookup_isSome.mp (Option.isSome_iff_exists.mpr ⟨b, hb⟩)), hb]

theorem added_fdMap (t : Table) (fd : ℤ) (bits : FdBits) : (t.added fd bits).fdMap = t.fdMap.insert fd bits := by
  unfold added
  dsimp only
  split <;> rfl

theorem added_rest (t : Table) (fd : ℤ) (bits : FdBits) : (t.added fd bits).fdextMap = t.fdextMap ∧
    (t.added fd bits).closed = t.closed ∧ (t.added fd bits).lastAlloc = max t.lastAlloc fd := by
  unfold added
  dsimp only
  split <;> exact ⟨rfl, rfl, rfl⟩

theorem added_first (bits : FdBits) (h : Good t) (hroom : t.Roomy fd) :
    0 ≤ (t.added fd bits).firstFree ∧ (t.added fd bits).firstFree ≤ MAX_FD + 1 ∧
      (t.added fd bits).firstFree ∉ (t.added fd bits).fdMap ∧
      ∀ k, 0 ≤ k → k < (t.added fd bits).firstFree → k ∈ (t.added fd bits).fdMap := by
  rw [added_fdMap]
  simp only [AList.mem_insert, not_or]
  have hnonneg := h.first_nonneg
  unfold added
  split
  · next heq =>
    -- `fd` was the first, the loop looks for another one
    dsimp only
    obtain ⟨-, hlt, hle, hfree, hall⟩ | ⟨-, hall⟩ := scan_spec
      { t with fdMap := t.fdMap.insert fd bits, lastAlloc := max t.lastAlloc fd } t.firstFree
    · simp only [AList.mem_insert, not_or] at hfree hall
      refine ⟨by omega, hle, hfree, fun k hk hkr => ?_⟩
      obtain hlt | rfl | hgt := lt_trichotomy k t.firstFree
      · exact .inr (h.below k hk hlt)
      · exact .inl heq.symm
      · exact hall k hgt hkr
    · obtain ⟨k, hk, hkm, hne, hfree⟩ := hroom
      have hgt : t.firstFree < k := by
        by_contra hle
        exact hfree (h.below k hk (by omega))
      have hused := hall k hgt hkm
      simp only [AList.mem_insert] at hused
      exact absurd hused (not_or.mpr ⟨hne, hfree⟩)
  · next hne => exact ⟨hnonneg, h.first_le, ⟨Ne.symm hne, h.free⟩, fun k hk hlt => .inr (h.below k hk hlt)⟩

theorem added_good (bits : FdBits) (h : Good t) (hfd : 0 ≤ fd) (hroom : t.Roomy fd) : Good (t.added fd bits) := by
  obtain ⟨hnonneg, hle, hfree, hbelow⟩ := added_first bits h hroom
  obtain ⟨hext, -, hlast⟩ := added_rest t fd bits
  have hmem (k : ℤ) : k ∈ (t.added fd bits).fdMap ↔ k = fd ∨ k ∈ t.fdMap := by
    rw [added_fdMap, AList.mem_insert]
  refine ⟨fun k hk => ?_, hnonneg, hle, hfree, hbelow, fun k hk => ?_, .inr ?_, fun k hk => ?_⟩
  · obtain rfl | hk := (hmem k).mp hk
    · exact hfd
    · exact h.nonneg k hk
  · rw [hlast]
    obtain rfl | hk := (hmem k).mp hk
    · exact le_max_right _ _
    · exact (h.le_last k hk).trans (le_max_left _ _)
  · rw [hlast, hmem]
    obtain ⟨-, hnil⟩ | hused := h.last
    · exact .inl (by omega)
    · obtain hle | hlt := le_or_gt t.lastAlloc fd
      · exact .inl (max_eq_right hle)
      · exact .inr (by rwa [max_eq_left hlt.le])
  · exact (hmem k).mpr (.inr (h.ext k (hext ▸ hk)))

theorem add_spec {bits : FdBits} {mem : Memory} (h : Good t) (hfd : 0 ≤ fd) (hroom : t.Roomy fd)
    (hmem : mem.ok = true) : t.add fd bits mem = .ok (fd, t.added fd bits) := by
  obtain ⟨hbits, hadd⟩ : mem.bits = true ∧ mem.add = true := by simpa [Memory.ok] using hmem
  simp only [add, hbits, hadd, Bool.true_eq_false, if_false, check_of (added_good bits h hfd hroom).invariants]
  rfl

theorem add_nomem {bits : FdBits} {mem : Memory} (hmem : mem.ok = false) : t.add fd bits mem = .ok (-ENOMEM, t) := by
  rw [add]
  cases hbits : mem.bits with
  | false => rfl
  | true =>
    have hadd : mem.add = false := by simpa [Memory.ok, hbits] using hmem
    rw [if_neg Bool.noConfusion, if_pos hadd]
    rfl

theorem number_spec (h : Good t) (hfd : fd ∉ t.fdMap) : 0 ≤ t.number fd ∧ t.number fd ∉ t.fdMap := by
  unfold number
  split
  · exact ⟨h.first_nonneg, h.free⟩
  · exact ⟨by omega, hfd⟩

theorem nextFreeFd_zero (h : Good t) : t.nextFreeFd 0 = .ok t.firstFree := by
  have hnonneg := h.first_nonneg
  obtain ⟨n, heq, ⟨-, hfirst, -⟩ | ⟨-, hlt, -⟩⟩ := nextFreeFd_spec h le_rfl
  · rw [heq, hfirst hnonneg]
  · omega

variable {server handle flags : Word} {st : Option Stat} {mem : Memory}

theorem createFd_eq (server handle : Word) (mem : Memory) (h : Good t) (hflags : flags &&& ~~~FD_CLOEXEC = 0) (hfd : fd ∉ t.fdMap) :
    t.createFd fd server handle flags mem = t.add (t.number fd) ⟨server, handle, flags⟩ mem := by
  have hno : ¬ (0 ≤ fd ∧ t.get fd ≠ none) := fun hno => hno.2 (get_eq_none.mpr hfd)
  have hnonneg := h.first_nonneg
  have hfree : t.get t.firstFree = none := get_eq_none.mpr h.free
  simp only [createFd, check_of h.invariants, bind, Except.bind, hflags, ne_eq, not_true, if_false, if_neg hno,
    nextFreeFd_zero h, hfree, decide_true, check_of, number]
  split
  · rw [if_neg (by omega)]
  · rfl

theorem createFd_invalid (server handle : Word) (mem : Memory) (h : Good t) (hno : flags &&& ~~~FD_CLOEXEC ≠ 0 ∨ fd ∈ t.fdMap) :
    ∃ n, t.createFd fd server handle flags mem = .ok (n, t) := by
  simp only [createFd, check_of h.invariants, bind, Except.bind]
  split
  · exact ⟨_, rfl⟩
  · rename_i hflags
    have hfd := hno.resolve_left hflags
    rw [if_pos ⟨h.nonneg fd hfd, fun hnone => get_eq_none.mp hnone hfd⟩]
    exact ⟨_, rfl⟩

theorem added_kept (bits : FdBits) (hfd : fd ∉ t.fdMap) : Kept t (t.added fd bits) := by
  refine Kept.of_get (added_rest t fd bits).2.1 fun k hk => ?_
  rw [get, added_fdMap]
  exact AList.lookup_insert_ne fun heq => hfd (heq ▸ hk)

theorem Good.of_ext (h : Good t) (st : Stat) (hfd : fd ∈ t.fdMap) :
    Good { t with fdextMap := t.fdextMap.insert fd st } :=
  { h with
    ext := fun k hk => by
      obtain rfl | hk := (AList.mem_insert _).mp hk
      · exact hfd
      · exact h.ext k hk }

theorem createFdExt_ends (h : Good t)
    (hfits : if flags &&& ~~~FD_CLOEXEC ≠ 0 ∨ fd ∈ t.fdMap then st = none else t.Addable fd st mem) :
    Ends (fun t' => Good t' ∧ Kept t t') (t.createFdExt fd server handle flags st mem) := by
  split at hfits
  · next hno =>
    obtain ⟨n, heq⟩ := createFd_invalid server handle mem h hno
    subst hfits
    simp only [createFdExt, heq]
    exact ⟨h, Kept.refl t⟩
  · next hyes =>
    obtain ⟨hflags, hfd⟩ := not_or.mp hyes
    have heq := createFd_eq server handle mem h (not_not.mp hflags) hfd
    obtain ⟨hnonneg, hfree⟩ := number_spec h hfd
    have hroom := hfits.2
    simp only [createFdExt, heq]
    split at hroom
    · next hmem =>
      have hgood := added_good ⟨server, handle, flags⟩ h hnonneg hroom
      have hkept := added_kept ⟨server, handle, flags⟩ hfree
      rw [add_spec h hnonneg hroom hmem]
      simp only [bind, Except.bind]
      cases st with
      | none => exact ⟨hgood, hkept⟩
      | some st =>
        dsimp only
        split
        · exact trivial
        · split
          · exact trivial
          · exact ⟨hgood.of_ext st (by rw [added_fdMap]; exact AList.mem_insert _ |>.mpr (.inl rfl)), hkept⟩
    · next hmem =>
      subst hroom
      rw [add_nomem (Bool.eq_false_iff.mpr hmem)]
      exact ⟨h, Kept.refl t⟩

theorem mem_removed {k : ℤ} : k ∈ (t.removed fd).fdMap ↔ k ≠ fd ∧ k ∈ t.fdMap := by
  have hmap : (t.removed fd).fdMap = t.fdMap.erase fd := by
    unfold removed
    split_ifs <;> rfl
  rw [hmap, AList.mem_erase]

theorem get_removed {k : ℤ} (hk : k ≠ fd) : (t.removed fd).get k = t.get k := by
  have hmap : (t.removed fd).fdMap = t.fdMap.erase fd := by
    unfold removed
    split_ifs <;> rfl
  rw [get, hmap]
  exact AList.lookup_erase_ne hk

theorem mem_removed_ext {k : ℤ} : k ∈ (t.removed fd).fdextMap ↔ k ≠ fd ∧ k ∈ t.fdextMap := by
  by_cases hext : t.fdext fd = none
  · have hmap : (t.removed fd).fdextMap = t.fdextMap := by
      rw [removed, if_neg (not_not_intro hext)]
      split <;> rfl
    rw [hmap]
    refine ⟨fun hk => ⟨?_, hk⟩, And.right⟩
    rintro rfl
    exact AList.lookup_eq_none.mp hext hk
  · have hmap : (t.removed fd).fdextMap = t.fdextMap.erase fd := by
      rw [removed, if_pos hext]
    rw [hmap, AList.mem_erase]

theorem retreat_erased (h : Good t) (hfd : fd = t.lastAlloc) (hother : ∃ k ∈ t.fdMap, k ≠ fd) :
    (t.erased fd).retreat t.lastAlloc ∈ (t.erased fd).fdMap ∧
      ∀ k ∈ (t.erased fd).fdMap, k ≤ (t.erased fd).retreat t.lastAlloc := by
  have hmem (k : ℤ) : k ∈ (t.erased fd).fdMap ↔ k ≠ fd ∧ k ∈ t.fdMap := AList.mem_erase
  obtain ⟨k, hk, hne⟩ := hother
  refine retreat_spec (fun k hk => h.le_last k ((hmem k).mp hk).2) ?_ ⟨k, (hmem k).mpr ⟨hne, hk⟩, h.nonneg k hk⟩
  exact fun hno => ((hmem _).mp hno).1 hfd.symm

theorem removed_marks (t : Table) (fd : ℤ) :
    if fd = t.lastAlloc then
      (t.removed fd).lastAlloc = (t.erased fd).retreat t.lastAlloc ∧
        (t.removed fd).firstFree = min (min t.firstFree fd) ((t.erased fd).retreat t.lastAlloc + 1)
    else (t.removed fd).lastAlloc = t.lastAlloc ∧ (t.removed fd).firstFree = min t.firstFree fd := by
  unfold removed
  split_ifs <;> exact ⟨rfl, rfl⟩

theorem removed_spec (h : Good t) (hfd : fd ∈ t.fdMap) (hother : ∃ k ∈ t.fdMap, k ≠ fd) :
    (t.removed fd).lastAlloc ∈ (t.removed fd).fdMap ∧
      (∀ k ∈ (t.removed fd).fdMap, k ≤ (t.removed fd).lastAlloc) ∧ (t.removed fd).firstFree = min t.firstFree fd := by
  have hmarks := removed_marks t fd
  have hmem (k : ℤ) : k ∈ (t.erased fd).fdMap ↔ k ∈ (t.removed fd).fdMap := by rw [mem_removed, ← AList.mem_erase]; rfl
  split at hmarks
  · next heq =>
    obtain ⟨hlast, hle⟩ := retreat_erased h heq hother
    rw [hmarks.1, hmarks.2]
    refine ⟨(hmem _).mp hlast, fun k hk => hle k ((hmem k).mpr hk), min_eq_left ?_⟩
    -- the number below the mark is taken
    have hnonneg := h.nonneg _ ((AList.mem_erase).mp hlast).2
    by_contra hlt
    have hbelow := h.below (min t.firstFree fd - 1) (by omega) (by omega)
    have hle := hle (min t.firstFree fd - 1) ((hmem _).mpr (mem_removed.mpr ⟨by omega, hbelow⟩))
    omega
  · next hne =>
    have hused : t.lastAlloc ∈ t.fdMap := h.last.resolve_left fun hno => hno.1 fd hfd
    rw [hmarks.1, hmarks.2]
    exact ⟨mem_removed.mpr ⟨Ne.symm hne, hused⟩, fun k hk => h.le_last k (mem_removed.mp hk).2, rfl⟩

theorem removed_good (h : Good t) (hfd : fd ∈ t.fdMap) (hother : ∃ k ∈ t.fdMap, k ≠ fd) : Good (t.removed fd) := by
  have hnonneg := h.nonneg fd hfd
  have hmark := h.first_nonneg
  have hmark' := h.first_le
  obtain ⟨hlast, hle, hfirst⟩ := removed_spec h hfd hother
  refine ⟨fun k hk => h.nonneg k (mem_removed.mp hk).2, by omega, by omega, ?_, fun k hk hlt => ?_, hle, .inr hlast, ?_⟩
  · rw [hfirst, mem_removed]
    obtain hle | hlt := le_or_gt t.firstFree fd
    · rw [min_eq_left hle]
      exact fun hno => h.free hno.2
    · rw [min_eq_right hlt.le]
      exact fun hno => hno.1 rfl
  · exact mem_removed.mpr ⟨by omega, h.below k hk (by omega)⟩
  · intro k hk
    obtain ⟨hne, hk⟩ := mem_removed_ext.mp hk
    exact mem_removed.mpr ⟨hne, h.ext k hk⟩

theorem fdbits_eq_some {b : FdBits} (h : t.fdbits fd = some b) : fd ∈ t.fdMap ∧ t.get fd = some b := by
  unfold fdbits at h
  split at h
  · cases h
  · exact ⟨AList.lookup_isSome.mp (Option.isSome_iff_exists.mpr ⟨b, h⟩), h⟩

theorem fdext_removed {k : ℤ} (hk : k ≠ fd) : (t.removed fd).fdext k = t.fdext k := by
  by_cases hext : t.fdext fd = none
  · rw [removed, if_neg (not_not_intro hext)]
    split <;> rfl
  · rw [removed, if_pos hext]
    exact AList.lookup_erase_ne hk

def without (t : Table) (fd : ℤ) (b : FdBits) : Table :=
  { t.removed fd with closed := (b.server, b.handle) :: t.closed }

theorem without_good (h : Good t) (b : FdBits) (hfd : fd ∈ t.fdMap) (hother : ∃ k ∈ t.fdMap, k ≠ fd) :
    Good (t.without fd b) :=
  { removed_good h hfd hother with }

theorem without_kept {b : FdBits} (hget : t.get fd = some b) : Kept t (t.without fd b) := by
  refine ⟨[(b.server, b.handle)], rfl, fun k b' hb' => ?_⟩
  by_cases heq : k = fd
  · subst heq
    rw [hget] at hb'
    cases hb'
    exact .inr (List.mem_singleton_self _)
  · exact .inl ((get_removed heq).trans hb')

theorem close_eq {b : FdBits} (h : Good t) (hb : t.fdbits fd = some b) (hother : ∃ k ∈ t.fdMap, k ≠ fd) :
    t.close fd n = .ok (ntoerr n 0, t.without fd b) := by
  have hgood := without_good h b (fdbits_eq_some hb).1 hother
  simp only [close, hb]
  exact congrArg (· >>= fun _ => _) (check_of hgood.invariants)

theorem close_ends (h : Good t) (hfits : t.fdbits fd ≠ none → ∃ k ∈ t.fdMap, k ≠ fd) :
    Ends (fun t' => Good t' ∧ Kept t t') (t.close fd n) := by
  cases hb : t.fdbits fd with
  | none =>
    simp only [close, hb]
    exact ⟨h, Kept.refl t⟩
  | some b =>
    obtain ⟨hfd, hget⟩ := fdbits_eq_some hb
    have hother := hfits (by rw [hb]; exact Option.some_ne_none b)
    rw [close_eq h hb hother]
    exact ⟨without_good h b hfd hother, without_kept hget⟩

theorem Ends.bind {P Q : Table → Prop} {x : Except Stop (ℤ × Table)} {f : ℤ × Table → Except Stop (ℤ × Table)}
    (hx : Ends P x) (hf : ∀ n t, P t → Ends Q (f (n, t))) : Ends Q (x >>= f) := by
  match x, hx with
  | .error .abort, _ => exact trivial
  | .ok (n, t), ht => exact hf n t ht

theorem Ends.mono {P Q : Table → Prop} {x : Except Stop (ℤ × Table)} (hx : Ends P x) (h : ∀ t, P t → Q t) :
    Ends Q x := by
  match x, hx with
  | .error .abort, _ => exact trivial
  | .ok (_, t), ht => exact h t ht

theorem fdbits_ne_none (h : t.fdbits fd ≠ none) : ¬ MAX_FD < fd := fun hlt => h (if_pos (.inr hlt))

theorem Addable.without (b : FdBits) (h : t.Addable fd st mem) (hfd : 0 ≤ fd) :
    (t.without fd b).Addable fd st mem := by
  have hnumber (u : Table) : u.number fd = fd := if_neg (by omega)
  refine ⟨fun hneg => absurd hneg (by omega), ?_⟩
  have hroom := h.2
  rw [hnumber] at hroom ⊢
  split at hroom
  · next hmem =>
    obtain ⟨k, hk, hkm, hne, hfree⟩ := hroom
    rw [if_pos hmem]
    exact ⟨k, hk, hkm, hne, fun hno => hfree (mem_removed.mp hno).2⟩
  · next hmem => rwa [if_neg hmem]

theorem dupInto_ends {b : FdBits} {newfd : ℤ} (handle : Word) (h : Good t)
    (hfits : if flags &&& ~~~FD_CLOEXEC ≠ 0 ∨ newfd ∈ t.fdMap then st = none else t.Addable newfd st mem) :
    Ends (fun t' => Good t' ∧ Kept t t') (do
      let (n, t) ← t.createFdExt newfd b.server handle flags st mem
      if n < 0 then return (-1, { t with closed := (b.server, handle) :: t.closed })
      return (n, t)) := by
  refine (createFdExt_ends h hfits).bind fun n t' ⟨hgood, hkept⟩ => ?_
  dsimp only
  split
  · exact ⟨{ hgood with }, hkept.trans ⟨[(b.server, handle)], rfl, fun _ _ h => .inl h⟩⟩
  · exact ⟨hgood, hkept⟩

theorem dup3_ends {oldfd newfd : ℤ} {ans : DupAnswers} (h : Good t)
    (hfits : flags &&& ~~~O_CLOEXEC = 0 → t.DupFits oldfd newfd ans) :
    Ends (fun t' => Good t' ∧ Kept t t') (t.dup3 oldfd newfd flags ans) := by
  rw [dup3]
  split
  · exact ⟨h, Kept.refl t⟩
  · next hargs =>
    obtain ⟨hne, hflags⟩ := not_or.mp hargs
    have hvalid : ¬ (if flags &&& O_CLOEXEC ≠ 0 then SNEKS_IO_FD_CLOEXEC else 0) &&& ~~~FD_CLOEXEC ≠ 0 := by
      split <;> decide
    generalize (if flags &&& O_CLOEXEC ≠ 0 then SNEKS_IO_FD_CLOEXEC else 0) = flags' at hvalid ⊢
    cases hb : t.fdbits oldfd with
    | none => exact ⟨h, Kept.refl t⟩
    | some b =>
      dsimp only
      split
      · exact ⟨h, Kept.refl t⟩
      · next hdup =>
        have hfits := hfits (not_not.mp hflags) hne (by rw [hb]; exact Option.some_ne_none b) (not_not.mp hdup)
        split
        · next hopen =>
          obtain ⟨b', hb'⟩ := Option.ne_none_iff_exists'.mp hopen.2
          obtain ⟨hfd, hget⟩ := fdbits_eq_some hb'
          have hother : ∃ k ∈ t.fdMap, k ≠ newfd := ⟨oldfd, (fdbits_eq_some hb).1, hne⟩
          rw [close_eq h hb' hother]
          have hfree : newfd ∉ (t.without newfd b').fdMap := fun hno => (mem_removed.mp hno).1 rfl
          have hext : (t.without newfd b').fdext oldfd = t.fdext oldfd := fdext_removed hne
          rw [if_neg fun hmax => fdbits_ne_none hopen.2 hmax.1] at hfits
          have hadd := hext ▸ hfits.without b' hopen.1
          have hends := dupInto_ends (b := b) ans.newHandle (without_good h b' hfd hother)
            (by rwa [if_neg (not_or.mpr ⟨hvalid, hfree⟩)])
          exact hends.mono fun t' ht => ⟨ht.1, (without_kept hget).trans ht.2⟩
        · next hclosed =>
          refine dupInto_ends ans.newHandle h ?_
          split
          · next hno =>
            have hused := hno.resolve_left hvalid
            have hmax : MAX_FD < newfd := by
              by_contra hle
              have hnone : t.fdbits newfd = none := by simpa [h.nonneg newfd hused] using hclosed
              rw [fdbits, if_neg (by have := h.nonneg newfd hused; omega), get_eq_none] at hnone
              exact hnone hused
            rwa [if_pos ⟨hmax, hused⟩] at hfits
          · next hyes => rwa [if_neg fun hno => hyes (.inr hno.2)] at hfits

theorem dup2_ends {oldfd newfd : ℤ} {ans : DupAnswers} (h : Good t) (hfits : t.DupFits oldfd newfd ans) :
    Ends (fun t' => Good t' ∧ Kept t t') (t.dup2 oldfd newfd ans) := by
  rw [dup2]
  split
  · exact ⟨h, Kept.refl t⟩
  · exact dup3_ends h fun _ => hfits

theorem fcntlDupfd_ends {ans : DupAnswers} (h : Good t) (hfits : t.Fits (.dupfd fd low ans)) :
    Ends (fun t' => Good t' ∧ Kept t t') (t.fcntlDupfd fd low ans) := by
  rw [fcntlDupfd]
  cases hb : t.fdbits fd with
  | none => exact ⟨h, Kept.refl t⟩
  | some b =>
    dsimp only
    split
    · exact ⟨h, Kept.refl t⟩
    · next hlow =>
      obtain ⟨hfind, hdup⟩ := hfits (by rw [hb]; exact Option.some_ne_none b) (not_lt.mp hlow)
      obtain ⟨n, heq, hleast⟩ := (leastUnused_iff h (not_lt.mp hlow)).mpr hfind
      rw [heq]
      show Ends _ (if n < 0 then pure (ntoerr n 0, t) else t.dup2 fd n ans)
      split
      · exact ⟨h, Kept.refl t⟩
      · next hn => exact dup2_ends h (hdup n hleast (not_lt.mp hn))

theorem exec_ends {call : FdCall} (h : Good t) (hfits : t.Fits call) :
    Ends (fun t' => Good t' ∧ Kept t t') (t.exec call) := by
  cases call with
  | create reqfd server handle flags st mem => exact createFdExt_ends h hfits
  | close fd n => exact close_ends h hfits
  | dup oldfd ans => exact dup2_ends h hfits
  | dup2 oldfd newfd ans => exact dup2_ends h hfits
  | dup3 oldfd newfd flags ans => exact dup3_ends h hfits
  | dupfd fd low ans => exact fcntlDupfd_ends h hfits

theorem next_good {t' : Table} {call : FdCall} (h : Good t) (hfits : t.Fits call) (hnext : t.next call = some t') :
    Good t' := by
  have hends := exec_ends h hfits
  obtain ⟨p, hp, rfl⟩ := Option.map_eq_some_iff.mp hnext
  match hx : t.exec call with
  | .ok (n, u) =>
    rw [hx] at hends hp
    obtain rfl : (n, u) = p := Option.some.inj hp
    exact hends.1
  | .error stop =>
    rw [hx] at hp
    cases hp

def roomyMemory : Memory := ⟨true, true, true, true⟩

def firstFd : FdCall := .create (-1) 0x20001 7 0 none roomyMemory

def oneFd : Table := (init.next firstFd).getD init

theorem firstFd_fits : init.Fits firstFd := by
  have hfree : ∀ k, k ∉ init.fdMap := AList.notMem_empty
  rw [firstFd, Fits, if_neg (not_or.mpr ⟨by decide, hfree _⟩)]
  exact ⟨fun _ => by decide, (if_pos rfl).mpr ⟨1, by decide, by decide, by decide, hfree 1⟩⟩

theorem next_firstFd : init.next firstFd = some oneFd := by
  obtain ⟨t, ht⟩ := Option.isSome_iff_exists.mp (by decide +kernel : (init.next firstFd).isSome = true)
  rw [oneFd, ht]
  rfl

end Table

end Sneks.Crt
