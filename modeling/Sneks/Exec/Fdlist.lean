import Mathlib.Data.UInt
import Mathlib.Data.List.Basic
import Mathlib.Data.List.Nodup
import Mathlib.Data.List.Perm.Subperm

/-!
# Descriptors over exec

Root writes the descriptors of a new program to pages under its start-up stack
(`upload_fdlist`, `root/uapi.c`). The program finds them from its own stack pointer (`_start`,
`user/crt/crt0-32.S`, and `__sneks_posix_init`, `user/crt/posix.c`) and fills its table
(`__file_init`, `user/crt/file.c`). A full page is followed by another one below it.

Memory is a map from the addresses of words. The start-up code runs on the same stack: `_start`
pushes six words, and what the C functions put below them is up to the compiler.
-/

namespace Sneks.Exec

abbrev Word := BitVec 32

abbrev Mem := Word → Word

def pageCeil (x : Word) : Word := (x + 4095) &&& ~~~4095

def FF_CWD : Word := 1 <<< 16

structure StartupFd where
  fd : BitVec 16
  serv : Word
  handle : Word
  cwd : Bool
  deriving DecidableEq

/-- The descriptor and its mark (`collect_exec_fds`). -/
def StartupFd.word (d : StartupFd) : Word := d.fd.setWidth 32 ||| if d.cwd then FF_CWD else 0

/-- Entries of a page after its count: `(PAGE_SIZE - 4) / sizeof(struct sneks_startup_fd)`. -/
def limPerPage : ℕ := (4096 - 4) / 12

abbrev Image := ℕ → Word

def Image.setFd (image : Image) (j : ℕ) (d : StartupFd) : Image :=
  let image := Function.update image (1 + j * 3) (d.word &&& (0xffff ||| FF_CWD))
  let image := Function.update image (1 + j * 3 + 1) d.serv
  Function.update image (1 + j * 3 + 2) d.handle

def Image.setFds (image : Image) : ℕ → List StartupFd → Image
  | _, [] => image
  | j, d :: rest => Image.setFds (image.setFd j d) (j + 1) rest

def Mem.uploadPage (mem : Mem) (addr : Word) (image : Image) : Mem :=
  fun x => if x.toNat / 4096 = addr.toNat / 4096 then image (x.toNat % 4096 / 4) else mem x

/-- The loop of `upload_fdlist`, from page `i` on. What was in the image stays there. -/
def uploadPages (sp : Word) (i : ℕ) (fds : List StartupFd) (image : Image) (mem : Mem) : Mem :=
  if h : fds = [] then mem
  else
    let here := fds.take limPerPage
    let image := Image.setFds (Function.update image 0 (BitVec.ofNat 32 here.length)) 0 here
    uploadPages sp (i + 1) (fds.drop limPerPage) image
      (mem.uploadPage (pageCeil (sp - 4096 * BitVec.ofNat 32 (2 + i))) image)
termination_by fds.length
decreasing_by
  have hpos := List.length_pos_iff.mpr h
  simp only [List.length_drop, limPerPage]
  omega

def uploadFdlist (mem : Mem) (sp : Word) (fds : List StartupFd) : Mem := uploadPages sp 0 fds (fun _ => 0) mem

structure FdBits where
  server : Word
  handle : Word
  flags : Word
  deriving DecidableEq

structure Files where
  fdMap : List (ℕ × FdBits)
  firstFree : ℕ
  lastAlloc : ℤ
  cwdFd : ℤ

def Files.init : Files := { fdMap := [], firstFree := 0, lastAlloc := -1, cwdFd := -1 }

namespace Files

variable (files : Files)

def keys : List ℕ := files.fdMap.map Prod.fst

def get (fd : ℕ) : Option FdBits := files.fdMap.lookup fd

/-- `invariants`. There are no extended descriptors yet. -/
def invariants : Bool :=
  files.firstFree ≤ files.lastAlloc + 1 ∧ (files.fdMap = [] ∨ 0 ≤ files.lastAlloc) ∧
    (files.fdMap ≠ [] ∨ files.firstFree = 0) ∧ (files.fdMap ≠ [] ∨ files.lastAlloc = -1) ∧
    files.get files.firstFree = none ∧ (files.lastAlloc < 0 ∨ files.get files.lastAlloc.toNat ≠ none)

def MAX_FD : ℕ := (1 <<< 15) - 1

def advance (n : ℕ) : ℕ → ℕ
  | 0 => n
  | fuel + 1 => if files.get (n + 1) = none then n + 1 else advance (n + 1) fuel

def EEXIST : ℤ := 17

def add (fd : ℕ) (bits : FdBits) : Files :=
  { files with fdMap := files.fdMap ++ [(fd, bits)], lastAlloc := max files.lastAlloc fd }

/-- Where `first_free` is when `fd` has been taken. -/
def passFirstFree (fd : ℕ) : ℕ :=
  if fd = files.firstFree then files.advance files.firstFree (MAX_FD + 1 - files.firstFree) else files.firstFree

/-- `__create_fd` at a descriptor of the caller's, without flags. -/
def createFd (fd : ℕ) (server handle : Word) : Option (Files × ℤ) :=
  if ¬ files.invariants then none
  else if files.get fd ≠ none then some (files, -EEXIST)
  else
    let files' := files.add fd { server, handle, flags := 0 }
    let files' := { files' with firstFree := files'.passFirstFree fd }
    if ¬ files'.invariants then none else some (files', fd)

def initFd (mem : Mem) (fds : Word) (files : Files) (i : ℕ) : Option Files :=
  let entry := fds + 12 * BitVec.ofNat 32 i
  match files.createFd (mem entry &&& 0xffff).toNat (mem (entry + 4)) (mem (entry + 8)) with
  | none => none
  | some (files, n) =>
    if n < 0 then none
    else if mem entry &&& FF_CWD ≠ 0 then
      if files.cwdFd ≠ -1 then none else some { files with cwdFd := n }
    else some files

def initPages (mem : Mem) : ℕ → Word → Files → Option Files
  | 0, _, _ => none
  | fuel + 1, pp, files =>
    if ¬ (mem pp).toNat ≤ limPerPage then none
    else
      match (List.range (mem pp).toNat).foldlM (initFd mem (pp + 4)) files with
      | none => none
      | some files =>
        if (mem pp).toNat < limPerPage then
          if ¬ files.invariants then none else some files
        else initPages mem fuel (pp - 4096) files

end Files

/-- `__file_init` as `__sneks_posix_init` calls it. -/
def posixInit (mem : Mem) (fuel : ℕ) (p : Word) : Option Files :=
  if ¬ Files.init.invariants then none
  else Files.initPages mem fuel (pageCeil (p - 4096 * 2)) Files.init

/-- What `_start` passes on after it popped a word. -/
def startP (sp : Word) : Word := sp + 4

/-- A word of the stack that the start-up code uses: six words of `_start`, and `frames` below. -/
def OnStack (sp : Word) (frames : ℕ) (x : Word) : Prop := ∃ j, 1 ≤ j ∧ j ≤ 6 + frames ∧ x = sp - 4 * BitVec.ofNat 32 j

structure Passable (fds : List StartupFd) : Prop where
  distinct : (fds.map StartupFd.fd).Nodup
  oneCwd : (fds.filter StartupFd.cwd).length ≤ 1
  length_le : fds.length ≤ 1024

structure FdList where
  fds : List StartupFd
  passable : Passable fds

def StartupFd.bits (d : StartupFd) : ℕ × FdBits :=
  (d.fd.toNat, { server := d.serv, handle := d.handle, flags := 0 })

def cwdOf (fds : List StartupFd) : ℤ :=
  match fds.find? StartupFd.cwd with
  | none => -1
  | some d => d.fd.toNat

def pageFloor (x : Word) : Word := x &&& ~~~4095

/-- Whatever the start-up code's stack holds, the program gets the table that was passed, when
    the pages under the stack's read as zero elsewhere. -/
def FindsList (sp : Word) (frames : ℕ) (list : FdList) : Prop :=
  ∀ mem₀ : Mem, (∀ k : ℕ, 1 ≤ k → k ≤ 5 * 1024 → mem₀ (pageFloor sp - 4 * BitVec.ofNat 32 k) = 0) →
    ∀ mem : Mem, (∀ x, ¬ OnStack sp frames x → mem x = uploadFdlist mem₀ sp list.fds x) →
      ∃ fuel files, posixInit mem fuel (startP sp) = some files ∧
        files.fdMap = list.fds.map StartupFd.bits ∧ files.cwdFd = cwdOf list.fds

-- The table

theorem le_length_of_lt_mem {l : List ℕ} {n : ℕ} (h : ∀ k < n, k ∈ l) : n ≤ l.length := by
  have hsub : List.range n ⊆ l := fun k hk => h k (List.mem_range.mp hk)
  simpa using (List.subperm_of_subset List.nodup_range hsub).length_le

namespace Files

variable {files : Files} {fd n : ℕ}

theorem get_eq_none : files.get fd = none ↔ fd ∉ files.keys := by
  rw [get, List.lookup_eq_none_iff, keys, List.mem_map]
  constructor
  · rintro h ⟨p, hp, rfl⟩
    simpa using h p hp
  · intro h p hp
    rw [bne_iff_ne, ne_eq]
    rintro rfl
    exact h ⟨p, hp, rfl⟩

structure Good (files : Files) : Prop where
  below : ∀ k < files.firstFree, k ∈ files.keys
  free : files.firstFree ∉ files.keys
  le_last : ∀ k ∈ files.keys, (k : ℤ) ≤ files.lastAlloc
  last : files.keys = [] ∧ files.lastAlloc = -1 ∨ ∃ k ∈ files.keys, files.lastAlloc = k

theorem init_good : init.Good where
  below := by simp [init]
  free := by simp [init, keys]
  le_last := by simp [init, keys]
  last := .inl ⟨rfl, rfl⟩

theorem keys_eq_nil : files.keys = [] ↔ files.fdMap = [] := List.map_eq_nil_iff

theorem Good.invariants (h : files.Good) : files.invariants = true := by
  simp only [Files.invariants, decide_eq_true_eq, ← keys_eq_nil, ne_eq, get_eq_none]
  obtain ⟨hnil, hlast⟩ | ⟨k, hk, hlast⟩ := h.last
  · have hzero : files.firstFree = 0 := by
      by_contra hne
      have hmem := h.below 0 (by omega)
      rw [hnil] at hmem
      cases hmem
    refine ⟨by omega, .inl hnil, .inr hzero, .inr hlast, h.free, .inl (by omega)⟩
  · have hne : files.keys ≠ [] := List.ne_nil_of_mem hk
    refine ⟨?_, .inr (by omega), .inl hne, .inl hne, h.free, .inr ?_⟩
    · by_cases hzero : files.firstFree = 0
      · omega
      · have hle := h.le_last _ (h.below (files.firstFree - 1) (by omega))
        omega
    · rw [hlast, Int.toNat_natCast]
      exact not_not_intro hk

theorem advance_spec {fuel : ℕ} (hbelow : ∀ k ≤ n, k ∈ files.keys) (hfuel : files.keys.length ≤ n + fuel) :
    files.advance n fuel ∉ files.keys ∧ ∀ k < files.advance n fuel, k ∈ files.keys := by
  induction fuel generalizing n with
  | zero =>
    have hlen := le_length_of_lt_mem (n := n + 1) fun k hk => hbelow k (by omega)
    omega
  | succ fuel ih =>
    rw [advance]
    split
    · next hnone => exact ⟨get_eq_none.mp hnone, fun k hk => hbelow k (by omega)⟩
    · next hsome =>
      refine ih (fun k hk => ?_) (by omega)
      obtain hle | rfl : k ≤ n ∨ k = n + 1 := by omega
      · exact hbelow k hle
      · exact not_not.mp fun hnot => hsome (get_eq_none.mpr hnot)

theorem keys_add (files : Files) (fd : ℕ) (bits : FdBits) : (files.add fd bits).keys = files.keys ++ [fd] := by
  simp [keys, add]

theorem add_good (bits : FdBits) (h : files.Good) (hfd : fd ∉ files.keys) (hlen : files.keys.length < MAX_FD) :
    Good { files.add fd bits with firstFree := (files.add fd bits).passFirstFree fd } := by
  have hkeys := keys_add files fd bits
  have hnext : (files.add fd bits).passFirstFree fd ∉ (files.add fd bits).keys ∧
      ∀ k < (files.add fd bits).passFirstFree fd, k ∈ (files.add fd bits).keys := by
    rw [passFirstFree]
    split
    · next heq =>
      have hfirst : fd = files.firstFree := heq
      apply advance_spec
      · intro k hk
        rw [hkeys, List.mem_append, List.mem_singleton]
        obtain hlt | rfl : k < files.firstFree ∨ k = fd := by
          rw [← heq] at hk
          omega
        · exact .inl (h.below k hlt)
        · exact .inr rfl
      · rw [hkeys, List.length_append, List.length_singleton]
        omega
    · next hne =>
      have hne : fd ≠ files.firstFree := hne
      rw [hkeys]
      refine ⟨fun hmem => ?_, fun k hk => List.mem_append_left _ (h.below k hk)⟩
      obtain hmem | hmem := List.mem_append.mp hmem
      · exact h.free hmem
      · exact hne (List.mem_singleton.mp hmem).symm
  refine ⟨hnext.2, hnext.1, fun k hk => ?_, .inr ?_⟩
  · have hk : k ∈ files.keys ++ [fd] := hkeys ▸ hk
    show (k : ℤ) ≤ max files.lastAlloc fd
    obtain hk | hk := List.mem_append.mp hk
    · have hle := h.le_last k hk
      omega
    · rw [List.mem_singleton.mp hk]
      omega
  · show ∃ k ∈ (files.add fd bits).keys, max files.lastAlloc fd = k
    rw [hkeys]
    by_cases hle : files.lastAlloc ≤ fd
    · exact ⟨fd, by simp, by omega⟩
    · obtain ⟨-, hlast⟩ | ⟨k, hk, hlast⟩ := h.last
      · omega
      · exact ⟨k, List.mem_append_left _ hk, by omega⟩

theorem createFd_spec (server handle : Word) (h : files.Good) (hfd : fd ∉ files.keys) (hlen : files.keys.length < MAX_FD) :
    ∃ files' : Files, files.createFd fd server handle = some (files', (fd : ℤ)) ∧ files'.Good ∧
      files'.fdMap = files.fdMap ++ [(fd, { server, handle, flags := 0 })] ∧ files'.cwdFd = files.cwdFd := by
  have hgood := add_good { server, handle, flags := 0 } h hfd hlen
  refine ⟨_, ?_, hgood, rfl, rfl⟩
  rw [createFd, if_neg (by simp [h.invariants]), if_neg (by simpa [get_eq_none] using hfd)]
  simp only
  rw [if_neg (not_not_intro hgood.invariants)]

end Files

-- Entries

namespace StartupFd

variable (d : StartupFd)

theorem word_toNat : d.word.toNat = d.fd.toNat + if d.cwd then 65536 else 0 := by
  have hlt := d.fd.isLt
  rw [word, BitVec.toNat_or, BitVec.toNat_setWidth_of_le (by decide)]
  cases d.cwd with
  | false => simp
  | true =>
    have hor := Nat.two_pow_add_eq_or_of_lt hlt 1
    have hmark : FF_CWD.toNat = 65536 := by decide
    simp only [if_true, hmark]
    rw [Nat.or_comm, Nat.add_comm]
    exact hor.symm

theorem word_masked : d.word &&& (0xffff ||| FF_CWD) = d.word := by
  have hlt := d.fd.isLt
  have hmask : (0xffff ||| FF_CWD : Word).toNat = 2 ^ 17 - 1 := by decide
  apply BitVec.eq_of_toNat_eq
  rw [BitVec.toNat_and, hmask, Nat.and_two_pow_sub_one_eq_mod, word_toNat]
  apply Nat.mod_eq_of_lt
  split <;> omega

theorem word_fd : (d.word &&& 0xffff).toNat = d.fd.toNat := by
  have hlt := d.fd.isLt
  have hmask : (0xffff : Word).toNat = 2 ^ 16 - 1 := by decide
  rw [BitVec.toNat_and, hmask, Nat.and_two_pow_sub_one_eq_mod, word_toNat]
  split <;> omega

theorem word_cwd : d.word &&& FF_CWD ≠ 0 ↔ d.cwd = true := by
  have hlt := d.fd.isLt
  have hmark : FF_CWD = BitVec.twoPow 32 16 := by decide
  have hbit : d.word.getLsbD 16 = d.cwd := by
    rw [← BitVec.testBit_toNat, word_toNat, Nat.testBit_eq_decide_div_mod_eq]
    cases d.cwd with
    | false =>
      rw [if_neg Bool.false_ne_true, Nat.add_zero, Nat.div_eq_of_lt hlt]
      rfl
    | true =>
      have hdiv : (d.fd.toNat + 65536) / 2 ^ 16 = 1 := by omega
      rw [if_pos rfl, hdiv]
      rfl
  rw [hmark, BitVec.and_twoPow, hbit]
  cases d.cwd <;> decide

end StartupFd

structure Holds (mem : Mem) (pp : Word) (here : List StartupFd) : Prop where
  count : mem pp = BitVec.ofNat 32 here.length
  entry : ∀ i d, here[i]? = some d →
    mem (pp + 4 + 12 * BitVec.ofNat 32 i) = d.word ∧ mem (pp + 4 + 12 * BitVec.ofNat 32 i + 4) = d.serv ∧
      mem (pp + 4 + 12 * BitVec.ofNat 32 i + 8) = d.handle

inductive Chained (mem : Mem) : Word → List StartupFd → Prop
  | last {pp here} : here.length < limPerPage → Holds mem pp here → Chained mem pp here
  | full {pp here rest} : here.length = limPerPage → Holds mem pp here → Chained mem (pp - 4096) rest →
      Chained mem pp (here ++ rest)

structure Loaded (files : Files) (done : List StartupFd) : Prop where
  good : files.Good
  fdMap : files.fdMap = done.map StartupFd.bits
  cwdFd : files.cwdFd = cwdOf done

theorem Loaded.keys {files : Files} {done : List StartupFd} (h : Loaded files done) :
    files.keys = done.map fun d => d.fd.toNat := by
  rw [Files.keys, h.fdMap, List.map_map]
  rfl

theorem initFd_loaded {mem : Mem} {fds : Word} {files : Files} {done : List StartupFd} {d : StartupFd} {i : ℕ}
    (h : Loaded files done) (hp : Passable (done ++ [d]))
    (hword : mem (fds + 12 * BitVec.ofNat 32 i) = d.word) (hserv : mem (fds + 12 * BitVec.ofNat 32 i + 4) = d.serv)
    (hhandle : mem (fds + 12 * BitVec.ofNat 32 i + 8) = d.handle) :
    ∃ files', Files.initFd mem fds files i = some files' ∧ Loaded files' (done ++ [d]) := by
  have hfresh : d.fd.toNat ∉ files.keys := by
    rw [h.keys]
    intro hmem
    obtain ⟨c, hc, heq⟩ := List.mem_map.mp hmem
    have hnodup := hp.distinct
    rw [List.map_append, List.nodup_append] at hnodup
    exact hnodup.2.2 c.fd (List.mem_map_of_mem hc) d.fd (by simp) (BitVec.eq_of_toNat_eq heq)
  have hlen : files.keys.length < Files.MAX_FD := by
    have hle := hp.length_le
    have hmax : Files.MAX_FD = 32767 := rfl
    rw [h.keys, List.length_map]
    rw [List.length_append] at hle
    omega
  obtain ⟨files', hcreate, hgood, hmap, hcwd⟩ := Files.createFd_spec d.serv d.handle h.good hfresh hlen
  have hbits : files'.fdMap = (done ++ [d]).map StartupFd.bits := by
    rw [hmap, h.fdMap, List.map_append]
    rfl
  rw [h.cwdFd] at hcwd
  have hneg : ¬ (d.fd.toNat : ℤ) < 0 := by omega
  simp only [Files.initFd, hword, hserv, hhandle, StartupFd.word_fd, hcreate, if_neg hneg, StartupFd.word_cwd]
  cases hd : d.cwd with
  | false =>
    refine ⟨files', by simp, hgood, hbits, ?_⟩
    rw [hcwd, cwdOf, cwdOf, List.find?_append, List.find?_singleton, hd]
    simp
  | true =>
    have hnone : done.find? StartupFd.cwd = none := by
      rw [List.find?_eq_none]
      intro c hc hmark
      have hone := hp.oneCwd
      have hmem : c ∈ done.filter StartupFd.cwd := List.mem_filter.mpr ⟨hc, hmark⟩
      have hpos := List.length_pos_of_mem hmem
      have hlast : ([d].filter StartupFd.cwd).length = 1 := by simp [hd]
      rw [List.filter_append, List.length_append, hlast] at hone
      omega
    have hfirst : files'.cwdFd = -1 := by rw [hcwd, cwdOf, hnone]
    refine ⟨{ files' with cwdFd := d.fd.toNat }, by simp [hfirst], ⟨hgood.below, hgood.free, hgood.le_last, hgood.last⟩,
      hbits, ?_⟩
    rw [cwdOf, List.find?_append, hnone, List.find?_singleton, hd]
    simp

theorem Passable.left {fds rest : List StartupFd} (h : Passable (fds ++ rest)) : Passable fds where
  distinct := by
    have hnodup := h.distinct
    rw [List.map_append, List.nodup_append] at hnodup
    exact hnodup.1
  oneCwd := by
    have hone := h.oneCwd
    rw [List.filter_append, List.length_append] at hone
    omega
  length_le := by
    have hle := h.length_le
    rw [List.length_append] at hle
    omega

theorem foldlM_loaded {mem : Mem} {pp : Word} {files : Files} {here done todo : List StartupFd} (i : ℕ)
    (hpage : Holds mem pp here) (h : Loaded files done) (htodo : todo = here.drop i) (hp : Passable (done ++ todo)) :
    ∃ files', (List.range' i todo.length).foldlM (Files.initFd mem (pp + 4)) files = some files' ∧
      Loaded files' (done ++ todo) := by
  induction todo generalizing i files done with
  | nil => exact ⟨files, rfl, by simpa using h⟩
  | cons d todo ih =>
    have hd : here[i]? = some d := by
      rw [← List.head?_drop, ← htodo]
      rfl
    have hnext : todo = here.drop (i + 1) := by
      rw [← List.tail_drop, ← htodo]
      rfl
    have happ : done ++ d :: todo = done ++ [d] ++ todo := by simp
    rw [happ] at hp ⊢
    obtain ⟨hword, hserv, hhandle⟩ := hpage.entry i d hd
    obtain ⟨files₁, hinit, h₁⟩ := initFd_loaded h hp.left hword hserv hhandle
    obtain ⟨files₂, hfold, h₂⟩ := ih (i + 1) h₁ hnext hp
    refine ⟨files₂, ?_, h₂⟩
    rw [List.length_cons, List.range'_succ, List.foldlM_cons, hinit]
    exact hfold

theorem initPages_loaded {mem : Mem} {pp : Word} {files : Files} {fds done : List StartupFd}
    (hpages : Chained mem pp fds) (h : Loaded files done) (hp : Passable (done ++ fds)) :
    ∃ fuel files', Files.initPages mem fuel pp files = some files' ∧ Loaded files' (done ++ fds) := by
  induction hpages generalizing files done with
  | @last pp here hlt hpage =>
    have hlen : (mem pp).toNat = here.length := by
      rw [hpage.count, BitVec.toNat_ofNat]
      have hlim : limPerPage = 341 := rfl
      omega
    obtain ⟨files₁, hfold, h₁⟩ := foldlM_loaded 0 hpage h (List.drop_zero).symm hp
    refine ⟨1, files₁, ?_, h₁⟩
    rw [← List.range_eq_range'] at hfold
    rw [Files.initPages, hlen, if_neg (not_not_intro (Nat.le_of_lt hlt)), hfold]
    simp only
    rw [if_pos hlt, if_neg (not_not_intro h₁.good.invariants)]
  | @full pp here rest hfull hpage hrest ih =>
    have hlen : (mem pp).toNat = here.length := by
      rw [hpage.count, BitVec.toNat_ofNat]
      have hlim : limPerPage = 341 := rfl
      omega
    rw [← List.append_assoc] at hp ⊢
    obtain ⟨files₁, hfold, h₁⟩ := foldlM_loaded 0 hpage h (List.drop_zero).symm hp.left
    obtain ⟨fuel, files₂, hpages, h₂⟩ := ih h₁ hp
    refine ⟨fuel + 1, files₂, ?_, h₂⟩
    rw [← List.range_eq_range'] at hfold
    rw [Files.initPages, hlen, if_neg (not_not_intro (Nat.le_of_eq hfull)), hfold]
    simp only
    rw [if_neg (Nat.not_lt.mpr (Nat.le_of_eq hfull.symm)), hpages]

theorem init_loaded : Loaded Files.init [] where
  good := Files.init_good
  fdMap := rfl
  cwdFd := rfl

def bitsAt (mem : Mem) (pp : Word) (n : ℕ) : List (ℕ × FdBits) :=
  (List.range n).map fun i =>
    ((mem (pp + 4 + 12 * BitVec.ofNat 32 i) &&& 0xffff).toNat,
      { server := mem (pp + 4 + 12 * BitVec.ofNat 32 i + 4),
        handle := mem (pp + 4 + 12 * BitVec.ofNat 32 i + 8), flags := 0 })

theorem createFd_fdMap {files files' : Files} {fd : ℕ} {server handle : Word} {n : ℤ}
    (h : files.createFd fd server handle = some (files', n)) (hn : ¬ n < 0) :
    files'.fdMap = files.fdMap ++ [(fd, { server, handle, flags := 0 })] := by
  rw [Files.createFd] at h
  split at h
  · cases h
  split at h
  · cases h
    exact absurd (by decide) hn
  simp only at h
  split at h
  · cases h
  · cases h
    rfl

theorem initFd_fdMap {mem : Mem} {fds : Word} {files files' : Files} {i : ℕ}
    (h : Files.initFd mem fds files i = some files') :
    files'.fdMap = files.fdMap ++ [((mem (fds + 12 * BitVec.ofNat 32 i) &&& 0xffff).toNat,
      { server := mem (fds + 12 * BitVec.ofNat 32 i + 4), handle := mem (fds + 12 * BitVec.ofNat 32 i + 8), flags := 0 })] := by
  simp only [Files.initFd] at h
  split at h
  · cases h
  next files₁ n hcreate =>
  split at h
  · cases h
  next hn =>
  have hmap := createFd_fdMap hcreate hn
  split at h
  · split at h
    · cases h
    · cases h
      exact hmap
  · cases h
    exact hmap

theorem foldlM_fdMap {mem : Mem} {pp : Word} {files files' : Files} {n : ℕ}
    (h : (List.range n).foldlM (Files.initFd mem (pp + 4)) files = some files') :
    files'.fdMap = files.fdMap ++ bitsAt mem pp n := by
  induction n generalizing files' with
  | zero =>
    cases h
    simp [bitsAt]
  | succ n ih =>
    rw [List.range_succ, List.foldlM_append] at h
    obtain ⟨files₁, hfold, hlast⟩ := Option.bind_eq_some_iff.mp h
    have hinit : Files.initFd mem (pp + 4) files₁ n = some files' := by simpa using hlast
    rw [initFd_fdMap hinit, ih hfold, bitsAt, bitsAt, List.range_succ, List.map_append, List.append_assoc]
    rfl

theorem initPages_fdMap {mem : Mem} {fuel : ℕ} {pp : Word} {files files' : Files}
    (h : Files.initPages mem fuel pp files = some files') :
    ∃ more, files'.fdMap = files.fdMap ++ bitsAt mem pp (mem pp).toNat ++ more ∧
      ((mem pp).toNat < limPerPage → more = []) := by
  induction fuel generalizing pp files with
  | zero => cases h
  | succ fuel ih =>
    rw [Files.initPages] at h
    split at h
    · cases h
    split at h
    · cases h
    next files₁ hfold =>
    have hmap := foldlM_fdMap hfold
    split at h
    · split at h
      · cases h
      · cases h
        exact ⟨[], by simpa using hmap, fun _ => rfl⟩
    · next hfull =>
      obtain ⟨more, hmore, -⟩ := ih h
      exact ⟨bitsAt mem (pp - 4096) (mem (pp - 4096)).toNat ++ more, by rw [hmore, hmap, List.append_assoc _ _ more],
        fun hlt => absurd hlt hfull⟩

-- Addresses

theorem pageMask_bit : ∀ i : Fin 32, (~~~(4095 : Word)).getLsbD i = decide (12 ≤ i.val) := by decide

theorem pageFloor_toNat (x : Word) : (pageFloor x).toNat = x.toNat / 4096 * 4096 := by
  have hmask : x &&& ~~~(4095 : Word) = (x >>> (12 : ℕ)) <<< (12 : ℕ) := by
    ext i hi
    have hbit : (~~~(4095 : Word))[i] = decide (12 ≤ i) := by
      rw [← BitVec.getLsbD_eq_getElem hi]
      exact pageMask_bit ⟨i, hi⟩
    rw [BitVec.getElem_and, hbit, BitVec.getElem_shiftLeft]
    by_cases hlow : i < 12
    · simp [hlow]
    · simp [hlow, Nat.not_lt.mp hlow, BitVec.getElem_ushiftRight, BitVec.getLsbD_eq_getElem hi]
  have hlt := x.isLt
  rw [pageFloor, hmask, BitVec.toNat_shiftLeft, BitVec.toNat_ushiftRight, Nat.shiftRight_eq_div_pow,
    Nat.shiftLeft_eq]
  omega

theorem pageCeil_toNat (x : Word) : (pageCeil x).toNat = (x.toNat + 4095) % 2 ^ 32 / 4096 * 4096 := by
  have hfloor := pageFloor_toNat (x + 4095)
  rw [BitVec.toNat_add] at hfloor
  exact hfloor

/-- The page of the list that comes after `i` others. -/
def pageAt (sp : Word) (i : ℕ) : Word := pageFloor sp - 4096 * BitVec.ofNat 32 (1 + i)

variable {sp : Word}

theorem pageAt_succ (i : ℕ) : pageAt sp (i + 1) = pageAt sp i - 4096 := by
  rw [pageAt, pageAt]
  bv_omega

theorem pageAt_aligned (i : ℕ) : (pageAt sp i).toNat % 4096 = 0 := by
  have hfloor := pageFloor_toNat sp
  rw [pageAt]
  bv_omega

theorem start_page (hsp : sp.toNat % 16 = 0) : pageCeil (startP sp - 4096 * 2) = pageAt sp 0 := by
  apply BitVec.eq_of_toNat_eq
  have hfloor := pageFloor_toNat sp
  rw [pageCeil_toNat, pageAt, startP]
  bv_omega

theorem upload_page (hoff : sp.toNat % 4096 ≠ 0) (i : ℕ) :
    pageCeil (sp - 4096 * BitVec.ofNat 32 (2 + i)) = pageAt sp i := by
  apply BitVec.eq_of_toNat_eq
  have hfloor := pageFloor_toNat sp
  rw [pageCeil_toNat, pageAt]
  bv_omega

theorem upload_page_aligned (hoff : sp.toNat % 4096 = 0) (i : ℕ) :
    pageCeil (sp - 4096 * BitVec.ofNat 32 (2 + i)) = pageAt sp (i + 1) := by
  apply BitVec.eq_of_toNat_eq
  have hfloor := pageFloor_toNat sp
  rw [pageCeil_toNat, pageAt]
  bv_omega

theorem pageAt_ne {i k : ℕ} (hi : i < 1024) (hk : k < 1024) (hne : i ≠ k) :
    (pageAt sp i).toNat / 4096 ≠ (pageAt sp k).toNat / 4096 := by
  have hfloor := pageFloor_toNat sp
  rw [pageAt, pageAt]
  bv_omega

theorem setFds_of_lt {image : Image} {j w : ℕ} {here : List StartupFd} (h : w < 1 + j * 3) :
    Image.setFds image j here w = image w := by
  induction here generalizing image j with
  | nil => rfl
  | cons d rest ih =>
    rw [Image.setFds, ih (by omega), Image.setFd, Function.update_of_ne (by omega), Function.update_of_ne (by omega),
      Function.update_of_ne (by omega)]

theorem setFds_entry {i : ℕ} {here : List StartupFd} {d : StartupFd} (image : Image) (j : ℕ) (h : here[i]? = some d) :
    Image.setFds image j here (1 + (j + i) * 3) = d.word ∧ Image.setFds image j here (1 + (j + i) * 3 + 1) = d.serv ∧
      Image.setFds image j here (1 + (j + i) * 3 + 2) = d.handle := by
  induction here generalizing image j i with
  | nil => simp at h
  | cons c rest ih =>
    match i with
    | 0 =>
      obtain rfl : c = d := by simpa using h
      simp only [Nat.add_zero]
      rw [Image.setFds, setFds_of_lt (by omega), setFds_of_lt (by omega), setFds_of_lt (by omega)]
      refine ⟨?_, ?_, ?_⟩
      · rw [Image.setFd, Function.update_of_ne (by omega), Function.update_of_ne (by omega), Function.update_self,
          StartupFd.word_masked]
      · rw [Image.setFd, Function.update_of_ne (by omega), Function.update_self]
      · rw [Image.setFd, Function.update_self]
    | i + 1 =>
      have hrest : rest[i]? = some d := by simpa using h
      have hj : j + (i + 1) = j + 1 + i := by omega
      rw [Image.setFds, hj]
      exact ih _ _ hrest

def pageImage (image : Image) (here : List StartupFd) : Image :=
  Image.setFds (Function.update image 0 (BitVec.ofNat 32 here.length)) 0 here

theorem uploadPages_cons {i : ℕ} {fds : List StartupFd} {image : Image} {mem : Mem} (h : fds ≠ []) :
    uploadPages sp i fds image mem =
      uploadPages sp (i + 1) (fds.drop limPerPage) (pageImage image (fds.take limPerPage))
        (mem.uploadPage (pageCeil (sp - 4096 * BitVec.ofNat 32 (2 + i))) (pageImage image (fds.take limPerPage))) := by
  rw [uploadPages, dif_neg h]
  rfl

theorem uploadPages_nil {i : ℕ} {image : Image} {mem : Mem} : uploadPages sp i [] image mem = mem := by
  rw [uploadPages, dif_pos rfl]

theorem uploadPages_frame {i : ℕ} {fds : List StartupFd} {image : Image} {mem : Mem} {x : Word}
    (h : ∀ k, i ≤ k → 341 * k < 341 * i + fds.length →
      x.toNat / 4096 ≠ (pageCeil (sp - 4096 * BitVec.ofNat 32 (2 + k))).toNat / 4096) :
    uploadPages sp i fds image mem x = mem x := by
  have hlim : limPerPage = 341 := rfl
  induction hn : fds.length using Nat.strongRecOn generalizing i fds image mem with
  | ind n ih =>
    by_cases hnil : fds = []
    · rw [hnil, uploadPages_nil]
    · have hpos := List.length_pos_iff.mpr hnil
      have hlen : (fds.drop limPerPage).length = fds.length - limPerPage := List.length_drop
      rw [uploadPages_cons hnil, ih _ (by omega) (fun k hk hlt => h k (by omega) (by omega)) rfl, Mem.uploadPage,
        if_neg (h i (Nat.le_refl i) (by omega))]

theorem uploadPage_word {mem : Mem} {addr : Word} {image : Image} {w : ℕ} (haddr : addr.toNat % 4096 = 0)
    (hw : w < 1024) : mem.uploadPage addr image (addr + 4 * BitVec.ofNat 32 w) = image w := by
  have hsum : (addr + 4 * BitVec.ofNat 32 w).toNat = addr.toNat + 4 * w := by bv_omega
  rw [Mem.uploadPage, hsum, if_pos (by omega)]
  congr 1
  omega

theorem entry_addr (pp : Word) (i : ℕ) :
    pp + 4 + 12 * BitVec.ofNat 32 i = pp + 4 * BitVec.ofNat 32 (1 + i * 3) ∧
    pp + 4 + 12 * BitVec.ofNat 32 i + 4 = pp + 4 * BitVec.ofNat 32 (1 + i * 3 + 1) ∧
    pp + 4 + 12 * BitVec.ofNat 32 i + 8 = pp + 4 * BitVec.ofNat 32 (1 + i * 3 + 2) := by
  refine ⟨?_, ?_, ?_⟩ <;> bv_omega

theorem holds_of_image {mem : Mem} {pp : Word} {here : List StartupFd} (image : Image) (hlen : here.length ≤ limPerPage)
    (h : ∀ w < 1024, mem (pp + 4 * BitVec.ofNat 32 w) = pageImage image here w) : Holds mem pp here := by
  have hlim : limPerPage = 341 := rfl
  refine ⟨?_, fun i d hd => ?_⟩
  · have hzero := h 0 (by decide)
    rw [pageImage, setFds_of_lt (by omega), Function.update_self] at hzero
    simpa using hzero
  · have hi : i < here.length := (List.getElem?_eq_some_iff.mp hd).1
    obtain ⟨hword, hserv, hhandle⟩ := setFds_entry (Function.update image 0 (BitVec.ofNat 32 here.length)) 0 hd
    rw [Nat.zero_add] at hword hserv hhandle
    obtain ⟨h0, h1, h2⟩ := entry_addr pp i
    rw [h1, h2, h0, h _ (by omega), h _ (by omega), h _ (by omega)]
    exact ⟨hword, hserv, hhandle⟩

theorem uploadPages_chained {i : ℕ} {fds : List StartupFd} {image : Image} {mem : Mem} (hoff : sp.toNat % 4096 ≠ 0)
    (hsmall : 341 * i + fds.length ≤ 1024) (hzero : ∀ k, i ≤ k → k ≤ 4 → mem (pageAt sp k) = 0) :
    Chained (uploadPages sp i fds image mem) (pageAt sp i) fds := by
  have hlim : limPerPage = 341 := rfl
  induction hn : fds.length using Nat.strongRecOn generalizing i fds image mem with
  | ind n ih =>
    by_cases hnil : fds = []
    · subst hnil
      rw [uploadPages_nil]
      exact .last (by decide) ⟨hzero i (Nat.le_refl i) (by omega), fun k d hd => by simp at hd⟩
    have hpos := List.length_pos_iff.mpr hnil
    have hlen : (fds.drop limPerPage).length = fds.length - limPerPage := List.length_drop
    have hpage : Holds (uploadPages sp i fds image mem) (pageAt sp i) (fds.take limPerPage) := by
      apply holds_of_image image (List.length_take_le _ _)
      intro w hw
      rw [uploadPages_cons hnil, uploadPages_frame, upload_page hoff, uploadPage_word (pageAt_aligned i) hw]
      intro k hk hlt
      rw [upload_page hoff]
      have hword : (pageAt sp i + 4 * BitVec.ofNat 32 w).toNat / 4096 = (pageAt sp i).toNat / 4096 := by
        have halign : (pageAt sp i).toNat % 4096 = 0 := pageAt_aligned i
        bv_omega
      rw [hword]
      exact pageAt_ne (by omega) (by omega) (by omega)
    by_cases hlt : fds.length < limPerPage
    · rw [List.take_of_length_le (by omega)] at hpage
      exact .last hlt hpage
    · rw [← List.take_append_drop limPerPage fds]
      have htake : (fds.take limPerPage).length = limPerPage := by
        rw [List.length_take]
        omega
      refine .full htake (by rwa [List.take_append_drop]) ?_
      rw [List.take_append_drop, ← pageAt_succ, uploadPages_cons hnil]
      refine ih _ (by omega) (by omega) (fun k hk hle => ?_) rfl
      rw [Mem.uploadPage, upload_page hoff, if_neg (pageAt_ne (by omega) (by omega) (by omega))]
      exact hzero k (by omega) hle

-- The round trip

theorem Holds.congr {mem mem' : Mem} {pp : Word} {here : List StartupFd} (h : Holds mem pp here)
    (hw : ∀ w ≤ 3 * here.length, mem' (pp + 4 * BitVec.ofNat 32 w) = mem (pp + 4 * BitVec.ofNat 32 w)) :
    Holds mem' pp here := by
  refine ⟨?_, fun i d hd => ?_⟩
  · have hzero := hw 0 (Nat.zero_le _)
    rw [← h.count]
    simpa using hzero
  · have hi : i < here.length := (List.getElem?_eq_some_iff.mp hd).1
    obtain ⟨hword, hserv, hhandle⟩ := h.entry i d hd
    obtain ⟨h0, h1, h2⟩ := entry_addr pp i
    rw [h0] at hword
    rw [h1] at hserv
    rw [h2] at hhandle
    rw [h1, h2, h0, hw _ (by omega), hw _ (by omega), hw _ (by omega)]
    exact ⟨hword, hserv, hhandle⟩

theorem Chained.congr {mem mem' : Mem} {pp : Word} {fds : List StartupFd} (h : Chained mem pp fds)
    (hw : ∀ i w, 341 * i ≤ fds.length → w ≤ 3 * min 341 (fds.length - 341 * i) →
      mem' (pp - 4096 * BitVec.ofNat 32 i + 4 * BitVec.ofNat 32 w) =
        mem (pp - 4096 * BitVec.ofNat 32 i + 4 * BitVec.ofNat 32 w)) : Chained mem' pp fds := by
  have hlim : limPerPage = 341 := rfl
  induction h with
  | @last pp here hlt hpage =>
    refine .last hlt (hpage.congr fun w hle => ?_)
    have hzero := hw 0 w (by omega) (by omega)
    simpa using hzero
  | @full pp here rest hfull hpage hrest ih =>
    have hlen : (here ++ rest).length = here.length + rest.length := List.length_append
    refine .full hfull (hpage.congr fun w hle => ?_) (ih fun i w hi hle => ?_)
    · have hzero := hw 0 w (by omega) (by omega)
      simpa using hzero
    · have hnext := hw (i + 1) w (by omega) (by omega)
      have haddr : pp - 4096 * BitVec.ofNat 32 (i + 1) = pp - 4096 - 4096 * BitVec.ofNat 32 i := by bv_omega
      rwa [haddr] at hnext

theorem Chained.first {mem : Mem} {pp : Word} {fds : List StartupFd} (h : Chained mem pp fds) :
    Holds mem pp (fds.take limPerPage) := by
  cases h with
  | last hlt hpage => rwa [List.take_of_length_le (Nat.le_of_lt hlt)]
  | full hfull hpage hrest => rwa [List.take_left' hfull]

theorem pageAt_eq (i : ℕ) : pageAt sp i = sp - BitVec.ofNat 32 (sp.toNat % 4096 + 4096 * (1 + i)) := by
  have hfloor : pageFloor sp = sp - BitVec.ofNat 32 (sp.toNat % 4096) := by
    apply BitVec.eq_of_toNat_eq
    rw [pageFloor_toNat]
    bv_omega
  rw [pageAt, hfloor]
  bv_omega

theorem ne_stack_word {frames i w j : ℕ} (hroom : 28 + 4 * frames + 4 * w ≤ 4096 + sp.toNat % 4096 + 4096 * i)
    (hi : i ≤ 3) (hle : j ≤ 6 + frames) :
    pageAt sp 0 - 4096 * BitVec.ofNat 32 i + 4 * BitVec.ofNat 32 w ≠ sp - 4 * BitVec.ofNat 32 j := by
  intro heq
  have hmod : sp.toNat % 4096 < 4096 := Nat.mod_lt _ (by decide)
  rw [pageAt_eq] at heq
  generalize sp.toNat % 4096 = off at *
  have hsum : BitVec.ofNat 32 (4 * j + 4 * w) = BitVec.ofNat 32 (off + 4096 + 4096 * i) := by bv_omega
  have hnat := congrArg BitVec.toNat hsum
  rw [BitVec.toNat_ofNat, BitVec.toNat_ofNat] at hnat
  omega

theorem not_onStack {frames n i w : ℕ} (hroom : 28 + 4 * frames + 12 * min n 341 ≤ 4096 + sp.toNat % 4096)
    (hi : 341 * i ≤ n) (hn : n ≤ 1024) (hw : w ≤ 3 * min 341 (n - 341 * i)) :
    ¬ OnStack sp frames (pageAt sp 0 - 4096 * BitVec.ofNat 32 i + 4 * BitVec.ofNat 32 w) := by
  rintro ⟨j, -, hle, heq⟩
  have hlow : 28 + 4 * frames + 4 * w ≤ 4096 + sp.toNat % 4096 + 4096 * i := by
    by_cases hzero : i = 0
    · subst hzero
      omega
    · omega
  exact ne_stack_word hlow (by omega) hle heq

theorem onStack {frames n : ℕ} (hsp : sp.toNat % 16 = 0)
    (hroom : ¬ 28 + 4 * frames + 12 * min n 341 ≤ 4096 + sp.toNat % 4096) :
    OnStack sp frames (pageAt sp 0 + 4 * BitVec.ofNat 32 (3 * min n 341)) := by
  have hmin : min n 341 ≤ 341 := Nat.min_le_right n 341
  rw [pageAt_eq]
  generalize min n 341 = c at *
  obtain ⟨g, hg⟩ : ∃ g, sp.toNat % 4096 = 4 * g := ⟨sp.toNat % 4096 / 4, by omega⟩
  rw [hg] at hroom ⊢
  refine ⟨g + 1024 - 3 * c, by omega, by omega, ?_⟩
  have hsum : BitVec.ofNat 32 (4 * g + 4096 * (1 + 0)) = 4 * BitVec.ofNat 32 (g + 1024 - 3 * c) + 4 * BitVec.ofNat 32 (3 * c) := by
    bv_omega
  rw [hsum]
  bv_omega

theorem uploadFdlist_chained {mem : Mem} {list : FdList} (h : list.fds = [] ∨ sp.toNat % 4096 ≠ 0)
    (hzero : ∀ k : ℕ, 1 ≤ k → k ≤ 5 * 1024 → mem (pageFloor sp - 4 * BitVec.ofNat 32 k) = 0) :
    Chained (uploadFdlist mem sp list.fds) (pageAt sp 0) list.fds := by
  have hpages : ∀ k, 0 ≤ k → k ≤ 4 → mem (pageAt sp k) = 0 := by
    intro k _ hk
    have haddr : pageAt sp k = pageFloor sp - 4 * BitVec.ofNat 32 (1024 * (1 + k)) := by
      rw [pageAt]
      bv_omega
    rw [haddr]
    exact hzero _ (by omega) (by omega)
  obtain hnil | hoff := h
  · rw [hnil, uploadFdlist, uploadPages_nil]
    exact .last (by decide) ⟨hpages 0 (Nat.le_refl 0) (by decide), fun k d hd => by simp at hd⟩
  · have hle := list.passable.length_le
    exact uploadPages_chained hoff (by omega) hpages

theorem posixInit_eq {mem : Mem} {fuel : ℕ} (hsp : sp.toNat % 16 = 0) :
    posixInit mem fuel (startP sp) = Files.initPages mem fuel (pageAt sp 0) Files.init := by
  rw [posixInit, if_neg (not_not_intro Files.init_good.invariants), start_page hsp]

theorem findsList_of_room {frames : ℕ} {list : FdList} (hsp : sp.toNat % 16 = 0)
    (h : list.fds = [] ∨ sp.toNat % 4096 ≠ 0)
    (hroom : 28 + 4 * frames + 12 * min list.fds.length 341 ≤ 4096 + sp.toNat % 4096) :
    FindsList sp frames list := by
  intro mem₀ hzero mem hmem
  have hpages : Chained mem (pageAt sp 0) list.fds := by
    refine (uploadFdlist_chained h hzero).congr fun i w hi hw => hmem _ ?_
    exact not_onStack hroom hi list.passable.length_le hw
  obtain ⟨fuel, files, hinit, hloaded⟩ := initPages_loaded hpages init_loaded list.passable
  exact ⟨fuel, files, (posixInit_eq hsp).trans hinit, hloaded.fdMap, hloaded.cwdFd⟩

theorem not_findsList_aligned {frames : ℕ} {list : FdList} (hoff : sp.toNat % 4096 = 0) (hne : list.fds ≠ []) :
    ¬ FindsList sp frames list := by
  intro h
  obtain ⟨fuel, files, hinit, hmap, -⟩ := h (fun _ => 0) (fun _ _ _ => rfl) _ (fun _ _ => rfl)
  rw [posixInit_eq (by omega)] at hinit
  have hlen := list.passable.length_le
  have hcount : uploadFdlist (fun _ => 0) sp list.fds (pageAt sp 0) = 0 := by
    rw [uploadFdlist, uploadPages_frame]
    intro k _ hlt
    rw [upload_page_aligned hoff]
    exact pageAt_ne (by decide) (by omega) (by omega)
  obtain ⟨more, hmore, hlast⟩ := initPages_fdMap hinit
  have hzero : (0 : Word).toNat = 0 := rfl
  rw [hcount, hzero] at hmore hlast
  rw [hlast (by decide), hmap] at hmore
  exact hne (by simpa [bitsAt, Files.init] using hmore)

theorem not_findsList_onStack {frames : ℕ} {list : FdList} (hsp : sp.toNat % 16 = 0)
    (h : list.fds = [] ∨ sp.toNat % 4096 ≠ 0)
    (hroom : ¬ 28 + 4 * frames + 12 * min list.fds.length 341 ≤ 4096 + sp.toNat % 4096) :
    ¬ FindsList sp frames list := by
  intro hfinds
  have hstack := onStack hsp hroom
  have hchained : Chained (uploadFdlist (fun _ => 0) sp list.fds) (pageAt sp 0) list.fds :=
    uploadFdlist_chained h fun _ _ _ => rfl
  have hpage := hchained.first
  generalize hup : uploadFdlist (fun _ => 0) sp list.fds = up at hpage
  have hlim : limPerPage = 341 := rfl
  have hlen : (list.fds.take limPerPage).length = min list.fds.length 341 := by
    rw [List.length_take, Nat.min_comm, hlim]
  obtain ⟨fuel, files, hinit, hmap, -⟩ := hfinds (fun _ => 0) (fun _ _ _ => rfl)
    (Function.update up (pageAt sp 0 + 4 * BitVec.ofNat 32 (3 * min list.fds.length 341))
      (up (pageAt sp 0 + 4 * BitVec.ofNat 32 (3 * min list.fds.length 341)) + 1))
    (fun x hx => by
      rw [hup]
      refine Function.update_of_ne ?_ _ _
      rintro rfl
      exact hx hstack)
  rw [posixInit_eq hsp] at hinit
  obtain ⟨more, hmore, -⟩ := initPages_fdMap hinit
  rw [hmap] at hmore
  have hcount := hpage.count
  rw [hlen] at hcount
  by_cases hzero : min list.fds.length 341 = 0
  · -- the count itself
    have hnil : list.fds = [] := List.length_eq_zero_iff.mp (by omega)
    have hone : (Function.update up (pageAt sp 0 + 4 * BitVec.ofNat 32 (3 * min list.fds.length 341))
        (up (pageAt sp 0 + 4 * BitVec.ofNat 32 (3 * min list.fds.length 341)) + 1) (pageAt sp 0)).toNat = 1 := by
      rw [hzero] at hcount ⊢
      simp [hcount]
    rw [hone, hnil] at hmore
    simp [bitsAt, Files.init] at hmore
  · -- the handle of the last entry of the page
    have hle : min list.fds.length 341 ≤ 341 := Nat.min_le_right _ _
    obtain ⟨i, hi⟩ : ∃ i, min list.fds.length 341 = i + 1 := Nat.exists_eq_succ_of_ne_zero hzero
    have hlt : i < list.fds.length := by omega
    have hd : (list.fds.take limPerPage)[i]? = some list.fds[i] := by
      rw [List.getElem?_take_of_lt (by omega), List.getElem?_eq_getElem hlt]
    rw [hi] at hcount hmore hle
    obtain ⟨-, -, hhandle⟩ := hpage.entry i _ hd
    have hlast : pageAt sp 0 + 4 + 12 * BitVec.ofNat 32 i + 8 = pageAt sp 0 + 4 * BitVec.ofNat 32 (3 * (i + 1)) := by
      rw [(entry_addr _ i).2.2]
      congr 3
      omega
    have hother : pageAt sp 0 ≠ pageAt sp 0 + 4 * BitVec.ofNat 32 (3 * (i + 1)) := by bv_omega
    have hn : (BitVec.ofNat 32 (i + 1)).toNat = i + 1 := by
      rw [BitVec.toNat_ofNat]
      omega
    rw [Function.update_of_ne hother, hcount, hn] at hmore
    have hentry := congrArg (·[i]?) hmore
    simp only [List.getElem?_map, List.getElem?_eq_getElem hlt, Option.map_some] at hentry
    rw [List.getElem?_append_left (by simp [Files.init, bitsAt]), List.getElem?_append_right (by simp [Files.init])] at hentry
    simp only [Files.init, List.length_nil, Nat.sub_zero, bitsAt, List.getElem?_map,
      List.getElem?_range (Nat.lt_succ_self i), Option.map_some, Option.some.injEq, StartupFd.bits, Prod.mk.injEq,
      FdBits.mk.injEq] at hentry
    obtain ⟨-, -, hsame, -⟩ := hentry
    rw [hlast, Function.update_self] at hsame
    rw [hlast] at hhandle
    rw [hhandle] at hsame
    bv_omega

theorem findsList_iff (frames : ℕ) (list : FdList) (hsp : sp.toNat % 16 = 0) :
    FindsList sp frames list ↔ (list.fds = [] ∨ sp.toNat % 4096 ≠ 0) ∧
      28 + 4 * frames + 12 * min list.fds.length 341 ≤ 4096 + sp.toNat % 4096 := by
  constructor
  · intro h
    have hpage : list.fds = [] ∨ sp.toNat % 4096 ≠ 0 := by
      by_contra hno
      obtain ⟨hne, hoff⟩ := not_or.mp hno
      exact not_findsList_aligned (not_not.mp hoff) hne h
    exact ⟨hpage, by_contra fun hroom => not_findsList_onStack hsp hpage hroom h⟩
  · exact fun h => findsList_of_room hsp h.1 h.2

/-- **Descriptors over exec**: for a page-aligned top less a multiple of 16, the program finds
    the list exactly when there is none or the stack pointer is within a page, and the start-up
    code's stack ends above what the first page holds. -/
theorem fdlist_found_iff (top m : Word) (frames : ℕ) (list : FdList) (htop : top.toNat % 4096 = 0) :
    FindsList (top - 16 * m) frames list ↔ (list.fds = [] ∨ (top - 16 * m).toNat % 4096 ≠ 0) ∧
      28 + 4 * frames + 12 * min list.fds.length 341 ≤ 4096 + (top - 16 * m).toNat % 4096 :=
  findsList_iff frames list (by bv_omega)

def stdinList : FdList where
  fds := [{ fd := 0, serv := 0x20001, handle := 7, cwd := false }]
  passable := by constructor <;> decide

theorem fdlist_found_stdin : FindsList (0x8000000 - 16 * 4) 0 stdinList :=
  (fdlist_found_iff 0x8000000 4 0 stdinList (by decide)).mpr ⟨.inr (by decide), by decide⟩

/-- A start-up stack of one page makes it be lost. -/
theorem fdlist_lost :
    ¬ ∀ (top m : Word) (frames : ℕ) (list : FdList), top.toNat % 4096 = 0 → FindsList (top - 16 * m) frames list := by
  intro h
  exact not_findsList_aligned (by decide) (by decide) (h 0x8000000 256 0 stdinList (by decide))

end Sneks.Exec
