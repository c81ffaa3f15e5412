import Mathlib.Data.Int.Notation
import Mathlib.Data.List.GetD
import Mathlib.Data.List.TakeWhile
import Sneks.Lib.Bytes
import Sneks.Vm.Munmap

/-!
# Reading a program's headers

`read_elf` (`root/uapi.c`) makes segments for `VM::mmap` of the program headers of an ELF file. It
reads the headers from behind the ELF header on, one right after the other, wherever the file says
that they are and however long it says that they are. Sizes are words, and the length of a tail is an
`int`.
-/

namespace Sneks.Exec
open Lib

open Vm (pageSize)

-- Files

/-- A file that is read from its start on. When its bytes end `errno` is set, at the end to zero. -/
structure Stream where
  bytes : List UInt8
  errno : ℕ

inductive ReadError
  | ENOEXEC | ENOMEM
  | errno (n : ℕ)
  deriving DecidableEq

namespace Stream

variable (f : Stream)

def byte (i : ℕ) : UInt8 := f.bytes.getD i 0

def le (pos n : ℕ) : ℕ := leNat ((List.range n).map fun i => f.byte (pos + i))

/-- How many records `fread` returns from a position on. -/
def fread (pos size count : ℕ) : ℕ := min count ((f.bytes.length - pos) / size)

def fail : ReadError := if f.errno = 0 then .ENOEXEC else .errno f.errno

end Stream

structure Ehdr where
  ident : List UInt8
  eEntry : ℕ
  ePhoff : ℕ
  ePhentsize : ℕ
  ePhnum : ℕ

def ehdrSize : ℕ := 52

def Stream.ehdr (f : Stream) : Ehdr where
  ident := (List.range 4).map f.byte
  eEntry := f.le 24 4
  ePhoff := f.le 28 4
  ePhentsize := f.le 42 2
  ePhnum := f.le 44 2

def elfMag : List UInt8 := [0x7f, 0x45, 0x4c, 0x46]

structure Phdr where
  pType : ℕ
  pOffset : ℕ
  pVaddr : ℕ
  pFilesz : ℕ
  pMemsz : ℕ

def phdrSize : ℕ := 32

def Stream.phdr (f : Stream) (pos : ℕ) : Phdr where
  pType := f.le pos 4
  pOffset := f.le (pos + 4) 4
  pVaddr := f.le (pos + 8) 4
  pFilesz := f.le (pos + 16) 4
  pMemsz := f.le (pos + 20) 4

def ptLoad : ℕ := 1

structure LoadSeg where
  virtAddr : ℕ
  fileoff : ℕ
  filesz : ℕ
  memsz : ℕ
  prot : ℕ
  flags : Vm.MapFlags
  deriving DecidableEq

def LoadSeg.file (virtAddr fileoff filesz memsz : ℕ) : LoadSeg :=
  ⟨virtAddr, fileoff, filesz, memsz, 7, ⟨false, true, true, false⟩⟩

def LoadSeg.anon (virtAddr memsz : ℕ) : LoadSeg := ⟨virtAddr, 0, 0, memsz, 3, ⟨false, true, true, true⟩⟩

structure ProgramImage where
  hi : ℕ
  lo : ℕ
  start : ℕ
  segs : List LoadSeg

def toInt (w : ℕ) : ℤ := if w < 2 ^ 31 then w else w - 2 ^ 32

def ProgramImage.finish (img : ProgramImage) (ep : Phdr) (tailsz : ℤ) : ProgramImage where
  hi := max img.hi (Vm.pageCeil (Vm.word (ep.pVaddr + ep.pMemsz)))
  lo := min img.lo ep.pVaddr
  start := img.start
  segs :=
    if 0 < tailsz then img.segs ++ [.anon (Vm.pageCeil (Vm.word (ep.pVaddr + ep.pFilesz))) tailsz.toNat]
    else img.segs

abbrev Outcome := Option (ProgramImage × Except ReadError Unit)

def addPhdr (img : ProgramImage) (ep : Phdr) : Outcome :=
  if ep.pType ≠ ptLoad then some (img, .ok ())
  else if ep.pVaddr % pageSize ≠ 0 then some (img, .error .ENOEXEC)
  else if 0 < ep.pFilesz then
    if ep.pOffset % pageSize ≠ 0 then some (img, .error .ENOEXEC)
    else
      let seg := LoadSeg.file ep.pVaddr ep.pOffset ep.pFilesz (Vm.pageCeil ep.pFilesz)
      let tailsz := toInt (Vm.wordSub (Vm.pageCeil ep.pMemsz) seg.memsz)
      if tailsz < 0 then none
      else some ({ img with segs := img.segs ++ [seg] }.finish ep tailsz, .ok ())
  else some (img.finish ep (toInt (Vm.pageCeil ep.pMemsz)), .ok ())

/-- The inner loop, over what was read into `epbuf`. -/
def addPhdrs : ProgramImage → List Phdr → Outcome
  | img, [] => some (img, .ok ())
  | img, ep :: eps =>
    match addPhdr img ep with
    | some (img, .ok ()) => addPhdrs img eps
    | res => res

def epbufSize (ehdr : Ehdr) : ℕ := if ehdr.ePhentsize = phdrSize then min ehdr.ePhnum (512 / phdrSize) else 1

/-- The outer loop from header `h` on, in at most `n` turns. -/
def readPhdrs (f : Stream) (ehdr : Ehdr) : ℕ → ℕ → ProgramImage → Outcome
  | 0, _, img => some (img, .ok ())
  | n + 1, h, img =>
    if ehdr.ePhnum ≤ h then some (img, .ok ())
    else
      let pos := ehdrSize + phdrSize * h
      let nEps := f.fread pos phdrSize (min (ehdr.ePhnum - h) (epbufSize ehdr))
      if nEps = 0 then some (img, .error f.fail)
      else
        match addPhdrs img ((List.range nEps).map fun i => f.phdr (pos + phdrSize * i)) with
        | some (img, .ok ()) => readPhdrs f ehdr n (h + nEps) img
        | res => res

def ProgramImage.init (ehdr : Ehdr) : ProgramImage := ⟨0, 2 ^ 32 - 1, ehdr.eEntry, []⟩

/-- `read_elf`. `malloc` answers the allocation of the image. -/
def readElf (malloc : Bool) (f : Stream) : Outcome :=
  let ehdr := f.ehdr
  let img := ProgramImage.init ehdr
  if f.fread 0 ehdrSize 1 ≠ 1 then some (img, .error f.fail)
  else if ehdr.ident ≠ elfMag then some (img, .error .ENOEXEC)
  else if malloc = false then some (img, .error .ENOMEM)
  else readPhdrs f ehdr ehdr.ePhnum 0 img

-- What it should do

def ceilPage (n : ℕ) : ℕ := (n + (pageSize - 1)) / pageSize * pageSize

def Phdr.segs (ep : Phdr) : List LoadSeg :=
  (if 0 < ep.pFilesz then [.file ep.pVaddr ep.pOffset ep.pFilesz (ceilPage ep.pFilesz)] else []) ++
    if ceilPage ep.pFilesz < ceilPage ep.pMemsz then
      [.anon (ep.pVaddr + ceilPage ep.pFilesz) (ceilPage ep.pMemsz - ceilPage ep.pFilesz)]
    else []

def Phdr.top (ep : Phdr) : ℕ := ep.pVaddr + ceilPage ep.pMemsz

def loads (eps : List Phdr) : List Phdr := eps.filter fun ep => ep.pType = ptLoad

def Stream.table (f : Stream) : List Phdr :=
  (List.range f.ehdr.ePhnum).map fun i => f.phdr (f.ehdr.ePhoff + f.ehdr.ePhentsize * i)

structure ProgramImage.Exact (img : ProgramImage) (eps : List Phdr) : Prop where
  segs : img.segs = (loads eps).flatMap Phdr.segs
  lo_le : ∀ ep ∈ loads eps, img.lo ≤ ep.pVaddr
  le_hi : ∀ ep ∈ loads eps, ep.top ≤ img.hi
  lo_mem : loads eps ≠ [] → ∃ ep ∈ loads eps, img.lo = ep.pVaddr
  hi_mem : loads eps ≠ [] → ∃ ep ∈ loads eps, img.hi = ep.top

def Follows (f : Stream) : Prop :=
  ∀ malloc, ∃ img r, readElf malloc f = some (img, r) ∧ img.segs.length ≤ 2 * f.ehdr.ePhnum ∧
    (r = .ok () → img.Exact f.table)

def StandardTable (ehdr : Ehdr) : Prop :=
  ehdr.ePhnum = 0 ∨ (ehdr.ePhoff = ehdrSize ∧ (ehdr.ePhentsize = phdrSize ∨ ehdr.ePhnum = 1))

instance (ehdr : Ehdr) : Decidable (StandardTable ehdr) := inferInstanceAs (Decidable (_ ∨ _))

def Phdr.Accepted (ep : Phdr) : Prop :=
  ep.pType = ptLoad → ep.pVaddr % pageSize = 0 ∧ (0 < ep.pFilesz → ep.pOffset % pageSize = 0)

instance (ep : Phdr) : Decidable ep.Accepted := inferInstanceAs (Decidable (_ → _))

def reached (eps : List Phdr) : List Phdr := eps.takeWhile fun ep => ep.Accepted

def Phdr.Ends (ep : Phdr) : Prop :=
  ep.pType = ptLoad → 0 < ep.pFilesz → Vm.wordSub (Vm.pageCeil ep.pMemsz) (Vm.pageCeil ep.pFilesz) < 2 ^ 31

structure Phdr.Plain (ep : Phdr) : Prop where
  le : ceilPage ep.pFilesz ≤ ceilPage ep.pMemsz
  half : ceilPage ep.pMemsz - ceilPage ep.pFilesz < 2 ^ 31
  top_lt : ep.top < 2 ^ 32

def Stream.headers (f : Stream) : List Phdr :=
  if ehdrSize ≤ f.bytes.length ∧ f.ehdr.ident = elfMag then
    (List.range (f.fread ehdrSize phdrSize f.ehdr.ePhnum)).map fun i => f.phdr (ehdrSize + phdrSize * i)
  else []

/-- The condition on the headers: up to one that is refused none has more of the file than of memory, and
    if none is refused or missing all are plain. -/
structure PlainHeaders (f : Stream) : Prop where
  ends : ∀ ep ∈ reached f.headers, ep.Ends
  plain : ehdrSize ≤ f.bytes.length → f.ehdr.ident = elfMag → f.headers.length = f.ehdr.ePhnum →
    (∀ ep ∈ f.headers, ep.Accepted) → ∀ ep ∈ loads f.headers, ep.Plain

theorem leNat_lt (f : Stream) (pos n : ℕ) : f.le pos n < 256 ^ n := by
  have hlt : ∀ l : List UInt8, leNat l < 256 ^ l.length := by
    intro l
    induction l with
    | nil => exact Nat.one_pos
    | cons b l ih =>
      have hb := b.toNat_lt
      rw [leNat, List.length_cons, Nat.pow_succ]
      omega
  have hle := hlt ((List.range n).map fun i => f.byte (pos + i))
  rwa [List.length_map, List.length_range] at hle

-- One header

variable {f : Stream} {ep : Phdr} {eps : List Phdr} {img img' : ProgramImage} {malloc : Bool}

/-- The tail's length as `read_elf` computes it. -/
def Phdr.tailsz (ep : Phdr) : ℤ :=
  if 0 < ep.pFilesz then toInt (Vm.wordSub (Vm.pageCeil ep.pMemsz) (Vm.pageCeil ep.pFilesz)) else toInt (Vm.pageCeil ep.pMemsz)

def Phdr.made (ep : Phdr) : List LoadSeg :=
  (if 0 < ep.pFilesz then [.file ep.pVaddr ep.pOffset ep.pFilesz (Vm.pageCeil ep.pFilesz)] else []) ++
    if 0 < ep.tailsz then [.anon (Vm.pageCeil (Vm.word (ep.pVaddr + ep.pFilesz))) ep.tailsz.toNat] else []

def Phdr.madeTop (ep : Phdr) : ℕ := Vm.pageCeil (Vm.word (ep.pVaddr + ep.pMemsz))

def ProgramImage.add (img : ProgramImage) (ep : Phdr) : ProgramImage where
  hi := max img.hi ep.madeTop
  lo := min img.lo ep.pVaddr
  start := img.start
  segs := img.segs ++ ep.made

theorem toInt_neg_iff {w : ℕ} (hw : w < 2 ^ 32) : toInt w < 0 ↔ ¬ w < 2 ^ 31 := by
  rw [toInt]
  split
  · omega
  · omega

theorem addPhdr_other (h : ep.pType ≠ ptLoad) : addPhdr img ep = some (img, .ok ()) := by
  rw [addPhdr, if_pos h]

theorem addPhdr_refused (h : ¬ ep.Accepted) : addPhdr img ep = some (img, .error .ENOEXEC) := by
  rw [Phdr.Accepted] at h
  by_cases htype : ep.pType = ptLoad
  · rw [addPhdr, if_neg (not_not_intro htype)]
    split
    · rfl
    · next hvaddr =>
      have hoff : 0 < ep.pFilesz ∧ ep.pOffset % pageSize ≠ 0 := by
        by_contra hno
        exact h fun _ => ⟨by omega, fun hpos => by omega⟩
      rw [if_pos hoff.1, if_pos hoff.2]
  · exact absurd (fun ht => absurd ht htype) h

theorem finish_eq (img : ProgramImage) (ep : Phdr) (tailsz : ℤ) : img.finish ep tailsz =
    { hi := max img.hi ep.madeTop, lo := min img.lo ep.pVaddr, start := img.start,
      segs := img.segs ++
        if 0 < tailsz then [.anon (Vm.pageCeil (Vm.word (ep.pVaddr + ep.pFilesz))) tailsz.toNat] else [] } := by
  rw [ProgramImage.finish]
  split
  · rfl
  · rw [List.append_nil]
    rfl

theorem addPhdr_accepted (htype : ep.pType = ptLoad) (h : ep.Accepted) :
    addPhdr img ep = if 0 < ep.pFilesz ∧ ep.tailsz < 0 then none else some (img.add ep, .ok ()) := by
  obtain ⟨hvaddr, hoff⟩ := h htype
  rw [addPhdr, if_neg (not_not_intro htype), if_neg (not_not_intro hvaddr)]
  by_cases hpos : 0 < ep.pFilesz
  · have htail : ep.tailsz = toInt (Vm.wordSub (Vm.pageCeil ep.pMemsz) (Vm.pageCeil ep.pFilesz)) := if_pos hpos
    rw [if_pos hpos, if_neg (not_not_intro (hoff hpos))]
    simp only [LoadSeg.file, ← htail, hpos, true_and]
    split
    · rfl
    · rw [finish_eq, ProgramImage.add, Phdr.made, if_pos hpos, List.append_assoc]
      rfl
  · have htail : ep.tailsz = toInt (Vm.pageCeil ep.pMemsz) := if_neg hpos
    rw [if_neg hpos, if_neg fun hno => hpos hno.1, finish_eq, ProgramImage.add, Phdr.made, if_neg hpos, ← htail,
      List.nil_append]

theorem addPhdr_cases (h : ep.Accepted) :
    (¬ ep.Ends ∧ addPhdr img ep = none) ∨
      ep.Ends ∧ ((ep.pType = ptLoad ∧ addPhdr img ep = some (img.add ep, .ok ())) ∨
        ep.pType ≠ ptLoad ∧ addPhdr img ep = some (img, .ok ())) := by
  by_cases htype : ep.pType = ptLoad
  · have hword : Vm.wordSub (Vm.pageCeil ep.pMemsz) (Vm.pageCeil ep.pFilesz) < 2 ^ 32 := Nat.mod_lt _ (by decide)
    have hends : ep.Ends ↔ ¬ (0 < ep.pFilesz ∧ ep.tailsz < 0) := by
      rw [Phdr.Ends, Phdr.tailsz]
      constructor
      · rintro hlt ⟨hpos, hneg⟩
        rw [if_pos hpos, toInt_neg_iff hword] at hneg
        exact hneg (hlt htype hpos)
      · intro hno _ hpos
        by_contra hge
        exact hno ⟨hpos, by rw [if_pos hpos, toInt_neg_iff hword]; exact hge⟩
    rw [addPhdr_accepted htype h]
    by_cases htrip : 0 < ep.pFilesz ∧ ep.tailsz < 0
    · exact .inl ⟨fun hno => hends.mp hno htrip, if_pos htrip⟩
    · exact .inr ⟨hends.mpr htrip, .inl ⟨htype, if_neg htrip⟩⟩
  · exact .inr ⟨fun ht => absurd ht htype, .inr ⟨htype, addPhdr_other htype⟩⟩

theorem length_made (ep : Phdr) : ep.made.length ≤ 2 := by
  rw [Phdr.made, List.length_append]
  have hfile : (if 0 < ep.pFilesz then [LoadSeg.file ep.pVaddr ep.pOffset ep.pFilesz (Vm.pageCeil ep.pFilesz)] else []).length ≤ 1 := by
    split
    · exact Nat.le_refl 1
    · exact Nat.zero_le 1
  have htail : (if 0 < ep.tailsz then [LoadSeg.anon (Vm.pageCeil (Vm.word (ep.pVaddr + ep.pFilesz))) ep.tailsz.toNat]
      else []).length ≤ 1 := by
    split
    · exact Nat.le_refl 1
    · exact Nat.zero_le 1
  omega

-- All headers

structure Gathered (img img' : ProgramImage) (eps : List Phdr) : Prop where
  segs : img'.segs = img.segs ++ (loads eps).flatMap Phdr.made
  lo_le : img'.lo ≤ img.lo ∧ ∀ ep ∈ loads eps, img'.lo ≤ ep.pVaddr
  le_hi : img.hi ≤ img'.hi ∧ ∀ ep ∈ loads eps, ep.madeTop ≤ img'.hi
  lo_mem : img'.lo = img.lo ∨ ∃ ep ∈ loads eps, img'.lo = ep.pVaddr
  hi_mem : img'.hi = img.hi ∨ ∃ ep ∈ loads eps, img'.hi = ep.madeTop

theorem loads_cons_of_eq (h : ep.pType = ptLoad) : loads (ep :: eps) = ep :: loads eps :=
  List.filter_cons_of_pos (decide_eq_true h)

theorem loads_cons_of_ne (h : ep.pType ≠ ptLoad) : loads (ep :: eps) = loads eps :=
  List.filter_cons_of_neg (by simpa using h)

theorem Gathered.nil (img : ProgramImage) : Gathered img img [] where
  segs := by simp [loads]
  lo_le := ⟨Nat.le_refl _, nofun⟩
  le_hi := ⟨Nat.le_refl _, nofun⟩
  lo_mem := .inl rfl
  hi_mem := .inl rfl

theorem Gathered.add (h : Gathered (img.add ep) img' eps) (htype : ep.pType = ptLoad) : Gathered img img' (ep :: eps) := by
  have hlo : img'.lo ≤ min img.lo ep.pVaddr := h.lo_le.1
  have hhi : max img.hi ep.madeTop ≤ img'.hi := h.le_hi.1
  constructor
  · rw [h.segs, loads_cons_of_eq htype, List.flatMap_cons]
    exact List.append_assoc _ _ _
  · rw [loads_cons_of_eq htype]
    exact ⟨Nat.le_trans hlo (Nat.min_le_left _ _),
      List.forall_mem_cons.mpr ⟨Nat.le_trans hlo (Nat.min_le_right _ _), h.lo_le.2⟩⟩
  · rw [loads_cons_of_eq htype]
    exact ⟨Nat.le_trans (Nat.le_max_left _ _) hhi,
      List.forall_mem_cons.mpr ⟨Nat.le_trans (Nat.le_max_right _ _) hhi, h.le_hi.2⟩⟩
  · rw [loads_cons_of_eq htype]
    obtain heq | ⟨ep', hmem, heq⟩ := h.lo_mem
    · have hmin : img'.lo = min img.lo ep.pVaddr := heq
      obtain hle | hle := Nat.le_total img.lo ep.pVaddr
      · exact .inl (hmin.trans (Nat.min_eq_left hle))
      · exact .inr ⟨ep, List.mem_cons_self, hmin.trans (Nat.min_eq_right hle)⟩
    · exact .inr ⟨ep', List.mem_cons_of_mem _ hmem, heq⟩
  · rw [loads_cons_of_eq htype]
    obtain heq | ⟨ep', hmem, heq⟩ := h.hi_mem
    · have hmax : img'.hi = max img.hi ep.madeTop := heq
      obtain hle | hle := Nat.le_total ep.madeTop img.hi
      · exact .inl (hmax.trans (Nat.max_eq_left hle))
      · exact .inr ⟨ep, List.mem_cons_self, hmax.trans (Nat.max_eq_right hle)⟩
    · exact .inr ⟨ep', List.mem_cons_of_mem _ hmem, heq⟩

theorem Gathered.skip (h : Gathered img img' eps) (htype : ep.pType ≠ ptLoad) : Gathered img img' (ep :: eps) := by
  obtain ⟨hsegs, hlo, hhi, hlomem, hhimem⟩ := h
  refine ⟨?_, ?_, ?_, ?_, ?_⟩
  all_goals
    rw [loads_cons_of_ne htype]
    assumption

theorem reached_cons (h : ep.Accepted) : reached (ep :: eps) = ep :: reached eps :=
  List.takeWhile_cons_of_pos (decide_eq_true h)

theorem reached_refused (h : ¬ ep.Accepted) : reached (ep :: eps) = [] :=
  List.takeWhile_cons_of_neg (by simpa using h)

theorem addPhdrs_returns (h : ∀ ep ∈ reached eps, ep.Ends) :
    ∃ img' r, addPhdrs img eps = some (img', r) ∧ img'.segs.length ≤ img.segs.length + 2 * eps.length ∧
      (r = .ok () → (∀ ep ∈ eps, ep.Accepted) ∧ Gathered img img' eps) ∧ ((∀ ep ∈ eps, ep.Accepted) → r = .ok ()) := by
  induction eps generalizing img with
  | nil => exact ⟨img, .ok (), rfl, Nat.le_add_right _ _, fun _ => ⟨nofun, .nil img⟩, fun _ => rfl⟩
  | cons ep eps ih =>
    by_cases hacc : ep.Accepted
    · rw [reached_cons hacc] at h
      obtain ⟨hends, hrest⟩ := List.forall_mem_cons.mp h
      obtain ⟨htrip, -⟩ | ⟨-, ⟨htype, hadd⟩ | ⟨htype, hadd⟩⟩ := @addPhdr_cases ep img hacc
      · exact absurd hends htrip
      · obtain ⟨img', r, hrun, hlen, hok, hall⟩ := @ih (img.add ep) hrest
        have hmade := length_made ep
        refine ⟨img', r, ?_, ?_, fun hr => ?_, fun h => hall fun e he => h e (List.mem_cons_of_mem _ he)⟩
        · rw [addPhdrs, hadd]
          exact hrun
        · rw [ProgramImage.add, List.length_append] at hlen
          rw [List.length_cons]
          omega
        · obtain ⟨hacc', hgathered⟩ := hok hr
          exact ⟨List.forall_mem_cons.mpr ⟨hacc, hacc'⟩, hgathered.add htype⟩
      · obtain ⟨img', r, hrun, hlen, hok, hall⟩ := @ih img hrest
        refine ⟨img', r, ?_, ?_, fun hr => ?_, fun h => hall fun e he => h e (List.mem_cons_of_mem _ he)⟩
        · rw [addPhdrs, hadd]
          exact hrun
        · rw [List.length_cons]
          omega
        · obtain ⟨hacc', hgathered⟩ := hok hr
          exact ⟨List.forall_mem_cons.mpr ⟨hacc, hacc'⟩, hgathered.skip htype⟩
    · refine ⟨img, .error .ENOEXEC, ?_, Nat.le_add_right _ _, nofun, fun h => absurd (h ep List.mem_cons_self) hacc⟩
      rw [addPhdrs, addPhdr_refused hacc]

theorem ends_of_addPhdrs {res : ProgramImage × Except ReadError Unit} (h : addPhdrs img eps = some res) :
    ∀ ep ∈ reached eps, ep.Ends := by
  induction eps generalizing img with
  | nil => exact nofun
  | cons ep eps ih =>
    by_cases hacc : ep.Accepted
    · rw [reached_cons hacc]
      obtain ⟨-, hadd⟩ | ⟨hends, ⟨-, hadd⟩ | ⟨-, hadd⟩⟩ := @addPhdr_cases ep img hacc
      all_goals rw [addPhdrs, hadd] at h
      · cases h
      · exact List.forall_mem_cons.mpr ⟨hends, ih h⟩
      · exact List.forall_mem_cons.mpr ⟨hends, ih h⟩
    · rw [reached_refused hacc]
      exact nofun

def Outcome.andThen (res : Outcome) (k : ProgramImage → Outcome) : Outcome :=
  match res with
  | some (img, .ok ()) => k img
  | res => res

theorem Outcome.andThen_of_not {res : Outcome} {k : ProgramImage → Outcome} (h : ∀ img, res = some (img, .ok ()) → False) :
    res.andThen k = res := by
  rw [Outcome.andThen]
  exact h

theorem addPhdrs_append (a b : List Phdr) : addPhdrs img (a ++ b) = (addPhdrs img a).andThen fun img => addPhdrs img b := by
  induction a generalizing img with
  | nil => rfl
  | cons ep a ih =>
    rw [List.cons_append, addPhdrs, addPhdrs]
    split
    · exact ih
    · next hno =>
      rw [Outcome.andThen_of_not hno]

-- The batches

def Stream.from (f : Stream) (h n : ℕ) : List Phdr := (List.range n).map fun i => f.phdr (ehdrSize + phdrSize * (h + i))

theorem from_add (f : Stream) (h a b : ℕ) : f.from h (a + b) = f.from h a ++ f.from (h + a) b := by
  rw [Stream.from, Stream.from, Stream.from, List.range_add, List.map_append, List.map_map]
  congr 1
  apply List.map_congr_left
  intro i _
  rw [Function.comp_apply, Nat.add_assoc]

theorem readPhdrs_eq (f : Stream) (ehdr : Ehdr) (n h : ℕ) (img : ProgramImage) (hn : ehdr.ePhnum - h ≤ n) :
    readPhdrs f ehdr n h img =
      (addPhdrs img (f.from h (f.fread (ehdrSize + phdrSize * h) phdrSize (ehdr.ePhnum - h)))).andThen fun img =>
        if f.fread (ehdrSize + phdrSize * h) phdrSize (ehdr.ePhnum - h) < ehdr.ePhnum - h then some (img, .error f.fail)
        else some (img, .ok ()) := by
  induction n generalizing h img with
  | zero =>
    have hzero : ehdr.ePhnum - h = 0 := Nat.le_zero.mp hn
    rw [readPhdrs, hzero, Stream.fread, Nat.zero_min]
    rfl
  | succ n ih =>
    rw [readPhdrs]
    split
    · next hle =>
      have hzero : ehdr.ePhnum - h = 0 := Nat.sub_eq_zero_of_le hle
      rw [hzero, Stream.fread, Nat.zero_min]
      rfl
    · next hlt =>
      have hbatch : 1 ≤ epbufSize ehdr := by
        rw [epbufSize]
        split
        · have h16 : 512 / phdrSize = 16 := rfl
          omega
        · exact Nat.le_refl 1
      have hsize : phdrSize = 32 := rfl
      simp only [Stream.fread, hsize]
      split
      · next hnone =>
        have hall : min (ehdr.ePhnum - h) ((f.bytes.length - (ehdrSize + 32 * h)) / 32) = 0 := by omega
        rw [hall]
        show some (img, Except.error f.fail) = if 0 < ehdr.ePhnum - h then _ else _
        rw [if_pos (by omega)]
      · next hsome =>
        generalize hbatchLen : min (min (ehdr.ePhnum - h) (epbufSize ehdr)) ((f.bytes.length - (ehdrSize + 32 * h)) / 32) = k at hsome
        have hlist : ((List.range k).map fun i => f.phdr (ehdrSize + 32 * h + 32 * i)) = f.from h k := by
          apply List.map_congr_left
          intro i _
          rw [hsize, Nat.mul_add, Nat.add_assoc]
        have hrest := fun img => ih (h + k) img (by omega)
        have hsum : min (ehdr.ePhnum - h) ((f.bytes.length - (ehdrSize + 32 * h)) / 32) =
            k + min (ehdr.ePhnum - (h + k)) ((f.bytes.length - (ehdrSize + 32 * (h + k))) / 32) := by omega
        have hshort : (k + min (ehdr.ePhnum - (h + k)) ((f.bytes.length - (ehdrSize + 32 * (h + k))) / 32) < ehdr.ePhnum - h) ↔
            min (ehdr.ePhnum - (h + k)) ((f.bytes.length - (ehdrSize + 32 * (h + k))) / 32) < ehdr.ePhnum - (h + k) := by omega
        rw [hlist, hsum, from_add, addPhdrs_append]
        simp only [hshort]
        simp only [Stream.fread, hsize] at hrest
        split
        · next img' heq =>
          rw [heq]
          exact hrest img'
        · next hno => rw [Outcome.andThen_of_not hno, Outcome.andThen_of_not hno]

theorem readElf_eq (f : Stream) (hlen : ehdrSize ≤ f.bytes.length) (hmag : f.ehdr.ident = elfMag) :
    readElf true f = (addPhdrs (.init f.ehdr) f.headers).andThen fun img =>
      if f.headers.length < f.ehdr.ePhnum then some (img, .error f.fail) else some (img, .ok ()) := by
  have hheaders : f.headers = f.from 0 (f.fread ehdrSize phdrSize f.ehdr.ePhnum) := by
    rw [Stream.headers, if_pos ⟨hlen, hmag⟩, Stream.from]
    apply List.map_congr_left
    intro i _
    rw [Nat.zero_add]
  have hlength : f.headers.length = f.fread ehdrSize phdrSize f.ehdr.ePhnum := by
    rw [hheaders, Stream.from, List.length_map, List.length_range]
  have hread : f.fread 0 ehdrSize 1 = 1 := by
    have hsize : ehdrSize = 52 := rfl
    rw [hsize] at hlen
    rw [Stream.fread, hsize]
    omega
  rw [readElf, if_neg (not_not_intro hread), if_neg (not_not_intro hmag), if_neg Bool.true_eq_false.mp,
    readPhdrs_eq f f.ehdr f.ehdr.ePhnum 0 _ (Nat.sub_le _ _), hlength, hheaders, Nat.sub_zero]
  rfl

theorem readElf_early (h : ¬ (malloc = true ∧ ehdrSize ≤ f.bytes.length ∧ f.ehdr.ident = elfMag)) :
    ∃ e, readElf malloc f = some (.init f.ehdr, .error e) := by
  have hread : f.fread 0 ehdrSize 1 = 1 → ehdrSize ≤ f.bytes.length := by
    have hsize : ehdrSize = 52 := rfl
    rw [Stream.fread, hsize]
    omega
  rw [readElf]
  split
  · exact ⟨_, rfl⟩
  · next hone =>
    split
    · exact ⟨_, rfl⟩
    · next hmag =>
      have hmalloc : malloc = false := by
        cases malloc with
        | false => rfl
        | true => exact absurd ⟨rfl, hread (not_not.mp hone), not_not.mp hmag⟩ h
      rw [if_pos hmalloc]
      exact ⟨_, rfl⟩

theorem headers_length_le (f : Stream) : f.headers.length ≤ f.ehdr.ePhnum := by
  rw [Stream.headers]
  split
  · rw [List.length_map, List.length_range]
    exact Nat.min_le_left _ _
  · exact Nat.zero_le _

-- Sizes

structure Phdr.Sized (ep : Phdr) : Prop where
  vaddr : ep.pVaddr < 2 ^ 32
  filesz : ep.pFilesz < 2 ^ 32
  memsz : ep.pMemsz < 2 ^ 32

theorem phdr_sized (f : Stream) (pos : ℕ) : (f.phdr pos).Sized where
  vaddr := leNat_lt f _ 4
  filesz := leNat_lt f _ 4
  memsz := leNat_lt f _ 4

theorem pageCeil_cases {n : ℕ} (h : n < 2 ^ 32) :
    (ceilPage n < 2 ^ 32 ∧ Vm.pageCeil n = ceilPage n) ∨ (ceilPage n = 2 ^ 32 ∧ Vm.pageCeil n = 0) := by
  have hpages : pageSize = 4096 := rfl
  simp only [ceilPage, Vm.pageCeil, Vm.pageFloor, Vm.word, hpages]
  omega

theorem ceilPage_add {a n : ℕ} (h : a % pageSize = 0) : ceilPage (a + n) = a + ceilPage n := by
  have hpages : pageSize = 4096 := rfl
  rw [hpages] at h
  simp only [ceilPage, hpages]
  omega

theorem le_ceilPage (n : ℕ) : n ≤ ceilPage n := by
  have hpages : pageSize = 4096 := rfl
  simp only [ceilPage, hpages]
  omega

theorem toInt_of_lt {w : ℕ} (h : w < 2 ^ 31) : toInt w = w := if_pos h

theorem pageCeil_add {a n : ℕ} (h : a % pageSize = 0) (hlt : a + ceilPage n < 2 ^ 32) :
    Vm.pageCeil (Vm.word (a + n)) = a + ceilPage n := by
  have hle := le_ceilPage n
  have hsum : a + n < 2 ^ 32 := by omega
  rw [Vm.word_of_lt hsum, ← ceilPage_add h]
  rw [← ceilPage_add h] at hlt
  obtain ⟨-, heq⟩ | ⟨hend, -⟩ := pageCeil_cases hsum
  · exact heq
  · omega

theorem Phdr.Plain.madeTop (h : ep.Plain) (hvaddr : ep.pVaddr % pageSize = 0) : ep.madeTop = ep.top :=
  pageCeil_add hvaddr h.top_lt

theorem Phdr.Plain.tailsz (h : ep.Plain) (hs : ep.Sized) : ep.tailsz = ((ceilPage ep.pMemsz - ceilPage ep.pFilesz : ℕ) : ℤ) := by
  have hle := h.le
  have hhalf := h.half
  have htop : ep.pVaddr + ceilPage ep.pMemsz < 2 ^ 32 := h.top_lt
  have hmemsz : Vm.pageCeil ep.pMemsz = ceilPage ep.pMemsz := by
    obtain ⟨-, heq⟩ | ⟨hend, -⟩ := pageCeil_cases hs.memsz
    · exact heq
    · omega
  have hfilesz : Vm.pageCeil ep.pFilesz = ceilPage ep.pFilesz := by
    obtain ⟨-, heq⟩ | ⟨hend, -⟩ := pageCeil_cases hs.filesz
    · exact heq
    · omega
  rw [Phdr.tailsz, hmemsz, hfilesz]
  split
  · rw [Vm.wordSub_of_le hle (by omega), toInt_of_lt hhalf]
  · next hpos =>
    have hzero : ceilPage ep.pFilesz = 0 := by
      rw [Nat.eq_zero_of_not_pos hpos]
      rfl
    rw [hzero, Nat.sub_zero] at hhalf
    rw [hzero, Nat.sub_zero, toInt_of_lt hhalf]

theorem Phdr.Plain.made (h : ep.Plain) (hs : ep.Sized) (hvaddr : ep.pVaddr % pageSize = 0) : ep.made = ep.segs := by
  have hle := h.le
  have htop : ep.pVaddr + ceilPage ep.pMemsz < 2 ^ 32 := h.top_lt
  have hfilesz : Vm.pageCeil ep.pFilesz = ceilPage ep.pFilesz := by
    obtain ⟨-, heq⟩ | ⟨hend, -⟩ := pageCeil_cases hs.filesz
    · exact heq
    · omega
  rw [Phdr.made, Phdr.segs, h.tailsz hs, hfilesz, pageCeil_add hvaddr (by omega), Int.toNat_natCast]
  congr 1
  by_cases hlt : ceilPage ep.pFilesz < ceilPage ep.pMemsz
  · rw [if_pos hlt, if_pos (by omega)]
  · rw [if_neg hlt, if_neg (by omega)]

-- From the segments back to the sizes

theorem eq_of_flatMap_eq {α β : Type*} {c s : α → List β} {l : List α} (hlen : ∀ x ∈ l, (s x).length ≤ (c x).length)
    (heq : l.flatMap c = l.flatMap s) : ∀ x ∈ l, c x = s x := by
  induction l with
  | nil => exact nofun
  | cons x l ih =>
    obtain ⟨hx, hl⟩ := List.forall_mem_cons.mp hlen
    have hsum : ∀ l : List α, (∀ x ∈ l, (s x).length ≤ (c x).length) → (l.flatMap s).length ≤ (l.flatMap c).length := by
      intro l hl
      induction l with
      | nil => exact Nat.le_refl _
      | cons x l ih =>
        obtain ⟨hx, hl⟩ := List.forall_mem_cons.mp hl
        rw [List.flatMap_cons, List.flatMap_cons, List.length_append, List.length_append]
        exact Nat.add_le_add hx (ih hl)
    rw [List.flatMap_cons, List.flatMap_cons] at heq
    have htotal := congrArg List.length heq
    rw [List.length_append, List.length_append] at htotal
    have hrest := hsum l hl
    obtain ⟨hfirst, hothers⟩ := List.append_inj heq (by omega)
    exact List.forall_mem_cons.mpr ⟨hfirst, ih hl hothers⟩

theorem LoadSeg.file_memsz {a b c d e : ℕ} (h : LoadSeg.file a b c d = LoadSeg.file a b c e) : d = e :=
  congrArg LoadSeg.memsz h

/-- Anonymous memory of a length that an `int` has. -/
def LoadSeg.Short (seg : LoadSeg) : Prop := seg.flags.anon = true → seg.memsz < 2 ^ 31

theorem made_short (ep : Phdr) : ∀ seg ∈ ep.made, seg.Short := by
  have hlt : ep.tailsz < 2 ^ 31 := by
    have hword : ∀ w < 2 ^ 32, toInt w < 2 ^ 31 := by
      intro w hw
      rw [toInt]
      split
      · omega
      · omega
    rw [Phdr.tailsz]
    split
    · exact hword _ (Nat.mod_lt _ (by decide))
    · have hfloor : Vm.pageCeil ep.pMemsz < 2 ^ 32 :=
        Nat.lt_of_le_of_lt (Nat.div_mul_le_self _ _) (Nat.mod_lt _ (by decide))
      exact hword _ hfloor
  intro seg hseg hanon
  rw [Phdr.made, List.mem_append] at hseg
  obtain hseg | hseg := hseg
  · split at hseg
    · rw [List.mem_singleton.mp hseg] at hanon
      cases hanon
    · cases hseg
  · split at hseg
    · rw [List.mem_singleton.mp hseg]
      show ep.tailsz.toNat < 2 ^ 31
      omega
    · cases hseg

section

variable (hs : ep.Sized) (htop : ep.top < 2 ^ 32)
include hs htop

theorem pageCeil_memsz : Vm.pageCeil ep.pMemsz = ceilPage ep.pMemsz ∧ ceilPage ep.pMemsz < 2 ^ 32 := by
  have hlt : ep.pVaddr + ceilPage ep.pMemsz < 2 ^ 32 := htop
  obtain ⟨hlt', heq⟩ | ⟨hend, -⟩ := pageCeil_cases hs.memsz
  · exact ⟨heq, hlt'⟩
  · omega

theorem length_segs_le (hvaddr : ep.pVaddr % pageSize = 0) (hshort : ∀ seg ∈ ep.segs, seg.Short) :
    ep.segs.length ≤ ep.made.length := by
  by_cases htail : ceilPage ep.pFilesz < ceilPage ep.pMemsz
  · have hhalf : ceilPage ep.pMemsz - ceilPage ep.pFilesz < 2 ^ 31 := by
      refine hshort (.anon (ep.pVaddr + ceilPage ep.pFilesz) (ceilPage ep.pMemsz - ceilPage ep.pFilesz)) ?_ rfl
      rw [Phdr.segs, if_pos htail]
      exact List.mem_append_right _ List.mem_cons_self
    have hplain : ep.Plain := ⟨Nat.le_of_lt htail, hhalf, htop⟩
    rw [hplain.made hs hvaddr]
  · rw [Phdr.segs, Phdr.made, if_neg htail, List.append_nil, List.length_append]
    by_cases hpos : 0 < ep.pFilesz
    · rw [if_pos hpos, if_pos hpos, List.length_singleton, List.length_singleton]
      exact Nat.le_add_right 1 _
    · rw [if_neg hpos, List.length_nil]
      exact Nat.zero_le _

theorem plain_of_made (htype : ep.pType = ptLoad) (hends : ep.Ends) (h : ep.made = ep.segs) : ep.Plain := by
  obtain ⟨hmemsz, hlt⟩ := pageCeil_memsz hs htop
  by_cases hpos : 0 < ep.pFilesz
  · have hword := hends htype hpos
    have htailsz : ep.tailsz = Vm.wordSub (Vm.pageCeil ep.pMemsz) (Vm.pageCeil ep.pFilesz) := by
      rw [Phdr.tailsz, if_pos hpos, toInt_of_lt hword]
    rw [Phdr.made, Phdr.segs, if_pos hpos, if_pos hpos, List.singleton_append, List.singleton_append] at h
    obtain ⟨hfile, htail⟩ := List.cons.inj h
    have hfilesz : Vm.pageCeil ep.pFilesz = ceilPage ep.pFilesz := LoadSeg.file_memsz hfile
    obtain ⟨hlt', -⟩ | ⟨hend, hzero⟩ := pageCeil_cases hs.filesz
    · rw [hmemsz, hfilesz] at htailsz hword
      by_cases hle : ceilPage ep.pFilesz ≤ ceilPage ep.pMemsz
      · rw [Vm.wordSub_of_le hle hlt] at hword
        exact ⟨hle, hword, htop⟩
      · -- the tail has wrapped around, and nothing asks for one
        have hwrap : 0 < Vm.wordSub (ceilPage ep.pMemsz) (ceilPage ep.pFilesz) := by
          rw [Vm.wordSub, Vm.word]
          omega
        have htailpos : 0 < ep.tailsz := by omega
        have hnone : ¬ ceilPage ep.pFilesz < ceilPage ep.pMemsz := fun hlt => hle (Nat.le_of_lt hlt)
        rw [if_pos htailpos, if_neg hnone] at htail
        cases htail
    · rw [hend, hzero] at hfilesz
      exact absurd hfilesz (by decide)
  · have hzero : ceilPage ep.pFilesz = 0 := by
      rw [Nat.eq_zero_of_not_pos hpos]
      rfl
    refine ⟨Nat.le_trans (Nat.le_of_eq hzero) (Nat.zero_le _), ?_, htop⟩
    by_contra hbig
    rw [hzero, Nat.sub_zero] at hbig
    have htailneg : ¬ 0 < ep.tailsz := by
      rw [Phdr.tailsz, if_neg hpos, hmemsz, toInt, if_neg hbig]
      omega
    have hasked : ceilPage ep.pFilesz < ceilPage ep.pMemsz := by omega
    rw [Phdr.made, Phdr.segs, if_neg hpos, if_neg hpos, if_neg htailneg, if_pos hasked] at h
    cases h

end

-- Standard tables

theorem mem_headers_sized (hmem : ep ∈ f.headers) : ep.Sized := by
  rw [Stream.headers] at hmem
  split at hmem
  · obtain ⟨i, -, rfl⟩ := List.mem_map.mp hmem
    exact phdr_sized f _
  · cases hmem

theorem headers_eq_table (hstd : StandardTable f.ehdr) (hlen : ehdrSize ≤ f.bytes.length) (hmag : f.ehdr.ident = elfMag)
    (hall : f.headers.length = f.ehdr.ePhnum) : f.headers = f.table := by
  have hread : f.fread ehdrSize phdrSize f.ehdr.ePhnum = f.ehdr.ePhnum := by
    rw [Stream.headers, if_pos ⟨hlen, hmag⟩, List.length_map, List.length_range] at hall
    exact hall
  rw [Stream.headers, if_pos ⟨hlen, hmag⟩, Stream.table, hread]
  apply List.map_congr_left
  intro i hi
  rw [List.mem_range] at hi
  obtain hzero | ⟨hoff, hsize | hone⟩ := hstd
  · exact absurd hi (by omega)
  · rw [hoff, hsize]
  · obtain rfl : i = 0 := by omega
    rw [hoff, Nat.mul_zero, Nat.mul_zero]

theorem Gathered.exact (h : Gathered (.init f.ehdr) img eps) (hsized : ∀ ep ∈ eps, ep.Sized) (hacc : ∀ ep ∈ eps, ep.Accepted)
    (hplain : ∀ ep ∈ loads eps, ep.Plain) : img.Exact eps := by
  have hload : ∀ ep ∈ loads eps, ep ∈ eps ∧ ep.pType = ptLoad := by
    intro ep hep
    obtain ⟨hmem, htype⟩ := List.mem_filter.mp hep
    exact ⟨hmem, of_decide_eq_true htype⟩
  have hvaddr : ∀ ep ∈ loads eps, ep.pVaddr % pageSize = 0 := fun ep hep =>
    (hacc ep (hload ep hep).1 (hload ep hep).2).1
  have htop : ∀ ep ∈ loads eps, ep.madeTop = ep.top := fun ep hep => (hplain ep hep).madeTop (hvaddr ep hep)
  constructor
  · rw [h.segs]
    show [] ++ _ = _
    rw [List.nil_append]
    exact List.flatMap_congr fun ep hep => (hplain ep hep).made (hsized ep (hload ep hep).1) (hvaddr ep hep)
  · exact h.lo_le.2
  · exact fun ep hep => htop ep hep ▸ h.le_hi.2 ep hep
  · intro hne
    obtain hinit | hmem := h.lo_mem
    · obtain ⟨ep, hep⟩ := List.exists_mem_of_ne_nil _ hne
      have hle := h.lo_le.2 ep hep
      have hlt := (hsized ep (hload ep hep).1).vaddr
      have hlo : img.lo = 2 ^ 32 - 1 := hinit
      exact ⟨ep, hep, by omega⟩
    · exact hmem
  · intro hne
    obtain hinit | ⟨ep, hep, heq⟩ := h.hi_mem
    · obtain ⟨ep, hep⟩ := List.exists_mem_of_ne_nil _ hne
      have hle := h.le_hi.2 ep hep
      have hhi : img.hi = 0 := hinit
      exact ⟨ep, hep, by rw [← htop ep hep]; omega⟩
    · exact ⟨ep, hep, heq.trans (htop ep hep)⟩

theorem Gathered.plain (h : Gathered (.init f.ehdr) img eps) (hsized : ∀ ep ∈ eps, ep.Sized) (hacc : ∀ ep ∈ eps, ep.Accepted)
    (hends : ∀ ep ∈ eps, ep.Ends) (hexact : img.Exact eps) : ∀ ep ∈ loads eps, ep.Plain := by
  have hload : ∀ ep ∈ loads eps, ep ∈ eps ∧ ep.pType = ptLoad := by
    intro ep hep
    obtain ⟨hmem, htype⟩ := List.mem_filter.mp hep
    exact ⟨hmem, of_decide_eq_true htype⟩
  have hhi : img.hi < 2 ^ 32 := by
    obtain hinit | ⟨ep, -, heq⟩ := h.hi_mem
    · have hzero : img.hi = 0 := hinit
      omega
    · rw [heq]
      exact Nat.lt_of_le_of_lt (Nat.div_mul_le_self _ _) (Nat.mod_lt _ (by decide))
  have htop : ∀ ep ∈ loads eps, ep.top < 2 ^ 32 := fun ep hep => Nat.lt_of_le_of_lt (hexact.le_hi ep hep) hhi
  have hsegs : (loads eps).flatMap Phdr.made = (loads eps).flatMap Phdr.segs := by
    rw [← hexact.segs, h.segs]
    exact (List.nil_append _).symm
  have hshort : ∀ ep ∈ loads eps, ∀ seg ∈ ep.segs, seg.Short := by
    intro ep hep seg hseg
    have hmem : seg ∈ (loads eps).flatMap Phdr.made := by
      rw [hsegs]
      exact List.mem_flatMap.mpr ⟨ep, hep, hseg⟩
    obtain ⟨ep', -, hmade⟩ := List.mem_flatMap.mp hmem
    exact made_short ep' seg hmade
  have hmade := eq_of_flatMap_eq (fun ep hep => length_segs_le (hsized ep (hload ep hep).1) (htop ep hep)
    (hacc ep (hload ep hep).1 (hload ep hep).2).1 (hshort ep hep)) hsegs
  exact fun ep hep => plain_of_made (hsized ep (hload ep hep).1) (htop ep hep) (hload ep hep).2
    (hends ep (hload ep hep).1) (hmade ep hep)

theorem reached_eq (h : ∀ ep ∈ eps, ep.Accepted) : reached eps = eps :=
  List.takeWhile_eq_self_iff.mpr fun ep hep => decide_eq_true (h ep hep)

theorem follows_of_standard (hstd : StandardTable f.ehdr) : Follows f ↔ PlainHeaders f := by
  have hinit : (ProgramImage.init f.ehdr).segs.length = 0 := rfl
  have hcount := headers_length_le f
  constructor
  · intro hf
    obtain ⟨img, r, hrun, -, hexact⟩ := hf true
    have hends : ∀ ep ∈ reached f.headers, ep.Ends := by
      by_cases hread : ehdrSize ≤ f.bytes.length ∧ f.ehdr.ident = elfMag
      · rw [readElf_eq f hread.1 hread.2] at hrun
        cases hadd : addPhdrs (.init f.ehdr) f.headers with
        | none =>
          rw [hadd] at hrun
          cases hrun
        | some res => exact ends_of_addPhdrs hadd
      · rw [Stream.headers, if_neg hread]
        exact nofun
    refine ⟨hends, fun hlen hmag hall hacc => ?_⟩
    obtain ⟨img', r', hadd, -, hok, hr⟩ := @addPhdrs_returns _ (.init f.ehdr) hends
    obtain rfl := hr hacc
    obtain ⟨-, hgathered⟩ := hok rfl
    rw [readElf_eq f hlen hmag, hadd, Outcome.andThen, if_neg (by omega)] at hrun
    obtain ⟨rfl, rfl⟩ := Prod.mk.inj (Option.some.inj hrun)
    have hexact' := hexact rfl
    rw [← headers_eq_table hstd hlen hmag hall] at hexact'
    rw [reached_eq hacc] at hends
    exact hgathered.plain (fun _ => mem_headers_sized) hacc hends hexact'
  · intro hp malloc
    by_cases hread : malloc = true ∧ ehdrSize ≤ f.bytes.length ∧ f.ehdr.ident = elfMag
    · obtain ⟨rfl, hlen, hmag⟩ := hread
      obtain ⟨img, r, hadd, hseg, hok, -⟩ := @addPhdrs_returns _ (.init f.ehdr) hp.ends
      rw [readElf_eq f hlen hmag, hadd]
      cases r with
      | error e => exact ⟨img, .error e, rfl, by omega, nofun⟩
      | ok =>
        obtain ⟨hacc, hgathered⟩ := hok rfl
        rw [Outcome.andThen]
        split
        · exact ⟨img, .error f.fail, rfl, by omega, nofun⟩
        · have hall : f.headers.length = f.ehdr.ePhnum := by omega
          refine ⟨img, .ok (), rfl, by omega, fun _ => ?_⟩
          rw [← headers_eq_table hstd hlen hmag hall]
          exact hgathered.exact (fun _ => mem_headers_sized) hacc (hp.plain hlen hmag hall hacc)
    · obtain ⟨e, he⟩ := readElf_early hread
      exact ⟨_, _, he, Nat.zero_le _, nofun⟩

-- Other tables

theorem Stream.le_congr {f g : Stream} {pos k : ℕ} (h : ∀ i < pos + k, f.byte i = g.byte i) : f.le pos k = g.le pos k := by
  rw [Stream.le, Stream.le]
  congr 1
  apply List.map_congr_left
  intro i hi
  rw [List.mem_range] at hi
  exact h _ (by omega)

theorem Stream.ehdr_congr {f g : Stream} (h : ∀ i < ehdrSize, f.byte i = g.byte i) : f.ehdr = g.ehdr := by
  have hsize : ehdrSize = 52 := rfl
  have hle : ∀ pos k, pos + k ≤ ehdrSize → f.le pos k = g.le pos k := fun pos k hk =>
    Stream.le_congr fun i hi => h i (by omega)
  rw [Stream.ehdr, Stream.ehdr, hle _ _ (by omega), hle _ _ (by omega), hle _ _ (by omega), hle _ _ (by omega)]
  congr 1
  apply List.map_congr_left
  intro i hi
  rw [List.mem_range] at hi
  exact h i (by omega)

theorem Stream.byte_take {f : Stream} {i n errno : ℕ} (hi : i < n) : (Stream.mk (f.bytes.take n) errno).byte i = f.byte i := by
  rw [Stream.byte, Stream.byte, List.getD_eq_getElem?_getD, List.getElem?_take_of_lt hi, List.getD_eq_getElem?_getD]

def marked (hdr : List UInt8) (t n : ℕ) : Stream where
  bytes := hdr ++ (List.range n).map fun i => if ehdrSize + i = t then 1 else 0
  errno := 0

section

variable {hdr : List UInt8} {t n pos : ℕ} (hlen : hdr.length = ehdrSize)
include hlen

theorem marked_byte_hdr {i : ℕ} (hi : i < ehdrSize) : (marked hdr t n).byte i = (Stream.mk hdr 0).byte i := by
  rw [Stream.byte, Stream.byte, marked]
  exact List.getD_append _ _ _ _ (hlen ▸ hi)

theorem marked_byte {i : ℕ} (hge : ehdrSize ≤ i) (ht : t < ehdrSize + n) :
    (marked hdr t n).byte i = if i = t then 1 else 0 := by
  rw [Stream.byte, marked]
  dsimp only
  rw [List.getD_append_right _ _ _ _ (hlen ▸ hge), hlen]
  by_cases hi : i - ehdrSize < n
  · rw [List.getD_eq_getElem _ _ (by rw [List.length_map, List.length_range]; exact hi), List.getElem_map, List.getElem_range,
      Nat.add_sub_of_le hge]
  · rw [List.getD_eq_default _ _ (by rw [List.length_map, List.length_range]; omega), if_neg (by omega)]

theorem marked_ehdr : (marked hdr t n).ehdr = (Stream.mk hdr 0).ehdr :=
  Stream.ehdr_congr fun _ hi => marked_byte_hdr hlen hi

theorem marked_le (hge : ehdrSize ≤ pos) (ht : t < ehdrSize + n) :
    (marked hdr t n).le pos 4 = (if pos = t then 1 else 0) + 256 * ((if pos + 1 = t then 1 else 0) +
      256 * ((if pos + 2 = t then 1 else 0) + 256 * (if pos + 3 = t then 1 else 0))) := by
  have hbyte : ∀ k, ((marked hdr t n).byte (pos + k)).toNat = if pos + k = t then 1 else 0 := by
    intro k
    rw [marked_byte hlen (by omega) ht]
    split
    · rfl
    · rfl
  have hrange : List.range 4 = [0, 1, 2, 3] := rfl
  have hfirst : ((marked hdr t n).byte pos).toNat = if pos = t then 1 else 0 := hbyte 0
  simp only [Stream.le, hrange, List.map_cons, List.map_nil, leNat, hfirst, hbyte, Nat.add_zero, Nat.mul_zero]

theorem marked_phdr_type (hge : ehdrSize ≤ pos) (ht : t < ehdrSize + n) : ((marked hdr t n).phdr pos).pType = ptLoad ↔ pos = t := by
  have hone : ptLoad = 1 := rfl
  have heven : ∀ x, 0 + 256 * x ≠ 1 := by
    intro x
    omega
  rw [Stream.phdr, marked_le hlen hge ht, hone]
  by_cases h : pos = t
  · simp [h]
  · rw [if_neg h]
    exact iff_of_false (heven _) h

theorem marked_phdr (hge : ehdrSize ≤ t) (ht : t < ehdrSize + n) : (marked hdr t n).phdr t = ⟨ptLoad, 0, 0, 0, 0⟩ := by
  have hzero : ∀ k, 1 ≤ k → (marked hdr t n).le (t + k) 4 = 0 := by
    intro k hk
    rw [marked_le hlen (by omega) ht, if_neg (by omega), if_neg (by omega), if_neg (by omega), if_neg (by omega)]
  have hone : (marked hdr t n).le t 4 = ptLoad := (marked_phdr_type hlen hge ht).mpr rfl
  rw [Stream.phdr, hone, hzero 4 (by decide), hzero 8 (by decide), hzero 16 (by decide), hzero 20 (by decide)]

end

def Ehdr.last (ehdr : Ehdr) : ℕ := ehdr.ePhoff + ehdr.ePhentsize * (ehdr.ePhnum - 1)

def lastMarked (hdr : List UInt8) : Stream :=
  marked hdr (Stream.mk hdr 0).ehdr.last ((Stream.mk hdr 0).ehdr.last + phdrSize * (Stream.mk hdr 0).ehdr.ePhnum)

structure Ehdr.Beyond (ehdr : Ehdr) : Prop where
  mag : ehdr.ident = elfMag
  num : ehdr.ePhnum ≠ 0
  last : ehdrSize + phdrSize * (ehdr.ePhnum - 1) < ehdr.last

section

variable {hdr : List UInt8} (hlen : hdr.length = ehdrSize)
include hlen

theorem lastMarked_ehdr : (lastMarked hdr).ehdr = (Stream.mk hdr 0).ehdr := marked_ehdr hlen

theorem lastMarked_take : (lastMarked hdr).bytes.take ehdrSize = hdr := by
  rw [lastMarked, marked, ← hlen]
  exact List.take_left

variable (hbeyond : (Stream.mk hdr 0).ehdr.Beyond)
include hbeyond

theorem lastMarked_loads (hoff : ehdrSize ≤ (Stream.mk hdr 0).ehdr.ePhoff) (hmem : ep ∈ loads (lastMarked hdr).table) :
    ep = ⟨ptLoad, 0, 0, 0, 0⟩ := by
  have hnum := Nat.pos_of_ne_zero hbeyond.num
  have hsize : phdrSize = 32 := rfl
  have hfits : (Stream.mk hdr 0).ehdr.last < ehdrSize +
      ((Stream.mk hdr 0).ehdr.last + phdrSize * (Stream.mk hdr 0).ehdr.ePhnum) := by
    rw [hsize]
    omega
  obtain ⟨htable, htype⟩ := List.mem_filter.mp hmem
  rw [Stream.table, lastMarked_ehdr hlen] at htable
  obtain ⟨i, -, rfl⟩ := List.mem_map.mp htable
  have hge : ehdrSize ≤ (Stream.mk hdr 0).ehdr.ePhoff + (Stream.mk hdr 0).ehdr.ePhentsize * i := Nat.le_add_right_of_le hoff
  have hat := (marked_phdr_type hlen hge hfits).mp (of_decide_eq_true htype)
  rw [lastMarked, hat]
  exact marked_phdr hlen (hat ▸ hge) hfits

theorem lastMarked_not_follows : ¬ Follows (lastMarked hdr) := by
  have hnum := Nat.pos_of_ne_zero hbeyond.num
  have hlast := hbeyond.last
  have hsize : phdrSize = 32 := rfl
  have hehdr := lastMarked_ehdr hlen
  have hfits : (Stream.mk hdr 0).ehdr.last < ehdrSize +
      ((Stream.mk hdr 0).ehdr.last + phdrSize * (Stream.mk hdr 0).ehdr.ePhnum) := by
    rw [hsize]
    omega
  have hbytes : (lastMarked hdr).bytes.length =
      ehdrSize + ((Stream.mk hdr 0).ehdr.last + phdrSize * (Stream.mk hdr 0).ehdr.ePhnum) := by
    rw [lastMarked, marked, List.length_append, hlen, List.length_map, List.length_range]
  have hmag : (lastMarked hdr).ehdr.ident = elfMag := hehdr ▸ hbeyond.mag
  have hlong : ehdrSize ≤ (lastMarked hdr).bytes.length := hbytes ▸ Nat.le_add_right _ _
  have hread : (lastMarked hdr).fread ehdrSize phdrSize (lastMarked hdr).ehdr.ePhnum = (lastMarked hdr).ehdr.ePhnum := by
    rw [Stream.fread, hbytes, hehdr, hsize]
    omega
  have hall : (lastMarked hdr).headers.length = (lastMarked hdr).ehdr.ePhnum := by
    rw [Stream.headers, if_pos ⟨hlong, hmag⟩, List.length_map, List.length_range, hread]
  have hother : ∀ ep ∈ (lastMarked hdr).headers, ep.pType ≠ ptLoad := by
    intro ep hmem htype
    rw [Stream.headers, if_pos ⟨hlong, hmag⟩, hread, hehdr] at hmem
    obtain ⟨i, hi, rfl⟩ := List.mem_map.mp hmem
    rw [List.mem_range] at hi
    have hat := (marked_phdr_type hlen (Nat.le_add_right _ _) hfits).mp htype
    rw [hsize] at hat hlast
    omega
  have hnone : loads (lastMarked hdr).headers = [] :=
    List.filter_eq_nil_iff.mpr fun ep hmem => decide_eq_true_iff.not.mpr (hother ep hmem)
  have hends : ∀ ep ∈ reached (lastMarked hdr).headers, ep.Ends := fun ep hmem htype =>
    absurd htype (hother ep (List.takeWhile_subset _ hmem))
  have hacc : ∀ ep ∈ (lastMarked hdr).headers, ep.Accepted := fun ep hmem htype => absurd htype (hother ep hmem)
  obtain ⟨img, r, hadd, -, hok, hr⟩ := @addPhdrs_returns _ (.init (lastMarked hdr).ehdr) hends
  obtain rfl := hr hacc
  obtain ⟨-, hgathered⟩ := hok rfl
  have hlo : img.lo = 2 ^ 32 - 1 := by
    obtain hinit | ⟨ep, hmem, -⟩ := hgathered.lo_mem
    · exact hinit
    · rw [hnone] at hmem
      cases hmem
  intro hf
  obtain ⟨img', r', hrun, -, hexact⟩ := hf true
  rw [readElf_eq _ hlong hmag, hadd, Outcome.andThen, if_neg (by omega)] at hrun
  obtain ⟨rfl, rfl⟩ := Prod.mk.inj (Option.some.inj hrun)
  have hentry : (⟨ptLoad, 0, 0, 0, 0⟩ : Phdr) ∈ loads (lastMarked hdr).table := by
    refine List.mem_filter.mpr ⟨?_, rfl⟩
    rw [Stream.table, hehdr]
    refine List.mem_map.mpr ⟨(Stream.mk hdr 0).ehdr.ePhnum - 1, List.mem_range.mpr (by omega), ?_⟩
    exact marked_phdr hlen (by omega) hfits
  have hle : img.lo ≤ 0 := (hexact rfl).lo_le _ hentry
  omega

end

theorem beyond_of_not_standard {e : Ehdr} (hmag : e.ident = elfMag) (hoff : ehdrSize ≤ e.ePhoff) (hent : phdrSize ≤ e.ePhentsize)
    (h : ¬ StandardTable e) : e.Beyond := by
  rw [StandardTable, not_or, not_and_or, not_or] at h
  obtain ⟨hnum, hplace⟩ := h
  refine ⟨hmag, hnum, ?_⟩
  have hle : phdrSize * (e.ePhnum - 1) ≤ e.ePhentsize * (e.ePhnum - 1) := Nat.mul_le_mul_right _ hent
  rw [Ehdr.last]
  obtain hfar | ⟨hgap, hone⟩ := hplace
  · omega
  · have hlt : phdrSize * (e.ePhnum - 1) < e.ePhentsize * (e.ePhnum - 1) :=
      Nat.mul_lt_mul_of_pos_right (by omega) (by omega)
    omega

def gapHeader : List UInt8 :=
  elfMag ++ [1, 1, 1] ++ List.replicate 9 0 ++ [2, 0, 3, 0, 1, 0, 0, 0] ++ List.replicate 4 0 ++ [84, 0, 0, 0] ++
    List.replicate 8 0 ++ [52, 0, 32, 0, 1, 0] ++ List.replicate 6 0

end Sneks.Exec
