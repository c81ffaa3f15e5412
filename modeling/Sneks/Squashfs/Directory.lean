import Sneks.Squashfs.Image
import Sneks.Squashfs.Resolve
import Mathlib.Logic.Function.Basic

/-!
# Reading directories

`read_dentry`, `get_dentry` and what is about them in `sys/fs.squashfs/squashfs.c`. A directory is
metadata: headers, each with entries after it, and an entry has its name behind it. An open file
has a cursor that goes forward over the entries and starts again when an earlier one is asked for.
Entries that were read are cached by directory and index, by directory and name, and by inode; the
three hashes have the same entries, less `.` and `..` in the last.

A failed assertion and `abort` are `none`. Allocations do not fail here.
-/

namespace Sneks.Squashfs
open Lib Stdlib

structure Volume where
  img : Image
  inodes : ℕ
  inodes_lt : inodes < 2 ^ 32
  dirTable : ℕ
  rootIno : ℕ
  /-- Where a dentry's name is put, by directory and index. -/
  place : ℕ → ℕ → ℕ

structure DirInode where
  startBlock : ℕ
  fileSize : ℕ
  offset : ℕ
  parent : ℕ

structure Dentry where
  ino : ℕ
  dirIno : ℕ
  index : ℕ
  type : DType
  name : CText

def notYetSeen : ℕ := 0xffffffff

def intMax : ℤ := 0x7fffffff

structure Caches where
  dentries : List Dentry
  inoToBlkoffset : ℕ → ℕ
  /-- `dir.max_index` of an inode. -/
  maxIndex : ℕ → ℤ

structure DirHeader where
  count : ℕ
  startBlock : ℕ
  inodeNumber : ℕ

/-- `struct squashfs_dir_entry` and the name behind it. -/
structure DirEntry where
  offset : ℕ
  inodeNumber : ℕ
  type : ℕ
  name : List UInt8

structure Cursor where
  hdr : DirHeader
  pos : Pos
  curIndex : ℤ
  curHdr : ℕ
  bytesRead : ℕ
  lastFetch : ℕ

def rewindDirectory (v : Volume) (d : DirInode) : Cursor where
  hdr := ⟨0, 0, 0⟩
  pos := ⟨v.dirTable + d.startBlock, d.offset⟩
  curIndex := -1
  curHdr := 1
  bytesRead := 0
  lastFetch := 0

def sfsType : ℕ → DType
  | 1 => .dir
  | 2 => .reg
  | 3 => .lnk
  | 4 => .blk
  | 5 => .chr
  | 6 => .fifo
  | 7 => .sock
  | _ => .unknown

def mkInode (startBlock offset : ℕ) : ℕ := startBlock * 2 ^ 16 + offset

/-- A header is read when the entries of the last one were gone through. `none` in the result is
a short read. -/
def readHeader (v : Volume) (c : Cursor) : Option (Option Cursor) :=
  if c.curHdr = (c.hdr.count + 1) % 2 ^ 32 then
    (readMetadata v.img c.pos 12).map fun (b, pos) =>
      if b.length < 12 then none
      else some { c with
        hdr := ⟨leNat (b.take 4), leNat ((b.drop 4).take 4), leNat (b.drop 8)⟩
        pos
        bytesRead := c.bytesRead + 12
        curHdr := 0 }
  else some (some c)

/-- `ino_to_blkoffset` takes up where an inode is, or has it. -/
def stash (v : Volume) (s : Caches) (ino loc : ℕ) : Option Caches :=
  if v.inodes < ino then none
  else
    let s := if s.inoToBlkoffset ino = notYetSeen then
      { s with inoToBlkoffset := Function.update s.inoToBlkoffset ino (loc % 2 ^ 32) } else s
    if s.inoToBlkoffset ino ≠ notYetSeen ∧ s.inoToBlkoffset ino = loc then some s else none

def readEntry (v : Volume) (c : Cursor) (s : Caches) : Option (Caches × Option (Cursor × DirEntry)) :=
  match readHeader v c with
  | none => none
  | some none => some (s, none)
  | some (some c) =>
    match readMetadata v.img c.pos 8 with
    | none => none
    | some (b, pos) =>
      if b.length < 8 then some (s, none)
      else
        let offset := leNat (b.take 2)
        let inodeNumber := leNat ((b.drop 2).take 2)
        let nameLen := leNat (b.drop 6) + 1
        match stash v s ((c.hdr.inodeNumber + inodeNumber) % 2 ^ 32) (mkInode c.hdr.startBlock offset) with
        | none => none
        | some s =>
          if Squashfs.nameLen < nameLen then some (s, none)
          else
            match readMetadata v.img pos nameLen with
            | none => none
            | some (name, pos) =>
              if name.length < nameLen then some (s, none)
              else some (s, some ({ c with
                pos
                bytesRead := c.bytesRead + 8 + nameLen
                curIndex := c.curIndex + 1
                curHdr := c.curHdr + 1 }, ⟨offset, inodeNumber, leNat ((b.drop 4).take 2), name⟩))

def moreToRead (d : DirInode) (bytesRead : ℕ) : Prop := bytesRead < (d.fileSize + 2 ^ 32 - 8) % 2 ^ 32

instance (d : DirInode) (bytesRead : ℕ) : Decidable (moreToRead d bytesRead) := inferInstanceAs (Decidable (_ < _))

/-- The loop of `read_dentry`, `n` being how many entries are before the one asked for and that one.
What is given is how many of these are left when it stops, and the last entry read. -/
def readEntries (v : Volume) (d : DirInode) : ℕ → Cursor → Option DirEntry → Caches →
    Option (Caches × Option (Cursor × ℕ × Option DirEntry))
  | 0, c, last, s => some (s, some (c, 0, last))
  | n + 1, c, last, s =>
    if moreToRead d c.bytesRead then
      match readEntry v c s with
      | none => none
      | some (s, none) => some (s, none)
      | some (s, some (c, e)) => readEntries v d n c (some e) s
    else some (s, some (c, n + 1, last))

/-- What `read_dentry` and `get_dentry` give: an entry, or null with what is put in `*err_p`. -/
abbrev DentryResult := Except ResolveError (Option Dentry)

def dot : List UInt8 := [46]

def dotDot : List UInt8 := [46, 46]

theorem dot_nonul : 0 ∉ dot := by decide

theorem dotDot_nonul : 0 ∉ dotDot := by decide

/-- `.` and `..`, which `read_dentry` makes itself. -/
def syntheticDentry (v : Volume) (dirIno : ℕ) (d : DirInode) : ℕ → Dentry
  | 0 => ⟨dirIno, dirIno, 0, .dir, ⟨v.place dirIno 0, dot, dot_nonul⟩⟩
  | _ =>
    let ino := if dirIno = v.rootIno ∧ d.parent = v.inodes + 1 then v.rootIno else d.parent
    ⟨ino, dirIno, 1, .dir, ⟨v.place dirIno 1, dotDot, dotDot_nonul⟩⟩

/-- `read_dentry`. After a short read the cursor will start again. -/
def readDentry (v : Volume) (dirIno : ℕ) (d : DirInode) (c : Cursor) (index : ℕ) (s : Caches) :
    Option (Caches × Cursor × DentryResult) :=
  if index < 2 then some (s, c, .ok (some (syntheticDentry v dirIno d index)))
  else
    let i := index - 2
    if s.maxIndex dirIno < i then some (s, c, .ok none)
    else
      let c := if i ≤ c.curIndex then rewindDirectory v d else c
      match readEntries v d (i - c.curIndex).toNat c none s with
      | none => none
      | some (s, none) => some (s, { c with curIndex := intMax }, .error ResolveError.EIO)
      | some (s, some (c, _ + 1, _)) =>
        some ({ s with maxIndex := Function.update s.maxIndex dirIno c.curIndex }, c, .ok none)
      | some (_, some (_, 0, none)) => none
      | some (s, some (c, 0, some e)) =>
        if h : 0 ∉ e.name then
          some (s, c, .ok (some ⟨(c.hdr.inodeNumber + e.inodeNumber) % 2 ^ 32, dirIno, index, sfsType e.type,
            ⟨v.place dirIno index, e.name, h⟩⟩))
        else none

def findDentry (s : Caches) (dirIno : ℕ) (name : List UInt8) : Option Dentry :=
  s.dentries.find? fun e => e.dirIno = dirIno ∧ e.name.text = name

def addDentry (s : Caches) (e : Dentry) : Option Caches :=
  if (findDentry s e.dirIno e.name.text).isSome then none else some { s with dentries := e :: s.dentries }

def getDentry (v : Volume) (dirIno : ℕ) (d : DirInode) (c : Cursor) (index : ℕ) (s : Caches) :
    Option (Caches × Cursor × DentryResult) :=
  match s.dentries.find? fun e => e.dirIno = dirIno ∧ e.index = index with
  | some e => some (s, c, .ok (some e))
  | none =>
    match readDentry v dirIno d c index s with
    | none => none
    | some (s, c, .ok (some e)) => (addDentry s e).map fun s => (s, c, .ok (some e))
    | some r => some r

-- Directories as they are stored

structure DirRun where
  startBlock : ℕ
  inodeNumber : ℕ
  entries : List DirEntry

def DirEntry.bytes (e : DirEntry) : List UInt8 :=
  leBytes 2 e.offset ++ leBytes 2 e.inodeNumber ++ leBytes 2 e.type ++ leBytes 2 (e.name.length - 1) ++ e.name

def DirRun.bytes (r : DirRun) : List UInt8 :=
  leBytes 4 (r.entries.length - 1) ++ leBytes 4 r.startBlock ++ leBytes 4 r.inodeNumber ++ r.entries.flatMap DirEntry.bytes

def dirBytes (runs : List DirRun) : List UInt8 := runs.flatMap DirRun.bytes

def DirRun.ino (r : DirRun) (e : DirEntry) : ℤ :=
  r.inodeNumber + (if e.inodeNumber < 2 ^ 15 then (e.inodeNumber : ℤ) else e.inodeNumber - 2 ^ 16)

def flatEntries (runs : List DirRun) : List (DirRun × DirEntry) := runs.flatMap fun r => r.entries.map (r, ·)

/-- An entry is well formed, and it has the place of its inode. `inodePlace` is where inodes are. -/
structure EntryFormed (v : Volume) (inodePlace : ℕ → ℕ) (r : DirRun) (e : DirEntry) : Prop where
  offset : e.offset < 8192
  inodeNumber : e.inodeNumber < 2 ^ 16
  type : e.type < 2 ^ 16
  name_pos : 0 < e.name.length
  name_le : e.name.length ≤ nameLen
  nonul : 0 ∉ e.name
  notDot : e.name ≠ dot ∧ e.name ≠ dotDot
  ino_pos : 0 < r.ino e
  ino_le : r.ino e ≤ v.inodes
  place : inodePlace (r.ino e).toNat = mkInode r.startBlock e.offset

structure RunFormed (r : DirRun) : Prop where
  nonempty : r.entries ≠ []
  count : r.entries.length ≤ 256
  startBlock : r.startBlock < 2 ^ 32
  inodeNumber : r.inodeNumber < 2 ^ 32

structure WellFormed (v : Volume) (inodePlace : ℕ → ℕ) (d : DirInode) (runs : List DirRun) : Prop where
  follows : Follows v.img ⟨v.dirTable + d.startBlock, d.offset⟩ (dirBytes runs)
  fileSize : d.fileSize = (dirBytes runs).length + 3
  fileSize_lt : d.fileSize < 2 ^ 16
  run : ∀ r ∈ runs, RunFormed r
  entry : ∀ p ∈ flatEntries runs, EntryFormed v inodePlace p.1 p.2
  names : ((flatEntries runs).map (·.2.name)).Nodup

/-- A directory that is read as it is meant: it is not empty, no inode is before its header's, and
the inodes are in the first 64 KiB of the inode table. -/
structure Readable (runs : List DirRun) : Prop where
  nonempty : runs ≠ []
  ascending : ∀ p ∈ flatEntries runs, p.2.inodeNumber < 2 ^ 15
  near : ∀ r ∈ runs, r.startBlock < 2 ^ 16

def dentryAt (v : Volume) (dirIno : ℕ) (d : DirInode) (runs : List DirRun) (index : ℕ) : Option Dentry :=
  if index < 2 then some (syntheticDentry v dirIno d index)
  else
    match (flatEntries runs)[index - 2]? with
    | none => none
    | some (r, e) =>
      if h : 0 ∉ e.name then
        some ⟨(r.ino e).toNat, dirIno, index, sfsType e.type, ⟨v.place dirIno index, e.name, h⟩⟩
      else none

def Stashed (inodePlace : ℕ → ℕ) (s : Caches) : Prop :=
  ∀ ino, s.inoToBlkoffset ino = notYetSeen ∨ s.inoToBlkoffset ino = inodePlace ino

structure Took (inodePlace : ℕ → ℕ) (s s' : Caches) : Prop where
  stashed : Stashed inodePlace s'
  dentries : s'.dentries = s.dentries
  maxIndex : s'.maxIndex = s.maxIndex

variable {v : Volume} {inodePlace : ℕ → ℕ} {d : DirInode} {runs later : List DirRun} {c c' : Cursor} {s s' : Caches}
  {past : List (DirRun × DirEntry)} {r : DirRun} {e : DirEntry} {left : List DirEntry} {dirIno index n : ℕ}

/-- The cursor is behind the entries `past`, with `left` to come of the run and then the runs `later`. -/
structure Along (v : Volume) (runs : List DirRun) (c : Cursor) (past : List (DirRun × DirEntry)) (r : DirRun)
    (left : List DirEntry) (later : List DirRun) : Prop where
  split : flatEntries runs = past ++ (left.map (r, ·) ++ flatEntries later)
  mem : ∀ r ∈ later, r ∈ runs
  rest : Follows v.img c.pos (left.flatMap DirEntry.bytes ++ dirBytes later)
  index : c.curIndex = past.length - 1
  bytes : c.bytesRead + (left.flatMap DirEntry.bytes ++ dirBytes later).length = (dirBytes runs).length
  count : c.curHdr + left.length = c.hdr.count + 1
  count_lt : c.hdr.count < 256
  header : left ≠ [] → c.hdr.startBlock = r.startBlock ∧ c.hdr.inodeNumber = r.inodeNumber

theorem along_rewind (h : WellFormed v inodePlace d runs) : Along v runs (rewindDirectory v d) [] ⟨0, 0, []⟩ [] runs where
  split := rfl
  mem _ hr := hr
  rest := h.follows
  index := rfl
  bytes := Nat.zero_add _
  count := rfl
  count_lt := Nat.succ_pos 255
  header := nofun

theorem leNat_two {a : ℕ} (h : a < 2 ^ 16) : leNat (leBytes 2 a) = a := (leNat_leBytes 2 a).trans (Nat.mod_eq_of_lt h)

theorem leNat_four {a : ℕ} (h : a < 2 ^ 32) : leNat (leBytes 4 a) = a := (leNat_leBytes 4 a).trans (Nat.mod_eq_of_lt h)

theorem header_fields (hr : RunFormed r) {b : List UInt8}
    (hb : b = leBytes 4 (r.entries.length - 1) ++ leBytes 4 r.startBlock ++ leBytes 4 r.inodeNumber) :
    b.length = 12 ∧ leNat (b.take 4) = r.entries.length - 1 ∧ leNat ((b.drop 4).take 4) = r.startBlock ∧
      leNat (b.drop 8) = r.inodeNumber := by
  have hcount : r.entries.length - 1 < 2 ^ 32 := by
    have hle := hr.count
    omega
  have hlen : (leBytes 4 (r.entries.length - 1) ++ leBytes 4 r.startBlock).length = 8 := by
    rw [List.length_append, length_leBytes, length_leBytes]
  subst hb
  refine ⟨?_, ?_, ?_, ?_⟩
  · rw [List.length_append, hlen, length_leBytes]
  · rw [List.append_assoc, List.take_left' (length_leBytes _ _), leNat_four hcount]
  · rw [List.append_assoc, List.drop_left' (length_leBytes _ _), List.take_left' (length_leBytes _ _),
      leNat_four hr.startBlock]
  · rw [List.drop_left' hlen, leNat_four hr.inodeNumber]

theorem entry_fields (he : EntryFormed v inodePlace r e) {b : List UInt8}
    (hb : b = leBytes 2 e.offset ++ leBytes 2 e.inodeNumber ++ leBytes 2 e.type ++ leBytes 2 (e.name.length - 1)) :
    b.length = 8 ∧ leNat (b.take 2) = e.offset ∧ leNat ((b.drop 2).take 2) = e.inodeNumber ∧
      leNat ((b.drop 4).take 2) = e.type ∧ leNat (b.drop 6) + 1 = e.name.length := by
  have hpos := he.name_pos
  have hle : e.name.length ≤ 256 := he.name_le
  have hsize : e.name.length - 1 < 2 ^ 16 := by omega
  have hoff : e.offset < 2 ^ 16 := Nat.lt_trans he.offset (by decide)
  have hfour : (leBytes 2 e.offset ++ leBytes 2 e.inodeNumber).length = 4 := by
    rw [List.length_append, length_leBytes, length_leBytes]
  have hsix : (leBytes 2 e.offset ++ leBytes 2 e.inodeNumber ++ leBytes 2 e.type).length = 6 := by
    rw [List.length_append, hfour, length_leBytes]
  subst hb
  refine ⟨?_, ?_, ?_, ?_, ?_⟩
  · rw [List.length_append, hsix, length_leBytes]
  · rw [List.append_assoc, List.append_assoc, List.take_left' (length_leBytes _ _), leNat_two hoff]
  · rw [List.append_assoc, List.append_assoc, List.drop_left' (length_leBytes _ _), List.take_left' (length_leBytes _ _),
      leNat_two he.inodeNumber]
  · rw [List.append_assoc, List.drop_left' hfour, List.take_left' (length_leBytes _ _), leNat_two he.type]
  · rw [List.drop_left' hsix, leNat_two hsize, Nat.sub_add_cancel hpos]

theorem DirRun.length_bytes (r : DirRun) : r.bytes.length = 12 + (r.entries.flatMap DirEntry.bytes).length := by
  rw [DirRun.bytes, List.length_append, List.length_append, List.length_append, length_leBytes, length_leBytes,
    length_leBytes]

theorem readHeader_spec (h : Along v runs c past r left later) (hruns : ∀ r ∈ runs, RunFormed r)
    (hmore : left ≠ [] ∨ later ≠ []) :
    ∃ c' r' e left' later', readHeader v c = some (some c') ∧ Along v runs c' past r' (e :: left') later' := by
  have hcount := h.count
  have hlt := h.count_lt
  have hmod : (c.hdr.count + 1) % 2 ^ 32 = c.hdr.count + 1 := Nat.mod_eq_of_lt (by omega)
  rw [readHeader, hmod]
  cases left with
  | cons e left' =>
    rw [List.length_cons] at hcount
    exact ⟨c, r, e, left', later, if_neg (by omega), h⟩
  | nil =>
    obtain ⟨r', later', rfl⟩ := List.exists_cons_of_ne_nil (hmore.resolve_left fun hno => hno rfl)
    have hr' := hruns r' (h.mem r' List.mem_cons_self)
    obtain ⟨e, left', hents⟩ := List.exists_cons_of_ne_nil hr'.nonempty
    have hrest := h.rest
    rw [List.flatMap_nil, List.nil_append, dirBytes, List.flatMap_cons, DirRun.bytes, List.append_assoc] at hrest
    obtain ⟨pos, hread, hpos⟩ := readMetadata_follows hrest
    obtain ⟨hlen, hfirst, hstart, hino⟩ := header_fields hr' rfl
    rw [hlen] at hread
    rw [List.length_nil, Nat.add_zero] at hcount
    rw [if_pos hcount, hread, Option.map_some]
    dsimp only
    rw [if_neg (Nat.not_lt.mpr (Nat.le_of_eq hlen.symm)), hfirst, hstart, hino]
    have hbytes := h.bytes
    rw [List.flatMap_nil, List.nil_append, dirBytes, List.flatMap_cons, List.length_append, r'.length_bytes, hents] at hbytes
    have hnum := hr'.count
    refine ⟨_, r', e, left', later', rfl, ?_, fun r hr => h.mem r (List.mem_cons_of_mem _ hr), hents ▸ hpos, h.index, ?_,
      ?_, ?_, fun _ => ⟨rfl, rfl⟩⟩
    · rw [h.split, List.map_nil, List.nil_append, flatEntries, List.flatMap_cons, hents]
      rfl
    · rw [List.length_append, dirBytes]
      dsimp only
      omega
    · rw [Nat.zero_add, ← hents]
      dsimp only
      rw [Nat.sub_add_cancel (List.length_pos_iff.mpr hr'.nonempty)]
    · dsimp only
      omega

theorem ino_eq (he : EntryFormed v inodePlace r e) (hasc : e.inodeNumber < 2 ^ 15) :
    (r.inodeNumber + e.inodeNumber) % 2 ^ 32 = (r.ino e).toNat := by
  have hle := he.ino_le
  have hlt := v.inodes_lt
  rw [DirRun.ino, if_pos hasc] at hle ⊢
  omega

theorem stash_spec {ino loc : ℕ} (hs : Stashed inodePlace s) (hino : ino ≤ v.inodes) (hloc : inodePlace ino = loc)
    (hnear : loc < notYetSeen) :
    ∃ s', stash v s ino loc = some s' ∧ Took inodePlace s s' := by
  have hmod : loc % 2 ^ 32 = loc := Nat.mod_eq_of_lt (Nat.lt_trans hnear (by decide))
  rw [stash, if_neg (Nat.not_lt.mpr hino)]
  by_cases hnew : s.inoToBlkoffset ino = notYetSeen
  · rw [if_pos hnew, hmod]
    have hnow : Function.update s.inoToBlkoffset ino loc ino = loc := by rw [Function.update_self]
    refine ⟨_, if_pos ⟨fun heq => Nat.ne_of_lt hnear (hnow.symm.trans heq), hnow⟩, fun i => ?_, rfl, rfl⟩
    dsimp only
    rw [Function.update_apply]
    split
    · next heq => exact .inr (heq ▸ hloc.symm)
    · exact hs i
  · rw [if_neg hnew]
    have hhas := (hs ino).resolve_left hnew
    rw [hloc] at hhas
    exact ⟨s, if_pos ⟨hnew, hhas⟩, hs, rfl, rfl⟩

theorem readEntry_spec (h : Along v runs c past r left later) (hd : WellFormed v inodePlace d runs)
    (hgood : Readable runs) (hs : Stashed inodePlace s) (hmore : left ≠ [] ∨ later ≠ []) :
    ∃ c' s' r' e left' later', readEntry v c s = some (s', some (c', e)) ∧
      Along v runs c' (past ++ [(r', e)]) r' left' later' ∧ c'.hdr.inodeNumber = r'.inodeNumber ∧
      Took inodePlace s s' := by
  obtain ⟨c₁, r', e, left', later', hheader, h₁⟩ := readHeader_spec h hd.run hmore
  have hmem : (r', e) ∈ flatEntries runs := by
    rw [h₁.split, List.map_cons]
    exact List.mem_append_right _ List.mem_cons_self
  have he : EntryFormed v inodePlace r' e := hd.entry _ hmem
  obtain ⟨hstart, hino⟩ := h₁.header (List.cons_ne_nil _ _)
  have hrun : r' ∈ runs := by
    obtain ⟨q, hq, hin⟩ := List.mem_flatMap.mp hmem
    obtain ⟨_, -, heq⟩ := List.mem_map.mp hin
    exact (Prod.mk.inj heq).1 ▸ hq
  have hrest := h₁.rest
  rw [List.flatMap_cons, DirEntry.bytes, List.append_assoc, List.append_assoc] at hrest
  obtain ⟨pos₁, hread₁, hpos₁⟩ := readMetadata_follows hrest
  obtain ⟨hlen, hoff, hnum, htype, hname⟩ := entry_fields he rfl
  rw [hlen] at hread₁
  obtain ⟨pos₂, hread₂, hpos₂⟩ := readMetadata_follows hpos₁
  have hnear : mkInode r'.startBlock e.offset < notYetSeen := by
    have hlow := hgood.near r' hrun
    have hsmall := he.offset
    rw [mkInode, notYetSeen]
    omega
  have hle : (r'.ino e).toNat ≤ v.inodes := Int.toNat_le.mpr he.ino_le
  obtain ⟨s', hstash, htook⟩ := stash_spec hs hle he.place hnear
  have hbytes := h₁.bytes
  have hcount := h₁.count
  refine ⟨{ c₁ with
    pos := pos₂, bytesRead := c₁.bytesRead + 8 + e.name.length, curIndex := c₁.curIndex + 1, curHdr := c₁.curHdr + 1 },
    s', r', e, left', later', ?_, ⟨?_, h₁.mem, hpos₂, ?_, ?_, ?_, h₁.count_lt, fun _ => ⟨hstart, hino⟩⟩, hino, htook⟩
  · rw [readEntry, hheader]
    dsimp only
    rw [hread₁]
    dsimp only
    rw [if_neg (Nat.not_lt.mpr (Nat.le_of_eq hlen.symm)), hoff, hnum, hname, htype, hstart, hino,
      ino_eq he (hgood.ascending _ hmem), hstash]
    dsimp only
    rw [if_neg (Nat.not_lt.mpr he.name_le), hread₂]
    dsimp only
    rw [if_neg (Nat.lt_irrefl _)]
  · rw [h₁.split, List.map_cons, List.append_assoc]
    rfl
  · rw [h₁.index, List.length_append, List.length_singleton]
    dsimp only
    omega
  · rw [List.flatMap_cons, DirEntry.bytes, List.append_assoc, List.append_assoc, List.length_append, hlen,
      List.length_append] at hbytes
    dsimp only
    rw [Nat.add_assoc, Nat.add_assoc]
    exact hbytes
  · rw [List.length_cons] at hcount
    dsimp only
    omega

theorem DirEntry.length_bytes (e : DirEntry) : e.bytes.length = 8 + e.name.length := by
  rw [DirEntry.bytes, List.length_append, List.length_append, List.length_append, List.length_append, length_leBytes,
    length_leBytes, length_leBytes, length_leBytes]

theorem Along.length (h : Along v runs c past r left later) :
    (flatEntries runs).length = past.length + (left.length + (flatEntries later).length) := by
  rw [h.split, List.length_append, List.length_append, List.length_map]

theorem flatEntries_eq_nil (hd : WellFormed v inodePlace d runs) (hmem : ∀ r ∈ later, r ∈ runs)
    (h : flatEntries later = []) : later = [] := by
  refine List.eq_nil_iff_forall_not_mem.mpr fun r hr => (hd.run r (hmem r hr)).nonempty ?_
  exact List.map_eq_nil_iff.mp (List.flatMap_eq_nil_iff.mp h r hr)

theorem Along.more_iff (h : Along v runs c past r left later) (hd : WellFormed v inodePlace d runs) :
    left ≠ [] ∨ later ≠ [] ↔ past.length < (flatEntries runs).length := by
  have hlen := h.length
  constructor
  · rintro (hleft | hlater)
    · have hpos := List.length_pos_iff.mpr hleft
      omega
    · have hpos := List.length_pos_iff.mpr fun hno => hlater (flatEntries_eq_nil hd h.mem hno)
      omega
  · intro hlt
    by_contra hno
    obtain ⟨rfl, rfl⟩ : left = [] ∧ later = [] := by simpa only [not_or, not_not] using hno
    exact Nat.lt_irrefl _ (hlen ▸ hlt)

theorem length_entries (h : left ≠ []) : 8 ≤ (left.flatMap DirEntry.bytes).length := by
  obtain ⟨e, left, rfl⟩ := List.exists_cons_of_ne_nil h
  rw [List.flatMap_cons, List.length_append, e.length_bytes]
  omega

theorem length_dirBytes (hd : WellFormed v inodePlace d runs) (hmem : ∀ r ∈ later, r ∈ runs) (h : later ≠ []) :
    20 ≤ (dirBytes later).length := by
  obtain ⟨r, later, rfl⟩ := List.exists_cons_of_ne_nil h
  have hentries := length_entries (hd.run r (hmem r List.mem_cons_self)).nonempty
  rw [dirBytes, List.flatMap_cons, List.length_append, r.length_bytes]
  omega

theorem moreToRead_iff (h : Along v runs c past r left later) (hd : WellFormed v inodePlace d runs)
    (hgood : Readable runs) : moreToRead d c.bytesRead ↔ left ≠ [] ∨ later ≠ [] := by
  have htotal := length_dirBytes hd (fun _ hr => hr) hgood.nonempty
  have hsize := hd.fileSize
  have hlt := hd.fileSize_lt
  have hbytes := h.bytes
  rw [List.length_append] at hbytes
  rw [moreToRead]
  constructor
  · intro hmore
    by_contra hno
    obtain ⟨rfl, rfl⟩ : left = [] ∧ later = [] := by simpa only [not_or, not_not] using hno
    rw [List.flatMap_nil, dirBytes, List.flatMap_nil, List.length_nil] at hbytes
    omega
  · rintro (hleft | hlater)
    · have hle := length_entries hleft
      omega
    · have hle := length_dirBytes hd h.mem hlater
      omega

theorem Took.trans {s'' : Caches} (h : Took inodePlace s s') (h' : Took inodePlace s' s'') : Took inodePlace s s'' :=
  ⟨h'.stashed, h'.dentries.trans h.dentries, h'.maxIndex.trans h.maxIndex⟩

theorem readEntries_reads {last : Option DirEntry} (h : Along v runs c past r left later)
    (hd : WellFormed v inodePlace d runs) (hgood : Readable runs) (hs : Stashed inodePlace s)
    (hn : past.length + n < (flatEntries runs).length) :
    ∃ c' s' past' r' e left' later', readEntries v d (n + 1) c last s = some (s', some (c', 0, some e)) ∧
      Along v runs c' (past' ++ [(r', e)]) r' left' later' ∧ past'.length = past.length + n ∧
      c'.hdr.inodeNumber = r'.inodeNumber ∧ Took inodePlace s s' := by
  induction n generalizing c past r left later s last with
  | zero =>
    have hmore := (h.more_iff hd).mpr hn
    obtain ⟨c', s', r', e, left', later', hread, h', hino, htook⟩ := readEntry_spec h hd hgood hs hmore
    refine ⟨c', s', past, r', e, left', later', ?_, h', rfl, hino, htook⟩
    rw [readEntries, if_pos ((moreToRead_iff h hd hgood).mpr hmore), hread]
    rfl
  | succ n ih =>
    have hmore := (h.more_iff hd).mpr (by omega)
    obtain ⟨c₁, s₁, r₁, e₁, left₁, later₁, hread, h₁, -, htook₁⟩ := readEntry_spec h hd hgood hs hmore
    obtain ⟨c', s', past', r', e, left', later', hreads, h', hlen, hino, htook⟩ :=
      @ih _ _ _ _ _ _ (some e₁) h₁ htook₁.stashed (by rw [List.length_append, List.length_singleton]; omega)
    refine ⟨c', s', past', r', e, left', later', ?_, h', ?_, hino, htook₁.trans htook⟩
    · rw [readEntries, if_pos ((moreToRead_iff h hd hgood).mpr hmore), hread]
      exact hreads
    · rw [hlen, List.length_append, List.length_singleton]
      omega

theorem readEntries_ends {last : Option DirEntry} (h : Along v runs c past r left later)
    (hd : WellFormed v inodePlace d runs) (hgood : Readable runs) (hs : Stashed inodePlace s)
    (hn : (flatEntries runs).length < past.length + n) :
    ∃ c' s' k last' past' r' left' later', readEntries v d n c last s = some (s', some (c', k + 1, last')) ∧
      Along v runs c' past' r' left' later' ∧ past'.length = (flatEntries runs).length ∧ Took inodePlace s s' := by
  induction n generalizing c past r left later s last with
  | zero =>
    have hlen := h.length
    omega
  | succ n ih =>
    by_cases hmore : left ≠ [] ∨ later ≠ []
    · obtain ⟨c₁, s₁, r₁, e₁, left₁, later₁, hread, h₁, -, htook₁⟩ := readEntry_spec h hd hgood hs hmore
      obtain ⟨c', s', k, last', past', r', left', later', hreads, h', hlen, htook⟩ :=
        @ih _ _ _ _ _ _ (some e₁) h₁ htook₁.stashed (by rw [List.length_append, List.length_singleton]; omega)
      refine ⟨c', s', k, last', past', r', left', later', ?_, h', hlen, htook₁.trans htook⟩
      rw [readEntries, if_pos ((moreToRead_iff h hd hgood).mpr hmore), hread]
      exact hreads
    · have hlen := h.length
      have hall := (h.more_iff hd).not.mp hmore
      refine ⟨c, s, n, last, past, r, left, later, ?_, h, by omega, hs, rfl, rfl⟩
      rw [readEntries, if_neg ((moreToRead_iff h hd hgood).not.mpr hmore)]

-- One entry

def Placed (v : Volume) (runs : List DirRun) (c : Cursor) : Prop :=
  ∃ past r left later, Along v runs c past r left later

def Reaches (runs : List DirRun) (maxIndex : ℤ) : Prop := ((flatEntries runs).length : ℤ) ≤ maxIndex + 1

theorem readDentry_spec (hd : WellFormed v inodePlace d runs) (hgood : Readable runs) (hs : Stashed inodePlace s)
    (hc : Placed v runs c) (hmax : Reaches runs (s.maxIndex dirIno)) :
    ∃ s' c', readDentry v dirIno d c index s = some (s', c', .ok (dentryAt v dirIno d runs index)) ∧
      Placed v runs c' ∧ Stashed inodePlace s' ∧ s'.dentries = s.dentries ∧
      (∀ i, s'.maxIndex i = s.maxIndex i ∨ i = dirIno ∧ Reaches runs (s'.maxIndex i)) := by
  rw [readDentry, dentryAt]
  by_cases hsyn : index < 2
  · rw [if_pos hsyn, if_pos hsyn]
    exact ⟨s, c, rfl, hc, hs, rfl, fun _ => .inl rfl⟩
  rw [if_neg hsyn, if_neg hsyn]
  dsimp only
  by_cases hend : s.maxIndex dirIno < (index - 2 : ℕ)
  · have hnone : (flatEntries runs)[index - 2]? = none := by
      rw [Reaches] at hmax
      exact List.getElem?_eq_none (by omega)
    rw [if_pos hend, hnone]
    exact ⟨s, c, rfl, hc, hs, rfl, fun _ => .inl rfl⟩
  rw [if_neg hend]
  -- the cursor that the loop starts from is not behind the entry
  obtain ⟨past, r, left, later, h, hbefore⟩ : ∃ past r left later,
      Along v runs (if ((index - 2 : ℕ) : ℤ) ≤ c.curIndex then rewindDirectory v d else c) past r left later ∧
        past.length ≤ index - 2 := by
    obtain ⟨past, r, left, later, h⟩ := hc
    split
    · exact ⟨[], _, [], runs, along_rewind hd, Nat.zero_le _⟩
    · next hlt =>
      refine ⟨past, r, left, later, h, ?_⟩
      rw [h.index] at hlt
      omega
  generalize (if ((index - 2 : ℕ) : ℤ) ≤ c.curIndex then rewindDirectory v d else c) = c₀ at h
  obtain ⟨n, hn⟩ := Nat.exists_eq_add_of_le hbefore
  have hturns : (((index - 2 : ℕ) : ℤ) - c₀.curIndex).toNat = n + 1 := by
    rw [h.index]
    omega
  rw [hturns]
  by_cases hlt : index - 2 < (flatEntries runs).length
  · obtain ⟨c', s', past', r', e, left', later', hreads, h', hlen, hino, htook⟩ :=
      @readEntries_reads _ _ _ _ _ _ _ _ _ _ n none h hd hgood hs (by omega)
    have hget : (flatEntries runs)[index - 2]? = some (r', e) := by
      rw [h'.split, List.append_assoc, List.getElem?_append_right (by omega)]
      have hzero : index - 2 - past'.length = 0 := by omega
      rw [hzero]
      rfl
    have hmem := List.mem_of_getElem? hget
    have he : EntryFormed v inodePlace r' e := hd.entry _ hmem
    rw [hreads, hget]
    dsimp only
    rw [dif_pos he.nonul, dif_pos he.nonul, hino, ino_eq he (hgood.ascending _ hmem)]
    exact ⟨s', c', rfl, ⟨_, _, _, _, h'⟩, htook.stashed, htook.dentries, fun i => .inl (by rw [htook.maxIndex])⟩
  · obtain ⟨c', s', k, last', past', r', left', later', hreads, h', hlen, htook⟩ :=
      @readEntries_ends _ _ _ _ _ _ _ _ _ _ (n + 1) none h hd hgood hs (by omega)
    rw [hreads, List.getElem?_eq_none (Nat.not_lt.mp hlt)]
    dsimp only
    refine ⟨_, c', rfl, ⟨_, _, _, _, h'⟩, htook.stashed, htook.dentries, fun i => ?_⟩
    dsimp only
    rw [Function.update_apply]
    split
    · next heq =>
      refine .inr ⟨heq, ?_⟩
      rw [Reaches, h'.index]
      omega
    · exact .inl (by rw [htook.maxIndex])

theorem dentryAt_dirIno {e : Dentry} (h : dentryAt v dirIno d runs index = some e) : e.dirIno = dirIno ∧ e.index = index := by
  rw [dentryAt] at h
  split at h
  · next hsyn =>
    cases h
    obtain rfl | rfl : index = 0 ∨ index = 1 := by omega
    · exact ⟨rfl, rfl⟩
    · exact ⟨rfl, rfl⟩
  · split at h
    · cases h
    · split at h
      · cases h
        exact ⟨rfl, rfl⟩
      · cases h

/-- The names of a directory, `.` and `..` being the first. -/
def nameAt (runs : List DirRun) (index : ℕ) : Option (List UInt8) :=
  if index = 0 then some dot
  else if index = 1 then some dotDot
  else (flatEntries runs)[index - 2]?.map (·.2.name)

theorem dentryAt_name {e : Dentry} (h : dentryAt v dirIno d runs index = some e) :
    nameAt runs index = some e.name.text := by
  rw [dentryAt] at h
  rw [nameAt]
  split at h
  · next hsyn =>
    cases h
    obtain rfl | rfl : index = 0 ∨ index = 1 := by omega
    · rfl
    · rfl
  · next hsyn =>
    rw [if_neg (by omega), if_neg (by omega)]
    split at h
    · cases h
    · next hget =>
      rw [hget]
      split at h
      · cases h
        rfl
      · cases h

theorem dentryAt_eq_none (hd : WellFormed v inodePlace d runs) (dirIno index : ℕ) :
    dentryAt v dirIno d runs index = none ↔ (flatEntries runs).length + 2 ≤ index := by
  rw [dentryAt]
  split
  · next hsyn => exact ⟨nofun, fun hle => by omega⟩
  · next hsyn =>
    split
    · next hget =>
      have hle := List.getElem?_eq_none_iff.mp hget
      exact ⟨fun _ => by omega, fun _ => rfl⟩
    · next r e hget =>
      have hlt := (List.getElem?_eq_some_iff.mp hget).1
      rw [dif_pos (hd.entry _ (List.mem_of_getElem? hget)).nonul]
      exact ⟨nofun, fun hle => by omega⟩

theorem dentryAt_of_nameAt (hd : WellFormed v inodePlace d runs) (dirIno : ℕ) {text : List UInt8}
    (h : nameAt runs index = some text) : ∃ e, dentryAt v dirIno d runs index = some e ∧ e.name.text = text := by
  have hin : ¬ (flatEntries runs).length + 2 ≤ index := by
    intro hle
    rw [nameAt, if_neg (by omega), if_neg (by omega), List.getElem?_eq_none (by omega)] at h
    cases h
  obtain ⟨e, he⟩ := Option.ne_none_iff_exists'.mp ((dentryAt_eq_none hd dirIno index).not.mpr hin)
  exact ⟨e, he, Option.some.inj ((dentryAt_name he).symm.trans h)⟩

theorem nameAt_inj (hd : WellFormed v inodePlace d runs) {i j : ℕ} {name : List UInt8}
    (hi : nameAt runs i = some name) (hj : nameAt runs j = some name) : i = j := by
  have hentry : ∀ k, 2 ≤ k → nameAt runs k = some name →
      ((flatEntries runs).map (·.2.name))[k - 2]? = some name ∧ name ≠ dot ∧ name ≠ dotDot := by
    intro k hk hname
    rw [nameAt, if_neg (by omega), if_neg (by omega)] at hname
    obtain ⟨p, hp, rfl⟩ := Option.map_eq_some_iff.mp hname
    exact ⟨by rw [List.getElem?_map, hp]; rfl, (hd.entry p (List.mem_of_getElem? hp)).notDot⟩
  have hfirst : ∀ k, k < 2 → nameAt runs k = some name → k = 0 ∧ name = dot ∨ k = 1 ∧ name = dotDot := by
    intro k hk hname
    obtain rfl | rfl : k = 0 ∨ k = 1 := by omega
    · exact .inl ⟨rfl, (Option.some.inj hname).symm⟩
    · exact .inr ⟨rfl, (Option.some.inj hname).symm⟩
  have hdiff : dot ≠ dotDot := by decide
  by_cases hsi : i < 2 <;> by_cases hsj : j < 2
  · obtain ⟨rfl, hni⟩ | ⟨rfl, hni⟩ := hfirst i hsi hi <;> obtain ⟨rfl, hnj⟩ | ⟨rfl, hnj⟩ := hfirst j hsj hj
    · rfl
    · exact absurd (hni.symm.trans hnj) hdiff
    · exact absurd (hnj.symm.trans hni) hdiff
    · rfl
  · obtain ⟨-, hnot⟩ := hentry j (Nat.not_lt.mp hsj) hj
    obtain ⟨-, rfl⟩ | ⟨-, rfl⟩ := hfirst i hsi hi
    · exact absurd rfl hnot.1
    · exact absurd rfl hnot.2
  · obtain ⟨-, hnot⟩ := hentry i (Nat.not_lt.mp hsi) hi
    obtain ⟨-, rfl⟩ | ⟨-, rfl⟩ := hfirst j hsj hj
    · exact absurd rfl hnot.1
    · exact absurd rfl hnot.2
  · obtain ⟨hgi, -⟩ := hentry i (Nat.not_lt.mp hsi) hi
    obtain ⟨hgj, -⟩ := hentry j (Nat.not_lt.mp hsj) hj
    have hlt := (List.getElem?_eq_some_iff.mp hgi).1
    have heq := (List.getElem?_inj hlt hd.names).mp (hgi.trans hgj.symm)
    omega

-- The caches

structure Directories (v : Volume) (inodePlace : ℕ → ℕ) where
  dir : ℕ → Option (DirInode × List DirRun)
  wellFormed : ∀ ino d runs, dir ino = some (d, runs) → WellFormed v inodePlace d runs

structure Valid (D : Directories v inodePlace) (s : Caches) : Prop where
  stashed : Stashed inodePlace s
  dentries : ∀ e ∈ s.dentries, ∃ d runs, D.dir e.dirIno = some (d, runs) ∧ dentryAt v e.dirIno d runs e.index = some e
  maxIndex : ∀ ino d runs, D.dir ino = some (d, runs) → Reaches runs (s.maxIndex ino)

variable {D : Directories v inodePlace} {name : List UInt8}

theorem Valid.mem {e : Dentry} (h : Valid D s) (hdir : D.dir dirIno = some (d, runs)) (he : e ∈ s.dentries)
    (hino : e.dirIno = dirIno) : dentryAt v dirIno d runs e.index = some e := by
  subst hino
  obtain ⟨d', runs', hdir', hat⟩ := h.dentries e he
  obtain ⟨rfl, rfl⟩ := Prod.mk.inj (Option.some.inj (hdir.symm.trans hdir'))
  exact hat

theorem findDentry_spec {e : Dentry} (h : Valid D s) (hdir : D.dir dirIno = some (d, runs))
    (hfind : findDentry s dirIno name = some e) :
    e ∈ s.dentries ∧ e.name.text = name ∧ dentryAt v dirIno d runs e.index = some e := by
  have hmem := List.mem_of_find?_eq_some hfind
  have hprop := List.find?_some hfind
  rw [decide_eq_true_eq] at hprop
  exact ⟨hmem, hprop.2, h.mem hdir hmem hprop.1⟩

/-- **`get_dentry` gives the entry of an index**, or nothing past the last one; it is cached. -/
theorem getDentry_spec (h : Valid D s) (hdir : D.dir dirIno = some (d, runs)) (hgood : Readable runs)
    (hc : Placed v runs c) :
    ∃ s' c', getDentry v dirIno d c index s = some (s', c', .ok (dentryAt v dirIno d runs index)) ∧
      Placed v runs c' ∧ Valid D s' ∧
      ∀ e, e ∈ s'.dentries ↔ e ∈ s.dentries ∨ dentryAt v dirIno d runs index = some e := by
  have hd := D.wellFormed _ _ _ hdir
  rw [getDentry]
  cases hfind : s.dentries.find? fun e => e.dirIno = dirIno ∧ e.index = index with
  | some e =>
    have hmem := List.mem_of_find?_eq_some hfind
    have hprop := List.find?_some hfind
    rw [decide_eq_true_eq] at hprop
    have hat := h.mem hdir hmem hprop.1
    rw [hprop.2] at hat
    rw [hat]
    refine ⟨s, c, rfl, hc, h, fun e' => ⟨.inl, ?_⟩⟩
    rintro (hin | heq)
    · exact hin
    · exact Option.some.inj heq ▸ hmem
  | none =>
    dsimp only
    obtain ⟨s', c', hread, hc', hstashed, hdents, hmax⟩ :=
      @readDentry_spec _ _ _ _ _ _ _ index hd hgood h.stashed hc (h.maxIndex _ _ _ hdir)
    have hreaches : ∀ ino d runs, D.dir ino = some (d, runs) → Reaches runs (s'.maxIndex ino) := by
      intro ino d' runs' hdir'
      obtain heq | ⟨rfl, hnew⟩ := hmax ino
      · exact heq ▸ h.maxIndex _ _ _ hdir'
      · obtain ⟨rfl, rfl⟩ := Prod.mk.inj (Option.some.inj (hdir.symm.trans hdir'))
        exact hnew
    rw [hread]
    cases hat : dentryAt v dirIno d runs index with
    | none =>
      refine ⟨s', c', rfl, hc', ⟨hstashed, hdents ▸ h.dentries, hreaches⟩, fun e => ?_⟩
      rw [hdents]
      exact ⟨.inl, fun hin => hin.resolve_right nofun⟩
    | some e =>
      obtain ⟨hino, hindex⟩ := dentryAt_dirIno hat
      -- an entry of this name would be the one of this index, which was not found
      have hnew : findDentry s' e.dirIno e.name.text = none := by
        rw [findDentry, hdents, List.find?_eq_none]
        intro e' hmem' hprop
        rw [decide_eq_true_eq, hino] at hprop
        have hat' := h.mem hdir hmem' hprop.1
        have hname' := dentryAt_name hat'
        rw [hprop.2] at hname'
        have hsame := nameAt_inj hd hname' (dentryAt_name hat)
        have habsent := List.find?_eq_none.mp hfind e' hmem'
        rw [decide_eq_true_eq] at habsent
        exact habsent ⟨hprop.1, hsame⟩
      dsimp only
      rw [addDentry, hnew]
      refine ⟨_, c', rfl, hc', ⟨hstashed, fun e' he' => ?_, hreaches⟩, fun e' => ?_⟩
      · obtain rfl | hin := List.mem_cons.mp he'
        · exact ⟨d, runs, hino ▸ hdir, by rw [hino, hindex]; exact hat⟩
        · exact h.dentries e' (hdents ▸ hin)
      · dsimp only
        rw [List.mem_cons, hdents, Option.some.injEq]
        constructor
        · rintro (rfl | hin)
          · exact .inr rfl
          · exact .inl hin
        · rintro (hin | rfl)
          · exact .inr hin
          · exact .inl rfl

end Sneks.Squashfs
