import Sneks.Squashfs.Directory
import Sneks.Squashfs.Position
import Sneks.Rollback.Undo

/-!
# Listing directories

`squashfs_getdents`, `squashfs_seekdir` and what these leave to be confirmed and rolled back, in
`sys/fs.squashfs/squashfs.c`. The server is a `Rollback.Server`; a call carries the handles that it
finds once `get_fd` has dealt with lifecycle events. What fails an assertion is `none`.

A reply goes with the call that it is to, so that the log says what clients were told.
-/

namespace Sneks.Squashfs
open Lib Rollback

/-- `struct io_file_impl` of an open directory. -/
structure DirFile where
  pos : ℕ
  cursor : Cursor

abbrev OpenDirs := ℕ → Option (ℕ × DirInode)

structure Listing where
  handles : Handles
  files : ℕ → DirFile
  caches : Caches

inductive DirOp
  | getdents (fd : ℕ) (offset : Int64)
  | seekdir (fd : ℕ) (position : Int64)

structure DirCall where
  synced : Handles
  op : DirOp

inductive DirError
  | EBADF | EINVAL | dentry (e : ResolveError)
  deriving DecidableEq

/-- `struct sneks_directory_dentry` and the bytes that are put behind it. -/
structure Record where
  ino : ℕ
  off : ℕ
  reclen : ℕ
  type : DType
  namlen : ℕ
  bytes : List UInt8
  deriving DecidableEq

inductive DirReply
  | entries (last : ℕ) (es : List Record) (endpos : ℕ)
  | position (pos : ℕ)
  | error (e : DirError)
  deriving DecidableEq

structure Told where
  sender : Tid
  call : DirCall
  reply : DirReply

/-- The argument of `rollback_getdents` or `confirm_seekdir`, and the file. -/
structure NewPos where
  file : ℕ
  pos : ℕ

def dentsbufMax : ℕ := 1024

def recordSize : ℕ := 16

/-- What is put in the buffer. `namlen` is an octet. -/
def record (dix : ℕ) (e : Dentry) : Record where
  ino := e.ino
  off := dix + 1
  reclen := recordSize + e.name.text.length + 1
  type := e.type
  namlen := e.name.text.length % 256
  bytes := (e.name.text ++ [0]).take (e.name.text.length % 256 + 1)

/-- The loop of `squashfs_getdents`, `n` being how many entries are left to the limit. -/
def getdentsLoop (v : Volume) (ino : ℕ) (d : DirInode) : ℕ → ℕ → ℕ → Cursor → Caches →
    Option (Caches × Cursor × List Record × Option ResolveError)
  | 0, _, _, c, s => some (s, c, [], none)
  | n + 1, bufPos, dix, c, s =>
    if bufPos + recordSize < dentsbufMax then
      match getDentry v ino d c dix s with
      | none => none
      | some (s, c, .error e) => some (s, c, [], some e)
      | some (s, c, .ok none) => some (s, c, [], none)
      | some (s, c, .ok (some e)) =>
        let out := record dix e
        if dentsbufMax < bufPos + out.reclen then some (s, c, [], none)
        else
          (getdentsLoop v ino d n (bufPos + out.reclen) (dix + 1) c s).map fun (s, c, es, err) =>
            (s, c, out :: es, err)
    else some (s, c, [], none)

def DirCall.file (a : DirCall) (dirs : OpenDirs) (sender : Tid) (fd : ℕ) : Option (ℕ × ℕ × DirInode) :=
  (a.synced (pidof sender) fd).bind fun f => (dirs f).map fun (ino, d) => (f, ino, d)

def dixOf (pos : ℕ) (offset : Int64) : ℤ :=
  if 0 ≤ offset.toInt32.toInt then offset.toInt32.toInt else Int.bmod pos (2 ^ 32)

variable (v : Volume) (dirs : OpenDirs)

/-- `squashfs_getdents` and `squashfs_seekdir` past their `sync_confirm`. -/
def listHandler (s : Listing) (sender : Tid) (a : DirCall) : Option (Listing × Effects NewPos NewPos × Option Told) :=
  let s := { s with handles := a.synced }
  let tell (reply : DirReply) : Option Told := some ⟨sender, a, reply⟩
  match a.op with
  | .getdents fd offset =>
    match a.file dirs sender fd with
    | none => some (s, ⟨none, none⟩, tell (.error .EBADF))
    | some (f, ino, d) =>
      let file := s.files f
      let dix := dixOf file.pos offset
      let limit := min 65535 (max 2 (file.cursor.lastFetch * 2))
      if dix < 0 then none
      else
        match getdentsLoop v ino d limit 0 dix.toNat file.cursor s.caches with
        | none => none
        | some (caches, cursor, _, some e) =>
          some ({ s with caches, files := Function.update s.files f { file with cursor } }, ⟨none, none⟩,
            tell (.error (.dentry e)))
        | some (caches, cursor, es, none) =>
          some ({ s with caches, files := Function.update s.files f ⟨dix.toNat + es.length, cursor⟩ },
            ⟨some ⟨f, file.pos⟩, none⟩, tell (.entries file.pos es (dix.toNat + es.length)))
  | .seekdir fd position =>
    if position.toInt < 0 then some (s, ⟨none, none⟩, tell (.error .EINVAL))
    else
      match a.file dirs sender fd with
      | none => some (s, ⟨none, none⟩, tell (.error .EBADF))
      | some (f, _, _) =>
        some (s, ⟨none, some ⟨f, (position.toInt % 2 ^ 32).toNat⟩⟩, tell (.position (s.files f).pos))

def rollbackGetdents (p : NewPos) (s : Listing) : Option Listing :=
  (dirs p.file).map fun (_, d) =>
    { s with files := Function.update s.files p.file ⟨p.pos, rewindDirectory v d⟩ }

def confirmSeekdir (p : NewPos) (s : Listing) : Listing :=
  { s with files := Function.update s.files p.file ⟨p.pos, { (s.files p.file).cursor with lastFetch := 0 }⟩ }

def listServer : Server Listing DirCall Unit NewPos NewPos Told where
  handler := listHandler v dirs
  stimulus s _ := some s
  rollback := rollbackGetdents v dirs
  confirm p s := some (confirmSeekdir p s)

def entryRecord (index : ℕ) (e : Dentry) : Record where
  ino := e.ino
  off := index + 1
  reclen := recordSize + e.name.text.length + 1
  type := e.type
  namlen := e.name.text.length
  bytes := e.name.text ++ [0]

/-- What is in a directory: `.`, `..`, and the entries as they are stored. -/
def listing (dirIno : ℕ) (d : DirInode) (runs : List DirRun) : List Record :=
  (List.range ((flatEntries runs).length + 2)).filterMap fun i => (dentryAt v dirIno d runs i).map (entryRecord i)

variable {v} {inodePlace : ℕ → ℕ} (D : Directories v inodePlace)

/-- How a call should be answered, and where the positions are if the answer reaches the client. As
many entries are given as may be, but at least one until the end of the directory. -/
def Answers (pos : ℕ → ℕ) (t : Told) (pos' : ℕ → ℕ) : Prop :=
  match t.call.op with
  | .getdents fd offset =>
    match t.call.file dirs t.sender fd with
    | none => t.reply = .error .EBADF ∧ pos' = pos
    | some (f, ino, d) =>
      ∃ runs, D.dir ino = some (d, runs) ∧ ∃ start, start = (if 0 ≤ offset.toInt then offset.toInt.toNat else pos f) ∧
        ∃ es rest, (listing v ino d runs).drop start = es ++ rest ∧ (es = [] → rest = []) ∧
          t.reply = .entries (pos f) es (start + es.length) ∧ pos' = Function.update pos f (start + es.length)
  | .seekdir fd position =>
    if position.toInt < 0 then t.reply = .error .EINVAL ∧ pos' = pos
    else
      match t.call.file dirs t.sender fd with
      | none => t.reply = .error .EBADF ∧ pos' = pos
      | some (f, _, _) => t.reply = .position (pos f) ∧ pos' = Function.update pos f position.toInt.toNat

/-- The log is of replies as they should be, the positions being `pos₀` at first and `pos` now. A
reply that does not reach the client leaves them. -/
inductive Listed (pos₀ : ℕ → ℕ) : List (Entry NewPos NewPos Told) → (ℕ → ℕ) → Prop
  | start : Listed pos₀ [] pos₀
  | replied {log : List (Entry NewPos NewPos Told)} {pos pos' : ℕ → ℕ} {k : ℕ} {t : Told} (ok : Bool)
      (h : Listed pos₀ log pos) (ht : Answers dirs D pos t pos') :
      Listed pos₀ (log ++ [.replied k ok t]) (if ok then pos' else pos)
  | other {log : List (Entry NewPos NewPos Told)} {pos : ℕ → ℕ} {e : Entry NewPos NewPos Told}
      (h : Listed pos₀ log pos) (he : ∀ k ok t, e ≠ .replied k ok t) : Listed pos₀ (log ++ [e]) pos

def Told.file (t : Told) : Option ℕ :=
  match t.call.op with
  | .getdents fd _ | .seekdir fd _ => (t.call.file dirs t.sender fd).map Prod.fst

def Told.given (f : ℕ) (t : Told) : List Record :=
  if t.file dirs = some f then
    match t.reply with
    | .entries _ es _ => es
    | .position _ | .error _ => []
  else []

def givenBy (f : ℕ) : Entry NewPos NewPos Told → List Record
  | .replied _ true t => t.given dirs f
  | _ => []

def Told.Forward (f : ℕ) (t : Told) : Prop :=
  t.file dirs = some f → ∃ fd offset, t.call.op = .getdents fd offset ∧ offset.toInt < 0

def Told.Ends (f : ℕ) (t : Told) : Prop := t.file dirs = some f ∧ ∃ last endpos, t.reply = .entries last [] endpos

structure Listable (runs : List DirRun) : Prop where
  readable : Readable runs
  names : ∀ p ∈ flatEntries runs, p.2.name.length < 256

def DirCall.Well (a : DirCall) (sender : Tid) : Prop :=
  match a.op with
  | .getdents fd offset => -2 ^ 31 ≤ offset.toInt ∧ offset.toInt < 2 ^ 31 ∧
      ∀ f ino d runs, a.file dirs sender fd = some (f, ino, d) → D.dir ino = some (d, runs) → Listable runs
  | .seekdir _ position => position.toInt < 2 ^ 31

def asked (x : Session Listing NewPos NewPos Told) : Move DirCall Unit → Prop
  | .call sender _ a => a.Well dirs D sender
  | .reply ok => ownRollback (α := DirCall) (β := Unit) x (.reply ok)
  | .stimulus _ | .receiveFailed => True

def inTurn (x : Session Listing NewPos NewPos Told) : Move DirCall Unit → Prop
  | .reply _ => x.current.isSome
  | .call .. | .stimulus _ | .receiveFailed => x.current = none

structure Enumerates (dirs : OpenDirs) (D : Directories v inodePlace) (pos₀ : ℕ → ℕ)
    (x : Session Listing NewPos NewPos Told) : Prop where
  /-- Replies are as they should be. -/
  listed : ∃ pos, Listed dirs D pos₀ x.log pos
  /-- No assertion fails. -/
  goesOn : ∀ m, asked dirs D x m → inTurn x m → Rollback.exec (listServer v dirs) x m ≠ none
  /-- A file that is listed forward has its entries given once each in order, and all when it ends. -/
  whole : ∀ f ino d runs, dirs f = some (ino, d) → D.dir ino = some (d, runs) →
    (∀ k t, .replied k true t ∈ x.log → t.Forward dirs f) →
      ∃ rest, (listing v ino d runs).drop (pos₀ f) = x.log.flatMap (givenBy dirs f) ++ rest ∧
        ((∃ k t, .replied k true t ∈ x.log ∧ t.Ends dirs f) → rest = [])

variable {D} {dirs} {d : DirInode} {runs : List DirRun} {ino dix : ℕ} {c : Cursor} {s : Caches} {e : Dentry}

theorem getElem?_filterMap_range {α : Type*} {h : ℕ → Option α} {m : ℕ} (hin : ∀ i < m, h i ≠ none)
    (hout : ∀ i, m ≤ i → h i = none) (i : ℕ) : ((List.range m).filterMap h)[i]? = h i := by
  have hmap : ∀ l : List ℕ, (∀ i ∈ l, h i ≠ none) → (l.filterMap h).map some = l.map h := by
    intro l hl
    induction l with
    | nil => rfl
    | cons i l ih =>
      obtain ⟨hi, hl⟩ := List.forall_mem_cons.mp hl
      obtain ⟨a, ha⟩ := Option.ne_none_iff_exists'.mp hi
      rw [List.filterMap_cons_some ha, List.map_cons, List.map_cons, ih hl, ha]
  have hall := congrArg (·[i]?) (hmap (List.range m) fun i hi => hin i (List.mem_range.mp hi))
  rw [List.getElem?_map, List.getElem?_map] at hall
  by_cases hlt : i < m
  · rw [List.getElem?_range hlt, Option.map_some] at hall
    obtain ⟨a, ha, heq⟩ := Option.map_eq_some_iff.mp hall
    exact ha.trans heq
  · have hle := Nat.not_lt.mp hlt
    have hrange : (List.range m)[i]? = none := List.getElem?_eq_none (List.length_range.symm ▸ hle)
    rw [hrange, Option.map_none] at hall
    rw [Option.map_eq_none_iff.mp hall, hout i hle]

theorem getElem?_listing (hd : WellFormed v inodePlace d runs) (ino index : ℕ) :
    (listing v ino d runs)[index]? = (dentryAt v ino d runs index).map (entryRecord index) := by
  rw [listing]
  refine @getElem?_filterMap_range _ (fun i => (dentryAt v ino d runs i).map (entryRecord i)) _ ?_ ?_ index
  · intro i hi hnone
    have hle := (dentryAt_eq_none hd ino i).mp (Option.map_eq_none_iff.mp hnone)
    omega
  · intro i hle
    rw [(dentryAt_eq_none hd ino i).mpr hle, Option.map_none]

theorem listing_drop_some (hd : WellFormed v inodePlace d runs) (h : dentryAt v ino d runs dix = some e) :
    (listing v ino d runs).drop dix = entryRecord dix e :: (listing v ino d runs).drop (dix + 1) := by
  have hget := getElem?_listing hd ino dix
  rw [h, Option.map_some] at hget
  obtain ⟨hlt, heq⟩ := List.getElem?_eq_some_iff.mp hget
  rw [← heq]
  exact List.drop_eq_getElem_cons hlt

theorem listing_drop_none (hd : WellFormed v inodePlace d runs) (h : dentryAt v ino d runs dix = none) :
    (listing v ino d runs).drop dix = [] := by
  have hget := getElem?_listing hd ino dix
  rw [h, Option.map_none] at hget
  exact List.drop_eq_nil_of_le (List.getElem?_eq_none_iff.mp hget)

theorem listing_names (hd : WellFormed v inodePlace d runs) :
    (listing v ino d runs).map Record.bytes =
      (dot :: dotDot :: (flatEntries runs).map (·.2.name)).map (· ++ [0]) := by
  refine List.ext_getElem? fun i => ?_
  rw [List.getElem?_map, getElem?_listing hd, Option.map_map]
  by_cases hend : (flatEntries runs).length + 2 ≤ i
  · rw [(dentryAt_eq_none hd ino i).mpr hend, Option.map_none, List.getElem?_eq_none]
    rwa [List.length_map, List.length_cons, List.length_cons, List.length_map]
  · obtain ⟨e, he⟩ := Option.ne_none_iff_exists'.mp ((dentryAt_eq_none hd ino i).not.mpr hend)
    have hname := dentryAt_name he
    rw [he, Option.map_some, List.getElem?_map]
    match i with
    | 0 => exact congrArg (some ∘ (· ++ [0])) (Option.some.inj hname).symm
    | 1 => exact congrArg (some ∘ (· ++ [0])) (Option.some.inj hname).symm
    | i + 2 =>
      rw [nameAt, if_neg (by omega), if_neg (by omega), Nat.add_sub_cancel] at hname
      rw [List.getElem?_cons_succ, List.getElem?_cons_succ, List.getElem?_map, hname]
      rfl

theorem record_eq (hgood : Listable runs) (h : dentryAt v ino d runs dix = some e) :
    record dix e = entryRecord dix e ∧ (record dix e).reclen ≤ 272 := by
  have hlt : e.name.text.length < 256 := by
    have hname := dentryAt_name h
    rw [nameAt] at hname
    split at hname
    · rw [← Option.some.inj hname]
      decide
    · split at hname
      · rw [← Option.some.inj hname]
        decide
      · obtain ⟨p, hp, heq⟩ := Option.map_eq_some_iff.mp hname
        rw [← heq]
        exact hgood.names p (List.mem_of_getElem? hp)
  constructor
  · rw [record, entryRecord, Nat.mod_eq_of_lt hlt]
    congr 1
    exact List.take_of_length_le (by rw [List.length_append, List.length_singleton])
  · rw [record, recordSize]
    dsimp only
    omega

theorem getdentsLoop_spec {n bufPos : ℕ} (hs : Valid D s) (hdir : D.dir ino = some (d, runs)) (hgood : Listable runs)
    (hc : Placed v runs c) :
    ∃ s' c' es rest, getdentsLoop v ino d n bufPos dix c s = some (s', c', es, none) ∧ Valid D s' ∧
      Placed v runs c' ∧ (listing v ino d runs).drop dix = es ++ rest ∧
      (0 < n → bufPos = 0 → es = [] → rest = []) := by
  have hd := D.wellFormed _ _ _ hdir
  induction n generalizing bufPos dix c s with
  | zero => exact ⟨s, c, [], _, rfl, hs, hc, rfl, fun hn => absurd hn (Nat.lt_irrefl 0)⟩
  | succ n ih =>
    rw [getdentsLoop]
    by_cases hroom : bufPos + recordSize < dentsbufMax
    · obtain ⟨s₁, c₁, hget, hc₁, hs₁, -⟩ := @getDentry_spec _ _ _ _ _ _ _ dix _ hs hdir hgood.readable hc
      rw [if_pos hroom, hget]
      cases hat : dentryAt v ino d runs dix with
      | none => exact ⟨s₁, c₁, [], [], rfl, hs₁, hc₁, listing_drop_none hd hat, fun _ _ _ => rfl⟩
      | some e =>
        obtain ⟨hrecord, hsmall⟩ := record_eq hgood hat
        dsimp only
        by_cases hfull : dentsbufMax < bufPos + (record dix e).reclen
        · rw [if_pos hfull]
          refine ⟨s₁, c₁, [], _, rfl, hs₁, hc₁, rfl, fun _ hzero => ?_⟩
          rw [dentsbufMax] at hfull
          omega
        · obtain ⟨s', c', es, rest, hloop, hs', hc', hdrop, -⟩ := ih hs₁ hc₁
          rw [if_neg hfull, hloop, Option.map_some]
          refine ⟨s', c', record dix e :: es, rest, rfl, hs', hc', ?_, fun _ _ hnil => absurd hnil (List.cons_ne_nil _ _)⟩
          rw [listing_drop_some hd hat, hdrop, hrecord, List.cons_append]
    · rw [if_neg hroom]
      refine ⟨s, c, [], _, rfl, hs, hc, rfl, fun _ hzero => ?_⟩
      rw [recordSize, dentsbufMax] at hroom
      omega

variable {srv srv' : Listing} {pos pos' : ℕ → ℕ} {a : DirCall} {sender : Tid}

def Listing.positions (srv : Listing) (f : ℕ) : ℕ := (srv.files f).pos

structure Ready (dirs : OpenDirs) (D : Directories v inodePlace) (srv : Listing) : Prop where
  valid : Valid D srv.caches
  placed : ∀ f ino d runs, dirs f = some (ino, d) → D.dir ino = some (d, runs) → Placed v runs (srv.files f).cursor

/-- What a call leaves to be done, where the positions were `pos`, are these, and are to be those. -/
inductive Leaves (dirs : OpenDirs) (pos : ℕ → ℕ) : Effects NewPos NewPos → (ℕ → ℕ) → (ℕ → ℕ) → Prop
  | nothing : Leaves dirs pos ⟨none, none⟩ pos pos
  | confirm (f p : ℕ) : Leaves dirs pos ⟨none, some ⟨f, p⟩⟩ pos (Function.update pos f p)
  | rollback (f p : ℕ) (hf : dirs f ≠ none) :
      Leaves dirs pos ⟨some ⟨f, pos f⟩, none⟩ (Function.update pos f p) (Function.update pos f p)

theorem Ready.update (h : Ready dirs D srv) {f : ℕ} {file : DirFile} {caches : Caches} (hvalid : Valid D caches)
    (hc : ∀ ino d runs, dirs f = some (ino, d) → D.dir ino = some (d, runs) → Placed v runs file.cursor) :
    Ready dirs D { srv with caches, files := Function.update srv.files f file } where
  valid := hvalid
  placed g ino d runs hg hdir := by
    dsimp only
    rw [Function.update_apply]
    split
    · next heq => exact hc ino d runs (heq ▸ hg) hdir
    · exact h.placed g ino d runs hg hdir

theorem Listing.positions_update {handles : Handles} {f : ℕ} {file : DirFile} {caches : Caches} :
    Listing.positions ⟨handles, Function.update srv.files f file, caches⟩ = Function.update srv.positions f file.pos := by
  funext g
  rw [Listing.positions, Function.update_apply]
  dsimp only
  rw [Function.update_apply]
  split
  · rfl
  · rfl

theorem dixOf_eq {p : ℕ} {offset : Int64} (hp : p < 2 ^ 31) (hlow : -2 ^ 31 ≤ offset.toInt) (hhigh : offset.toInt < 2 ^ 31) :
    dixOf p offset = (if 0 ≤ offset.toInt then offset.toInt.toNat else p : ℕ) := by
  have hcast : offset.toInt32.toInt = offset.toInt := by
    rw [Int64.toInt_toInt32]
    exact Int.bmod_eq_of_le (by omega) (by omega)
  have hpos : Int.bmod p (2 ^ 32) = p := Int.bmod_eq_of_le (by omega) (by omega)
  rw [dixOf, hcast, hpos]
  split
  · next hnn => exact (Int.toNat_of_nonneg hnn).symm
  · rfl

theorem length_flatEntries (hd : WellFormed v inodePlace d runs) : (flatEntries runs).length < 2 ^ 16 := by
  have hlen := (along_rewind hd).length
  have hle : ∀ rs : List DirRun, (flatEntries rs).length ≤ (dirBytes rs).length := by
    intro rs
    induction rs with
    | nil => exact Nat.le_refl _
    | cons r rs ih =>
      have hrun : ∀ es : List DirEntry, es.length ≤ (es.flatMap DirEntry.bytes).length := by
        intro es
        induction es with
        | nil => exact Nat.le_refl _
        | cons e es ih =>
          rw [List.flatMap_cons, List.length_append, e.length_bytes, List.length_cons]
          omega
      have hr := hrun r.entries
      rw [flatEntries, List.flatMap_cons, List.length_append, List.length_map, dirBytes, List.flatMap_cons,
        List.length_append, r.length_bytes]
      rw [flatEntries, dirBytes] at ih
      omega
  have hsize := hd.fileSize
  have hlt := hd.fileSize_lt
  have hruns := hle runs
  omega

theorem length_listing : (listing v ino d runs).length ≤ (flatEntries runs).length + 2 := by
  rw [listing]
  exact Nat.le_trans (List.length_filterMap_le _ _) (Nat.le_of_eq List.length_range)

theorem DirCall.file_some {fd f : ℕ} (h : a.file dirs sender fd = some (f, ino, d)) : dirs f = some (ino, d) := by
  obtain ⟨g, -, hg⟩ := Option.bind_eq_some_iff.mp h
  obtain ⟨p, hp, heq⟩ := Option.map_eq_some_iff.mp hg
  cases heq
  exact hp

/-- **A call is answered as it should be.** -/
theorem listHandler_spec (hknown : ∀ f ino d, dirs f = some (ino, d) → ∃ runs, D.dir ino = some (d, runs))
    (h : Ready dirs D srv) (hlow : ∀ f, srv.positions f < 2 ^ 31) (hwell : a.Well dirs D sender) :
    ∃ srv' e t pos', listHandler v dirs srv sender a = some (srv', e, some t) ∧ Answers dirs D srv.positions t pos' ∧
      Leaves dirs srv.positions e srv'.positions pos' ∧ Ready dirs D srv' ∧ ∀ f, pos' f < 2 ^ 31 := by
  have hready : Ready dirs D { srv with handles := a.synced } := ⟨h.valid, h.placed⟩
  rw [DirCall.Well] at hwell
  rw [listHandler]
  cases hop : a.op with
  | getdents fd offset =>
    rw [hop] at hwell
    obtain ⟨hoff, hoff', hgood⟩ := hwell
    dsimp only
    cases hfile : a.file dirs sender fd with
    | none =>
      refine ⟨_, _, _, srv.positions, rfl, ?_, .nothing, hready, hlow⟩
      simp only [Answers, hop, hfile, and_self]
    | some p =>
      obtain ⟨f, ino, d⟩ := p
      have hf := DirCall.file_some hfile
      obtain ⟨runs, hdir⟩ := hknown f ino d hf
      have hlist := hgood f ino d runs hfile hdir
      have hat := dixOf_eq (hlow f) hoff hoff'
      generalize hstart : (if 0 ≤ offset.toInt then offset.toInt.toNat else srv.positions f) = start at hat
      have hpos : dixOf (srv.files f).pos offset = start := hat
      obtain ⟨caches, cursor, es, rest, hloop, hvalid, hplaced, hdrop, hsome⟩ :=
        @getdentsLoop_spec _ _ _ _ _ _ start _ _ (min 65535 (max 2 ((srv.files f).cursor.lastFetch * 2))) 0 h.valid hdir
          hlist (h.placed f ino d runs hf hdir)
      dsimp only
      rw [hpos, if_neg (Int.not_lt.mpr (Int.natCast_nonneg start)), Int.toNat_natCast, hloop]
      refine ⟨_, _, _, Function.update srv.positions f (start + es.length), rfl, ?_, ?_, ?_, ?_⟩
      · simp only [Answers, hop, hfile]
        exact ⟨runs, hdir, start, hstart.symm, es, rest, hdrop, hsome (by omega) rfl, rfl, rfl⟩
      · rw [Listing.positions_update]
        exact .rollback f (start + es.length) (hf ▸ Option.some_ne_none _)
      · refine hready.update hvalid fun ino' d' runs' hf' hdir' => ?_
        obtain ⟨rfl, rfl⟩ := Prod.mk.inj (Option.some.inj (hf.symm.trans hf'))
        obtain ⟨-, rfl⟩ := Prod.mk.inj (Option.some.inj (hdir.symm.trans hdir'))
        exact hplaced
      · intro g
        rw [Function.update_apply]
        split
        · have hlen := congrArg List.length hdrop
          have hle := @length_listing v d runs ino
          have hsmall := length_flatEntries (D.wellFormed _ _ _ hdir)
          have hstart' : start < 2 ^ 31 := by
            rw [← hstart]
            split
            · omega
            · exact hlow f
          rw [List.length_drop, List.length_append] at hlen
          omega
        · exact hlow g
  | seekdir fd position =>
    rw [hop] at hwell
    dsimp only
    by_cases hneg : position.toInt < 0
    · rw [if_pos hneg]
      refine ⟨_, _, _, srv.positions, rfl, ?_, .nothing, hready, hlow⟩
      simp only [Answers, hop, if_pos hneg, and_self]
    rw [if_neg hneg]
    cases hfile : a.file dirs sender fd with
    | none =>
      refine ⟨_, _, _, srv.positions, rfl, ?_, .nothing, hready, hlow⟩
      simp only [Answers, hop, if_neg hneg, hfile, and_self]
    | some p =>
      obtain ⟨f, ino, d⟩ := p
      have hmod : position.toInt % 2 ^ 32 = position.toInt := Int.emod_eq_of_lt (Int.not_lt.mp hneg) (by omega)
      dsimp only
      rw [hmod]
      refine ⟨_, _, _, _, rfl, ?_, .confirm f position.toInt.toNat, hready, fun g => ?_⟩
      · simp only [Answers, hop, if_neg hneg, hfile]
        exact ⟨rfl, trivial⟩
      · rw [Function.update_apply]
        split
        · omega
        · exact hlow g

variable {x y : Session Listing NewPos NewPos Told} {pos₀ : ℕ → ℕ} {cur : Current Told}

def settledPos (x : Session Listing NewPos NewPos Told) : ℕ → ℕ :=
  match x.ctx.c with
  | none => x.srv.positions
  | some p => Function.update x.srv.positions p.file p.pos

structure Stands (dirs : OpenDirs) (D : Directories v inodePlace) (x : Session Listing NewPos NewPos Told)
    (pos : ℕ → ℕ) : Prop where
  ready : Ready dirs D x.srv
  settled : settledPos x = pos
  low : ∀ f, pos f < 2 ^ 31

inductive Undoable (dirs : OpenDirs) (x : Session Listing NewPos NewPos Told) (cur : Current Told) (pos : ℕ → ℕ) : Prop
  | own (p : NewPos) (hr : x.ctx.r = some p) (hc : x.ctx.c = none) (hm : x.ctx.Matches cur.sender cur.tag)
      (hf : dirs p.file ≠ none) (hpos : Function.update x.srv.positions p.file p.pos = pos)
  | kept (hr : x.ctx.r ≠ none → x.setterR ≠ cur.serial) (hpos : x.srv.positions = pos)

structure Lists (dirs : OpenDirs) (D : Directories v inodePlace) (pos₀ : ℕ → ℕ) (x : Session Listing NewPos NewPos Told) :
    Prop where
  listed : ∃ pos, Listed dirs D pos₀ x.log pos ∧ (∀ f, pos f < 2 ^ 31) ∧ (x.current = none → Stands dirs D x pos) ∧
    ∀ cur, x.current = some cur → ∃ pos', Answers dirs D pos cur.out pos' ∧ Stands dirs D x pos' ∧ Undoable dirs x cur pos

theorem Listed.append {log es : List (Entry NewPos NewPos Told)} (h : Listed dirs D pos₀ log pos)
    (hes : ∀ e ∈ es, ∀ k ok t, e ≠ .replied k ok t) : Listed dirs D pos₀ (log ++ es) pos := by
  induction es generalizing log with
  | nil => rwa [List.append_nil]
  | cons e es ih =>
    obtain ⟨he, hes⟩ := List.forall_mem_cons.mp hes
    have hmore := ih (h.other he) hes
    rwa [List.append_assoc, List.singleton_append] at hmore

theorem Lists.syncConfirm (h : Lists dirs D pos₀ x) (hcur : x.current = none) :
    ∃ y, x.syncConfirm (listServer v dirs) = some y ∧ Lists dirs D pos₀ y ∧ y.current = none ∧ y.ctx.c = none := by
  obtain ⟨pos, hlisted, hlow, hnone, -⟩ := h.listed
  have hstands := hnone hcur
  have hsettled := hstands.settled
  rw [Session.syncConfirm]
  cases hc : x.ctx.c with
  | none => exact ⟨x, rfl, h, hcur, hc⟩
  | some p =>
    rw [settledPos, hc] at hsettled
    have hpos : (confirmSeekdir p x.srv).positions = pos := Eq.trans Listing.positions_update hsettled
    have hready : Ready dirs D (confirmSeekdir p x.srv) :=
      hstands.ready.update hstands.ready.valid fun ino d runs hf hdir => by
        obtain ⟨past, r, left, later, halong⟩ := hstands.ready.placed p.file ino d runs hf hdir
        exact ⟨past, r, left, later, halong.split, halong.mem, halong.rest, halong.index, halong.bytes, halong.count,
          halong.count_lt, halong.header⟩
    exact ⟨_, rfl, ⟨pos, hlisted.other (by simp), hlow, fun _ => ⟨hready, hpos, hlow⟩,
      fun cur hcur' => by cases hcur.symm.trans hcur'⟩, hcur, rfl⟩

theorem Lists.enter (h : Lists dirs D pos₀ x) (tag : ℕ)
    (hknown : ∀ f ino d, dirs f = some (ino, d) → ∃ runs, D.dir ino = some (d, runs))
    (hp : Protocol x) (hcur : x.current = none) (hc : x.ctx.c = none)
    (hwell : a.Well dirs D sender) :
    ∃ srv e t, listHandler v dirs x.srv sender a = some (srv, e, some t) ∧
      Lists dirs D pos₀ (x.enter sender tag srv e (some t)) := by
  obtain ⟨pos, hlisted, hlow, hnone, -⟩ := h.listed
  obtain ⟨hready, hsettled, -⟩ := hnone hcur
  have hpos : x.srv.positions = pos := by rw [← hsettled, settledPos, hc]
  subst hpos
  obtain ⟨srv, e, t, pos', hhandler, hanswers, hleaves, hready', hlow'⟩ := listHandler_spec hknown hready hlow hwell
  have hold : x.ctx.r ≠ none → x.setterR ≠ x.serial := fun hr =>
    Nat.ne_of_lt (hp.setterR (Option.isSome_iff_ne_none.mpr hr))
  refine ⟨srv, e, t, hhandler, _, ?_, hlow, by rintro ⟨⟩, ?_⟩
  · rw [Session.enter]
    dsimp only
    rw [List.append_assoc, List.append_assoc]
    refine hlisted.append fun e' he' => ?_
    rw [List.mem_append, List.mem_append, List.mem_singleton, Option.mem_toList, Option.mem_toList,
      Option.map_eq_some_iff, Option.map_eq_some_iff] at he'
    obtain rfl | ⟨p, -, rfl⟩ | ⟨p, -, rfl⟩ := he' <;> simp
  · rintro cur ⟨⟩
    refine ⟨pos', hanswers, ?_⟩
    generalize hz : x.srv.positions = was at *
    generalize hy : srv.positions = now at *
    cases hleaves with
    | nothing => exact ⟨⟨hready', by rw [settledPos, enter_c hc]; exact hy, hlow'⟩, .kept hold hy⟩
    | confirm f p =>
      refine ⟨⟨hready', ?_, hlow'⟩, .kept hold hy⟩
      rw [settledPos, enter_c hc]
      exact congrArg (fun g => Function.update g f p) hy
    | rollback f p hf =>
      refine ⟨⟨hready', by rw [settledPos, enter_c hc]; exact hy, hlow'⟩, .own ⟨f, was f⟩ rfl hc ⟨rfl, rfl⟩ hf ?_⟩
      refine (congrArg (fun g => Function.update g f (was f)) hy).trans ?_
      rw [Function.update_idem, Function.update_eq_self]

theorem Lists.reply {ok : Bool} (h : Lists dirs D pos₀ x) (hp : Protocol x) (hcur : x.current = some cur)
    (hown : ownRollback (α := DirCall) (β := Unit) x (.reply ok)) :
    ∃ y, x.reply (listServer v dirs) ok = some y ∧ Lists dirs D pos₀ y := by
  obtain ⟨pos, hlisted, hlow, -, hsome⟩ := h.listed
  obtain ⟨pos', hanswers, hstands, hundo⟩ := hsome cur hcur
  have hlog := hlisted.replied (k := cur.serial) ok hanswers
  rw [Session.reply, hcur]
  dsimp only
  cases ok with
  | true => exact ⟨_, rfl, pos', hlog, hstands.low, fun _ => ⟨hstands.ready, hstands.settled, hstands.low⟩, by rintro _ ⟨⟩⟩
  | false =>
    rw [if_neg Bool.false_ne_true, Session.checkRollback]
    cases hundo with
    | own p hr hc hm hf hpos =>
      obtain ⟨⟨ino, d⟩, hfile⟩ := Option.ne_none_iff_exists'.mp hf
      have hready : Ready dirs D { x.srv with files := Function.update x.srv.files p.file ⟨p.pos, rewindDirectory v d⟩ } :=
        hstands.ready.update hstands.ready.valid fun ino' d' runs hf' hdir => by
          obtain ⟨rfl, rfl⟩ := Prod.mk.inj (Option.some.inj (hfile.symm.trans hf'))
          exact ⟨[], _, [], runs, along_rewind (D.wellFormed _ _ _ hdir)⟩
      have hroll : rollbackGetdents v dirs p x.srv =
          some { x.srv with files := Function.update x.srv.files p.file ⟨p.pos, rewindDirectory v d⟩ } := by
        rw [rollbackGetdents, hfile, Option.map_some]
      rw [if_pos hm, Session.popRollback]
      dsimp only
      rw [hr]
      refine ⟨_, congrArg (Option.map _) (congrArg (Option.map _) hroll), pos, ?_, hlow, fun _ => ⟨hready, ?_, hlow⟩, by rintro _ ⟨⟩⟩
      · exact hlog.other (by simp)
      · exact Eq.trans Listing.positions_update hpos
    | kept hr hpos =>
      by_cases hm : x.ctx.Matches cur.sender cur.tag
      · have hrnone : x.ctx.r = none := by
          by_contra hsome
          obtain hnone | hself | hno := hown cur hcur
          · exact hsome (Option.isNone_iff_eq_none.mp hnone)
          · exact hr hsome hself
          · exact hno hm
        rw [if_pos hm, Session.popRollback]
        dsimp only
        rw [hrnone]
        exact ⟨_, rfl, pos, hlog, hlow, fun _ => ⟨hstands.ready, hpos, hlow⟩, by rintro _ ⟨⟩⟩
      · have hcnone : x.ctx.c = none := by
          by_contra hsome
          exact hm ((hp.current cur hcur).2.2 (Option.isSome_iff_ne_none.mpr hsome)).2
        rw [if_neg hm]
        refine ⟨_, rfl, pos, hlog, hlow, fun _ => ⟨hstands.ready, ?_, hlow⟩, by rintro _ ⟨⟩⟩
        rw [settledPos]
        dsimp only
        rw [hcnone]
        exact hpos

theorem inTurn_of_exec {m : Move DirCall Unit} (h : Rollback.exec (listServer v dirs) x m = some y) : inTurn x m := by
  have hidle : ∀ r : Option (Session Listing NewPos NewPos Told),
      (if x.current.isSome then none else r) = some y → x.current = none := by
    intro r hr
    split at hr
    · cases hr
    · next hno => simpa using hno
  cases m with
  | call sender tag a => exact hidle _ h
  | reply ok =>
    rw [Rollback.exec, Session.reply] at h
    rw [inTurn]
    cases hcur : x.current with
    | none =>
      rw [hcur] at h
      cases h
    | some cur => rfl
  | stimulus b => exact hidle _ h
  | receiveFailed => exact hidle _ h

theorem Lists.exec {m : Move DirCall Unit}
    (hknown : ∀ f ino d, dirs f = some (ino, d) → ∃ runs, D.dir ino = some (d, runs))
    (h : Lists dirs D pos₀ x) (hp : Protocol x) (hm : asked dirs D x m) (hturn : inTurn x m) :
    ∃ y, Rollback.exec (listServer v dirs) x m = some y ∧ Lists dirs D pos₀ y := by
  cases m with
  | reply ok =>
    obtain ⟨cur, hcur⟩ := Option.isSome_iff_exists.mp hturn
    exact h.reply hp hcur hm
  | call sender tag a =>
    have hcur : x.current = none := hturn
    obtain ⟨y, hsync, hy, hycur, hyc⟩ := h.syncConfirm hcur
    obtain ⟨srv, e, t, hhandler, hlists⟩ := hy.enter tag hknown (hp.syncConfirm hcur hsync).1 hycur hyc hm
    have hh : (listServer v dirs).handler y.srv sender a = some (srv, e, some t) := hhandler
    refine ⟨_, ?_, hlists⟩
    rw [Rollback.exec, hcur, Session.call, hsync, Option.bind_some, hh]
    rfl
  | stimulus b =>
    have hcur : x.current = none := hturn
    obtain ⟨y, hsync, hy, hycur, hyc⟩ := h.syncConfirm hcur
    obtain ⟨pos, hlisted, hlow, hnone, -⟩ := hy.listed
    obtain ⟨hready, hsettled, -⟩ := hnone hycur
    let z := { y with serial := y.serial + 1, log := y.log ++ [Entry.handled y.serial] }
    have hz : Rollback.exec (listServer v dirs) x (.stimulus b) = some z := by
      rw [Rollback.exec, hcur, Session.stimulate, hsync]
      rfl
    exact ⟨z, hz, pos, hlisted.other (by simp), hlow, fun _ => ⟨hready, hsettled, hlow⟩,
      fun cur hcur' => by cases hycur.symm.trans hcur'⟩
  | receiveFailed =>
    have hcur : x.current = none := hturn
    obtain ⟨y, hsync, hy, hycur, hyc⟩ := h.syncConfirm hcur
    obtain ⟨pos, hlisted, hlow, hnone, -⟩ := hy.listed
    obtain ⟨hready, hsettled, -⟩ := hnone hycur
    let z := { y with ctx := { y.ctx with r := none } }
    have hz : Rollback.exec (listServer v dirs) x .receiveFailed = some z := by
      rw [Rollback.exec, hcur, Session.receiveFailed, hsync]
      rfl
    exact ⟨z, hz, pos, hlisted, hlow, fun _ => ⟨hready, hsettled, hlow⟩,
      fun cur hcur' => by cases hycur.symm.trans hcur'⟩

theorem Answers.forward {t : Told} {f : ℕ} (h : Answers dirs D pos t pos') (hfile : dirs f = some (ino, d))
    (hdir : D.dir ino = some (d, runs)) (ht : t.Forward dirs f) :
    (listing v ino d runs).drop (pos f) = t.given dirs f ++ (listing v ino d runs).drop (pos' f) ∧
      (t.Ends dirs f → (listing v ino d runs).drop (pos f) = []) := by
  have hlist : ∀ es rest, (listing v ino d runs).drop (pos f) = es ++ rest →
      (listing v ino d runs).drop (pos f + es.length) = rest := by
    intro es rest heq
    rw [← List.drop_drop, heq, List.drop_left]
  rw [Answers] at h
  by_cases hf : t.file dirs = some f
  · obtain ⟨fd, offset, hop, hneg⟩ := ht hf
    have hthis : (t.call.file dirs t.sender fd).map Prod.fst = some f := by rw [← hf, Told.file, hop]
    obtain ⟨⟨g, ino', d'⟩, hcall, rfl⟩ := Option.map_eq_some_iff.mp hthis
    obtain ⟨rfl, rfl⟩ := Prod.mk.inj (Option.some.inj (hfile.symm.trans (DirCall.file_some hcall)))
    simp only [hop, hcall, if_neg (Int.not_le.mpr hneg)] at h
    obtain ⟨runs', hdir', _, rfl, es, rest, hdrop, hempty, hreply, rfl⟩ := h
    obtain ⟨-, rfl⟩ := Prod.mk.inj (Option.some.inj (hdir.symm.trans hdir'))
    rw [Told.given, if_pos hf, hreply, Function.update_self, hlist es rest hdrop]
    refine ⟨hdrop, ?_⟩
    rintro ⟨-, last, endpos, hends⟩
    obtain ⟨-, rfl, -⟩ := DirReply.entries.inj (hreply.symm.trans hends)
    rw [hdrop, hempty rfl]
    rfl
  · have hsame : pos' f = pos f := by
      rw [Told.file] at hf
      split at h
      · next fd offset hop =>
        rw [hop] at hf
        split at h
        · exact congrFun h.2 f
        · next g ino' d' hcall =>
          dsimp only at hf
          rw [hcall] at hf
          obtain ⟨runs', -, start, -, es, rest, -, -, -, rfl⟩ := h
          exact Function.update_of_ne (fun heq => hf (congrArg some heq.symm)) _ _
      · next fd position hop =>
        rw [hop] at hf
        split at h
        · exact congrFun h.2 f
        · split at h
          · exact congrFun h.2 f
          · next g ino' d' hcall =>
            dsimp only at hf
            rw [hcall] at hf
            rw [h.2]
            exact Function.update_of_ne (fun heq => hf (congrArg some heq.symm)) _ _
    rw [Told.given, if_neg hf, hsame]
    exact ⟨rfl, fun hends => absurd hends.1 hf⟩

theorem Listed.forward {log : List (Entry NewPos NewPos Told)} {f : ℕ} (h : Listed dirs D pos₀ log pos)
    (hfile : dirs f = some (ino, d)) (hdir : D.dir ino = some (d, runs))
    (hlog : ∀ k t, .replied k true t ∈ log → t.Forward dirs f) :
    (listing v ino d runs).drop (pos₀ f) = log.flatMap (givenBy dirs f) ++ (listing v ino d runs).drop (pos f) ∧
      ((∃ k t, .replied k true t ∈ log ∧ t.Ends dirs f) → (listing v ino d runs).drop (pos f) = []) := by
  induction h with
  | start => exact ⟨rfl, fun ⟨_, _, hmem, _⟩ => absurd hmem List.not_mem_nil⟩
  | @other log pos e h he ih =>
    obtain ⟨hsplit, hends⟩ := ih fun k t hmem => hlog k t (List.mem_append_left _ hmem)
    have hnone : givenBy dirs f e = [] := by
      cases e with
      | replied k ok t => exact absurd rfl (he k ok t)
      | handled | setRollback | setConfirm | confirmed | rolledBack => rfl
    rw [List.flatMap_append, List.flatMap_singleton, hnone, List.append_nil]
    refine ⟨hsplit, fun ⟨k, t, hmem, ht⟩ => hends ⟨k, t, ?_, ht⟩⟩
    obtain hmem | hmem := List.mem_append.mp hmem
    · exact hmem
    · exact absurd (List.mem_singleton.mp hmem).symm (he k true t)
  | @replied log pos pos' k t ok h ht ih =>
    obtain ⟨hsplit, hends⟩ := ih fun k t hmem => hlog k t (List.mem_append_left _ hmem)
    rw [List.flatMap_append, List.flatMap_singleton]
    cases ok with
    | false =>
      refine ⟨by rw [hsplit]; exact congrArg (· ++ _) (List.append_nil _).symm, fun ⟨k', t', hmem, ht'⟩ => hends ⟨k', t', ?_, ht'⟩⟩
      obtain hmem | hmem := List.mem_append.mp hmem
      · exact hmem
      · cases List.mem_singleton.mp hmem
    | true =>
      obtain ⟨hnext, hlast⟩ := ht.forward hfile hdir (hlog k t (List.mem_append_right _ (List.mem_singleton_self _)))
      refine ⟨?_, fun ⟨k', t', hmem, ht'⟩ => ?_⟩
      · rw [hsplit, hnext, ← List.append_assoc]
        rfl
      · have hnil : (listing v ino d runs).drop (pos f) = [] := by
          obtain hmem | hmem := List.mem_append.mp hmem
          · exact hends ⟨k', t', hmem, ht'⟩
          · cases List.mem_singleton.mp hmem
            exact hlast ht'
        exact (List.append_eq_nil_iff.mp (hnext.symm.trans hnil)).2

theorem Listed.reply_ne {log : List (Entry NewPos NewPos Told)} {k : ℕ} {ok : Bool} {t : Told} {err : ResolveError}
    (h : Listed dirs D pos₀ log pos) (hmem : .replied k ok t ∈ log) : t.reply ≠ .error (.dentry err) := by
  induction h with
  | start => exact absurd hmem List.not_mem_nil
  | other h he ih =>
    obtain hmem | hmem := List.mem_append.mp hmem
    · exact ih hmem
    · exact absurd (List.mem_singleton.mp hmem).symm (he k ok t)
  | replied ok' h ht ih =>
    obtain hmem | hmem := List.mem_append.mp hmem
    · exact ih hmem
    · cases List.mem_singleton.mp hmem
      rw [Answers] at ht
      intro herr
      split at ht
      · split at ht
        · cases ht.1.symm.trans herr
        · obtain ⟨runs, -, start, -, es, rest, -, -, hreply, -⟩ := ht
          cases hreply.symm.trans herr
      · split at ht
        · cases ht.1.symm.trans herr
        · split at ht
          · cases ht.1.symm.trans herr
          · cases ht.1.symm.trans herr

/-- **Listing a directory.** Over any run of reads of open directories and seeks, through any handles,
where replies fail or not, calls are answered as they should be, and no assertion fails. -/
theorem listed_of_run (v : Volume) (inodePlace : ℕ → ℕ) (D : Directories v inodePlace) (dirs : OpenDirs)
    (hknown : ∀ f ino d, dirs f = some (ino, d) → ∃ runs, D.dir ino = some (d, runs)) (srv : Listing)
    (hready : Ready dirs D srv) (hpos : ∀ f, srv.positions f < 2 ^ 31) (ms : List (Move DirCall Unit))
    (x : Session Listing NewPos NewPos Told)
    (h : Run (Rollback.exec (listServer v dirs)) (asked dirs D) (.init srv) ms x) :
    Enumerates dirs D srv.positions x := by
  have hinit : Lists dirs D srv.positions (.init srv) :=
    ⟨_, .start, hpos, fun _ => ⟨hready, rfl, hpos⟩, nofun⟩
  obtain ⟨hp, hlists⟩ := Run.invariant (I := fun x => Protocol x ∧ Lists dirs D srv.positions x)
    (fun x m y hm he hi => by
      obtain ⟨z, hz, hlists⟩ := hi.2.exec hknown hi.1 hm (inTurn_of_exec he)
      obtain rfl : y = z := Option.some.inj (he.symm.trans hz)
      exact ⟨hi.1.exec he, hlists⟩) h ⟨Protocol.init srv, hinit⟩
  obtain ⟨pos, hlisted, -⟩ := hlists.listed
  refine ⟨⟨pos, hlisted⟩, fun m hm hturn => ?_, fun f ino d runs hfile hdir hlog => ?_⟩
  · obtain ⟨z, hz, -⟩ := hlists.exec hknown hp hm hturn
    exact hz ▸ Option.some_ne_none z
  · obtain ⟨hsplit, hends⟩ := hlisted.forward hfile hdir hlog
    exact ⟨_, hsplit, hends⟩

def oneEntry : List DirRun := [⟨0, 2, [⟨32, 0, 2, [97]⟩]⟩]

def smallImage : Image where
  length := 64
  blockLog := 12
  block addr word := if addr = 8 ∧ word = 0 then some ⟨dirBytes oneEntry, 64⟩ else none
  next_gt addr word b hb := by
    split at hb
    · next haddr =>
      cases hb
      exact haddr.1 ▸ by decide
    · cases hb

def smallVolume : Volume where
  img := smallImage
  inodes := 3
  inodes_lt := by decide
  dirTable := 8
  rootIno := 3
  place dir index := 512 * (256 * dir + index)

def smallRoot : DirInode := ⟨0, 24, 0, 4⟩

def smallEmpty : DirInode := ⟨0, 3, 0, 3⟩

theorem smallRoot_wellFormed : WellFormed smallVolume (fun _ => 32) smallRoot oneEntry where
  follows := @Follows.rest smallImage ⟨8, 0⟩ ⟨dirBytes oneEntry, 64⟩ (by decide) rfl
  fileSize := by decide
  fileSize_lt := by decide
  run r hr := by
    cases List.mem_singleton.mp hr
    exact ⟨List.cons_ne_nil _ _, by decide, by decide, by decide⟩
  entry p hp := by
    cases List.mem_singleton.mp hp
    exact ⟨by decide, by decide, by decide, by decide, by decide, by decide, by decide, by decide, by decide, by decide⟩
  names := by decide

theorem smallEmpty_wellFormed : WellFormed smallVolume (fun _ => 32) smallEmpty [] where
  follows := .nil _
  fileSize := rfl
  fileSize_lt := by decide
  run := nofun
  entry := nofun
  names := List.nodup_nil

def smallDirectories : Directories smallVolume fun _ => 32 where
  dir ino := if ino = 3 then some (smallRoot, oneEntry) else if ino = 1 then some (smallEmpty, []) else none
  wellFormed ino d runs h := by
    split at h
    · cases h
      exact smallRoot_wellFormed
    · split at h
      · cases h
        exact smallEmpty_wellFormed
      · cases h

def smallOpen : OpenDirs := fun f => if f = 0 then some (3, smallRoot) else if f = 1 then some (1, smallEmpty) else none

def smallListing : Listing where
  handles _ _ := none
  files f := ⟨0, rewindDirectory smallVolume (if f = 0 then smallRoot else smallEmpty)⟩
  caches := ⟨[], fun _ => notYetSeen, fun _ => intMax⟩

theorem smallOpen_known : ∀ f ino d, smallOpen f = some (ino, d) → ∃ runs, smallDirectories.dir ino = some (d, runs) := by
  intro f ino d h
  rw [smallOpen] at h
  split at h
  · cases h
    exact ⟨oneEntry, rfl⟩
  · split at h
    · cases h
      exact ⟨[], rfl⟩
    · cases h

theorem smallListing_ready : Ready smallOpen smallDirectories smallListing where
  valid := by
    refine ⟨fun _ => .inl rfl, nofun, fun ino d runs h => ?_⟩
    have hlen := length_flatEntries (smallDirectories.wellFormed ino d runs h)
    rw [Reaches]
    show _ ≤ intMax + 1
    rw [intMax]
    omega
  placed f ino d runs hf hdir := by
    have hd := smallDirectories.wellFormed ino d runs hdir
    rw [smallOpen] at hf
    split at hf
    · next hzero =>
      cases hf
      subst hzero
      exact ⟨[], _, [], runs, along_rewind hd⟩
    · next hother =>
      split at hf
      · cases hf
        refine ⟨[], ⟨0, 0, []⟩, [], runs, ?_⟩
        show Along smallVolume runs (rewindDirectory smallVolume (if f = 0 then smallRoot else smallEmpty)) _ _ _ _
        rw [if_neg hother]
        exact along_rewind hd
      · cases hf

def smallCall (op : DirOp) : Move DirCall Unit := .call ⟨1, 3⟩ 0 ⟨fun _ fd => some fd, op⟩

def readsRoot : List (Move DirCall Unit) :=
  [smallCall (.getdents 0 (-1)), .reply false, smallCall (.getdents 0 (-1)), .reply true,
    smallCall (.getdents 0 (-1)), .reply true, smallCall (.getdents 0 (-1)), .reply true,
    smallCall (.seekdir 0 0), .reply true]

theorem readsRoot_asked {x : Session Listing NewPos NewPos Told} {m : Move DirCall Unit} (hm : m ∈ readsRoot)
    (hown : ownRollback x m) : asked smallOpen smallDirectories x m := by
  have hroot : ∀ f ino d runs, DirCall.file ⟨fun _ fd => some fd, .getdents 0 (-1)⟩ smallOpen ⟨1, 3⟩ 0 = some (f, ino, d) →
      smallDirectories.dir ino = some (d, runs) → Listable runs := by
    rintro f ino d runs ⟨⟩ ⟨⟩
    refine ⟨⟨List.cons_ne_nil _ _, ?_, ?_⟩, ?_⟩
    · intro p hp
      cases List.mem_singleton.mp hp
      decide
    · intro r hr
      cases List.mem_singleton.mp hr
      decide
    · intro p hp
      cases List.mem_singleton.mp hp
      decide
  simp only [readsRoot, List.mem_cons, List.not_mem_nil, or_false] at hm
  obtain rfl | rfl | rfl | rfl | rfl | rfl | rfl | rfl | rfl | rfl := hm
  all_goals first
    | exact hown
    | exact ⟨by decide, by decide, hroot⟩
    | exact (by decide : (0 : Int64).toInt < 2 ^ 31)

theorem listed_of_run_root : ∃ x : Session Listing NewPos NewPos Told,
    Run (Rollback.exec (listServer smallVolume smallOpen)) (asked smallOpen smallDirectories) (.init smallListing)
        readsRoot x ∧
      (x.log.flatMap (givenBy smallOpen 0)).map Record.bytes = [[46, 0], [46, 46, 0], [97, 0]] ∧
      Enumerates smallOpen smallDirectories smallListing.positions x := by
  obtain ⟨x, hrun, hx⟩ := Run.exists_of_evalRun (Rollback.exec (listServer smallVolume smallOpen)) ownRollback
    (.init smallListing) readsRoot (fun x => (x.log.flatMap (givenBy smallOpen 0)).map Record.bytes)
    [[46, 0], [46, 46, 0], [97, 0]] (by decide +kernel)
  have hasked := hrun.mono_mem fun _ _ hm hown => readsRoot_asked hm hown
  exact ⟨x, hasked, hx, listed_of_run smallVolume (fun _ => 32) smallDirectories smallOpen smallOpen_known smallListing
    smallListing_ready (fun _ => Nat.two_pow_pos 31) readsRoot x hasked⟩

def toldBy : Entry NewPos NewPos Told → Option DirReply
  | .replied _ _ t => some t.reply
  | _ => none

/-- The empty directory is read twice. What comes after it in the table is read for it, to where the
table ends. -/
theorem listed_of_run_empty : ∃ x : Session Listing NewPos NewPos Told,
    Run (Rollback.exec (listServer smallVolume smallOpen)) ownRollback (.init smallListing)
        [smallCall (.getdents 1 (-1)), .reply true, smallCall (.getdents 1 (-1)), .reply true] x ∧
      x.log.filterMap toldBy = [.entries 0 (listing smallVolume 1 smallEmpty []) 2, .error (.dentry ResolveError.EIO)] ∧
      ¬ ∃ pos, Listed smallOpen smallDirectories smallListing.positions x.log pos := by
  obtain ⟨x, hrun, hx⟩ := Run.exists_of_evalRun (Rollback.exec (listServer smallVolume smallOpen)) ownRollback
    (.init smallListing) [smallCall (.getdents 1 (-1)), .reply true, smallCall (.getdents 1 (-1)), .reply true]
    (fun x => x.log.filterMap toldBy) [.entries 0 (listing smallVolume 1 smallEmpty []) 2, .error (.dentry ResolveError.EIO)]
    (by decide +kernel)
  refine ⟨x, hrun, hx, fun ⟨pos, hlisted⟩ => ?_⟩
  have hmem : .error (.dentry ResolveError.EIO) ∈ x.log.filterMap toldBy := hx ▸ List.mem_cons_of_mem _ List.mem_cons_self
  obtain ⟨e, he, htold⟩ := List.mem_filterMap.mp hmem
  cases e with
  | replied k ok t => exact hlisted.reply_ne he (Option.some.inj htold)
  | handled | setRollback | setConfirm | confirmed | rolledBack => cases htold

end Sneks.Squashfs
