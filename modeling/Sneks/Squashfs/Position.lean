import Sneks.Squashfs.Read
import Sneks.Rollback.Protocol
import Mathlib.Logic.Function.Basic

/-!
# The position of an open file

`squashfs_seek`, `squashfs_io_read` and `squashfs_wr_confirm` of `sys/fs.squashfs/squashfs.c` with
`io_impl_read`, `wr_confirm` and `io_confirm` of `sys/io/io.c`. A read at the current position leaves
a confirm function that advances it, which is run when the next call starts; it finds the file
again by process and descriptor. A seek sets the position at once.

The server is a `Rollback.Server`. A call carries the handles that it finds once `get_fd` has
dealt with lifecycle events. What fails an assertion is `none`.
-/

namespace Sneks.Squashfs
open Rollback

/-- The inodes of the open files. A `file_size` has 32 bits. -/
structure Files where
  inode : ℕ → FileInode
  size_lt : ∀ f, (inode f).size < 2 ^ 32

abbrev Handles := ℕ → ℕ → Option ℕ

structure Serving where
  handles : Handles
  pos : ℕ → ℕ

structure ConfirmData where
  pid : ℕ
  fd : ℕ
  count : ℕ
  offset : Int64

inductive FileOp
  | read (fd : ℕ) (length : Int32) (offset : Int64)
  | seek (fd : ℕ) (offset : Int64) (whence : Int32)

structure FileCall where
  synced : Handles
  op : FileOp

inductive FileError
  | EBADF | EINVAL | EISDIR | EIO
  deriving DecidableEq

inductive FileReply
  | data (pos : ℕ) (bytes : List UInt8)
  | position (pos : ℕ)
  | error (e : FileError)
  deriving DecidableEq

def ReadError.toFile : ReadError → FileError
  | .EISDIR => .EISDIR
  | .EBADF => .EBADF
  | ReadError.EIO => FileError.EIO

/-- `squashfs_seek` past its handle: the new position. -/
def squashfsSeek (nod : FileInode) (pos : ℕ) (offset : Int64) (whence : Int32) : Option (Except FileError ℕ) :=
  if nod.type ≠ .reg then some (.error .EINVAL)
  else if whence = 1 then
    if 0 ≤ offset.toInt ∧ ((nod.size + 2 ^ 32 - pos) % 2 ^ 32 : ℕ) < offset.toInt ∨
        offset.toInt < 0 ∧ pos < (-offset).toInt then
      some (.error .EINVAL)
    else if pos + offset.toInt ≤ nod.size ∧ 0 ≤ pos + offset.toInt then
      some (.ok ((pos + offset.toInt) % 2 ^ 32).toNat)
    else none
  else if whence = 0 then
    if offset.toInt < 0 ∨ nod.size < offset.toInt then some (.error .EINVAL) else some (.ok offset.toInt.toNat)
  else if whence = 2 then
    if offset.toInt < 0 ∨ nod.size < offset.toInt then some (.error .EINVAL)
    else some (.ok (nod.size - offset.toInt).toNat)
  else some (.error .EINVAL)

def readAt (pos : ℕ) (offset : Int64) : ℕ := if offset.toInt < 0 then pos else offset.toInt.toNat

/-- `squashfs_io_read`. The loop is given `n` turns. -/
def squashfsIoRead (img : Image) (n : ℕ) (nod : FileInode) (pos : ℕ) (length : Int32) (offset : Int64) :
    Option (Except ReadError (List UInt8)) :=
  let count := (max 0 length.toInt).toNat
  if count = 0 then some (.ok [])
  else readFromInode img nod n (.ofNat count) (.ofNat (readAt pos offset))

variable (img : Image) (n : ℕ) (files : Files)

/-- `io_impl_read` and `squashfs_seek` past their `sync_confirm`. -/
def fileHandler (s : Serving) (sender : Tid) (a : FileCall) :
    Option (Serving × Effects Empty ConfirmData × Option FileReply) :=
  let s := { s with handles := a.synced }
  match a.op with
  | .read fd length offset =>
    match s.handles (pidof sender) fd with
    | none => some (s, ⟨none, none⟩, some (.error .EBADF))
    | some f =>
      match squashfsIoRead img n (files.inode f) (s.pos f) length offset with
      | none => none
      | some (.error e) => some (s, ⟨none, none⟩, some (.error e.toFile))
      | some (.ok bytes) =>
        let confirm := if 0 < bytes.length then some ⟨pidof sender, fd, bytes.length, offset⟩ else none
        some (s, ⟨none, confirm⟩, some (.data (readAt (s.pos f) offset) bytes))
  | .seek fd offset whence =>
    match s.handles (pidof sender) fd with
    | none => some (s, ⟨none, none⟩, some (.error .EBADF))
    | some f =>
      match squashfsSeek (files.inode f) (s.pos f) offset whence with
      | none => none
      | some (.error e) => some (s, ⟨none, none⟩, some (.error e))
      | some (.ok pos) => some ({ s with pos := Function.update s.pos f pos }, ⟨none, none⟩, some (.position pos))

def wrConfirm (pos : ℕ) (count : ℕ) (offset : Int64) : ℕ :=
  if offset.toInt < 0 then (pos + count) % 2 ^ 32 else pos

def ioConfirm (dat : ConfirmData) (s : Serving) : Option Serving :=
  (s.handles dat.pid dat.fd).map fun f =>
    { s with pos := Function.update s.pos f (wrConfirm (s.pos f) dat.count dat.offset) }

def fileServer : Server Serving FileCall Unit Empty ConfirmData FileReply where
  handler := fileHandler img n files
  stimulus s _ := some s
  rollback e _ := e.elim
  confirm := ioConfirm

structure Asked where
  sender : Tid
  tag : ℕ
  call : FileCall

def serveAll : Session Serving Empty ConfirmData FileReply → List Asked →
    Option (List FileReply × Session Serving Empty ConfirmData FileReply)
  | x, [] => some ([], x)
  | x, a :: as => do
    let (reply, x) ← x.serve (fileServer img n files) a.sender a.tag a.call
    let (replies, x) ← serveAll x as
    some (reply :: replies, x)

/-- `lseek` on a file of a given size, which it does not leave. -/
def lseek (nod : FileInode) (pos : ℕ) (offset : ℤ) (whence : Int32) : Except FileError ℕ :=
  let target : Option ℤ :=
    if whence = 0 then some offset else if whence = 1 then some (pos + offset)
    else if whence = 2 then some (nod.size + offset) else none
  match target with
  | none => .error .EINVAL
  | some target => if nod.type = .reg ∧ 0 ≤ target ∧ target ≤ nod.size then .ok target.toNat else .error .EINVAL

def referenceCall (pos : ℕ → ℕ) (a : Asked) : Option (FileReply × (ℕ → ℕ)) :=
  match a.call.op with
  | .read fd length offset =>
    match a.call.synced (pidof a.sender) fd with
    | none => some (.error .EBADF, pos)
    | some f =>
      match squashfsIoRead img n (files.inode f) (pos f) length offset with
      | none => none
      | some (.error e) => some (.error e.toFile, pos)
      | some (.ok bytes) =>
        some (.data (readAt (pos f) offset) bytes,
          if offset.toInt < 0 then Function.update pos f (pos f + bytes.length) else pos)
  | .seek fd offset whence =>
    match a.call.synced (pidof a.sender) fd with
    | none => some (.error .EBADF, pos)
    | some f =>
      match lseek (files.inode f) (pos f) offset.toInt whence with
      | .error e => some (.error e, pos)
      | .ok target => some (.position target, Function.update pos f target)

def referenceAll : (ℕ → ℕ) → List Asked → Option (List FileReply × (ℕ → ℕ))
  | pos, [] => some ([], pos)
  | pos, a :: as => do
    let (reply, pos) ← referenceCall img n files pos a
    let (replies, pos) ← referenceAll pos as
    some (reply :: replies, pos)

/-- A seek from the end is to the end itself, or out of the file whatever the offset's sign is taken
to be. One from the position is not by the number that has no negative. -/
def SeeksWell (nod : FileInode) (offset : Int64) (whence : Int32) : Prop :=
  (whence = 2 → offset.toInt = 0 ∨ offset.toInt < -nod.size ∨ nod.size < offset.toInt) ∧
    (whence = 1 → offset.toInt ≠ -2 ^ 63)

def Asked.Well (files : Files) (a : Asked) : Prop :=
  ∀ fd offset whence f, a.call.op = .seek fd offset whence → a.call.synced (pidof a.sender) fd = some f →
    SeeksWell (files.inode f) offset whence

variable {img n files} {nod : FileInode} {pos : ℕ} {offset : Int64} {whence : Int32}

theorem neg_toInt (h : offset.toInt ≠ -2 ^ 63) : (-offset).toInt = -offset.toInt := by
  have hlow := offset.le_toInt
  have hhigh := offset.toInt_lt
  rw [Int64.toInt_neg]
  exact Int.bmod_eq_of_le (by omega) (by omega)

theorem squashfsSeek_cur (htype : nod.type = .reg) (hpos : pos ≤ nod.size) (hsize : nod.size < 2 ^ 32)
    (h : offset.toInt ≠ -2 ^ 63) : squashfsSeek nod pos offset 1 = some (lseek nod pos offset.toInt 1) := by
  have hleft : (nod.size + 2 ^ 32 - pos) % 2 ^ 32 = nod.size - pos := by omega
  have hset : ¬ (1 : Int32) = 0 := by decide
  rw [squashfsSeek, lseek, if_neg (not_not.mpr htype), if_pos rfl, if_neg hset, if_pos rfl, hleft, neg_toInt h]
  dsimp only
  by_cases hin : 0 ≤ pos + offset.toInt ∧ pos + offset.toInt ≤ nod.size
  · have htarget : (pos + offset.toInt) % 2 ^ 32 = pos + offset.toInt := Int.emod_eq_of_lt hin.1 (by omega)
    rw [if_neg (by omega), if_pos ⟨hin.2, hin.1⟩, if_pos ⟨htype, hin⟩, htarget]
  · rw [if_pos (by omega), if_neg fun hok => hin hok.2]

theorem squashfsSeek_set (htype : nod.type = .reg) :
    squashfsSeek nod pos offset 0 = some (lseek nod pos offset.toInt 0) := by
  have hcur : ¬ (0 : Int32) = 1 := by decide
  rw [squashfsSeek, lseek, if_neg (not_not.mpr htype), if_neg hcur, if_pos rfl, if_pos rfl]
  dsimp only
  by_cases hin : 0 ≤ offset.toInt ∧ offset.toInt ≤ nod.size
  · rw [if_neg (by omega), if_pos ⟨htype, hin⟩]
  · rw [if_pos (by omega), if_neg fun hok => hin hok.2]

theorem squashfsSeek_end (htype : nod.type = .reg)
    (h : offset.toInt = 0 ∨ offset.toInt < -nod.size ∨ nod.size < offset.toInt) :
    squashfsSeek nod pos offset 2 = some (lseek nod pos offset.toInt 2) := by
  have hcur : ¬ (2 : Int32) = 1 := by decide
  have hset : ¬ (2 : Int32) = 0 := by decide
  rw [squashfsSeek, lseek, if_neg (not_not.mpr htype), if_neg hcur, if_neg hset, if_pos rfl, if_neg hset, if_neg hcur,
    if_pos rfl]
  dsimp only
  obtain hzero | hout := h
  · rw [hzero, if_neg (by omega), if_pos ⟨htype, by omega, by omega⟩, Int.add_zero, Int.sub_zero]
  · rw [if_pos (by omega), if_neg (by omega)]

theorem squashfsSeek_eq (hpos : pos ≤ nod.size) (hsize : nod.size < 2 ^ 32) (h : SeeksWell nod offset whence) :
    squashfsSeek nod pos offset whence = some (lseek nod pos offset.toInt whence) := by
  by_cases htype : nod.type = .reg
  · by_cases hcur : whence = 1
    · subst hcur
      exact squashfsSeek_cur htype hpos hsize (h.2 rfl)
    · by_cases hset : whence = 0
      · subst hset
        exact squashfsSeek_set htype
      · by_cases hend : whence = 2
        · subst hend
          exact squashfsSeek_end htype (h.1 rfl)
        · rw [squashfsSeek, lseek, if_neg (not_not.mpr htype), if_neg hcur, if_neg hset, if_neg hend, if_neg hset,
            if_neg hcur, if_neg hend]
  · rw [squashfsSeek, if_pos htype, lseek]
    split
    · rfl
    · rw [if_neg fun hok => htype hok.1]

theorem lseek_le {target : ℕ} {offset : ℤ} (h : lseek nod pos offset whence = .ok target) : target ≤ nod.size := by
  rw [lseek] at h
  split at h
  · cases h
  · split at h
    · next hok =>
      cases h
      omega
    · cases h

theorem squashfsIoRead_le {length : Int32} {bytes : List UInt8} (hpos : pos ≤ nod.size) (hsize : nod.size < 2 ^ 32)
    (hneg : offset.toInt < 0) (h : squashfsIoRead img n nod pos length offset = some (.ok bytes)) :
    pos + bytes.length ≤ nod.size := by
  rw [squashfsIoRead] at h
  split at h
  · cases h
    exact hpos
  · have hle := readFromInode_length_le h
    have hat : (UInt32.ofNat (readAt pos offset)).toNat = pos := by
      rw [readAt, if_pos hneg]
      exact UInt32.toNat_ofNat_of_lt' (Nat.lt_of_le_of_lt hpos hsize)
    rw [hat] at hle
    omega

variable {x y : Session Serving Empty ConfirmData FileReply} {ref : ℕ → ℕ} {a : Asked}

structure Agrees (img : Image) (n : ℕ) (files : Files) (x : Session Serving Empty ConfirmData FileReply)
    (ref : ℕ → ℕ) : Prop where
  synced : ∃ y, x.syncConfirm (fileServer img n files) = some y ∧ y.srv.pos = ref
  inside : ∀ f, ref f ≤ (files.inode f).size
  before : ∀ f, x.srv.pos f ≤ (files.inode f).size

theorem agrees_of_none (hc : x.ctx.c = none) (hpos : x.srv.pos = ref) (hin : ∀ f, ref f ≤ (files.inode f).size) :
    Agrees img n files x ref where
  synced := ⟨x, by rw [Session.syncConfirm, hc], hpos⟩
  inside := hin
  before := hpos ▸ hin

theorem agrees_of_some {dat : ConfirmData} {f : ℕ} (hc : x.ctx.c = some dat) (hf : x.srv.handles dat.pid dat.fd = some f)
    (hpos : ∀ f, x.srv.pos f ≤ (files.inode f).size)
    (hcount : dat.offset.toInt < 0 → x.srv.pos f + dat.count ≤ (files.inode f).size) :
    Agrees img n files x
      (if dat.offset.toInt < 0 then Function.update x.srv.pos f (x.srv.pos f + dat.count) else x.srv.pos) := by
  have hsize := files.size_lt f
  refine ⟨?_, ?_, hpos⟩
  · refine ⟨_, by rw [Session.syncConfirm, hc]; exact congrArg (Option.map _) (congrArg (Option.map _) hf), ?_⟩
    dsimp only
    rw [wrConfirm]
    split
    · next hneg => rw [Nat.mod_eq_of_lt (Nat.lt_of_le_of_lt (hcount hneg) hsize)]
    · exact Function.update_eq_self f _
  · split
    · next hneg =>
      intro g
      rw [Function.update_apply]
      split
      · next heq => exact heq ▸ hcount hneg
      · exact hpos g
    · exact hpos

inductive Alike (img : Image) (n : ℕ) (files : Files) :
    Option (Serving × Effects Empty ConfirmData × Option FileReply) → Option (FileReply × (ℕ → ℕ)) → Prop
  | fails : Alike img n files none none
  | answers {srv : Serving} {e : Effects Empty ConfirmData} {reply : FileReply} {ref : ℕ → ℕ}
      (h : ∀ x : Session Serving Empty ConfirmData FileReply, x.srv = srv → x.ctx.c = e.confirm → Agrees img n files x ref) :
      Alike img n files (some (srv, e, some reply)) (some (reply, ref))

theorem Alike.settled {srv : Serving} {reply : FileReply} (hpos : srv.pos = ref)
    (hin : ∀ f, ref f ≤ (files.inode f).size) :
    Alike img n files (some (srv, ⟨none, none⟩, some reply)) (some (reply, ref)) :=
  .answers fun _ hsrv hc => agrees_of_none hc (hsrv ▸ hpos) hin

theorem fileHandler_read {s : Serving} {fd : ℕ} {length : Int32} (hin : ∀ f, s.pos f ≤ (files.inode f).size)
    (hop : a.call.op = .read fd length offset) :
    Alike img n files (fileHandler img n files s a.sender a.call) (referenceCall img n files s.pos a) := by
  rw [fileHandler, referenceCall, hop]
  dsimp only
  cases hfd : a.call.synced (pidof a.sender) fd with
  | none => exact .settled rfl hin
  | some f =>
    dsimp only
    cases hread : squashfsIoRead img n (files.inode f) (s.pos f) length offset with
    | none => exact .fails
    | some r =>
      cases r with
      | error e => exact .settled rfl hin
      | ok bytes =>
        dsimp only
        by_cases hsome : 0 < bytes.length
        · rw [if_pos hsome]
          refine .answers fun x hsrv hc => ?_
          have hf : x.srv.handles (pidof a.sender) fd = some f := by rw [hsrv]; exact hfd
          have hagrees : Agrees img n files x _ := agrees_of_some hc hf (by rw [hsrv]; exact hin) fun hneg => by
            rw [hsrv]
            exact squashfsIoRead_le (hin f) (files.size_lt f) hneg hread
          rwa [hsrv] at hagrees
        · have hempty : bytes.length = 0 := Nat.eq_zero_of_not_pos hsome
          rw [if_neg hsome, hempty, Nat.add_zero, Function.update_eq_self, ite_self]
          exact .settled rfl hin

theorem fileHandler_seek {s : Serving} {fd : ℕ} (hin : ∀ f, s.pos f ≤ (files.inode f).size)
    (hop : a.call.op = .seek fd offset whence) (hwell : a.Well files) :
    Alike img n files (fileHandler img n files s a.sender a.call) (referenceCall img n files s.pos a) := by
  rw [fileHandler, referenceCall, hop]
  dsimp only
  cases hfd : a.call.synced (pidof a.sender) fd with
  | none => exact .settled rfl hin
  | some f =>
    dsimp only
    rw [squashfsSeek_eq (hin f) (files.size_lt f) (hwell fd offset whence f hop hfd)]
    cases hseek : lseek (files.inode f) (s.pos f) offset.toInt whence with
    | error e => exact .settled rfl hin
    | ok target =>
      refine .settled rfl fun g => ?_
      rw [Function.update_apply]
      split
      · next heq => exact heq ▸ lseek_le hseek
      · exact hin g

theorem fileHandler_alike {s : Serving} (hin : ∀ f, s.pos f ≤ (files.inode f).size) (hwell : a.Well files) :
    Alike img n files (fileHandler img n files s a.sender a.call) (referenceCall img n files s.pos a) := by
  cases hop : a.call.op with
  | read fd length offset => exact fileHandler_read hin hop
  | seek fd offset whence => exact fileHandler_seek hin hop hwell

/-- **A call is answered as it should be**, or not at all where reading fails. -/
theorem serveAll_agrees {as : List Asked} (h : Agrees img n files x ref) (hwell : ∀ a ∈ as, a.Well files) :
    (serveAll img n files x as).map Prod.fst = (referenceAll img n files ref as).map Prod.fst ∧
      ∀ replies x', serveAll img n files x as = some (replies, x') →
        ∃ ref', referenceAll img n files ref as = some (replies, ref') ∧ Agrees img n files x' ref' := by
  induction as generalizing x ref with
  | nil =>
    refine ⟨rfl, fun replies x' hserve => ?_⟩
    cases hserve
    exact ⟨ref, rfl, h⟩
  | cons a as ih =>
    obtain ⟨hone, hmore⟩ := List.forall_mem_cons.mp hwell
    obtain ⟨y, hy, rfl⟩ := h.synced
    have halike : Alike img n files _ _ := fileHandler_alike h.inside hone
    generalize hhandler : fileHandler img n files y.srv a.sender a.call = r at halike
    generalize hreference : referenceCall img n files y.srv.pos a = r' at halike
    rw [serveAll, referenceAll, hreference]
    cases halike with
    | fails =>
      rw [serve_none hy hhandler]
      exact ⟨rfl, nofun⟩
    | @answers srv e reply ref' hnext =>
      obtain ⟨z, hserve, hsrv, hc⟩ := @serve_some _ _ _ _ _ _ _ _ _ _ a.tag _ _ _ _ hy hhandler
      obtain ⟨hsame, hlast⟩ := ih (hnext z hsrv hc) hmore
      rw [hserve]
      simp only [Option.bind_eq_bind, Option.bind_some]
      cases hz : serveAll img n files z as with
      | none =>
        rw [hz] at hsame
        rw [Option.map_eq_none_iff.mp hsame.symm]
        exact ⟨rfl, nofun⟩
      | some p =>
        obtain ⟨ref'', href, hagrees⟩ := hlast p.1 p.2 hz
        rw [href]
        refine ⟨rfl, fun replies x' hlater => ?_⟩
        cases hlater
        exact ⟨ref'', rfl, hagrees⟩

/-- **File positions.** Over any run of reads and seeks, through any handles and with all replies
delivered, what is answered is what a file would answer whose position moves at once and that
`lseek` sets, if seeks from the end are by 0 or out of range either way; and no position leaves
its file. -/
theorem position_law (img : Image) (n : ℕ) (files : Files) (srv : Serving)
    (hpos : ∀ f, srv.pos f ≤ (files.inode f).size) (as : List Asked) (hwell : ∀ a ∈ as, a.Well files) :
    (serveAll img n files (.init srv) as).map Prod.fst = (referenceAll img n files srv.pos as).map Prod.fst ∧
      ∀ replies x, serveAll img n files (.init srv) as = some (replies, x) →
        ∃ ref, referenceAll img n files srv.pos as = some (replies, ref) ∧ Agrees img n files x ref :=
  serveAll_agrees (agrees_of_none rfl rfl hpos) hwell

def equalFiles : Files where
  inode _ := twoBlocksInode
  size_lt _ := by decide

def asksOne (op : FileOp) : Asked := ⟨⟨1, 3⟩, 0, ⟨fun _ fd => if fd = 1 then some 0 else none, op⟩⟩

/-- The first block is read, and then the position is asked for and set to the end. -/
theorem position_law_read :
    (serveAll twoBlocks 3 equalFiles (.init ⟨fun _ _ => none, fun _ => 0⟩)
        [asksOne (.read 1 4096 (-1)), asksOne (.seek 1 0 1), asksOne (.seek 1 0 2)]).map Prod.fst =
      (referenceAll twoBlocks 3 equalFiles (fun _ => 0)
        [asksOne (.read 1 4096 (-1)), asksOne (.seek 1 0 1), asksOne (.seek 1 0 2)]).map Prod.fst := by
  have hwell : ∀ a ∈ [asksOne (.read 1 4096 (-1)), asksOne (.seek 1 0 1), asksOne (.seek 1 0 2)],
      a.Well equalFiles := by
    intro a ha
    rw [List.mem_cons, List.mem_cons, List.mem_singleton] at ha
    obtain rfl | rfl | rfl := ha <;> rintro fd offset whence f hop - <;> cases hop
    · exact ⟨nofun, fun _ => by decide⟩
    · exact ⟨fun _ => .inl (by decide), nofun⟩
  exact (position_law twoBlocks 3 equalFiles ⟨fun _ _ => none, fun _ => 0⟩ (fun _ => Nat.zero_le _) _ hwell).1

/-- A seek to one byte before the end is refused. -/
theorem position_law_fails :
    (serveAll twoBlocks 3 equalFiles (.init ⟨fun _ _ => none, fun _ => 0⟩) [asksOne (.seek 1 (-1) 2)]).map Prod.fst =
        some [.error .EINVAL] ∧
      (referenceAll twoBlocks 3 equalFiles (fun _ => 0) [asksOne (.seek 1 (-1) 2)]).map Prod.fst =
        some [.position 8191] := by
  refine ⟨?_, ?_⟩
  · decide
  · decide

end Sneks.Squashfs
