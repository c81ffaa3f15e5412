import Sneks.Squashfs.Propagate
import Sneks.Squashfs.Nodes
import Mathlib.Data.Finset.Card
import Mathlib.Logic.Relation
import Mathlib.Order.WellFounded

/-!
# Path resolution

The loop of `squashfs_resolve` (`sys/fs.squashfs/squashfs.c`). It takes a path one component at a
time, with a stack of what is left of the paths that symlinks were met in, and a hash of the
symlinks that were followed.

What it uses of the rest of the filesystem is a `Tree` over a state with the caches. A mount point
is a component of type `DT_OTHERFS`. Reading through a null pointer, an index past the stack's end
and a failed assertion are `fault`.
-/

namespace Sneks.Squashfs

def nameLen : ℕ := 256

def stackSize : ℕ := 50

/-- `DT_*`, with `DT_OTHERFS` for a mount point. -/
inductive DType
  | unknown | fifo | chr | dir | blk | reg | lnk | sock | otherfs
  deriving DecidableEq

inductive ResolveError
  | EINVAL | EIO | ENOENT | ENOTDIR | ELOOP | ENOMEM
  deriving DecidableEq

structure ResolveFlags where
  nofollow : Bool
  directory : Bool

structure OtherFs where
  tid : ℕ
  dir : ℕ
  deriving DecidableEq

structure Tree (σ : Type) where
  inodes : ℕ
  lookup : ℕ → Name → σ → Except ResolveError (DType × ℕ) × σ
  /-- The text of a symlink, if `get_inode` finds its inode. -/
  getInode : ℕ → σ → Option Name × σ
  otherfs : ℕ → σ → Option OtherFs
  /-- `dev_ino` and what a name leads to there, if device nodes are enabled. -/
  devices : Option (ℕ × (Name → Option (DType × ℕ)))
  getInode_le : ∀ ino s text, (getInode ino s).1 = some text → ino ≤ inodes

structure Walk (σ : Type) where
  path : Option Name
  stack : List Name
  dirIno : ℕ
  finalIno : ℕ
  type : DType
  /-- `symlink_loop_hash`. -/
  loopHash : List ℕ
  fs : σ

inductive Resolved
  | ok (ino : ℕ) (type : DType)
  | error (e : ResolveError)
  /-- The call is passed on, to the root filesystem unless there is a mount. -/
  | propagate (dest : Option OtherFs) (link : Name) (rem : Option Name) (stack : List Name)
  | fault
  deriving DecidableEq

inductive Turn (σ : Type)
  | again (w : Walk σ)
  | ended (r : Resolved) (fs : σ)

variable {σ : Type}

/-- The end of a turn, where the component has an inode. `nod` is the symlink's text. -/
def enter (t : Tree σ) (flags : ResolveFlags) (isLast : Bool) (w : Walk σ) (ino : ℕ) (nod : Option Name) : Turn σ :=
  if w.type = .otherfs then
    match t.otherfs ino w.fs with
    | none => .ended (.error .EINVAL) w.fs
    | some oth => .ended (.propagate (some oth) (w.path.getD []) none w.stack) w.fs
  else if isLast then
    if flags.directory ∧ w.type ≠ .dir then .ended (.error .ENOTDIR) w.fs
    else if w.type = .lnk ∧ ¬ flags.nofollow then
      match nod with
      | none => .ended .fault w.fs
      | some text => .again { w with path := some text }
    else .ended (.ok ino w.type) w.fs
  else
    match w.type with
    | .lnk =>
      match nod, w.path with
      | some text, some path =>
        if w.stack.length = stackSize then .ended (.error .ELOOP) w.fs
        else if stackSize ≤ w.stack.length then .ended .fault w.fs
        else .again { w with stack := path :: w.stack, path := some text }
      | _, _ => .ended .fault w.fs
    | .dir => .again { w with dirIno := ino }
    | _ => .ended (.error .ENOTDIR) w.fs

def goOn (t : Tree σ) (flags : ResolveFlags) (isLast : Bool) (w : Walk σ) (part : Name) : Turn σ :=
  match t.devices.filter fun dev => isLast && w.dirIno == dev.1 && !streq part deviceNodesName with
  | some dev =>
    match dev.2 part with
    | none => .ended (.error .ENOENT) w.fs
    | some (type, ino) => .ended (.ok ino type) w.fs
  | none =>
    match t.lookup w.dirIno part w.fs with
    | (.error e, fs) => .ended (.error e) fs
    | (.ok (type, ino), fs) =>
      if type = .lnk ∧ (¬ isLast ∨ ¬ flags.nofollow) then
        match t.getInode ino fs with
        | (none, fs) => .ended (.error ResolveError.EIO) fs
        | (some text, fs) =>
          if text.head? = some slash then .ended (.propagate none text w.path w.stack) fs
          else if ino ∈ w.loopHash then .ended (.error .ELOOP) fs
          else enter t flags isLast { w with type, loopHash := ino :: w.loopHash, fs } ino (some text)
      else enter t flags isLast { w with type, fs } ino none

/-- One turn of the loop of `squashfs_resolve`, for a path that is not at its end. -/
def turn (t : Tree σ) (flags : ResolveFlags) (w : Walk σ) (path : Name) : Turn σ :=
  let comp := path.takeWhile (· != slash)
  match path.dropWhile (· != slash) with
  | [] =>
    match w.stack with
    | [] => goOn t flags true { w with path := none } comp
    | top :: rest =>
      if stackSize ≤ rest.length then .ended .fault w.fs
      else goOn t flags false { w with path := some top, stack := rest } comp
  | _ :: after =>
    if nameLen < comp.length then .ended (.error .ENOENT) w.fs
    else if comp = [] then .again { w with path := some after }
    else goOn t flags false { w with path := some after } comp

def walk (t : Tree σ) (flags : ResolveFlags) : ℕ → Walk σ → Option (Resolved × σ)
  | 0, _ => none
  | n + 1, w =>
    match w.path with
    | none => some (.fault, w.fs)
    | some [] => some (.ok w.finalIno w.type, w.fs)
    | some (c :: cs) =>
      match turn t flags w (c :: cs) with
      | .again w => walk t flags n w
      | .ended r fs => some (r, fs)

def Walk.start (dirIno : ℕ) (path : Name) (fs : σ) : Walk σ := ⟨some path, [], dirIno, dirIno, .dir, [], fs⟩

/-- `squashfs_resolve` from the directory that `dirfd` is on. -/
def resolve (t : Tree σ) (flags : ResolveFlags) (n : ℕ) (dirIno : ℕ) (path : Name) (fs : σ) : Option (Resolved × σ) :=
  if path.head? = some slash then some (.error .EINVAL, fs) else walk t flags n (.start dirIno path fs)

-- What a turn does

variable {t : Tree σ} {flags : ResolveFlags} {isLast : Bool} {w w' : Walk σ} {part path : Name}

inductive Onward (t : Tree σ) : Bool → Walk σ → Walk σ → Prop
  | down (w : Walk σ) (ino : ℕ) (fs : σ) : Onward t false w { w with type := .dir, dirIno := ino, fs }
  | push (w : Walk σ) (ino : ℕ) (path text : Name) (fs : σ) (hpath : w.path = some path) (hino : ino ≤ t.inodes)
      (hnew : ino ∉ w.loopHash) (hstack : w.stack.length < stackSize) :
      Onward t false w
        { w with type := .lnk, loopHash := ino :: w.loopHash, fs, stack := path :: w.stack, path := some text }
  | last (w : Walk σ) (ino : ℕ) (text : Name) (fs : σ) (hino : ino ≤ t.inodes) (hnew : ino ∉ w.loopHash) :
      Onward t true w { w with type := .lnk, loopHash := ino :: w.loopHash, fs, path := some text }

def Regular (t : Tree σ) (isLast : Bool) (w : Walk σ) : Turn σ → Prop
  | .again w' => Onward t isLast w w'
  | .ended r _ => r ≠ .fault

theorem enter_plain {ino : ℕ} {type : DType} {fs : σ} (h : ¬ (type = .lnk ∧ (¬ isLast ∨ ¬ flags.nofollow))) :
    Regular t isLast w (enter t flags isLast { w with type, fs } ino none) := by
  rw [enter]
  dsimp only
  split
  · cases t.otherfs ino fs <;> exact nofun
  · cases isLast with
    | true =>
      rw [if_pos rfl]
      split
      · exact nofun
      · rw [if_neg fun hlnk => h ⟨hlnk.1, .inr hlnk.2⟩]
        exact nofun
    | false =>
      rw [if_neg Bool.false_ne_true]
      cases type with
      | lnk => exact absurd ⟨rfl, .inl Bool.false_ne_true⟩ h
      | dir => exact .down w ino fs
      | _ => exact nofun

theorem enter_link {ino : ℕ} {text : Name} {fs : σ} (hpath : isLast = false → w.path ≠ none)
    (hstack : w.stack.length ≤ stackSize) (h : ¬ isLast ∨ ¬ flags.nofollow) (hino : ino ≤ t.inodes)
    (hnew : ino ∉ w.loopHash) :
    Regular t isLast w
      (enter t flags isLast { w with type := .lnk, loopHash := ino :: w.loopHash, fs } ino (some text)) := by
  rw [enter, if_neg (by nofun)]
  cases isLast with
  | true =>
    rw [if_pos rfl]
    split
    · exact nofun
    · rw [if_pos ⟨rfl, h.resolve_left (not_not.mpr rfl)⟩]
      exact .last w ino text fs hino hnew
  | false =>
    obtain ⟨path, hsome⟩ := Option.ne_none_iff_exists'.mp (hpath rfl)
    rw [if_neg Bool.false_ne_true]
    dsimp only
    rw [hsome]
    dsimp only
    split
    · exact nofun
    · next hfull =>
      have hlt : w.stack.length < stackSize := Nat.lt_of_le_of_ne hstack hfull
      rw [if_neg (Nat.not_le.mpr hlt)]
      exact .push w ino path text fs hsome hino hnew hlt

theorem goOn_regular (hpath : isLast = false → w.path ≠ none) (hstack : w.stack.length ≤ stackSize) :
    Regular t isLast w (goOn t flags isLast w part) := by
  rw [goOn]
  split
  · next dev _ => cases dev.2 part <;> exact nofun
  · split
    · exact nofun
    · split
      · next hlnk =>
        split
        · exact nofun
        · next text fs hget =>
          split
          · exact nofun
          · split
            · exact nofun
            · next hnew =>
              obtain ⟨rfl, hfollow⟩ := hlnk
              exact enter_link hpath hstack hfollow (t.getInode_le _ _ text (by rw [hget])) hnew
      · next hplain => exact enter_plain hplain

-- The loop ends

/-- There is a path at the loop's test, the stack has room for what is on it, and the symlinks that
were followed are inodes of the image, each once. -/
structure Sound (t : Tree σ) (w : Walk σ) : Prop where
  path : w.path ≠ none
  stack : w.stack.length ≤ stackSize
  nodup : w.loopHash.Nodup
  range : ∀ ino ∈ w.loopHash, ino ≤ t.inodes

def unseen (t : Tree σ) (w : Walk σ) : ℕ := t.inodes + 1 - w.loopHash.length

def textLeft (w : Walk σ) : ℕ := (w.path.getD []).length + (w.stack.map (·.length + 1)).sum

theorem Sound.length_le (h : Sound t w) : w.loopHash.length ≤ t.inodes + 1 := by
  have hsub : w.loopHash.toFinset ⊆ Finset.range (t.inodes + 1) := fun ino hino =>
    Finset.mem_range.mpr (Nat.lt_succ_of_le (h.range ino (List.mem_toFinset.mp hino)))
  have hcard := Finset.card_le_card hsub
  rwa [List.toFinset_card_of_nodup h.nodup, Finset.card_range] at hcard

def Less (t : Tree σ) (w' w : Walk σ) : Prop := Prod.Lex (· < ·) (· < ·) (unseen t w', textLeft w') (unseen t w, textLeft w)

theorem less_wf (t : Tree σ) : WellFounded (Less t) :=
  InvImage.wf _ (IsWellFounded.wf (r := Prod.Lex (α := ℕ) (β := ℕ) (· < ·) (· < ·)))

theorem less_of_text (hseen : w'.loopHash = w.loopHash) (htext : textLeft w' < textLeft w) : Less t w' w := by
  rw [Less, unseen, hseen]
  exact .right _ htext

theorem Sound.follow {ino : ℕ} (h : Sound t w) (hino : ino ≤ t.inodes) (hnew : ino ∉ w.loopHash)
    (hseen : w'.loopHash = ino :: w.loopHash) (hpath : w'.path ≠ none) (hstack : w'.stack.length ≤ stackSize) :
    Sound t w' ∧ Less t w' w := by
  have hsound : Sound t w' := by
    refine ⟨hpath, hstack, ?_, ?_⟩
    · rw [hseen]
      exact List.nodup_cons.mpr ⟨hnew, h.nodup⟩
    · rw [hseen]
      exact List.forall_mem_cons.mpr ⟨hino, h.range⟩
  have hle := hsound.length_le
  rw [hseen, List.length_cons] at hle
  refine ⟨hsound, .left _ _ ?_⟩
  rw [unseen, unseen, hseen, List.length_cons]
  omega

structure Taken (t : Tree σ) (isLast : Bool) (w w₀ : Walk σ) : Prop where
  path : isLast = false → w₀.path ≠ none
  stack : w₀.stack.length ≤ stackSize
  loopHash : w₀.loopHash = w.loopHash
  text : textLeft w₀ < textLeft w

theorem Taken.onward {w₀ : Walk σ} (h : Sound t w) (htaken : Taken t isLast w w₀) (hon : Onward t isLast w₀ w') :
    Sound t w' ∧ Less t w' w := by
  cases hon with
  | down _ ino fs =>
    exact ⟨⟨htaken.path rfl, htaken.stack, htaken.loopHash ▸ h.nodup, htaken.loopHash ▸ h.range⟩,
      less_of_text htaken.loopHash htaken.text⟩
  | push _ ino path text fs hpath hino hnew hstack =>
    rw [htaken.loopHash] at hnew
    exact h.follow hino hnew (congrArg _ htaken.loopHash) nofun hstack
  | last _ ino text fs hino hnew =>
    rw [htaken.loopHash] at hnew
    exact h.follow hino hnew (congrArg _ htaken.loopHash) nofun htaken.stack

def Advances (t : Tree σ) (w : Walk σ) : Turn σ → Prop
  | .again w' => Sound t w' ∧ Less t w' w
  | .ended r _ => r ≠ .fault

theorem goOn_step {w₀ : Walk σ} (h : Sound t w) (htaken : Taken t isLast w w₀) :
    Advances t w (goOn t flags isLast w₀ part) := by
  have hreg := @goOn_regular σ t flags isLast w₀ part htaken.path htaken.stack
  cases hgo : goOn t flags isLast w₀ part with
  | again w' =>
    rw [hgo] at hreg
    exact htaken.onward h hreg
  | ended r fs =>
    rw [hgo] at hreg
    exact hreg

/-- **Each turn of the loop advances.** -/
theorem turn_step (flags : ResolveFlags) (h : Sound t w) (hpath : w.path = some path) (hne : path ≠ []) :
    Advances t w (turn t flags w path) := by
  have hsplit : (path.takeWhile (· != slash)).length + (path.dropWhile (· != slash)).length = path.length := by
    rw [← List.length_append, List.takeWhile_append_dropWhile]
  have hpos : 0 < path.length := List.length_pos_iff.mpr hne
  have hleft : textLeft w = path.length + (w.stack.map (·.length + 1)).sum := by rw [textLeft, hpath, Option.getD_some]
  rw [turn]
  split
  · split
    · next hstack =>
      refine goOn_step h ⟨nofun, hstack ▸ Nat.zero_le _, rfl, ?_⟩
      rw [hleft, textLeft]
      exact Nat.add_lt_add_right hpos _
    · next top rest hstack =>
      have hfits := h.stack
      rw [hstack, List.length_cons] at hfits
      rw [if_neg (Nat.not_le.mpr hfits)]
      refine goOn_step h ⟨nofun, Nat.le_of_lt hfits, rfl, ?_⟩
      rw [hleft, textLeft, hstack, List.map_cons, List.sum_cons, Option.getD_some]
      dsimp only
      omega
  · next slash' after hafter =>
    rw [hafter, List.length_cons] at hsplit
    have htext : textLeft { w with path := some after } < textLeft w := by
      rw [hleft, textLeft, Option.getD_some]
      exact Nat.add_lt_add_right (by omega) _
    split
    · exact nofun
    · split
      · exact ⟨⟨nofun, h.stack, h.nodup, h.range⟩, less_of_text rfl htext⟩
      · exact goOn_step h ⟨nofun, h.stack, rfl, htext⟩

theorem sound_start (t : Tree σ) (dirIno : ℕ) (path : Name) (fs : σ) : Sound t (.start dirIno path fs) where
  path := nofun
  stack := Nat.zero_le _
  nodup := List.nodup_nil
  range := nofun

theorem walk_ends (flags : ResolveFlags) (h : Sound t w) : ∃ n r fs, walk t flags n w = some (r, fs) ∧ r ≠ .fault := by
  induction w using (less_wf t).induction with
  | _ w ih =>
    obtain ⟨path, hpath⟩ := Option.ne_none_iff_exists'.mp h.path
    cases path with
    | nil =>
      refine ⟨1, .ok w.finalIno w.type, w.fs, ?_, nofun⟩
      rw [walk, hpath]
    | cons c cs =>
      have hstep := turn_step flags h hpath (List.cons_ne_nil c cs)
      cases hturn : turn t flags w (c :: cs) with
      | again w' =>
        rw [hturn] at hstep
        obtain ⟨n, r, fs, hwalk, hr⟩ := ih w' hstep.2 hstep.1
        refine ⟨n + 1, r, fs, ?_, hr⟩
        rw [walk, hpath]
        dsimp only
        rw [hturn]
        exact hwalk
      | ended r fs =>
        rw [hturn] at hstep
        refine ⟨1, r, fs, ?_, hstep⟩
        rw [walk, hpath]
        dsimp only
        rw [hturn]

def Goes (t : Tree σ) (flags : ResolveFlags) (w w' : Walk σ) : Prop :=
  ∃ path, w.path = some path ∧ path ≠ [] ∧ turn t flags w path = .again w'

theorem Sound.goes (h : Sound t w) (hgoes : Relation.ReflTransGen (Goes t flags) w w') : Sound t w' := by
  induction hgoes with
  | refl => exact h
  | tail _ hlast ih =>
    obtain ⟨path, hpath, hne, hturn⟩ := hlast
    have hstep := turn_step flags ih hpath hne
    rw [hturn] at hstep
    exact hstep.1

end Sneks.Squashfs
