import Sneks.Squashfs.Image
import Mathlib.Data.List.Range

/-!
# Reading from a regular file

`read_from_inode` and `seek_block_list` of `sys/fs.squashfs/squashfs.c`. A file's block list is
metadata of one word for each block: 0 for a sparse block, else the size that the block is stored
in, with a bit for its compression.

What reads out of bounds, copies a negative count or uses a word that was not read is `none`, as is
a loop that has not ended.
-/

namespace Sneks.Squashfs
open Lib

inductive InodeType
  | dir | reg | symlink | blkdev | chrdev
  deriving DecidableEq

inductive ReadError
  | EISDIR | EBADF | EIO
  deriving DecidableEq

def invalidFrag : ℕ := 0xffffffff

/-- What is read of an inode here. `rest` is where its block list starts. -/
structure FileInode where
  type : InodeType
  start : ℕ
  fragment : ℕ
  size : ℕ
  rest : Pos

def storedSize (word : ℕ) : ℕ := word &&& 0xfeffffff

/-- How many words `seek_block_list` reads at a time. -/
def wordsPerPage : ℕ := 1024

def wordsOf : List UInt8 → List ℕ
  | a :: b :: c :: d :: rest => leNat [a, b, c, d] :: wordsOf rest
  | _ => []

variable {img : Image} {nod : FileInode} {words : List ℕ} {p q : Pos} {n : ℕ}

/-- The loop of `seek_block_list`, for at most `n` pages. -/
def seekPages (img : Image) : ℕ → Pos → ℕ → ℕ → Option (Except ReadError (ℕ × Pos))
  | 0, _, _, _ => none
  | n + 1, p, target, res =>
    if target = 0 then some (.ok (res, p))
    else do
      let blocks := min target wordsPerPage
      let (bytes, p) ← readMetadata img p (blocks * 4)
      if bytes.length ≠ blocks * 4 then
        some (if bytes.length = 0 then .ok (0, p) else .error ReadError.EIO)
      else seekPages img n p (target - blocks) (res + ((wordsOf bytes).map storedSize).sum)

def seekBlockList (img : Image) (p : Pos) (target : ℕ) : Option (Except ReadError (ℕ × Pos)) :=
  let target := target + 1
  seekPages img (target + 1) p target 0

/-- Where the loop of `read_from_inode` has got to. `out` is what was copied. -/
structure Reading where
  rest : Pos
  dataBlock : ℕ
  seek : ℤ
  pos : ℕ
  out : List UInt8

/-- One turn of the loop of `read_from_inode`. -/
def readTurn (img : Image) (bytes : ℕ) (s : Reading) : Option Reading :=
  match readMetadata img s.rest 4 with
  | none => none
  | some (lenword, rest) =>
    if lenword.length < 4 then none
    else if leNat lenword = 0 then some { s with rest }
    else
      let dataBlock := s.dataBlock + storedSize (leNat lenword)
      if 0 < s.seek then some { s with rest, dataBlock, seek := s.seek - 1 }
      else
        match img.block s.dataBlock (leNat lenword) with
        | none => none
        | some b =>
          if 2 ^ 31 ≤ bytes - s.out.length then none
          else
            let seg := min (bytes - s.out.length) b.data.length
            let off := s.pos % 2 ^ img.blockLog
            if b.data.length < off + seg then none
            else some ⟨rest, dataBlock, s.seek - 1, (s.pos + seg) % 2 ^ 32, s.out ++ (b.data.drop off).take seg⟩

def readLoop (img : Image) (bytes : ℕ) : ℕ → Reading → Option (List UInt8)
  | 0, _ => none
  | n + 1, s => if bytes ≤ s.out.length then some s.out else (readTurn img bytes s).bind (readLoop img bytes n)

def readFromInode (img : Image) (nod : FileInode) (n : ℕ) (length readPos : UInt32) :
    Option (Except ReadError (List UInt8)) :=
  if nod.type = .dir then some (.error .EISDIR)
  else if nod.type ≠ .reg then some (.error .EBADF)
  else if nod.fragment ≠ invalidFrag then some (.error ReadError.EIO)
  else
    let pos := readPos.toNat
    let bytes := min length.toNat ((nod.size + 2 ^ 32 - pos) % 2 ^ 32)
    if bytes = 0 then some (.ok [])
    else
      let seek := pos / 2 ^ img.blockLog
      if 1 < seek then do
        match ← seekBlockList img nod.rest (seek - 1) with
        | .error e => some (.error e)
        | .ok (dataBlock, rest) => (readLoop img bytes n ⟨rest, dataBlock + nod.start, 0, pos, []⟩).map .ok
      else (readLoop img bytes n ⟨nod.rest, nod.start, seek, pos, []⟩).map .ok

-- What a file has

def Image.blockSize (img : Image) : ℕ := 2 ^ img.blockLog

def dataAddr (nod : FileInode) (words : List ℕ) (i : ℕ) : ℕ := nod.start + ((words.take i).map storedSize).sum

def blockLength (img : Image) (nod : FileInode) (i : ℕ) : ℕ := min img.blockSize (nod.size - i * img.blockSize)

structure RegularFile (img : Image) (nod : FileInode) (words : List ℕ) : Prop where
  type : nod.type = .reg
  fragment : nod.fragment = invalidFrag
  size_lt : nod.size < 2 ^ 32
  list : Follows img nod.rest (words.flatMap (leBytes 4))
  word_lt : ∀ w ∈ words, w < 2 ^ 32
  stored : ∀ w ∈ words, w ≠ 0 → 0 < storedSize w
  enough : ∀ i, i * img.blockSize < nod.size → i < words.length
  block : ∀ i w, words[i]? = some w → w ≠ 0 →
    ∃ b, img.block (dataAddr nod words i) w = some b ∧ b.data.length = blockLength img nod i

def fileByte (img : Image) (nod : FileInode) (words : List ℕ) (x : ℕ) : UInt8 :=
  match words[x / img.blockSize]? with
  | none => 0
  | some 0 => 0
  | some w => ((img.block (dataAddr nod words (x / img.blockSize)) w).map (·.data.getD (x % img.blockSize) 0)).getD 0

def readLength (nod : FileInode) (length pos : ℕ) : ℕ := min length (nod.size - pos)

def ReadsExactly (img : Image) (nod : FileInode) (words : List ℕ) (length pos : UInt32) : Prop :=
  ∃ n, readFromInode img nod n length pos =
    some (.ok ((List.range' pos.toNat (readLength nod length.toNat pos.toNat)).map (fileByte img nod words)))

def Image.refill (img : Image) (c : ℕ → ℕ → UInt8) : Image where
  length := img.length
  blockLog := img.blockLog
  block addr word :=
    if word = 0 then img.block addr word
    else (img.block addr word).map fun b => { b with data := (List.range b.data.length).map (c addr) }
  next_gt addr word b hb := by
    split at hb
    · exact img.next_gt addr word b hb
    · obtain ⟨b', hget, rfl⟩ := Option.map_eq_some_iff.mp hb
      exact img.next_gt addr word b' hget

/-- The read is empty, or it is of stored blocks and crosses into another only from the start of
one, and no sparse block is where the code would count it as one to skip. -/
def ReadsWell (bs : ℕ) (nod : FileInode) (words : List ℕ) (length pos : ℕ) : Prop :=
  length = 0 ∨ pos = nod.size ∨
    pos < nod.size ∧ readLength nod length pos < 2 ^ 31 ∧
      (pos % bs = 0 ∨ pos % bs + readLength nod length pos ≤ bs) ∧
      (∀ i, pos / bs ≤ i → i * bs < pos + readLength nod length pos → words[i]? ≠ some 0) ∧
      (pos / bs = 1 → words[0]? ≠ some 0)

-- The block list

variable {bytes res w : ℕ} {st st' : Reading} {r : List UInt8} {length readPos : UInt32} {ws us : List ℕ}

theorem blockSize_pos (img : Image) : 0 < img.blockSize := Nat.two_pow_pos _

theorem readMetadata_word (h : Follows img p ((w :: ws).flatMap (leBytes 4))) (hw : w < 2 ^ 32) :
    ∃ lenword q, readMetadata img p 4 = some (lenword, q) ∧ lenword.length = 4 ∧ leNat lenword = w ∧
      Follows img q (ws.flatMap (leBytes 4)) := by
  rw [List.flatMap_cons] at h
  obtain ⟨q, hread, hq⟩ := readMetadata_follows h
  rw [length_leBytes] at hread
  refine ⟨leBytes 4 w, q, hread, length_leBytes _ _, ?_, hq⟩
  rw [leNat_leBytes]
  exact Nat.mod_eq_of_lt hw

theorem wordsOf_flatMap (hw : ∀ w ∈ ws, w < 2 ^ 32) : wordsOf (ws.flatMap (leBytes 4)) = ws := by
  induction ws with
  | nil => rfl
  | cons w ws ih =>
    obtain ⟨hlt, hws⟩ := List.forall_mem_cons.mp hw
    rw [List.flatMap_cons]
    have hone : leNat (leBytes 4 w) = w := (leNat_leBytes 4 w).trans (Nat.mod_eq_of_lt hlt)
    exact congrArg₂ List.cons hone (ih hws)

theorem length_flatMap_leBytes (ws : List ℕ) : (ws.flatMap (leBytes 4)).length = ws.length * 4 := by
  induction ws with
  | nil => rfl
  | cons w ws ih =>
    rw [List.flatMap_cons, List.length_append, length_leBytes, ih, List.length_cons, Nat.succ_mul, Nat.add_comm]

theorem seekPages_spec (res : ℕ) (h : Follows img p ((ws ++ us).flatMap (leBytes 4))) (hw : ∀ w ∈ ws, w < 2 ^ 32)
    (hn : ws.length < n) :
    ∃ q, seekPages img n p ws.length res = some (.ok (res + (ws.map storedSize).sum, q)) ∧
      Follows img q (us.flatMap (leBytes 4)) := by
  induction n generalizing p ws res with
  | zero => cases hn
  | succ n ih =>
    rw [seekPages]
    by_cases hws : ws = []
    · subst hws
      exact ⟨p, rfl, h⟩
    · rw [if_neg (mt List.length_eq_zero_iff.mp hws)]
      obtain ⟨page, rest, rfl, hpage⟩ : ∃ page rest, ws = page ++ rest ∧ page.length = min ws.length wordsPerPage :=
        ⟨ws.take (min ws.length wordsPerPage), ws.drop (min ws.length wordsPerPage), (List.take_append_drop _ _).symm,
          by rw [List.length_take, Nat.min_eq_left (Nat.min_le_left _ _)]⟩
      rw [List.append_assoc, List.flatMap_append] at h
      obtain ⟨q, hread, hq⟩ := readMetadata_follows h
      rw [length_flatMap_leBytes] at hread
      rw [← hpage]
      dsimp only
      rw [hread]
      have hlen : (page.flatMap (leBytes 4)).length = page.length * 4 := length_flatMap_leBytes page
      have hpos : 0 < page.length := by
        rw [hpage]
        exact Nat.lt_min.mpr ⟨List.length_pos_iff.mpr hws, by decide⟩
      simp only [Option.bind_eq_bind, Option.bind_some]
      rw [if_neg (not_not.mpr hlen), wordsOf_flatMap fun w hmem => hw w (List.mem_append_left _ hmem)]
      rw [List.length_append] at hn ⊢
      rw [Nat.add_sub_cancel_left, List.map_append, List.sum_append, ← Nat.add_assoc]
      exact ih _ hq (fun w hmem => hw w (List.mem_append_right _ hmem)) (by omega)

theorem seekBlockList_spec (h : Follows img p ((ws ++ us).flatMap (leBytes 4))) (hw : ∀ w ∈ ws, w < 2 ^ 32)
    (hws : ws ≠ []) :
    ∃ q, seekBlockList img p (ws.length - 1) = some (.ok ((ws.map storedSize).sum, q)) ∧
      Follows img q (us.flatMap (leBytes 4)) := by
  obtain ⟨q, hseek, hq⟩ := seekPages_spec 0 h hw (Nat.lt_succ_self _)
  refine ⟨q, ?_, hq⟩
  rw [seekBlockList, Nat.sub_add_cancel (List.length_pos_iff.mpr hws), hseek, Nat.zero_add]

-- What every read does

theorem readLoop_mono (h : readLoop img bytes n st = some r) (d : ℕ) : readLoop img bytes (n + d) st = some r := by
  induction n generalizing st with
  | zero => cases h
  | succ n ih =>
    rw [readLoop] at h
    rw [Nat.add_right_comm, readLoop]
    split at h
    · next hdone => rwa [if_pos hdone]
    · next hmore =>
      obtain ⟨st', hturn, hrest⟩ := Option.bind_eq_some_iff.mp h
      rw [if_neg hmore, hturn]
      exact ih hrest

theorem readTurn_from {P : UInt8 → Prop} {low : ℕ} (hlow : low ≤ st.dataBlock)
    (hdata : ∀ addr word b, low ≤ addr → word ≠ 0 → img.block addr word = some b → ∀ x ∈ b.data, P x)
    (hout : ∀ x ∈ st.out, P x) (h : readTurn img bytes st = some st') :
    low ≤ st'.dataBlock ∧ ∀ x ∈ st'.out, P x := by
  rw [readTurn] at h
  split at h
  · cases h
  · split at h
    · cases h
    · split at h
      · cases h
        exact ⟨hlow, hout⟩
      · next hword =>
        dsimp only at h
        split at h
        · cases h
          exact ⟨Nat.le_add_right_of_le hlow, hout⟩
        · split at h
          · cases h
          · next b hget =>
            split at h
            · cases h
            · split at h
              · cases h
              · cases h
                refine ⟨Nat.le_add_right_of_le hlow, fun x hx => ?_⟩
                exact (List.mem_append.mp hx).elim (hout x) fun hx =>
                  hdata _ _ b hlow hword hget x (List.mem_of_mem_drop (List.mem_of_mem_take hx))

theorem readLoop_from {P : UInt8 → Prop} {low : ℕ} (hlow : low ≤ st.dataBlock)
    (hdata : ∀ addr word b, low ≤ addr → word ≠ 0 → img.block addr word = some b → ∀ x ∈ b.data, P x)
    (hout : ∀ x ∈ st.out, P x) (h : readLoop img bytes n st = some r) : bytes ≤ r.length ∧ ∀ x ∈ r, P x := by
  induction n generalizing st with
  | zero => cases h
  | succ n ih =>
    rw [readLoop] at h
    split at h
    · next hdone =>
      obtain rfl := Option.some.inj h
      exact ⟨hdone, hout⟩
    · obtain ⟨st', hturn, hrest⟩ := Option.bind_eq_some_iff.mp h
      obtain ⟨hlow', hout'⟩ := readTurn_from hlow hdata hout hturn
      exact ih hlow' hout' hrest

theorem readTurn_length_le (hout : st.out.length ≤ bytes) (h : readTurn img bytes st = some st') :
    st'.out.length ≤ bytes := by
  rw [readTurn] at h
  split at h
  · cases h
  · split at h
    · cases h
    · split at h
      · cases h
        exact hout
      · dsimp only at h
        split at h
        · cases h
          exact hout
        · split at h
          · cases h
          · split at h
            · cases h
            · split at h
              · cases h
              · cases h
                dsimp only
                rw [List.length_append, List.length_take]
                omega

theorem readLoop_length_le (hout : st.out.length ≤ bytes) (h : readLoop img bytes n st = some r) :
    r.length ≤ bytes := by
  induction n generalizing st with
  | zero => cases h
  | succ n ih =>
    rw [readLoop] at h
    split at h
    · obtain rfl := Option.some.inj h
      exact hout
    · obtain ⟨st', hturn, hrest⟩ := Option.bind_eq_some_iff.mp h
      exact ih (readTurn_length_le hout hturn) hrest

theorem readFromInode_length_le (h : readFromInode img nod n length readPos = some (.ok r)) :
    r.length ≤ min length.toNat ((nod.size + 2 ^ 32 - readPos.toNat) % 2 ^ 32) := by
  rw [readFromInode] at h
  split at h
  · cases h
  · split at h
    · cases h
    · split at h
      · cases h
      · dsimp only at h
        split at h
        · cases h
          exact Nat.zero_le _
        · split at h
          · obtain ⟨e, -, hrest⟩ := Option.bind_eq_some_iff.mp h
            cases e with
            | error e => cases hrest
            | ok at' =>
              obtain ⟨r', hloop, hr⟩ := Option.map_eq_some_iff.mp hrest
              cases hr
              exact readLoop_length_le (Nat.zero_le _) hloop
          · obtain ⟨r', hloop, hr⟩ := Option.map_eq_some_iff.mp h
            cases hr
            exact readLoop_length_le (Nat.zero_le _) hloop

-- Turns over a well-formed file

structure AtBlock (img : Image) (nod : FileInode) (words : List ℕ) (i : ℕ) (st : Reading) : Prop where
  rest : Follows img st.rest ((words.drop i).flatMap (leBytes 4))
  dataBlock : st.dataBlock = dataAddr nod words i

theorem dataAddr_succ {i : ℕ} (h : words[i]? = some w) :
    dataAddr nod words (i + 1) = dataAddr nod words i + storedSize w := by
  rw [dataAddr, dataAddr, List.take_add_one, h, Option.toList_some, List.map_append, List.sum_append, List.map_singleton,
    List.sum_singleton, Nat.add_assoc]

theorem AtBlock.read {i : ℕ} (h : AtBlock img nod words i st) (hf : RegularFile img nod words) (hw : words[i]? = some w) :
    ∃ lenword rest, readMetadata img st.rest 4 = some (lenword, rest) ∧ lenword.length = 4 ∧ leNat lenword = w ∧
      Follows img rest ((words.drop (i + 1)).flatMap (leBytes 4)) := by
  obtain ⟨hi, hget⟩ := List.getElem?_eq_some_iff.mp hw
  have hdrop : words.drop i = w :: words.drop (i + 1) := by
    rw [List.drop_eq_getElem_cons hi, hget]
  have hrest := h.rest
  rw [hdrop] at hrest
  exact readMetadata_word hrest (hf.word_lt w (List.mem_of_getElem? hw))

theorem readTurn_sparse (bytes : ℕ) {i : ℕ} (h : AtBlock img nod words i st) (hf : RegularFile img nod words)
    (hw : words[i]? = some 0) : ∃ rest, readTurn img bytes st = some { st with rest } ∧
      AtBlock img nod words (i + 1) { st with rest } := by
  obtain ⟨lenword, rest, hread, hlen, hword, hrest⟩ := h.read hf hw
  refine ⟨rest, ?_, hrest, ?_⟩
  · rw [readTurn, hread]
    dsimp only
    rw [if_neg (Nat.not_lt.mpr (Nat.le_of_eq hlen.symm)), if_pos hword]
  · rw [dataAddr_succ hw]
    exact h.dataBlock

theorem readTurn_skip (bytes : ℕ) {i : ℕ} (h : AtBlock img nod words i st) (hf : RegularFile img nod words)
    (hw : words[i]? = some w) (hne : w ≠ 0) (hseek : 0 < st.seek) :
    ∃ rest, readTurn img bytes st = some { st with rest, dataBlock := dataAddr nod words (i + 1), seek := st.seek - 1 } ∧
      AtBlock img nod words (i + 1) { st with rest, dataBlock := dataAddr nod words (i + 1), seek := st.seek - 1 } := by
  obtain ⟨lenword, rest, hread, hlen, hword, hrest⟩ := h.read hf hw
  refine ⟨rest, ?_, hrest, rfl⟩
  rw [readTurn, hread]
  dsimp only
  rw [if_neg (Nat.not_lt.mpr (Nat.le_of_eq hlen.symm)), hword, if_neg hne, if_pos hseek, h.dataBlock, dataAddr_succ hw]

theorem fileByte_stored {i o : ℕ} {b : Blk} (hw : words[i]? = some w) (hne : w ≠ 0)
    (hget : img.block (dataAddr nod words i) w = some b) (ho : o < img.blockSize) :
    fileByte img nod words (i * img.blockSize + o) = b.data.getD o 0 := by
  have hdiv : (i * img.blockSize + o) / img.blockSize = i := by
    rw [Nat.add_comm, Nat.add_mul_div_right _ _ (blockSize_pos img), Nat.div_eq_of_lt ho, Nat.zero_add]
  have hmod : (i * img.blockSize + o) % img.blockSize = o := by
    rw [Nat.mul_add_mod_self_right, Nat.mod_eq_of_lt ho]
  obtain ⟨v, rfl⟩ := Nat.exists_eq_add_one_of_ne_zero hne
  rw [fileByte, hdiv, hmod, hw]
  change ((img.block (dataAddr nod words i) (v + 1)).map _).getD 0 = _
  rw [hget]
  rfl

theorem copied_eq {i o seg : ℕ} {b : Blk} (hw : words[i]? = some w) (hne : w ≠ 0)
    (hget : img.block (dataAddr nod words i) w = some b) (hseg : o + seg ≤ b.data.length)
    (hlen : b.data.length ≤ img.blockSize) :
    (b.data.drop o).take seg = (List.range' (i * img.blockSize + o) seg).map (fileByte img nod words) := by
  apply List.ext_getElem
  · rw [List.length_take, List.length_drop, List.length_map, List.length_range']
    omega
  · intro k hk _
    rw [List.length_take] at hk
    have hlt : o + k < b.data.length := by omega
    rw [List.getElem_take, List.getElem_drop, List.getElem_map, List.getElem_range', Nat.one_mul, Nat.add_assoc,
      fileByte_stored hw hne hget (Nat.lt_of_lt_of_le hlt hlen), List.getD_eq_getElem?_getD, List.getElem?_eq_getElem hlt, Option.getD_some]

theorem readTurn_copy (bytes : ℕ) {i : ℕ} (h : AtBlock img nod words i st) (hf : RegularFile img nod words)
    (hw : words[i]? = some w) (hne : w ≠ 0) (hseek : st.seek ≤ 0) :
    ∃ rest b, img.block (dataAddr nod words i) w = some b ∧ b.data.length = blockLength img nod i ∧
      Follows img rest ((words.drop (i + 1)).flatMap (leBytes 4)) ∧
      readTurn img bytes st =
        if 2 ^ 31 ≤ bytes - st.out.length then none
        else if blockLength img nod i <
          st.pos % img.blockSize + min (bytes - st.out.length) (blockLength img nod i) then none
        else some ⟨rest, dataAddr nod words (i + 1), st.seek - 1,
          (st.pos + min (bytes - st.out.length) (blockLength img nod i)) % 2 ^ 32,
          st.out ++ (b.data.drop (st.pos % img.blockSize)).take (min (bytes - st.out.length) (blockLength img nod i))⟩ := by
  obtain ⟨lenword, rest, hread, hlen, hword, hrest⟩ := h.read hf hw
  obtain ⟨b, hget, hblen⟩ := hf.block i w hw hne
  refine ⟨rest, b, hget, hblen, hrest, ?_⟩
  rw [readTurn, hread]
  dsimp only
  rw [if_neg (Nat.not_lt.mpr (Nat.le_of_eq hlen.symm)), hword, if_neg hne, if_neg (Int.not_lt.mpr hseek), h.dataBlock,
    hget]
  dsimp only
  rw [hblen, dataAddr_succ hw]
  rfl

/-- **The rest of a read is exact**, if it is of stored blocks and goes on to another block from the
start of one only. -/
theorem readLoop_exact (hf : RegularFile img nod words) {i o k : ℕ} (h : AtBlock img nod words i st)
    (hpos : st.pos = i * img.blockSize + o) (ho : o < img.blockSize) (hseek : st.seek ≤ 0)
    (hbytes : bytes = st.out.length + k) (hsize : st.pos + k ≤ nod.size) (hcount : k < 2 ^ 31)
    (hfull : o = 0 ∨ o + k ≤ img.blockSize)
    (hstored : ∀ j, i ≤ j → j * img.blockSize < st.pos + k → words[j]? ≠ some 0) :
    ∃ n, readLoop img bytes n st = some (st.out ++ (List.range' st.pos k).map (fileByte img nod words)) := by
  induction k using Nat.strong_induction_on generalizing i o st with
  | _ k ih =>
    by_cases hk : k = 0
    · subst hk
      refine ⟨1, ?_⟩
      rw [readLoop, if_pos (show bytes ≤ st.out.length from Nat.le_of_eq hbytes), List.range'_zero, List.map_nil,
        List.append_nil]
    · have hin : i * img.blockSize < nod.size := by omega
      have hi := hf.enough i hin
      have hw : words[i]? = some words[i] := List.getElem?_eq_getElem hi
      have hne : words[i] ≠ 0 := fun hzero => hstored i (Nat.le_refl i) (by omega) (by rw [hw, hzero])
      obtain ⟨rest, b, hget, hblen, hrest, hturn⟩ := readTurn_copy bytes h hf hw hne hseek
      have hsz := hf.size_lt
      have hleft : bytes - st.out.length = k := by omega
      have hmod : st.pos % img.blockSize = o := by
        rw [hpos, Nat.mul_add_mod_self_right, Nat.mod_eq_of_lt ho]
      have hlen : blockLength img nod i = min img.blockSize (nod.size - i * img.blockSize) := rfl
      rw [hleft, hmod, if_neg (Nat.not_le.mpr hcount), if_neg (by omega)] at hturn
      have hcopy : (b.data.drop o).take (min k (blockLength img nod i)) =
          (List.range' st.pos (min k (blockLength img nod i))).map (fileByte img nod words) := by
        rw [hpos]
        exact copied_eq hw hne hget (by omega) (by omega)
      rw [hcopy] at hturn
      by_cases hlast : k ≤ blockLength img nod i
      · refine ⟨2, ?_⟩
        rw [readLoop, if_neg (by omega), hturn, Nat.min_eq_left hlast]
        dsimp only [Option.bind_some]
        rw [readLoop, if_pos]
        dsimp only
        rw [List.length_append, List.length_map, List.length_range', hbytes]
      · -- the block is full and is copied from its start
        obtain rfl : o = 0 := by omega
        have hfullb : blockLength img nod i = img.blockSize := by omega
        rw [hfullb, Nat.min_eq_right (by omega), Nat.mod_eq_of_lt (by omega)] at hturn
        have hnext : st.pos + img.blockSize = (i + 1) * img.blockSize + 0 := by
          rw [Nat.succ_mul]
          omega
        have hpos' := blockSize_pos img
        have hat : AtBlock img nod words (i + 1) ⟨rest, dataAddr nod words (i + 1), st.seek - 1, st.pos + img.blockSize,
            st.out ++ (List.range' st.pos img.blockSize).map (fileByte img nod words)⟩ := ⟨hrest, rfl⟩
        obtain ⟨n, hn⟩ := ih (k - img.blockSize) (by omega) hat hnext hpos' (by dsimp only; omega)
          (by dsimp only; rw [List.length_append, List.length_map, List.length_range']; omega) (by dsimp only; omega)
          (by omega) (.inl rfl) (fun j hj hlt => hstored j (by omega) (by dsimp only at hlt; omega))
        refine ⟨n + 1, ?_⟩
        rw [readLoop, if_neg (by omega), hturn]
        dsimp only [Option.bind_some]
        rw [hn]
        dsimp only
        rw [List.append_assoc, ← List.map_append, List.range'_append_1, Nat.add_sub_cancel' (by omega)]

-- A whole read

theorem RegularFile.not_refused (hf : RegularFile img nod words) : readFromInode img nod n length readPos =
    if min length.toNat ((nod.size + 2 ^ 32 - readPos.toNat) % 2 ^ 32) = 0 then some (.ok [])
    else if 1 < readPos.toNat / img.blockSize then
      (seekBlockList img nod.rest (readPos.toNat / img.blockSize - 1)).bind fun
        | .error e => some (.error e)
        | .ok (dataBlock, rest) =>
          (readLoop img (min length.toNat ((nod.size + 2 ^ 32 - readPos.toNat) % 2 ^ 32)) n
            ⟨rest, dataBlock + nod.start, 0, readPos.toNat, []⟩).map .ok
    else
      (readLoop img (min length.toNat ((nod.size + 2 ^ 32 - readPos.toNat) % 2 ^ 32)) n
        ⟨nod.rest, nod.start, (readPos.toNat / img.blockSize : ℕ), readPos.toNat, []⟩).map .ok := by
  rw [readFromInode, if_neg (by rw [hf.type]; decide), if_neg (not_not.mpr hf.type), if_neg (not_not.mpr hf.fragment)]
  rfl

theorem wanted_eq (length : UInt32) (hf : RegularFile img nod words) (h : readPos.toNat ≤ nod.size) :
    min length.toNat ((nod.size + 2 ^ 32 - readPos.toNat) % 2 ^ 32) = readLength nod length.toNat readPos.toNat := by
  have hsize := hf.size_lt
  have hsub : nod.size + 2 ^ 32 - readPos.toNat = nod.size - readPos.toNat + 2 ^ 32 := by omega
  rw [readLength, hsub, Nat.add_mod_right, Nat.mod_eq_of_lt (by omega)]

theorem readFromInode_start (hf : RegularFile img nod words) (hlt : readPos.toNat < nod.size) (hlen : 0 < length.toNat)
    (hfirst : readPos.toNat / img.blockSize = 1 → words[0]? ≠ some 0) :
    ∃ d st, AtBlock img nod words (readPos.toNat / img.blockSize) st ∧ st.pos = readPos.toNat ∧ st.seek ≤ 0 ∧ st.out = [] ∧
      ∀ n, readFromInode img nod (n + d) length readPos =
        (readLoop img (readLength nod length.toNat readPos.toNat) n st).map .ok := by
  have hwanted := wanted_eq length hf (Nat.le_of_lt hlt)
  have hcount : 0 < readLength nod length.toNat readPos.toNat := Nat.lt_min.mpr ⟨hlen, Nat.sub_pos_of_lt hlt⟩
  have hbegin : readPos.toNat / img.blockSize * img.blockSize < nod.size :=
    Nat.lt_of_le_of_lt (Nat.div_mul_le_self _ _) hlt
  have hin := hf.enough _ hbegin
  have hat₀ : ∀ seek pos, AtBlock img nod words 0 ⟨nod.rest, nod.start, seek, pos, []⟩ := fun _ _ => ⟨hf.list, rfl⟩
  rcases Nat.lt_trichotomy (readPos.toNat / img.blockSize) 1 with hk | hk | hk
  · have hzero := Nat.lt_one_iff.mp hk
    refine ⟨0, ⟨nod.rest, nod.start, 0, readPos.toNat, []⟩, hzero ▸ hat₀ _ _, rfl, Int.le_refl 0, rfl, fun n => ?_⟩
    rw [hf.not_refused, hwanted, if_neg hcount.ne', if_neg (Nat.not_lt.mpr (Nat.le_of_lt hk)), hzero]
    rfl
  · have hw : words[0]? = some words[0] := List.getElem?_eq_getElem (by omega)
    have hne : words[0] ≠ 0 := fun hzero => hfirst hk (by rw [hw, hzero])
    obtain ⟨rest, hturn, hat⟩ := readTurn_skip (readLength nod length.toNat readPos.toNat)
      (hat₀ (1 : ℕ) readPos.toNat) hf hw hne Int.one_pos
    have hat' : AtBlock img nod words 1 ⟨rest, dataAddr nod words 1, 0, readPos.toNat, []⟩ := hat
    refine ⟨1, _, by rw [hk]; exact hat', rfl, Int.le_refl 0, rfl, fun n => ?_⟩
    have hmore : ¬ readLength nod length.toNat readPos.toNat ≤ ([] : List UInt8).length := Nat.not_le.mpr hcount
    rw [hf.not_refused, hwanted, if_neg hcount.ne', hk, if_neg (Nat.lt_irrefl 1), readLoop, if_neg hmore, hturn]
    rfl
  · have hws : (words.take (readPos.toNat / img.blockSize)).length = readPos.toNat / img.blockSize :=
      List.length_take_of_le (Nat.le_of_lt hin)
    have hsplit := hf.list
    rw [← List.take_append_drop (readPos.toNat / img.blockSize) words] at hsplit
    obtain ⟨rest, hseek, hrest⟩ := seekBlockList_spec hsplit (fun w hw => hf.word_lt w (List.mem_of_mem_take hw))
      (fun hnil => by rw [hnil, List.length_nil] at hws; omega)
    rw [hws] at hseek
    refine ⟨0, ⟨rest, dataAddr nod words (readPos.toNat / img.blockSize), 0, readPos.toNat, []⟩, ⟨hrest, rfl⟩, rfl,
      Int.le_refl 0, rfl, fun n => ?_⟩
    rw [hf.not_refused, hwanted, if_neg hcount.ne', if_pos hk, hseek, Option.bind_some, dataAddr, Nat.add_comm nod.start]
    rfl

theorem readsExactly_of_readsWell (hf : RegularFile img nod words)
    (h : ReadsWell img.blockSize nod words length.toNat readPos.toNat) : ReadsExactly img nod words length readPos := by
  rw [ReadsExactly]
  by_cases hempty : length.toNat = 0 ∨ readPos.toNat = nod.size
  · have hzero : readLength nod length.toNat readPos.toNat = 0 := by
      rw [readLength]
      omega
    have hnone : min length.toNat ((nod.size + 2 ^ 32 - readPos.toNat) % 2 ^ 32) = 0 := by
      obtain hlen | hpos := hempty
      · rw [hlen, Nat.zero_min]
      · rw [wanted_eq length hf (Nat.le_of_eq hpos), hzero]
    refine ⟨0, ?_⟩
    rw [hf.not_refused, if_pos hnone, hzero]
    rfl
  · obtain ⟨hlt, hcount, hfull, hstored, hfirst⟩ := (h.resolve_left fun h => hempty (.inl h)).resolve_left fun h =>
      hempty (.inr h)
    obtain ⟨d, st, hat, hpos, hseek, hout, hstart⟩ := readFromInode_start hf hlt
      (Nat.pos_of_ne_zero fun h => hempty (.inl h)) hfirst
    obtain ⟨n, hread⟩ := readLoop_exact hf hat (hpos.trans (Nat.div_add_mod' _ _).symm)
      (Nat.mod_lt _ (blockSize_pos img)) hseek (by rw [hout, List.length_nil, Nat.zero_add])
      (by rw [hpos, readLength]; omega) hcount hfull (hpos ▸ hstored)
    refine ⟨n + d, ?_⟩
    rw [hstart, hread, hout, hpos, List.nil_append]
    rfl

theorem readFromInode_loop (hf : RegularFile img nod words)
    (hwanted : 0 < min length.toNat ((nod.size + 2 ^ 32 - readPos.toNat) % 2 ^ 32))
    (h : readFromInode img nod n length readPos = some (.ok r)) :
    ∃ st, st.out = [] ∧
      readLoop img (min length.toNat ((nod.size + 2 ^ 32 - readPos.toNat) % 2 ^ 32)) n st = some r ∧
      ∀ d, readFromInode img nod (n + d) length readPos = some (.ok r) := by
  rw [hf.not_refused, if_neg hwanted.ne'] at h
  split at h
  · next hk =>
    obtain ⟨e, hseek, hrest⟩ := Option.bind_eq_some_iff.mp h
    cases e with
    | error e => cases hrest
    | ok at' =>
      obtain ⟨r', hread, hr⟩ := Option.map_eq_some_iff.mp hrest
      cases hr
      refine ⟨_, rfl, hread, fun d => ?_⟩
      rw [hf.not_refused, if_neg hwanted.ne', if_pos hk, hseek]
      exact congrArg (Option.map Except.ok) (readLoop_mono hread d)
  · next hk =>
    obtain ⟨r', hread, hr⟩ := Option.map_eq_some_iff.mp h
    cases hr
    refine ⟨_, rfl, hread, fun d => ?_⟩
    rw [hf.not_refused, if_neg hwanted.ne', if_neg hk]
    exact congrArg (Option.map Except.ok) (readLoop_mono hread d)

-- Other bytes in the blocks

variable {c : ℕ → ℕ → UInt8} {i : ℕ}

theorem refill_meta {addr : ℕ} : (img.refill c).block addr 0 = img.block addr 0 := rfl

theorem Follows.refill {s : List UInt8} (h : Follows img p s) : Follows (img.refill c) p s := by
  induction h with
  | nil p => exact .nil p
  | @inside p b s hin hget hoff _ ih =>
    have hget' : (img.refill c).block p.block 0 = some b := refill_meta.trans hget
    exact @Follows.inside (img.refill c) p b s hin hget' hoff ih
  | @next p b s hin hget hend _ ih =>
    have hget' : (img.refill c).block p.block 0 = some b := refill_meta.trans hget
    exact @Follows.next (img.refill c) p b s hin hget' hend ih

theorem refill_block (hne : w ≠ 0) {addr : ℕ} : (img.refill c).block addr w =
    (img.block addr w).map fun b => { b with data := (List.range b.data.length).map (c addr) } := if_neg hne

theorem RegularFile.refill (hf : RegularFile img nod words) : RegularFile (img.refill c) nod words where
  type := hf.type
  fragment := hf.fragment
  size_lt := hf.size_lt
  list := hf.list.refill
  word_lt := hf.word_lt
  stored := hf.stored
  enough := hf.enough
  block i w hw hne := by
    obtain ⟨b, hget, hlen⟩ := hf.block i w hw hne
    refine ⟨_, by rw [refill_block hne, hget]; rfl, ?_⟩
    rw [List.length_map, List.length_range, hlen]
    rfl

theorem refill_mem {addr : ℕ} {b : Blk} {x : UInt8} (hne : w ≠ 0) (hget : (img.refill c).block addr w = some b)
    (hx : x ∈ b.data) : ∃ j, x = c addr j := by
  rw [refill_block hne] at hget
  obtain ⟨b', -, rfl⟩ := Option.map_eq_some_iff.mp hget
  obtain ⟨j, -, hj⟩ := List.mem_map.mp hx
  exact ⟨j, hj.symm⟩

theorem fileByte_refill {o : ℕ} (hf : RegularFile img nod words) (hw : words[i]? = some w) (hne : w ≠ 0)
    (ho : o < blockLength img nod i) :
    fileByte (img.refill c) nod words (i * img.blockSize + o) = c (dataAddr nod words i) o := by
  obtain ⟨b, hget, hlen⟩ := hf.block i w hw hne
  have hget' : (img.refill c).block (dataAddr nod words i) w =
      some { b with data := (List.range b.data.length).map (c (dataAddr nod words i)) } := by
    rw [refill_block hne, hget]
    rfl
  have hin : o < img.blockSize := Nat.lt_of_lt_of_le ho (Nat.min_le_left _ _)
  have hbyte := fileByte_stored hw hne hget' hin
  rw [← hlen] at ho
  rwa [List.getD_eq_getElem?_getD, List.getElem?_map, List.getElem?_range ho] at hbyte

theorem fileByte_sparse {x : ℕ} (hw : words[x / img.blockSize]? = some 0) : fileByte img nod words x = 0 := by
  rw [fileByte, hw]
  rfl

-- Reads that are not exact

theorem not_exact_past (hf : RegularFile img nod words) (hlen : 0 < length.toNat) (hpast : nod.size < readPos.toNat) :
    ¬ ReadsExactly img nod words length readPos := by
  rintro ⟨n, hread⟩
  have hsize := readPos.toNat_lt
  have hwanted : 0 < min length.toNat ((nod.size + 2 ^ 32 - readPos.toNat) % 2 ^ 32) := by
    rw [Nat.mod_eq_of_lt (by omega)]
    omega
  obtain ⟨st, hout, hloop, -⟩ := readFromInode_loop hf hwanted hread
  have hdata : ∀ addr word b, 0 ≤ addr → word ≠ 0 → img.block addr word = some b → ∀ x ∈ b.data, True :=
    fun _ _ _ _ _ _ _ _ => trivial
  have hlong := (readLoop_from (Nat.zero_le _) hdata (fun _ _ => trivial) hloop).1
  have hnone : readLength nod length.toNat readPos.toNat = 0 := by
    rw [readLength]
    omega
  rw [hnone] at hlong
  exact absurd hlong (Nat.not_le.mpr hwanted)

theorem readLength_pos (nod : FileInode) (hlen : 0 < length.toNat) (hlt : readPos.toNat < nod.size) :
    0 < readLength nod length.toNat readPos.toNat := Nat.lt_min.mpr ⟨hlen, Nat.sub_pos_of_lt hlt⟩

theorem not_exact_sparse (hf : RegularFile img nod words) (hlen : 0 < length.toNat) (hlt : readPos.toNat < nod.size)
    (hfrom : readPos.toNat / img.blockSize ≤ i)
    (hto : i * img.blockSize < readPos.toNat + readLength nod length.toNat readPos.toNat) (hw : words[i]? = some 0) :
    ¬ ReadsExactly (img.refill fun _ _ => 1) nod words length readPos := by
  rintro ⟨n, hread⟩
  have hwanted := wanted_eq length hf (Nat.le_of_lt hlt)
  have hcount := readLength_pos nod hlen hlt
  obtain ⟨st, hout, hloop, -⟩ := readFromInode_loop hf.refill (by rwa [hwanted]) hread
  have hdata : ∀ addr word b, 0 ≤ addr → word ≠ 0 → (img.refill fun _ _ => 1).block addr word = some b →
      ∀ x ∈ b.data, x = 1 := fun addr word b _ hne hget x hx => (refill_mem hne hget hx).choose_spec
  have hones := (readLoop_from (Nat.zero_le _) hdata (by rw [hout]; exact nofun) hloop).2
  -- a byte of the block that is wanted
  obtain ⟨x, hx, hdiv⟩ : ∃ x, x ∈ List.range' readPos.toNat (readLength nod length.toNat readPos.toNat) ∧
      x / img.blockSize = i := by
    have hbs := blockSize_pos img
    rcases Nat.lt_or_ge (i * img.blockSize) readPos.toNat with hbefore | hafter
    · refine ⟨readPos.toNat, List.mem_range'_1.mpr ⟨Nat.le_refl _, Nat.lt_add_of_pos_right hcount⟩, ?_⟩
      exact Nat.le_antisymm hfrom ((Nat.le_div_iff_mul_le hbs).mpr (Nat.le_of_lt hbefore))
    · exact ⟨i * img.blockSize, List.mem_range'_1.mpr ⟨hafter, hto⟩, Nat.mul_div_cancel _ hbs⟩
  have hzero : fileByte (img.refill fun _ _ => 1) nod words x = 0 := fileByte_sparse (by rw [← hdiv] at hw; exact hw)
  have hone := hones _ (List.mem_map_of_mem hx)
  rw [hzero] at hone
  exact absurd hone (by decide)

theorem not_exact_second (hf : RegularFile img nod words) (hlen : 0 < length.toNat) (hlt : readPos.toNat < nod.size)
    (hsecond : readPos.toNat / img.blockSize = 1) (hfirst : words[0]? = some 0) (hw : words[1]? = some w) (hne : w ≠ 0) :
    ¬ ReadsExactly (img.refill fun addr _ => if addr ≤ dataAddr nod words 1 then 2 else 1) nod words length readPos := by
  rintro ⟨n, hread⟩
  have hwanted := wanted_eq length hf (Nat.le_of_lt hlt)
  have hcount := readLength_pos nod hlen hlt
  have hf' : RegularFile (img.refill fun addr _ => if addr ≤ dataAddr nod words 1 then 2 else 1) nod words := hf.refill
  have hmore : ¬ readLength nod length.toNat readPos.toNat ≤ ([] : List UInt8).length := Nat.not_le.mpr hcount
  have hat : AtBlock (img.refill fun addr _ => if addr ≤ dataAddr nod words 1 then 2 else 1) nod words 0
      ⟨nod.rest, nod.start, (1 : ℕ), readPos.toNat, []⟩ := ⟨hf'.list, rfl⟩
  -- the sparse block is not counted, so that the second one is skipped
  obtain ⟨rest₁, hturn₁, hat₁⟩ := readTurn_sparse (readLength nod length.toNat readPos.toNat) hat hf' hfirst
  obtain ⟨rest₂, hturn₂, hat₂⟩ := readTurn_skip (readLength nod length.toNat readPos.toNat) hat₁ hf' hw hne
    Int.one_pos
  obtain ⟨-, -, -, hlater⟩ := readFromInode_loop hf' (by rwa [hwanted]) hread
  have hlater₂ := hlater 2
  rw [hf'.not_refused, hwanted, if_neg hcount.ne'] at hlater₂
  rw [show (img.refill fun addr _ => if addr ≤ dataAddr nod words 1 then 2 else 1).blockSize = img.blockSize from rfl,
    hsecond, if_neg (Nat.lt_irrefl 1), readLoop, if_neg hmore, hturn₁, Option.bind_some, readLoop, if_neg hmore, hturn₂,
    Option.bind_some] at hlater₂
  obtain ⟨r, hloop, hr⟩ := Option.map_eq_some_iff.mp hlater₂
  have hafter : dataAddr nod words 1 < dataAddr nod words 2 := by
    rw [dataAddr_succ hw]
    exact Nat.lt_add_of_pos_right (hf.stored w (List.mem_of_getElem? hw) hne)
  have hdata : ∀ addr word b, dataAddr nod words 2 ≤ addr → word ≠ 0 →
      (img.refill fun addr _ => if addr ≤ dataAddr nod words 1 then 2 else 1).block addr word = some b →
      ∀ x ∈ b.data, x = 1 := fun addr word b hlow hword hget x hx => by
    obtain ⟨j, rfl⟩ := refill_mem hword hget hx
    exact if_neg (by omega)
  have hones := (readLoop_from (Nat.le_refl (dataAddr nod words 2)) hdata (List.forall_mem_nil _) hloop).2
  -- but the first byte is of the second block
  have hoff : readPos.toNat % img.blockSize < blockLength img nod 1 := by
    have hmod := Nat.mod_lt readPos.toNat (blockSize_pos img)
    have hdiv := Nat.div_add_mod' readPos.toNat img.blockSize
    rw [hsecond] at hdiv
    exact Nat.lt_min.mpr ⟨hmod, by omega⟩
  have hbyte := fileByte_refill (c := fun addr _ => if addr ≤ dataAddr nod words 1 then 2 else 1) hf hw hne hoff
  rw [← hsecond, Nat.div_add_mod', hsecond, if_pos (Nat.le_refl _)] at hbyte
  cases hr
  have hone := hones _ (List.mem_map_of_mem (List.mem_range'_1.mpr ⟨Nat.le_refl _, Nat.lt_add_of_pos_right hcount⟩))
  rw [hbyte] at hone
  exact absurd hone (by decide)

/-- Where the bytes are too many for an `int`, or go on past a block's end from inside it, none are read. -/
theorem not_exact_copy (hf : RegularFile img nod words) (hlen : 0 < length.toNat) (hlt : readPos.toNat < nod.size)
    (hfirst : readPos.toNat / img.blockSize = 1 → words[0]? ≠ some 0)
    (hw : words[readPos.toNat / img.blockSize]? ≠ some 0)
    (hbad : 2 ^ 31 ≤ readLength nod length.toNat readPos.toNat ∨ readPos.toNat % img.blockSize ≠ 0 ∧
      img.blockSize < readPos.toNat % img.blockSize + readLength nod length.toNat readPos.toNat) :
    ¬ ReadsExactly img nod words length readPos := by
  rintro ⟨n, hread⟩
  have hwanted := wanted_eq length hf (Nat.le_of_lt hlt)
  have hcount := readLength_pos nod hlen hlt
  obtain ⟨d, st, hat, hpos, hseek, hout, hstart⟩ := readFromInode_start hf hlt hlen hfirst
  obtain ⟨-, -, -, hlater⟩ := readFromInode_loop hf (by rwa [hwanted]) hread
  have hlater := hlater d
  rw [hstart] at hlater
  obtain ⟨r, hloop, -⟩ := Option.map_eq_some_iff.mp hlater
  have hbegin : readPos.toNat / img.blockSize * img.blockSize < nod.size :=
    Nat.lt_of_le_of_lt (Nat.div_mul_le_self _ _) hlt
  have hi := hf.enough _ hbegin
  have hword : words[readPos.toNat / img.blockSize]? = some words[readPos.toNat / img.blockSize] :=
    List.getElem?_eq_getElem hi
  have hne : words[readPos.toNat / img.blockSize] ≠ 0 := fun hzero => hw (by rw [hword, hzero])
  obtain ⟨rest, b, hget, hblen, hrest, hturn⟩ :=
    readTurn_copy (readLength nod length.toNat readPos.toNat) hat hf hword hne hseek
  have hfault : readTurn img (readLength nod length.toNat readPos.toNat) st = none := by
    rw [hturn, hout, hpos, List.length_nil, Nat.sub_zero]
    split
    · rfl
    · next hint =>
      obtain ⟨hoff, hover⟩ := hbad.resolve_left hint
      have hdiv := Nat.div_add_mod' readPos.toNat img.blockSize
      have hlong : readLength nod length.toNat readPos.toNat ≤ nod.size - readPos.toNat := Nat.min_le_right _ _
      have hfull : blockLength img nod (readPos.toNat / img.blockSize) = img.blockSize := by
        rw [blockLength]
        omega
      rw [hfull, if_pos (by omega)]
  cases n with
  | zero => cases hloop
  | succ n =>
    rw [readLoop, if_neg (by rw [hout]; exact Nat.not_le.mpr hcount), hfault] at hloop
    cases hloop

/-- **Reads.** Whatever the blocks of a regular file hold, a read gives the file's bytes there, if and
only if it is empty, or is of stored blocks alone, fits an `int`, goes on to another block from the
start of one only, and is not from the second block after a sparse one. -/
theorem readsExactly_iff (hf : RegularFile img nod words) (length readPos : UInt32) :
    (∀ c, ReadsExactly (img.refill c) nod words length readPos) ↔
      ReadsWell img.blockSize nod words length.toNat readPos.toNat := by
  refine ⟨fun hall => by_contra fun hbad => ?_, fun h c => readsExactly_of_readsWell hf.refill h⟩
  rw [ReadsWell, not_or, not_or] at hbad
  obtain ⟨hlen, hend, hbad⟩ := hbad
  have hlen := Nat.pos_of_ne_zero hlen
  rcases Nat.lt_or_gt_of_ne hend with hlt | hpast
  · by_cases hstored : ∀ i, readPos.toNat / img.blockSize ≤ i →
        i * img.blockSize < readPos.toNat + readLength nod length.toNat readPos.toNat → words[i]? ≠ some 0
    · have hcount := readLength_pos nod hlen hlt
      have hbegin : readPos.toNat / img.blockSize * img.blockSize ≤ readPos.toNat := Nat.div_mul_le_self _ _
      have hblock := hstored _ (Nat.le_refl _) (by omega)
      by_cases hfirst : readPos.toNat / img.blockSize = 1 → words[0]? ≠ some 0
      · refine not_exact_copy (hf.refill (c := fun _ _ => 0)) hlen hlt hfirst hblock ?_ (hall _)
        by_contra hgood
        rw [not_or, Nat.not_le, not_and_or, not_not, Nat.not_lt] at hgood
        exact hbad ⟨hlt, hgood.1, hgood.2, hstored, hfirst⟩
      · rw [Classical.not_imp, not_not] at hfirst
        rw [hfirst.1] at hblock
        have hi := hf.enough 1 (by rw [← hfirst.1]; omega)
        have hword : words[1]? = some words[1] := List.getElem?_eq_getElem hi
        exact not_exact_second hf hlen hlt hfirst.1 hfirst.2 hword (fun hzero => hblock (by rw [hword, hzero])) (hall _)
    · obtain ⟨i, hi⟩ := not_forall.mp hstored
      rw [Classical.not_imp, Classical.not_imp, not_not] at hi
      exact not_exact_sparse hf hlen hlt hi.1 hi.2.1 hi.2.2 (hall _)
  · exact not_exact_past (hf.refill (c := fun _ _ => 0)) hlen hpast (hall _)

-- A file of two blocks

def twoBlocks : Image where
  length := 8400
  blockLog := 12
  block addr word :=
    if word = 0 then if addr = 8288 then some ⟨[0, 16, 0, 1, 0, 16, 0, 1], 8298⟩ else none
    else if addr = 96 ∨ addr = 4192 then some ⟨List.replicate 4096 1, addr + 4096⟩ else none
  next_gt addr word b hb := by
    split at hb
    · split at hb
      · next haddr =>
        cases hb
        exact haddr ▸ by decide
      · cases hb
    · split at hb
      · cases hb
        exact Nat.lt_add_of_pos_right (by decide)
      · cases hb

def twoBlocksInode : FileInode := ⟨.reg, 96, invalidFrag, 8192, ⟨8288, 0⟩⟩

def twoBlocksWords : List ℕ := [0x01001000, 0x01001000]

theorem twoBlocks_regular : RegularFile twoBlocks twoBlocksInode twoBlocksWords where
  type := rfl
  fragment := rfl
  size_lt := by decide
  list := @Follows.rest twoBlocks ⟨8288, 0⟩ ⟨[0, 16, 0, 1, 0, 16, 0, 1], 8298⟩ (by decide) rfl
  word_lt := by decide
  stored := by decide
  enough i hi := by
    have hlt : i * 4096 < 8192 := hi
    have hlen : twoBlocksWords.length = 2 := rfl
    omega
  block i w hw hne := by
    match i with
    | 0 =>
      cases hw
      have haddr : dataAddr twoBlocksInode twoBlocksWords 0 = 96 := by decide
      have hlen : blockLength twoBlocks twoBlocksInode 0 = 4096 := by decide
      rw [haddr, hlen]
      exact ⟨⟨List.replicate 4096 1, 4192⟩, rfl, List.length_replicate⟩
    | 1 =>
      cases hw
      have haddr : dataAddr twoBlocksInode twoBlocksWords 1 = 4192 := by decide
      have hlen : blockLength twoBlocks twoBlocksInode 1 = 4096 := by decide
      rw [haddr, hlen]
      exact ⟨⟨List.replicate 4096 1, 8288⟩, rfl, List.length_replicate⟩
    | i + 2 => cases hw

/-- The whole file can be read. -/
theorem readsExactly_twoBlocks : (∀ c, ReadsExactly (twoBlocks.refill c) twoBlocksInode twoBlocksWords 8192 0) ↔
    ReadsWell 4096 twoBlocksInode twoBlocksWords 8192 0 := readsExactly_iff twoBlocks_regular 8192 0

/-- Two bytes of it cannot, where one is the last of the first block. -/
theorem not_readsExactly_twoBlocks : ¬ ReadsExactly twoBlocks twoBlocksInode twoBlocksWords 2 4095 :=
  not_exact_copy twoBlocks_regular (by decide) (by decide) (by decide) (by decide) (by decide)

end Sneks.Squashfs
