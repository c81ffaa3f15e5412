import Sneks.Lib.Bytes

/-!
# Blocks of an image and reading metadata

An image of `sys/fs.squashfs/squashfs.c` is seen by its blocks. `cache_get` is given a block's
address and its length word, which is 0 for metadata; a block is only ever asked for with one word,
so that what the cache has is what `read_block` gives. What `read_block` aborts on is `none`.
-/

namespace Sneks.Squashfs

structure Blk where
  data : List UInt8
  next : ℕ

structure Image where
  length : ℕ
  /-- `fs_block_size_log2`. -/
  blockLog : ℕ
  /-- `cache_get`, by address and length word. -/
  block : ℕ → ℕ → Option Blk
  next_gt : ∀ addr word b, block addr word = some b → addr < b.next

structure Pos where
  block : ℕ
  offset : ℕ

/-- The loop of `read_metadata`, for `len` bytes and at most `n` blocks. -/
def readBlocks (img : Image) : ℕ → Pos → ℕ → Option (List UInt8 × Pos)
  | 0, _, _ => none
  | n + 1, p, len =>
    if len = 0 then some ([], p)
    else if img.length ≤ p.block then some ([], p)
    else
      match img.block p.block 0 with
      | none => none
      | some b =>
        -- else the count of bytes to copy is negative
        if b.data.length < p.offset then none
        else
          let bytes := (b.data.drop p.offset).take len
          if bytes.length < len then
            (readBlocks img n ⟨b.next, 0⟩ (len - bytes.length)).map fun (more, q) => (bytes ++ more, q)
          else some (bytes, ⟨p.block, p.offset + bytes.length⟩)

/-- `read_metadata`: the bytes read and the position after them. Addresses rise from block to block. -/
def readMetadata (img : Image) (p : Pos) (len : ℕ) : Option (List UInt8 × Pos) :=
  readBlocks img (img.length - p.block + 1) p len

inductive Follows (img : Image) : Pos → List UInt8 → Prop
  | nil (p : Pos) : Follows img p []
  | inside {p : Pos} {b : Blk} {s : List UInt8} (hin : p.block < img.length) (hget : img.block p.block 0 = some b)
      (hoff : p.offset < b.data.length) (hs : Follows img ⟨p.block, p.offset + 1⟩ s) :
      Follows img p (b.data[p.offset] :: s)
  | next {p : Pos} {b : Blk} {s : List UInt8} (hin : p.block < img.length) (hget : img.block p.block 0 = some b)
      (hend : p.offset = b.data.length) (hs : Follows img ⟨b.next, 0⟩ s) : Follows img p s

variable {img : Image} {p : Pos} {s u : List UInt8} {n : ℕ}

theorem Follows.rest {b : Blk} (hin : p.block < img.length) (hget : img.block p.block 0 = some b) :
    Follows img p (b.data.drop p.offset) := by
  induction hk : b.data.length - p.offset generalizing p with
  | zero =>
    rw [List.drop_eq_nil_of_le (Nat.sub_eq_zero_iff_le.mp hk)]
    exact .nil p
  | succ k ih =>
    have hoff : p.offset < b.data.length := by omega
    rw [List.drop_eq_getElem_cons hoff]
    exact .inside hin hget hoff (@ih ⟨p.block, p.offset + 1⟩ hin hget (by dsimp only; omega))

theorem Follows.split (h : Follows img p (s ++ u)) (hne : s ≠ []) :
    ∃ b, p.block < img.length ∧ img.block p.block 0 = some b ∧ p.offset ≤ b.data.length ∧
      (s.length ≤ (b.data.drop p.offset).length →
        (b.data.drop p.offset).take s.length = s ∧ Follows img ⟨p.block, p.offset + s.length⟩ u) ∧
      ((b.data.drop p.offset).length < s.length →
        ∃ s', s = b.data.drop p.offset ++ s' ∧ Follows img ⟨b.next, 0⟩ (s' ++ u)) := by
  induction s generalizing p with
  | nil => exact absurd rfl hne
  | cons c s ih =>
    rw [List.cons_append] at h
    generalize htext : c :: (s ++ u) = text at h
    cases h with
    | nil => cases htext
    | next hin hget hend hs =>
      subst htext
      refine ⟨_, hin, hget, Nat.le_of_eq hend, fun hle => ?_, fun _ => ⟨c :: s, ?_, hs⟩⟩
      · rw [hend, List.drop_length] at hle
        cases hle
      · rw [hend, List.drop_length, List.nil_append]
    | @inside _ b _ hin hget hoff hs =>
      obtain ⟨rfl, rfl⟩ := List.cons_eq_cons.mp htext
      have hdrop : b.data.drop p.offset = b.data[p.offset] :: b.data.drop (p.offset + 1) := List.drop_eq_getElem_cons hoff
      refine ⟨b, hin, hget, Nat.le_of_lt hoff, ?_⟩
      rw [hdrop]
      by_cases hs' : s = []
      · subst hs'
        exact ⟨fun _ => ⟨rfl, hs⟩, fun hlt => absurd (Nat.lt_of_succ_lt_succ hlt) (Nat.not_lt_zero _)⟩
      · obtain ⟨b', -, hget', -, hwithin, hbeyond⟩ := ih hs hs'
        obtain rfl : b = b' := Option.some.inj (hget.symm.trans hget')
        constructor
        · intro hle
          obtain ⟨htake, hrest⟩ := hwithin (Nat.le_of_succ_le_succ hle)
          refine ⟨?_, ?_⟩
          · rw [List.length_cons, List.take_succ_cons, htake]
          · rwa [List.length_cons, Nat.add_comm s.length, ← Nat.add_assoc]
        · intro hlt
          obtain ⟨s', hsplit, hrest⟩ := hbeyond (Nat.lt_of_succ_lt_succ hlt)
          exact ⟨s', congrArg _ hsplit, hrest⟩

theorem readBlocks_follows (h : Follows img p (s ++ u)) (hn : img.length - p.block + 1 ≤ n) :
    ∃ q, readBlocks img n p s.length = some (s, q) ∧ Follows img q u := by
  induction n generalizing p s with
  | zero => cases hn
  | succ n ih =>
    rw [readBlocks]
    by_cases hs : s = []
    · subst hs
      exact ⟨p, rfl, h⟩
    · obtain ⟨b, hin, hget, hoff, hwithin, hbeyond⟩ := h.split hs
      rw [if_neg (mt List.length_eq_zero_iff.mp hs), if_neg (Nat.not_le.mpr hin), hget]
      dsimp only
      rw [if_neg (Nat.not_lt.mpr hoff), List.length_take]
      by_cases hle : s.length ≤ (b.data.drop p.offset).length
      · obtain ⟨htake, hrest⟩ := hwithin hle
        rw [if_neg (by rw [Nat.min_eq_left hle]; exact Nat.lt_irrefl _), htake, Nat.min_eq_left hle]
        exact ⟨_, rfl, hrest⟩
      · have hlt := Nat.lt_of_not_le hle
        obtain ⟨s', hsplit, hrest⟩ := hbeyond hlt
        have hnext := img.next_gt _ _ _ hget
        obtain ⟨q, hread, hq⟩ := ih hrest (by dsimp only; omega)
        have hlen : s.length - (b.data.drop p.offset).length = s'.length := by
          rw [hsplit, List.length_append, Nat.add_sub_cancel_left]
        rw [Nat.min_eq_right (Nat.le_of_lt hlt), if_pos hlt, hlen, hread, List.take_of_length_le (Nat.le_of_lt hlt)]
        exact ⟨q, congrArg (fun s => some (s, q)) hsplit.symm, hq⟩

/-- **Metadata is read across blocks.** -/
theorem readMetadata_follows (h : Follows img p (s ++ u)) :
    ∃ q, readMetadata img p s.length = some (s, q) ∧ Follows img q u :=
  readBlocks_follows h (Nat.le_refl _)

end Sneks.Squashfs
