import Sneks.Squashfs.Image
import Mathlib.Data.Int.Notation
import Mathlib.Logic.Function.Basic

/-!
# Reading metadata by way of the cache

`read_metadata`, `cache_get` and `read_block` of `sys/fs.squashfs/squashfs.c`, on the bytes of an image.
A cached block is found by its address alone, be it metadata or data; `read_metadata` may be given a
hint, which it brings up to date. Each allocation, and `htable_add`, succeeds or fails as the answers
say, in order. The image is mounted, so that its compression is LZ4, whose decompression is given.
-/

namespace Sneks.Squashfs.Metadata
open Lib

/-- What is mounted. `ftell` gives the image's length; `lz4` is given a block and the room for it. -/
structure Disk where
  image : List UInt8
  small : image.length < 2 ^ 31
  blockSize : ℕ
  lz4 : List UInt8 → ℕ → Option (List UInt8)

inductive Stop
  | abort
  /-- `fseek` to what is not a `long`. -/
  | seek
  /-- A copy past the end of a buffer. -/
  | overflow
  | assertion
  deriving DecidableEq

abbrev Mem := ℕ → Bool

def Mem.rest (mem : Mem) : Mem := fun i => mem (i + 1)

def metadataSize : ℕ := 8192

def compressedSize (word : ℕ) : ℕ := if word % 2 ^ 15 ≠ 0 then word % 2 ^ 15 else 2 ^ 15

/-- `SQUASHFS_COMPRESSED_SIZE_BLOCK`, of an `int`. -/
def compressedSizeBlock (word : BitVec 32) : ℤ := (word &&& ~~~(1#32 <<< 24)).toInt

section

variable (d : Disk)

def fread (pos n : ℕ) : List UInt8 := (d.image.drop pos).take n

/-- What `read_block` does once it knows the size. -/
def readData (mem : Mem) (pos : ℕ) (sz : ℤ) (bufmax : ℕ) (compressed : Bool) : Except Stop (List UInt8 × Mem) :=
  if compressed then
    -- there is no memory for a size that is negative
    if ¬ (0 ≤ sz ∧ mem 0 = true) then .error .abort
    else
      let compbuf := fread d pos sz.toNat
      if compbuf.length < sz.toNat then .error .abort
      else
        match d.lz4 compbuf bufmax with
        | none => .error .abort
        | some output => .ok (output, mem.rest)
  else
    let sz := min sz bufmax
    let output := fread d pos (sz % 2 ^ 32).toNat
    if bufmax < output.length then .error .overflow
    else if (output.length : ℤ) < sz then .error .abort
    else .ok (output, mem)

/-- `read_block`. `nextBlock` is a `uint64_t`. -/
def readBlock (mem : Mem) (pos : ℕ) (length : BitVec 32) : Except Stop (Blk × Mem) :=
  if ¬ pos < 2 ^ 31 then .error .seek
  else if length = 0 then
    let lenraw := fread d pos 2
    if lenraw.length ≠ 2 then .error .abort
    else
      let lenword := leNat lenraw
      let sz := compressedSize lenword
      (readData d mem (pos + 2) sz metadataSize (lenword < 2 ^ 15)).map fun (data, mem) =>
        (⟨data, ((pos + 2 + sz : ℤ) % 2 ^ 64).toNat⟩, mem)
  else
    let sz := compressedSizeBlock length
    (readData d mem pos sz d.blockSize (!length.getLsbD 24)).map fun (data, mem) =>
      (⟨data, ((pos + sz : ℤ) % 2 ^ 64).toNat⟩, mem)

/-- `blk_cache`, by address, and what the allocator will answer. -/
structure Store where
  cache : ℕ → Option Blk
  mem : Mem

def cacheGet (s : Store) (block : ℕ) (length : BitVec 32) : Except Stop (Option Blk × Store) :=
  match s.cache block with
  | some b => .ok (some b, s)
  | none =>
    if s.mem 0 = false then .ok (none, { s with mem := s.mem.rest })
    else
      (readBlock d s.mem.rest (block % 2 ^ 32) length).map fun (b, mem) =>
        if mem 0 = true then (some b, ⟨Function.update s.cache block (some b), mem.rest⟩) else (none, { s with mem := mem.rest })

/-- Where metadata is read. `hint` is `blk_p`, with a block's address; it may be NULL, or point to NULL. -/
structure Cursor where
  store : Store
  hint : Option (Option (ℕ × Blk))
  block : ℕ
  offset : ℕ

def fetch (x : Cursor) : Except Stop (Option Blk × Cursor) :=
  let got := (cacheGet d x.store x.block 0).map fun (b, store) =>
    (b, { x with store := store, hint := x.hint.map fun hint => (b.map (x.block, ·)).or hint })
  match x.hint with
  | some (some (addr, b)) => if addr = x.block then .ok (some b, x) else got
  | _ => got

structure Result where
  bytes : List UInt8
  enomem : Bool
  cursor : Cursor

inductive Round
  | ends (o : Except Stop Result)
  /-- The bytes copied, the cursor after them, and how many bytes are left to be read. -/
  | goes (bytes : List UInt8) (x : Cursor) (left : ℕ)

/-- A round of the loop. `left` is `length - done`. -/
def round (x : Cursor) (left : ℕ) : Round :=
  if left = 0 then .ends (.ok ⟨[], false, x⟩)
  else if d.image.length ≤ x.block then .ends (.ok ⟨[], false, x⟩)
  else
    match fetch d x with
    | .error e => .ends (.error e)
    | .ok (none, x) => .ends (.ok ⟨[], true, x⟩)
    | .ok (some b, x) =>
      -- else the count of bytes to copy is negative
      if b.data.length < x.offset then .ends (.error .overflow)
      else
        let bytes := (b.data.drop x.offset).take left
        if bytes.length < left then
          if x.offset + bytes.length ≠ b.data.length then .ends (.error .assertion)
          else .goes bytes { x with block := b.next, offset := 0 } (left - bytes.length)
        else .goes bytes { x with offset := x.offset + bytes.length } (left - bytes.length)

def prepend (bytes : List UInt8) (o : Except Stop Result) : Except Stop Result :=
  o.map fun r => { r with bytes := bytes ++ r.bytes }

/-- The loop of `read_metadata`, in `n` rounds at most. `none` is a loop that has not ended. -/
def rounds : ℕ → Cursor → ℕ → Option (Except Stop Result)
  | 0, _, _ => none
  | n + 1, x, left =>
    match round d x left with
    | .ends o => some o
    | .goes bytes x left => (rounds n x left).map (prepend bytes)

/-- `read_metadata` of `length` bytes ends so. -/
def Reads (x : Cursor) (length : ℕ) (o : Except Stop Result) : Prop := ∃ n, rounds d n x length = some o

/-- Another read of `b` bytes, if there was one. -/
def Then (o : Except Stop Result) (b : ℕ) (o' : Except Stop Result) : Prop :=
  match o with
  | .error e => o' = .error e
  | .ok r => if r.enomem then o' = .ok r else ∃ o₂, Reads d r.cursor b o₂ ∧ o' = prepend r.bytes o₂

end

def Result.ret (r : Result) : ℤ := if r.enomem then -12 else r.bytes.length

def Ascends (s : Store) : Prop := ∀ addr b, s.cache addr = some b → addr < b.next

structure Rising (x : Cursor) : Prop where
  cache : Ascends x.store
  hint : ∀ addr b, x.hint = some (some (addr, b)) → addr < b.next

def Inside (d : Disk) (x : Cursor) : Prop := ∀ b y, fetch d x = .ok (some b, y) → x.offset ≤ b.data.length

variable {d : Disk} {x y z : Cursor} {a b k left n m : ℕ} {o o' : Except Stop Result} {bytes rest : List UInt8}

-- The loop

theorem rounds_succ (h : rounds d n x left = some o) : rounds d (n + 1) x left = some o := by
  induction n generalizing x left o with
  | zero => cases h
  | succ n ih =>
    rw [rounds] at h ⊢
    cases hround : round d x left with
    | ends o' =>
      rw [hround] at h
      exact h
    | goes bytes y l =>
      rw [hround] at h
      obtain ⟨o₂, ho₂, rfl⟩ := Option.map_eq_some_iff.mp h
      exact Option.map_eq_some_iff.mpr ⟨o₂, ih ho₂, rfl⟩

theorem rounds_mono (h : rounds d n x left = some o) (hle : n ≤ m) : rounds d m x left = some o := by
  induction hle with
  | refl => exact h
  | step _ ih => exact rounds_succ ih

theorem Reads.unique (h : Reads d x left o) (h' : Reads d x left o') : o = o' := by
  obtain ⟨n, hn⟩ := h
  obtain ⟨m, hm⟩ := h'
  have he := (rounds_mono hn (Nat.le_max_left n m)).symm.trans (rounds_mono hm (Nat.le_max_right n m))
  exact Option.some.inj he

theorem reads_of_ends (h : round d x left = .ends o') : Reads d x left o ↔ o = o' := by
  constructor
  · rintro ⟨n, hn⟩
    cases n with
    | zero => cases hn
    | succ n =>
      rw [rounds, h] at hn
      exact (Option.some.inj hn).symm
  · rintro rfl
    exact ⟨1, by rw [rounds, h]⟩

theorem reads_of_goes (h : round d x left = .goes bytes y k) : Reads d x left o ↔ ∃ o₂, Reads d y k o₂ ∧ o = prepend bytes o₂ := by
  constructor
  · rintro ⟨n, hn⟩
    cases n with
    | zero => cases hn
    | succ n =>
      rw [rounds, h] at hn
      obtain ⟨o₂, ho₂, rfl⟩ := Option.map_eq_some_iff.mp hn
      exact ⟨o₂, ⟨n, ho₂⟩, rfl⟩
  · rintro ⟨o₂, ⟨n, hn⟩, rfl⟩
    refine ⟨n + 1, ?_⟩
    rw [rounds, h]
    exact Option.map_eq_some_iff.mpr ⟨o₂, hn, rfl⟩

theorem reads_zero : Reads d x 0 o ↔ o = .ok ⟨[], false, x⟩ := reads_of_ends (if_pos rfl)

@[simp] theorem prepend_nil (o : Except Stop Result) : prepend [] o = o := by
  cases o <;> rfl

theorem prepend_append (s t : List UInt8) (o : Except Stop Result) : prepend (s ++ t) o = prepend s (prepend t o) := by
  cases o with
  | error e => rfl
  | ok r => exact congrArg (fun bytes => Except.ok { r with bytes := bytes }) (List.append_assoc s t r.bytes)

-- What comes at a cursor

theorem cacheGet_again {s t : Store} {block : ℕ} {length w : BitVec 32} {b : Blk}
    (h : cacheGet d s block length = .ok (some b, t)) : cacheGet d t block w = .ok (some b, t) := by
  have hcached : t.cache block = some b := by
    rw [cacheGet] at h
    cases hc : s.cache block with
    | some b' =>
      rw [hc] at h
      cases h
      exact hc
    | none =>
      rw [hc] at h
      dsimp only at h
      split at h
      · cases h
      · cases hread : readBlock d s.mem.rest (block % 2 ^ 32) length with
        | error e =>
          rw [hread] at h
          cases h
        | ok r =>
          obtain ⟨b', mem⟩ := r
          rw [hread] at h
          change Except.ok (if mem 0 = true then _ else _) = _ at h
          split at h
          · cases h
            exact Function.update_self ..
          · cases h
  rw [cacheGet, hcached]

def Cursor.got (x : Cursor) (b : Option Blk) (store : Store) : Cursor :=
  { x with store := store, hint := x.hint.map fun hint => (b.map (x.block, ·)).or hint }

/-- The block of a cursor is that of the hint, or what `cache_get` finds. -/
inductive Fetched (d : Disk) (x : Cursor) : Except Stop (Option Blk × Cursor) → Prop
  | hinted {b : Blk} (hhint : x.hint = some (some (x.block, b))) : Fetched d x (.ok (some b, x))
  | failed {e : Stop} (hget : cacheGet d x.store x.block 0 = .error e) : Fetched d x (.error e)
  | got {b : Option Blk} {store : Store} (hget : cacheGet d x.store x.block 0 = .ok (b, store)) :
      Fetched d x (.ok (b, x.got b store))

theorem fetch_cases (d : Disk) (x : Cursor) : Fetched d x (fetch d x) := by
  have hgot : Fetched d x ((cacheGet d x.store x.block 0).map fun (b, store) => (b, x.got b store)) := by
    cases hget : cacheGet d x.store x.block 0 with
    | error e => exact .failed hget
    | ok r => exact .got hget
  rw [fetch]
  split
  · next addr b hhint =>
    split
    · next haddr => exact .hinted (haddr ▸ hhint)
    · exact hgot
  · exact hgot

theorem fetch_of_cacheGet {b : Option Blk} {store : Store} (hhint : ∀ c, x.hint ≠ some (some (x.block, c)))
    (hget : cacheGet d x.store x.block 0 = .ok (b, store)) : fetch d x = .ok (b, x.got b store) := by
  have hcases := fetch_cases d x
  cases hfetch : fetch d x with
  | error e =>
    rw [hfetch] at hcases
    cases hcases with
    | failed hfail => cases hget.symm.trans hfail
  | ok r =>
    rw [hfetch] at hcases
    cases hcases with
    | hinted hc => exact absurd hc (hhint _)
    | got hgot =>
      cases hget.symm.trans hgot
      rfl

theorem fetch_again {c : Blk} (h : fetch d x = .ok (some c, y)) (off : ℕ) :
    fetch d { y with offset := off } = .ok (some c, { y with offset := off }) := by
  have hcases := fetch_cases d x
  rw [h] at hcases
  cases hcases with
  | hinted hhint =>
    rw [fetch]
    dsimp only
    rw [hhint]
    exact if_pos rfl
  | got hget =>
    rw [fetch, Cursor.got]
    cases x.hint with
    | none =>
      have hagain := cacheGet_again (w := 0) hget
      dsimp only [Option.map_none]
      rw [hagain]
      rfl
    | some hint => exact if_pos rfl

/-- At the cursor there is the rest of a block; the cursor is `y` then, and `next` where the rest is not enough. -/
def Comes (d : Disk) (x : Cursor) (rest : List UInt8) (y next : Cursor) : Prop :=
  ∀ left, 0 < left → round d x left =
    if rest.length < left then .goes rest next (left - rest.length)
    else .goes (rest.take left) { y with offset := y.offset + left } 0

inductive Stuck (d : Disk) (x : Cursor) : Except Stop Result → Prop
  | unread {e : Stop} (hin : x.block < d.image.length) (hfetch : fetch d x = .error e) : Stuck d x (.error e)
  | outside {c : Blk} {y : Cursor} (hfetch : fetch d x = .ok (some c, y)) (hoff : c.data.length < y.offset) :
      Stuck d x (.error .overflow)
  | enomem {y : Cursor} (hin : x.block < d.image.length) (hfetch : fetch d x = .ok (none, y)) : Stuck d x (.ok ⟨[], true, y⟩)
  | done (hend : d.image.length ≤ x.block) : Stuck d x (.ok ⟨[], false, x⟩)

theorem fetch_pos {c : Option Blk} (h : fetch d x = .ok (c, y)) : y.block = x.block ∧ y.offset = x.offset := by
  have hcases := fetch_cases d x
  rw [h] at hcases
  cases hcases with
  | hinted hhint => exact ⟨rfl, rfl⟩
  | got hget => exact ⟨rfl, rfl⟩

theorem comes_of_fetch {c : Blk} (hin : x.block < d.image.length) (hfetch : fetch d x = .ok (some c, y))
    (hoff : y.offset ≤ c.data.length) : Comes d x (c.data.drop y.offset) y { y with block := c.next, offset := 0 } := by
  intro left hleft
  rw [round, if_neg (Nat.ne_of_gt hleft), if_neg (Nat.not_le.mpr hin), hfetch]
  dsimp only
  rw [if_neg (Nat.not_lt.mpr hoff), List.length_take]
  by_cases hlt : (c.data.drop y.offset).length < left
  · have hrest : y.offset + (c.data.drop y.offset).length = c.data.length := by
      rw [List.length_drop]
      omega
    rw [Nat.min_eq_right (Nat.le_of_lt hlt), if_pos hlt, if_pos hlt, if_neg (not_not_intro hrest),
      List.take_of_length_le (Nat.le_of_lt hlt)]
  · rw [Nat.min_eq_left (Nat.not_lt.mp hlt), if_neg (Nat.lt_irrefl _), if_neg hlt, Nat.sub_self]

theorem round_cases (d : Disk) (x : Cursor) :
    (∃ o, Stuck d x o ∧ ∀ left, 0 < left → round d x left = .ends o) ∨
      ∃ c y, x.block < d.image.length ∧ fetch d x = .ok (some c, y) ∧
        Comes d x (c.data.drop y.offset) y { y with block := c.next, offset := 0 } ∧
        ∀ k ≤ (c.data.drop y.offset).length, Comes d { y with offset := y.offset + k } ((c.data.drop y.offset).drop k)
          { y with offset := y.offset + k } { y with block := c.next, offset := 0 } := by
  by_cases hend : d.image.length ≤ x.block
  · exact .inl ⟨_, .done hend, fun left hleft => by rw [round, if_neg (Nat.ne_of_gt hleft), if_pos hend]⟩
  have hin := Nat.not_le.mp hend
  cases hfetch : fetch d x with
  | error e =>
    exact .inl ⟨_, .unread hin hfetch, fun left hleft => by rw [round, if_neg (Nat.ne_of_gt hleft), if_neg hend, hfetch]⟩
  | ok r =>
    obtain ⟨c, y⟩ := r
    cases c with
    | none =>
      exact .inl ⟨_, .enomem hin hfetch, fun left hleft => by rw [round, if_neg (Nat.ne_of_gt hleft), if_neg hend, hfetch]⟩
    | some c =>
      by_cases hoff : y.offset ≤ c.data.length
      · refine .inr ⟨c, y, hin, rfl, comes_of_fetch hin hfetch hoff, fun k hk => ?_⟩
        rw [List.length_drop] at hk
        rw [List.drop_drop]
        have hle : y.offset + k ≤ c.data.length := by omega
        have hin : y.block < d.image.length := by rwa [(fetch_pos hfetch).1]
        exact comes_of_fetch (x := { y with offset := y.offset + k }) hin (fetch_again hfetch (y.offset + k)) hle
      · refine .inl ⟨_, .outside hfetch (Nat.not_le.mp hoff), fun left hleft => ?_⟩
        rw [round, if_neg (Nat.ne_of_gt hleft), if_neg hend, hfetch]
        exact if_pos (Nat.not_le.mp hoff)

-- Reads may be divided

theorem then_nil : Then d (.ok ⟨[], false, x⟩) b o ↔ Reads d x b o := by
  constructor
  · rintro ⟨o₂, ho₂, rfl⟩
    rwa [prepend_nil]
  · exact fun h => ⟨o, h, (prepend_nil o).symm⟩

theorem Stuck.andThen (h : Stuck d x o) (hends : ∀ left, 0 < left → round d x left = .ends o) (b : ℕ) (o' : Except Stop Result) :
    Then d o b o' ↔ o' = o := by
  cases h with
  | unread => exact Iff.rfl
  | outside => exact Iff.rfl
  | enomem => exact Iff.rfl
  | done =>
    rw [then_nil]
    rcases Nat.eq_zero_or_pos b with rfl | hb
    · exact reads_zero
    · exact reads_of_ends (hends b hb)

theorem then_prepend : Then d (prepend bytes o) b o' ↔ ∃ o₂, Then d o b o₂ ∧ o' = prepend bytes o₂ := by
  cases o with
  | error e =>
    constructor
    · rintro rfl
      exact ⟨_, rfl, rfl⟩
    · rintro ⟨o₂, rfl, rfl⟩
      rfl
  | ok r =>
    obtain ⟨read, enomem, y⟩ := r
    cases enomem with
    | true =>
      constructor
      · rintro rfl
        exact ⟨_, rfl, rfl⟩
      · rintro ⟨o₂, rfl, rfl⟩
        rfl
    | false =>
      constructor
      · rintro ⟨o₂, ho₂, rfl⟩
        exact ⟨_, ⟨o₂, ho₂, rfl⟩, prepend_append _ _ _⟩
      · rintro ⟨o₂, ⟨o₃, ho₃, rfl⟩, rfl⟩
        exact ⟨o₃, ho₃, (prepend_append _ _ _).symm⟩

theorem reads_within {next : Cursor} (h : Comes d x rest y next) (ha : 0 < a) (hle : a ≤ rest.length)
    (hlater : Comes d { y with offset := y.offset + a } (rest.drop a) { y with offset := y.offset + a } next) :
    Reads d x (a + b) o ↔ ∃ o₂, Reads d { y with offset := y.offset + a } b o₂ ∧ o = prepend (rest.take a) o₂ := by
  rcases Nat.eq_zero_or_pos b with rfl | hb
  · rw [Nat.add_zero]
    exact reads_of_goes ((h a ha).trans (if_neg (Nat.not_lt.mpr hle)))
  · have hfirst := h (a + b) (Nat.add_pos_left ha b)
    have hsecond := hlater b hb
    rw [List.length_drop] at hsecond
    by_cases hmore : rest.length < a + b
    · have hmore' : rest.length - a < b := by omega
      have hleft : a + b - rest.length = b - (rest.length - a) := by omega
      rw [if_pos hmore, hleft] at hfirst
      rw [if_pos hmore'] at hsecond
      rw [reads_of_goes hfirst]
      simp only [reads_of_goes hsecond]
      constructor
      · rintro ⟨o₂, ho₂, rfl⟩
        refine ⟨_, ⟨o₂, ho₂, rfl⟩, ?_⟩
        rw [← prepend_append, List.take_append_drop]
      · rintro ⟨_, ⟨o₂, ho₂, rfl⟩, rfl⟩
        refine ⟨o₂, ho₂, ?_⟩
        rw [← prepend_append, List.take_append_drop]
    · have hmore' : ¬ rest.length - a < b := by omega
      rw [if_neg hmore, List.take_add, ← Nat.add_assoc] at hfirst
      rw [if_neg hmore'] at hsecond
      rw [reads_of_goes hfirst]
      simp only [reads_of_goes hsecond]
      constructor
      · rintro ⟨o₂, ho₂, rfl⟩
        exact ⟨_, ⟨o₂, ho₂, rfl⟩, prepend_append _ _ _⟩
      · rintro ⟨_, ⟨o₂, ho₂, rfl⟩, rfl⟩
        exact ⟨o₂, ho₂, (prepend_append _ _ _).symm⟩

theorem reads_add_first (x : Cursor) (a b : ℕ) :
    (∀ o, Reads d x (a + b) o ↔ ∃ o₁, Reads d x a o₁ ∧ Then d o₁ b o) ∨
      ∃ rest next, rest.length < a ∧ round d x a = .goes rest next (a - rest.length) ∧
        round d x (a + b) = .goes rest next (a - rest.length + b) := by
  rcases Nat.eq_zero_or_pos a with rfl | ha
  · refine .inl fun o => ?_
    rw [Nat.zero_add]
    simp only [reads_zero]
    constructor
    · exact fun h => ⟨_, rfl, then_nil.mpr h⟩
    · rintro ⟨_, rfl, hthen⟩
      exact then_nil.mp hthen
  obtain ⟨o₁, hstuck, hends⟩ | ⟨c, y, -, -, hcomes, hlater⟩ := round_cases d x
  · refine .inl fun o => ?_
    rw [reads_of_ends (hends (a + b) (Nat.add_pos_left ha b))]
    simp only [reads_of_ends (hends a ha)]
    constructor
    · rintro rfl
      exact ⟨_, rfl, (hstuck.andThen hends b _).mpr rfl⟩
    · rintro ⟨_, rfl, hthen⟩
      exact (hstuck.andThen hends b o).mp hthen
  generalize c.data.drop y.offset = rest at hcomes hlater
  by_cases hle : a ≤ rest.length
  · refine .inl fun o => ?_
    rw [reads_within hcomes ha hle (hlater a hle)]
    simp only [reads_of_goes ((hcomes a ha).trans (if_neg (Nat.not_lt.mpr hle))), reads_zero]
    constructor
    · rintro ⟨o₂, ho₂, rfl⟩
      exact ⟨_, ⟨_, rfl, rfl⟩, then_prepend.mpr ⟨o₂, then_nil.mpr ho₂, rfl⟩⟩
    · rintro ⟨_, ⟨_, rfl, rfl⟩, hthen⟩
      obtain ⟨o₂, hrest, rfl⟩ := then_prepend.mp hthen
      exact ⟨o₂, then_nil.mp hrest, rfl⟩
  · have hlt := Nat.not_le.mp hle
    have hleft : a + b - rest.length = a - rest.length + b := by omega
    refine .inr ⟨rest, _, hlt, (hcomes a ha).trans (if_pos hlt), ?_⟩
    rw [hcomes (a + b) (Nat.add_pos_left ha b), if_pos (Nat.lt_add_right b hlt), hleft]

/-- **A read may be divided anywhere**, and what is left by it is the same. -/
theorem reads_add : Reads d x (a + b) o ↔ ∃ o₁, Reads d x a o₁ ∧ Then d o₁ b o := by
  constructor
  · rintro ⟨n, hn⟩
    induction n generalizing x a o with
    | zero => cases hn
    | succ n ih =>
      obtain hiff | ⟨rest, next, -, hfirst, hboth⟩ := reads_add_first (d := d) x a b
      · exact (hiff o).mp ⟨n + 1, hn⟩
      · rw [rounds, hboth] at hn
        obtain ⟨o₂, ho₂, rfl⟩ := Option.map_eq_some_iff.mp hn
        obtain ⟨o₁, ho₁, hthen⟩ := ih ho₂
        exact ⟨_, (reads_of_goes hfirst).mpr ⟨o₁, ho₁, rfl⟩, then_prepend.mpr ⟨o₂, hthen, rfl⟩⟩
  · rintro ⟨o₁, ⟨n, hn⟩, hthen⟩
    induction n generalizing x a o o₁ with
    | zero => cases hn
    | succ n ih =>
      obtain hiff | ⟨rest, next, -, hfirst, hboth⟩ := reads_add_first (d := d) x a b
      · exact (hiff o).mpr ⟨o₁, ⟨n + 1, hn⟩, hthen⟩
      · rw [rounds, hfirst] at hn
        obtain ⟨o₂, ho₂, rfl⟩ := Option.map_eq_some_iff.mp hn
        obtain ⟨o₃, hrest, rfl⟩ := then_prepend.mp hthen
        exact (reads_of_goes hboth).mpr ⟨o₃, ih o₂ hrest ho₂, rfl⟩

-- How reads end

theorem Reads.short {r : Result} (h : Reads d x left (.ok r)) (hmem : r.enomem = false) :
    r.bytes.length ≤ left ∧ (r.bytes.length < left → d.image.length ≤ r.cursor.block) := by
  obtain ⟨n, hn⟩ := h
  induction n generalizing x left r with
  | zero => cases hn
  | succ n ih =>
    rcases Nat.eq_zero_or_pos left with rfl | hleft
    · cases reads_zero.mp ⟨_, hn⟩
      exact ⟨Nat.le_refl _, fun hlt => (Nat.lt_irrefl _ hlt).elim⟩
    obtain ⟨o, hstuck, hends⟩ | ⟨c, y, -, -, hcomes, -⟩ := round_cases d x
    · obtain rfl := (reads_of_ends (hends left hleft)).mp ⟨_, hn⟩
      cases hstuck with
      | enomem => cases hmem
      | done hend => exact ⟨Nat.zero_le _, fun _ => hend⟩
    generalize c.data.drop y.offset = rest at hcomes
    have hround := hcomes left hleft
    rw [rounds] at hn
    by_cases hlt : rest.length < left
    · rw [hround, if_pos hlt] at hn
      obtain ⟨o₂, ho₂, ho⟩ := Option.map_eq_some_iff.mp hn
      cases o₂ with
      | error e => cases ho
      | ok r₂ =>
        cases ho
        have hmem₂ : r₂.enomem = false := hmem
        obtain ⟨hle, hend⟩ := ih hmem₂ ho₂
        show (rest ++ r₂.bytes).length ≤ left ∧ ((rest ++ r₂.bytes).length < left → _)
        rw [List.length_append]
        exact ⟨by omega, fun hshort => hend (by omega)⟩
    · rw [hround, if_neg hlt] at hn
      obtain ⟨o₂, ho₂, ho⟩ := Option.map_eq_some_iff.mp hn
      rw [reads_zero.mp ⟨_, ho₂⟩] at ho
      cases ho
      show (rest.take left ++ []).length ≤ left ∧ ((rest.take left ++ []).length < left → _)
      rw [List.append_nil, List.length_take, Nat.min_eq_left (Nat.not_lt.mp hlt)]
      exact ⟨Nat.le_refl _, fun hlt => (Nat.lt_irrefl _ hlt).elim⟩

theorem compressedSize_pos (word : ℕ) : 0 < compressedSize word := by
  rw [compressedSize]
  split <;> omega

theorem compressedSize_le (word : ℕ) : compressedSize word ≤ 2 ^ 15 := by
  rw [compressedSize]
  split <;> omega

theorem readBlock_next {mem mem' : Mem} {pos : ℕ} {c : Blk} (h : readBlock d mem pos 0 = .ok (c, mem')) : pos < c.next := by
  rw [readBlock] at h
  split at h
  · cases h
  · next hpos =>
    rw [not_not] at hpos
    rw [if_pos rfl] at h
    dsimp only at h
    split at h
    · cases h
    · generalize hword : leNat (fread d pos 2) = word at h
      cases hdata : readData d mem (pos + 2) (compressedSize word) metadataSize (decide (word < 2 ^ 15)) with
      | error e =>
        rw [hdata] at h
        cases h
      | ok r =>
        rw [hdata] at h
        cases h
        have h1 := compressedSize_pos word
        have h2 := compressedSize_le word
        show pos < ((pos + 2 + compressedSize word : ℤ) % 2 ^ 64).toNat
        omega

theorem readBlock_data_next {mem mem' : Mem} {pos : ℕ} {word : BitVec 32} {c : Blk} (hword : word ≠ 0)
    (h : readBlock d mem pos word = .ok (c, mem')) : pos < c.next ↔ 0 < compressedSizeBlock word ∨ (pos : ℤ) + compressedSizeBlock word < 0 := by
  rw [readBlock] at h
  split at h
  · cases h
  · next hpos =>
    rw [not_not] at hpos
    dsimp only at h
    cases hdata : readData d mem pos (compressedSizeBlock word) d.blockSize (!word.getLsbD 24) with
    | error e =>
      rw [hdata] at h
      cases h
    | ok r =>
      rw [hdata] at h
      cases h
      have hlo : -2 ^ 31 ≤ compressedSizeBlock word := BitVec.le_toInt _
      have hhi : compressedSizeBlock word < 2 ^ 31 := BitVec.toInt_lt
      show pos < ((pos + compressedSizeBlock word : ℤ) % 2 ^ 64).toNat ↔ _
      omega

theorem Ascends.got {s t : Store} {block : ℕ} {word : BitVec 32} {c : Option Blk} (h : Ascends s) (hblock : block < 2 ^ 32)
    (hread : ∀ mem b mem', readBlock d mem block word = .ok (b, mem') → block < b.next)
    (hget : cacheGet d s block word = .ok (c, t)) : Ascends t ∧ ∀ b, c = some b → block < b.next := by
  rw [cacheGet] at hget
  cases hc : s.cache block with
  | some b =>
    rw [hc] at hget
    cases hget
    refine ⟨h, fun b' hb' => ?_⟩
    cases hb'
    exact h block b hc
  | none =>
    rw [hc] at hget
    dsimp only at hget
    split at hget
    · cases hget
      exact ⟨h, nofun⟩
    · rw [Nat.mod_eq_of_lt hblock] at hget
      cases hblk : readBlock d s.mem.rest block word with
      | error e =>
        rw [hblk] at hget
        cases hget
      | ok r =>
        obtain ⟨b, mem⟩ := r
        rw [hblk] at hget
        change Except.ok (if mem 0 = true then _ else _) = _ at hget
        split at hget
        · cases hget
          have hb := hread _ b mem hblk
          refine ⟨fun addr b' hb' => ?_, fun b' hb' => ?_⟩
          · by_cases haddr : addr = block
            · subst haddr
              have hself := (Function.update_self addr (some b) s.cache).symm.trans hb'
              cases hself
              exact hb
            · exact h addr b' ((Function.update_of_ne haddr _ _).symm.trans hb')
          · cases hb'
            exact hb
        · cases hget
          exact ⟨h, nofun⟩

theorem Ascends.cacheGet {s t : Store} {block : ℕ} {word : BitVec 32} {c : Option Blk} (h : Ascends s) (hblock : block < 2 ^ 31)
    (hword : word = 0 ∨ 0 < compressedSizeBlock word) (hget : cacheGet d s block word = .ok (c, t)) :
    Ascends t ∧ ∀ b, c = some b → block < b.next := by
  refine h.got (Nat.lt_trans hblock (by decide)) (fun mem b mem' hread => ?_) hget
  by_cases hzero : word = 0
  · rw [hzero] at hread
    exact readBlock_next hread
  · exact (readBlock_data_next hzero hread).mpr (.inl (hword.resolve_left hzero))

theorem Rising.fetch {c : Option Blk} (h : Rising x) (hin : x.block < d.image.length) (hfetch : fetch d x = .ok (c, y)) :
    Rising y ∧ ∀ b, c = some b → x.block < b.next := by
  have hcases := fetch_cases d x
  rw [hfetch] at hcases
  cases hcases with
  | hinted hhint =>
    refine ⟨h, fun b hb => ?_⟩
    cases hb
    exact h.hint x.block _ hhint
  | got hget =>
    obtain ⟨hasc, hnext⟩ := h.cache.cacheGet (Nat.lt_trans hin d.small) (.inl rfl) hget
    refine ⟨⟨hasc, fun addr b hb => ?_⟩, hnext⟩
    obtain ⟨hint, hhint, hor⟩ := Option.map_eq_some_iff.mp hb
    cases c with
    | none => exact h.hint addr b (hhint.trans (congrArg some hor))
    | some b' =>
      cases hor
      exact hnext b rfl

theorem Rising.reads (h : Rising x) (left : ℕ) : ∃ o, Reads d x left o ∧ ∀ r, o = .ok r → Rising r.cursor := by
  induction hn : d.image.length - x.block using Nat.strongRecOn generalizing x left with
  | ind n ih =>
    rcases Nat.eq_zero_or_pos left with rfl | hleft
    · refine ⟨_, reads_zero.mpr rfl, fun r hr => ?_⟩
      cases hr
      exact h
    obtain ⟨o, hstuck, hends⟩ | ⟨c, y, hin, hfetch, hcomes, -⟩ := round_cases d x
    · refine ⟨o, (reads_of_ends (hends left hleft)).mpr rfl, fun r hr => ?_⟩
      subst hr
      generalize ho : Except.ok r = o at hstuck
      cases hstuck with
      | unread => cases ho
      | outside => cases ho
      | enomem hin hfetch =>
        cases ho
        exact (h.fetch hin hfetch).1
      | done =>
        cases ho
        exact h
    · obtain ⟨hrising, hnext⟩ := h.fetch hin hfetch
      have hround := hcomes left hleft
      by_cases hlt : (c.data.drop y.offset).length < left
      · rw [if_pos hlt] at hround
        have hless : d.image.length - c.next < n := by
          have := hnext c rfl
          omega
        obtain ⟨o, ho, hrest⟩ := ih (d.image.length - c.next) hless (x := { y with block := c.next, offset := 0 })
          ⟨hrising.cache, hrising.hint⟩ (left - (c.data.drop y.offset).length) rfl
        refine ⟨_, (reads_of_goes hround).mpr ⟨o, ho, rfl⟩, fun r hr => ?_⟩
        cases o with
        | error e => cases hr
        | ok r₂ =>
          cases hr
          exact hrest r₂ rfl
      · rw [if_neg hlt] at hround
        refine ⟨_, (reads_of_goes hround).mpr ⟨_, reads_zero.mpr rfl, rfl⟩, fun r hr => ?_⟩
        cases hr
        exact ⟨hrising.cache, hrising.hint⟩

theorem readData_error {mem : Mem} {pos bufmax : ℕ} {sz : ℤ} {compressed : Bool} {e : Stop} (hsz : 0 ≤ sz) (hmax : bufmax < 2 ^ 31)
    (h : readData d mem pos sz bufmax compressed = .error e) : e = .abort := by
  rw [readData] at h
  dsimp only at h
  split at h
  · split at h
    · cases h
      rfl
    · split at h
      · cases h
        rfl
      · split at h
        · cases h
          rfl
        · cases h
  · split at h
    · next hover =>
      rw [fread, List.length_take] at hover
      omega
    · split at h
      · cases h
        rfl
      · cases h

theorem readBlock_error {mem : Mem} {pos : ℕ} {e : Stop} (hpos : pos < 2 ^ 31) (h : readBlock d mem pos 0 = .error e) : e = .abort := by
  rw [readBlock, if_neg (not_not_intro hpos), if_pos rfl] at h
  dsimp only at h
  split at h
  · cases h
    rfl
  · generalize leNat (fread d pos 2) = word at h
    cases hdata : readData d mem (pos + 2) (compressedSize word) metadataSize (decide (word < 2 ^ 15)) with
    | error e' =>
      rw [hdata] at h
      cases h
      exact readData_error (Int.natCast_nonneg _) (by decide) hdata
    | ok r =>
      rw [hdata] at h
      cases h

theorem fetch_error {e : Stop} (hin : x.block < d.image.length) (h : fetch d x = .error e) : e = .abort := by
  have hblock : x.block % 2 ^ 32 < 2 ^ 31 := Nat.lt_of_le_of_lt (Nat.mod_le _ _) (Nat.lt_trans hin d.small)
  have hcases := fetch_cases d x
  rw [h] at hcases
  cases hcases with
  | failed hget =>
    rw [cacheGet] at hget
    cases hc : x.store.cache x.block with
    | some b =>
      rw [hc] at hget
      cases hget
    | none =>
      rw [hc] at hget
      dsimp only at hget
      split at hget
      · cases hget
      · cases hblk : readBlock d x.store.mem.rest (x.block % 2 ^ 32) 0 with
        | error e =>
          rw [hblk] at hget
          cases hget
          exact readBlock_error hblock hblk
        | ok r =>
          rw [hblk] at hget
          change Except.ok _ = _ at hget
          cases hget

theorem Reads.error {e : Stop} (h : Reads d x left (.error e)) (hinside : Inside d x) : e = .abort := by
  obtain ⟨n, hn⟩ := h
  induction n generalizing x left with
  | zero => cases hn
  | succ n ih =>
    rcases Nat.eq_zero_or_pos left with rfl | hleft
    · cases reads_zero.mp ⟨_, hn⟩
    obtain ⟨o, hstuck, hends⟩ | ⟨c, y, -, -, hcomes, -⟩ := round_cases d x
    · obtain rfl := (reads_of_ends (hends left hleft)).mp ⟨_, hn⟩
      cases hstuck with
      | unread hin hfetch => exact fetch_error hin hfetch
      | outside hfetch hoff =>
        have hle := hinside _ _ hfetch
        rw [(fetch_pos hfetch).2] at hoff
        exact absurd hle (Nat.not_le.mpr hoff)
    have hround := hcomes left hleft
    rw [rounds] at hn
    by_cases hlt : (c.data.drop y.offset).length < left
    · rw [hround, if_pos hlt] at hn
      obtain ⟨o₂, ho₂, ho⟩ := Option.map_eq_some_iff.mp hn
      cases o₂ with
      | ok r => cases ho
      | error e' =>
        cases ho
        exact ih (fun _ _ _ => Nat.zero_le _) ho₂
    · rw [hround, if_neg hlt] at hn
      obtain ⟨o₂, ho₂, ho⟩ := Option.map_eq_some_iff.mp hn
      rw [reads_zero.mp ⟨_, ho₂⟩] at ho
      cases ho

/-- **Metadata reads concatenate**; less than what is asked for is read only where the image ends. A call ends if the
cached blocks lie before their next ones, which stays so; from within a block on it then returns, unless a block cannot
be read. -/
theorem readMetadata_concat (d : Disk) (x : Cursor) :
    (∀ a b o, Reads d x (a + b) o ↔ ∃ o₁, Reads d x a o₁ ∧ Then d o₁ b o) ∧
    (∀ length r, Reads d x length (.ok r) → r.enomem = false → r.bytes.length ≤ length ∧
      (r.bytes.length < length → d.image.length ≤ r.cursor.block)) ∧
    (Rising x → ∀ length, ∃ o, Reads d x length o ∧ ∀ r, o = .ok r → Rising r.cursor) ∧
    (Inside d x → ∀ length e, Reads d x length (.error e) → e = .abort) :=
  ⟨fun _ _ _ => reads_add, fun _ _ => Reads.short, Rising.reads, fun h _ _ hreads => hreads.error h⟩

def sample : Disk := ⟨[0, 0, 0, 0, 2, 0x80, 7, 9], by decide, 4096, fun _ _ => none⟩

def Store.empty : Store := ⟨fun _ => none, fun _ => true⟩

theorem readMetadata_concat_sample :
    (∃ o, Reads sample ⟨.empty, some none, 4, 0⟩ 2 o ∧ ∀ r, o = .ok r → Rising r.cursor) ∧
      ∀ e, Reads sample ⟨.empty, some none, 4, 0⟩ 2 (.error e) → e = .abort :=
  have h := (readMetadata_concat sample ⟨.empty, some none, 4, 0⟩).2.2
  ⟨h.1 ⟨nofun, nofun⟩ 2, h.2 (fun _ _ _ => Nat.zero_le _) 2⟩

/-- A block of data without bytes at the same address is found for it, and is its own next one. -/
theorem readMetadata_forever :
    (∃ y, Reads sample ⟨.empty, none, 4, 0⟩ 1 (.ok ⟨[7], false, y⟩)) ∧
      ∃ b s, cacheGet sample .empty 4 0x01000000 = .ok (some b, s) ∧ ¬ ∃ o, Reads sample ⟨s, none, 4, 0⟩ 1 o := by
  refine ⟨⟨_, 2, rfl⟩, ⟨[], 4⟩, _, rfl, ?_⟩
  rintro ⟨o, n, hn⟩
  induction n generalizing o with
  | zero => cases hn
  | succ n ih =>
    -- the round copies nothing, and the cursor is where it was
    obtain ⟨o₂, ho₂, -⟩ := Option.map_eq_some_iff.mp hn
    exact ih o₂ ho₂

-- Images by their blocks

def plenty : Mem := fun _ => true

def Disk.toImage (d : Disk) (blockLog : ℕ) : Image where
  length := d.image.length
  blockLog := blockLog
  block addr word := match readBlock d plenty addr (.ofNat 32 word) with
    | .ok (b, _) => if addr < b.next then some b else none
    | .error _ => none
  next_gt addr word b h := by
    split at h
    · obtain ⟨hlt, hb⟩ := Option.ite_none_right_eq_some.mp h
      cases hb
      exact hlt
    · cases h

variable {blockLog : ℕ}

structure Agrees (d : Disk) (blockLog : ℕ) (x : Cursor) : Prop where
  mem : x.store.mem = plenty
  cache : ∀ addr b, addr < d.image.length → x.store.cache addr = some b → (d.toImage blockLog).block addr 0 = some b
  hint : ∀ addr b, addr < d.image.length → x.hint = some (some (addr, b)) → (d.toImage blockLog).block addr 0 = some b

theorem readData_plenty {pos bufmax : ℕ} {sz : ℤ} {compressed : Bool} {data : List UInt8} {mem : Mem}
    (h : readData d plenty pos sz bufmax compressed = .ok (data, mem)) : mem = plenty := by
  rw [readData] at h
  dsimp only at h
  split at h
  · split at h
    · cases h
    · split at h
      · cases h
      · split at h
        · cases h
        · cases h
          rfl
  · split at h
    · cases h
    · split at h
      · cases h
      · cases h
        rfl

theorem readBlock_plenty {pos : ℕ} {mem : Mem} {c : Blk} (h : readBlock d plenty pos 0 = .ok (c, mem)) : mem = plenty := by
  rw [readBlock] at h
  split at h
  · cases h
  · rw [if_pos rfl] at h
    dsimp only at h
    split at h
    · cases h
    · generalize leNat (fread d pos 2) = word at h
      cases hdata : readData d plenty (pos + 2) (compressedSize word) metadataSize (decide (word < 2 ^ 15)) with
      | error e =>
        rw [hdata] at h
        cases h
      | ok r =>
        rw [hdata] at h
        cases h
        exact readData_plenty hdata

theorem Agrees.fetch {c : Blk} (h : Agrees d blockLog x) (hin : x.block < d.image.length)
    (hblock : (d.toImage blockLog).block x.block 0 = some c) :
    ∃ y, Metadata.fetch d x = .ok (some c, y) ∧ Agrees d blockLog y := by
  have hread : ∃ mem, readBlock d plenty x.block 0 = .ok (c, mem) := by
    change (match readBlock d plenty x.block 0 with
      | .ok (b, _) => if x.block < b.next then some b else none
      | .error _ => none) = some c at hblock
    split at hblock
    · next b mem hread =>
      obtain ⟨-, hb⟩ := Option.ite_none_right_eq_some.mp hblock
      cases hb
      exact ⟨mem, hread⟩
    · cases hblock
  obtain ⟨mem, hread⟩ := hread
  obtain rfl := readBlock_plenty hread
  have hget : ∃ s, cacheGet d x.store x.block 0 = .ok (some c, s) ∧ s.mem = plenty ∧
      ∀ addr b, addr < d.image.length → s.cache addr = some b → (d.toImage blockLog).block addr 0 = some b := by
    cases hc : x.store.cache x.block with
    | some b =>
      have hb := h.cache x.block b hin hc
      rw [hblock, Option.some.injEq] at hb
      exact ⟨x.store, by rw [cacheGet, hc, hb], h.mem, h.cache⟩
    | none =>
      refine ⟨⟨Function.update x.store.cache x.block (some c), plenty⟩, ?_, rfl, fun addr b haddr hb => ?_⟩
      · have hmod : x.block % 2 ^ 32 = x.block := Nat.mod_eq_of_lt (Nat.lt_trans hin (Nat.lt_trans d.small (by decide)))
        rw [cacheGet, hc, h.mem, hmod]
        show Except.map _ (readBlock d plenty x.block 0) = _
        rw [hread]
        rfl
      · by_cases heq : addr = x.block
        · have hself : some c = some b := (Function.update_self x.block (some c) x.store.cache).symm.trans (heq ▸ hb)
          rw [heq, hblock, hself]
        · exact h.cache addr b haddr ((Function.update_of_ne heq _ _).symm.trans hb)
  obtain ⟨s, hs, hmem, hcache⟩ := hget
  by_cases hhint : ∃ b, x.hint = some (some (x.block, b))
  · obtain ⟨b, hb⟩ := hhint
    have hfound := h.hint x.block b hin hb
    rw [hblock, Option.some.injEq] at hfound
    refine ⟨x, ?_, h⟩
    rw [Metadata.fetch, hb, hfound]
    exact if_pos rfl
  · rw [not_exists] at hhint
    refine ⟨_, fetch_of_cacheGet hhint hs, hmem, hcache, fun addr b _ hb => ?_⟩
    obtain ⟨_, -, hpair⟩ := Option.map_eq_some_iff.mp hb
    cases hpair
    exact hblock

end Sneks.Squashfs.Metadata
