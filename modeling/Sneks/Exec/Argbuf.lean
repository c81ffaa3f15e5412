import Mathlib.Data.List.Basic
import Mathlib.Data.List.GetD
import Sneks.Lib.Extent
import Sneks.Lib.Records

/-!
# Arguments of exec

The user runtime packs the strings of `argv` and of `envp` into one string each, with record
separators in between (`pack_argbuf`, `user/crt/exec.c`), and root takes it apart
(`strsplit_offsets`, `root/uapi.c`). The strings are copied by `strscpy` (`lib/strscpy.c`), a
word at a time where the source is aligned.
-/

namespace Sneks.Exec
open Lib

structure CStr where
  addr : ℕ
  bytes : List UInt8
  noNul : 0 ∉ bytes

namespace CStr

variable (s : CStr)

def length : ℕ := s.bytes.length

def get (i : ℕ) : UInt8 := s.bytes.getD i 0

/-- Where in the word at `i` the first zero byte is (`haszero`, `zero_mask`). -/
def zeroByte (i : ℕ) : Option ℕ := (List.range 4).find? fun k => s.get (i + k) = 0

def load (i n : ℕ) : List UInt8 := (List.range n).map fun k => s.get (i + k)

def pad : ℕ := (4 - s.addr % 4) % 4

end CStr

abbrev Buffer := Extent UInt8

abbrev Heap := ℕ → Option (ℕ → UInt8)

def Heap.malloc (heap : Heap) (n : ℕ) : Option Buffer := (heap n).map fun cells => { size := n, cells }

def Heap.realloc (heap : Heap) (buf : Buffer) (n : ℕ) : Option Buffer :=
  (heap n).map fun fresh => { size := n, cells := fun i => if i < buf.size then buf.cells i else fresh i }

/-- The first loop of `strscpy`, up to where the source is aligned. -/
def strscpyHead (src : CStr) (dest sz pos : ℕ) (buf : Buffer) : Option (ℕ × Buffer) :=
  if h : pos < sz ∧ (src.addr + pos) % 4 ≠ 0 ∧ src.get pos ≠ 0 then do
    let buf ← buf.store (dest + pos) (src.get pos)
    strscpyHead src dest sz (pos + 1) buf
  else some (pos, buf)
termination_by sz - pos

/-- The second loop of `strscpy`: whole words, and the bytes up to the terminator. -/
def strscpyWords (src : CStr) (dest sz pos : ℕ) (buf : Buffer) : Option (ℕ × Buffer) :=
  if h : pos < sz then
    match src.zeroByte pos with
    | none => do
      let buf ← buf.stores (dest + pos) (src.load pos 4)
      strscpyWords src dest sz (pos + 4) buf
    | some k => do
      let tail := min (sz - pos) k
      let buf ← buf.stores (dest + pos) (src.load pos (tail + 1))
      some (pos + tail, buf)
  else some (pos, buf)
termination_by sz - pos

/-- `strscpy` to `dest` in a buffer, with the length; no length is `-E2BIG`. -/
def strscpy (src : CStr) (buf : Buffer) (dest sz : ℕ) : Option (Option ℕ × Buffer) := do
  let (pos, buf) ← strscpyHead src dest sz 0 buf
  let (pos, buf) ← strscpyWords src dest sz pos buf
  if pos < sz then some (some pos, buf)
  else if 0 < sz then do
    let buf ← buf.store (dest + sz - 1) 0
    some (none, buf)
  else some (none, buf)

/-- The inner loop of `pack_argbuf`, which doubles the buffer until a string fits. -/
def packString (heap : Heap) (src : CStr) (count : ℕ) : ℕ → Buffer → Option (Option (ℕ × Buffer))
  | 0, _ => none
  | fuel + 1, buf =>
    match strscpy src buf count (buf.size - count) with
    | none => none
    | some (some n, buf) => some (some (n, buf))
    | some (none, buf) =>
      match heap.realloc buf (buf.size * 2) with
      | none => some none
      | some buf => packString heap src count fuel buf

def RECSEP : UInt8 := 0x1e

def packStrings (heap : Heap) : List CStr → ℕ → Buffer → Option (Option (ℕ × Buffer))
  | [], count, buf => some (some (count, buf))
  | src :: rest, count, buf =>
    match packString heap src count (count + src.length + 1) buf with
    | none => none
    | some none => some none
    | some (some (n, buf)) =>
      match buf.store (count + n) RECSEP with
      | none => none
      | some buf => packStrings heap rest (count + n + 1) buf

def packArgbuf (heap : Heap) (strp : List CStr) : Option (Option Buffer) :=
  match heap.malloc 512 with
  | none => some none
  | some buf =>
    match packStrings heap strp 0 buf with
    | none => none
    | some none => some none
    | some (some (0, _)) => none -- a store at `buf[-1]`
    | some (some (count + 1, buf)) =>
      match buf.store count 0 with
      | none => none
      | some buf => some (some buf)

structure Split where
  offsets : List ℕ
  len : ℕ
  buf : List UInt8

def stringAt (buf : List UInt8) (offset : ℕ) : List UInt8 := (buf.drop offset).takeWhile (· ≠ 0)

def Split.strings (r : Split) : List (List UInt8) := r.offsets.map (stringAt r.buf)

/-- The loop of `strsplit_offsets`, with `done` up to `pos` and `rest` from there. -/
def strsplitLoop (heap : Heap) (done rest : List UInt8) (pos alloc : ℕ) (ret : List ℕ) : Option Split :=
  if h : rest = [] then some { offsets := ret, len := pos, buf := done }
  else
    let seg := rest.takeWhile (· ≠ RECSEP)
    -- the separator becomes the NUL of the string before it
    let nul : List UInt8 := if seg.length < rest.length then [0] else []
    let alloc' := if ret.length + 1 ≥ alloc then alloc * 2 else alloc
    if ret.length + 1 ≥ alloc ∧ heap (alloc' * 4) = none then none
    else strsplitLoop heap (done ++ seg ++ nul) (rest.drop (seg.length + 1)) (pos + seg.length + nul.length) alloc'
      (ret ++ [pos])
termination_by rest.length
decreasing_by
  have hpos := List.length_pos_iff.mpr h
  simp only [List.length_drop]
  omega

def strsplitOffsets (heap : Heap) (buf : List UInt8) : Option Split :=
  if heap (16 * 4) = none then none else strsplitLoop heap [] buf 0 16 []

/-- No store is outside the buffer, and a buffer, if there is one, is taken apart into the
    same strings unless root finds no memory. -/
def RoundTrips (crtHeap rootHeap : Heap) (strp : List CStr) : Prop :=
  ∃ r, packArgbuf crtHeap strp = some r ∧ ∀ buf, r = some buf →
    ∀ split, strsplitOffsets rootHeap buf.text = some split → split.strings = strp.map CStr.bytes

-- strscpy

namespace CStr

variable {s : CStr} {i n : ℕ}

theorem get_eq_zero : s.get i = 0 ↔ s.length ≤ i := by
  constructor
  · intro h
    by_contra hlt
    have hlt := Nat.not_le.mp hlt
    rw [get, List.getD_eq_getElem _ _ hlt] at h
    exact s.noNul (h ▸ List.getElem_mem hlt)
  · exact fun h => List.getD_eq_default _ _ h

theorem zeroByte_eq (h : i ≤ s.length) : s.zeroByte i = if i + 4 ≤ s.length then none else some (s.length - i) := by
  have hzero : ∀ k, decide (s.get (i + k) = 0) = decide (s.length ≤ i + k) := by
    intro k
    simp only [get_eq_zero]
  simp only [zeroByte, hzero]
  split
  · rw [List.find?_range_eq_none]
    intro k hk
    simp
    omega
  · rw [List.find?_range_eq_some]
    refine ⟨by simp; omega, by simp; omega, fun k hk => ?_⟩
    simp
    omega

@[simp] theorem length_load : (s.load i n).length = n := by simp [load]

theorem load_one : s.load i 1 = [s.get i] := by simp [load]

theorem take_append_load (h : i + n ≤ s.length) : s.bytes.take i ++ s.load i n = s.bytes.take (i + n) := by
  rw [List.take_add]
  congr 1
  apply List.ext_getElem?
  intro k
  by_cases hk : k < n
  · have hlt : i + k < s.bytes.length := by
      have hlen : s.length = s.bytes.length := rfl
      omega
    rw [List.getElem?_take_of_lt hk, List.getElem?_drop, load, List.getElem?_map, List.getElem?_range hk,
      Option.map_some, get, List.getD_eq_getElem _ _ hlt, List.getElem?_eq_getElem hlt]
  · rw [List.getElem?_eq_none (by simp; omega), List.getElem?_eq_none (by simp; omega)]

end CStr

variable {src : CStr} {buf buf' : Buffer} {out : List UInt8} {sz pos count : ℕ} {heap : Heap}

theorem length_append_take (out : List UInt8) (h : pos ≤ src.length) : (out ++ src.bytes.take pos).length = out.length + pos := by
  rw [List.length_append, List.length_take]
  exact congrArg _ (Nat.min_eq_left h)

theorem strscpyHead_spec (hbuf : buf.Begins (out ++ src.bytes.take pos)) (hsz : out.length + sz = buf.size)
    (hpos : pos ≤ min src.pad (min sz src.length)) :
    ∃ buf', strscpyHead src out.length sz pos buf = some (min src.pad (min sz src.length), buf') ∧
      buf'.size = buf.size ∧ buf'.Begins (out ++ src.bytes.take (min src.pad (min sz src.length))) := by
  induction pos, buf using strscpyHead.induct src sz with
  | case1 pos buf h ih =>
    obtain ⟨hlt, halign, hget⟩ := h
    rw [ne_eq, CStr.get_eq_zero] at hget
    have hl := length_append_take out (show pos ≤ src.length by omega)
    obtain ⟨buf₁, hstore, hs₁, hb₁⟩ := hbuf.store (a := src.get pos) (by omega)
    rw [hl] at hstore
    rw [List.append_assoc, ← CStr.load_one, CStr.take_append_load (by omega)] at hb₁
    have hpad : pos ≠ src.pad := by
      rw [CStr.pad]
      omega
    obtain ⟨buf₂, hrec, hs₂, hb₂⟩ := ih buf₁ hb₁ (by omega) (by omega)
    refine ⟨buf₂, ?_, by omega, hb₂⟩
    rw [strscpyHead, dif_pos ⟨hlt, halign, by rwa [ne_eq, CStr.get_eq_zero]⟩, hstore]
    exact hrec
  | case2 pos buf h =>
    rw [ne_eq, ne_eq, CStr.get_eq_zero] at h
    have hstop : pos = min src.pad (min sz src.length) := by
      rw [CStr.pad] at hpos ⊢
      omega
    refine ⟨buf, ?_, rfl, hstop ▸ hbuf⟩
    rw [strscpyHead, dif_neg (by rwa [ne_eq, ne_eq, CStr.get_eq_zero]), ← hstop]

theorem strscpyHead_start (src : CStr) (hbuf : buf.Begins out) (hsz : out.length + sz = buf.size) :
    ∃ buf', strscpyHead src out.length sz 0 buf = some (min src.pad (min sz src.length), buf') ∧
      buf'.size = buf.size ∧ buf'.Begins (out ++ src.bytes.take (min src.pad (min sz src.length))) := by
  have hbuf : buf.Begins (out ++ src.bytes.take 0) := by simpa using hbuf
  exact strscpyHead_spec hbuf hsz (Nat.zero_le _)

theorem strscpyWords_word (hpos : pos < sz) (hword : pos + 4 ≤ src.length) :
    strscpyWords src count sz pos buf =
      (buf.stores (count + pos) (src.load pos 4)).bind (strscpyWords src count sz (pos + 4)) := by
  rw [strscpyWords, dif_pos hpos, CStr.zeroByte_eq (by omega), if_pos hword]
  rfl

theorem strscpyWords_tail (hpos : pos < sz) (hle : pos ≤ src.length) (hword : ¬ pos + 4 ≤ src.length) :
    strscpyWords src count sz pos buf =
      (buf.stores (count + pos) (src.load pos (min (sz - pos) (src.length - pos) + 1))).bind fun buf =>
        some (pos + min (sz - pos) (src.length - pos), buf) := by
  rw [strscpyWords, dif_pos hpos, CStr.zeroByte_eq hle, if_neg hword]
  rfl

theorem strscpyWords_done (hpos : ¬ pos < sz) : strscpyWords src count sz pos buf = some (pos, buf) := by
  rw [strscpyWords, dif_neg hpos]

theorem stores_word (hbuf : buf.Begins (out ++ src.bytes.take pos)) (hword : pos + 4 ≤ src.length)
    (hfits : out.length + pos + 4 ≤ buf.size) :
    ∃ buf', buf.stores (out.length + pos) (src.load pos 4) = some buf' ∧ buf'.size = buf.size ∧
      buf'.Begins (out ++ src.bytes.take (pos + 4)) := by
  have hl := length_append_take out (show pos ≤ src.length by omega)
  obtain ⟨buf₁, hstore, hs₁, hb₁⟩ := hbuf.stores (l := src.load pos 4) (by rw [hl, CStr.length_load]; exact hfits)
  rw [hl] at hstore
  rw [List.append_assoc, CStr.take_append_load hword] at hb₁
  exact ⟨buf₁, hstore, hs₁, hb₁⟩

theorem take_length : src.bytes.take src.length = src.bytes := List.take_length

theorem strscpyWords_fits (hbuf : buf.Begins (out ++ src.bytes.take pos)) (hsz : out.length + sz = buf.size)
    (hpos : pos ≤ src.length) (hfits : src.length < sz) :
    ∃ buf', strscpyWords src out.length sz pos buf = some (src.length, buf') ∧ buf'.size = buf.size ∧
      buf'.Begins (out ++ src.bytes) := by
  induction hn : sz - pos using Nat.strongRecOn generalizing pos buf with
  | ind n ih =>
    by_cases hword : pos + 4 ≤ src.length
    · obtain ⟨buf₁, hstore, hs₁, hb₁⟩ := stores_word hbuf hword (by omega)
      obtain ⟨buf₂, hrec, hs₂, hb₂⟩ := ih (sz - (pos + 4)) (by omega) hb₁ (by omega) hword rfl
      exact ⟨buf₂, by rw [strscpyWords_word (by omega) hword, hstore, Option.bind_some, hrec], by omega, hb₂⟩
    · have hmin : min (sz - pos) (src.length - pos) = src.length - pos := by omega
      have hl := length_append_take out hpos
      obtain ⟨buf₁, hstore, hs₁, hb₁⟩ := hbuf.stores (l := src.load pos (src.length - pos + 1))
        (by rw [hl, CStr.length_load]; omega)
      refine ⟨buf₁, ?_, hs₁, ?_⟩
      · rw [strscpyWords_tail (by omega) hpos hword, hmin, ← hl, hstore, Option.bind_some,
          Nat.add_sub_of_le hpos]
      · -- the terminator is stored after the string
        have hload : src.load pos (src.length - pos + 1) =
            src.load pos (src.length - pos) ++ [src.get (pos + (src.length - pos))] := by
          simp only [CStr.load, List.range_succ, List.map_append, List.map_cons, List.map_nil]
        rw [hload, ← List.append_assoc, List.append_assoc out, CStr.take_append_load (by omega),
          Nat.add_sub_of_le hpos, take_length] at hb₁
        exact hb₁.left

theorem strscpyWords_cut (hbuf : buf.Begins (out ++ src.bytes.take pos)) (hsz : out.length + sz = buf.size)
    (hpos : pos ≤ sz) (hcut : sz ≤ src.length) (hmod : (sz - pos) % 4 = 0) :
    ∃ buf', strscpyWords src out.length sz pos buf = some (sz, buf') ∧ buf'.size = buf.size ∧
      buf'.Begins (out ++ src.bytes.take sz) := by
  induction hn : sz - pos using Nat.strongRecOn generalizing pos buf with
  | ind n ih =>
    by_cases hlt : pos < sz
    · have hword : pos + 4 ≤ src.length := by omega
      obtain ⟨buf₁, hstore, hs₁, hb₁⟩ := stores_word hbuf hword (by omega)
      obtain ⟨buf₂, hrec, hs₂, hb₂⟩ := ih (sz - (pos + 4)) (by omega) hb₁ (by omega) (by omega) (by omega) rfl
      exact ⟨buf₂, by rw [strscpyWords_word hlt hword, hstore, Option.bind_some, hrec], by omega, hb₂⟩
    · obtain rfl : pos = sz := by omega
      exact ⟨buf, strscpyWords_done hlt, rfl, hbuf⟩

theorem strscpyWords_overrun (hbuf : buf.Begins (out ++ src.bytes.take pos)) (hsz : out.length + sz = buf.size)
    (hpos : pos ≤ sz) (hcut : sz ≤ src.length) (hmod : (sz - pos) % 4 ≠ 0) :
    strscpyWords src out.length sz pos buf = none := by
  induction hn : sz - pos using Nat.strongRecOn generalizing pos buf with
  | ind n ih =>
    by_cases hword : pos + 4 ≤ src.length
    · rw [strscpyWords_word (by omega) hword]
      by_cases hfits : pos + 4 ≤ sz
      · obtain ⟨buf₁, hstore, hs₁, hb₁⟩ := stores_word hbuf hword (by omega)
        rw [hstore, Option.bind_some]
        exact ih (sz - (pos + 4)) (by omega) hb₁ (by omega) hfits (by omega) rfl
      · rw [Extent.stores_eq_none (by rw [CStr.length_load]; omega) (by simp [← List.length_pos_iff])]
        rfl
    · rw [strscpyWords_tail (by omega) (by omega) hword,
        Extent.stores_eq_none (by rw [CStr.length_load]; omega) (by simp [← List.length_pos_iff])]
      rfl

def CStr.Overruns (src : CStr) (sz : ℕ) : Prop :=
  src.pad < sz ∧ sz ≤ src.length ∧ (sz - src.pad) % 4 ≠ 0

theorem strscpy_fits (hbuf : buf.Begins out) (hsz : out.length + sz = buf.size) (hfits : src.length < sz) :
    ∃ buf', strscpy src buf out.length sz = some (some src.length, buf') ∧ buf'.size = buf.size ∧
      buf'.Begins (out ++ src.bytes) := by
  obtain ⟨buf₁, hhead, hs₁, hb₁⟩ := strscpyHead_start src hbuf hsz
  obtain ⟨buf₂, hwords, hs₂, hb₂⟩ := strscpyWords_fits hb₁ (by omega) (by omega) hfits
  refine ⟨buf₂, ?_, by omega, hb₂⟩
  simp [strscpy, hhead, hwords, hfits]

theorem strscpy_cut (hbuf : buf.Begins out) (hsz : out.length + sz = buf.size) (hcut : sz ≤ src.length)
    (hno : ¬ src.Overruns sz) :
    ∃ buf', strscpy src buf out.length sz = some (none, buf') ∧ buf'.size = buf.size ∧ buf'.Begins out := by
  obtain ⟨buf₁, hhead, hs₁, hb₁⟩ := strscpyHead_start src hbuf hsz
  have hmod : (sz - min src.pad (min sz src.length)) % 4 = 0 := by
    rw [CStr.Overruns] at hno
    omega
  obtain ⟨buf₂, hwords, hs₂, hb₂⟩ := strscpyWords_cut hb₁ (by omega) (by omega) hcut hmod
  by_cases hzero : 0 < sz
  · obtain ⟨buf₃, hstore, hs₃, hb₃⟩ := hb₂.left.store_of_le (i := out.length + sz - 1) (a := 0) (by omega) (by omega)
    refine ⟨buf₃, ?_, by omega, hb₃⟩
    simp [strscpy, hhead, hwords, hzero, hstore]
  · refine ⟨buf₂, ?_, by omega, hb₂.left⟩
    simp [strscpy, hhead, hwords, hzero]

theorem strscpy_overrun (hbuf : buf.Begins out) (hsz : out.length + sz = buf.size) (h : src.Overruns sz) :
    strscpy src buf out.length sz = none := by
  obtain ⟨hpad, hcut, hmod⟩ := h
  obtain ⟨buf₁, hhead, hs₁, hb₁⟩ := strscpyHead_start src hbuf hsz
  have hover := strscpyWords_overrun hb₁ (by omega) (by omega) hcut (by omega)
  simp [strscpy, hhead, hover]

-- pack_argbuf

theorem realloc_begins {n : ℕ} (hbuf : buf.Begins out) (hle : buf.size ≤ n) (h : heap.realloc buf n = some buf') :
    buf'.size = n ∧ buf'.Begins out := by
  obtain ⟨fresh, -, rfl⟩ := Option.map_eq_some_iff.mp h
  refine ⟨rfl, fun i a hi => ?_⟩
  obtain ⟨hlt, hc⟩ := hbuf i a hi
  exact ⟨Nat.lt_of_lt_of_le hlt hle, by simpa [hlt] using hc⟩

theorem room_eq (hbuf : buf.Begins out) : out.length + (buf.size - out.length) = buf.size :=
  Nat.add_sub_of_le hbuf.length_le

theorem packString_spec (heap : Heap) (fuel : ℕ) (hbuf : buf.Begins out) (hpos : 0 < buf.size)
    (hfuel : out.length + src.length + 1 < buf.size + fuel) (hne : fuel ≠ 0)
    (hclear : ∀ k, ¬ src.Overruns (buf.size * 2 ^ k - out.length)) :
    packString heap src out.length fuel buf = some none ∧ (∃ n, heap n = none) ∨
    ∃ buf' k, packString heap src out.length fuel buf = some (some (src.length, buf')) ∧
      buf'.Begins (out ++ src.bytes) ∧ buf'.size = buf.size * 2 ^ k ∧ out.length + src.length < buf'.size ∧
      (k = 0 ∨ buf'.size ≤ 2 * (out.length + src.length)) := by
  induction fuel generalizing buf with
  | zero => exact absurd rfl hne
  | succ fuel ih =>
    have hroom := room_eq hbuf
    by_cases hfits : src.length < buf.size - out.length
    · obtain ⟨buf₁, hcopy, hs₁, hb₁⟩ := strscpy_fits hbuf hroom hfits
      exact .inr ⟨buf₁, 0, by simp [packString, hcopy], hb₁, by simpa using hs₁, by omega, .inl rfl⟩
    · have hno : ¬ src.Overruns (buf.size - out.length) := by simpa using hclear 0
      obtain ⟨buf₁, hcopy, hs₁, hb₁⟩ := strscpy_cut hbuf hroom (by omega) hno
      cases hre : heap.realloc buf₁ (buf₁.size * 2) with
      | none => exact .inl ⟨by simp [packString, hcopy, hre], _, Option.map_eq_none_iff.mp hre⟩
      | some buf₂ =>
        obtain ⟨hs₂, hb₂⟩ := realloc_begins hb₁ (by omega) hre
        have hclear₂ : ∀ k, ¬ src.Overruns (buf₂.size * 2 ^ k - out.length) := by
          intro k
          rw [hs₂, hs₁, Nat.mul_assoc, ← Nat.pow_succ']
          exact hclear (k + 1)
        have hstep : packString heap src out.length (fuel + 1) buf = packString heap src out.length fuel buf₂ := by
          simp [packString, hcopy, hre]
        rw [hstep]
        obtain hnull | ⟨buf₃, k, hrec, hb₃, hs₃, hlt, hk⟩ := ih hb₂ (by omega) (by omega) (by omega) hclear₂
        · exact .inl hnull
        · refine .inr ⟨buf₃, k + 1, hrec, hb₃, ?_, hlt, .inr ?_⟩
          · rw [hs₃, hs₂, hs₁, Nat.mul_assoc, ← Nat.pow_succ']
          · obtain rfl | hk := hk
            · rw [hs₃, hs₂, hs₁]
              omega
            · exact hk

theorem packString_overrun {k : ℕ} (fuel : ℕ) (hheap : ∀ n, heap n ≠ none) (hbuf : buf.Begins out) (hpos : 0 < buf.size)
    (h : src.Overruns (buf.size * 2 ^ k - out.length)) : packString heap src out.length fuel buf = none := by
  induction fuel generalizing buf k with
  | zero => rfl
  | succ fuel ih =>
    have hroom := room_eq hbuf
    by_cases hover : src.Overruns (buf.size - out.length)
    · simp [packString, strscpy_overrun hbuf hroom hover]
    · match k with
      | 0 => exact absurd (by simpa using h) hover
      | k + 1 =>
        have hcut : buf.size - out.length ≤ src.length := by
          have hle : buf.size ≤ buf.size * 2 ^ (k + 1) := Nat.le_mul_of_pos_right _ (Nat.two_pow_pos _)
          have hlen := h.2.1
          omega
        obtain ⟨buf₁, hcopy, hs₁, hb₁⟩ := strscpy_cut hbuf hroom hcut hover
        obtain ⟨fresh, hfresh⟩ := Option.ne_none_iff_exists'.mp (hheap (buf₁.size * 2))
        obtain ⟨buf₂, hre⟩ : ∃ buf₂, heap.realloc buf₁ (buf₁.size * 2) = some buf₂ := by
          simp [Heap.realloc, hfresh]
        obtain ⟨hs₂, hb₂⟩ := realloc_begins hb₁ (by omega) hre
        have hnext : src.Overruns (buf₂.size * 2 ^ k - out.length) := by
          rw [hs₂, hs₁, Nat.mul_assoc, ← Nat.pow_succ']
          exact h
        simp [packString, hcopy, hre, ih hb₂ (by omega) hnext]

def Sized (buf : Buffer) (count : ℕ) : Prop := ∃ m, buf.size = 512 * 2 ^ m ∧ (m = 0 ∨ buf.size < 2 * count)

theorem Sized.size_pos (h : Sized buf count) : 0 < buf.size := by
  obtain ⟨m, hm, -⟩ := h
  rw [hm]
  exact Nat.mul_pos (by decide) (Nat.two_pow_pos m)

theorem Sized.overruns_iff (h : Sized buf count) :
    (∃ k, src.Overruns (512 * 2 ^ k - count)) ↔ ∃ k, src.Overruns (buf.size * 2 ^ k - count) := by
  obtain ⟨m, hm, hfirst⟩ := h
  constructor
  · rintro ⟨k, hk⟩
    by_cases hle : m ≤ k
    · refine ⟨k - m, ?_⟩
      rw [hm, Nat.mul_assoc, ← Nat.pow_add, Nat.add_sub_of_le hle]
      exact hk
    · obtain rfl | hlt := hfirst
      · omega
      have hpow : 2 ^ (k + 1) ≤ 2 ^ m := Nat.pow_le_pow_right (by decide) (by omega)
      rw [Nat.pow_succ] at hpow
      have hpad := hk.1
      omega
  · rintro ⟨k, hk⟩
    refine ⟨m + k, ?_⟩
    rw [Nat.pow_add, ← Nat.mul_assoc, ← hm]
    exact hk

def packedLength (strp : List CStr) : ℕ := (strp.map fun s => s.length + 1).sum

/-- No size of the buffer ends within a word of a string, with `count` bytes before these. -/
def Clear (count : ℕ) (strp : List CStr) : Prop :=
  ∀ before s after, strp = before ++ s :: after → ∀ k, ¬ s.Overruns (512 * 2 ^ k - (count + packedLength before))

theorem clear_cons {s : CStr} {rest : List CStr} :
    Clear count (s :: rest) ↔ (∀ k, ¬ s.Overruns (512 * 2 ^ k - count)) ∧ Clear (count + s.length + 1) rest := by
  have hlen : ∀ before, count + packedLength (s :: before) = count + s.length + 1 + packedLength before := by
    intro before
    simp only [packedLength, List.map_cons, List.sum_cons]
    omega
  constructor
  · intro h
    refine ⟨h [] s rest rfl, fun before t after heq => ?_⟩
    rw [← hlen]
    exact h (s :: before) t after (by rw [heq, List.cons_append])
  · rintro ⟨hs, hrest⟩ before t after heq
    match before with
    | [] =>
      obtain ⟨rfl, -⟩ := List.cons.inj heq
      exact hs
    | u :: before =>
      obtain ⟨rfl, htail⟩ := List.cons.inj heq
      rw [hlen]
      exact hrest before t after htail

theorem clear_of_packedLength_le {strp : List CStr} (h : packedLength strp ≤ 512) : Clear 0 strp := by
  rintro before s after rfl k ⟨-, hcut, -⟩
  have hsize : 512 ≤ 512 * 2 ^ k := Nat.le_mul_of_pos_right _ (Nat.two_pow_pos k)
  simp only [packedLength, List.map_append, List.map_cons, List.sum_append, List.sum_cons] at h hcut
  omega

def packed (strp : List CStr) : List UInt8 := (strp.map fun s => s.bytes ++ [RECSEP]).flatten

theorem packStrings_cons {s : CStr} (rest : List CStr) (hbuf : buf.Begins out) (hsized : Sized buf out.length)
    (hs : ∀ k, ¬ s.Overruns (512 * 2 ^ k - out.length)) :
    packStrings heap (s :: rest) out.length buf = some none ∧ (∃ n, heap n = none) ∨
    ∃ buf', packStrings heap (s :: rest) out.length buf =
        packStrings heap rest (out ++ s.bytes ++ [RECSEP]).length buf' ∧
      buf'.Begins (out ++ s.bytes ++ [RECSEP]) ∧ Sized buf' (out ++ s.bytes ++ [RECSEP]).length := by
  have hno : ∀ k, ¬ s.Overruns (buf.size * 2 ^ k - out.length) :=
    not_exists.mp (mt hsized.overruns_iff.mpr (not_exists.mpr hs))
  have hpos := hsized.size_pos
  obtain ⟨hnull, hmem⟩ | ⟨buf₁, k, hstring, hb₁, hs₁, hroom, hk⟩ :=
    packString_spec heap (out.length + s.length + 1) hbuf hpos (by omega) (by omega) hno
  · exact .inl ⟨by simp [packStrings, hnull], hmem⟩
  · have hlen : (out ++ s.bytes).length = out.length + s.length := List.length_append
    obtain ⟨buf₂, hstore, hs₂, hb₂⟩ := hb₁.store (a := RECSEP) (by omega)
    have hnext : (out ++ s.bytes ++ [RECSEP]).length = out.length + s.length + 1 := by
      rw [List.length_append, hlen, List.length_singleton]
    refine .inr ⟨buf₂, ?_, hb₂, ?_⟩
    · rw [hlen] at hstore
      simp only [packStrings, hstring, hstore, hnext]
    · obtain ⟨m, hm, hfirst⟩ := hsized
      refine ⟨m + k, by rw [hs₂, hs₁, hm, Nat.mul_assoc, Nat.pow_add], ?_⟩
      obtain rfl | hk := hk
      · obtain rfl | hlt := hfirst
        · exact .inl rfl
        · simp at hs₁
          omega
      · omega

theorem packStrings_spec {strp : List CStr} (hbuf : buf.Begins out) (hsized : Sized buf out.length)
    (hclear : Clear out.length strp) :
    packStrings heap strp out.length buf = some none ∧ (∃ n, heap n = none) ∨
    ∃ buf', packStrings heap strp out.length buf = some (some ((out ++ packed strp).length, buf')) ∧
      buf'.Begins (out ++ packed strp) := by
  induction strp generalizing out buf with
  | nil => exact .inr ⟨buf, by simp [packStrings, packed], by simpa [packed] using hbuf⟩
  | cons s rest ih =>
    obtain ⟨hs, hrest⟩ := clear_cons.mp hclear
    obtain hnull | ⟨buf₁, hstep, hb₁, hsized₁⟩ := packStrings_cons rest hbuf hsized hs
    · exact .inl hnull
    · have hall : out ++ s.bytes ++ [RECSEP] ++ packed rest = out ++ packed (s :: rest) := by simp [packed]
      rw [hstep, ← hall]
      apply ih hb₁ hsized₁
      simpa [CStr.length, Nat.add_assoc] using hrest

theorem packStrings_overrun {strp : List CStr} (hheap : ∀ n, heap n ≠ none) (hbuf : buf.Begins out)
    (hsized : Sized buf out.length) (hclear : ¬ Clear out.length strp) :
    packStrings heap strp out.length buf = none := by
  induction strp generalizing out buf with
  | nil =>
    refine absurd (fun before s after heq => ?_) hclear
    simp at heq
  | cons s rest ih =>
    by_cases hs : ∀ k, ¬ s.Overruns (512 * 2 ^ k - out.length)
    · obtain ⟨-, n, hn⟩ | ⟨buf₁, hstep, hb₁, hsized₁⟩ := packStrings_cons rest hbuf hsized hs
      · exact absurd hn (hheap n)
      · rw [hstep]
        apply ih hb₁ hsized₁
        intro hrest
        refine hclear (clear_cons.mpr ⟨hs, ?_⟩)
        simpa [CStr.length, Nat.add_assoc] using hrest
    · obtain ⟨k, hk⟩ := not_forall_not.mp hs
      obtain ⟨k, hk⟩ := hsized.overruns_iff.mp ⟨k, hk⟩
      have hnone := packString_overrun (out.length + s.length + 1) hheap hbuf hsized.size_pos hk
      simp [packStrings, hnone]

-- strsplit_offsets

theorem stringAt_append {done seg after : List UInt8} (h : 0 ∉ seg) :
    stringAt (done ++ (seg ++ after)) done.length = seg ++ after.takeWhile (· ≠ 0) := by
  rw [stringAt, List.drop_left, takeWhile_ne_append _ h]

theorem strsplitLoop_spec {done rest : List UInt8} {alloc : ℕ} {ret : List ℕ} {split : Split}
    (hrest : 0 ∉ rest) (h : strsplitLoop heap done rest done.length alloc ret = some split) :
    ∃ offsets after, split.offsets = ret ++ offsets ∧ split.buf = done ++ after ∧ (rest = [] → after = []) ∧
      offsets.map (stringAt split.buf) = records RECSEP rest := by
  induction hn : rest.length using Nat.strongRecOn generalizing done rest alloc ret with
  | ind n ih =>
    rw [strsplitLoop] at h
    split at h
    · next hnil =>
      cases h
      exact ⟨[], [], by simp, by simp, fun _ => rfl, by simp [hnil]⟩
    next hne =>
    have hpos := List.length_pos_iff.mpr hne
    simp only at h
    generalize (if ret.length + 1 ≥ alloc then alloc * 2 else alloc) = alloc' at h
    split at h
    · cases h
    generalize hseg : rest.takeWhile (· ≠ RECSEP) = seg at h
    generalize hnul : (if seg.length < rest.length then [0] else [] : List UInt8) = nul at h
    have hlen : done.length + seg.length + nul.length = (done ++ seg ++ nul).length := by
      rw [List.length_append, List.length_append]
    have hdrop : 0 ∉ rest.drop (seg.length + 1) := fun hmem => hrest (List.mem_of_mem_drop hmem)
    rw [hlen] at h
    obtain ⟨offsets, after, hoff, hbuf, hlast, hmap⟩ := ih _ (by rw [List.length_drop]; omega) hdrop h rfl
    have hsplit : split.buf = done ++ (seg ++ (nul ++ after)) := by
      rw [hbuf]
      simp
    refine ⟨done.length :: offsets, seg ++ (nul ++ after), by simp [hoff], hsplit, fun hnil => absurd hnil hne, ?_⟩
    have hclean : 0 ∉ seg := by
      rw [← hseg]
      exact fun hmem => hrest (List.takeWhile_subset _ hmem)
    -- the string ends with a NUL, or with the buffer
    have hend : (nul ++ after).takeWhile (· ≠ 0) = [] := by
      by_cases hsep : seg.length < rest.length
      · rw [← hnul, if_pos hsep]
        rfl
      · have hafter := hlast (List.drop_of_length_le (by omega))
        rw [← hnul, if_neg hsep, hafter]
        rfl
    rw [List.map_cons, hmap, hsplit, stringAt_append hclean, hend, List.append_nil, records_of_ne_nil hne, hseg]

theorem strsplitOffsets_strings {buf : List UInt8} {split : Split} (hbuf : 0 ∉ buf)
    (h : strsplitOffsets heap buf = some split) : split.strings = records RECSEP buf := by
  rw [strsplitOffsets] at h
  split at h
  · cases h
  · obtain ⟨offsets, -, hoff, -, -, hmap⟩ := strsplitLoop_spec hbuf h
    rw [Split.strings, hoff, List.nil_append, hmap]

theorem strsplitLoop_ne_none {done rest : List UInt8} {pos alloc : ℕ} {ret : List ℕ} (hheap : ∀ n, heap n ≠ none) :
    strsplitLoop heap done rest pos alloc ret ≠ none := by
  induction hn : rest.length using Nat.strongRecOn generalizing done rest pos alloc ret with
  | ind n ih =>
    rw [strsplitLoop]
    split
    · simp
    next hne =>
    have hpos := List.length_pos_iff.mpr hne
    simp only [hheap, and_false, if_false]
    exact ih _ (by rw [List.length_drop]; omega) rfl

-- The round trip

theorem packed_eq {strp : List CStr} (hne : strp ≠ []) :
    packed strp = [RECSEP].intercalate (strp.map CStr.bytes) ++ [RECSEP] := by
  induction strp with
  | nil => exact absurd rfl hne
  | cons s rest ih =>
    match rest with
    | [] => simp [packed]
    | t :: rest =>
      have hrest := ih (List.cons_ne_nil t rest)
      have hcons : packed (s :: t :: rest) = s.bytes ++ [RECSEP] ++ packed (t :: rest) := by simp [packed]
      rw [hcons, hrest]
      simp only [List.map_cons, List.intercalate_cons_cons, List.append_assoc]

theorem joined_noNul {strp : List CStr} : 0 ∉ [RECSEP].intercalate (strp.map CStr.bytes) := by
  intro hmem
  have hpacked : ∀ strp, 0 ∉ packed strp := by
    intro strp hmem
    simp only [packed, List.mem_flatten, List.mem_map] at hmem
    obtain ⟨l, ⟨s, -, rfl⟩, hl⟩ := hmem
    obtain hl | hl := List.mem_append.mp hl
    · exact s.noNul hl
    · revert hl
      decide
  by_cases hne : strp = []
  · simp [hne] at hmem
  · apply hpacked strp
    rw [packed_eq hne]
    exact List.mem_append_left _ hmem

theorem sized_malloc {n : ℕ} (h : heap.malloc 512 = some buf) : Sized buf n := by
  obtain ⟨cells, -, rfl⟩ := Option.map_eq_some_iff.mp h
  exact ⟨0, rfl, .inl rfl⟩

theorem packArgbuf_spec {strp : List CStr} (hne : strp ≠ []) (hclear : Clear 0 strp) :
    packArgbuf heap strp = some none ∧ (∃ n, heap n = none) ∨
    ∃ buf, packArgbuf heap strp = some (some buf) ∧ buf.text = [RECSEP].intercalate (strp.map CStr.bytes) := by
  cases hmalloc : heap.malloc 512 with
  | none => exact .inl ⟨by simp [packArgbuf, hmalloc], 512, Option.map_eq_none_iff.mp hmalloc⟩
  | some buf =>
    have hsized : Sized buf ([] : List UInt8).length := sized_malloc hmalloc
    obtain ⟨hnull, hmem⟩ | ⟨buf₁, hpack, hb₁⟩ := packStrings_spec Extent.begins_nil hsized hclear
    · rw [List.length_nil] at hnull
      exact .inl ⟨by simp [packArgbuf, hmalloc, hnull], hmem⟩
    · rw [List.nil_append, packed_eq hne, List.length_append, List.length_singleton, List.length_nil] at hpack
      rw [List.nil_append, packed_eq hne] at hb₁
      -- the terminator replaces the last separator
      have hle := hb₁.length_le
      rw [List.length_append, List.length_singleton] at hle
      obtain ⟨buf₂, hstore, -, hb₂⟩ := hb₁.left.store (a := 0) (by omega)
      exact .inr ⟨buf₂, by simp [packArgbuf, hmalloc, hpack, hstore], hb₂.text_eq joined_noNul⟩

theorem packArgbuf_nil (hheap : ∀ n, heap n ≠ none) : packArgbuf heap [] = none := by
  obtain ⟨cells, hcells⟩ := Option.ne_none_iff_exists'.mp (hheap 512)
  simp [packArgbuf, Heap.malloc, hcells, packStrings]

theorem packArgbuf_overrun {strp : List CStr} (hheap : ∀ n, heap n ≠ none) (hclear : ¬ Clear 0 strp) :
    packArgbuf heap strp = none := by
  obtain ⟨cells, hcells⟩ := Option.ne_none_iff_exists'.mp (hheap 512)
  have hmalloc : heap.malloc 512 = some { size := 512, cells } := by simp [Heap.malloc, hcells]
  have hsized : Sized { size := 512, cells } ([] : List UInt8).length := sized_malloc hmalloc
  have hnone := packStrings_overrun hheap Extent.begins_nil hsized hclear
  rw [List.length_nil] at hnone
  simp [packArgbuf, hmalloc, hnone]

/-- **Arguments round trip**: whatever memory there is, the strings come back and no store is
    outside the buffer, exactly when there are strings, the last one is not empty, and no size
    of the buffer ends within a word that is copied. -/
theorem argbuf_roundTrips_iff (strp : List CStr) (hsep : ∀ s ∈ strp, RECSEP ∉ s.bytes) :
    (∀ crtHeap rootHeap, RoundTrips crtHeap rootHeap strp) ↔
      strp ≠ [] ∧ (∀ s, strp.getLast? = some s → s.bytes ≠ []) ∧ Clear 0 strp := by
  have hjoin : ∀ l ∈ strp.map CStr.bytes, RECSEP ∉ l := by
    intro l hl
    obtain ⟨s, hs, rfl⟩ := List.mem_map.mp hl
    exact hsep s hs
  have hlast : (strp.map CStr.bytes).getLast? ≠ some [] ↔ ∀ s, strp.getLast? = some s → s.bytes ≠ [] := by
    rw [List.getLast?_map]
    cases strp.getLast? <;> simp
  have hread : ∀ {buf : Buffer} {rootHeap split}, buf.text = [RECSEP].intercalate (strp.map CStr.bytes) →
      strsplitOffsets rootHeap buf.text = some split → split.strings = records RECSEP buf.text := by
    intro buf rootHeap split htext
    exact strsplitOffsets_strings (htext ▸ joined_noNul)
  constructor
  · intro h
    let heap : Heap := fun _ => some fun _ => 0
    have hheap : ∀ n, heap n ≠ none := fun n hn => by cases hn
    obtain ⟨r, hpack, hsplit⟩ := h heap heap
    have hne : strp ≠ [] := by
      rintro rfl
      rw [packArgbuf_nil hheap] at hpack
      cases hpack
    have hclear : Clear 0 strp := by
      by_contra hclear
      rw [packArgbuf_overrun hheap hclear] at hpack
      cases hpack
    refine ⟨hne, hlast.mp ?_, hclear⟩
    obtain ⟨-, n, hn⟩ | ⟨buf, hbuf, htext⟩ := packArgbuf_spec hne hclear
    · exact absurd hn (hheap n)
    · rw [hbuf] at hpack
      obtain rfl := Option.some.inj hpack
      obtain ⟨split, hs⟩ := Option.ne_none_iff_exists'.mp
        (show strsplitOffsets heap buf.text ≠ none by
          rw [strsplitOffsets, if_neg (hheap (16 * 4))]
          exact strsplitLoop_ne_none hheap)
      have hsame := hsplit buf rfl split hs
      rw [hread htext hs, htext] at hsame
      exact (records_intercalate hjoin (by simpa using hne)).mp hsame
  · rintro ⟨hne, hnotEmpty, hclear⟩ crtHeap rootHeap
    obtain ⟨hnull, -⟩ | ⟨buf, hbuf, htext⟩ := packArgbuf_spec hne hclear
    · exact ⟨none, hnull, fun buf hnone => by cases hnone⟩
    · refine ⟨some buf, hbuf, fun buf' heq split hs => ?_⟩
      obtain rfl := Option.some.inj heq
      rw [hread htext hs, htext]
      exact (records_intercalate hjoin (by simpa using hne)).mpr (hlast.mpr hnotEmpty)

/-- An empty string and one more. -/
theorem argbuf_roundTrips_two :
    RoundTrips (fun _ => some fun _ => 0) (fun _ => some fun _ => 0)
      [⟨0, [], by decide⟩, ⟨1, [108, 115], by decide⟩] :=
  (argbuf_roundTrips_iff [⟨0, [], by decide⟩, ⟨1, [108, 115], by decide⟩] (by decide)).mpr
    ⟨by simp, by simp, clear_of_packedLength_le (by decide)⟩ _ _

/-- No strings: the terminator is stored before the buffer. -/
theorem argbuf_not_roundTrips :
    ¬ ∀ strp : List CStr, (∀ s ∈ strp, RECSEP ∉ s.bytes) → ∀ crtHeap rootHeap, RoundTrips crtHeap rootHeap strp := by
  intro h
  obtain ⟨r, hpack, -⟩ := h [] (by simp) (fun _ => some fun _ => 0) (fun _ => some fun _ => 0)
  simp [packArgbuf, Heap.malloc, packStrings] at hpack

end Sneks.Exec
