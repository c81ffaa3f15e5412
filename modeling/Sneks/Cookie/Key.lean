import Mathlib.Data.List.Basic
import Sneks.Cookie.Window

/-!
# The cookie key as text

Root hands the device cookie key to a filesystem on its command line. `encode_l64a_16u8`
(`root/filsys.c`) writes three bytes at a time with `l64a`, with colons in between;
`decode_l64a_16u8` (`sys/fs.squashfs/squashfs.c`) reads them back with `a64l`.

`l64a` (`lib/a64l.c`) returns a static string, and leaves it as it was when there is no
digit to write.
-/

namespace Sneks.Cookie
open Lib

abbrev CString := List UInt8

def encTable : CString :=
  ("./0123456789ABCDEFGHIJKLMNOPQRSTUVWXYZabcdefghijklmnopqrstuvwxyz".toList).map fun c =>
    UInt8.ofNat c.toNat

def decTable (c : UInt8) : ℕ :=
  if c = 46 then 0
  else if c = 47 then 1
  else if 48 ≤ c ∧ c ≤ 57 then c.toNat - 48 + 2
  else if 65 ≤ c ∧ c ≤ 90 then c.toNat - 65 + 12
  else if 97 ≤ c ∧ c ≤ 122 then c.toNat - 97 + 38
  else 0

def decodeByte (c : UInt8) : Option ℕ :=
  if c < 123 ∧ (0 < decTable c ∨ c = 46) then some (decTable c) else none

def encodeByte (b : ℕ) : UInt8 := encTable.getD b 38

def a64lLoop : CString → ℕ → BitVec 32 → Option (BitVec 32)
  | [], _, acc => some acc
  | c :: cs, scale, acc => do
    let d ← decodeByte c
    a64lLoop cs (scale + 6) (acc ||| BitVec.ofNat 32 d <<< scale)

def a64l (str64 : CString) : BitVec 32 := (a64lLoop (str64.take 6) 0 0).getD 0

/-- The loop of `l64a`: at most `n` more digits, the next one at `i`. -/
def l64aLoop (str : CString) (v : BitVec 32) (i : ℕ) : ℕ → CString
  | 0 => str
  | n + 1 =>
    if v = 0 then str
    else l64aLoop (str.take i ++ [encodeByte (v &&& 0x3f).toNat]) (v >>> 6) (i + 1) n

/-- `l64a`: the static string after the call, which is its result. -/
def l64a (str : CString) (input : BitVec 32) : CString := l64aLoop str input 0 6

/-- The static string after calls of `l64a`, from the start of the program. -/
def staticStr (calls : List (BitVec 32)) : CString := calls.foldl l64a []

def groups : List UInt8 → List (List UInt8)
  | a :: b :: c :: rest => [a, b, c] :: groups rest
  | [] => []
  | rest => [rest]

def colon : UInt8 := 58

def groupVal (group : List UInt8) : BitVec 32 := BitVec.ofNat 32 (leNat group)

/-- The loop of `encode_l64a_16u8`, with `a` bytes done: the static string and the text. -/
def encodeGroups : List (List UInt8) → ℕ → CString → CString → Option (CString × CString)
  | [], _, str, dest => some (str, dest)
  | group :: rest, a, str, dest =>
    let dest := if a > 0 then dest ++ [colon] else dest
    let val := groupVal group
    let s := l64a str val
    if a64l s ≠ val then none
    else encodeGroups rest (a + group.length) s (dest ++ s)

def encodeL64a16u8 (str : CString) (src : Key) : Option (CString × CString) :=
  encodeGroups (groups src.toList) 0 str []

/-- The loop of `decode_l64a_16u8` over the parts between the colons, with the bytes done. -/
def decodeFields : List CString → CString → List UInt8 → Option (CString × List UInt8)
  | [], str, dest => some (str, dest)
  | input :: rest, str, dest =>
    let val := a64l input
    let s := l64a str val
    if s ≠ input then none
    else
      let dest := dest ++ (leBytes 3 val.toNat).take (16 - dest.length)
      if 16 ≤ dest.length then some (s, dest) else decodeFields rest s dest

def decodeL64a16u8 (str : CString) (optarg : CString) : Option (CString × List UInt8) := do
  let (s, dest) ← decodeFields (optarg.splitOn colon) str []
  some (s, dest ++ List.replicate (16 - dest.length) 0)

/-- The text that root makes of the key is read as the key, after these calls of `l64a` in
    root and in the filesystem. -/
def RoundTrips (rootCalls fsCalls : List (BitVec 32)) (key : Key) : Prop :=
  ∃ s text s', encodeL64a16u8 (staticStr rootCalls) key = some (s, text) ∧
    decodeL64a16u8 (staticStr fsCalls) text = some (s', key.toList)

instance (rootCalls fsCalls : List (BitVec 32)) (key : Key) : Decidable (RoundTrips rootCalls fsCalls key) :=
  decidable_of_iff ((encodeL64a16u8 (staticStr rootCalls) key).any fun r =>
      (decodeL64a16u8 (staticStr fsCalls) r.2).any fun r' => r'.2 = key.toList) (by
    simp only [Option.any_eq_true, decide_eq_true_eq, RoundTrips, Prod.exists]
    constructor
    · rintro ⟨s, text, he, s', bytes, hd, rfl⟩
      exact ⟨s, text, s', he, hd⟩
    · rintro ⟨s, text, s', he, hd⟩
      exact ⟨s, text, he, s', _, hd, rfl⟩)

/-- At most `n` digits of `v`, the lowest first. -/
def digits64 (v : BitVec 32) : ℕ → CString
  | 0 => []
  | n + 1 => if v = 0 then [] else encodeByte (v &&& 0x3f).toNat :: digits64 (v >>> 6) n

theorem decodeByte_encodeByte {b : ℕ} (h : b < 64) : decodeByte (encodeByte b) = some b := by
  have hall : ∀ b : Fin 64, decodeByte (encodeByte b) = some b.val := by decide +kernel
  exact hall ⟨b, h⟩

theorem encodeByte_ne_colon {b : ℕ} (h : b < 64) : encodeByte b ≠ colon := by
  have hall : ∀ b : Fin 64, encodeByte b ≠ colon := by decide +kernel
  exact hall ⟨b, h⟩

theorem digit_lt (v : BitVec 32) : (v &&& 0x3f).toNat < 64 := by
  rw [BitVec.toNat_and]
  exact Nat.lt_of_le_of_lt Nat.and_le_right (by decide)

theorem l64aLoop_eq (str : CString) (v : BitVec 32) (i n : ℕ) (hi : i ≤ str.length) :
    l64aLoop str v i n = if digits64 v n = [] then str else str.take i ++ digits64 v n := by
  induction n generalizing str v i with
  | zero => rfl
  | succ n ih =>
    simp only [l64aLoop, digits64]
    by_cases hv : v = 0
    · simp [hv]
    · simp only [if_neg hv, reduceCtorEq, if_false]
      rw [ih _ _ _ (by simp [hi])]
      split
      · next hnil => rw [hnil]
      · rw [List.take_of_length_le (by rw [List.length_append, List.length_singleton, List.length_take]; omega), List.append_assoc, List.singleton_append]

theorem digits64_eq_nil {v : BitVec 32} {n : ℕ} : digits64 v (n + 1) = [] ↔ v = 0 := by
  simp [digits64]

theorem l64a_eq (str : CString) (v : BitVec 32) : l64a str v = if v = 0 then str else digits64 v 6 := by
  rw [l64a, l64aLoop_eq str v 0 6 (Nat.zero_le _), List.take_zero, List.nil_append]
  simp only [digits64_eq_nil]

theorem length_digits64 (v : BitVec 32) (n : ℕ) : (digits64 v n).length ≤ n := by
  induction n generalizing v with
  | zero => exact Nat.le_refl 0
  | succ n ih =>
    simp only [digits64]
    split
    · exact Nat.zero_le _
    · exact Nat.succ_le_succ (ih _)

theorem shiftLeft_split (v : BitVec 32) (scale : ℕ) :
    (v &&& 0x3f) <<< scale ||| (v >>> 6) <<< (scale + 6) = v <<< scale := by
  ext i hi
  have hmask : ∀ k (hk : k < 32), (0x3f#32)[k] = decide (k < 6) := by
    intro k hk
    have hnat : (0x3f#32) = BitVec.ofNat 32 (2 ^ 6 - 1) := by decide
    rw [hnat, ← BitVec.getLsbD_eq_getElem, BitVec.getLsbD_ofNat, Nat.testBit_two_pow_sub_one]
    simp [hk]
  simp only [BitVec.getElem_or, BitVec.getElem_shiftLeft, BitVec.getElem_and, BitVec.getElem_ushiftRight]
  by_cases hs : i < scale
  · simp [hs, show i < scale + 6 by omega]
  · by_cases h6 : i - scale < 6
    · simp [hs, h6, hmask, show i < scale + 6 by omega]
    · have hadd : 6 + (i - (scale + 6)) = i - scale := by omega
      have hlt : i - scale < 32 := by omega
      simp [hs, h6, hmask, show ¬ i < scale + 6 by omega, hadd, BitVec.getLsbD_eq_getElem hlt]

theorem a64lLoop_digits64 {v : BitVec 32} {n : ℕ} (scale : ℕ) (acc : BitVec 32) (h : v.toNat < 64 ^ n) :
    a64lLoop (digits64 v n) scale acc = some (acc ||| v <<< scale) := by
  induction n generalizing v scale acc with
  | zero =>
    have hv : v = 0 := by
      apply BitVec.eq_of_toNat_eq
      simpa using h
    simp [digits64, a64lLoop, hv]
  | succ n ih =>
    simp only [digits64]
    by_cases hv : v = 0
    · simp [hv, a64lLoop]
    · rw [if_neg hv]
      simp only [a64lLoop, decodeByte_encodeByte (digit_lt v), Option.bind_eq_bind, Option.bind_some]
      rw [ih, BitVec.ofNat_toNat, BitVec.setWidth_eq, BitVec.or_assoc, shiftLeft_split]
      rw [BitVec.toNat_ushiftRight, Nat.shiftRight_eq_div_pow]
      rw [Nat.pow_succ] at h
      omega

theorem a64l_digits64 (v : BitVec 32) : a64l (digits64 v 6) = v := by
  have hlt : v.toNat < 64 ^ 6 := Nat.lt_of_lt_of_le v.isLt (by decide)
  rw [a64l, List.take_of_length_le (length_digits64 v 6), a64lLoop_digits64 0 0 hlt]
  simp

theorem colon_not_mem_digits64 (v : BitVec 32) (n : ℕ) : colon ∉ digits64 v n := by
  induction n generalizing v with
  | zero => exact List.not_mem_nil
  | succ n ih =>
    simp only [digits64]
    split
    · exact List.not_mem_nil
    · simp only [List.mem_cons, not_or]
      exact ⟨(encodeByte_ne_colon (digit_lt v)).symm, ih _⟩

-- The static string

theorem l64a_eq_nil {str : CString} {v : BitVec 32} : l64a str v = [] ↔ str = [] ∧ v = 0 := by
  rw [l64a_eq]
  split
  · next hv => simp [hv]
  · next hv =>
    rw [digits64_eq_nil]
    exact ⟨fun h => absurd h hv, fun h => h.2⟩

/-- The static string is empty, or what `l64a` wrote last. -/
def Written (str : CString) : Prop := str = [] ∨ ∃ v, v ≠ 0 ∧ str = digits64 v 6

theorem Written.l64a {str : CString} (h : Written str) (v : BitVec 32) : Written (l64a str v) := by
  rw [l64a_eq]
  by_cases hv : v = 0
  · simpa [hv] using h
  · simp only [if_neg hv]
    exact .inr ⟨v, hv, rfl⟩

theorem Written.a64l_eq_zero {str : CString} (h : Written str) (hz : a64l str = 0) : str = [] := by
  obtain rfl | ⟨v, hv, rfl⟩ := h
  · rfl
  · rw [a64l_digits64] at hz
    exact absurd hz hv

theorem foldl_l64a_eq_nil {str : CString} {calls : List (BitVec 32)} :
    calls.foldl l64a str = [] ↔ str = [] ∧ ∀ v ∈ calls, v = 0 := by
  induction calls generalizing str with
  | nil => simp
  | cons v calls ih =>
    rw [List.foldl_cons, ih, l64a_eq_nil]
    simp [and_assoc]

theorem staticStr_eq_nil {calls : List (BitVec 32)} : staticStr calls = [] ↔ ∀ v ∈ calls, v = 0 := by
  rw [staticStr, foldl_l64a_eq_nil]
  simp

theorem foldl_l64a_written {str : CString} (h : Written str) (calls : List (BitVec 32)) :
    Written (calls.foldl l64a str) := by
  induction calls generalizing str with
  | nil => exact h
  | cons v calls ih => exact ih (h.l64a v)

theorem staticStr_written (calls : List (BitVec 32)) : Written (staticStr calls) :=
  foldl_l64a_written (.inl rfl) calls

-- Both loops

def field (group : List UInt8) : CString := digits64 (groupVal group) 6

def text : ℕ → List (List UInt8) → CString
  | _, [] => []
  | a, group :: rest => (if a > 0 then [colon] else []) ++ field group ++ text (a + group.length) rest

def Legible : CString → List (List UInt8) → Prop
  | _, [] => True
  | str, group :: rest => (groupVal group = 0 → str = []) ∧ Legible (l64a str (groupVal group)) rest

theorem l64a_field {str : CString} {group : List UInt8} (h : groupVal group = 0 → str = []) :
    l64a str (groupVal group) = field group := by
  rw [l64a_eq]
  split
  · next hz =>
    rw [h hz, field, hz]
    rfl
  · rfl

theorem encodeGroups_of_legible {gs : List (List UInt8)} {str : CString} (h : Legible str gs) (a : ℕ)
    (dest : CString) : ∃ s, encodeGroups gs a str dest = some (s, dest ++ text a gs) := by
  induction gs generalizing str a dest with
  | nil => exact ⟨str, by simp [encodeGroups, text]⟩
  | cons group rest ih =>
    obtain ⟨hz, hrest⟩ := h
    have hs := l64a_field hz
    have hread : a64l (field group) = groupVal group := a64l_digits64 _
    rw [hs] at hrest
    obtain ⟨s, hs'⟩ := ih hrest (a + group.length) ((if a > 0 then dest ++ [colon] else dest) ++ field group)
    refine ⟨s, ?_⟩
    simp only [encodeGroups, hs, hread, ne_eq, not_true_eq_false, if_false]
    rw [hs', text]
    split <;> simp

theorem legible_of_encodeGroups {gs : List (List UInt8)} {str s dest out : CString} {a : ℕ} (hw : Written str)
    (h : encodeGroups gs a str dest = some (s, out)) : Legible str gs := by
  induction gs generalizing str a dest with
  | nil => trivial
  | cons group rest ih =>
    simp only [encodeGroups] at h
    split at h
    · cases h
    next hread =>
    have hread := Decidable.not_not.mp hread
    refine ⟨fun hz => ?_, ih (hw.l64a _) h⟩
    -- a group of zeroes leaves the string, which then has to read as zero
    rw [hz, l64a_eq, if_pos rfl] at hread
    exact hw.a64l_eq_zero hread

theorem leNat_lt (bs : List UInt8) : leNat bs < 256 ^ bs.length := by
  induction bs with
  | nil => decide
  | cons b bs ih =>
    have hb := b.toNat_lt
    simp only [leNat, List.length_cons, Nat.pow_succ]
    omega

theorem leBytes_leNat {bs : List UInt8} {n : ℕ} (h : bs.length ≤ n) :
    leBytes n (leNat bs) = bs ++ List.replicate (n - bs.length) 0 := by
  induction bs generalizing n with
  | nil =>
    have hzero : ∀ n, leBytes n 0 = List.replicate n 0 := by
      intro n
      induction n with
      | zero => rfl
      | succ n ih => simp [leBytes, ih, List.replicate_succ]
    simpa [leNat] using hzero n
  | cons b bs ih =>
    obtain ⟨m, rfl⟩ : ∃ m, n = m + 1 := ⟨n - 1, by simp at h; omega⟩
    have hb := b.toNat_lt
    have hdiv : (b.toNat + 256 * leNat bs) / 256 = leNat bs := by omega
    have hlow : UInt8.ofNat (b.toNat + 256 * leNat bs) = b := by
      apply UInt8.toNat_inj.mp
      rw [UInt8.toNat_ofNat']
      omega
    simp only [leNat, leBytes, hdiv, hlow, List.cons_append, List.length_cons, Nat.add_sub_add_right]
    rw [ih (by simpa using h)]

theorem groupVal_toNat {group : List UInt8} (h : group.length ≤ 3) : (groupVal group).toNat = leNat group := by
  have hlt := leNat_lt group
  have hpow : 256 ^ group.length ≤ 256 ^ 3 := Nat.pow_le_pow_right (by decide) h
  rw [groupVal, BitVec.toNat_ofNat]
  omega

theorem leNat_eq_zero {bs : List UInt8} : leNat bs = 0 ↔ ∀ b ∈ bs, b = 0 := by
  induction bs with
  | nil => simp [leNat]
  | cons b bs ih =>
    simp only [leNat, Nat.add_eq_zero_iff, Nat.mul_eq_zero, List.mem_cons, forall_eq_or_imp, ← ih]
    have hb : b.toNat = 0 ↔ b = 0 := UInt8.toNat_inj (b := 0)
    simp [hb]

theorem length_of_mem_groups {bs g : List UInt8} (h : g ∈ groups bs) : g.length ≤ 3 := by
  induction bs using groups.induct with
  | case1 a b c rest ih =>
    simp only [groups, List.mem_cons] at h
    obtain rfl | h := h
    · exact Nat.le_refl _
    · exact ih h
  | case2 => cases h
  | case3 rest h1 h2 =>
    simp only [groups, List.mem_singleton] at h
    subst h
    match g with
    | [] | [_] | [_, _] => simp
    | a :: b :: c :: rest => exact absurd rfl (h1 a b c rest)

theorem groupVal_eq_zero {bs g : List UInt8} (h : g ∈ groups bs) : groupVal g = 0 ↔ ∀ b ∈ g, b = 0 := by
  rw [← leNat_eq_zero, ← groupVal_toNat (length_of_mem_groups h)]
  exact BitVec.toNat_inj (y := 0#32).symm

theorem take_leBytes_group {group : List UInt8} {n : ℕ} (h : group.length ≤ 3)
    (hn : group.length = 3 ∧ 3 ≤ n ∨ n = group.length) :
    (leBytes 3 (groupVal group).toNat).take n = group := by
  rw [groupVal_toNat h, leBytes_leNat h]
  obtain ⟨h3, hle⟩ | rfl := hn
  · rw [h3, Nat.sub_self, List.replicate_zero, List.append_nil, List.take_of_length_le (by omega)]
  · exact List.take_left

theorem l64a_eq_field {str : CString} {group : List UInt8} :
    l64a str (groupVal group) = field group ↔ (groupVal group = 0 → str = []) := by
  refine ⟨fun h hz => ?_, l64a_field⟩
  rw [l64a_eq, if_pos hz, field, hz] at h
  exact h

theorem decodeFields_field {group : List UInt8} {rest : List CString} {str : CString} {dest : List UInt8}
    (h : group.length ≤ 3)
    (hn : group.length = 3 ∧ 3 ≤ 16 - dest.length ∨ 16 - dest.length = group.length) :
    decodeFields (field group :: rest) str dest =
      if groupVal group = 0 → str = [] then
        if 16 ≤ (dest ++ group).length then some (field group, dest ++ group)
        else decodeFields rest (field group) (dest ++ group)
      else none := by
  have hval : a64l (field group) = groupVal group := a64l_digits64 _
  simp only [decodeFields, hval, ne_eq, l64a_eq_field, take_leBytes_group h hn]
  by_cases hz : groupVal group = 0 → str = []
  · rw [if_neg (not_not_intro hz), if_pos hz, l64a_field hz]
  · rw [if_pos hz, if_neg hz]

theorem groups_of_short {bs : List UInt8} (h : ∀ a b c rest, bs = a :: b :: c :: rest → False) (hne : bs = [] → False) :
    groups bs = [bs] ∧ bs.length ≤ 3 := by
  match bs with
  | [] => exact absurd rfl hne
  | [_] | [_, _] => exact ⟨rfl, by simp⟩
  | a :: b :: c :: rest => exact absurd rfl (h a b c rest)

theorem decodeFields_of_legible {bs : List UInt8} {str : CString} {dest : List UInt8} (h : Legible str (groups bs))
    (hlen : dest.length + bs.length = 16) :
    ∃ s, decodeFields ((groups bs).map field) str dest = some (s, dest ++ bs) := by
  induction bs using groups.induct generalizing str dest with
  | case1 a b c rest ih =>
    obtain ⟨hz, hrest⟩ := h
    simp only [List.length_cons] at hlen
    rw [l64a_field hz] at hrest
    have hthree : [a, b, c].length ≤ 3 := Nat.le_refl 3
    rw [groups, List.map_cons, decodeFields_field hthree (.inl ⟨rfl, by omega⟩), if_pos hz]
    have hdest : (dest ++ [a, b, c]).length = dest.length + 3 := List.length_append
    split
    · next hfull =>
      -- the last group was a whole one
      have hnil : rest = [] := List.length_eq_zero_iff.mp (by omega)
      exact ⟨_, by rw [hnil]⟩
    · have hlen' : (dest ++ [a, b, c]).length + rest.length = 16 := by omega
      obtain ⟨s, hs⟩ := ih hrest hlen'
      exact ⟨s, by rw [hs, List.append_assoc]; rfl⟩
  | case2 => exact ⟨str, by simp [groups, decodeFields]⟩
  | case3 rest h1 h2 =>
    obtain ⟨hgs, hle⟩ := groups_of_short h1 h2
    rw [hgs] at h ⊢
    rw [List.map_cons, decodeFields_field hle (.inr (by omega)), if_pos h.1]
    split
    · exact ⟨_, rfl⟩
    · exact ⟨_, rfl⟩

theorem legible_of_decodeFields {bs : List UInt8} {str s : CString} {dest out : List UInt8}
    (hlen : dest.length + bs.length = 16)
    (h : decodeFields ((groups bs).map field) str dest = some (s, out)) : Legible str (groups bs) := by
  induction bs using groups.induct generalizing str dest with
  | case1 a b c rest ih =>
    simp only [List.length_cons] at hlen
    have hthree : [a, b, c].length ≤ 3 := Nat.le_refl 3
    rw [groups, List.map_cons, decodeFields_field hthree (.inl ⟨rfl, by omega⟩)] at h
    have hdest : (dest ++ [a, b, c]).length = dest.length + 3 := List.length_append
    split at h
    · next hz =>
      refine ⟨hz, ?_⟩
      rw [l64a_field hz]
      split at h
      · have hnil : rest = [] := List.length_eq_zero_iff.mp (by omega)
        rw [hnil]
        trivial
      · exact ih (by omega) h
    · cases h
  | case2 => exact trivial
  | case3 rest h1 h2 =>
    obtain ⟨hgs, hle⟩ := groups_of_short h1 h2
    rw [hgs] at h ⊢
    rw [List.map_cons, decodeFields_field hle (.inr (by omega))] at h
    split at h
    · next hz => exact ⟨hz, trivial⟩
    · cases h

theorem text_pos {gs : List (List UInt8)} {a : ℕ} (h : 0 < a) :
    text a gs = (gs.map fun group => colon :: field group).flatten := by
  induction gs generalizing a with
  | nil => rfl
  | cons group rest ih =>
    rw [text, if_pos h, ih (Nat.lt_of_lt_of_le h (Nat.le_add_right a _))]
    simp

theorem intercalate_colon (first : CString) (rest : List CString) :
    [colon].intercalate (first :: rest) = first ++ (rest.map fun s => colon :: s).flatten := by
  induction rest generalizing first with
  | nil => simp
  | cons s rest ih =>
    rw [List.intercalate_cons_cons, ih]
    simp

theorem groups_ne_nil {bs g : List UInt8} (h : g ∈ groups bs) : g ≠ [] := by
  induction bs using groups.induct with
  | case1 a b c rest ih =>
    rw [groups, List.mem_cons] at h
    obtain rfl | h := h
    · simp
    · exact ih h
  | case2 => cases h
  | case3 rest h1 h2 =>
    rw [(groups_of_short h1 h2).1, List.mem_singleton] at h
    rw [h]
    exact h2

theorem text_groups {bs : List UInt8} : text 0 (groups bs) = [colon].intercalate ((groups bs).map field) := by
  match hgs : groups bs with
  | [] => rfl
  | group :: rest =>
    have hmem : group ∈ groups bs := by
      rw [hgs]
      exact List.mem_cons_self
    have hne := groups_ne_nil hmem
    have hpos : 0 < 0 + group.length := by
      rw [Nat.zero_add]
      exact List.length_pos_iff.mpr hne
    rw [List.map_cons, intercalate_colon, text, text_pos hpos, List.map_map]
    rfl

theorem splitOn_text {bs : List UInt8} (h : groups bs ≠ []) :
    (text 0 (groups bs)).splitOn colon = (groups bs).map field := by
  rw [text_groups]
  apply List.splitOn_intercalate colon
  · intro s hs
    obtain ⟨group, -, rfl⟩ := List.mem_map.mp hs
    exact colon_not_mem_digits64 _ 6
  · simpa using h

-- The round trip

theorem legible_iff {gs : List (List UInt8)} {str : CString} :
    Legible str gs ↔ ∀ (i : ℕ) g, gs[i]? = some g → groupVal g = 0 →
      str = [] ∧ ∀ j < i, ∀ g', gs[j]? = some g' → groupVal g' = 0 := by
  induction gs generalizing str with
  | nil => simp [Legible]
  | cons group rest ih =>
    simp only [Legible, ih, l64a_eq_nil]
    constructor
    · rintro ⟨hz, hrest⟩ i g hg hg0
      match i with
      | 0 =>
        obtain rfl : group = g := by simpa using hg
        exact ⟨hz hg0, fun j hj => absurd hj (Nat.not_lt_zero j)⟩
      | i + 1 =>
        obtain ⟨⟨hstr, hgroup⟩, hbefore⟩ := hrest i g hg hg0
        refine ⟨hstr, fun j hj g' hg' => ?_⟩
        match j with
        | 0 =>
          obtain rfl : group = g' := by simpa using hg'
          exact hgroup
        | j + 1 => exact hbefore j (by omega) g' hg'
    · intro h
      refine ⟨fun hz => (h 0 group rfl hz).1, fun i g hg hg0 => ?_⟩
      obtain ⟨hstr, hbefore⟩ := h (i + 1) g hg hg0
      exact ⟨⟨hstr, hbefore 0 (Nat.succ_pos i) group rfl⟩,
        fun j hj g' hg' => hbefore (j + 1) (by omega) g' hg'⟩

theorem roundTrips_iff_legible {rootCalls fsCalls : List (BitVec 32)} {key : Key} :
    RoundTrips rootCalls fsCalls key ↔
      Legible (staticStr rootCalls) (groups key.toList) ∧ Legible (staticStr fsCalls) (groups key.toList) := by
  have hlen : ([] : List UInt8).length + key.toList.length = 16 := by simp
  have hne : groups key.toList ≠ [] := by
    match hkey : key.toList with
    | [] => rw [hkey] at hlen; simp at hlen
    | [_] | [_, _] => simp [groups]
    | _ :: _ :: _ :: _ => simp [groups]
  constructor
  · rintro ⟨s, out, s', henc, hdec⟩
    have hroot := legible_of_encodeGroups (staticStr_written rootCalls) henc
    obtain ⟨_, henc'⟩ := encodeGroups_of_legible hroot 0 []
    rw [encodeL64a16u8, henc', List.nil_append] at henc
    obtain ⟨-, rfl⟩ := Prod.mk.inj (Option.some.inj henc)
    rw [decodeL64a16u8, splitOn_text hne] at hdec
    obtain ⟨⟨s₁, bytes⟩, hfields, -⟩ := Option.bind_eq_some_iff.mp hdec
    exact ⟨hroot, legible_of_decodeFields hlen hfields⟩
  · rintro ⟨hroot, hfs⟩
    obtain ⟨s, henc⟩ := encodeGroups_of_legible hroot 0 []
    obtain ⟨s', hdec⟩ := decodeFields_of_legible hfs hlen
    refine ⟨s, text 0 (groups key.toList), s', henc, ?_⟩
    rw [decodeL64a16u8, splitOn_text hne, hdec]
    simp

/-- **Key round trip**: the key comes back exactly when each three bytes of it that are zero
    come before the others, and neither program has an old string in `l64a` then. -/
theorem key_roundTrips_iff (rootCalls fsCalls : List (BitVec 32)) (key : Key) :
    RoundTrips rootCalls fsCalls key ↔
      ∀ (i : ℕ) g, (groups key.toList)[i]? = some g → (∀ b ∈ g, b = 0) →
        (∀ v ∈ rootCalls, v = 0) ∧ (∀ v ∈ fsCalls, v = 0) ∧
        ∀ j < i, ∀ g', (groups key.toList)[j]? = some g' → ∀ b ∈ g', b = 0 := by
  have hzero : ∀ {i : ℕ} {g}, (groups key.toList)[i]? = some g → (groupVal g = 0 ↔ ∀ b ∈ g, b = 0) :=
    fun h => groupVal_eq_zero (List.mem_of_getElem? h)
  rw [roundTrips_iff_legible, legible_iff, legible_iff]
  simp only [staticStr_eq_nil]
  constructor
  · rintro ⟨hroot, hfs⟩ i g hg hg0
    obtain ⟨hr, hbefore⟩ := hroot i g hg ((hzero hg).mpr hg0)
    obtain ⟨hf, -⟩ := hfs i g hg ((hzero hg).mpr hg0)
    exact ⟨hr, hf, fun j hj g' hg' => (hzero hg').mp (hbefore j hj g' hg')⟩
  · intro h
    constructor
    · intro i g hg hg0
      obtain ⟨hr, -, hbefore⟩ := h i g hg ((hzero hg).mp hg0)
      exact ⟨hr, fun j hj g' hg' => (hzero hg').mpr (hbefore j hj g' hg')⟩
    · intro i g hg hg0
      obtain ⟨-, hf, hbefore⟩ := h i g hg ((hzero hg).mp hg0)
      exact ⟨hf, fun j hj g' hg' => (hzero hg').mpr (hbefore j hj g' hg')⟩

/-- A key with three zero bytes after others fails root's assertion. -/
theorem key_not_roundTrips :
    ¬ ∀ rootCalls fsCalls key, RoundTrips rootCalls fsCalls key := by
  intro h
  have hkey := h [] [] #v[1, 2, 3, 0, 0, 0, 7, 8, 9, 10, 11, 12, 13, 14, 15, 16]
  revert hkey
  decide +kernel

end Sneks.Cookie
