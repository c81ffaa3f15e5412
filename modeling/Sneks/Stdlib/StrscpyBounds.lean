import Sneks.Lib.Memory
import Sneks.Stdlib.Simd
import Sneks.Stdlib.Strscpy

/-!
# What `strscpy` stores

`strscpy` over the bytes of memory, with every store that it makes. Where the string does not fit, the
last word or the last bytes are stored past the end of the buffer; where there is room for `2 ^ 31` bytes
at the string's last word, that is taken for a negative number.
-/

namespace Sneks.Stdlib
open Lib

structure Stores where
  mem : Memory
  log : List (ℕ × ℕ)

def Stores.store (st : Stores) (a : ℕ) (bytes : List UInt8) : Stores := ⟨st.mem.store a bytes, st.log ++ [(a, bytes.length)]⟩

def copyHead (src dest sz : ℕ) : ℕ → Stores → ℕ → Stores × ℕ
  | 0, st, pos => (st, pos)
  | n + 1, st, pos =>
    if pos < sz ∧ (src + pos) % 4 ≠ 0 ∧ st.mem (src + pos) ≠ 0 then
      copyHead src dest sz n (st.store (dest + pos) [st.mem (src + pos)]) (pos + 1)
    else (st, pos)

def tailInt (room left : ℕ) : ℤ := min (Int.bmod room (2 ^ 32)) left

def copyWords (src dest sz : ℕ) : ℕ → Stores → ℕ → Stores × ℕ
  | 0, st, pos => (st, pos)
  | n + 1, st, pos =>
    if pos < sz then
      let x := loadLel st.mem (src + pos)
      if haszero x = 0 then copyWords src dest sz n (st.store (dest + pos) (st.mem.load (src + pos) 4)) (pos + 4)
      else
        let tail := tailInt (sz - pos) (ffsl (zeroMask x) / 8 - 1)
        (st.store (dest + pos) (st.mem.load (src + pos) (unsignedOf (tail + 1))), unsignedOf (pos + tail))
    else (st, pos)

def E2BIG : ℤ := 7

/-- `strscpy`: what it returns, and its stores. -/
def strscpyStores (m : Memory) (dest src sz : ℕ) : ℤ × Stores :=
  let (st, pos) := copyHead src dest sz sz ⟨m, []⟩ 0
  let (st, pos) := copyWords src dest sz sz st pos
  let st := if sz ≤ pos ∧ 0 < sz then st.store (dest + sz - 1) [0] else st
  (if pos < sz then Int.bmod pos (2 ^ 32) else -E2BIG, st)

-- What is stored

variable {m : Memory} {s : CText} {dest sz pos k n : ℕ} {st : Stores}

def CText.In (s : CText) (m : Memory) : Prop := ∀ i ≤ s.length, m (s.addr + i) = s.text.getD i 0

def Apart (dest sz : ℕ) (s : CText) : Prop := dest + sz ≤ s.addr ∨ s.addr + s.length < dest

structure At (m : Memory) (s : CText) (dest pos : ℕ) (st : Stores) : Prop where
  copied : m.Copied st.mem dest s.addr pos
  inside : ∀ e ∈ st.log, dest ≤ e.1 ∧ e.1 + e.2 ≤ dest + pos
  last : pos = 0 ∨ ∃ e ∈ st.log, e.1 + e.2 = dest + pos

theorem at_zero (m : Memory) (s : CText) (dest : ℕ) : At m s dest 0 ⟨m, []⟩ := ⟨Memory.copied_zero m dest s.addr, nofun, .inl rfl⟩

theorem At.read (h : At m s dest pos st) (hm : s.In m) (hapart : Apart dest sz s) (hpos : pos ≤ sz) {i : ℕ} (hi : i ≤ s.length) :
    st.mem (s.addr + i) = s.text.getD i 0 := by
  rw [← hm i hi]
  refine h.copied.other ?_
  rw [Apart] at hapart
  omega

theorem At.mem (h : At m s dest pos st) (hm : s.In m) {i : ℕ} (hlt : i < pos) (hi : i ≤ s.length) :
    st.mem (dest + i) = s.text.getD i 0 := by
  rw [h.copied.mem (Nat.le_add_right _ _) (Nat.add_lt_add_left hlt dest), Nat.add_sub_cancel_left]
  exact hm i hi

theorem At.store (h : At m s dest pos st) (hapart : Apart dest sz s) (hpos : pos ≤ sz) (hk : 0 < k) (hin : pos + k ≤ s.length + 1) :
    At m s dest (pos + k) (st.store (dest + pos) (st.mem.load (s.addr + pos) k)) where
  copied := by
    refine h.copied.up (Memory.copied_store st.mem (dest + pos) (s.addr + pos) k) ?_
    rw [Apart] at hapart
    omega
  inside e he := by
    obtain hold | hnew := List.mem_append.mp he
    · have hold := h.inside e hold
      omega
    · rw [List.mem_singleton.mp hnew, Memory.length_load]
      omega
  last := .inr ⟨_, List.mem_append_right _ (List.mem_singleton_self _), by rw [Memory.length_load]; exact Nat.add_assoc ..⟩

theorem CText.getD_ne_zero (s : CText) (i : ℕ) : s.text.getD i 0 ≠ 0 ↔ i < s.length := by
  constructor
  · intro hne
    by_contra hlt
    exact hne (List.getD_eq_default _ _ (Nat.le_of_not_lt hlt))
  · intro hlt hzero
    rw [List.getD_eq_getElem _ _ hlt] at hzero
    exact s.nonul (hzero ▸ List.getElem_mem hlt)

theorem copyHead_refines (h : At m s dest pos st) (hm : s.In m) (hapart : Apart dest sz s) (hpos : pos ≤ min s.length sz) :
    (copyHead s.addr dest sz n st pos).2 = strscpyHead s sz n pos ∧
      At m s dest (strscpyHead s sz n pos) (copyHead s.addr dest sz n st pos).1 := by
  induction n generalizing pos st with
  | zero => exact ⟨rfl, h⟩
  | succ n ih =>
    have hread := h.read hm hapart (by omega) (i := pos) (by omega)
    have hiff : (st.mem (s.addr + pos) ≠ 0) ↔ pos < s.length := by
      rw [hread]
      exact s.getD_ne_zero pos
    rw [copyHead, strscpyHead]
    by_cases hgo : pos < sz ∧ (s.addr + pos) % 4 ≠ 0 ∧ pos < s.length
    · rw [if_pos hgo, if_pos ⟨hgo.1, hgo.2.1, hiff.mpr hgo.2.2⟩]
      have hone : [st.mem (s.addr + pos)] = st.mem.load (s.addr + pos) 1 := rfl
      rw [hone]
      exact ih (h.store hapart (by omega) Nat.one_pos (by omega)) (by omega)
    · rw [if_neg hgo, if_neg fun hgo' => hgo ⟨hgo'.1, hgo'.2.1, hiff.mp hgo'.2.2⟩]
      exact ⟨rfl, h⟩

theorem At.first (h : At m s dest pos st) (hm : s.In m) (hapart : Apart dest sz s) (hsz : pos ≤ sz) (hpos : pos ≤ s.length) :
    first (fun x => st.mem x == 0) (s.addr + pos) 4 = if pos + 4 ≤ s.length then none else some (s.addr + s.length) := by
  have hread : ∀ i ≤ s.length, (st.mem (s.addr + i) == 0) = decide (i = s.length) := by
    intro i hi
    rw [h.read hm hapart hsz hi, Bool.eq_iff_iff, beq_iff_eq, decide_eq_true_iff, ← not_iff_not]
    exact (s.getD_ne_zero i).trans ⟨Nat.ne_of_lt, fun hne => Nat.lt_of_le_of_ne hi hne⟩
  have hbefore : ∀ x, s.addr + pos ≤ x → x < s.addr + s.length → (st.mem x == 0) = false := by
    intro x hx hlt
    obtain ⟨i, rfl⟩ := Nat.exists_eq_add_of_le (Nat.le_trans (Nat.le_add_right _ _) hx)
    rw [hread i (by omega)]
    exact decide_eq_false (by omega)
  split
  · exact first_eq_none_iff.mpr fun x hx hlt => hbefore x hx (by omega)
  · exact first_eq_some_iff.mpr ⟨by omega, by omega, by rw [hread _ (Nat.le_refl _)]; exact decide_eq_true rfl, hbefore⟩

theorem At.flags (h : At m s dest pos st) (hm : s.In m) (hapart : Apart dest sz s) (hsz : pos ≤ sz) (hpos : pos ≤ s.length) :
    (pos + 4 ≤ s.length → haszero (loadLel st.mem (s.addr + pos)) = 0) ∧
    (¬ pos + 4 ≤ s.length → haszero (loadLel st.mem (s.addr + pos)) ≠ 0 ∧
      ffsl (zeroMask (loadLel st.mem (s.addr + pos))) / 8 - 1 = s.length - pos) := by
  have hffsl := first_eq_ffsl (q := fun x => st.mem x == 0) (zeroMask_loadLel st.mem (s.addr + pos))
  have hzero : haszero (loadLel st.mem (s.addr + pos)) = 0 ↔ zeroMask (loadLel st.mem (s.addr + pos)) = 0 := by
    rw [loadLel, haszero_eq_zero, zeroMask_word, word_eq_zero, flag_eq_zero, flag_eq_zero, flag_eq_zero, flag_eq_zero]
  rw [h.first hm hapart hsz hpos] at hffsl
  constructor
  · intro hword
    rw [if_pos hword] at hffsl
    by_contra hne
    rw [if_neg (mt hzero.mpr hne)] at hffsl
    cases hffsl
  · intro hword
    rw [if_neg hword] at hffsl
    have hsome : zeroMask (loadLel st.mem (s.addr + pos)) ≠ 0 := by
      intro hnone
      rw [if_pos hnone] at hffsl
      cases hffsl
    rw [if_neg hsome] at hffsl
    have hsum := Option.some.inj hffsl
    exact ⟨mt hzero.mp hsome, by omega⟩

theorem unsignedOf_nat {x : ℤ} (h : x = n) : unsignedOf x = n % 2 ^ 32 := by
  rw [unsignedOf]
  omega

theorem unsignedOf_neg {x : ℤ} (h : x + 2 ^ 32 = n) : unsignedOf x = n % 2 ^ 32 := by
  rw [unsignedOf]
  omega

theorem tailInt_small {room left : ℕ} (h : room < 2 ^ 31) : tailInt room left = (min room left : ℕ) := by
  have hbmod : Int.bmod room (2 ^ 32) = room := Int.bmod_eq_of_le (by omega) (by omega)
  unfold tailInt
  rewrite [hbmod]
  omega

theorem tailInt_large {room left : ℕ} (hroom : room < 2 ^ 32) (h : ¬ room < 2 ^ 31) : tailInt room left + 2 ^ 32 = room := by
  have hsub : ((room : ℤ) - (2 ^ 32 : ℕ)).bmod (2 ^ 32) = Int.bmod room (2 ^ 32) := Int.sub_bmod_right _ _
  have hbmod : ((room : ℤ) - (2 ^ 32 : ℕ)).bmod (2 ^ 32) = room - (2 ^ 32 : ℕ) := Int.bmod_eq_of_le (by omega) (by omega)
  unfold tailInt
  rewrite [← hsub, hbmod]
  omega

theorem tailInt_eq {room left : ℕ} (hroom : room < 2 ^ 32) :
    unsignedOf (tailInt room left + 1) = (minInt room left + 1) % 2 ^ 32 ∧
      unsignedOf (pos + tailInt room left) = (pos + minInt room left) % 2 ^ 32 := by
  by_cases hint : room < 2 ^ 31
  · have htail := @tailInt_small room left hint
    rw [minInt, if_pos hint]
    exact ⟨unsignedOf_nat (by omega), unsignedOf_nat (by omega)⟩
  · have htail := @tailInt_large room left hroom hint
    rw [minInt, if_neg hint]
    exact ⟨unsignedOf_neg (by omega), unsignedOf_neg (by omega)⟩

/-- The loop over words stores what it is told to, but for the last bytes where the room is no `int`. -/
theorem strscpyWords_refines (hsz : sz < 2 ^ 32) (h : At m s dest pos st) (hm : s.In m) (hapart : Apart dest sz s)
    (hpos : pos ≤ s.length) :
    (copyWords s.addr dest sz n st pos).2 = (strscpyWords s sz n pos).1 ∧
      (sz ≤ s.length ∨ sz - (pos + (s.length - pos) / 4 * 4) < 2 ^ 31 →
        At m s dest (strscpyWords s sz n pos).2 (copyWords s.addr dest sz n st pos).1) := by
  induction n generalizing pos st with
  | zero => exact ⟨rfl, fun _ => h⟩
  | succ n ih =>
    rw [copyWords, strscpyWords]
    by_cases hgo : pos < sz
    · rw [if_pos hgo, if_pos hgo]
      obtain ⟨hnone, hsome⟩ := h.flags hm hapart (Nat.le_of_lt hgo) hpos
      by_cases hword : pos + 4 ≤ s.length
      · dsimp only
        rw [if_pos (hnone hword), if_pos hword]
        obtain ⟨heq, hat⟩ := ih (h.store hapart (Nat.le_of_lt hgo) (by decide) (by omega)) hword
        exact ⟨heq, fun hsmall => hat (by omega)⟩
      · obtain ⟨hne, hleft⟩ := hsome hword
        obtain ⟨hcount, hnext⟩ := @tailInt_eq pos (sz - pos) (s.length - pos) (by omega)
        have hin : pos + minInt (sz - pos) (s.length - pos) < 2 ^ 32 := by
          rw [minInt]
          split <;> omega
        dsimp only
        rw [if_neg hne, if_neg hword, hleft, hcount, hnext, Nat.mod_eq_of_lt hin]
        refine ⟨rfl, fun hsmall => ?_⟩
        have hroom : sz - pos < 2 ^ 31 := by omega
        rw [minInt, if_pos hroom, Nat.mod_eq_of_lt (by omega)]
        exact h.store hapart (Nat.le_of_lt hgo) (Nat.succ_pos _) (by omega)
    · rw [if_neg hgo, if_neg hgo]
      exact ⟨rfl, fun _ => h⟩

/-- What the function's comment says: nothing is stored outside the buffer, there is a prefix of the string
and a NUL in it, and what is returned is the length of a string that fits. -/
structure Bounded (m : Memory) (s : CText) (dest sz : ℕ) : Prop where
  inside : ∀ e ∈ (strscpyStores m dest s.addr sz).2.log, dest ≤ e.1 ∧ e.1 + e.2 ≤ dest + sz
  text : 0 < sz → (strscpyStores m dest s.addr sz).2.mem.load dest (min s.length (sz - 1) + 1) = s.text.take (sz - 1) ++ [0]
  ret : (strscpyStores m dest s.addr sz).1 = if s.length < sz then (s.length : ℤ) else -E2BIG

theorem strscpyStores_of_words (hsz : sz < 2 ^ 32) (hm : s.In m) (hapart : Apart dest sz s) :
    ∃ st, strscpyStores m dest s.addr sz =
        (if (strscpyWords s sz sz (strscpyHead s sz sz 0)).1 < sz then
            Int.bmod (strscpyWords s sz sz (strscpyHead s sz sz 0)).1 (2 ^ 32) else -E2BIG,
          if sz ≤ (strscpyWords s sz sz (strscpyHead s sz sz 0)).1 ∧ 0 < sz then st.store (dest + sz - 1) [0] else st) ∧
      (sz ≤ s.length ∨ sz - s.lastWord < 2 ^ 31 → At m s dest (strscpyWords s sz sz (strscpyHead s sz sz 0)).2 st) := by
  obtain ⟨hhead, hat⟩ := copyHead_refines (n := sz) (at_zero m s dest) hm hapart (Nat.zero_le _)
  have hle : strscpyHead s sz sz 0 ≤ s.length := by
    rw [strscpyHead_eq]
    omega
  obtain ⟨hwords, hlast⟩ := strscpyWords_refines (n := sz) hsz hat hm hapart hle
  refine ⟨(copyWords s.addr dest sz sz (copyHead s.addr dest sz sz ⟨m, []⟩ 0).1 (strscpyHead s sz sz 0)).1, ?_, fun hsmall => hlast ?_⟩
  · unfold strscpyStores
    dsimp only
    rewrite [hhead, hwords]
    rfl
  · obtain hcut | hsmall := hsmall
    · exact .inl hcut
    · obtain hlt | hcut := Nat.lt_or_ge s.length sz
      · rw [strscpyHead_of_lt hlt]
        exact .inr hsmall
      · exact .inl hcut

theorem load_text {m' : Memory} (hk : k ≤ s.length) (hbytes : ∀ i < k, m' (dest + i) = s.text.getD i 0) (hnul : m' (dest + k) = 0) :
    m'.load dest (k + 1) = s.text.take k ++ [0] := by
  have hlen : (s.text.take k).length = k := List.length_take_of_le hk
  refine List.ext_getElem (by rw [Memory.length_load, List.length_append, hlen]; rfl) fun i hi hi' => ?_
  rw [Memory.length_load] at hi
  simp only [Memory.load, List.getElem_map, List.getElem_range]
  obtain hlt | rfl := Nat.lt_succ_iff_lt_or_eq.mp hi
  · rw [hbytes i hlt, List.getElem_append_left (by omega), List.getElem_take, List.getD_eq_getElem]
  · rw [hnul, List.getElem_append_right (by omega)]
    simp

theorem bounded_iff_of_lt (hsz : sz < 2 ^ 32) (hm : s.In m) (hapart : Apart dest sz s) (hlt : s.length < sz) :
    Bounded m s dest sz ↔ s.length < 2 ^ 31 ∧ sz - s.lastWord < 2 ^ 31 := by
  obtain ⟨st, hrun, hat⟩ := strscpyStores_of_words hsz hm hapart
  rw [strscpyHead_of_lt hlt] at hrun hat
  by_cases hsmall : sz - s.lastWord < 2 ^ 31
  · have hwords := @strscpyWords_fits s sz _ (min s.length s.head) hlt hsmall (Nat.min_le_left _ _) (Nat.le_add_left sz _)
    have hat := hat (.inr hsmall)
    rw [hwords] at hrun hat
    dsimp only at hrun hat
    rw [if_pos hlt, if_neg (by omega)] at hrun
    constructor
    · intro h
      have hret := h.ret
      rw [hrun, if_pos hlt] at hret
      refine ⟨?_, hsmall⟩
      by_contra hlarge
      have hle := Int.bmod_lt (x := (s.length : ℤ)) (m := 2 ^ 32) (by decide)
      omega
    · rintro ⟨hlen, -⟩
      refine ⟨fun e he => ?_, fun _ => ?_, ?_⟩
      · rw [hrun] at he
        have hin := hat.inside e he
        omega
      · have hmin : min s.length (sz - 1) = s.length := by omega
        have htake : s.text.take (sz - 1) = s.text.take s.length := by
          rw [CText.length] at hlt ⊢
          rw [List.take_of_length_le (by omega), List.take_length]
        have hcopied : ∀ i ≤ s.length, st.mem (dest + i) = s.text.getD i 0 := fun i hi => hat.mem hm (Nat.lt_succ_of_le hi) hi
        rw [hrun, hmin, htake]
        refine load_text (Nat.le_refl _) (fun i hi => hcopied i (Nat.le_of_lt hi)) ?_
        rw [hcopied _ (Nat.le_refl _)]
        exact List.getD_eq_default _ _ (Nat.le_refl _)
      · have hself : Int.bmod s.length (2 ^ 32) = s.length := Int.bmod_eq_of_le (by omega) (by omega)
        rw [hrun, if_pos hlt]
        dsimp only
        exact hself
  · have hwords := @strscpyWords_far s sz _ (min s.length s.head) hlt (Nat.le_of_not_lt hsmall) (Nat.min_le_left _ _)
      (Nat.le_add_left sz _)
    refine ⟨fun h => absurd h.ret ?_, fun h => absurd h.2 hsmall⟩
    rw [hrun, hwords, if_neg (Nat.lt_irrefl _), if_pos hlt, E2BIG]
    omega

theorem bounded_iff_of_ge (hsz : sz < 2 ^ 32) (hm : s.In m) (hapart : Apart dest sz s) (hge : sz ≤ s.length) :
    Bounded m s dest sz ↔ (sz - s.head) % 4 = 0 := by
  obtain ⟨st, hrun, hat⟩ := strscpyStores_of_words hsz hm hapart
  obtain ⟨hpos, hreach, -⟩ := strscpyWords_cut hge (strscpyHead_le s sz) (Nat.le_add_left sz _)
  have hat := hat (.inl hge)
  have hlast := Nat.le_trans hpos (strscpyWords_reach hge)
  have hmod : (sz - strscpyHead s sz sz 0) % 4 = 0 ↔ (sz - s.head) % 4 = 0 := by
    rw [strscpyHead_eq]
    omega
  rw [← hmod, ← hreach]
  generalize (strscpyWords s sz sz (strscpyHead s sz sz 0)).2 = reach at hat hlast
  rw [if_neg (Nat.not_lt.mpr hpos)] at hrun
  constructor
  · intro h
    obtain hzero | ⟨e, he, hend⟩ := hat.last
    · omega
    · have hmem : e ∈ (strscpyStores m dest s.addr sz).2.log := by
        rw [hrun]
        dsimp only
        split
        · exact List.mem_append_left _ he
        · exact he
      have hin := h.inside e hmem
      omega
  · intro hle
    refine ⟨fun e he => ?_, fun hsome => ?_, ?_⟩
    · rw [hrun] at he
      dsimp only at he
      split at he
      · next hnul =>
        obtain hold | hnew := List.mem_append.mp he
        · have hin := hat.inside e hold
          omega
        · rw [List.mem_singleton.mp hnew, List.length_singleton]
          omega
      · have hin := hat.inside e he
        omega
    · have hmin : min s.length (sz - 1) = sz - 1 := by omega
      have hother : ∀ i < sz - 1, (st.mem.store (dest + sz - 1) [0]) (dest + i) = s.text.getD i 0 := by
        intro i hi
        rw [Memory.store_of_lt (.inl (by omega)), hat.mem hm (by omega) (by omega)]
      have hnul : (st.mem.store (dest + sz - 1) [0]) (dest + (sz - 1)) = 0 := by
        rw [← Nat.add_sub_assoc hsome, Memory.store_of_mem (Nat.le_refl _) (by simp)]
        simp
      rw [hrun, hmin]
      dsimp only
      rw [if_pos ⟨hpos, hsome⟩]
      exact load_text (by omega) hother hnul
    · rw [hrun, if_neg (Nat.not_lt.mpr hge)]

/-- **Where `strscpy` keeps to its buffer**: a string that fits does not have `2 ^ 31` bytes of room at its
last word, and of one that does not the buffer ends with a word. -/
theorem strscpy_bounded_iff (hsz : sz < 2 ^ 32) (hm : s.In m) (hapart : Apart dest sz s) :
    Bounded m s dest sz ↔
      if s.length < sz then s.length < 2 ^ 31 ∧ sz - s.lastWord < 2 ^ 31 else (sz - s.head) % 4 = 0 := by
  split
  · next hlt => exact bounded_iff_of_lt hsz hm hapart hlt
  · next hge => exact bounded_iff_of_ge hsz hm hapart (Nat.le_of_not_lt hge)

def letters (a n : ℕ) : CText := ⟨a, List.replicate n 97, fun h => absurd (List.eq_of_mem_replicate h) (by decide)⟩

theorem letters_in (a n : ℕ) : (letters a n).In fun x => if a ≤ x ∧ x < a + n then 97 else 0 := by
  intro i hi
  have hlen : (letters a n).length = n := List.length_replicate
  rw [hlen] at hi
  show (if a ≤ a + i ∧ a + i < a + n then (97 : UInt8) else 0) = (List.replicate n 97).getD i 0
  obtain hlt | rfl := Nat.lt_or_eq_of_le hi
  · rw [if_pos ⟨by omega, by omega⟩, List.getD_eq_getElem _ _ (by rw [List.length_replicate]; exact hlt), List.getElem_replicate]
  · rw [if_neg (by omega), List.getD_eq_default _ _ (Nat.le_of_eq List.length_replicate)]

theorem strscpy_bounded_iff_six : Bounded (fun x => if 3 ≤ x ∧ x < 9 then 97 else 0) (letters 3 6) 20 8 ↔
    if (letters 3 6).length < 8 then (letters 3 6).length < 2 ^ 31 ∧ 8 - (letters 3 6).lastWord < 2 ^ 31
    else (8 - (letters 3 6).head) % 4 = 0 :=
  strscpy_bounded_iff (by decide) (letters_in 3 6) (.inr (by decide))

/-- Eight letters do not fit five bytes: two words are stored. -/
theorem strscpy_overruns : (letters 4 8).In (fun x => if 4 ≤ x ∧ x < 12 then 97 else 0) ∧ Apart 20 5 (letters 4 8) ∧
    (20 + 4, 4) ∈ (strscpyStores (fun x => if 4 ≤ x ∧ x < 12 then 97 else 0) 20 4 5).2.log ∧
    ¬ Bounded (fun x => if 4 ≤ x ∧ x < 12 then 97 else 0) (letters 4 8) 20 5 := by
  have hmem : (20 + 4, 4) ∈ (strscpyStores (fun x => if 4 ≤ x ∧ x < 12 then 97 else 0) 20 4 5).2.log := by decide
  refine ⟨letters_in 4 8, .inr (by decide), hmem, fun h => ?_⟩
  have hend := (h.inside _ hmem).2
  omega

end Sneks.Stdlib
