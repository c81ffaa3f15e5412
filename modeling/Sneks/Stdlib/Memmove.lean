import Sneks.Lib.Memory

/-!
# Moving memory: `memmove` in `lib/string.c`

`memmove` copies forward, by words, where the destination is a word or more below the source or the
source ends before the destination, and backward otherwise. Going backward it copies bytes until the
next byte is at a word boundary, and then the words at the boundaries, each with the three bytes above
it. So it stores past the end where no boundary is there, leaves bytes below the lowest boundary, and
reads bytes that it has copied already where the distance is one or two. A `long` has four bytes.
Buffers do not go past the end of the address space.
-/

namespace Sneks.Stdlib
open Lib

def repMovs (u : ℕ) : ℕ → Memory → ℕ → ℕ → Memory
  | 0, m, _, _ => m
  | n + 1, m, dst, src => repMovs u n (m.store dst (m.load src u)) (dst + u) (src + u)

def memcpyForward (m : Memory) (dst src len : ℕ) : Memory :=
  repMovs 1 (len % 4) (repMovs 4 (len / 4) m dst src) (dst + 4 * (len / 4)) (src + 4 * (len / 4))

/-- The first loop of `memcpy_backward`, with `k` bytes left, and how many it leaves. -/
def backwardBytes (dst src : ℕ) : ℕ → Memory → Memory × ℕ
  | 0, m => (m, 0)
  | k + 1, m =>
    if (dst + k) % 4 ≠ 0 then backwardBytes dst src k (m.store (dst + k) (m.load (src + k) 1)) else (m, k + 1)

/-- Its second loop, in at most `n` turns. The difference of the pointers is signed. -/
def backwardWords (dst src : ℕ) : ℕ → ℕ → Memory → Memory
  | 0, _, m => m
  | n + 1, k, m =>
    if 1 ≤ k ∧ k - 1 < 2 ^ 31 then
      backwardWords dst src n (k - 4) (m.store (dst + (k - 1)) (m.load (src + (k - 1)) 4))
    else m

def memcpyBackward (m : Memory) (dst src len : ℕ) : Memory :=
  let (m, k) := backwardBytes dst src len m
  backwardWords dst src k k m

def memmove (m : Memory) (dst src len : ℕ) : Memory :=
  if dst + 4 ≤ src ∨ src + len < dst then memcpyForward m dst src len else memcpyBackward m dst src len

def BetweenWords (dst len : ℕ) : Prop := dst + len ≤ (dst + 3) / 4 * 4

/-- The addresses and lengths that `memmove` is right for. -/
def Movable (dst src len : ℕ) : Prop :=
  dst + 4 ≤ src ∨ src + len < dst ∨ dst = src ∨
    (BetweenWords dst len ∧ ¬ (dst < src ∧ src < dst + len)) ∨
    (dst % 4 = 0 ∧ len % 4 = 0 ∧ src + 3 ≤ dst ∧ len ≤ 2 ^ 31)

-- Forward

variable {m m' : Memory} {dst src len u n k k' x : ℕ}

theorem repMovs_copied (h : dst + u ≤ src ∨ src + n * u ≤ dst) : m.Copied (repMovs u n m dst src) dst src (n * u) := by
  induction n generalizing m dst src with
  | zero =>
    rw [Nat.zero_mul]
    exact Memory.copied_zero m dst src
  | succ n ih =>
    rw [Nat.succ_mul] at h ⊢
    rw [Nat.add_comm (n * u) u]
    exact (Memory.copied_store m dst src u).up (ih (by omega)) (by omega)

theorem memcpyForward_copied (h : dst + 4 ≤ src ∨ src + len < dst) :
    m.Copied (memcpyForward m dst src len) dst src len := by
  have hwords := @repMovs_copied m dst src 4 (len / 4) (by omega)
  have hbytes := @repMovs_copied (repMovs 4 (len / 4) m dst src) (dst + 4 * (len / 4)) (src + 4 * (len / 4)) 1 (len % 4)
    (by omega)
  rw [Nat.mul_comm] at hwords
  rw [Nat.mul_one] at hbytes
  have hall := hwords.up hbytes (by omega)
  rwa [Nat.div_add_mod] at hall

-- Backward

theorem backwardBytes_left (h : backwardBytes dst src k m = (m', k')) :
    k' ≤ k ∧ (k' ≠ 0 → (dst + k' - 1) % 4 = 0) ∧ ∀ j, k' ≤ j → j < k → (dst + j) % 4 ≠ 0 := by
  induction k generalizing m with
  | zero =>
    cases h
    exact ⟨Nat.le_refl _, fun h => absurd rfl h, fun j _ hj => absurd hj (Nat.not_lt_zero j)⟩
  | succ k ih =>
    rw [backwardBytes] at h
    split at h
    · next hmod =>
      obtain ⟨hle, hstop, hpassed⟩ := ih h
      refine ⟨Nat.le_succ_of_le hle, hstop, fun j hj hlt => ?_⟩
      obtain rfl | hlt' := Nat.eq_or_lt_of_le (Nat.le_of_lt_succ hlt)
      · exact hmod
      · exact hpassed j hj hlt'
    · next hmod =>
      cases h
      exact ⟨Nat.le_refl _, fun _ => by omega, fun j hj hlt => absurd hlt (Nat.not_lt.mpr hj)⟩

theorem backwardBytes_other (h : backwardBytes dst src k m = (m', k')) (hx : x < dst + k' ∨ dst + k ≤ x) : m' x = m x := by
  induction k generalizing m with
  | zero =>
    cases h
    rfl
  | succ k ih =>
    have hle := (backwardBytes_left h).1
    rw [backwardBytes] at h
    split at h
    · have hle' := (backwardBytes_left h).1
      rw [ih h (by omega)]
      exact (Memory.copied_store m (dst + k) (src + k) 1).other (by omega)
    · cases h
      rfl

theorem backwardBytes_copied (h : backwardBytes dst src k m = (m', k')) (hread : src ≤ dst ∨ dst + k ≤ src) :
    m.Copied m' (dst + k') (src + k') (k - k') := by
  induction k generalizing m with
  | zero =>
    cases h
    exact Memory.copied_zero _ _ _
  | succ k ih =>
    rw [backwardBytes] at h
    split at h
    · have hle := (backwardBytes_left h).1
      have hrest := ih h (by omega)
      have hfirst := Memory.copied_store m (dst + k) (src + k) 1
      have hdst : dst + k = dst + k' + (k - k') := by omega
      have hsrc : src + k = src + k' + (k - k') := by omega
      rw [hdst, hsrc] at hfirst hrest
      have hall := hfirst.down hrest (by omega)
      rwa [← Nat.sub_add_comm hle] at hall
    · cases h
      rw [Nat.sub_self]
      exact Memory.copied_zero _ _ _

theorem backwardBytes_last (h : backwardBytes dst src k m = (m', k')) (hlt : k' < k) :
    m' (dst + (k - 1)) = m (src + (k - 1)) := by
  cases k with
  | zero => exact absurd hlt (Nat.not_lt_zero _)
  | succ k =>
    rw [backwardBytes] at h
    split at h
    · have hle := (backwardBytes_left h).1
      rw [Nat.add_sub_cancel]
      by_cases hk : k' ≤ k
      · rw [backwardBytes_other h (by omega),
          (Memory.copied_store m (dst + k) (src + k) 1).mem (Nat.le_refl _) (by omega), Nat.sub_self, Nat.add_zero]
      · exact absurd hlt (by omega)
    · cases h
      exact absurd hlt (Nat.lt_irrefl _)

theorem backwardBytes_above (h : backwardBytes dst src k m = (m', k')) (hsrc : dst < src) {j : ℕ} (hle : k' ≤ j)
    (hlt : j < k) : m' (dst + j) = m' (src + j) := by
  induction k generalizing m with
  | zero => exact absurd hlt (Nat.not_lt_zero _)
  | succ k ih =>
    rw [backwardBytes] at h
    split at h
    · obtain rfl | hlt' := Nat.eq_or_lt_of_le (Nat.le_of_lt_succ hlt)
      · have hstored := Memory.copied_store m (dst + j) (src + j) 1
        rw [backwardBytes_other h (by omega), backwardBytes_other h (by omega), hstored.mem (Nat.le_refl _) (by omega),
          hstored.other (by omega), Nat.sub_self, Nat.add_zero]
      · exact ih h hlt'
    · cases h
      exact absurd hlt (by omega)

@[simp] theorem backwardWords_zero (n : ℕ) : backwardWords dst src n 0 m = m := by
  cases n with
  | zero => rfl
  | succ n => rw [backwardWords, if_neg (by omega)]

theorem backwardWords_other (hx : x < dst + (k - 1) % 4 ∨ dst + k + 3 ≤ x) : backwardWords dst src n k m x = m x := by
  induction n generalizing k m with
  | zero => rfl
  | succ n ih =>
    rw [backwardWords]
    split
    · next hk =>
      have hstored : m.store (dst + (k - 1)) (m.load (src + (k - 1)) 4) x = m x :=
        (Memory.copied_store m (dst + (k - 1)) (src + (k - 1)) 4).other (by omega)
      by_cases hmore : k ≤ 4
      · rw [Nat.sub_eq_zero_of_le hmore, backwardWords_zero, hstored]
      · rw [ih (by omega), hstored]
    · rfl

theorem backwardWords_first (hn : n ≠ 0) (hk : 1 ≤ k ∧ k - 1 < 2 ^ 31) (hle : dst + (k - 1) ≤ x)
    (hlt : x < dst + (k - 1) + 4) : backwardWords dst src n k m x = m (src + (x - dst)) := by
  cases n with
  | zero => exact absurd rfl hn
  | succ n =>
    have hstored := (Memory.copied_store m (dst + (k - 1)) (src + (k - 1)) 4).mem hle hlt
    have hsrc : src + (k - 1) + (x - (dst + (k - 1))) = src + (x - dst) := by omega
    rw [hsrc] at hstored
    rw [backwardWords, if_pos hk]
    by_cases hmore : k ≤ 4
    · rw [Nat.sub_eq_zero_of_le hmore, backwardWords_zero, hstored]
    · rw [backwardWords_other (by omega), hstored]

theorem backwardWords_copied (hn : k ≤ n) (hk : k % 4 = 1) (hbound : k - 1 < 2 ^ 31) (hread : src ≤ dst) :
    m.Copied (backwardWords dst src n k m) dst src (k + 3) := by
  induction n generalizing k m with
  | zero => exact absurd hk (by omega)
  | succ n ih =>
    rw [backwardWords, if_pos (by omega)]
    by_cases hmore : k ≤ 4
    · have hone : k = 1 := by omega
      rw [Nat.sub_eq_zero_of_le hmore, backwardWords_zero, hone]
      exact Memory.copied_store m dst src 4
    · have hfirst := Memory.copied_store m (dst + (k - 1)) (src + (k - 1)) 4
      have hrest := @ih (m.store (dst + (k - 1)) (m.load (src + (k - 1)) 4)) (k - 4) (by omega) (by omega) (by omega)
      have hless : k - 4 + 3 = k - 1 := by omega
      have hadd : k + 3 = k - 1 + 4 := by omega
      rw [hless] at hrest
      rw [hadd]
      exact hfirst.down hrest (.inl hread)

theorem backwardWords_self (n k : ℕ) : backwardWords dst dst n k m = m := by
  induction n generalizing k with
  | zero => rfl
  | succ n ih =>
    rw [backwardWords]
    split
    · rw [(Memory.copied_store m (dst + (k - 1)) (dst + (k - 1)) 4).self, ih]
    · rfl

def bytesLeft (dst len : ℕ) : ℕ := (dst + len + 3) / 4 * 4 - 3 - dst

theorem backwardBytes_eq (m : Memory) (dst src len : ℕ) : ∃ m', backwardBytes dst src len m = (m', bytesLeft dst len) := by
  obtain ⟨m', k', h⟩ : ∃ m' k', backwardBytes dst src len m = (m', k') := ⟨_, _, rfl⟩
  obtain ⟨hle, hstop, hpassed⟩ := backwardBytes_left h
  have hleft : k' = bytesLeft dst len := by
    rw [bytesLeft]
    by_cases hzero : (dst + len + 3) / 4 * 4 ≤ dst + 3
    · by_contra hne
      have := hstop (by omega)
      omega
    · have hnext := hpassed ((dst + len + 3) / 4 * 4 - 4 - dst)
      by_contra hne
      have := hstop
      omega
  exact ⟨m', hleft ▸ h⟩

theorem memcpyBackward_eq (h : backwardBytes dst src len m = (m', k)) :
    memcpyBackward m dst src len = backwardWords dst src k k m' := by rw [memcpyBackward, h]

-- Where it is right

theorem memcpyBackward_between (hbetween : BetweenWords dst len) (hread : src ≤ dst ∨ dst + len ≤ src) :
    m.Copied (memcpyBackward m dst src len) dst src len := by
  obtain ⟨m', h⟩ := backwardBytes_eq m dst src len
  have hleft : bytesLeft dst len = 0 := by
    rw [BetweenWords] at hbetween
    rw [bytesLeft]
    omega
  rw [hleft] at h
  rw [memcpyBackward_eq h, backwardWords_zero]
  exact backwardBytes_copied h hread

theorem memcpyBackward_self : memcpyBackward m dst dst len = m := by
  obtain ⟨m', h⟩ := backwardBytes_eq m dst dst len
  rw [memcpyBackward_eq h, backwardWords_self, (backwardBytes_copied h (.inl (Nat.le_refl _))).self]

theorem memcpyBackward_aligned (hdst : dst % 4 = 0) (hlen : len % 4 = 0) (hread : src + 3 ≤ dst) (hbound : len ≤ 2 ^ 31) :
    m.Copied (memcpyBackward m dst src len) dst src len := by
  by_cases hzero : len = 0
  · refine memcpyBackward_between ?_ (.inl (by omega))
    rw [BetweenWords]
    omega
  · obtain ⟨m', h⟩ := backwardBytes_eq m dst src len
    have hleft : bytesLeft dst len = len - 3 := by
      rw [bytesLeft]
      omega
    rw [hleft] at h
    rw [memcpyBackward_eq h]
    have hbytes := backwardBytes_copied h (.inl (by omega))
    have hwords := @backwardWords_copied m' dst src (len - 3) (len - 3) (Nat.le_refl _) (by omega) (by omega) (by omega)
    have hthree : len - 3 + 3 = len := by omega
    rw [hthree] at hwords
    exact hbytes.over hwords (by omega) (by omega)

theorem memmove_copied (h : Movable dst src len) : m.Copied (memmove m dst src len) dst src len := by
  rw [memmove]
  split
  · next hfwd => exact memcpyForward_copied hfwd
  · next hback =>
    obtain hfar | hbefore | rfl | ⟨hbetween, hread⟩ | ⟨hdst, hlen, hread, hbound⟩ := h
    · exact absurd (.inl hfar) hback
    · exact absurd (.inr hbefore) hback
    · rw [memcpyBackward_self]
      exact Memory.copied_self m dst len
    · exact memcpyBackward_between hbetween (by omega)
    · exact memcpyBackward_aligned hdst hlen hread hbound

-- Where it is not

theorem memcpyBackward_between_above (hbetween : BetweenWords dst len) (hsrc : dst < src) (hin : src < dst + len) :
    memcpyBackward m dst src len (dst + (dst + len - 1 - src)) = m (src + (len - 1)) := by
  obtain ⟨m', h⟩ := backwardBytes_eq m dst src len
  have hleft : bytesLeft dst len = 0 := by
    rw [BetweenWords] at hbetween
    rw [bytesLeft]
    omega
  rw [hleft] at h
  rw [memcpyBackward_eq h, backwardWords_zero, backwardBytes_above h hsrc (Nat.zero_le _) (by omega)]
  have hlast := backwardBytes_last h (by omega)
  have hsame : src + (dst + len - 1 - src) = dst + (len - 1) := by omega
  rw [hsame, hlast]

theorem memcpyBackward_lowest (h : dst % 4 ≠ 0 ∨ 2 ^ 31 < bytesLeft dst len) (hpos : bytesLeft dst len ≠ 0) :
    memcpyBackward m dst src len dst = m dst := by
  obtain ⟨m', hbytes⟩ := backwardBytes_eq m dst src len
  have hfirst : m' dst = m dst := backwardBytes_other hbytes (by omega)
  rw [memcpyBackward_eq hbytes]
  obtain hmod | hbig := h
  · rw [backwardWords_other _, hfirst]
    rw [bytesLeft] at hpos ⊢
    omega
  · obtain ⟨n, hn⟩ := Nat.exists_eq_succ_of_ne_zero hpos
    rw [hn, backwardWords, if_neg (by omega), hfirst]

theorem memcpyBackward_past (hdst : dst % 4 = 0) (hlen : len % 4 ≠ 0) (hbound : bytesLeft dst len ≤ 2 ^ 31) :
    memcpyBackward m dst src len (dst + len) =
      m (if dst + bytesLeft dst len ≤ src + len ∧ src < dst then src + (src + len - dst) else src + len) := by
  obtain ⟨m', h⟩ := backwardBytes_eq m dst src len
  have hpos : bytesLeft dst len ≠ 0 ∧ dst + len < dst + (bytesLeft dst len - 1) + 4 := by
    rw [bytesLeft]
    omega
  have hle := (backwardBytes_left h).1
  rw [memcpyBackward_eq h, backwardWords_first hpos.1 (by omega) (by omega) hpos.2, Nat.add_sub_cancel_left]
  split
  · next hin =>
    rw [(backwardBytes_copied h (.inl (by omega))).mem hin.1 (by omega)]
    congr 1
    omega
  · exact backwardBytes_other h (by omega)

theorem memcpyBackward_aligned_near (hdst : dst % 4 = 0) (hlen : len % 4 = 0) (hpos : len ≠ 0) (hbound : len ≤ 2 ^ 31)
    (hbelow : src < dst) (hnear : dst < src + 3) :
    memcpyBackward m dst src len (dst + (len - 1)) = m (src + (src + (len - 1) - dst)) := by
  obtain ⟨m', h⟩ := backwardBytes_eq m dst src len
  have hleft : bytesLeft dst len = len - 3 := by
    rw [bytesLeft]
    omega
  rw [hleft] at h
  rw [memcpyBackward_eq h, backwardWords_first (by omega) (by omega) (by omega) (by omega), Nat.add_sub_cancel_left,
    (backwardBytes_copied h (.inl (by omega))).mem (by omega) (by omega)]
  congr 1
  omega

theorem memcpyBackward_aligned_above (hdst : dst % 4 = 0) (hlen : len % 4 = 0) (hpos : len ≠ 0) (hbound : len ≤ 2 ^ 31)
    (habove : dst < src) (hnear : src < dst + 4) :
    memcpyBackward m dst src len (dst + (dst + len - 1 - src)) = m (src + (len - 1)) := by
  obtain ⟨m', h⟩ := backwardBytes_eq m dst src len
  have hleft : bytesLeft dst len = len - 3 := by
    rw [bytesLeft]
    omega
  rw [hleft] at h
  have hlast := backwardBytes_last h (by omega)
  have hsame : src + (dst + len - 1 - src) = dst + (len - 1) := by omega
  rw [memcpyBackward_eq h, backwardWords_first (by omega) (by omega) (by omega) (by omega), Nat.add_sub_cancel_left,
    hsame, hlast]

theorem movable_of_copied (hcopied : ∀ m : Memory, m.Copied (memmove m dst src len) dst src len) : Movable dst src len := by
  by_cases hfwd : dst + 4 ≤ src ∨ src + len < dst
  · obtain hfar | hbefore := hfwd
    · exact .inl hfar
    · exact .inr (.inl hbefore)
  simp only [memmove, if_neg hfwd] at hcopied
  by_cases hself : dst = src
  · exact .inr (.inr (.inl hself))
  by_cases hbetween : BetweenWords dst len
  · by_cases hread : dst < src ∧ src < dst + len
    · have hsource := Memory.source_of_copied hcopied fun m => memcpyBackward_between_above hbetween hread.1 hread.2
      rw [if_pos (by omega)] at hsource
      omega
    · exact .inr (.inr (.inr (.inl ⟨hbetween, hread⟩)))
  have hpos : bytesLeft dst len ≠ 0 ∧ len ≠ 0 := by
    rw [BetweenWords] at hbetween
    rw [bytesLeft]
    omega
  by_cases hlow : dst % 4 ≠ 0 ∨ 2 ^ 31 < bytesLeft dst len
  · have hsource := Memory.source_of_copied hcopied fun m => memcpyBackward_lowest hlow hpos.1
    rw [if_pos (by omega)] at hsource
    omega
  by_cases hlen : len % 4 = 0
  · have hbound : len ≤ 2 ^ 31 := by
      rw [bytesLeft] at hlow
      omega
    by_cases hread : src + 3 ≤ dst
    · exact .inr (.inr (.inr (.inr ⟨by omega, hlen, hread, hbound⟩)))
    obtain hbelow | habove := Nat.lt_or_gt_of_ne hself
    · have hsource := Memory.source_of_copied hcopied fun m =>
        memcpyBackward_aligned_above (by omega) hlen hpos.2 hbound hbelow (by omega)
      rw [if_pos (by omega)] at hsource
      omega
    · have hsource := Memory.source_of_copied hcopied fun m =>
        memcpyBackward_aligned_near (by omega) hlen hpos.2 hbound habove (by omega)
      rw [if_pos (by omega)] at hsource
      omega
  · have hsource := Memory.source_of_copied hcopied fun m => memcpyBackward_past (by omega) hlen (by omega)
    have hout : ¬ (dst ≤ dst + len ∧ dst + len < dst + len) := by omega
    rw [if_neg hout] at hsource
    split at hsource
    all_goals omega

/-- `memmove` leaves in the destination what the source held, and all else alone, just for these. -/
theorem memmove_exact_iff (dst src len : ℕ) :
    (∀ m : Memory, m.Copied (memmove m dst src len) dst src len) ↔ Movable dst src len :=
  ⟨movable_of_copied, fun h _ => memmove_copied h⟩

/-- Five bytes moved up by four, from a word boundary: the byte after the destination is changed. -/
theorem memmove_past :
    ¬ ∀ m : Memory, m.Copied (memmove m 8 4 5) 8 4 5 := by
  intro hcopied
  have hbyte := hcopied (fun x => UInt8.ofNat x) 13
  revert hbyte
  decide

end Sneks.Stdlib
