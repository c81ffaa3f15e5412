import Sneks.Lib.Bytes
import Sneks.Lib.Memory
import Sneks.Stdlib.Memmove
import Sneks.Stdlib.Simd

/-!
# Filling memory: `memset` in `lib/string.c`

`memset` stores bytes up to a word boundary and words from there on. The last word is stored whole, so
it goes past the end where no boundary is there. The word is the fill value times `0x01010101`, so its
bytes are the low byte of the value only where the value has one byte. Buffers do not go past the end
of the address space.
-/

namespace Sneks.Stdlib
open Lib

/-- The first loop of `memset`, with `k` bytes left, the address it stops at and how many it leaves. -/
def fillBytes (c : BitVec 32) : ℕ → Memory → ℕ → Memory × ℕ × ℕ
  | 0, m, p => (m, p, 0)
  | k + 1, m, p => if p % 4 ≠ 0 then fillBytes c k (m.store p [lowByte c]) (p + 1) else (m, p, k + 1)

def fillWords (w : BitVec 32) : ℕ → ℕ → Memory → ℕ → Memory
  | 0, _, m, _ => m
  | n + 1, k, m, p => if 0 < k then fillWords w n (k - 4) (m.store p (leBytes 4 w.toNat)) (p + 4) else m

def memset (m : Memory) (p : ℕ) (c : BitVec 32) (len : ℕ) : Memory :=
  let (m, p, k) := fillBytes c len m p
  fillWords (broadcastL c) k k m p

variable {m m' : Memory} {c w : BitVec 32} {p p' k k' n x : ℕ}

theorem fillBytes_filled (h : fillBytes c k m p = (m', p', k')) :
    p ≤ p' ∧ p' + k' = p + k ∧ p' = min ((p + 3) / 4 * 4) (p + k) ∧ m.Filled m' p (p' - p) (lowByte c) := by
  induction k generalizing m p with
  | zero =>
    cases h
    refine ⟨Nat.le_refl _, rfl, by omega, ?_⟩
    rw [Nat.sub_self]
    exact Memory.filled_zero _ _ _
  | succ k ih =>
    rw [fillBytes] at h
    split at h
    · obtain ⟨hle, hsum, hend, hfilled⟩ := ih h
      have hall := (Memory.filled_store m p (lowByte c)).append hfilled
      have hlen : 1 + (p' - (p + 1)) = p' - p := by omega
      rw [hlen] at hall
      exact ⟨by omega, by omega, by omega, hall⟩
    · cases h
      refine ⟨Nat.le_refl _, rfl, by omega, ?_⟩
      rw [Nat.sub_self]
      exact Memory.filled_zero _ _ _

-- Words

theorem fillWords_apply (hn : k ≤ n) :
    fillWords w n k m p x =
      if p ≤ x ∧ x < p + (k + 3) / 4 * 4 then (leBytes 4 w.toNat).getD ((x - p) % 4) 0 else m x := by
  induction n generalizing k m p with
  | zero => rw [fillWords, if_neg (by omega)]
  | succ n ih =>
    rw [fillWords]
    split
    · rw [ih (by omega)]
      by_cases hlater : p + 4 ≤ x ∧ x < p + 4 + (k - 4 + 3) / 4 * 4
      · rw [if_pos hlater, if_pos (by omega)]
        congr 1
        omega
      · rw [if_neg hlater]
        by_cases hfirst : p ≤ x ∧ x < p + 4
        · have hlt : x - p < (leBytes 4 w.toNat).length := by
            rw [length_leBytes]
            omega
          rw [Memory.store_of_mem hfirst.1 hlt, if_pos (by omega), Nat.mod_eq_of_lt (by omega),
            List.getD_eq_getElem _ _ hlt]
        · rw [Memory.store_of_lt (by rw [length_leBytes]; omega), if_neg (by omega)]
    · rw [if_neg (by omega)]

theorem leBytes_broadcastL_iff (c : BitVec 32) :
    leBytes 4 (broadcastL c).toNat = List.replicate 4 (lowByte c) ↔ c.toNat < 256 := by
  have hc := c.isLt
  simp only [toNat_broadcastL, leBytes, lowByte, List.replicate_succ, List.replicate_zero, List.cons.injEq, and_true,
    ← UInt8.toNat_inj, UInt8.toNat_ofNat']
  constructor
  · rintro ⟨h0, h1, h2, h3⟩
    omega
  · intro h
    have h0 : 0x01010101 * c.toNat % 2 ^ 32 = 0x01010101 * c.toNat := by omega
    have h1 : 0x01010101 * c.toNat / 256 = 0x010101 * c.toNat := by omega
    have h2 : 0x010101 * c.toNat / 256 = 0x0101 * c.toNat := by omega
    have h3 : 0x0101 * c.toNat / 256 = c.toNat := by omega
    rw [h0, h1, h2, h3]
    refine ⟨?_, ?_, ?_, ?_⟩
    all_goals omega

theorem leBytes_broadcastL_getD (h : c.toNat < 256) (hn : n < 4) :
    (leBytes 4 (broadcastL c).toNat).getD n 0 = lowByte c := by
  rw [(leBytes_broadcastL_iff c).mpr h, List.getD_eq_getElem _ _ (by rw [List.length_replicate]; exact hn),
    List.getElem_replicate]

-- Where it is right

theorem memset_eq (h : fillBytes c k m p = (m', p', k')) : memset m p c k = fillWords (broadcastL c) k' k' m' p' := by
  rw [memset, h]

theorem memset_filled {len : ℕ} (h : BetweenWords p len ∨ ((p + len) % 4 = 0 ∧ c.toNat < 256)) :
    m.Filled (memset m p c len) p len (lowByte c) := by
  obtain ⟨m', p', k', hbytes⟩ : ∃ m' p' k', fillBytes c len m p = (m', p', k') := ⟨_, _, _, rfl⟩
  obtain ⟨hle, hsum, hend, hfilled⟩ := fillBytes_filled hbytes
  have hwords : m'.Filled (memset m p c len) (p + (p' - p)) k' (lowByte c) := by
    intro x
    rw [memset_eq hbytes, fillWords_apply (Nat.le_refl _)]
    obtain hbetween | ⟨hmod, hvalue⟩ := h
    · rw [BetweenWords] at hbetween
      rw [if_neg (by omega), if_neg (by omega)]
    · rw [leBytes_broadcastL_getD hvalue (Nat.mod_lt _ (by decide))]
      by_cases hin : p' ≤ x ∧ x < p' + (k' + 3) / 4 * 4
      · rw [if_pos hin, if_pos (by omega)]
      · rw [if_neg hin, if_neg (by omega)]
  have hall := hfilled.append hwords
  have hlen : p' - p + k' = len := by omega
  rwa [hlen] at hall

-- Where it is not

theorem memset_word {len : ℕ} (hle : (p + 3) / 4 * 4 ≤ x) (hlt : x < (p + len + 3) / 4 * 4) (hbetween : ¬ BetweenWords p len) :
    memset m p c len x = (leBytes 4 (broadcastL c).toNat).getD (x % 4) 0 := by
  obtain ⟨m', p', k', hbytes⟩ : ∃ m' p' k', fillBytes c len m p = (m', p', k') := ⟨_, _, _, rfl⟩
  obtain ⟨-, hsum, hend, -⟩ := fillBytes_filled hbytes
  rw [BetweenWords] at hbetween
  rw [memset_eq hbytes, fillWords_apply (Nat.le_refl _), if_pos (by omega)]
  congr 1
  omega

theorem value_of_filled {len : ℕ} (hfilled : ∀ m : Memory, m.Filled (memset m p c len) p len (lowByte c)) :
    BetweenWords p len ∨ ((p + len) % 4 = 0 ∧ c.toNat < 256) := by
  by_cases hbetween : BetweenWords p len
  · exact .inl hbetween
  have hword : (p + 3) / 4 * 4 < p + len := by
    rw [BetweenWords] at hbetween
    omega
  have hmod : (p + len) % 4 = 0 := by
    by_contra hmod
    -- the byte after the range is the word's for all memories
    have hpast : ∀ m : Memory, m (p + len) = (leBytes 4 (broadcastL c).toNat).getD ((p + len) % 4) 0 := by
      intro m
      rw [← memset_word (by omega) (by omega) hbetween, hfilled m, if_neg (by omega)]
    have hzero := hpast fun _ => 0
    have hone := hpast fun _ => 1
    exact absurd (hzero.trans hone.symm) (by decide)
  refine .inr ⟨hmod, (leBytes_broadcastL_iff c).mp ?_⟩
  apply List.ext_getElem
  · rw [length_leBytes, List.length_replicate]
  · intro i hi hi'
    rw [length_leBytes] at hi
    have hbyte := hfilled (fun _ => 0) ((p + 3) / 4 * 4 + i)
    rw [memset_word (by omega) (by omega) hbetween, if_pos (by omega)] at hbyte
    have hindex : ((p + 3) / 4 * 4 + i) % 4 = i := by omega
    rw [hindex, List.getD_eq_getElem _ _ (by rw [length_leBytes]; exact hi)] at hbyte
    rw [hbyte, List.getElem_replicate]

/-- `memset` sets the range to the low byte of the value, and leaves all else alone, just for these. -/
theorem memset_exact_iff (p : ℕ) (c : BitVec 32) (len : ℕ) :
    (∀ m : Memory, m.Filled (memset m p c len) p len (lowByte c)) ↔
      BetweenWords p len ∨ ((p + len) % 4 = 0 ∧ c.toNat < 256) :=
  ⟨value_of_filled, fun h _ => memset_filled h⟩

/-- Five bytes from a word boundary: three more are cleared. -/
theorem memset_past : ¬ ∀ m : Memory, m.Filled (memset m 8 0 5) 8 5 (lowByte 0) := by
  intro hfilled
  have hbyte := hfilled (fun _ => 1) 13
  revert hbyte
  decide

end Sneks.Stdlib
