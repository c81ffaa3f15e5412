import Mathlib.Data.Option.Basic
import Sneks.Stdlib.Simd

/-!
# Looking for a byte: `memchr` and `strnlen` in `lib/string.c`

Bytes are looked at one at a time up to a word boundary, and four at a time from there on. The last
word may reach past the bound; what is found there does not count.
-/

namespace Sneks.Stdlib
open Lib

/-- The loop over bytes, with `k` of them left: what is found, or where the loop stops and what is left
then. -/
def scanHead (m : Memory) (hit : UInt8 → Bool) : ℕ → ℕ → ℕ ⊕ ℕ × ℕ
  | 0, p => .inr (p, 0)
  | k + 1, p => if p % 4 ≠ 0 then if hit (m p) then .inl p else scanHead m hit k (p + 1) else .inr (p, k + 1)

/-- The loop over words, for at most `n` turns: the first byte that is marked in a word that is tested. -/
def scanWords (m : Memory) (test : BitVec 32 → Bool) (mask : BitVec 32 → BitVec 32) : ℕ → ℕ → ℕ → Option ℕ
  | 0, _, _ => none
  | n + 1, k, p =>
    if 0 < k then
      if test (loadLel m p) then some (p + (ffsl (mask (loadLel m p)) / 8 - 1))
      else scanWords m test mask n (k - 4) (p + 4)
    else none

def memchr (m : Memory) (ptr : ℕ) (c : BitVec 32) (n : ℕ) : Option ℕ :=
  match scanHead m (fun b => b.toBitVec.zeroExtend 32 == c) n ptr with
  | .inl p => some p
  | .inr (p, k) => (scanWords m (fun x => byteMask x c != 0) (byteMask · c) k k p).filter fun spot => spot - ptr < n

def strnlen (m : Memory) (str max : ℕ) : ℕ :=
  match scanHead m (· == 0) max str with
  | .inl s => s - str
  | .inr (s, k) => (scanWords m (fun x => haszero x != 0) zeroMask k k s).elim max fun spot => min max (spot - str)

variable {m : Memory} {hit : UInt8 → Bool} {q : ℕ → Bool} {test : BitVec 32 → Bool} {mask : BitVec 32 → BitVec 32}
  {k n p : ℕ}

def wordUp (p : ℕ) : ℕ := (p + 3) / 4 * 4

structure Stopped (q : ℕ → Bool) (p k p' k' : ℕ) : Prop where
  le : p ≤ p'
  up : p' ≤ wordUp p
  even : p' % 4 = 0 ∨ k' = 0
  sum : p' + k' = p + k
  clear : first q p (p' - p) = none

theorem Stopped.rest {p' k' : ℕ} (h : Stopped q p k p' k') : first q p k = first q p' k' := by
  obtain ⟨l, rfl⟩ := Nat.exists_eq_add_of_le h.le
  have hk : k = l + k' := Nat.add_left_cancel (h.sum.symm.trans (Nat.add_assoc ..))
  have hclear := h.clear
  rw [Nat.add_sub_cancel_left] at hclear
  rw [hk, first_add, hclear, Option.none_or]

theorem scanHead_spec (hq : ∀ x, p ≤ x → x < wordUp p → q x = hit (m x)) :
    (∃ x, scanHead m hit k p = .inl x ∧ x < wordUp p ∧ first q p k = some x) ∨
      ∃ p' k', scanHead m hit k p = .inr (p', k') ∧ Stopped q p k p' k' := by
  induction k generalizing p with
  | zero => exact .inr ⟨p, 0, rfl, ⟨Nat.le_refl _, by rw [wordUp]; omega, .inr rfl, rfl, by rw [Nat.sub_self]; rfl⟩⟩
  | succ k ih =>
    rw [scanHead]
    split
    · next hodd =>
      have hup : wordUp (p + 1) = wordUp p := by
        rw [wordUp, wordUp]
        omega
      have hhere : q p = hit (m p) := hq p (Nat.le_refl _) (by rw [wordUp]; omega)
      split
      · next hhit =>
        refine .inl ⟨p, rfl, by rw [wordUp]; omega, ?_⟩
        rw [first, hhere, if_pos hhit]
      · next hhit =>
        have hstep : first q p (k + 1) = first q (p + 1) k := by rw [first, hhere, if_neg hhit]
        obtain ⟨x, hs, hlt, hfound⟩ | ⟨p', k', hs, hstop⟩ := ih fun x hle hlt => hq x (by omega) (hup ▸ hlt)
        · exact .inl ⟨x, hs, hup ▸ hlt, hstep.trans hfound⟩
        · have hle := hstop.le
          have hsum := hstop.sum
          have hlen : p' - p = p' - (p + 1) + 1 := by omega
          refine .inr ⟨p', k', hs, ⟨by omega, hup ▸ hstop.up, hstop.even, by omega, ?_⟩⟩
          rw [hlen, first, hhere, if_neg hhit]
          exact hstop.clear
    · next heven =>
      exact .inr ⟨p, k + 1, rfl, ⟨Nat.le_refl _, by rw [wordUp]; omega, .inl (not_not.mp heven), rfl, by rw [Nat.sub_self]; rfl⟩⟩

/-- From an address on a mask marks the bytes of a word that have the property, and the test says if there
are any. -/
structure Marks (m : Memory) (q : ℕ → Bool) (test : BitVec 32 → Bool) (mask : BitVec 32 → BitVec 32) (a : ℕ) : Prop where
  marked : ∀ p, a ≤ p → p % 4 = 0 →
    mask (loadLel m p) = word (mark (q (p + 3))) (mark (q (p + 2))) (mark (q (p + 1))) (mark (q p))
  tested : ∀ p, test (loadLel m p) = (mask (loadLel m p) != 0)

theorem Marks.scanWords_lt {a x : ℕ} (h : Marks m q test mask a) (ha : a ≤ p) (heven : p % 4 = 0)
    (hs : scanWords m test mask n k p = some x) : x < p + 4 * n := by
  induction n generalizing k p with
  | zero => cases hs
  | succ n ih =>
    rw [scanWords, h.tested] at hs
    have hword := first_eq_ffsl (h.marked p ha heven)
    split at hs
    · split at hs
      · next hne =>
        rw [if_neg (bne_iff_ne.mp hne)] at hword
        have hlt := (first_eq_some_iff.mp hword).2.1
        rw [← Option.some.inj hs]
        omega
      · have hlt := ih (Nat.le_trans ha (Nat.le_add_right _ _)) (by omega) hs
        omega
    · cases hs

theorem le_of_scanWords {x : ℕ} (h : scanWords m test mask n k p = some x) : p ≤ x := by
  induction n generalizing k p with
  | zero => cases h
  | succ n ih =>
    rw [scanWords] at h
    split at h
    · split at h
      · cases h
        exact Nat.le_add_right _ _
      · exact Nat.le_trans (Nat.le_add_right _ _) (ih h)
    · cases h

theorem Marks.scanWords {a : ℕ} (h : Marks m q test mask a) (ha : a ≤ p) (heven : p % 4 = 0 ∨ k = 0) (hn : k ≤ 4 * n) :
    (scanWords m test mask n k p).filter (· < p + k) = first q p k := by
  induction n generalizing k p with
  | zero =>
    obtain rfl : k = 0 := by omega
    rfl
  | succ n ih =>
    rw [Stdlib.scanWords]
    split
    · next hpos =>
      have hword := first_eq_ffsl (h.marked p ha (heven.resolve_right (Nat.ne_of_gt hpos)))
      rw [h.tested]
      by_cases hz : mask (loadLel m p) = 0
      · rw [if_pos hz] at hword
        rw [if_neg (by rw [hz]; decide)]
        by_cases hle : 4 ≤ k
        · have hrest := @ih (k - 4) (p + 4) (by omega) (by omega) (by omega)
          have hsum : p + 4 + (k - 4) = p + k := by omega
          have hk : k = 4 + (k - 4) := by omega
          rw [hsum] at hrest
          rw [hrest, hk, first_add, hword, Option.none_or, ← hk]
        · have hzero : k - 4 = 0 := by omega
          have hstop : Stdlib.scanWords m test mask n 0 (p + 4) = none := by
            cases n with
            | zero => rfl
            | succ n => exact if_neg (Nat.lt_irrefl 0)
          rw [hzero, hstop, first_of_le (Nat.le_of_lt (Nat.lt_of_not_le hle)), hword]
      · rw [if_neg hz] at hword
        rw [if_pos (bne_iff_ne.mpr hz), ← hword]
        by_cases hle : 4 ≤ k
        · have hk : k = 4 + (k - 4) := by omega
          have hfound := (first_eq_some_iff.mp hword).2.1
          rw [hk, first_add, hword, Option.some_or, Option.filter_some, if_pos (decide_eq_true (by omega))]
        · exact (first_of_le (Nat.le_of_lt (Nat.lt_of_not_le hle))).symm
    · next hpos =>
      obtain rfl : k = 0 := by omega
      rfl

theorem marks_byte (m : Memory) (c : UInt8) :
    Marks m (fun x => m x == c) (fun x => byteMask x (c.toBitVec.zeroExtend 32) != 0) (byteMask · (c.toBitVec.zeroExtend 32)) 0 where
  marked p _ _ := by
    have hbyte : ∀ x : UInt8, (x.toBitVec == c.toBitVec) = (x == c) := by
      intro x
      rw [Bool.eq_iff_iff, beq_iff_eq, beq_iff_eq]
      exact UInt8.toBitVec_inj
    rw [byteMask, broadcastL_byte, zeroMask_xor, hbyte, hbyte, hbyte, hbyte]
  tested _ := rfl

theorem marks_zero (m : Memory) : Marks m (fun x => m x == 0) (fun x => haszero x != 0) zeroMask 0 where
  marked p _ _ := zeroMask_loadLel m p
  tested p := by
    rw [Bool.eq_iff_iff, bne_iff_ne, bne_iff_ne, loadLel]
    refine not_congr (haszero_eq_zero.trans ?_)
    rw [zeroMask_word, word_eq_zero, flag_eq_zero, flag_eq_zero, flag_eq_zero, flag_eq_zero]

theorem memchr_eq (m : Memory) (p : ℕ) (c : UInt8) (n : ℕ) :
    memchr m p (c.toBitVec.zeroExtend 32) n = first (fun x => m x == c) p n := by
  have hq : ∀ x, p ≤ x → x < wordUp p → (m x == c) = ((m x).toBitVec.zeroExtend 32 == c.toBitVec.zeroExtend 32) := by
    intro x _ _
    have hinj : ∀ a b : BitVec 8, a.zeroExtend 32 = b.zeroExtend 32 → a = b := by
      intro a b h
      have hnat := congrArg BitVec.toNat h
      rw [BitVec.toNat_setWidth, BitVec.toNat_setWidth] at hnat
      refine BitVec.eq_of_toNat_eq ?_
      omega
    rw [Bool.eq_iff_iff, beq_iff_eq, beq_iff_eq]
    exact ⟨fun h => by rw [h], fun h => UInt8.toBitVec_inj.mp (hinj _ _ h)⟩
  rw [memchr]
  obtain ⟨x, hs, -, hfirst⟩ | ⟨p', k', hs, hstop⟩ := @scanHead_spec m
    (fun b => b.toBitVec.zeroExtend 32 == c.toBitVec.zeroExtend 32) (fun x => m x == c) n p hq
  · rw [hs, hfirst]
  · rw [hs, hstop.rest, ← (marks_byte m c).scanWords (Nat.zero_le _) hstop.even (by omega : k' ≤ 4 * k'), hstop.sum]
    dsimp only
    cases hw : scanWords m (fun x => byteMask x (c.toBitVec.zeroExtend 32) != 0) (byteMask · (c.toBitVec.zeroExtend 32)) k' k' p' with
    | none => rfl
    | some x =>
      have hx := Nat.le_trans hstop.le (le_of_scanWords hw)
      have hsub : decide (x - p < n) = decide (x < p + n) := decide_eq_decide.mpr (Nat.sub_lt_iff_lt_add' hx)
      rw [Option.filter_some, Option.filter_some, hsub]

theorem strnlen_eq (m : Memory) (s max : ℕ) : strnlen m s max = (first (fun x => m x == 0) s max).elim max (· - s) := by
  rw [strnlen]
  obtain ⟨x, hs, -, hfirst⟩ | ⟨p', k', hs, hstop⟩ := @scanHead_spec m (· == 0) _ max s fun _ _ _ => rfl
  · rw [hs, hfirst]
    rfl
  · have hsum := hstop.sum
    rw [hs, hstop.rest, ← (marks_zero m).scanWords (Nat.zero_le _) hstop.even (by omega : k' ≤ 4 * k'), hsum]
    dsimp only
    cases hw : scanWords m (fun x => haszero x != 0) zeroMask k' k' p' with
    | none => rfl
    | some x =>
      have hx := Nat.le_trans hstop.le (le_of_scanWords hw)
      rw [Option.filter_some]
      split
      · next hlt =>
        have hlt := of_decide_eq_true hlt
        exact Nat.min_eq_right (by omega)
      · next hlt =>
        have hge := mt decide_eq_true hlt
        exact Nat.min_eq_left (by omega)

/-- **Scanning by words** finds what a loop over bytes finds, whatever is behind the bound. -/
theorem memchr_strnlen_exact (m : Memory) :
    (∀ (p : ℕ) (c : UInt8) (n : ℕ), memchr m p (c.toBitVec.zeroExtend 32) n = first (fun x => m x == c) p n) ∧
      ∀ s max : ℕ, strnlen m s max = (first (fun x => m x == 0) s max).elim max (· - s) :=
  ⟨memchr_eq m, strnlen_eq m⟩

example : memchr (fun x => if x = 6 then 7 else 0) 2 7 5 = some 6 := by decide

end Sneks.Stdlib
