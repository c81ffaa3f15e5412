import Mathlib.Data.Nat.Log
import Mathlib.Data.Nat.Notation
import Mathlib.Tactic.Ring

/-!
# Ranges in aligned blocks

A word is rounded down to a power of two by a mask. A range is divided into blocks of a power of two,
each aligned to its size, and from the left each as large as can be. The blocks grow first, while their
start's alignment is what limits them, and then shrink with what is left. So no size is there more than
twice.
-/

namespace Sneks.Lib

variable {ks : List ℕ} {a e i j k n p q : ℕ}

theorem clearLow_toNat (x : BitVec n) (j : ℕ) :
    (x &&& ~~~BitVec.ofNat n (2 ^ j - 1)).toNat = x.toNat / 2 ^ j * 2 ^ j := by
  have hsplit : x &&& ~~~BitVec.ofNat n (2 ^ j - 1) = x >>> j <<< j := by
    ext i hi
    have hmask : (BitVec.ofNat n (2 ^ j - 1))[i] = decide (i < j) := by
      rw [← BitVec.getLsbD_eq_getElem, BitVec.getLsbD_ofNat, Nat.testBit_two_pow_sub_one, decide_eq_true hi, Bool.true_and]
    rw [BitVec.getElem_and, BitVec.getElem_not, hmask, BitVec.getElem_shiftLeft, BitVec.getElem_ushiftRight]
    by_cases hlow : i < j
    · simp [hlow]
    · have hback : j + (i - j) = i := by omega
      simp [hlow, hback, BitVec.getLsbD_eq_getElem hi]
  rw [hsplit, BitVec.toNat_shiftLeft, BitVec.toNat_ushiftRight, Nat.shiftLeft_eq, Nat.shiftRight_eq_div_pow]
  exact Nat.mod_eq_of_lt ((Nat.div_mul_le_self _ _).trans_lt x.isLt)

inductive Greedy : List ℕ → ℕ → ℕ → Prop
  | nil (a : ℕ) : Greedy [] a a
  | cons {ks : List ℕ} {a e k : ℕ} (hdvd : 2 ^ k ∣ a) (hroom : a + 2 ^ k ≤ e)
      (hmax : 2 ^ (k + 1) ∣ a → e < a + 2 ^ (k + 1)) (hrest : Greedy ks (a + 2 ^ k) e) : Greedy (k :: ks) a e

theorem dvd_add_of_not_dvd (h : 2 ^ k ∣ a) (hnot : ¬ 2 ^ (k + 1) ∣ a) : 2 ^ (k + 1) ∣ a + 2 ^ k := by
  obtain ⟨m, rfl⟩ := h
  have hodd : m % 2 = 1 := by
    by_contra heven
    apply hnot
    rw [Nat.pow_succ]
    exact Nat.mul_dvd_mul_left _ (Nat.dvd_of_mod_eq_zero (by omega))
  rw [← Nat.mul_succ, Nat.pow_succ]
  exact Nat.mul_dvd_mul_left _ (Nat.dvd_of_mod_eq_zero (by omega))

namespace Greedy

theorem le (h : Greedy ks a e) : a ≤ e := by
  cases h with
  | nil => exact le_rfl
  | cons _ hroom _ _ => exact (Nat.le_add_right _ _).trans hroom

theorem descent (h : Greedy ks a e) (hdvd : 2 ^ j ∣ a) (hlt : e < a + 2 ^ j) : 2 ^ ks.length ≤ e - a + 1 := by
  induction h generalizing j with
  | nil => exact Nat.le_add_left _ _
  | @cons ks a e k hk hroom hmax _ ih =>
    have hkj : k < j := (Nat.pow_lt_pow_iff_right (by decide)).mp (Nat.lt_of_add_lt_add_left (hroom.trans_lt hlt))
    have hleft : e < a + 2 ^ (k + 1) := hmax ((Nat.pow_dvd_pow 2 hkj).trans hdvd)
    rw [Nat.pow_succ] at hleft
    have hrest := ih (j := k) ((Nat.dvd_add_right hk).mpr dvd_rfl) (by omega)
    rw [List.length_cons, Nat.pow_succ]
    omega

theorem ascent (h : Greedy ks a e) (hdvd : 2 ^ i ∣ a) :
    ∃ p q, ks.length = p + q ∧ 2 ^ i * 2 ^ p + 2 ^ q ≤ e - a + 2 ^ i + 1 := by
  induction h generalizing i with
  | nil => exact ⟨0, 0, rfl, by omega⟩
  | @cons ks a e k hk hroom hmax hrest ih =>
    by_cases hmore : 2 ^ (k + 1) ∣ a
    · refine ⟨0, (k :: ks).length, (Nat.zero_add _).symm, ?_⟩
      have hd := (cons hk hroom hmax hrest).descent hmore (hmax hmore)
      omega
    · have hik : i ≤ k := by
        by_contra hlt
        exact hmore ((Nat.pow_dvd_pow 2 (Nat.not_le.mp hlt)).trans hdvd)
      obtain ⟨p, q, hlen, hsum⟩ := ih (dvd_add_of_not_dvd hk hmore)
      refine ⟨p + 1, q, by rw [List.length_cons, hlen]; omega, ?_⟩
      -- the block of size `2 ^ k` is not smaller than one of size `2 ^ i`
      obtain ⟨d, hd⟩ := Nat.exists_eq_add_of_le (Nat.pow_le_pow_right (n := 2) (by decide) hik)
      have hpos : d * 1 ≤ d * 2 ^ (p + 1) := Nat.mul_le_mul_left d (Nat.one_le_two_pow)
      have hgrown : 2 ^ k * 2 ^ (p + 1) = 2 ^ (k + 1) * 2 ^ p := by ring
      have hsplit : 2 ^ k * 2 ^ (p + 1) = 2 ^ i * 2 ^ (p + 1) + d * 2 ^ (p + 1) := by rw [hd, Nat.add_mul]
      rw [Nat.pow_succ 2 k] at hgrown hsum
      omega

/-- **The number of blocks.** -/
theorem length_le (h : Greedy ks a e) (hlen : 2 ≤ e - a) : ks.length ≤ 2 * Nat.log2 (e - a) := by
  obtain ⟨p, q, hpq, hsum⟩ := h.ascent (i := 0) (one_dvd a)
  have hlt : e - a < 2 ^ (Nat.log2 (e - a) + 1) := Nat.lt_log2_self
  have hone : 1 ≤ Nat.log2 (e - a) := (Nat.le_log2 (by omega)).mpr hlen
  generalize Nat.log2 (e - a) = m at hlt hone ⊢
  have hp := Nat.one_le_two_pow (n := p)
  have hq := Nat.one_le_two_pow (n := q)
  -- of one kind there cannot be more than `m + 1`, and then there is none of the other
  have hkind : ∀ {r s : ℕ}, 2 ^ r + 2 ^ s ≤ e - a + 2 → m + 1 ≤ r → r + s ≤ m + 1 := by
    intro r s hrs hr
    have hr' : 2 ^ (m + 1) ≤ 2 ^ r := Nat.pow_le_pow_right (by decide) hr
    have hs : s = 0 := by
      by_contra hs
      have := Nat.pow_le_pow_right (n := 2) (by decide) (Nat.one_le_iff_ne_zero.mpr hs)
      omega
    have hone := Nat.one_le_two_pow (n := s)
    have hle : r < m + 2 := by
      by_contra hge
      have hge' : 2 ^ (m + 2) ≤ 2 ^ r := Nat.pow_le_pow_right (by decide) (Nat.not_lt.mp hge)
      have hfour : 4 ≤ 2 ^ (m + 1) := Nat.pow_le_pow_right (n := 2) (i := 2) (by decide) (by omega)
      rw [Nat.pow_succ 2 (m + 1)] at hge'
      omega
    omega
  rw [hpq]
  by_cases hpm : m + 1 ≤ p
  · have := hkind (r := p) (s := q) (by omega) hpm
    omega
  by_cases hqm : m + 1 ≤ q
  · have := hkind (r := q) (s := p) (by omega) hqm
    omega
  · omega

end Greedy

end Sneks.Lib
