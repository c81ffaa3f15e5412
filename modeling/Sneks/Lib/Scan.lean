import Mathlib.Data.UInt
import Mathlib.Tactic.Common

/-!
# Scanning a range

The first position in a range that has a property, found one position after another. A scan of
adjoining ranges goes on in the second where there is none in the first.
-/

namespace Sneks.Lib

/-- The first of the `n` positions from `p` on that has the property. -/
def first (q : ℕ → Bool) (p : ℕ) : ℕ → Option ℕ
  | 0 => none
  | n + 1 => if q p then some p else first q (p + 1) n

variable {q q' : ℕ → Bool} {p k n x : ℕ}

theorem first_eq_some_iff : first q p n = some x ↔ p ≤ x ∧ x < p + n ∧ q x ∧ ∀ y, p ≤ y → y < x → q y = false := by
  induction n generalizing p with
  | zero =>
    rw [first]
    exact ⟨nofun, fun h => absurd h.2.1 (by omega)⟩
  | succ n ih =>
    rw [first]
    split
    · next hq =>
      rw [Option.some.injEq]
      constructor
      · rintro rfl
        exact ⟨Nat.le_refl _, by omega, hq, fun y hle hlt => absurd hlt (Nat.not_lt.mpr hle)⟩
      · rintro ⟨hle, -, -, hno⟩
        by_contra hne
        exact absurd (hno p (Nat.le_refl _) (by omega)) (by rw [hq]; exact Bool.noConfusion)
    · next hq =>
      rw [ih]
      constructor
      · rintro ⟨hle, hlt, hx, hno⟩
        refine ⟨by omega, by omega, hx, fun y hy hyx => ?_⟩
        obtain rfl | hgt := Nat.eq_or_lt_of_le hy
        · exact Bool.eq_false_iff.mpr hq
        · exact hno y hgt hyx
      · rintro ⟨hle, hlt, hx, hno⟩
        have hne : p ≠ x := fun heq => hq (heq ▸ hx)
        exact ⟨by omega, by omega, hx, fun y hy => hno y (by omega)⟩

theorem first_eq_none_iff : first q p n = none ↔ ∀ x, p ≤ x → x < p + n → q x = false := by
  induction n generalizing p with
  | zero => exact ⟨fun _ x hle hlt => absurd hlt (by omega), fun _ => rfl⟩
  | succ n ih =>
    rw [first]
    split
    · next hq => exact ⟨nofun, fun h => absurd (h p (Nat.le_refl _) (by omega)) (by rw [hq]; exact Bool.noConfusion)⟩
    · next hq =>
      rw [ih]
      constructor
      · intro h x hle hlt
        obtain rfl | hgt := Nat.eq_or_lt_of_le hle
        · exact Bool.eq_false_iff.mpr hq
        · exact h x hgt (by omega)
      · exact fun h x hle hlt => h x (by omega) (by omega)

theorem exists_first_not {P : ℕ → Prop} (h : ¬ ∀ x, p ≤ x → x < p + n → P x) :
    ∃ x, p ≤ x ∧ x < p + n ∧ (∀ y, p ≤ y → y < x → P y) ∧ ¬ P x := by
  induction n with
  | zero => exact absurd (fun x hle hlt => absurd hlt (Nat.not_lt.mpr hle)) h
  | succ n ih =>
    by_cases hall : ∀ x, p ≤ x → x < p + n → P x
    · refine ⟨p + n, Nat.le_add_right _ _, Nat.lt_succ_self _, hall, fun hP => h fun x hle hlt => ?_⟩
      obtain hlt | rfl := Nat.lt_succ_iff_lt_or_eq.mp hlt
      · exact hall x hle hlt
      · exact hP
    · obtain ⟨x, hle, hlt, hx⟩ := ih hall
      exact ⟨x, hle, Nat.lt_succ_of_lt hlt, hx⟩

theorem first_add (q : ℕ → Bool) (p k n : ℕ) : first q p (k + n) = (first q p k).or (first q (p + k) n) := by
  induction k generalizing p with
  | zero => rw [Nat.zero_add, first, Option.none_or, Nat.add_zero]
  | succ k ih =>
    rw [Nat.add_right_comm, first, first, ih]
    split
    · rfl
    · rw [Nat.add_assoc p 1 k, Nat.add_comm 1 k]

theorem first_of_le (h : k ≤ n) : first q p k = (first q p n).filter (· < p + k) := by
  obtain ⟨l, rfl⟩ := Nat.exists_eq_add_of_le h
  rw [first_add]
  cases hk : first q p k with
  | some x =>
    have hlt := (first_eq_some_iff.mp hk).2.1
    rw [Option.some_or, Option.filter_some, if_pos (decide_eq_true hlt)]
  | none =>
    rw [Option.none_or]
    cases hl : first q (p + k) l with
    | none => rfl
    | some x =>
      have hle := (first_eq_some_iff.mp hl).1
      rw [Option.filter_some, if_neg]
      exact fun hlt => absurd (of_decide_eq_true hlt) (Nat.not_lt.mpr hle)

theorem first_eq_first_iff : first q p n = first q' p n ↔
    ∀ x, p ≤ x → x < p + n → (∀ y, p ≤ y → y < x → q y = false) → q x = q' x := by
  induction n generalizing p with
  | zero => exact ⟨fun _ x hle hlt => absurd hlt (by omega), fun _ => rfl⟩
  | succ n ih =>
    have hlater : ∀ r, first r (p + 1) n ≠ some p := fun r h => absurd (first_eq_some_iff.mp h).1 (by omega)
    rw [first, first]
    by_cases hq : q p
    · rw [if_pos hq]
      constructor
      · intro h x hle hlt hno
        obtain rfl | hgt := Nat.eq_or_lt_of_le hle
        · split at h
          · next hq' => rw [hq, hq']
          · exact absurd h.symm (hlater q')
        · exact absurd hq (by rw [hno p (Nat.le_refl _) hgt]; exact Bool.noConfusion)
      · intro h
        rw [if_pos ((h p (Nat.le_refl _) (by omega) fun y hle hlt => absurd hlt (Nat.not_lt.mpr hle)).symm.trans hq)]
    · rw [if_neg hq]
      have hq := Bool.eq_false_iff.mpr hq
      constructor
      · intro h x hle hlt hno
        have hq' : q' p = false := by
          by_contra hne
          rw [if_pos (by simpa using hne)] at h
          exact absurd h (hlater q)
        rw [hq', if_neg Bool.false_ne_true] at h
        obtain rfl | hgt := Nat.eq_or_lt_of_le hle
        · rw [hq, hq']
        · exact ih.mp h x hgt (by omega) fun y hy => hno y (by omega)
      · intro h
        have hq' := (h p (Nat.le_refl _) (by omega) fun y hle hlt => absurd hlt (Nat.not_lt.mpr hle)).symm.trans hq
        rw [hq', if_neg Bool.false_ne_true]
        refine ih.mpr fun x hle hlt hno => h x (by omega) (by omega) fun y hy hyx => ?_
        obtain rfl | hgt := Nat.eq_or_lt_of_le hy
        · exact hq
        · exact hno y hgt hyx

theorem first_congr (h : ∀ x, p ≤ x → x < p + n → q x = q' x) : first q p n = first q' p n := by
  induction n generalizing p with
  | zero => rfl
  | succ n ih =>
    rw [first, first, h p (Nat.le_refl _) (by omega), ih fun x hle hlt => h x (by omega) (by omega)]

theorem first_shift (q : ℕ → Bool) (p k n : ℕ) : first q (p + k) n = (first (fun x => q (x + k)) p n).map (· + k) := by
  induction n generalizing p with
  | zero => rfl
  | succ n ih =>
    rw [first, first]
    split
    · rfl
    · rw [← ih, Nat.add_right_comm]

end Sneks.Lib
