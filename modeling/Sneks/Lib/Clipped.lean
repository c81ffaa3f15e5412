import Mathlib.Data.UInt
import Mathlib.Data.List.Basic
import Mathlib.Data.List.GetD
import Mathlib.Logic.Function.Basic

/-!
# Output that is clipped

Output goes to a buffer with room for `limit` cells and one more. What does not fit is counted
and not stored; the cell after the room may be used in between.
-/

namespace Sneks.Lib

variable {α : Type*} {limit : ℕ} {out l : List α} {b₀ b b' : ℕ → α} {a : α}

structure Clipped (limit : ℕ) (out : List α) (b₀ b : ℕ → α) : Prop where
  cells : ∀ i a, out[i]? = some a → i < limit → b i = a
  past : ∀ i, limit < i → b i = b₀ i
  none : limit = 0 → b = b₀

def fill (b : ℕ → α) (i n : ℕ) (a : α) : ℕ → α := fun k => if i ≤ k ∧ k < i + n then a else b k

def copy (b : ℕ → α) (i : ℕ) (l : List α) : ℕ → α := fun k => if i ≤ k then l.getD (k - i) (b k) else b k

def splice (b : ℕ → α) (i : ℕ) (c : ℕ → α) : ℕ → α := fun k => if i ≤ k then c (k - i) else b k

/-- The first `m` cells of `len` exchanged with the last ones. -/
def swaps (b : ℕ → α) (len : ℕ) : ℕ → ℕ → α
  | 0 => b
  | m + 1 =>
    let b := swaps b len m
    Function.update (Function.update b m (b (len - 1 - m))) (len - 1 - m) (b m)

namespace Clipped

theorem nil : Clipped limit [] b b where
  cells i a hi _ := by simp at hi
  past _ _ := rfl
  none _ := rfl

theorem append (h : Clipped limit out b₀ b) (hlimit : limit ≠ 0)
    (hkeep : ∀ i < out.length, i < limit → b' i = b i)
    (hput : ∀ k a, l[k]? = some a → out.length + k < limit → b' (out.length + k) = a)
    (hpast : ∀ i, limit < i → b' i = b i) : Clipped limit (out ++ l) b₀ b' where
  cells i a hi hlt := by
    by_cases hin : i < out.length
    · rw [List.getElem?_append_left hin] at hi
      rw [hkeep i hin hlt]
      exact h.cells i a hi hlt
    · rw [List.getElem?_append_right (Nat.not_lt.mp hin)] at hi
      have hk := hput (i - out.length) a hi (by omega)
      rwa [Nat.add_sub_of_le (Nat.not_lt.mp hin)] at hk
  past i hi := (hpast i hi).trans (h.past i hi)
  none h0 := absurd h0 hlimit

theorem skip (h : Clipped limit out b₀ b) (hfull : limit ≤ out.length) : Clipped limit (out ++ l) b₀ b where
  cells i a hi hlt := by
    rw [List.getElem?_append_left (by omega)] at hi
    exact h.cells i a hi hlt
  past := h.past
  none := h.none

theorem zero (h : Clipped 0 out b₀ b) : Clipped 0 l b₀ b where
  cells _ _ _ hlt := absurd hlt (Nat.not_lt_zero _)
  past := h.past
  none := h.none

theorem replace {c c₀ : ℕ → α} {room : ℕ} (h : Clipped limit out b₀ b) (hlimit : limit ≠ 0) (hroom : limit ≤ room)
    (hc : Clipped room l c₀ c) : Clipped limit l b₀ (fun k => if k < limit then c k else b k) where
  cells i a hi hlt := by
    rw [if_pos hlt]
    exact hc.cells i a hi (by omega)
  past i hi := by
    rw [if_neg (by omega)]
    exact h.past i hi
  none h0 := absurd h0 hlimit

theorem front (h : Clipped limit (out ++ l) b₀ b) : Clipped limit out b₀ b where
  cells i a hi hlt := by
    have hin : i < out.length := (List.getElem?_eq_some_iff.mp hi).1
    refine h.cells i a ?_ hlt
    rwa [List.getElem?_append_left hin]
  past := h.past
  none := h.none

theorem push (h : Clipped limit out b₀ b) (hlt : out.length < limit) :
    Clipped limit (out ++ [a]) b₀ (Function.update b out.length a) := by
  refine h.append (by omega) (fun i hi _ => Function.update_of_ne (by omega) _ _) (fun k c hk _ => ?_)
    (fun i hi => Function.update_of_ne (by omega) _ _)
  obtain ⟨rfl, rfl⟩ : k = 0 ∧ a = c := by simpa [List.getElem?_singleton] using hk
  exact Function.update_self ..

theorem store {i : ℕ} (h : Clipped limit out b₀ b) (hlimit : limit ≠ 0) (hlow : min out.length limit ≤ i)
    (hhigh : i ≤ limit) : Clipped limit out b₀ (Function.update b i a) where
  cells k c hk hlt := by
    have hin : k < out.length := (List.getElem?_eq_some_iff.mp hk).1
    rw [Function.update_of_ne (by omega)]
    exact h.cells k c hk hlt
  past k hk := by
    rw [Function.update_of_ne (by omega)]
    exact h.past k hk
  none h0 := absurd h0 hlimit

theorem fill {n m : ℕ} (h : Clipped limit out b₀ b) (hlt : out.length < limit) (hlow : min (limit - out.length) n ≤ m)
    (hhigh : m ≤ limit - out.length + 1) : Clipped limit (out ++ List.replicate n a) b₀ (fill b out.length m a) := by
  refine h.append (by omega) (fun i hi _ => if_neg (by omega)) (fun k c hk hin => ?_) (fun i hi => if_neg (by omega))
  obtain ⟨hkn, rfl⟩ := List.getElem?_eq_some_iff.mp hk
  rw [List.length_replicate] at hkn
  rw [List.getElem_replicate]
  exact if_pos (by omega)

theorem copy (h : Clipped limit out b₀ b) (hlt : out.length < limit) :
    Clipped limit (out ++ l) b₀ (copy b out.length (l.take (limit - out.length))) := by
  refine h.append (by omega) (fun i hi _ => if_neg (by omega)) (fun k c hk hin => ?_) (fun i hi => ?_)
  · have htake : (l.take (limit - out.length))[k]? = some c := by
      rw [List.getElem?_take_of_lt (by omega)]
      exact hk
    rw [Lib.copy, if_pos (Nat.le_add_right _ _), Nat.add_sub_cancel_left, List.getD_eq_getElem?_getD, htake,
      Option.getD_some]
  · have hlen : (l.take (limit - out.length)).length ≤ i - out.length := by
      rw [List.length_take]
      omega
    rw [Lib.copy, if_pos (by omega), List.getD_eq_default _ _ hlen]

theorem splice {c : ℕ → α} (h : Clipped limit out b₀ b) (hlt : out.length < limit)
    (hc : Clipped (limit - out.length) l (fun k => b (out.length + k)) c) :
    Clipped limit (out ++ l) b₀ (splice b out.length c) := by
  refine h.append (by omega) (fun i hi _ => if_neg (by omega)) (fun k a hk hin => ?_) (fun i hi => ?_)
  · rw [Lib.splice, if_pos (Nat.le_add_right _ _), Nat.add_sub_cancel_left]
    exact hc.cells k a hk (by omega)
  · rw [Lib.splice, if_pos (by omega), hc.past _ (by omega), Nat.add_sub_of_le (by omega)]

end Clipped

theorem swaps_apply {len m : ℕ} (h : 2 * m ≤ len) (k : ℕ) :
    swaps b len m k = if k < m ∨ len - m ≤ k ∧ k < len then b (len - 1 - k) else b k := by
  induction m generalizing k with
  | zero => rw [swaps, if_neg (by omega)]
  | succ m ih =>
    have hlow := ih (by omega) m
    have hhigh := ih (by omega) (len - 1 - m)
    rw [if_neg (by omega)] at hlow hhigh
    simp only [swaps, hlow, hhigh]
    by_cases hk : k = len - 1 - m
    · subst hk
      rw [Function.update_self, if_pos (by omega)]
      congr 1
      omega
    · rw [Function.update_of_ne hk]
      by_cases hm : k = m
      · subst hm
        rw [Function.update_self, if_pos (by omega)]
      · rw [Function.update_of_ne hm, ih (by omega)]
        by_cases hin : k < m ∨ len - m ≤ k ∧ k < len
        · rw [if_pos hin, if_pos (by omega)]
        · rw [if_neg hin, if_neg (by omega)]

theorem swaps_half (b : ℕ → α) (len k : ℕ) : swaps b len (len / 2) k = if k < len then b (len - 1 - k) else b k := by
  rw [swaps_apply (by omega)]
  by_cases hk : k < len
  · rw [if_pos hk]
    split
    · rfl
    · congr 1
      omega
  · rw [if_neg hk, if_neg (by omega)]

theorem Clipped.reverse (h : Clipped limit out b₀ b) (hfits : out.length ≤ limit) :
    Clipped limit out.reverse b₀ (swaps b out.length (out.length / 2)) where
  cells i a hi hlt := by
    have hin : i < out.length := by
      rw [← List.length_reverse]
      exact (List.getElem?_eq_some_iff.mp hi).1
    rw [List.getElem?_reverse hin] at hi
    rw [swaps_half, if_pos hin]
    exact h.cells _ a hi (by omega)
  past i hi := by
    rw [swaps_half, if_neg (by omega)]
    exact h.past i hi
  none h0 := by
    have hnil : out.length = 0 := by omega
    rw [hnil]
    exact h.none h0

end Sneks.Lib
