import Mathlib.Data.UInt
import Mathlib.Logic.Equiv.Basic

/-!
# Heaps in an array

The value at position `c` hangs under the one at `c / 2`, so that the root 0 has the one child 1 and
any other position has the two from its double on. `r a b` says that `a` may stand above `b`.
-/

namespace Sneks.Lib

variable {α : Type*} {d d' d'' : ℕ → α} {i j k k₀ m n : ℕ}

-- Moved values

/-- The values below position `n` are permuted, and the others stay. -/
def Shuffled (n : ℕ) (d d' : ℕ → α) : Prop := ∃ σ : Equiv.Perm ℕ, (∀ i, n ≤ i → σ i = i) ∧ d' = d ∘ σ

namespace Shuffled

theorem refl : Shuffled n d d := ⟨Equiv.refl ℕ, fun _ _ => rfl, rfl⟩

theorem trans (h : Shuffled n d d') (h' : Shuffled n d' d'') : Shuffled n d d'' := by
  obtain ⟨σ, hσ, rfl⟩ := h
  obtain ⟨τ, hτ, rfl⟩ := h'
  refine ⟨τ.trans σ, fun i hi => ?_, rfl⟩
  rw [Equiv.trans_apply, hτ i hi, hσ i hi]

theorem mono (h : Shuffled m d d') (hm : m ≤ n) : Shuffled n d d' := by
  obtain ⟨σ, hσ, rfl⟩ := h
  exact ⟨σ, fun i hi => hσ i (Nat.le_trans hm hi), rfl⟩

theorem swap (hi : i < n) (hj : j < n) : Shuffled n d (d ∘ Equiv.swap i j) :=
  ⟨Equiv.swap i j, fun _ hk => Equiv.swap_apply_of_ne_of_ne (by omega) (by omega), rfl⟩

theorem above (h : Shuffled n d d') (hi : n ≤ i) : d' i = d i := by
  obtain ⟨σ, hσ, rfl⟩ := h
  exact congrArg d (hσ i hi)

/-- The value at a position below `n` comes from one below `n`. -/
theorem below (h : Shuffled n d d') (hi : i < n) : ∃ j < n, d' i = d j := by
  obtain ⟨σ, hσ, rfl⟩ := h
  refine ⟨σ i, Nat.not_le.mp fun hge => ?_, rfl⟩
  rw [σ.injective (hσ _ hge)] at hge
  exact Nat.not_le.mpr hi hge

theorem symm (h : Shuffled n d d') : Shuffled n d' d := by
  obtain ⟨σ, hσ, rfl⟩ := h
  refine ⟨σ.symm, fun i hi => ?_, ?_⟩
  · exact (σ.symm_apply_eq).mpr (hσ i hi).symm
  · funext i
    exact congrArg d (σ.apply_symm_apply i).symm

end Shuffled

-- The order

variable {r : α → α → Prop}

/-- From position `k` on, each value may stand above those that hang under it. -/
def HeapFrom (r : α → α → Prop) (d : ℕ → α) (k n : ℕ) : Prop :=
  ∀ c, 0 < c → c ≤ n → k ≤ c / 2 → r (d (c / 2)) (d c)

/-- A heap from `k₀` on, but that the value at `k` may belong further down. -/
structure Sifting (r : α → α → Prop) (d : ℕ → α) (k₀ k n : ℕ) : Prop where
  apart : ∀ c, 0 < c → c ≤ n → k₀ ≤ c / 2 → c / 2 ≠ k → r (d (c / 2)) (d c)
  grand : k₀ < k → ∀ c, 0 < c → c ≤ n → c / 2 = k → r (d (k / 2)) (d c)
  below : k₀ ≠ k → k₀ ≤ k / 2

theorem HeapFrom.sifting (h : HeapFrom r d (k + 1) n) : Sifting r d k k n where
  apart c hc hn hk hne := h c hc hn (by omega)
  grand hlt := absurd hlt (lt_irrefl k)
  below hne := absurd rfl hne

/-- The value sinks to the place of the one that may stand highest. -/
theorem Sifting.move (h : Sifting r d k₀ k n) (hk : k₀ ≤ k) (hj : 0 < j) (hn : j ≤ n) (hjk : j / 2 = k)
    (hbest : ∀ c, 0 < c → c ≤ n → c / 2 = k → r (d j) (d c)) (hsink : r (d j) (d k)) :
    Sifting r (d ∘ Equiv.swap j k) k₀ j n := by
  have hne : j ≠ k := by omega
  have hat : (d ∘ Equiv.swap j k) k = d j := congrArg d (Equiv.swap_apply_right j k)
  have hat' : (d ∘ Equiv.swap j k) j = d k := congrArg d (Equiv.swap_apply_left j k)
  have hother : ∀ i, i ≠ j → i ≠ k → (d ∘ Equiv.swap j k) i = d i := fun i h₁ h₂ =>
    congrArg d (Equiv.swap_apply_of_ne_of_ne h₁ h₂)
  constructor
  case apart =>
    intro c hc hcn hk₀ hcj
    by_cases hck : c / 2 = k
    · -- a sibling, or the value that sinks
      rw [hck, hat]
      obtain rfl | hne' := eq_or_ne c j
      · rw [hat']
        exact hsink
      · rw [hother c hne' (by omega)]
        exact hbest c hc hcn hck
    · rw [hother (c / 2) hcj hck]
      obtain rfl | hne' := eq_or_ne c k
      · rw [hat]
        exact h.grand (by omega) j hj hn hjk
      · rw [hother c (fun he => hck (he ▸ hjk)) hne']
        exact h.apart c hc hcn hk₀ hck
  case grand =>
    intro hlt c hc hcn hcj
    rw [hjk, hat, hother c (by omega) (by omega), ← hcj]
    exact h.apart c hc hcn (by omega) (by omega)
  case below => exact fun _ => by omega

theorem Sifting.finish (h : Sifting r d k₀ k n) (hstop : ∀ c, 0 < c → c ≤ n → c / 2 = k → r (d k) (d c)) :
    HeapFrom r d k₀ n := by
  intro c hc hn hk₀
  by_cases hck : c / 2 = k
  · rw [hck]
    exact hstop c hc hn hck
  · exact h.apart c hc hn hk₀ hck

/-- **The root may stand above every value of a heap.** -/
theorem HeapFrom.top (h : HeapFrom r d 0 n) (hrefl : ∀ a, r a a) (htrans : ∀ a b c, r a b → r b c → r a c) (hi : i ≤ n) :
    r (d 0) (d i) := by
  induction i using Nat.strong_induction_on with
  | _ i ih =>
    obtain rfl | hpos := Nat.eq_zero_or_pos i
    · exact hrefl _
    · exact htrans _ _ _ (ih (i / 2) (by omega) (by omega)) (h i hpos hi (Nat.zero_le _))

/-- Nothing hangs under the second half. -/
theorem HeapFrom.of_half (hk : n / 2 < k) : HeapFrom r d k n := fun c _ hn hle => absurd hn (by omega)

end Sneks.Lib
