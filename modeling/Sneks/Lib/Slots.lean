import Mathlib.Data.Finset.Card
import Mathlib.Data.Finset.Range
import Mathlib.Order.Interval.Finset.Nat
import Mathlib.Logic.Function.Basic

/-!
# Slots kept in a bitmap

Holders have a slot each, and a bitmap tells which of the first `n` slots are free. Some slots
may be reserved for nobody. Counting the free ones again and again is saved by a counter.
-/

namespace Sneks.Lib

/-- Holders have different slots below `n`, none of them reserved, and `free` marks the others. -/
structure Slots {α : Type*} (holds : α → Prop) (slot : α → ℕ) (reserved : ℕ → Prop) (free : ℕ → Bool)
    (n : ℕ) : Prop where
  lt : ∀ a, holds a → slot a < n
  unreserved : ∀ a, holds a → ¬ reserved (slot a)
  inj : ∀ a b, holds a → holds b → slot a = slot b → a = b
  free_iff : ∀ i < n, free i = true ↔ ¬ reserved i ∧ ∀ a, holds a → slot a ≠ i

namespace Slots

variable {α : Type*} {holds holds' : α → Prop} {slot slot' : α → ℕ} {reserved : ℕ → Prop} {free : ℕ → Bool}
  {n : ℕ}

theorem not_free (h : Slots holds slot reserved free n) {a : α} (ha : holds a) : free (slot a) = false := by
  rw [← Bool.not_eq_true, h.free_iff _ (h.lt a ha)]
  exact fun hno => hno.2 a ha rfl

theorem congr (h : Slots holds slot reserved free n) (hholds : ∀ a, holds' a ↔ holds a)
    (hslot : ∀ a, holds a → slot' a = slot a) : Slots holds' slot' reserved free n where
  lt a ha := by
    have ha := (hholds a).mp ha
    rw [hslot a ha]
    exact h.lt a ha
  unreserved a ha := by
    have ha := (hholds a).mp ha
    rw [hslot a ha]
    exact h.unreserved a ha
  inj a b ha hb he := by
    have ha := (hholds a).mp ha
    have hb := (hholds b).mp hb
    rw [hslot a ha, hslot b hb] at he
    exact h.inj a b ha hb he
  free_iff i hi := by
    rw [h.free_iff i hi]
    refine and_congr_right fun _ => forall_congr' fun a => ?_
    rw [hholds]
    exact forall_congr' fun ha => by rw [hslot a ha]

theorem take (h : Slots holds slot reserved free n) {a : α} {i : ℕ} (hi : i < n) (hfree : free i = true)
    (ha : slot' a = i) (hslot : ∀ b, holds b → slot' b = slot b) :
    Slots (fun b => holds b ∨ b = a) slot' reserved (Function.update free i false) n := by
  obtain ⟨hres, hno⟩ := (h.free_iff i hi).mp hfree
  constructor
  case lt =>
    rintro b (hb | rfl)
    · rw [hslot b hb]
      exact h.lt b hb
    · rwa [ha]
  case unreserved =>
    rintro b (hb | rfl)
    · rw [hslot b hb]
      exact h.unreserved b hb
    · rwa [ha]
  case inj =>
    rintro b c (hb | rfl) (hc | rfl) he
    · rw [hslot b hb, hslot c hc] at he
      exact h.inj b c hb hc he
    · rw [hslot b hb, ha] at he
      exact absurd he (hno b hb)
    · rw [hslot c hc, ha] at he
      exact absurd he.symm (hno c hc)
    · rfl
  case free_iff =>
    intro j hj
    by_cases hji : j = i
    · subst hji
      rw [Function.update_self]
      exact iff_of_false Bool.false_ne_true fun hall => hall.2 a (.inr rfl) ha
    · rw [Function.update_of_ne hji, h.free_iff j hj]
      refine and_congr_right fun _ => ⟨fun hall b hb => ?_, fun hall b hb => ?_⟩
      · rcases hb with hb | rfl
        · rw [hslot b hb]
          exact hall b hb
        · rw [ha]
          exact Ne.symm hji
      · rw [← hslot b hb]
        exact hall b (.inl hb)

theorem release (h : Slots holds slot reserved free n) {a : α} (ha : holds a) :
    Slots (fun b => holds b ∧ b ≠ a) slot reserved (Function.update free (slot a) true) n := by
  refine ⟨fun b hb => h.lt b hb.1, fun b hb => h.unreserved b hb.1, fun b c hb hc => h.inj b c hb.1 hc.1,
    fun j hj => ?_⟩
  by_cases hja : j = slot a
  · subst hja
    rw [Function.update_self]
    refine iff_of_true rfl ⟨h.unreserved a ha, fun b hb he => ?_⟩
    exact hb.2 (h.inj b a hb.1 ha he)
  · rw [Function.update_of_ne hja, h.free_iff j hj]
    refine and_congr_right fun _ => ⟨fun hall b hb => hall b hb.1, fun hall b hb he => ?_⟩
    by_cases hba : b = a
    · subst hba
      exact hja he.symm
    · exact hall b ⟨hb, hba⟩ he

end Slots

/-- The number of free slots among the first `n`. -/
def freeCount (free : ℕ → Bool) (n : ℕ) : ℕ := ((Finset.range n).filter (free · = true)).card

variable {free : ℕ → Bool} {n i : ℕ}

theorem freeCount_take (hi : i < n) (hfree : free i = true) :
    freeCount (Function.update free i false) n = freeCount free n - 1 := by
  have he : (Finset.range n).filter (Function.update free i false · = true) =
      ((Finset.range n).filter (free · = true)).erase i := by
    ext j
    by_cases hj : j = i
    · simp [hj]
    · simp [hj]
  rw [freeCount, he, Finset.card_erase_of_mem (by simp [hi, hfree]), freeCount]

theorem freeCount_release (hi : i < n) (hfree : free i = false) :
    freeCount (Function.update free i true) n = freeCount free n + 1 := by
  have he : (Finset.range n).filter (Function.update free i true · = true) =
      insert i ((Finset.range n).filter (free · = true)) := by
    ext j
    by_cases hj : j = i
    · simp [hj, hi]
    · simp [hj]
  rw [freeCount, he, Finset.card_insert_of_notMem (by simp [hfree]), freeCount]

theorem freeCount_from (first n : ℕ) : freeCount (first ≤ ·) n = n - first := by
  have he : (Finset.range n).filter (fun i => decide (first ≤ i) = true) = Finset.Ico first n := by
    ext i
    simp only [Finset.mem_filter, Finset.mem_range, decide_eq_true_eq, Finset.mem_Ico]
    exact and_comm
  rw [freeCount, he, Nat.card_Ico]

end Sneks.Lib
