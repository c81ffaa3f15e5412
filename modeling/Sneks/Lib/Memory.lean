import Sneks.Lib.Bytes
import Mathlib.Data.List.GetD
import Mathlib.Tactic.ByContra

/-!
# Memory

Bytes by address, lists of bytes stored to and loaded from it, and what it is for a range to be copied
or filled. Copies of adjoining ranges make a copy of the whole, where the second does not read what the
first has written. Words of four bytes, the low byte first.
-/

namespace Sneks.Lib

abbrev Memory := ℕ → UInt8

namespace Memory

def load (m : Memory) (a n : ℕ) : List UInt8 := (List.range n).map fun i => m (a + i)

def store (m : Memory) (a : ℕ) (bytes : List UInt8) : Memory :=
  fun x => if a ≤ x then bytes.getD (x - a) (m x) else m x

/-- `m'` is `m` with the range at `dst` as the one at `src` was. -/
def Copied (m m' : Memory) (dst src n : ℕ) : Prop :=
  ∀ x, m' x = if dst ≤ x ∧ x < dst + n then m (src + (x - dst)) else m x

/-- `m'` is `m` with all bytes of a range being `b`. -/
def Filled (m m' : Memory) (a n : ℕ) (b : UInt8) : Prop := ∀ x, m' x = if a ≤ x ∧ x < a + n then b else m x

variable {m m₁ m₂ : Memory} {a dst src k n x : ℕ} {b : UInt8}

@[simp] theorem length_load (m : Memory) (a n : ℕ) : (m.load a n).length = n := by simp [load]

theorem store_of_lt {bytes : List UInt8} (h : x < a ∨ a + bytes.length ≤ x) : m.store a bytes x = m x := by
  rw [store]
  split
  · exact List.getD_eq_default _ _ (by omega)
  · rfl

theorem store_of_mem {bytes : List UInt8} (hle : a ≤ x) (hlt : x - a < bytes.length) :
    m.store a bytes x = bytes[x - a] := by
  rw [store, if_pos hle, List.getD_eq_getElem _ _ hlt]

theorem copied_store (m : Memory) (dst src n : ℕ) : Copied m (m.store dst (m.load src n)) dst src n := by
  intro x
  split
  · next h =>
    have hlt : x - dst < (m.load src n).length := by
      rw [length_load]
      omega
    rw [store_of_mem h.1 hlt]
    simp only [load, List.getElem_map, List.getElem_range]
  · next h => exact store_of_lt (by rw [length_load]; omega)

theorem copied_zero (m : Memory) (dst src : ℕ) : Copied m m dst src 0 := fun x => (if_neg (by omega)).symm

theorem Copied.mem (h : Copied m m₁ dst src n) (hle : dst ≤ x) (hlt : x < dst + n) : m₁ x = m (src + (x - dst)) :=
  (h x).trans (if_pos ⟨hle, hlt⟩)

theorem Copied.other (h : Copied m m₁ dst src n) (hout : x < dst ∨ dst + n ≤ x) : m₁ x = m x :=
  (h x).trans (if_neg (by omega))

theorem Copied.up (h : Copied m m₁ dst src k) (h' : Copied m₁ m₂ (dst + k) (src + k) n)
    (hread : dst ≤ src ∨ src + k + n ≤ dst) : Copied m m₂ dst src (k + n) := by
  intro x
  by_cases hup : dst + k ≤ x ∧ x < dst + k + n
  · rw [h'.mem hup.1 hup.2, if_pos (by omega), h.other (by omega)]
    congr 1
    omega
  · rw [h'.other (by omega)]
    by_cases hlow : dst ≤ x ∧ x < dst + k
    · rw [h.mem hlow.1 hlow.2, if_pos (by omega)]
    · rw [h.other (by omega), if_neg (by omega)]

theorem Copied.down (h : Copied m m₁ (dst + n) (src + n) k) (h' : Copied m₁ m₂ dst src n)
    (hread : src ≤ dst ∨ dst + n + k ≤ src) : Copied m m₂ dst src (n + k) := by
  intro x
  by_cases hlow : dst ≤ x ∧ x < dst + n
  · rw [h'.mem hlow.1 hlow.2, if_pos (by omega), h.other (by omega)]
  · rw [h'.other (by omega)]
    by_cases hup : dst + n ≤ x ∧ x < dst + n + k
    · rw [h.mem hup.1 hup.2, if_pos (by omega)]
      congr 1
      omega
    · rw [h.other (by omega), if_neg (by omega)]

theorem Copied.self (h : Copied m m₁ a a n) : m₁ = m := by
  funext x
  rw [h x]
  split
  · congr 1
    omega
  · rfl

theorem copied_self (m : Memory) (a n : ℕ) : Copied m m a a n := by
  intro x
  split
  · congr 1
    omega
  · rfl

theorem Copied.over (h : Copied m m₁ dst src k) (h' : Copied m₁ m₂ a x n) (hin : a ≤ dst ∧ dst + k ≤ a + n)
    (hread : x + n ≤ dst) : Copied m m₂ a x n := by
  intro y
  by_cases hy : a ≤ y ∧ y < a + n
  · rw [h'.mem hy.1 hy.2, if_pos hy, h.other (by omega)]
  · rw [h'.other (by omega), if_neg hy, h.other (by omega)]

theorem source_of_copied {f : Memory → Memory} {y : ℕ} (h : ∀ m, Copied m (f m) dst src n) (hval : ∀ m, f m x = m y) :
    y = if dst ≤ x ∧ x < dst + n then src + (x - dst) else x := by
  have heq := (h fun z => if z = y then 1 else 0) x
  rw [hval, if_pos rfl, ← apply_ite fun z => if z = y then (1 : UInt8) else 0] at heq
  by_contra hne
  rw [if_neg (Ne.symm hne)] at heq
  exact absurd heq (by decide)

theorem filled_zero (m : Memory) (a : ℕ) (b : UInt8) : Filled m m a 0 b := fun x => (if_neg (by omega)).symm

theorem filled_store (m : Memory) (a : ℕ) (b : UInt8) : Filled m (m.store a [b]) a 1 b := by
  intro x
  split
  · next h =>
    obtain rfl : x = a := by omega
    rw [store_of_mem (Nat.le_refl _) (by simp)]
    simp
  · next h => exact store_of_lt (by rw [List.length_singleton]; omega)

theorem Filled.append (h : Filled m m₁ a k b) (h' : Filled m₁ m₂ (a + k) n b) : Filled m m₂ a (k + n) b := by
  intro x
  rw [h' x, h x]
  by_cases hup : a + k ≤ x ∧ x < a + k + n
  · rw [if_pos hup, if_pos (by omega)]
  · rw [if_neg hup]
    by_cases hlow : a ≤ x ∧ x < a + k
    · rw [if_pos hlow, if_pos (by omega)]
    · rw [if_neg hlow, if_neg (by omega)]

-- Words

def word (m : Memory) (a : ℕ) : ℕ := leNat (m.load a 4)

def putWord (m : Memory) (a v : ℕ) : Memory := m.store a (leBytes 4 v)

theorem load_congr (h : ∀ i < n, m₁ (a + i) = m (a + i)) : m₁.load a n = m.load a n :=
  List.map_congr_left fun i hi => h i (List.mem_range.mp hi)

theorem load_store (m : Memory) (a : ℕ) (bytes : List UInt8) : (m.store a bytes).load a bytes.length = bytes := by
  apply List.ext_getElem
  · rw [length_load]
  · intro i hi hlt
    simp only [load, List.getElem_map, List.getElem_range]
    rw [store_of_mem (Nat.le_add_right _ _) (by omega)]
    congr 1
    omega

theorem word_congr (h : ∀ i < 4, m₁ (a + i) = m (a + i)) : m₁.word a = m.word a := by
  rw [word, word, load_congr h]

@[simp] theorem word_putWord (m : Memory) (a k : ℕ) : (m.putWord a k).word a = k % 2 ^ 32 := by
  have hload := load_store m a (leBytes 4 k)
  have hpow : 256 ^ 4 = 2 ^ 32 := rfl
  rw [length_leBytes] at hload
  rw [word, putWord, hload, leNat_leBytes, hpow]

theorem putWord_of_lt (m : Memory) (k : ℕ) (h : x < a ∨ a + 4 ≤ x) : m.putWord a k x = m x :=
  store_of_lt (by rwa [length_leBytes])

end Memory

end Sneks.Lib
