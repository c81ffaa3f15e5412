import Mathlib.Logic.Function.Basic
import Mathlib.Data.Nat.Notation
import Mathlib.Data.List.Basic
import Mathlib.Data.Nat.ModEq

/-!
# Circular buffers

The readable part of a circular buffer of capacity `cap`, as the list of its
cells from a start position on.
-/

namespace Sneks.Lib

variable {α : Type*}

/-- The `n` cells of `q` from position `rd` on, wrapping at `cap`. -/
def window (q : ℕ → α) (cap rd n : ℕ) : List α :=
  (List.range n).map fun i => q ((rd + i) % cap)

@[simp] theorem window_zero (q : ℕ → α) (cap rd : ℕ) : window q cap rd 0 = [] := rfl

@[simp] theorem window_length (q : ℕ → α) (cap rd n : ℕ) : (window q cap rd n).length = n := by
  simp [window]

theorem window_succ (q : ℕ → α) (cap rd n : ℕ) :
    window q cap rd (n + 1) = window q cap rd n ++ [q ((rd + n) % cap)] := by
  simp [window, List.range_succ]

theorem window_drop (q : ℕ → α) (cap rd k n : ℕ) :
    (window q cap rd (k + n)).drop k = window q cap ((rd + k) % cap) n := by
  apply List.ext_getElem
  · simp
  · intro i h1 h2
    simp [window, Nat.add_assoc]

theorem window_drop_eq_cons (q : ℕ → α) (cap rd : ℕ) {i n : ℕ} (hi : i < n) :
    (window q cap rd n).drop i = q ((rd + i) % cap) :: (window q cap rd n).drop (i + 1) := by
  rw [List.drop_eq_getElem_cons (by simpa using hi)]
  simp [window]

theorem window_update (q : ℕ → α) {cap : ℕ} (rd : ℕ) {n : ℕ} (hn : n < cap) (a : α) :
    window (Function.update q ((rd + n) % cap) a) cap rd n = window q cap rd n := by
  apply List.map_congr_left
  intro i hi
  have hlt : i < n := List.mem_range.mp hi
  apply Function.update_of_ne
  intro he
  -- two offsets below `cap` from one start are different cells
  have hmod : i % cap = n % cap := Nat.ModEq.add_left_cancel' rd he
  rw [Nat.mod_eq_of_lt (by omega), Nat.mod_eq_of_lt hn] at hmod
  omega

end Sneks.Lib
