import Mathlib.Data.List.TakeWhile
import Sneks.Lib.Bytes

/-!
# What memory holds at an address

Memory of which not every address is there. A list lies at an address when its elements do, one after the
other; words are bytes, the low one first, and a string ends at a zero byte.
-/

namespace Sneks.Lib

section

variable {α : Type*} {m : ℕ → Option α} {a : ℕ} {xs ys : List α}

def Holds (m : ℕ → Option α) (a : ℕ) (l : List α) : Prop := ∀ i (h : i < l.length), m (a + i) = some l[i]

theorem holds_append : Holds m a (xs ++ ys) ↔ Holds m a xs ∧ Holds m (a + xs.length) ys := by
  constructor
  · intro h
    refine ⟨fun i hi => ?_, fun i hi => ?_⟩
    · rw [h i (by rw [List.length_append]; omega), List.getElem_append_left hi]
    · rw [Nat.add_assoc, h (xs.length + i) (by rw [List.length_append]; omega),
        List.getElem_append_right (Nat.le_add_right _ _)]
      simp only [Nat.add_sub_cancel_left]
  · rintro ⟨hxs, hys⟩ i hi
    by_cases hlt : i < xs.length
    · rw [hxs i hlt, List.getElem_append_left hlt]
    · have hle := Nat.not_lt.mp hlt
      rw [List.length_append] at hi
      rw [List.getElem_append_right hle, ← hys (i - xs.length) (by omega)]
      congr 1
      omega

theorem Holds.left (h : Holds m a (xs ++ ys)) : Holds m a xs := (holds_append.mp h).1

theorem Holds.right (h : Holds m a (xs ++ ys)) : Holds m (a + xs.length) ys := (holds_append.mp h).2

theorem Holds.drop (h : Holds m a xs) (n : ℕ) (hn : n ≤ xs.length) : Holds m (a + n) (xs.drop n) := by
  rw [← List.take_append_drop n xs] at h
  have hright := h.right
  rwa [List.length_take, Nat.min_eq_left hn] at hright

end

variable {m : ℕ → Option UInt8} {a w : ℕ} {s : List UInt8} {ws : List ℕ}

def wordAt (m : ℕ → Option UInt8) (a : ℕ) : Option ℕ := do
  let b₀ ← m a
  let b₁ ← m (a + 1)
  let b₂ ← m (a + 2)
  let b₃ ← m (a + 3)
  some (leNat [b₀, b₁, b₂, b₃])

theorem Holds.wordAt (h : Holds m a (leBytes 4 w)) : Lib.wordAt m a = some (w % 2 ^ 32) := by
  have h₀ : m a = _ := h 0 (by simp)
  rw [Lib.wordAt, h₀, h 1 (by simp), h 2 (by simp), h 3 (by simp)]
  exact congrArg some (leNat_leBytes 4 w)

theorem Holds.words (h : Holds m a ((w :: ws).flatMap (leBytes 4))) :
    Lib.wordAt m a = some (w % 2 ^ 32) ∧ Holds m (a + 4) (ws.flatMap (leBytes 4)) := by
  rw [List.flatMap_cons] at h
  exact ⟨h.left.wordAt, by simpa using h.right⟩

def StringAt (m : ℕ → Option UInt8) (a : ℕ) (s : List UInt8) : Prop := 0 ∉ s ∧ Holds m a (s ++ [0])

theorem Holds.stringAt {buf : List UInt8} {off : ℕ} (h : Holds m a (buf ++ [0])) (hoff : off ≤ buf.length) :
    StringAt m (a + off) ((buf.drop off).takeWhile (· ≠ 0)) := by
  refine ⟨fun hmem => by simpa using List.mem_takeWhile_imp hmem, ?_⟩
  have hrest := h.drop off (by rw [List.length_append]; omega)
  rw [List.drop_append_of_le_length hoff] at hrest
  generalize buf.drop off = rest at hrest
  -- the zero is that of the buffer, or one before it
  have hprefix : rest.takeWhile (· ≠ 0) ++ [0] <+: rest ++ [0] := by
    cases hdrop : rest.dropWhile (· ≠ 0) with
    | nil =>
      have hall := List.takeWhile_append_dropWhile (p := (· ≠ (0 : UInt8))) (l := rest)
      rw [hdrop, List.append_nil] at hall
      exact ⟨[], by rw [List.append_nil, hall]⟩
    | cons b tail =>
      have hb : b = 0 := by
        have hne : rest.dropWhile (· ≠ 0) ≠ [] := by
          rw [hdrop]
          exact List.cons_ne_nil b tail
        have hhead := List.head_dropWhile_not (fun x => decide (x ≠ 0)) hne
        simp only [hdrop, List.head_cons] at hhead
        simpa using hhead
      have hall := List.takeWhile_append_dropWhile (p := (· ≠ (0 : UInt8))) (l := rest)
      rw [hdrop, hb] at hall
      refine ⟨tail ++ [0], ?_⟩
      rw [List.append_assoc, ← List.append_assoc [0], List.singleton_append, ← List.append_assoc, hall]
  obtain ⟨tail, htail⟩ := hprefix
  rw [← htail] at hrest
  exact hrest.left

end Sneks.Lib
