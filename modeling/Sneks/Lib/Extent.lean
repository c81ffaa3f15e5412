import Mathlib.Data.UInt
import Mathlib.Data.List.Basic
import Mathlib.Logic.Function.Basic

/-!
# Extents of memory

An extent has a size, and a store outside it fails. Writers mostly append: `Begins` says what the
extent begins with.
-/

namespace Sneks.Lib

/-- Memory of a size. What `cells` says past it is what a larger one might hold there. -/
structure Extent (α : Type*) where
  size : ℕ
  cells : ℕ → α

namespace Extent

variable {α : Type*} {b b' : Extent α} {out l : List α} {a : α} {i : ℕ}

def store (b : Extent α) (i : ℕ) (a : α) : Option (Extent α) :=
  if i < b.size then some { b with cells := Function.update b.cells i a } else none

def stores (b : Extent α) (i : ℕ) : List α → Option (Extent α)
  | [] => some b
  | a :: l => (b.store i a).bind fun b => b.stores (i + 1) l

def Begins (b : Extent α) (out : List α) : Prop := ∀ i a, out[i]? = some a → i < b.size ∧ b.cells i = a

theorem begins_nil : b.Begins [] := by
  intro i a h
  simp at h

theorem Begins.left (h : b.Begins (out ++ l)) : b.Begins out := by
  intro i a hi
  apply h i a
  rw [List.getElem?_append_left (List.getElem?_eq_some_iff.mp hi).1]
  exact hi

theorem Begins.length_le (h : b.Begins out) : out.length ≤ b.size := by
  by_contra hlt
  have hi : out[b.size]? = some out[b.size] := List.getElem?_eq_getElem (Nat.not_le.mp hlt)
  exact absurd (h _ _ hi).1 (Nat.lt_irrefl _)

theorem Begins.store_of_le (h : b.Begins out) (hle : out.length ≤ i) (hi : i < b.size) :
    ∃ b', b.store i a = some b' ∧ b'.size = b.size ∧ b'.Begins out := by
  refine ⟨_, if_pos hi, rfl, fun j c hj => ?_⟩
  obtain ⟨hlt, hc⟩ := h j c hj
  have hj : j < out.length := (List.getElem?_eq_some_iff.mp hj).1
  exact ⟨hlt, by simpa [Function.update_of_ne (show j ≠ i by omega)] using hc⟩

theorem Begins.store (h : b.Begins out) (hi : out.length < b.size) :
    ∃ b', b.store out.length a = some b' ∧ b'.size = b.size ∧ b'.Begins (out ++ [a]) := by
  refine ⟨_, if_pos hi, rfl, fun j c hj => ?_⟩
  by_cases hlt : j < out.length
  · rw [List.getElem?_append_left hlt] at hj
    obtain ⟨hs, hc⟩ := h j c hj
    exact ⟨hs, by simpa [Function.update_of_ne (show j ≠ out.length by omega)] using hc⟩
  · rw [List.getElem?_append_right (by omega)] at hj
    obtain ⟨hzero, rfl⟩ : j - out.length = 0 ∧ a = c := by simpa [List.getElem?_singleton] using hj
    obtain rfl : j = out.length := by omega
    exact ⟨hi, Function.update_self ..⟩

theorem Begins.stores (h : b.Begins out) (hi : out.length + l.length ≤ b.size) :
    ∃ b', b.stores out.length l = some b' ∧ b'.size = b.size ∧ b'.Begins (out ++ l) := by
  induction l generalizing b out with
  | nil => exact ⟨b, rfl, rfl, by rwa [List.append_nil]⟩
  | cons a l ih =>
    rw [List.length_cons] at hi
    obtain ⟨b₁, hb₁, hs₁, hbeg⟩ := h.store (a := a) (by omega)
    have hlen : (out ++ [a]).length = out.length + 1 := List.length_append
    obtain ⟨b₂, hb₂, hs₂, hbeg⟩ := ih hbeg (by omega)
    refine ⟨b₂, ?_, hs₂.trans hs₁, by simpa using hbeg⟩
    rw [Extent.stores, hb₁, Option.bind_some, ← hlen, hb₂]

theorem stores_eq_none (h : b.size < i + l.length) (hne : l ≠ []) : b.stores i l = none := by
  induction l generalizing b i with
  | nil => exact absurd rfl hne
  | cons a l ih =>
    rw [Extent.stores, Option.bind_eq_none_iff]
    intro b' hb'
    simp only [store] at hb'
    split at hb'
    · next hi =>
      cases hb'
      rw [List.length_cons] at h
      refine ih ?_ fun hnil => ?_
      · simp only
        omega
      · rw [hnil] at h
        simp at h
        omega
    · cases hb'

def text [Zero α] [DecidableEq α] (b : Extent α) : List α :=
  ((List.range b.size).map b.cells).takeWhile (· ≠ 0)

theorem Begins.take (h : b.Begins out) : ((List.range b.size).map b.cells).take out.length = out := by
  apply List.ext_getElem?
  intro i
  by_cases hi : i < out.length
  · obtain ⟨hs, hc⟩ := h i _ (List.getElem?_eq_getElem hi)
    rw [List.getElem?_take_of_lt hi, List.getElem?_eq_getElem hi, List.getElem?_map,
      List.getElem?_range hs, Option.map_some, hc]
  · rw [List.getElem?_eq_none (by simp; omega), List.getElem?_eq_none (by omega)]

theorem Begins.text_eq [Zero α] [DecidableEq α] (h : b.Begins (out ++ [0])) (hne : 0 ∉ out) : b.text = out := by
  rw [text, ← List.take_append_drop (out ++ [0]).length ((List.range b.size).map b.cells), h.take,
    List.append_assoc, List.takeWhile_append_of_pos]
  · simp
  · intro a ha
    have hz : a ≠ 0 := fun hz => hne (hz ▸ ha)
    simpa using hz

end Extent

end Sneks.Lib
