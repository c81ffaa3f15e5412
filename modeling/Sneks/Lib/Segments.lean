import Mathlib.Data.List.TakeWhile
import Mathlib.Data.UInt

/-!
# Segments of a list

The elements of a list that break it leave segments in between, each as long as it can be.
-/

namespace Sneks.Lib

variable {α : Type*} {d : α → Bool} {t s : List α} {c : α} {i j k : ℕ}

structure Segment (d : α → Bool) (t : List α) (i : ℕ) (s : List α) : Prop where
  nonempty : s ≠ []
  here : s <+: t.drop i
  whole : ∀ c ∈ s, d c = false
  left : i = 0 ∨ ∃ c, t[i - 1]? = some c ∧ d c = true
  right : ∀ c, t[i + s.length]? = some c → d c = true

structure Starts (d : α → Bool) (t : List α) (i : ℕ) : Prop where
  first : ∃ c, t[i]? = some c ∧ d c = false
  left : i = 0 ∨ ∃ c, t[i - 1]? = some c ∧ d c = true

theorem Starts.lt (h : Starts d t i) : i < t.length := by
  obtain ⟨c, hc, -⟩ := h.first
  exact (List.getElem?_eq_some_iff.mp hc).1

theorem eq_takeWhile (hpre : s <+: t) (hwhole : ∀ c ∈ s, d c = false)
    (hright : ∀ c, t[s.length]? = some c → d c = true) : s = t.takeWhile (!d ·) := by
  obtain ⟨u, rfl⟩ := hpre
  have hall : ∀ c ∈ s, (!d c) = true := fun c hc => by rw [hwhole c hc, Bool.not_false]
  rw [List.takeWhile_append_of_pos hall]
  cases u with
  | nil => rw [List.takeWhile_nil, List.append_nil]
  | cons c u =>
    have hc : d c = true := hright c (by rw [List.getElem?_append_right (Nat.le_refl _), Nat.sub_self, List.getElem?_cons_zero])
    rw [List.takeWhile_cons_of_neg (by rw [hc, Bool.not_true]; decide), List.append_nil]

theorem getElem?_length_takeWhile (h : t[(t.takeWhile (!d ·)).length]? = some c) : d c = true := by
  induction t with
  | nil => cases h
  | cons a t ih =>
    cases ha : d a with
    | false =>
      rw [List.takeWhile_cons_of_pos (by rw [ha, Bool.not_false])] at h
      exact ih h
    | true =>
      rw [List.takeWhile_cons_of_neg (by rw [ha, Bool.not_true]; decide)] at h
      cases h
      exact ha

theorem segment_iff : Segment d t i s ↔ Starts d t i ∧ s = (t.drop i).takeWhile (!d ·) := by
  refine ⟨fun h => ⟨⟨?_, h.left⟩, ?_⟩, ?_⟩
  · obtain ⟨c, s, rfl⟩ := List.exists_cons_of_ne_nil h.nonempty
    obtain ⟨u, hu⟩ := h.here
    have hc : t[i]? = some c := by
      rw [← Nat.add_zero i, ← List.getElem?_drop, ← hu]
      rfl
    exact ⟨c, hc, h.whole c List.mem_cons_self⟩
  · refine eq_takeWhile h.here h.whole fun c hc => h.right c ?_
    rwa [List.getElem?_drop] at hc
  · rintro ⟨hstart, rfl⟩
    refine ⟨?_, List.takeWhile_prefix _, fun c hc => ?_, hstart.left, fun c hc => ?_⟩
    · obtain ⟨c, hc, hd⟩ := hstart.first
      rw [List.drop_eq_getElem_cons hstart.lt]
      rw [List.getElem?_eq_getElem hstart.lt, Option.some.injEq] at hc
      rw [hc, List.takeWhile_cons_of_pos (by rw [hd, Bool.not_false])]
      exact List.cons_ne_nil _ _
    · have hc := List.mem_takeWhile_imp hc
      rwa [Bool.not_eq_true'] at hc
    · rw [← List.getElem?_drop] at hc
      exact getElem?_length_takeWhile hc

end Sneks.Lib
