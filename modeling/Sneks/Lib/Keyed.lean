import Mathlib.Data.List.Nodup
import Mathlib.Logic.Function.Basic

/-!
# Lists as maps

A list of records is a map from the key of each record to its value. Of records with one key the
first counts.
-/

namespace Sneks.Lib

variable {α κ β : Type*} [DecidableEq κ] {key : α → κ} {val : α → β} {a : α} {l l' : List α} {k : κ}

def keyed (key : α → κ) (val : α → β) (l : List α) (k : κ) : Option β := (l.find? fun a => key a = k).map val

theorem keyed_cons : keyed key val (a :: l) = Function.update (keyed key val l) (key a) (some (val a)) := by
  funext k
  rw [keyed, List.find?_cons]
  by_cases h : key a = k
  · rw [← h, Function.update_self]
    simp
  · rw [Function.update_of_ne (Ne.symm h)]
    simp [h, keyed]

theorem keyed_eq_none : keyed key val l k = none ↔ k ∉ l.map key := by
  simp [keyed]

theorem keyed_of_mem (hl : (l.map key).Nodup) (h : a ∈ l) : keyed key val l (key a) = some (val a) := by
  induction l with
  | nil => cases h
  | cons b l ih =>
    obtain ⟨hb, hl⟩ := List.nodup_cons.mp (List.map_cons (f := key) ▸ hl)
    rw [keyed_cons]
    rcases List.mem_cons.mp h with rfl | hmem
    · exact Function.update_self ..
    · have hne : key a ≠ key b := fun he => hb (he ▸ List.mem_map_of_mem hmem)
      rw [Function.update_of_ne hne]
      exact ih hl hmem

theorem keyed_perm (h : l.Perm l') (hl : (l.map key).Nodup) : keyed key val l = keyed key val l' := by
  have hl' : (l'.map key).Nodup := (h.map key).nodup_iff.mp hl
  funext k
  by_cases hk : k ∈ l.map key
  · obtain ⟨a, hmem, rfl⟩ := List.mem_map.mp hk
    rw [keyed_of_mem hl hmem, keyed_of_mem hl' (h.mem_iff.mp hmem)]
  · rw [keyed_eq_none.mpr hk, keyed_eq_none.mpr fun hk' => hk ((h.map key).mem_iff.mpr hk')]

theorem keyed_of_cons (h : key a ∉ l.map key) :
    keyed key val l = Function.update (keyed key val (a :: l)) (key a) none := by
  rw [keyed_cons, Function.update_idem]
  refine (Function.eq_update_iff.mpr ⟨keyed_eq_none.mpr h, fun _ _ => rfl⟩)

theorem keyed_replace {b : α} (h : key b = key a) :
    keyed key val (b :: l) = Function.update (keyed key val (a :: l)) (key b) (some (val b)) := by
  rw [keyed_cons, keyed_cons, h, Function.update_idem]

end Sneks.Lib
