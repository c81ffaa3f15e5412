import Mathlib.Data.List.Basic

/-!
# Records of a text

A text with separators is read one record at a time, until it ends. A text that ends with a
separator has no empty record after it.
-/

namespace Sneks.Lib

variable {α : Type*} [DecidableEq α] {sep : α}

def records (sep : α) (text : List α) : List (List α) :=
  if h : text = [] then []
  else
    let record := text.takeWhile (· ≠ sep)
    record :: records sep (text.drop (record.length + 1))
termination_by text.length
decreasing_by
  have hpos := List.length_pos_iff.mpr h
  simp only [List.length_drop]
  omega

@[simp] theorem records_nil : records sep [] = [] := by
  rw [records, dif_pos rfl]

theorem records_of_ne_nil {text : List α} (h : text ≠ []) :
    records sep text =
      text.takeWhile (· ≠ sep) :: records sep (text.drop ((text.takeWhile (· ≠ sep)).length + 1)) := by
  rw [records, dif_neg h]

theorem takeWhile_ne_append {record : List α} (rest : List α) (h : sep ∉ record) :
    (record ++ rest).takeWhile (· ≠ sep) = record ++ rest.takeWhile (· ≠ sep) := by
  apply List.takeWhile_append_of_pos
  intro a ha
  have hne : a ≠ sep := fun he => h (he ▸ ha)
  simpa using hne

theorem split_at_sep {text : List α} (h : sep ∈ text) :
    text = text.takeWhile (· ≠ sep) ++ sep :: (text.dropWhile (· ≠ sep)).tail := by
  induction text with
  | nil => cases h
  | cons a text ih =>
    by_cases ha : a = sep
    · subst ha
      simp
    · have hmem : sep ∈ text := (List.mem_cons.mp h).resolve_left (Ne.symm ha)
      rw [List.takeWhile_cons_of_pos (by simpa using ha), List.dropWhile_cons_of_pos (by simpa using ha),
        List.cons_append, ← ih hmem]

theorem records_append_sep {record rest : List α} (h : sep ∉ record) :
    records sep (record ++ sep :: rest) = record :: records sep rest := by
  have hhead : (record ++ sep :: rest).takeWhile (· ≠ sep) = record := by
    rw [takeWhile_ne_append _ h]
    simp
  rw [records_of_ne_nil (by simp), hhead]
  simp only [List.drop_append, List.drop_of_length_le (Nat.le_succ _), Nat.add_sub_cancel_left,
    List.drop_one, List.tail_cons, List.nil_append]

theorem records_last {record : List α} (h : sep ∉ record) (hne : record ≠ []) : records sep record = [record] := by
  have hhead : record.takeWhile (· ≠ sep) = record := by
    have happ := takeWhile_ne_append [] h
    simpa using happ
  rw [records_of_ne_nil hne, hhead, List.drop_of_length_le (Nat.le_succ _), records_nil]

theorem records_intercalate {ls : List (List α)} (h : ∀ l ∈ ls, sep ∉ l) (hne : ls ≠ []) :
    records sep ([sep].intercalate ls) = ls ↔ ls.getLast? ≠ some [] := by
  induction ls with
  | nil => exact absurd rfl hne
  | cons l ls ih =>
    have hl := h l List.mem_cons_self
    match ls with
    | [] =>
      rw [List.intercalate_singleton]
      by_cases hnil : l = []
      · simp [hnil]
      · rw [records_last hl hnil]
        simpa using hnil
    | l' :: ls =>
      have ih := ih (fun l hl => h l (List.mem_cons_of_mem _ hl)) (List.cons_ne_nil _ _)
      rw [List.intercalate_cons_cons, List.append_assoc, List.singleton_append, records_append_sep hl,
        List.getLast?_cons_cons, ← ih]
      exact ⟨fun h => (List.cons.inj h).2, fun h => congrArg _ h⟩

end Sneks.Lib
