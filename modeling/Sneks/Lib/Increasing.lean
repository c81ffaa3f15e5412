import Mathlib.Data.List.Basic

/-!
# Lists that increase by a key

A list that stands for an ordered tree: the keys increase strictly. What is before and
after a key are filters then, and inserting between them keeps the order.
-/

namespace Sneks.Lib

variable {α : Type*} {f g : α → ℕ} {l l' : List α} {x y : α} {a b : ℕ}

def Increasing (f : α → ℕ) (l : List α) : Prop := l.Pairwise fun x y => f x < f y

namespace Increasing

theorem sublist (h : Increasing f l) (hsub : List.Sublist l' l) : Increasing f l' := List.Pairwise.sublist hsub h

theorem congr (h : Increasing f l) (hfg : ∀ x ∈ l, g x = f x) : Increasing g l := by
  refine List.Pairwise.imp_of_mem (fun hx hy hlt => ?_) h
  rwa [hfg _ hx, hfg _ hy]

theorem eq_of_key (h : Increasing f l) (hx : x ∈ l) (hy : y ∈ l) (hkey : f x = f y) : x = y := by
  induction l with
  | nil => cases hx
  | cons z l ih =>
    obtain ⟨hz, hl⟩ := List.pairwise_cons.mp h
    rcases List.mem_cons.mp hx with rfl | hxl
    · rcases List.mem_cons.mp hy with rfl | hyl
      · rfl
      · exact absurd hkey (Nat.ne_of_lt (hz y hyl))
    · rcases List.mem_cons.mp hy with rfl | hyl
      · exact absurd hkey.symm (Nat.ne_of_lt (hz x hxl))
      · exact ih hl hxl hyl

theorem find?_eq (h : Increasing f l) : l.find? (fun y => f y = a) = some x ↔ x ∈ l ∧ f x = a := by
  constructor
  · intro hfind
    exact ⟨List.mem_of_find?_eq_some hfind, by simpa using List.find?_some hfind⟩
  · rintro ⟨hx, hkey⟩
    cases hfind : l.find? (fun y => f y = a) with
    | none =>
      have := List.find?_eq_none.mp hfind x hx
      simp [hkey] at this
    | some y =>
      have hy : f y = a := by simpa using List.find?_some hfind
      rw [h.eq_of_key hx (List.mem_of_find?_eq_some hfind) (hkey.trans hy.symm)]

theorem takeWhile_lt (h : Increasing f l) :
    l.takeWhile (fun y => f y < a) = l.filter (fun y => f y < a) := by
  induction l with
  | nil => rfl
  | cons z l ih =>
    obtain ⟨hz, hl⟩ := List.pairwise_cons.mp h
    by_cases hlt : f z < a
    · simp [hlt, ih hl]
    · have hnone : ∀ y ∈ l, ¬ f y < a := fun y hy hlt' => hlt (Nat.lt_trans (hz y hy) hlt')
      simpa [List.takeWhile_cons, hlt] using hnone

theorem dropWhile_lt (h : Increasing f l) :
    l.dropWhile (fun y => f y < a) = l.filter (fun y => a ≤ f y) := by
  induction l with
  | nil => rfl
  | cons z l ih =>
    obtain ⟨hz, hl⟩ := List.pairwise_cons.mp h
    by_cases hlt : f z < a
    · simp [hlt, ih hl, Nat.not_le.mpr hlt]
    · have hle : a ≤ f z := Nat.le_of_not_lt hlt
      have hall : ∀ y ∈ l, a ≤ f y := fun y hy => Nat.le_trans hle (Nat.le_of_lt (hz y hy))
      have hfilter : l.filter (fun y => a ≤ f y) = l :=
        List.filter_eq_self.mpr fun y hy => by simpa using hall y hy
      simp [hlt, hle, hfilter]

theorem insert (h : Increasing f l) (hnew : ∀ y ∈ l, f y ≠ f x) : Increasing f
    (l.takeWhile (fun y => f y < f x) ++ x :: l.dropWhile (fun y => f y < f x)) := by
  have hbelow : ∀ y ∈ l.takeWhile (fun y => f y < f x), f y < f x := by
    intro y hy
    rw [h.takeWhile_lt] at hy
    simpa using (List.mem_filter.mp hy).2
  have habove : ∀ y ∈ l.dropWhile (fun y => f y < f x), f x < f y := by
    intro y hy
    rw [h.dropWhile_lt] at hy
    obtain ⟨hm, hle⟩ := List.mem_filter.mp hy
    exact Nat.lt_of_le_of_ne (by simpa using hle) (Ne.symm (hnew y hm))
  refine List.pairwise_append.mpr ⟨h.sublist (List.takeWhile_sublist _),
    List.pairwise_cons.mpr ⟨habove, h.sublist (List.dropWhile_sublist _)⟩, fun y hy z hz => ?_⟩
  rcases List.mem_cons.mp hz with rfl | hz
  · exact hbelow y hy
  · exact Nat.lt_trans (hbelow y hy) (habove z hz)

theorem dropWhile_ne [DecidableEq α] (h : Increasing f l) (hx : x ∈ l) :
    l.dropWhile (fun y => y ≠ x) = l.filter (fun y => f x ≤ f y) := by
  rw [← h.dropWhile_lt]
  induction l with
  | nil => cases hx
  | cons z l ih =>
    obtain ⟨hz, hl⟩ := List.pairwise_cons.mp h
    rcases List.mem_cons.mp hx with rfl | hx
    · simp
    · have hlt := hz x hx
      have hne : z ≠ x := by
        rintro rfl
        exact Nat.lt_irrefl _ hlt
      simpa [List.dropWhile_cons, hlt, hne] using ih hl hx

theorem mem_segment [DecidableEq α] (h : Increasing f l) (hx : x ∈ l) :
    y ∈ (l.dropWhile (fun y => y ≠ x)).takeWhile (fun y => f y < b) ↔
      y ∈ l ∧ f x ≤ f y ∧ f y < b := by
  rw [takeWhile_lt (h.sublist (List.dropWhile_sublist _)), h.dropWhile_ne hx]
  simp only [List.mem_filter, decide_eq_true_eq, and_assoc]

end Increasing

end Sneks.Lib
