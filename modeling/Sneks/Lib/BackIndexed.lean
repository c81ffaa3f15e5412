import Mathlib.Logic.Function.Basic
import Mathlib.Data.List.Nodup
import Mathlib.Data.Nat.Notation

/-!
# Arrays whose elements know where they are

A family of arrays `arr : κ → Option (List ι)`; an element `i` is in the array
`key i`, at position `ix i`, or in none. Elements are added at the end, and
removed by moving the last element into the gap and telling it its new position.
-/

namespace Sneks.Lib

variable {ι κ : Type*}

/-- Removes position `n` by moving the last element there. -/
def removeFast (l : List ι) (n : ℕ) : List ι :=
  match l.getLast? with
  | none => []
  | some i => (l.set n i).dropLast

theorem length_removeFast (l : List ι) (n : ℕ) : (removeFast l n).length = l.length - 1 := by
  simp only [removeFast]
  split
  · next h => simp [List.getLast?_eq_none_iff.mp h]
  · simp

theorem getElem?_removeFast {l : List ι} {n m : ℕ} (hn : n < l.length) :
    (removeFast l n)[m]? =
      if m + 1 < l.length then (if m = n then l.getLast? else l[m]?) else none := by
  have hne : l ≠ [] := by
    rintro rfl
    simp at hn
  obtain ⟨i, hi⟩ : ∃ i, l.getLast? = some i := ⟨l.getLast hne, List.getLast?_eq_getLast_of_ne_nil hne⟩
  simp only [removeFast, hi, List.getElem?_dropLast, List.length_set, List.getElem?_set]
  by_cases hm : m < l.length - 1
  · have hm' : m + 1 < l.length := by omega
    by_cases hmn : n = m
    · subst hmn
      simp [hm, hm', hn]
    · simp [hm, hm', hmn, Ne.symm hmn]
  · have hm' : ¬ m + 1 < l.length := by omega
    simp [hm, hm']

structure BackIndexed (arr : κ → Option (List ι)) (key : ι → Option κ) (ix : ι → ℕ) : Prop where
  held : ∀ {i k}, key i = some k → ∃ l, arr k = some l ∧ l[ix i]? = some i
  back : ∀ {k l n i}, arr k = some l → l[n]? = some i → key i = some k ∧ ix i = n

namespace BackIndexed

variable {arr : κ → Option (List ι)} {key : ι → Option κ} {ix ix' : ι → ℕ} {i : ι} {k : κ}
  {l : List ι}

theorem mem_iff (h : BackIndexed arr key ix) (hk : arr k = some l) :
    i ∈ l ↔ key i = some k := by
  constructor
  · intro hm
    obtain ⟨n, hn⟩ := List.mem_iff_getElem?.mp hm
    exact (h.back hk hn).1
  · intro hi
    obtain ⟨l', hl', hn⟩ := h.held hi
    cases hk.symm.trans hl'
    exact List.mem_of_getElem? hn

theorem nodup (h : BackIndexed arr key ix) (hk : arr k = some l) : l.Nodup := by
  rw [List.nodup_iff_getElem?_ne_getElem?]
  intro a b hab hb he
  obtain ⟨j, hj⟩ := Option.isSome_iff_exists.mp (List.getElem?_eq_some_iff.mpr ⟨hb, rfl⟩ ▸ rfl :
    (l[b]?).isSome = true)
  have ha := (h.back hk (he.trans hj)).2
  have hb' := (h.back hk hj).2
  omega

theorem getLast?_back (h : BackIndexed arr key ix) (hk : arr k = some l) {j : ι}
    (hj : l.getLast? = some j) : key j = some k ∧ ix j = l.length - 1 := by
  rw [List.getLast?_eq_getElem?] at hj
  exact h.back hk hj

variable [DecidableEq κ]

theorem create (h : BackIndexed arr key ix) (hk : arr k = none) :
    BackIndexed (Function.update arr k (some [])) key ix where
  held {j k'} hj := by
    have hne : k' ≠ k := by
      rintro rfl
      obtain ⟨l, hl, -⟩ := h.held hj
      cases hk.symm.trans hl
    rw [Function.update_of_ne hne]
    exact h.held hj
  back {k' l n j} hl hn := by
    by_cases hkk : k' = k
    · subst hkk
      rw [Function.update_self] at hl
      cases hl
      simp at hn
    · rw [Function.update_of_ne hkk] at hl
      exact h.back hl hn

theorem drop (h : BackIndexed arr key ix) (hk : arr k = some []) :
    BackIndexed (Function.update arr k none) key ix where
  held {j k'} hj := by
    have hne : k' ≠ k := by
      rintro rfl
      obtain ⟨l, hl, hn⟩ := h.held hj
      cases hk.symm.trans hl
      simp at hn
    rw [Function.update_of_ne hne]
    exact h.held hj
  back {k' l n j} hl hn := by
    by_cases hkk : k' = k
    · subst hkk
      rw [Function.update_self] at hl
      cases hl
    · rw [Function.update_of_ne hkk] at hl
      exact h.back hl hn

variable [DecidableEq ι]

theorem attach (h : BackIndexed arr key ix) (hi : key i = none) (hk : arr k = some l) :
    BackIndexed (Function.update arr k (some (l ++ [i]))) (Function.update key i (some k))
      (Function.update ix i l.length) where
  held {j k'} hj := by
    by_cases hji : j = i
    · subst hji
      rw [Function.update_self] at hj
      cases hj
      exact ⟨l ++ [j], by rw [Function.update_self], by simp⟩
    · rw [Function.update_of_ne hji] at hj ⊢
      obtain ⟨l', hl', hn⟩ := h.held hj
      by_cases hkk : k' = k
      · subst hkk
        cases hk.symm.trans hl'
        refine ⟨l ++ [i], by rw [Function.update_self], ?_⟩
        rw [List.getElem?_append_left (List.getElem?_eq_some_iff.mp hn).1]
        exact hn
      · exact ⟨l', by rw [Function.update_of_ne hkk, hl'], hn⟩
  back {k' l' n j} hl hn := by
    by_cases hkk : k' = k
    · subst hkk
      rw [Function.update_self] at hl
      cases hl
      by_cases hlt : n < l.length
      · rw [List.getElem?_append_left hlt] at hn
        obtain ⟨hj, hix⟩ := h.back hk hn
        have hji : j ≠ i := by
          rintro rfl
          cases hi.symm.trans hj
        exact ⟨by rw [Function.update_of_ne hji, hj], by rw [Function.update_of_ne hji, hix]⟩
      · rw [List.getElem?_append_right (by omega)] at hn
        have hn' : n = l.length := by
          have := (List.getElem?_eq_some_iff.mp hn).1
          simp at this
          omega
        subst hn'
        simp at hn
        subst hn
        exact ⟨Function.update_self .., Function.update_self ..⟩
    · rw [Function.update_of_ne hkk] at hl
      obtain ⟨hj, hix⟩ := h.back hl hn
      have hji : j ≠ i := by
        rintro rfl
        cases hi.symm.trans hj
      exact ⟨by rw [Function.update_of_ne hji, hj], by rw [Function.update_of_ne hji, hix]⟩

theorem detach (h : BackIndexed arr key ix) (ix' : ι → ℕ) (hi : key i = some k) (hk : arr k = some l)
    (hmoved : ∀ j, (removeFast l (ix i))[ix i]? = some j → ix' j = ix i)
    (hstay : ∀ j, j ≠ i → (removeFast l (ix i))[ix i]? ≠ some j → ix' j = ix j) :
    BackIndexed (Function.update arr k (some (removeFast l (ix i)))) (Function.update key i none) ix' := by
  obtain ⟨l₀, hl₀, hat⟩ := h.held hi
  obtain rfl : l = l₀ := Option.some.inj (hk.symm.trans hl₀)
  have hlt : ix i < l.length := (List.getElem?_eq_some_iff.mp hat).1
  have hgap : ∀ j, (removeFast l (ix i))[ix i]? = some j →
      key j = some k ∧ ix j = l.length - 1 ∧ ix i + 1 < l.length := by
    intro j hj
    rw [getElem?_removeFast hlt] at hj
    split at hj
    · next hgap =>
      rw [if_pos rfl] at hj
      obtain ⟨hkey, hix⟩ := h.getLast?_back hk hj
      exact ⟨hkey, hix, hgap⟩
    · cases hj
  constructor
  · intro j k' hj
    have hji : j ≠ i := by
      rintro rfl
      simp at hj
    rw [Function.update_of_ne hji] at hj
    obtain ⟨l', hl', hn⟩ := h.held hj
    by_cases hkk : k' = k
    · subst hkk
      obtain rfl : l = l' := Option.some.inj (hk.symm.trans hl')
      refine ⟨removeFast l (ix i), by rw [Function.update_self], ?_⟩
      have hjlt : ix j < l.length := (List.getElem?_eq_some_iff.mp hn).1
      have hne : ix j ≠ ix i := by
        intro he
        rw [he, hat] at hn
        cases hn
        exact hji rfl
      by_cases hlast : ix j = l.length - 1
      · -- the last element goes into the gap
        have hin : (removeFast l (ix i))[ix i]? = some j := by
          rw [getElem?_removeFast hlt, if_pos (by omega), if_pos rfl, List.getLast?_eq_getElem?, ← hlast, hn]
        rw [hmoved j hin, hin]
      · have hnot : (removeFast l (ix i))[ix i]? ≠ some j := fun he => hlast (hgap j he).2.1
        rw [hstay j hji hnot, getElem?_removeFast hlt, if_pos (by omega), if_neg hne, hn]
    · refine ⟨l', by rw [Function.update_of_ne hkk, hl'], ?_⟩
      have hnot : (removeFast l (ix i))[ix i]? ≠ some j := by
        intro he
        have := (hgap j he).1
        rw [hj] at this
        cases this
        exact hkk rfl
      rw [hstay j hji hnot, hn]
  · intro k' l' n j hl hn
    by_cases hkk : k' = k
    · subst hkk
      rw [Function.update_self] at hl
      cases hl
      have hn' := hn
      rw [getElem?_removeFast hlt] at hn
      split at hn
      · split at hn
        · next hnlt hni =>
          subst hni
          obtain ⟨hkey, hix⟩ := h.getLast?_back hk hn
          have hji : j ≠ i := by
            rintro rfl
            omega
          exact ⟨by rw [Function.update_of_ne hji, hkey], hmoved j hn'⟩
        · next hnlt hni =>
          obtain ⟨hkey, hix⟩ := h.back hk hn
          have hji : j ≠ i := by
            rintro rfl
            exact hni hix.symm
          have hnot : (removeFast l (ix i))[ix i]? ≠ some j := by
            intro he
            have := (hgap j he).2.1
            omega
          exact ⟨by rw [Function.update_of_ne hji, hkey], by rw [hstay j hji hnot, hix]⟩
      · cases hn
    · rw [Function.update_of_ne hkk] at hl
      obtain ⟨hkey, hix⟩ := h.back hl hn
      have hji : j ≠ i := by
        rintro rfl
        cases hkey.symm.trans hi
        exact hkk rfl
      have hnot : (removeFast l (ix i))[ix i]? ≠ some j := by
        intro he
        cases hkey.symm.trans (hgap j he).1
        exact hkk rfl
      exact ⟨by rw [Function.update_of_ne hji, hkey], by rw [hstay j hji hnot, hix]⟩

end BackIndexed

end Sneks.Lib
