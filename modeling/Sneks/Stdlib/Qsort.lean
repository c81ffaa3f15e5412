import Sneks.Lib.Heap

/-!
# Sorting and searching: `lib/sort.c` and `lib/bsearch.c`

`qsort` is a heap sort in place, which never looks at an object but through the comparison. `bsearch`
halves a range of positions, which are words.
-/

namespace Sneks.Stdlib
open Lib

variable {α κ : Type*}

-- `lib/sort.c`

section
variable (compare : α → α → ℤ)

/-- `swap`, for the objects at two positions. -/
def swap (data : ℕ → α) (i j : ℕ) : ℕ → α := if i = j then data else data ∘ Equiv.swap i j

/-- The child `j` of `k` that `downheap` looks at. -/
def child (n k : ℕ) (data : ℕ → α) : ℕ :=
  if 2 * k < n ∧ compare (data (2 * k)) (data (2 * k + 1)) < 0 then 2 * k + 1 else 2 * k

/-- `downheap`, for at most so many turns of its loop. -/
def downheap (n : ℕ) : ℕ → ℕ → (ℕ → α) → Option (ℕ → α)
  | 0, _, _ => none
  | turns + 1, k, data =>
    if k ≤ n / 2 then
      let j := child compare n k data
      if 0 ≤ compare (data k) (data j) then some data else downheap n turns j (swap data j k)
    else some data

/-- The first loop of `qsort`, from `k` down. -/
def heapify (n turns : ℕ) : ℕ → (ℕ → α) → Option (ℕ → α)
  | 0, data => downheap compare n turns 0 data
  | k + 1, data => (downheap compare n turns (k + 1) data).bind (heapify n turns k)

/-- The second loop of `qsort`: the root goes behind the heap. -/
def unheap (turns : ℕ) : ℕ → (ℕ → α) → Option (ℕ → α)
  | 0, data => some data
  | n + 1, data => (downheap compare n turns 0 (swap data 0 (n + 1))).bind (unheap turns n)

def qsort (turns : ℕ) (data : ℕ → α) (count : ℕ) : Option (ℕ → α) :=
  if count = 0 then some data
  else (heapify compare (count - 1) turns ((count - 1) / 2) data).bind (unheap compare turns (count - 1))

end

/-- A comparison that comes from a total order of classes of objects. -/
structure Consistent (compare : α → α → ℤ) : Prop where
  sign : ∀ a b, compare a b < 0 ↔ 0 < compare b a
  trans : ∀ a b c, 0 ≤ compare a b → 0 ≤ compare b c → 0 ≤ compare a c

-- `lib/bsearch.c`

/-- `bsearch` between the positions `l` and `u`, for at most so many turns of its loop. `comparison` is
how the key compares. -/
def bsearchLoop (comparison : α → ℤ) (data : ℕ → α) : ℕ → ℕ → ℕ → Option (Option ℕ)
  | 0, _, _ => none
  | turns + 1, l, u =>
    if l < u then
      let idx := (l + u) % 2 ^ 32 / 2
      if comparison (data idx) < 0 then bsearchLoop comparison data turns l idx
      else if 0 < comparison (data idx) then bsearchLoop comparison data turns (idx + 1) u
      else some (some idx)
    else some none

def bsearch (compar : κ → α → ℤ) (key : κ) (base : ℕ → α) (nmemb turns : ℕ) : Option (Option ℕ) :=
  bsearchLoop (compar key) base turns 0 nmemb

-- What moves

variable {compare : α → α → ℤ} {d d' : ℕ → α} {i j k k₀ n turns count : ℕ}

theorem swap_eq : swap d i j = d ∘ Equiv.swap i j := by
  unfold swap
  split
  · next h =>
    rw [h, Equiv.swap_self]
    rfl
  · rfl

theorem child_le (hk : k ≤ n / 2) : child compare n k d ≤ n := by
  unfold child
  split <;> omega

theorem child_half : child compare n k d / 2 = k := by
  unfold child
  split <;> omega

theorem downheap_shuffled (h : downheap compare n turns k d = some d') (hk : k ≤ n) : Shuffled (n + 1) d d' := by
  induction turns generalizing k d with
  | zero => cases h
  | succ turns ih =>
    rw [downheap] at h
    split at h
    · next hle =>
      dsimp only at h
      split at h
      · cases h
        exact .refl
      · have hj : child compare n k d ≤ n := child_le hle
        rw [swap_eq] at h
        exact (Shuffled.swap (Nat.lt_succ_of_le hj) (Nat.lt_succ_of_le hk)).trans (ih h hj)
    · cases h
      exact .refl

/-- Each turn that does not end the loop goes down. -/
theorem downheap_returns (hself : ∀ a, 0 ≤ compare a a) (hk : k ≤ n) (hturns : n < turns + k) :
    ∃ d', downheap compare n turns k d = some d' := by
  induction turns generalizing k d with
  | zero => omega
  | succ turns ih =>
    rw [downheap]
    split
    · next hle =>
      dsimp only
      split
      · exact ⟨d, rfl⟩
      · next hless =>
        have hne : child compare n k d ≠ k := fun he => hless (by rw [he]; exact hself _)
        have hhalf : child compare n k d / 2 = k := child_half
        exact ih (child_le hle) (by omega)
    · exact ⟨d, rfl⟩

theorem heapify_returns (hself : ∀ a, 0 ≤ compare a a) (hk : k ≤ n) (hturns : n < turns) :
    ∃ d', heapify compare n turns k d = some d' := by
  induction k generalizing d with
  | zero => exact downheap_returns hself (Nat.zero_le n) hturns
  | succ k ih =>
    obtain ⟨u, hu⟩ := downheap_returns (d := d) hself hk (Nat.lt_add_right _ hturns)
    rw [heapify, hu]
    exact ih (Nat.le_of_succ_le hk)

theorem heapify_shuffled (h : heapify compare n turns k d = some d') (hk : k ≤ n) : Shuffled (n + 1) d d' := by
  induction k generalizing d with
  | zero => exact downheap_shuffled h (Nat.zero_le n)
  | succ k ih =>
    obtain ⟨u, hu, h⟩ := Option.bind_eq_some_iff.mp h
    exact (downheap_shuffled hu hk).trans (ih h (Nat.le_of_succ_le hk))

theorem unheap_returns (hself : ∀ a, 0 ≤ compare a a) (hturns : n ≤ turns) : ∃ d', unheap compare turns n d = some d' := by
  induction n generalizing d with
  | zero => exact ⟨d, rfl⟩
  | succ n ih =>
    obtain ⟨u, hu⟩ := downheap_returns (d := swap d 0 (n + 1)) hself (Nat.zero_le n) hturns
    rw [unheap, hu]
    exact ih (Nat.le_of_succ_le hturns)

theorem unheap_shuffled (h : unheap compare turns n d = some d') : Shuffled (n + 1) d d' := by
  induction n generalizing d with
  | zero =>
    cases h
    exact .refl
  | succ n ih =>
    obtain ⟨u, hu, h⟩ := Option.bind_eq_some_iff.mp h
    rw [swap_eq] at hu
    have hswap : Shuffled (n + 2) d (d ∘ Equiv.swap 0 (n + 1)) := .swap (Nat.succ_pos _) (Nat.lt_succ_self _)
    exact (hswap.trans ((downheap_shuffled hu (Nat.zero_le n)).mono (Nat.le_succ _))).trans ((ih h).mono (Nat.le_succ _))

theorem qsort_shuffled (h : qsort compare turns d count = some d') : Shuffled count d d' := by
  unfold qsort at h
  split at h
  · cases h
    exact .refl
  · next hcount =>
    obtain ⟨u, hu, h⟩ := Option.bind_eq_some_iff.mp h
    have hn : count - 1 + 1 = count := Nat.succ_pred_eq_of_ne_zero hcount
    rw [← hn]
    exact (heapify_shuffled hu (Nat.div_le_self _ _)).trans (unheap_shuffled h)

/-- **`qsort` returns for every array, and permutes its objects, exactly if the comparison never says
that an object is less than itself.** -/
theorem qsort_returns_iff (compare : α → α → ℤ) :
    (∀ (data : ℕ → α) (count : ℕ), ∃ turns data', qsort compare turns data count = some data' ∧
      ∃ σ : Equiv.Perm ℕ, (∀ i, count ≤ i → σ i = i) ∧ data' = data ∘ σ) ↔ ∀ a, 0 ≤ compare a a := by
  constructor
  · intro h a
    by_contra hneg
    -- one object is enough: `downheap` changes it with itself for ever
    have hnone : ∀ turns, downheap compare 0 turns 0 (fun _ : ℕ => a) = none := by
      intro turns
      induction turns with
      | zero => rfl
      | succ turns ih =>
        rw [downheap, if_pos (Nat.zero_le _)]
        dsimp only
        rw [if_neg hneg]
        exact ih
    obtain ⟨turns, data', hq, -⟩ := h (fun _ => a) 1
    simp [qsort, heapify, hnone] at hq
  · intro hself data count
    cases count with
    | zero => exact ⟨0, data, rfl, Shuffled.refl⟩
    | succ n =>
      obtain ⟨u, hu⟩ := heapify_returns (d := data) hself (Nat.div_le_self n 2) (Nat.lt_succ_self n)
      obtain ⟨data', hdata⟩ := unheap_returns (d := u) hself (Nat.le_succ n)
      have hq : qsort compare (n + 1) data (n + 1) = some data' := by
        rw [qsort, if_neg (Nat.succ_ne_zero n), Nat.add_sub_cancel, hu]
        exact hdata
      exact ⟨n + 1, data', hq, qsort_shuffled hq⟩

-- The order

section
variable (hc : Consistent compare)
include hc

theorem Consistent.self (a : α) : compare a a = 0 := by
  have h := hc.sign a a
  omega

/-- The child that is looked at may stand above the other one. -/
theorem Consistent.best {c : ℕ} (hn : c ≤ n) (hck : c / 2 = k) : 0 ≤ compare (d (child compare n k d)) (d c) := by
  have hcases : c = 2 * k ∨ c = 2 * k + 1 := by omega
  unfold child
  split
  · next hless =>
    obtain rfl | rfl := hcases
    · exact Int.le_of_lt ((hc.sign _ _).mp hless.2)
    · exact Int.le_of_eq (hc.self _).symm
  · next hless =>
    obtain rfl | rfl := hcases
    · exact Int.le_of_eq (hc.self _).symm
    · exact Int.not_lt.mp fun hlt => hless ⟨hn, hlt⟩

theorem downheap_heap (h : Sifting (fun a b => 0 ≤ compare a b) d k₀ k n) (hk : k₀ ≤ k)
    (hd : downheap compare n turns k d = some d') : HeapFrom (fun a b => 0 ≤ compare a b) d' k₀ n := by
  induction turns generalizing k d with
  | zero => cases hd
  | succ turns ih =>
    rw [downheap] at hd
    split at hd
    · next hle =>
      dsimp only at hd
      split at hd
      · next hge =>
        cases hd
        exact h.finish fun c _ hn hck => hc.trans _ _ _ hge (hc.best hn hck)
      · next hlt =>
        have hne : child compare n k d ≠ k := fun he => hlt (by rw [he]; exact Int.le_of_eq (hc.self _).symm)
        have hhalf : child compare n k d / 2 = k := child_half
        have hsink := Int.le_of_lt ((hc.sign _ _).mp (Int.not_le.mp hlt))
        rw [swap_eq] at hd
        exact ih (h.move hk (by omega) (child_le hle) hhalf (fun c _ hn hck => hc.best hn hck) hsink) (by omega) hd
    · next hgt =>
      cases hd
      exact h.finish fun c _ hn hck => absurd hn (by omega)

theorem heapify_heap (h : HeapFrom (fun a b => 0 ≤ compare a b) d (k + 1) n) (hd : heapify compare n turns k d = some d') :
    HeapFrom (fun a b => 0 ≤ compare a b) d' 0 n := by
  induction k generalizing d with
  | zero => exact downheap_heap hc h.sifting (Nat.le_refl _) hd
  | succ k ih =>
    obtain ⟨u, hu, hd⟩ := Option.bind_eq_some_iff.mp hd
    exact ih (downheap_heap hc h.sifting (Nat.le_refl _) hu) hd

/-- Behind the heap the objects are in order, and none of the heap is greater. -/
theorem unheap_sorted (h : HeapFrom (fun a b => 0 ≤ compare a b) d 0 n)
    (hsorted : ∀ i j, n < i → i < j → j < count → 0 ≤ compare (d j) (d i))
    (hheap : ∀ i j, i ≤ n → n < j → j < count → 0 ≤ compare (d j) (d i)) (hd : unheap compare turns n d = some d') :
    ∀ i j, i < j → j < count → 0 ≤ compare (d' j) (d' i) := by
  induction n generalizing d with
  | zero =>
    cases hd
    intro i j hij hj
    obtain rfl | hpos := Nat.eq_zero_or_pos i
    · exact hheap 0 j (Nat.le_refl _) hij hj
    · exact hsorted i j hpos hij hj
  | succ n ih =>
    obtain ⟨u, hu, hd⟩ := Option.bind_eq_some_iff.mp hd
    rw [swap_eq] at hu
    have hlast : (d ∘ Equiv.swap 0 (n + 1)) (n + 1) = d 0 := congrArg d (Equiv.swap_apply_right _ _)
    have hother : ∀ i, i ≠ 0 → i ≠ n + 1 → (d ∘ Equiv.swap 0 (n + 1)) i = d i := fun i h₁ h₂ =>
      congrArg d (Equiv.swap_apply_of_ne_of_ne h₁ h₂)
    have hshuffled := downheap_shuffled hu (Nat.zero_le n)
    have hfrom : ∀ i, n + 1 < i → u i = d i := fun i hi => by
      rw [hshuffled.above (Nat.le_of_lt hi), hother i (by omega) (by omega)]
    have hroot : u (n + 1) = d 0 := (hshuffled.above (Nat.le_refl _)).trans hlast
    -- what is left of the heap was in it
    have hin : ∀ i ≤ n, ∃ j ≤ n + 1, u i = d j := by
      intro i hi
      obtain ⟨j, hj, he⟩ := ((Shuffled.swap (d := d) (n := n + 2) (Nat.succ_pos _) (Nat.lt_succ_self (n + 1))).trans
        (hshuffled.mono (Nat.le_succ _))).below (Nat.lt_of_le_of_lt hi (by omega))
      exact ⟨j, Nat.lt_succ_iff.mp hj, he⟩
    have htop : ∀ i ≤ n + 1, 0 ≤ compare (d 0) (d i) := fun i hi =>
      h.top (fun a => Int.le_of_eq (hc.self a).symm) hc.trans hi
    refine ih (downheap_heap hc (HeapFrom.sifting ?_) (Nat.le_refl _) hu) ?_ ?_ hd
    · intro c hpos hn hge
      rw [hother c (by omega) (by omega), hother (c / 2) (by omega) (by omega)]
      exact h c hpos (Nat.le_succ_of_le hn) (Nat.zero_le _)
    · intro i j hi hij hj
      rw [hfrom j (by omega)]
      obtain rfl | hne := eq_or_ne i (n + 1)
      · rw [hroot]
        exact hheap 0 j (Nat.zero_le _) (by omega) hj
      · rw [hfrom i (by omega)]
        exact hsorted i j (by omega) hij hj
    · intro i j hi hj hlt
      obtain ⟨i', hi', he⟩ := hin i hi
      rw [he]
      obtain rfl | hne := eq_or_ne j (n + 1)
      · rw [hroot]
        exact htop i' hi'
      · rw [hfrom j (by omega)]
        exact hheap i' j hi' (by omega) hlt

/-- Of two objects in the sorted array the later one is not less. -/
theorem qsort_ordered (hd : qsort compare turns d count = some d') (hij : i < j) (hj : j < count) :
    0 ≤ compare (d' j) (d' i) := by
  rw [qsort, if_neg (by omega)] at hd
  obtain ⟨u, hu, hd⟩ := Option.bind_eq_some_iff.mp hd
  have hheap := heapify_heap hc (.of_half (Nat.lt_succ_self _)) hu
  exact unheap_sorted hc hheap (fun i j hi hij hj => absurd hj (by omega))
    (fun i j hi hj hlt => absurd hlt (by omega)) hd i j hij hj

end

/-- **Under an order `qsort` sorts**: no object stands before a lesser one. -/
theorem qsort_sorts (hc : Consistent compare) (hd : qsort compare turns d count = some d') :
    ∀ i j, i < j → j < count → compare (d' i) (d' j) ≤ 0 := by
  intro i j hij hj
  have hge := qsort_ordered hc hd hij hj
  have hsign := hc.sign (d' j) (d' i)
  omega

theorem consistent_sub : Consistent fun a b : ℤ => a - b where
  sign a b := by omega
  trans a b c := by omega

theorem qsort_sorts_three : ∃ d', qsort (fun a b : ℤ => a - b) 3 (fun i => [3, 1, 2].getD i 0) 3 = some d' ∧
    ∀ i j, i < j → j < 3 → d' i - d' j ≤ 0 := by
  obtain ⟨d', hd⟩ := Option.isSome_iff_exists.mp
    (show (qsort (fun a b : ℤ => a - b) 3 (fun i => [3, 1, 2].getD i 0) 3).isSome by decide)
  exact ⟨d', hd, qsort_sorts consistent_sub hd⟩

-- The search

/-- Each turn halves the range, which keeps all that compares equal. -/
theorem bsearchLoop_spec {comparison : α → ℤ} {l u : ℕ} (hn : n ≤ 2 ^ 31) (hu : u ≤ n) (hturns : u - l < 2 ^ turns)
    (hneg : ∀ i j, i ≤ j → j < n → comparison (d i) < 0 → comparison (d j) < 0)
    (hpos : ∀ i j, i ≤ j → j < n → 0 < comparison (d j) → 0 < comparison (d i))
    (hin : ∀ i < n, comparison (d i) = 0 → l ≤ i ∧ i < u) :
    ∃ r, bsearchLoop comparison d (turns + 1) l u = some r ∧ (∀ i, r = some i → i < n ∧ comparison (d i) = 0) ∧
      (r = none → ∀ i < n, comparison (d i) ≠ 0) := by
  induction turns generalizing l u with
  | zero =>
    refine ⟨none, ?_, by rintro _ ⟨⟩, fun _ i hi he => ?_⟩
    · rw [bsearchLoop, if_neg (by omega)]
    · have := hin i hi he
      omega
  | succ turns ih =>
    by_cases hlt : l < u
    · have hword : (l + u) % 2 ^ 32 = l + u := Nat.mod_eq_of_lt (by omega)
      rw [bsearchLoop, if_pos hlt, hword]
      dsimp only
      have hidx : (l + u) / 2 < n := by omega
      rw [Nat.pow_succ] at hturns
      split
      · next hless =>
        refine ih (by omega) (by omega) fun i hi he => ⟨(hin i hi he).1, Nat.not_le.mp fun hge => ?_⟩
        exact absurd he (Int.ne_of_lt (hneg _ i hge hi hless))
      · next hless =>
        split
        · next hmore =>
          refine ih hu (by omega) fun i hi he => ⟨Nat.not_lt.mp fun hge => ?_, (hin i hi he).2⟩
          exact absurd he (Int.ne_of_gt (hpos i _ (Nat.le_of_lt_succ hge) hidx hmore))
        · next hmore =>
          refine ⟨_, rfl, ?_, by rintro ⟨⟩⟩
          rintro _ ⟨⟩
          exact ⟨hidx, by omega⟩
    · refine ⟨none, ?_, by rintro _ ⟨⟩, fun _ i hi he => ?_⟩
      · rw [bsearchLoop, if_neg hlt]
      · have := hin i hi he
        omega

/-- **`bsearch` after `qsort`**: in at most 33 turns it ends at an object equal to the key, if one was in
the array before, and else finds nothing. -/
theorem bsearch_qsort (hc : Consistent compare) (hcount : count ≤ 2 ^ 31) (hd : qsort compare turns d count = some d')
    (key : α) : ∃ r, bsearch compare key d' count 33 = some r ∧
      (∀ i, r = some i → i < count ∧ compare key (d' i) = 0) ∧ (r = none ↔ ∀ i < count, compare key (d i) ≠ 0) := by
  have hord : ∀ i j, i ≤ j → j < count → 0 ≤ compare (d' j) (d' i) := by
    intro i j hij hj
    obtain rfl | hlt := Nat.eq_or_lt_of_le hij
    · exact Int.le_of_eq (hc.self _).symm
    · exact qsort_ordered hc hd hlt hj
  have hturns : count - 0 < 2 ^ 32 := by omega
  obtain ⟨r, hr, hsome, hnone⟩ := bsearchLoop_spec hcount (Nat.le_refl _) hturns
    (fun i j hij hj hneg => Int.not_le.mp fun hge => Int.not_le.mpr hneg (hc.trans _ _ _ hge (hord i j hij hj)))
    (fun i j hij hj hpos => by
      by_contra hle
      have hji := hc.trans _ _ key (hord i j hij hj) (Int.not_lt.mp fun hlt => hle ((hc.sign _ _).mp hlt))
      exact absurd ((hc.sign _ _).mpr hpos) (Int.not_lt.mpr hji))
    (fun i hi _ => ⟨Nat.zero_le i, hi⟩)
  have hshuffled := qsort_shuffled hd
  refine ⟨r, hr, hsome, fun hr i hi => ?_, fun hno => Option.eq_none_iff_forall_ne_some.mpr fun i hri => ?_⟩
  · obtain ⟨j, hj, he⟩ := hshuffled.symm.below hi
    rw [he]
    exact hnone hr j hj
  · obtain ⟨hi, he⟩ := hsome i hri
    obtain ⟨j, hj, hdj⟩ := hshuffled.below hi
    exact hno j hj (hdj ▸ he)

theorem bsearch_qsort_three : ∃ d', qsort (fun a b : ℤ => a - b) 3 (fun i => [3, 1, 2].getD i 0) 3 = some d' ∧
    ∃ r, bsearch (fun a b : ℤ => a - b) 2 d' 3 33 = some r ∧ (∀ i, r = some i → i < 3 ∧ 2 - d' i = 0) ∧
      (r = none ↔ ∀ i < 3, (2 : ℤ) - [3, 1, 2].getD i 0 ≠ 0) := by
  obtain ⟨d', hd⟩ := Option.isSome_iff_exists.mp
    (show (qsort (fun a b : ℤ => a - b) 3 (fun i => [3, 1, 2].getD i 0) 3).isSome by decide)
  exact ⟨d', hd, bsearch_qsort consistent_sub (by decide) hd 2⟩

end Sneks.Stdlib
