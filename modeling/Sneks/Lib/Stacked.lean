import Mathlib.Algebra.BigOperators.Group.Finset.Basic
import Mathlib.Algebra.BigOperators.Group.Finset.Piecewise
import Mathlib.Algebra.Group.Fin.Basic
import Mathlib.Data.Fin.Basic

/-!
# Multisets stacked as sets

A multiset over `α` is stored in finitely many levels, each of them a set. Putting a set on a level
leaves over what the level has already, and that goes to the next level. The levels in use are a
stretch of a ring.
-/

namespace Sneks.Lib

variable {ι α : Type*} [Fintype ι]

def stacked (f : ι → Finset α) : Multiset α := ∑ i, (f i).val

theorem mem_stacked {f : ι → Finset α} {a : α} : a ∈ stacked f ↔ ∃ i, a ∈ f i := by
  simp [stacked, Multiset.mem_sum]

theorem stacked_eq_zero {f : ι → Finset α} : stacked f = 0 ↔ ∀ i, f i = ∅ := by
  rw [Multiset.eq_zero_iff_forall_notMem]
  simp only [mem_stacked, not_exists, Finset.eq_empty_iff_forall_notMem]
  exact forall_comm

variable [DecidableEq ι]

theorem stacked_update (f : ι → Finset α) (i : ι) (s : Finset α) :
    stacked (Function.update f i s) + (f i).val = stacked f + s.val := by
  have hval : (fun j => (Function.update f i s j).val) = Function.update (fun j => (f j).val) i s.val :=
    Function.comp_update Finset.val f i s
  have hi : i ∈ Finset.univ := Finset.mem_univ i
  rw [stacked, stacked, hval, Finset.sum_update_of_mem hi, Finset.sum_eq_add_sum_sdiff_singleton_of_mem hi]
  ac_rfl

variable [DecidableEq α]

theorem stacked_union (f : ι → Finset α) (i : ι) (s : Finset α) :
    stacked (Function.update f i (f i ∪ s)) + (f i ∩ s).val = stacked f + s.val := by
  have hboth : (f i ∪ s).val + (f i ∩ s).val = (f i).val + s.val := by
    rw [Finset.union_val, Finset.inter_val, Multiset.union_add_inter]
  have hupdate := stacked_update f i (f i ∪ s)
  refine add_right_cancel (b := (f i).val) ?_
  rw [add_right_comm, hupdate, add_assoc, hboth]
  ac_rfl

theorem stacked_erase {f : ι → Finset α} {i : ι} {a : α} (h : a ∈ f i) :
    stacked (Function.update f i ((f i).erase a)) = (stacked f).erase a := by
  have hupdate := stacked_update f i ((f i).erase a)
  rw [Finset.erase_val] at hupdate
  have hcons : a ::ₘ ((f i).val.erase a) = (f i).val := Multiset.cons_erase h
  have hall : stacked f = a ::ₘ stacked (Function.update f i ((f i).erase a)) := by
    refine add_right_cancel (b := (f i).val.erase a) ?_
    rw [← hupdate, Multiset.cons_add, ← Multiset.add_cons, hcons]
  rw [hall, Multiset.erase_cons_head]

-- Stretches of a ring

variable {n : ℕ} {a b i : Fin (n + 1)}

/-- `i` is met on the way up from `a` to `b`. -/
def Between (a b i : Fin (n + 1)) : Prop := i - a ≤ b - a

instance : Decidable (Between a b i) := inferInstanceAs (Decidable (_ ≤ _))

theorem between_left (a b : Fin (n + 1)) : Between a b a := by simp [Between]

theorem between_right (a b : Fin (n + 1)) : Between a b b := Nat.le_refl _

theorem between_self : Between a a i ↔ i = a := by
  rw [Between, sub_self, Fin.le_zero_iff, sub_eq_zero]

theorem between_left_iff (h : a ≠ b) : Between a b i ↔ i = a ∨ Between (a + 1) b i := by
  have he : b - a ≠ 0 := fun he => h (sub_eq_zero.mp he).symm
  rw [Between, Between, sub_add_eq_sub_sub, sub_add_eq_sub_sub, ← sub_eq_zero (a := i)]
  generalize i - a = d at *
  generalize b - a = e at *
  have hd := Fin.coe_sub_one d
  have he' := Fin.coe_sub_one e
  rw [if_neg he] at he'
  rw [Fin.le_def, Fin.le_def, hd, he']
  rw [← Fin.val_ne_zero_iff] at he
  split <;> rename_i hz
  · simp [hz]
  · rw [← Fin.val_eq_zero_iff] at hz ⊢
    omega

theorem between_right_iff (h : b + 1 ≠ a) : Between a (b + 1) i ↔ Between a b i ∨ i = b + 1 := by
  have he : (b - a) + 1 ≠ 0 := fun he => h (by rwa [sub_add_eq_add_sub, sub_eq_zero] at he)
  rw [Between, Between, ← sub_left_inj (a := a) (b := i), ← sub_add_eq_add_sub]
  generalize i - a = d at *
  generalize b - a = e at *
  have he' := Fin.val_add_one e
  split at he'
  · next hlast => exact absurd (by rw [hlast, Fin.last_add_one]) he
  · rw [Fin.le_def, Fin.le_def, Fin.ext_iff, he']
    omega

theorem sub_succ_lt (h : a ≠ b) : (b - (a + 1)).val < (b - a).val := by
  have he : b - a ≠ 0 := fun he => h (sub_eq_zero.mp he).symm
  rw [sub_add_eq_sub_sub, Fin.coe_sub_one, if_neg he]
  have hpos := Fin.val_ne_zero_iff.mpr he
  omega

end Sneks.Lib
