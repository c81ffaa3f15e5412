import Mathlib.Data.Set.Card
import Mathlib.Logic.Relation
import Mathlib.Order.CompletePartialOrder

/-!
# Steps that use things up

A step either uses one of finitely many things or makes a measure smaller. Where nothing is used a
second time, the steps come to an end.
-/

namespace Sneks.Lib
open Relation

variable {α τ : Type*} {R : α → α → Prop} {uses : α → Set τ} {a b : α}

/-- What is used at one state from `a` on is not used at a later one. -/
def UsedOnce (R : α → α → Prop) (uses : α → Set τ) (a : α) : Prop :=
  ∀ b c, ReflTransGen R a b → TransGen R b c → Disjoint (uses b) (uses c)

theorem UsedOnce.step (h : UsedOnce R uses a) (hab : R a b) : UsedOnce R uses b := fun c d hbc hcd =>
  h c d (.head hab hbc) hcd

/-- **Steps that use nothing twice end.** -/
theorem UsedOnce.acc {F : Set τ} {μ : α → ℕ} (h : UsedOnce R uses a) (hF : F.Finite)
    (hstep : ∀ a b, R a b → (∃ x ∈ F, x ∈ uses a) ∨ μ b < μ a) : Acc (flip R) a := by
  -- by what can still be used, and then by the measure
  have key : ∀ (n m : ℕ) (left : Set τ) (a : α), left.Finite → left.ncard = n → μ a = m → UsedOnce R uses a →
      (∀ b, ReflTransGen R a b → F ∩ uses b ⊆ left) → Acc (flip R) a := by
    intro n
    induction n using Nat.strong_induction_on with
    | _ n ihn =>
      intro m
      induction m using Nat.strong_induction_on with
      | _ m ihm =>
        intro left a hleft hn hm honce hsub
        refine Acc.intro a fun b hab => ?_
        have hab : R a b := hab
        obtain ⟨x, hx, hused⟩ | hless := hstep a b hab
        · have hmem : x ∈ left := hsub a .refl ⟨hx, hused⟩
          have hlt : (left \ uses a).ncard < n := hn ▸ Set.ncard_lt_ncard
            ⟨Set.sdiff_subset, fun hle => (hle hmem).2 hused⟩ hleft
          refine ihn _ hlt (μ b) (left \ uses a) b (hleft.subset Set.sdiff_subset) rfl rfl (honce.step hab) fun c hbc y hy => ?_
          exact ⟨hsub c (.head hab hbc) hy, fun ha => Set.disjoint_left.mp (honce a c .refl (.head' hab hbc)) ha hy.2⟩
        · exact ihm (μ b) (hm ▸ hless) left b hleft hn rfl (honce.step hab) fun c hbc => hsub c (.head hab hbc)
  exact key _ _ F a hF rfl rfl h fun _ _ => Set.inter_subset_left

end Sneks.Lib
