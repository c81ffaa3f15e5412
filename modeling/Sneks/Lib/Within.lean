import Mathlib.Data.Option.Basic

/-!
# Partial results within others

A computation that checks more than another one stops more often, and where it does not it returns
the same.
-/

namespace Sneks.Lib

variable {α β : Type*} {a b c : Option α} {f g : α → Option β}

def Within (a b : Option α) : Prop := ∀ x, a = some x → b = some x

namespace Within

theorem refl (a : Option α) : Within a a := fun _ h => h

theorem trans (h : Within a b) (h' : Within b c) : Within a c := fun x hx => h' x (h x hx)

theorem bind (h : Within a b) (hf : ∀ x, Within (f x) (g x)) : Within (a.bind f) (b.bind g) := fun y hy => by
  obtain ⟨x, hx, hfx⟩ := Option.bind_eq_some_iff.mp hy
  exact Option.bind_eq_some_iff.mpr ⟨x, h x hx, hf x y hfx⟩

theorem map {k : α → β} (h : Within a b) : Within (a.map k) (b.map k) := fun y hy => by
  obtain ⟨x, hx, rfl⟩ := Option.map_eq_some_iff.mp hy
  rw [h x hx, Option.map_some]

theorem ite {p : Prop} [Decidable p] {a' b' : Option α} (h : Within a b) (h' : Within a' b') :
    Within (if p then a else a') (if p then b else b') := by
  split
  · exact h
  · exact h'

theorem foldlM {l : List β} {step step' : α → β → Option α} (h : ∀ x y, Within (step x y) (step' x y)) (x : α) :
    Within (l.foldlM step x) (l.foldlM step' x) := by
  induction l generalizing x with
  | nil => exact .refl _
  | cons y l ih =>
    rw [List.foldlM_cons, List.foldlM_cons]
    exact bind (h x y) fun x' => ih x'

end Within

end Sneks.Lib
