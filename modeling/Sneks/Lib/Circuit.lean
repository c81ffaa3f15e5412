import Mathlib.Data.List.Nodup
import Mathlib.Data.List.TakeWhile

/-!
# Going round a list

A hand goes along a list, and from its end to the start of it. Where it sets out at an element it comes
to the others in order, and to each once before it is back.
-/

namespace Sneks.Lib

variable {α : Type*} [DecidableEq α] {l pre post : List α} {x : α} {i : ℕ}

/-- What comes after `x`, if `x` is in the list and not its last element. -/
def following (l : List α) (x : α) : Option α := (l.dropWhile (· ≠ x)).tail.head?

/-- The list from `x` on, and then the part before `x`. -/
def circuit (l : List α) (x : α) : List α := l.dropWhile (· ≠ x) ++ l.takeWhile (· ≠ x)

theorem circuit_perm (l : List α) (x : α) : (circuit l x).Perm l := by
  refine List.perm_append_comm.trans ?_
  rw [List.takeWhile_append_dropWhile]

theorem dropWhile_ne_append (hx : x ∉ pre) : (pre ++ x :: post).dropWhile (· ≠ x) = x :: post := by
  have hpass : ∀ y ∈ pre, decide (y ≠ x) = true := fun y hy => decide_eq_true fun he => hx (he ▸ hy)
  show (pre ++ x :: post).dropWhile (fun y => decide (y ≠ x)) = x :: post
  rw [List.dropWhile_append_of_pos hpass]
  simp

theorem circuit_head? (hx : x ∈ l) : (circuit l x).head? = some x := by
  obtain ⟨pre, post, rfl, hnot⟩ := List.eq_append_cons_of_mem hx
  rw [circuit, dropWhile_ne_append hnot]
  rfl

theorem following_append (hx : x ∉ pre) : following (pre ++ x :: post) x = post.head? := by
  rw [following, dropWhile_ne_append hx, List.tail_cons]

theorem following_of_split (hn : l.Nodup) (hl : l = pre ++ x :: post) : following l x = post.head? := by
  rw [hl] at hn ⊢
  exact following_append fun hm => List.disjoint_of_nodup_append hn hm List.mem_cons_self

structure Circuit (pre post : List α) : Prop where
  nodup : (pre ++ post).Nodup
  start : post ≠ []

namespace Circuit

theorem of_mem (hn : l.Nodup) (hx : x ∈ l) : Circuit (l.takeWhile (· ≠ x)) (l.dropWhile (· ≠ x)) := by
  refine ⟨by rwa [List.takeWhile_append_dropWhile], ?_⟩
  rw [Ne, List.dropWhile_eq_nil_iff]
  intro hall
  simpa using hall x hx

theorem following_upper (h : Circuit pre post) (hi : i < post.length) :
    following (pre ++ post) (post[i]) = post[i + 1]? := by
  have hsplit : pre ++ post = (pre ++ post.take i) ++ post[i] :: post.drop (i + 1) := by
    rw [List.append_assoc, List.getElem_cons_drop, List.take_append_drop]
  rw [following_of_split h.nodup hsplit, List.head?_drop]

theorem following_lower (h : Circuit pre post) (hi : i < pre.length) :
    following (pre ++ post) (pre[i]) = (pre.drop (i + 1) ++ post).head? := by
  have hsplit : pre ++ post = pre.take i ++ pre[i] :: (pre.drop (i + 1) ++ post) := by
    rw [← List.cons_append, List.getElem_cons_drop, ← List.append_assoc, List.take_append_drop]
  exact following_of_split h.nodup hsplit

theorem following_eq_none_iff (h : Circuit pre post) (hi : i < (post ++ pre).length) :
    following (pre ++ post) (post ++ pre)[i] = none ↔ i + 1 = post.length := by
  by_cases hlt : i < post.length
  · rw [List.getElem_append_left hlt, h.following_upper hlt, List.getElem?_eq_none_iff]
    omega
  · have hlow : i - post.length < pre.length := by
      rw [List.length_append] at hi
      omega
    rw [List.getElem_append_right (Nat.not_lt.mp hlt), h.following_lower hlow, List.head?_eq_none_iff]
    refine iff_of_false (fun he => h.start (List.append_eq_nil_iff.mp he).2) ?_
    omega

theorem onward (h : Circuit pre post) (hi : i < (post ++ pre).length) :
    (following (pre ++ post) (post ++ pre)[i] <|> (pre ++ post).head?) = (post ++ pre)[(i + 1) % (post ++ pre).length]? := by
  have hpos := List.length_pos_iff.mpr h.start
  have hlen : (post ++ pre).length = post.length + pre.length := List.length_append
  by_cases hlt : i < post.length
  · rw [List.getElem_append_left hlt, h.following_upper hlt]
    by_cases hlast : i + 1 < post.length
    · rw [Nat.mod_eq_of_lt (by omega), List.getElem?_append_left hlast, List.getElem?_eq_getElem hlast]
      rfl
    · rw [List.getElem?_eq_none (Nat.not_lt.mp hlast)]
      have he : i + 1 = post.length := by omega
      cases pre with
      | nil => simp [he, List.head?_eq_getElem?]
      | cons y pre =>
        rw [he, Nat.mod_eq_of_lt (by rw [hlen, List.length_cons]; omega), List.getElem?_append_right (Nat.le_refl _)]
        simp
  · have hlow : i - post.length < pre.length := by omega
    rw [List.getElem_append_right (Nat.not_lt.mp hlt), h.following_lower hlow]
    by_cases hlast : i + 1 < (post ++ pre).length
    · rw [Nat.mod_eq_of_lt hlast, List.getElem?_append_right (by omega), List.head?_append_of_ne_nil, List.head?_drop,
        show i - post.length + 1 = i + 1 - post.length by omega, List.getElem?_eq_getElem (by omega)]
      · rfl
      · rw [Ne, List.drop_eq_nil_iff]
        omega
    · rw [List.drop_eq_nil_of_le (by omega), List.nil_append, show i + 1 = (post ++ pre).length by omega, Nat.mod_self,
        List.getElem?_append_left hpos, List.head?_eq_getElem?, List.getElem?_eq_getElem hpos]
      rfl

end Circuit

end Sneks.Lib
