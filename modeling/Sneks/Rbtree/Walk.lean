import Sneks.Rbtree.Shape

/-!
# Walks over a red-black tree
-/

namespace Sneks.Rbtree
open BinaryTree Lib

variable {α : Type*} [DecidableEq α] {d : Side} {ks : List α} {a : α} {s : Store α}
  {l r t : BinaryTree (α × Bool)} {fs : List (Frame (α × Bool))} {turns : ℕ}

/-- What comes next to what is in the hole. -/
theorem Shows.climb (h : Shows ks s fs t) (htop : top t = some a) (hturns : fs.length < turns) :
    s.climb .right turns a = some ((beside .right fs).map Prod.fst).head? ∧
      s.climb .left turns a = some ((beside .left fs).map Prod.fst).getLast? := by
  induction turns generalizing fs t a with
  | zero => exact absurd hturns (Nat.not_lt_zero _)
  | succ turns ih =>
    rw [Store.climb, Store.climb, h.parent htop]
    obtain _ | ⟨⟨d, ⟨p, c⟩, u⟩, fs⟩ := fs
    · exact ⟨rfl, rfl⟩
    have hp := shows_near.mpr h
    obtain ⟨hright, hleft⟩ := ih hp top_branch (Nat.lt_of_succ_lt_succ hturns)
    have hne : top u ≠ some a := htop ▸ hp.top_ne (.inl (by rintro rfl; cases htop))
    cases d <;> simp [above, hp.node_eq, sided, RbNode.child, htop, hne, beside, hright, hleft]

omit [DecidableEq α] in
theorem Shows.outermost (h : Shows ks s fs t) (htop : top t = some a) (hturns : t.height ≤ turns) :
    s.descend .left turns a = (keys t).head? ∧ s.descend .right turns a = (keys t).getLast? := by
  obtain ⟨path, b, e, far, hb, ht, hpath⟩ := h.descend (d := .left) htop hturns
  obtain ⟨path', b', e', far', hb', ht', hpath'⟩ := h.descend (d := .right) htop hturns
  constructor
  · rw [hb, ht, keys, inorder_plug, beside_eq_nil hpath]
    simp [branch, inorder]
  · rw [hb', ht', keys, inorder_plug, beside_eq_nil hpath']
    simp [branch, inorder]

/-- The neighbours of a node, for `__rb_next` and `__rb_prev`. -/
theorem Holds.neighbour {xs ys : List α} (h : Holds s (xs ++ a :: ys)) (hturns : 2 * ((xs ++ a :: ys).length + 1).log2 < turns) :
    s.neighbour .right turns a = some ys.head? ∧ s.neighbour .left turns a = some xs.getLast? := by
  obtain ⟨fs, c, l, r, n, hs, hb, hroot⟩ := h.at (List.mem_append_right xs List.mem_cons_self)
  have hlen := (hs.length_le hb hroot).trans_lt hturns
  have hsplit : ((beside .left fs).map Prod.fst ++ keys l) ++ a :: (keys r ++ (beside .right fs).map Prod.fst) = xs ++ a :: ys := by
    rw [← hs.order]
    simp [keys, inorder_plug, inorder]
  have hnd := hsplit ▸ hs.nodup
  obtain ⟨rfl, -, rfl⟩ := (List.append_cons_inj_of_notMem (fun ha => List.disjoint_of_nodup_append hnd ha List.mem_cons_self)
    (List.nodup_cons.mp hnd.of_append_right).1).mp hsplit
  have hself : (s.node a).parent ≠ some a := by
    rw [hs.parent rfl]
    obtain ⟨-, -, horder, hnd⟩ := hs
    rw [← horder] at hnd
    have ha : a ∈ keys (node (a, c) l r) := by simp [keys, inorder]
    exact fun habove => (nodup_plug.mp hnd).2.2 (mem_of_above habove) ha
  rw [BinaryTree.height] at hlen
  have hfs : fs.length < turns := by omega
  have hl : l.height ≤ turns := (Nat.le_max_left l.height r.height).trans (by omega)
  have hr : r.height ≤ turns := (Nat.le_max_right l.height r.height).trans (by omega)
  obtain ⟨hright, hleft⟩ := hs.climb rfl hfs
  have hna : s.node a = ⟨above fs, c, top r, top l⟩ := hs.lays.1
  rw [Store.neighbour, Store.neighbour, if_neg hself, if_neg hself, hna]
  constructor
  · cases r with
    | nil => exact hright
    | node x r₁ r₂ =>
      obtain ⟨hfirst, -⟩ := Shows.outermost ((shows_far (d := .left)).mp hs) rfl hr
      obtain ⟨z, zs, hz⟩ := List.exists_cons_of_ne_nil (show keys (node x r₁ r₂) ≠ [] by simp [keys, inorder])
      rw [hz] at hfirst ⊢
      simp [RbNode.child, top, Side.other, hfirst]
  · cases l with
    | nil => simpa [RbNode.child, top, keys, inorder] using hleft
    | node x l₁ l₂ =>
      obtain ⟨-, hlast⟩ := Shows.outermost ((shows_near (d := .left)).mp hs) rfl hl
      obtain ⟨zs, z, hz⟩ := (List.eq_nil_or_concat _).resolve_left (show keys (node x l₁ l₂) ≠ [] by simp [keys, inorder])
      rw [hz] at hlast ⊢
      simp [RbNode.child, top, Side.other, hlast]

theorem Holds.forEach {xs ys : List α} (h : Holds s (xs ++ ys)) (hturns : 2 * ((xs ++ ys).length + 1).log2 < turns) :
    s.forEach turns ys.length ys.head? = some ys := by
  induction ys generalizing xs with
  | nil => rfl
  | cons a ys ih =>
    have hnext := (h.neighbour hturns).1
    rw [List.append_cons] at h hturns
    rw [List.length_cons, List.head?_cons, Store.forEach, hnext, Option.bind_eq_bind, Option.bind_some, ih h hturns]
    rfl

end Sneks.Rbtree
