import Sneks.Rbtree.Shape

/-!
# Insertion into a red-black tree
-/

namespace Sneks.Rbtree
open BinaryTree Lib

variable {α : Type*} [DecidableEq α] {d : Side} {ks : List α} {a b x : α} {c e : Bool} {s s' : Store α}
  {l r t u : BinaryTree (α × Bool)} {f : Frame (α × Bool)} {fs : List (Frame (α × Bool))} {n turns : ℕ}

/-- A red node and its red parent are brought on one side. -/
theorem Shows.straighten {gd fd : Side} {g p : α} {psib uncle : BinaryTree (α × Bool)}
    (h : Shows ks s fs (branch gd (g, true) (branch fd (p, false) t psib) uncle)) (htop : top t = some a)
    (hred : isBlack t = false) (hb : Balanced t n) (hpsib : Balanced psib n) (hpblack : isBlack psib) :
    ∃ s' p' a' t' mid, s.straighten gd p a = some (s', p', a') ∧
      Shows ks s' fs (branch gd (g, true) (branch gd (p', false) t' mid) uncle) ∧
      top t' = some a' ∧ isBlack t' = false ∧ Balanced t' n ∧ Balanced mid n ∧ isBlack mid := by
  unfold Store.straighten
  have hp := shows_near.mp h
  obtain rfl | rfl := Side.eq_or gd fd
  · have hne : top psib ≠ some a := htop ▸ hp.top_ne (.inl (by rintro rfl; cases htop))
    exact ⟨s, p, a, t, psib, by rw [hp.node_eq, sided_child_other, if_neg hne], h, htop, hred, hb, hpsib, hpblack⟩
  · obtain _ | ⟨⟨x, c⟩, l, r⟩ := t
    · cases htop
    obtain rfl : x = a := Option.some.inj htop
    obtain rfl : c = false := hred
    obtain ⟨l', r', hlr⟩ := exists_branch gd (x, false) l r
    rw [hlr] at hb hp
    obtain ⟨⟨hl, hlblack⟩, hr, hrblack⟩ := balanced_red.mp hb
    rw [branch_other] at hp
    obtain ⟨s', hs', h'⟩ := hp.rotate
    refine ⟨s', x, p, branch gd (p, false) psib l', r', ?_, shows_near.mpr h', top_branch, isBlack_branch,
      balanced_red.mpr ⟨⟨hpsib, hpblack⟩, hl, hlblack⟩, hr, hrblack⟩
    rw [hp.node_eq, sided_child_other, top_branch, if_pos rfl, hs']
    rfl

theorem insertLoop_spec (h : Shows ks s fs t) (htop : top t = some a) (hred : isBlack t = false) (hb : Balanced t n)
    (hf : Fits fs n) (hturns : fs.length < turns) :
    ∃ s' u m, Store.insertLoop turns s a = some s' ∧ Shows ks s' [] u ∧ Balanced u m := by
  induction turns generalizing s fs t a n with
  | zero => exact absurd hturns (Nat.not_lt_zero _)
  | succ turns ih =>
    rw [Store.insertLoop, h.parent htop]
    obtain _ | ⟨⟨fd, ⟨p, c⟩, psib⟩, fs⟩ := fs
    · exact ⟨s, t, n, rfl, h, hb⟩
    have hp := h.held.1
    cases c with
    | true =>
      obtain ⟨m, hm, -⟩ := hf.plug hb (.inr fun f hmem => by cases hmem; rfl)
      exact ⟨s, _, m, by simp [above, hp], shows_whole.mp h, hm⟩
    | false =>
      obtain ⟨hpsib, hpblack, hne, hopen, hf⟩ := hf
      obtain _ | ⟨⟨gd, ⟨g, e⟩, uncle⟩, fs⟩ := fs
      · exact absurd rfl hne
      obtain rfl : e = true := hopen _ rfl
      obtain ⟨huncle, hf⟩ := hf
      have hg := shows_cons.mp (shows_cons.mp h)
      have hside := hg.side top_branch (.inl (by cases fd <;> simp [Frame.fill, branch]))
      simp only [Frame.fill] at hg hside hp huncle hpsib hpblack
      have hblack : s.blackAt ((s.node g).child gd.other) = isBlack uncle := by
        rw [hg.node_eq, sided_child_other, (shows_far.mp hg).blackAt]
      simp only [above, List.head?_cons, Option.map_some, hp, sided_black, Bool.false_eq_true, if_false, sided_parent,
        Option.bind_eq_bind, Option.bind_some, hside, hblack]
      cases hu : isBlack uncle with
      | true =>
        obtain ⟨s₁, p', a', t', mid, hs₁, h₁, htop', hred', hb', hmid, hmblack⟩ :=
          hg.straighten htop hred hb hpsib hpblack
        obtain ⟨s₂, hs₂, h₂⟩ := h₁.raise
        obtain ⟨s', u, m, hs', h'⟩ := ih (shows_near.mp h₂) htop' hred' hb'
          ⟨balanced_red.mpr ⟨⟨hmid, hmblack⟩, huncle, hu⟩, hf⟩ (by simp at hturns ⊢; omega)
        refine ⟨s', u, m, ?_, h'⟩
        rw [if_pos rfl, hs₁, Option.bind_some, hs₂]
        exact hs'
      | false =>
        obtain _ | ⟨⟨u, e⟩, ul, ur⟩ := uncle
        · cases hu
        obtain rfl : e = false := hu
        have hu' : branch .left (u, false) ul ur = node (u, false) ul ur := rfl
        obtain ⟨⟨hul, -⟩, hur, -⟩ := balanced_red.mp (hu' ▸ huncle)
        have hpaint := shows_far.mpr ((hu' ▸ shows_far.mp hg).setBlack true)
        have hpaint := (shows_near.mpr ((shows_near.mp hpaint).setBlack true)).setBlack false
        obtain ⟨s', w, m, hs', h'⟩ := ih hpaint top_branch isBlack_branch
          (balanced_red.mpr ⟨⟨balanced_black.mpr ⟨n, rfl, hb, hpsib⟩, isBlack_branch⟩,
            balanced_black.mpr ⟨n, rfl, hul, hur⟩, isBlack_branch⟩) hf (by simp at hturns ⊢; omega)
        refine ⟨s', w, m, ?_, h'⟩
        rw [if_neg Bool.false_ne_true, hg.node_eq, sided_child_other]
        exact hs'

/-- **`__rb_insert_color`**, for a red node that fits but for its colour. -/
theorem insertColor_spec (h : Shows ks s fs t) (htop : top t = some a) (hred : isBlack t = false) (hb : Balanced t n)
    (hf : Fits fs n) (hturns : fs.length < turns) : ∃ s', s.insertColor turns a = some s' ∧ Holds s' ks := by
  obtain ⟨s', u, m, hs', h', hm⟩ := insertLoop_spec h htop hred hb hf hturns
  obtain _ | ⟨⟨x, c⟩, l, r⟩ := u
  · have hmem : a ∈ ks := by
      rw [← h.order]
      exact keys_plug_perm.mem_iff.mpr (List.mem_append_right _ (mem_of_top htop))
    rw [← h'.order] at hmem
    cases hmem
  · have hu : branch .left (x, c) l r = node (x, c) l r := rfl
    obtain ⟨m', hm'⟩ := (hu ▸ hm).blacken
    refine ⟨s'.setBlack x true, ?_, _, m', (hu ▸ h').setBlack true, hm', isBlack_branch⟩
    have hroot : s'.root = some x := h'.held
    rw [Store.insertColor, hs', Option.bind_eq_bind, Option.bind_some, hroot]
    rfl

/-- The hole, as `__rb_link_node` is given it. -/
def place (fs : List (Frame (α × Bool))) : Option (α × Side) := fs.head?.map fun f => (f.value.1, f.side)

theorem Shows.link (h : Shows ks s fs nil) (ha : a ∉ ks) :
    Shows ((beside .left fs).map Prod.fst ++ a :: (beside .right fs).map Prod.fst) (s.link a (place fs)) fs
      (node (a, false) nil nil) := by
  obtain ⟨-, hheld, rfl, hnd⟩ := h
  have hperm : (keys (plug fs nil)).Perm (rim fs) := by
    refine keys_plug_perm.trans (List.Perm.of_eq ?_)
    simp [keys, inorder]
  have hrim : ∀ x ∈ rim fs, x ≠ a := fun x hx hxa => ha (hperm.mem_iff.mpr (hxa ▸ hx))
  have horder : keys (plug fs (node (a, false) nil nil)) =
      (beside .left fs).map Prod.fst ++ a :: (beside .right fs).map Prod.fst := by
    simp [keys, inorder_plug, inorder]
  have hnodup : (keys (plug fs (node (a, false) nil nil))).Nodup :=
    nodup_plug.mpr ⟨hperm.nodup hnd, by simp [keys, inorder], fun x hx hxa => hrim x hx (by simpa [keys, inorder] using hxa)⟩
  cases fs with
  | nil => exact ⟨⟨by simp [Store.link, place, above, top], trivial, trivial⟩, rfl, horder, horder ▸ hnodup⟩
  | cons f fs =>
    obtain ⟨hf, hsib, hfs⟩ := hheld
    have hfa : f.value.1 ≠ a := hrim _ (mem_rim_cons.mpr (.inl rfl))
    obtain ⟨-, hfill, hdisj⟩ := nodup_plug.mp (show (keys (plug fs (f.fill nil))).Nodup from hnd)
    obtain ⟨⟨-, hfsib⟩, -⟩ := nodup_branch.mp hfill
    have hrest : ∀ x, x ≠ a → x ≠ f.value.1 → (s.link a (place (f :: fs))).node x = s.node x := by
      intro x hxa hxf
      simp [Store.link, place, hxa, hxf]
    refine ⟨⟨?_, trivial, trivial⟩, ⟨?_, hsib.congr fun x hx => ?_, hfs.congr rfl fun x hx => ?_⟩, horder, horder ▸ hnodup⟩
    · simp [Store.link, place, above, top, Ne.symm hfa]
    · simp [Store.link, place, hfa, hf, top]
    · exact hrest x (hrim x (mem_rim_cons.mpr (.inr (.inl hx)))) (ne_of_mem_of_not_mem hx hfsib)
    · refine hrest x (hrim x (mem_rim_cons.mpr (.inr (.inr hx)))) ?_
      rintro rfl
      exact hdisj hx (mem_keys_branch.mpr (.inl rfl))

/-- Is there no node at the place yet? -/
def Store.Vacant (s : Store α) : Option (α × Side) → Prop
  | none => s.root = none
  | some (p, d) => (s.node p).child d = none

omit [DecidableEq α] in
/-- A vacant place is a hole in the tree. -/
theorem Holds.hole (h : Holds s ks) {spot : Option (α × Side)} (hspot : s.Vacant spot) (hmem : ∀ q ∈ spot, q.1 ∈ ks) :
    ∃ fs n, Shows ks s fs nil ∧ place fs = spot ∧ Balanced (plug fs nil) n ∧ isBlack (plug fs nil) := by
  obtain _ | ⟨p, d⟩ := spot
  · obtain ⟨t, n, hs, hb, hroot⟩ := h
    obtain rfl : t = nil := by
      cases t with
      | nil => rfl
      | node x l r => cases hs.held.symm.trans hspot
    exact ⟨[], n, hs, rfl, hb, hroot⟩
  · obtain ⟨fs, c, l, r, n, hs, hb, hroot⟩ := h.at (hmem _ rfl)
    obtain ⟨near, far, heq⟩ := exists_branch d (p, c) l r
    rw [heq] at hs hb hroot
    have htop : top near = none := by rw [← hspot, hs.node_eq, sided_child]
    obtain rfl : near = nil := by
      cases near with
      | nil => rfl
      | node x l r => cases htop
    exact ⟨⟨d, (p, c), far⟩ :: fs, n, shows_near.mp hs, rfl, hb, hroot⟩

omit [DecidableEq α] in
theorem beside_place {q : α × Side} (hq : q ∈ place fs) :
    (q.2 = .left → ((beside .right fs).map Prod.fst).head? = some q.1) ∧
      (q.2 = .right → ((beside .left fs).map Prod.fst).getLast? = some q.1) := by
  cases fs with
  | nil => cases hq
  | cons f fs =>
    cases hq
    constructor <;> intro hside <;> simp [beside, show f.side = _ from hside]

/-- **Insertion**: a node that is linked in at a vacant place and coloured is next to its parent in the order,
and the tree is a red-black tree again. -/
theorem insert_holds (h : Holds s ks) {spot : Option (α × Side)} (hspot : s.Vacant spot) (hmem : ∀ q ∈ spot, q.1 ∈ ks)
    (ha : a ∉ ks) (hturns : 2 * (ks.length + 1).log2 < turns) :
    ∃ s' xs ys, (s.link a spot).insertColor turns a = some s' ∧ Holds s' (xs ++ a :: ys) ∧ ks = xs ++ ys ∧
      ∀ q ∈ spot, (q.2 = .left → ys.head? = some q.1) ∧ (q.2 = .right → xs.getLast? = some q.1) := by
  obtain ⟨fs, n, hs, rfl, hb, hroot⟩ := h.hole hspot hmem
  have hlen := hs.length_le hb hroot
  obtain ⟨m, hm, hf, -⟩ := hb.unplug hroot
  cases hm
  obtain ⟨s', hs', h'⟩ := insertColor_spec (hs.link ha) rfl rfl
    (balanced_red (d := .left).mpr ⟨⟨rfl, rfl⟩, rfl, rfl⟩) hf (((Nat.le_add_right _ _).trans hlen).trans_lt hturns)
  refine ⟨s', _, _, hs', h', ?_, fun q hq => beside_place hq⟩
  rw [← hs.order]
  simp [keys, inorder_plug, inorder]

theorem insert_holds_left :
    ∃ s', ((single 2).link 1 (some (2, .left))).insertColor 3 1 = some s' ∧ Holds s' [1, 2] := by
  have hspot : (single 2).Vacant (some (2, .left)) := rfl
  have hturns : 2 * ([2].length + 1).log2 < 3 := by decide
  obtain ⟨s', xs, ys, hs', h', hks, hq⟩ := insert_holds (a := 1) (holds_single 2) hspot (by simp) (by decide) hturns
  have hhead := (hq _ rfl).1 rfl
  cases xs with
  | nil =>
    obtain rfl : [2] = ys := hks
    exact ⟨s', hs', h'⟩
  | cons x xs =>
    obtain ⟨-, rfl⟩ := List.append_eq_nil_iff.mp (List.cons.inj hks).2.symm
    cases hhead

end Sneks.Rbtree
