import Sneks.Rbtree.Shape

/-!
# Removal from a red-black tree
-/

namespace Sneks.Rbtree
open BinaryTree Lib

variable {α : Type*} [DecidableEq α] {d : Side} {ks : List α} {a b p x : α} {c e : Bool} {s s' : Store α}
  {l r t u near far : BinaryTree (α × Bool)} {f : Frame (α × Bool)} {fs : List (Frame (α × Bool))} {n m turns : ℕ}

-- `__rb_erase_color`

omit [DecidableEq α] in
theorem exists_branch_of_pos (d : Side) (hb : Balanced t (n + 1)) : ∃ o e near far, t = branch d (o, e) near far := by
  obtain _ | ⟨⟨o, e⟩, l, r⟩ := t
  · cases hb
  · obtain ⟨near, far, h⟩ := exists_branch d (o, e) l r
    exact ⟨o, e, near, far, h⟩

/-- With a red sibling, its child on the near side becomes the sibling. -/
theorem Shows.raiseRed (h : Shows ks s (⟨d, (p, c), u⟩ :: fs) t) (hu : top u = some a) (hf : Fits (⟨d, (p, c), u⟩ :: fs) (n + 1)) :
    ∃ s' gs c' o l r, s.raiseRed d p a = some (s', o) ∧ Shows ks s' (⟨d, (p, c'), branch d (o, true) l r⟩ :: gs) t ∧
      Fits (⟨d, (p, c'), branch d (o, true) l r⟩ :: gs) (n + 1) ∧ (c' = true → gs.length = fs.length) := by
  obtain ⟨hb, hfs⟩ := hf
  obtain ⟨o, e, l, r, rfl⟩ := exists_branch_of_pos d hb
  obtain rfl : o = a := Option.some.inj (top_branch.symm.trans hu)
  have ho := (shows_far.mp (shows_near.mpr h)).node_eq
  cases e with
  | true => exact ⟨s, fs, c, o, l, r, by rw [Store.raiseRed, ho, sided_black, if_pos rfl], h, ⟨hb, hfs⟩, fun _ => rfl⟩
  | false =>
    obtain ⟨⟨hl, hlblack⟩, hr, -⟩ := balanced_red.mp hb
    cases c with
    | false => exact absurd (isBlack_branch.symm.trans hfs.1) Bool.false_ne_true
    | true =>
      have hraise : Shows ks s fs (branch d.other (p, true) (branch d.other (o, false) r l) t) := by
        rw [branch_other, branch_other]
        exact shows_near.mpr h
      obtain ⟨s', hs', h'⟩ := hraise.raise
      rw [Side.other_other] at hs'
      rw [branch_other, branch_other] at h'
      obtain ⟨o', e, l', r', rfl⟩ := exists_branch_of_pos d hl
      obtain rfl : e = true := isBlack_branch.symm.trans hlblack
      have hp := (shows_near.mp h').node_eq
      refine ⟨s', ⟨d, (o, true), r⟩ :: fs, false, o', l', r', ?_, shows_near.mp (shows_near.mp h'),
        ⟨hl, isBlack_branch, List.cons_ne_nil _ _, ?_, hr, hfs⟩, by rintro ⟨⟩⟩
      · rw [Store.raiseRed, ho, sided_black, if_neg Bool.false_ne_true, hs', Option.bind_eq_bind, Option.bind_some, hp,
          sided_child_other, top_branch]
        rfl
      · rintro _ ⟨⟩
        rfl

/-- With a red child, the sibling gets one on the far side. -/
theorem Shows.turnOut (h : Shows ks s (⟨d, (p, c), branch d (a, true) l r⟩ :: fs) t) (hl : Balanced l n) (hr : Balanced r n)
    (hred : (isBlack l && isBlack r) = false) :
    ∃ s' o l' r', s.turnOut d p a = some (s', o) ∧ Shows ks s' (⟨d, (p, c), branch d (o, true) l' r'⟩ :: fs) t ∧
      Balanced l' n ∧ Balanced r' n ∧ isBlack r' = false := by
  have ho := shows_far.mp (shows_near.mpr h)
  have hr' := (shows_far.mp ho).blackAt
  rw [Store.turnOut, ho.node_eq, sided_child_other, sided_child, hr']
  cases hrb : isBlack r with
  | false => exact ⟨s, a, l, r, by rw [if_neg Bool.false_ne_true], h, hl, hr, hrb⟩
  | true =>
    obtain _ | ⟨⟨x, e⟩, l₁, l₂⟩ := l
    · rw [hrb] at hred
      cases hred
    obtain rfl : e = false := by simpa [hrb, show isBlack (node (x, e) l₁ l₂) = e from rfl] using hred
    obtain ⟨near, far, hlr⟩ := exists_branch d (x, false) l₁ l₂
    rw [hlr] at ho hl ⊢
    obtain ⟨⟨hnear, -⟩, hfar, hfblack⟩ := balanced_red.mp hl
    obtain ⟨s', hs', h'⟩ := ho.raise
    have hp := (shows_far.mpr h').node_eq
    refine ⟨s', x, near, branch d (a, false) far r, ?_, shows_near.mp (shows_far.mpr h'), hnear,
      balanced_red.mpr ⟨⟨hfar, hfblack⟩, hr, hrb⟩, isBlack_branch⟩
    rw [if_pos rfl, top_branch, Store.blacken, hs', Option.bind_eq_bind, Option.bind_some, hp, sided_child_other, top_branch]
    rfl

/-- The sibling takes the place of the parent, with a black node on either side. -/
theorem Shows.settle (h : Shows ks s (⟨d, (p, c), branch d (a, true) l r⟩ :: fs) t) (ht : Balanced t n)
    (hl : Balanced l n) (hr : Balanced r n) (hred : isBlack r = false) (hf : Fits (⟨d, (p, c), u⟩ :: fs) (n + 1)) :
    ∃ s', (((s.setBlack a (s.node p).black).setBlack p true).blacken (top r)).rotate d p = some s' ∧ Holds s' ks := by
  obtain _ | ⟨⟨y, e⟩, r₁, r₂⟩ := r
  · cases hred
  obtain rfl : e = false := hred
  obtain ⟨⟨hr₁, -⟩, hr₂, -⟩ := (balanced_red (d := .left)).mp hr
  have hy : Balanced (branch .left (y, true) r₁ r₂) (n + 1) := balanced_black.mpr ⟨n, rfl, hr₁, hr₂⟩
  have hp : (s.node p).black = c := by rw [(shows_near.mpr h).node_eq, sided_black]
  have hpaint := (shows_far.mpr ((shows_far.mp (shows_near.mpr h)).setBlack c)).setBlack true
  have hpaint := shows_far.mpr (shows_far.mpr (Shows.setBlack (d := .left) (shows_far.mp (shows_far.mp hpaint)) true))
  obtain ⟨s', hs', h'⟩ := hpaint.rotate
  have hpl : Balanced (branch d (p, true) t l) (n + 1) := balanced_black.mpr ⟨n, rfl, ht, hl⟩
  refine ⟨s', by rw [hp]; exact hs', ?_⟩
  obtain ⟨-, hf⟩ := hf
  cases c with
  | true => exact h'.holds (balanced_black.mpr ⟨n + 1, rfl, hpl, hy⟩) hf (.inl isBlack_branch) fun _ => isBlack_branch
  | false =>
    obtain ⟨-, hne, hopen, hf⟩ := hf
    exact h'.holds (balanced_red.mpr ⟨⟨hpl, isBlack_branch⟩, hy, isBlack_branch⟩) hf (.inr hopen) fun hnil => absurd hnil hne

omit [DecidableEq α] in
theorem top_plug (fs : List (Frame (α × Bool))) (t : BinaryTree (α × Bool)) :
    (fs = [] ∧ top (plug fs t) = top t) ∨ ∃ x ∈ rim fs, top (plug fs t) = some x := by
  induction fs generalizing t with
  | nil => exact .inl ⟨rfl, rfl⟩
  | cons f fs ih =>
    obtain ⟨rfl, htop⟩ | ⟨x, hx, htop⟩ := ih (f.fill t)
    · exact .inr ⟨f.value.1, mem_rim_cons.mpr (.inl rfl), htop.trans top_branch⟩
    · exact .inr ⟨x, mem_rim_cons.mpr (.inr (.inr hx)), htop⟩

omit [DecidableEq α] in
theorem Shows.root_ne (h : Shows ks s (f :: fs) t) : s.root ≠ top t := by
  obtain ⟨hnil, -⟩ | ⟨x, hx, htop⟩ := top_plug (f :: fs) t
  · cases hnil
  · rw [show s.root = top (plug (f :: fs) t) from (shows_whole.mp h).held, htop]
    obtain ⟨-, -, rfl, hnd⟩ := h
    exact fun hroot => (nodup_plug.mp hnd).2.2 hx (mem_of_top hroot.symm)

theorem Holds.blacken (h : Holds s ks) : Holds (s.blacken s.root) ks := by
  obtain ⟨t, n, hs, hb, hroot⟩ := h
  rw [show s.root = top t from hs.held]
  obtain _ | ⟨⟨x, c⟩, l, r⟩ := t
  · exact ⟨nil, n, hs, hb, rfl⟩
  · obtain rfl : c = true := hroot
    exact ⟨_, n, Shows.setBlack (d := .left) hs true, hb, rfl⟩

theorem eraseLoop_spec (h : Shows ks s fs t) (hf : Fits fs (n + 1)) (hpos : 0 < turns)
    (ht : (isBlack t ∧ Balanced t n ∧ fs.length < turns) ∨ ∃ d a l r, t = branch d (a, false) l r ∧ Balanced l n ∧ Balanced r n) :
    ∃ s' node, Store.eraseLoop turns s (top t) (above fs) = some (s', node) ∧ Holds (s'.blacken node) ks := by
  induction turns generalizing s fs t n with
  | zero => exact absurd hpos (Nat.lt_irrefl 0)
  | succ turns ih =>
    rw [Store.eraseLoop, h.blackAt]
    obtain ⟨hblack, hb, hturns⟩ | ⟨d, a, l, r, rfl, hl, hr⟩ := ht
    · obtain _ | ⟨⟨d, ⟨p, c⟩, u⟩, fs⟩ := fs
      · refine ⟨s, top t, if_neg fun hc => hc.2 h.held.symm, ?_⟩
        rw [← show s.root = top t from h.held]
        exact Holds.blacken ⟨t, n, h, hb, hblack⟩
      · have hp := shows_near.mpr h
        obtain ⟨o₀, hu⟩ : ∃ o₀, top u = some o₀ := by
          obtain ⟨o, e, l, r, rfl⟩ := exists_branch_of_pos d hf.1
          exact ⟨o, top_branch⟩
        have hside := hp.side rfl (.inr (by rintro rfl; cases hu))
        have hother : (s.node p).child d.other = some o₀ := by rw [hp.node_eq, sided_child_other, hu]
        obtain ⟨s₁, gs, c', o, l, r, hs₁, h₁, hf₁, hlen⟩ := h.raiseRed hu hf
        have hp₁ := shows_near.mpr h₁
        have ho₁ := shows_far.mp hp₁
        rw [if_pos ⟨hblack, h.root_ne.symm⟩]
        simp only [above, List.head?_cons, Option.map_some, Option.bind_eq_bind, Option.bind_some, hside, hother, hs₁,
          ho₁.blackAt_children]
        obtain ⟨k, hk, hl, hr⟩ := balanced_black.mp hf₁.1
        obtain rfl : n = k := Nat.succ.inj hk
        have hmore : fs.length < turns := Nat.lt_of_succ_lt_succ hturns
        cases hlr : isBlack l && isBlack r with
        | true =>
          obtain ⟨hlb, hrb⟩ := Bool.and_eq_true_iff.mp hlr
          have h₂ := shows_far.mpr (ho₁.setBlack false)
          have hred : Balanced (branch d (o, false) l r) n := balanced_red.mpr ⟨⟨hl, hlb⟩, hr, hrb⟩
          have hrec : ∃ s' node, Store.eraseLoop turns (s₁.setBlack o false) (some p) (above gs) = some (s', node) ∧
              Holds (s'.blacken node) ks := by
            have htop : top (branch d (p, c') t (branch d (o, false) l r)) = some p := top_branch
            rw [← htop]
            cases c' with
            | true =>
              exact ih h₂ hf₁.2 (Nat.zero_lt_of_lt hmore)
                (.inl ⟨isBlack_branch, balanced_black.mpr ⟨n, rfl, hb, hred⟩, (hlen rfl).trans_lt hmore⟩)
            | false => exact ih h₂ hf₁.2.2.2.2 (Nat.zero_lt_of_lt hmore) (.inr ⟨d, p, _, _, rfl, hb, hred⟩)
          rw [if_pos rfl, hp₁.node_eq, sided_parent]
          exact hrec
        | false =>
          obtain ⟨s₂, o', l', r', hs₂, h₂, hl', hr', hred⟩ := h₁.turnOut hl hr hlr
          have ho₂ := (shows_far.mp (shows_near.mpr h₂)).node_eq
          obtain ⟨s₃, hs₃, h₃⟩ := h₂.settle hb hl' hr' hred hf₁
          refine ⟨s₃, s₃.root, ?_, h₃.blacken⟩
          simp only [Bool.false_eq_true, if_false, hs₂, Option.bind_some, Store.setBlack_child, ho₂, sided_child_other, hs₃]
          rfl
    · refine ⟨s, top (branch d (a, false) l r), if_neg (by simp), ?_⟩
      rw [top_branch]
      exact (h.setBlack true).holds (balanced_black.mpr ⟨n, rfl, hl, hr⟩) hf (.inl isBlack_branch) fun _ => isBlack_branch

-- `__rb_erase`

omit [DecidableEq α] in
theorem keys_plug : keys (plug fs t) = (beside .left fs).map Prod.fst ++ keys t ++ (beside .right fs).map Prod.fst := by
  simp [keys, inorder_plug]

theorem erase_middle {xs ys : List α} (h : (xs ++ a :: ys).Nodup) : (xs ++ a :: ys).erase a = xs ++ ys := by
  rw [List.erase_append_right _ fun ha => (List.disjoint_of_nodup_append h) ha List.mem_cons_self, List.erase_cons_head]

/-- A node with one subtree at most goes out of the tree. -/
theorem Shows.unlink (h : Shows ks s fs (branch d (a, c) nil t)) :
    Shows (ks.erase a) ((s.adopt (top t) (above fs)).relink .left (above fs) a (top t)) fs t := by
  obtain ⟨hlays, hheld, rfl, hnd⟩ := h
  obtain ⟨-, -, ht⟩ := lays_branch.mp hlays
  rw [top_branch] at hheld
  obtain ⟨-, hkeys, hrim⟩ := nodup_plug.mp hnd
  obtain ⟨-, -, hndt, -⟩ := nodup_branch.mp hkeys
  have hin : ∀ x ∈ keys t, x ∉ rim fs := fun x hx hr => hrim hr (mem_keys_branch.mpr (.inr (.inr hx)))
  refine ⟨ht.adopt hndt fun x hx => ?_, ?_, ?_, hnd.erase a⟩
  · rw [Store.relink_node (fun habove => hin x hx (mem_of_above habove)), Store.adopt_node]
  · refine Held.relink (hheld.congr Store.adopt_root fun x hx => ?_) hnd (mem_keys_branch.mpr (.inl rfl))
    rw [Store.adopt_node, if_neg fun htop => hin x (mem_of_top htop) hx]
  · rw [keys_plug] at hnd ⊢
    rw [keys_plug]
    cases d
    · have hmid : keys (branch .left (a, c) nil t) = a :: keys t := rfl
      rw [hmid] at hnd ⊢
      simp only [List.append_assoc, List.cons_append] at hnd ⊢
      exact (erase_middle hnd).symm
    · have hmid : keys (branch .right (a, c) nil t) = keys t ++ [a] := by simp [keys, branch, inorder]
      rw [hmid] at hnd ⊢
      simp only [List.append_assoc, List.singleton_append] at hnd ⊢
      rw [← List.append_assoc] at hnd
      rw [← List.append_assoc, ← List.append_assoc, erase_middle hnd]

/-- Another node takes the place of one. -/
theorem Shows.replace (h : Shows ks s fs (node (a, c) l r)) (hb : b ∉ ks) {ks' : List α}
    (horder : keys (plug fs (node (b, c) l r)) = ks') (hnd' : ks'.Nodup) :
    Shows ks' (s.replace a b) fs (node (b, c) l r) := by
  obtain ⟨⟨ha, hl, hr⟩, hheld, rfl, hnd⟩ := h
  obtain ⟨-, hkeys, hrim⟩ := nodup_plug.mp hnd
  obtain ⟨⟨hal, har⟩, hndl, hndr, hlr⟩ := (nodup_branch (d := .left)).mp hkeys
  have hmem : ∀ x, x ∈ keys (node (a, c) l r) ↔ x = a ∨ x ∈ keys l ∨ x ∈ keys r := fun x => mem_keys_branch (d := .left)
  simp only [List.Disjoint, hmem] at hrim
  obtain ⟨hbrim, hba, hbl, hbr⟩ : b ∉ rim fs ∧ b ≠ a ∧ b ∉ keys l ∧ b ∉ keys r := by
    simpa only [keys_plug_perm.mem_iff, List.mem_append, hmem, not_or] using hb
  have hoff : ∀ {x}, x ∉ rim fs → above fs ≠ some x := fun hx habove => hx (mem_of_above habove)
  have hl' : ∀ {x}, x ∉ keys l → top l ≠ some x := fun hx htop => hx (mem_of_top htop)
  have hr' : ∀ {x}, x ∉ keys r → top r ≠ some x := fun hx htop => hx (mem_of_top htop)
  have heq : s.replace a b = (((s.set b (s.node a)).relink .left (above fs) a (some b)).adopt (top l) (some b)).adopt
      (top r) (some b) := by
    have hparent : (s.node a).parent = above fs := by rw [ha]
    have hstay : ((s.set b (s.node a)).relink .left (above fs) a (some b)).node a = ⟨above fs, c, top r, top l⟩ := by
      rw [Store.relink_node (hoff fun har => hrim har (.inl rfl)), Store.set_node, if_neg (Ne.symm hba), ha]
    rw [Store.replace, hparent, hstay]
  rw [heq]
  refine ⟨⟨?_, hl.adopt hndl fun x hx => ?_, hr.adopt hndr fun x hx => ?_⟩, ?_, horder, hnd'⟩
  · simp [Store.relink_node (hoff hbrim), hl' hbl, hr' hbr, ha]
  · have hxr : x ∉ keys r := fun hxr => hlr hx hxr
    simp [Store.relink_node (hoff fun hxrim => hrim hxrim (.inr (.inl hx))), hr' hxr, ne_of_mem_of_not_mem hx hbl]
  · have hxl : x ∉ keys l := fun hxl => hlr hxl hx
    simp [Store.relink_node (hoff fun hxrim => hrim hxrim (.inr (.inr hx))), hl' hxl, ne_of_mem_of_not_mem hx hbr]
  · have hset : Held (s.set b (s.node a)) (some a) fs :=
      hheld.congr rfl fun x hx => by rw [Store.set_node, if_neg (ne_of_mem_of_not_mem hx hbrim)]
    have hlink : Held ((s.set b (s.node a)).relink .left (above fs) a (some b)) (some b) fs :=
      hset.relink hnd ((hmem a).mpr (.inl rfl))
    refine hlink.congr (Store.adopt_root.trans Store.adopt_root) fun x hx => ?_
    simp [hl' fun hxl => hrim hx (.inr (.inl hxl)), hr' fun hxr => hrim hx (.inr (.inr hxr))]

/-- What is left of a removal when the node is out of the tree. -/
theorem Shows.finish (h : Shows ks s fs t) (hb : Balanced (plug fs (branch d (b, e) nil t)) m)
    (hroot : isBlack (plug fs (branch d (b, e) nil t))) (hturns : fs.length < turns) :
    ∃ s', (if e then s.eraseColor turns (top t) (above fs) else some s) = some s' ∧ Holds s' ks := by
  obtain ⟨k, hk, hf, -⟩ := hb.unplug hroot
  cases e with
  | true =>
    obtain ⟨j, rfl, -, ht⟩ := balanced_black.mp hk
    obtain ⟨s', node, hs', h'⟩ := eraseLoop_spec h hf (Nat.zero_lt_of_lt hturns) (by
      cases hblack : isBlack t with
      | true => exact .inl ⟨rfl, ht, hturns⟩
      | false =>
        obtain _ | ⟨⟨x, e⟩, l, r⟩ := t
        · cases hblack
        obtain rfl : e = false := hblack
        obtain ⟨⟨hl, -⟩, hr, -⟩ := (balanced_red (d := .left)).mp ht
        exact .inr ⟨.left, x, l, r, rfl, hl, hr⟩)
    exact ⟨_, by rw [if_pos rfl, Store.eraseColor, hs']; rfl, h'⟩
  | false =>
    obtain ⟨-, ht, hblack⟩ := balanced_red.mp hk
    exact ⟨s, if_neg Bool.false_ne_true, h.holds ht hf (.inl hblack) fun _ => hblack⟩

omit [DecidableEq α] in
/-- Whether the parent of the lowest node on the left of the right subtree is the node whose subtree it is. -/
theorem Shows.parent_low {path : List (Frame (α × Bool))} (hpath : ∀ f ∈ path, f.side = .left)
    (h : Shows ks s (path ++ ⟨.right, (a, c), l⟩ :: fs) t) (htop : top t = some b) :
    ∃ q, above (path ++ ⟨.right, (a, c), l⟩ :: fs) = some q ∧ ((s.node q).child .left = some b ↔ q ≠ a) ∧
      (path = [] ↔ q = a) := by
  cases path with
  | nil =>
    refine ⟨a, rfl, iff_of_false (fun hleft => ?_) (by simp), by simp⟩
    have hp := shows_near.mpr h
    rw [hp.node_eq] at hleft
    exact hp.top_ne (.inl (by rintro rfl; cases htop)) (hleft.trans htop.symm)
  | cons f path =>
    have hne : f.value.1 ≠ a := by
      obtain ⟨-, -, rfl, hnd⟩ := shows_cons.mp h
      intro hfa
      have ha : a ∈ rim (path ++ ⟨.right, (a, c), l⟩ :: fs) :=
        mem_rim (f := ⟨.right, (a, c), l⟩) (List.mem_append_right _ List.mem_cons_self)
      exact (nodup_plug.mp hnd).2.2 ha (mem_keys_branch.mpr (.inl hfa.symm))
    refine ⟨f.value.1, rfl, iff_of_true ?_ hne, by simp [hne]⟩
    rw [show s.node f.value.1 = _ from h.held.1, hpath f List.mem_cons_self]
    exact htop

/-- The lowest node on the left of the right subtree, `b`, comes in the place of `a`. -/
theorem Shows.promote {path : List (Frame (α × Bool))} {q : α} (hpath : ∀ f ∈ path, f.side = .left)
    (h : Shows ks s (path ++ ⟨.right, (a, c), l⟩ :: fs) (branch .left (b, e) nil t))
    (hq : above (path ++ ⟨.right, (a, c), l⟩ :: fs) = some q) (hleft : (s.node q).child .left = some b ↔ q ≠ a) :
    Shows (ks.erase a) (((s.adopt (top t) (some q)).setChild q (if q = a then .right else .left) (top t)).replace a b)
      (path ++ ⟨.right, (b, c), l⟩ :: fs) t := by
  have hout := h.unlink
  have hside : (if ((s.adopt (top t) (some q)).node q).child .left = some b then Side.left else Side.right) =
      if q = a then Side.right else Side.left := by
    rw [Store.adopt_child]
    by_cases hqa : q = a
    · rw [if_pos hqa, if_neg fun hl => hleft.mp hl hqa]
    · rw [if_neg hqa, if_pos (hleft.mpr hqa)]
  rw [hq, Store.relink, show Side.other .left = Side.right from rfl, hside] at hout
  refine shows_append.mpr (shows_cons.mpr (Shows.replace (shows_cons.mp (shows_append.mp hout)) h.nodup.not_mem_erase ?_
    (h.nodup.erase a)))
  obtain ⟨-, -, rfl, hnd⟩ := h
  have hlow : ∀ u, keys (plug path u) = keys u ++ (beside .right path).map Prod.fst := by
    intro u
    rw [keys_plug, beside_eq_nil hpath, List.map_nil, List.nil_append]
  have hkeys : ∀ (x : α) u, keys (plug fs (node (x, c) l u)) =
      ((beside .left fs).map Prod.fst ++ keys l) ++ x :: (keys u ++ (beside .right fs).map Prod.fst) := by
    intro x u
    rw [keys_plug]
    simp [keys, inorder]
  have hfill : plug (path ++ ⟨.right, (a, c), l⟩ :: fs) (branch .left (b, e) nil t) =
      plug fs (node (a, c) l (plug path (branch .left (b, e) nil t))) := by
    rw [plug_append]
    rfl
  rw [hfill, hkeys] at hnd
  rw [hfill, hkeys a, erase_middle hnd, hlow]
  refine (hkeys b (plug path t)).trans ?_
  rw [hlow]
  rfl

end Sneks.Rbtree
