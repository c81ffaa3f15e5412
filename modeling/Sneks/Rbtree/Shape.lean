import Sneks.Rbtree.Defs

/-!
# The tree that is in memory
-/

namespace Sneks.Rbtree
open BinaryTree Lib

variable {α : Type*} {d : Side}

/-- The nodes of a tree in their order. -/
def keys (t : BinaryTree (α × Bool)) : List α := (inorder t).map Prod.fst

def top : BinaryTree (α × Bool) → Option α
  | nil => none
  | node x _ _ => some x.1

/-- The parent of what is in the hole. -/
def above (fs : List (Frame (α × Bool))) : Option α := fs.head?.map fun f => f.value.1

/-- The nodes around the hole. -/
def rim (fs : List (Frame (α × Bool))) : List α := (beside .left fs ++ beside .right fs).map Prod.fst

def sided (d : Side) (parent : Option α) (black : Bool) (near far : Option α) : RbNode α :=
  match d with
  | .left => ⟨parent, black, far, near⟩
  | .right => ⟨parent, black, near, far⟩

/-- Memory has the tree, below this parent. -/
def Lays (m : α → RbNode α) : Option α → BinaryTree (α × Bool) → Prop
  | _, nil => True
  | p, node x l r => m x.1 = ⟨p, x.2, top r, top l⟩ ∧ Lays m (some x.1) l ∧ Lays m (some x.1) r

/-- Memory has what is around a hole, in which the node `hole` is. -/
def Held (s : Store α) : Option α → List (Frame (α × Bool)) → Prop
  | hole, [] => s.root = hole
  | hole, f :: fs =>
    s.node f.value.1 = sided f.side (above fs) f.value.2 hole (top f.sib) ∧ Lays s.node (some f.value.1) f.sib ∧
      Held s (some f.value.1) fs

/-- A tree of the nodes `ks`, in this order, is in memory. It is looked at where `t` is. -/
structure Shows (ks : List α) (s : Store α) (fs : List (Frame (α × Bool))) (t : BinaryTree (α × Bool)) : Prop where
  lays : Lays s.node (above fs) t
  held : Held s (top t) fs
  order : keys (plug fs t) = ks
  nodup : ks.Nodup

-- Nodes

section
variable {p q near far : Option α} {c e : Bool}

@[simp] theorem sided_parent : (sided d p c near far).parent = p := by cases d <;> rfl

@[simp] theorem sided_black : (sided d p c near far).black = c := by cases d <;> rfl

@[simp] theorem sided_child : (sided d p c near far).child d = near := by cases d <;> rfl

@[simp] theorem sided_child_other : (sided d p c near far).child d.other = far := by cases d <;> rfl

@[simp] theorem sided_setChild : (sided d p c near far).setChild d q = sided d p c q far := by cases d <;> rfl

@[simp] theorem sided_setChild_other : (sided d p c near far).setChild d.other q = sided d p c near q := by cases d <;> rfl

@[simp] theorem sided_setParent : (sided d p c near far).setParent q = sided d q c near far := by cases d <;> rfl

@[simp] theorem sided_setBlack : (sided d p c near far).setBlack e = sided d p e near far := by cases d <;> rfl

end

-- Trees and holes

variable {ks : List α} {a b x : α} {c e : Bool} {p q : Option α} {m m' : α → RbNode α} {s s' : Store α}
  {l r t u : BinaryTree (α × Bool)} {f : Frame (α × Bool)} {fs : List (Frame (α × Bool))}

@[simp] theorem top_branch : top (branch d (a, c) l r) = some a := by cases d <;> rfl

@[simp] theorem lays_branch : Lays m p (branch d (a, c) l r) ↔
    m a = sided d p c (top l) (top r) ∧ Lays m (some a) l ∧ Lays m (some a) r := by
  cases d
  · exact Iff.rfl
  · exact and_congr_right' and_comm

theorem keys_branch_perm : (keys (branch d (a, c) l r)).Perm (a :: (keys l ++ keys r)) := by
  cases d <;> simp only [keys, branch, inorder, List.map_append, List.map_cons]
  · exact List.perm_middle
  · exact List.perm_middle.trans (List.perm_append_comm.cons a)

theorem mem_keys_branch : x ∈ keys (branch d (a, c) l r) ↔ x = a ∨ x ∈ keys l ∨ x ∈ keys r := by
  simp [keys_branch_perm.mem_iff]

theorem nodup_branch : (keys (branch d (a, c) l r)).Nodup ↔
    (a ∉ keys l ∧ a ∉ keys r) ∧ (keys l).Nodup ∧ (keys r).Nodup ∧ (keys l).Disjoint (keys r) := by
  simp [keys_branch_perm.nodup_iff, List.nodup_append']

theorem mem_of_top (h : top t = some x) : x ∈ keys t := by
  cases t with
  | nil => cases h
  | node y l r =>
    cases h
    simp [keys, inorder]

theorem keys_plug_perm : (keys (plug fs t)).Perm (rim fs ++ keys t) := by
  rw [keys, inorder_plug, rim, keys, ← List.map_append]
  refine List.Perm.map _ ?_
  rw [List.append_assoc, List.append_assoc]
  exact List.perm_append_comm.append_left _

theorem mem_rim_cons : x ∈ rim (f :: fs) ↔ x = f.value.1 ∨ x ∈ keys f.sib ∨ x ∈ rim fs := by
  cases hs : f.side <;> simp [rim, beside, hs, keys] <;> tauto

theorem mem_rim (hf : f ∈ fs) : f.value.1 ∈ rim fs := by
  induction fs with
  | nil => cases hf
  | cons g fs ih =>
    obtain rfl | hf := List.mem_cons.mp hf
    · exact mem_rim_cons.mpr (.inl rfl)
    · exact mem_rim_cons.mpr (.inr (.inr (ih hf)))

theorem mem_of_above (h : above fs = some x) : x ∈ rim fs := by
  cases fs with
  | nil => cases h
  | cons f fs =>
    cases h
    exact mem_rim_cons.mpr (.inl rfl)

theorem Lays.congr (h : Lays m p t) (hm : ∀ x ∈ keys t, m' x = m x) : Lays m' p t := by
  induction t generalizing p with
  | nil => trivial
  | node y l r ihl ihr =>
    have hmem : ∀ x, x ∈ keys (node y l r) ↔ x = y.1 ∨ x ∈ keys l ∨ x ∈ keys r := fun x => mem_keys_branch (d := .left)
    obtain ⟨hy, hl, hr⟩ := h
    refine ⟨(hm _ ((hmem _).mpr (.inl rfl))).trans hy, ihl hl fun x hx => ?_, ihr hr fun x hx => ?_⟩
    · exact hm x ((hmem x).mpr (.inr (.inl hx)))
    · exact hm x ((hmem x).mpr (.inr (.inr hx)))

/-- A tree gets another parent. -/
theorem Lays.adopt [DecidableEq α] (h : Lays m p t) (hnd : (keys t).Nodup)
    (hm : ∀ x ∈ keys t, m' x = if top t = some x then (m x).setParent q else m x) : Lays m' q t := by
  cases t with
  | nil => trivial
  | node y l r =>
    have hmem : ∀ x, x ∈ keys (node y l r) ↔ x = y.1 ∨ x ∈ keys l ∨ x ∈ keys r := fun x => mem_keys_branch (d := .left)
    obtain ⟨⟨hyl, hyr⟩, -⟩ := (nodup_branch (d := .left)).mp hnd
    obtain ⟨hy, hl, hr⟩ := h
    refine ⟨?_, hl.congr fun x hx => ?_, hr.congr fun x hx => ?_⟩
    · rw [hm _ ((hmem _).mpr (.inl rfl)), hy]
      exact if_pos rfl
    · rw [hm _ ((hmem _).mpr (.inr (.inl hx))), if_neg]
      rintro ⟨⟩
      exact hyl hx
    · rw [hm _ ((hmem _).mpr (.inr (.inr hx))), if_neg]
      rintro ⟨⟩
      exact hyr hx

theorem Held.congr (h : Held s p fs) (hroot : s'.root = s.root) (hm : ∀ x ∈ rim fs, s'.node x = s.node x) :
    Held s' p fs := by
  induction fs generalizing p with
  | nil => exact hroot.trans h
  | cons f fs ih =>
    obtain ⟨hf, hsib, hfs⟩ := h
    refine ⟨(hm _ (mem_rim_cons.mpr (.inl rfl))).trans hf, hsib.congr fun x hx => ?_, ih hfs fun x hx => ?_⟩
    · exact hm x (mem_rim_cons.mpr (.inr (.inl hx)))
    · exact hm x (mem_rim_cons.mpr (.inr (.inr hx)))

theorem shows_cons : Shows ks s (f :: fs) t ↔ Shows ks s fs (f.fill t) := by
  constructor
  · rintro ⟨hl, ⟨hf, hsib, hfs⟩, hks, hnd⟩
    exact ⟨lays_branch.mpr ⟨hf, hl, hsib⟩, by rwa [Frame.fill, top_branch], hks, hnd⟩
  · rintro ⟨hl, hh, hks, hnd⟩
    obtain ⟨hf, hl, hsib⟩ := lays_branch.mp hl
    rw [Frame.fill, top_branch] at hh
    exact ⟨hl, ⟨hf, hsib, hh⟩, hks, hnd⟩

theorem shows_append {gs : List (Frame (α × Bool))} : Shows ks s (gs ++ fs) t ↔ Shows ks s fs (plug gs t) := by
  induction gs generalizing t with
  | nil => exact Iff.rfl
  | cons g gs ih => exact shows_cons.trans ih

theorem shows_whole : Shows ks s fs t ↔ Shows ks s [] (plug fs t) := by
  have happ : Shows ks s (fs ++ []) t ↔ Shows ks s [] (plug fs t) := shows_append
  rwa [List.append_nil] at happ

theorem nodup_plug : (keys (plug fs t)).Nodup ↔ (rim fs).Nodup ∧ (keys t).Nodup ∧ (rim fs).Disjoint (keys t) := by
  rw [keys_plug_perm.nodup_iff, List.nodup_append']

theorem shows_near {near far : BinaryTree (α × Bool)} :
    Shows ks s fs (branch d (a, c) near far) ↔ Shows ks s (⟨d, (a, c), far⟩ :: fs) near :=
  (shows_cons (f := ⟨d, (a, c), far⟩)).symm

theorem shows_far {near far : BinaryTree (α × Bool)} :
    Shows ks s fs (branch d (a, c) near far) ↔ Shows ks s (⟨d.other, (a, c), near⟩ :: fs) far := by
  rw [shows_cons, Frame.fill, branch_other]

theorem Shows.node_eq (h : Shows ks s fs (branch d (a, c) l r)) : s.node a = sided d (above fs) c (top l) (top r) :=
  (lays_branch.mp h.lays).1

theorem Shows.parent (h : Shows ks s fs t) (ha : top t = some a) : (s.node a).parent = above fs := by
  cases t with
  | nil => cases ha
  | node x l r =>
    cases ha
    rw [h.lays.1]

theorem Shows.blackAt (h : Shows ks s fs t) : s.blackAt (top t) = isBlack t := by
  cases t with
  | nil => rfl
  | node x l r => exact congrArg RbNode.black h.lays.1

theorem Shows.blackAt_children (h : Shows ks s fs (branch d (a, c) l r)) :
    (s.blackAt (s.node a).left && s.blackAt (s.node a).right) = (isBlack l && isBlack r) := by
  have hnear := (shows_near.mp h).blackAt
  have hfar := (shows_far.mp h).blackAt
  rw [h.node_eq]
  cases d
  · exact congrArg₂ _ hnear hfar
  · exact (congrArg₂ _ hfar hnear).trans (Bool.and_comm _ _)

/-- The two subtrees of a node are told apart by what is at their tops, if they are not both empty. -/
theorem Shows.top_ne (h : Shows ks s fs (branch d (a, c) l r)) (hne : l ≠ nil ∨ r ≠ nil) : top r ≠ top l := by
  obtain ⟨-, -, rfl, hnd⟩ := h
  obtain ⟨-, -, -, hdisj⟩ := nodup_branch.mp (nodup_plug.mp hnd).2.1
  intro htop
  cases hl : l with
  | nil => cases hr : r <;> simp_all [top]
  | node x l₁ l₂ =>
    have hx : top l = some x.1 := by rw [hl]; rfl
    exact hdisj (mem_of_top hx) (mem_of_top (htop.trans hx))

/-- The way down on one side. -/
theorem Shows.descend (h : Shows ks s fs t) (htop : top t = some a) {turns : ℕ} (hturns : t.height ≤ turns) :
    ∃ path b e far, s.descend d turns a = some b ∧ t = plug path (branch d (b, e) nil far) ∧ ∀ f ∈ path, f.side = d := by
  induction turns generalizing fs t a with
  | zero =>
    obtain _ | ⟨x, l, r⟩ := t
    · cases htop
    · cases hturns
  | succ turns ih =>
    obtain _ | ⟨⟨x, c⟩, l, r⟩ := t
    · cases htop
    obtain rfl : x = a := Option.some.inj htop
    obtain ⟨near, far, heq⟩ := exists_branch d (x, c) l r
    rw [heq] at h hturns ⊢
    rw [height_branch] at hturns
    rw [Store.descend, h.node_eq, sided_child]
    cases hnear : top near with
    | none =>
      obtain rfl : near = nil := by
        cases near with
        | nil => rfl
        | node y l r => cases hnear
      exact ⟨[], x, c, far, rfl, rfl, by simp⟩
    | some y =>
      obtain ⟨path, b, e, far', hb, rfl, hpath⟩ := ih (shows_near.mp h) hnear (by omega)
      refine ⟨path ++ [⟨d, (x, c), far⟩], b, e, far', hb, by rw [plug_append]; rfl, fun f hf => ?_⟩
      obtain hf | hf := List.mem_append.mp hf
      · exact hpath f hf
      · rw [List.mem_singleton.mp hf]

-- Red-black trees

/-- A red-black tree of these nodes, in this order. -/
def Holds (s : Store α) (ks : List α) : Prop := ∃ t n, Shows ks s [] t ∧ Balanced t n ∧ isBlack t

/-- No way down is longer than the tree is high. -/
theorem Shows.length_le (h : Shows ks s fs t) {n : ℕ} (hb : Balanced (plug fs t) n) (hroot : isBlack (plug fs t)) :
    fs.length + t.height ≤ 2 * (ks.length + 1).log2 := by
  have hlen : (inorder (plug fs t)).length = ks.length := by rw [← h.order, keys, List.length_map]
  exact hlen ▸ (height_plug fs t).trans (hb.height_le hroot)

/-- A look at any node of it. -/
theorem Holds.at (h : Holds s ks) (ha : a ∈ ks) : ∃ fs c l r n, Shows ks s fs (node (a, c) l r) ∧
    Balanced (plug fs (node (a, c) l r)) n ∧ isBlack (plug fs (node (a, c) l r)) := by
  obtain ⟨t, n, hs, hb, hroot⟩ := h
  have hmem : a ∈ keys t := hs.order ▸ ha
  obtain ⟨⟨_, c⟩, hx, rfl⟩ := List.mem_map.mp hmem
  obtain ⟨fs, l, r, rfl⟩ := exists_plug hx
  exact ⟨fs, c, l, r, n, shows_whole.mpr hs, hb, hroot⟩

theorem Shows.holds {n : ℕ} (h : Shows ks s fs t) (hb : Balanced t n) (hf : Fits fs n) (hc : isBlack t ∨ Open fs)
    (hroot : fs = [] → isBlack t) : Holds s ks := by
  obtain ⟨m, hm, hblack⟩ := hf.plug hb hc
  refine ⟨_, m, shows_whole.mp h, hm, ?_⟩
  cases fs with
  | nil => exact hroot rfl
  | cons f fs => exact hblack (List.cons_ne_nil f fs)

/-- A tree of one node. -/
def single (a : α) : Store α := ⟨fun _ => ⟨none, true, none, none⟩, some a⟩

theorem holds_single (a : α) : Holds (single a) [a] :=
  ⟨node (a, true) nil nil, 1, ⟨⟨rfl, trivial, trivial⟩, rfl, rfl, List.nodup_singleton a⟩, ⟨0, rfl, rfl, rfl⟩, rfl⟩

-- Stores

variable [DecidableEq α]

namespace Store

@[simp] theorem set_node (n : RbNode α) : (s.set a n).node x = if x = a then n else s.node x := Function.update_apply ..

@[simp] theorem setChild_node : (s.setChild a d p).node x = if x = a then (s.node a).setChild d p else s.node x := set_node _

@[simp] theorem setParent_node : (s.setParent a p).node x = if x = a then (s.node a).setParent p else s.node x :=
  set_node _

@[simp] theorem setBlack_node : (s.setBlack a c).node x = if x = a then (s.node a).setBlack c else s.node x :=
  set_node _

@[simp] theorem setBlack_child : ((s.setBlack a c).node x).child d = (s.node x).child d := by
  rw [setBlack_node]
  split
  · next h =>
    rw [h]
    cases d <;> rfl
  · rfl

@[simp] theorem adopt_node : (s.adopt p q).node x = if p = some x then (s.node x).setParent q else s.node x := by
  cases p with
  | none => rfl
  | some a =>
    rw [adopt, setParent_node]
    split
    · next h => simp [h]
    · next h => simp [Ne.symm h]

@[simp] theorem adopt_child : ((s.adopt p q).node x).child d = (s.node x).child d := by
  rw [adopt_node]
  split
  · cases d <;> rfl
  · rfl

@[simp] theorem adopt_root : (s.adopt p q).root = s.root := by cases p <;> rfl

theorem relink_node (h : p ≠ some x) (old : α) : (s.relink d p old q).node x = s.node x := by
  cases p with
  | none => rfl
  | some a =>
    rw [relink, setChild_node, if_neg]
    rintro rfl
    exact h rfl

end Store

/-- What holds the hole holds `q` in it then. -/
theorem Held.relink (h : Held s (some a) fs) (hnd : (keys (plug fs t)).Nodup) (ha : a ∈ keys t) :
    Held (s.relink d (above fs) a q) q fs := by
  cases fs with
  | nil => rfl
  | cons f fs =>
    obtain ⟨hf, hsib, hfs⟩ := h
    obtain ⟨-, hfill, hrim⟩ := nodup_plug.mp (show (keys (plug fs (f.fill t))).Nodup from hnd)
    obtain ⟨⟨-, hfsib⟩, -, -, hdisj⟩ := nodup_branch.mp hfill
    have hside : (if (s.node f.value.1).child d = some a then d else d.other) = f.side := by
      by_cases hd : d = f.side
      · subst hd
        rw [hf, sided_child, if_pos rfl]
      · obtain rfl : d = f.side.other := by revert hd; cases d <;> cases f.side <;> simp [Side.other]
        rw [hf, sided_child_other, if_neg fun htop => hdisj ha (mem_of_top htop)]
        cases f.side <;> rfl
    have heq : s.relink d (above (f :: fs)) a q = s.setChild f.value.1 f.side q := by rw [← hside]; rfl
    rw [heq]
    refine ⟨?_, hsib.congr fun x hx => ?_, hfs.congr rfl fun x hx => ?_⟩
    · rw [Store.setChild_node, if_pos rfl, hf, sided_setChild]
    · rw [Store.setChild_node, if_neg]
      rintro rfl
      exact hfsib hx
    · rw [Store.setChild_node, if_neg]
      rintro rfl
      exact hrim hx (mem_keys_branch.mpr (.inl rfl))

/-- **A rotation**, at a node of the tree. -/
theorem Shows.rotate (h : Shows ks s fs (branch d (a, c) l (branch d (b, e) t r))) :
    ∃ s', s.rotate d a = some s' ∧ Shows ks s' fs (branch d (b, e) (branch d (a, c) l t) r) := by
  obtain ⟨hlays, hheld, rfl, hnd⟩ := h
  obtain ⟨ha, hl, hb, ht, hr⟩ := by simpa only [lays_branch, top_branch] using hlays
  rw [top_branch] at hheld
  have hparent : (s.node a).parent = above fs := by rw [ha, sided_parent]
  have hup : (s.node a).child d.other = some b := by rw [ha, sided_child_other]
  have hinner : (s.node b).child d = top t := by rw [hb, sided_child]
  obtain ⟨-, hkeys, hrim⟩ := nodup_plug.mp hnd
  have hoff : ∀ x ∈ keys (branch d (a, c) l (branch d (b, e) t r)), above fs ≠ some x :=
    fun x hx habove => hrim (mem_of_above habove) hx
  obtain ⟨⟨hal, ha'⟩, hndl, hnd', hlb⟩ := nodup_branch.mp hkeys
  obtain ⟨⟨hbt, hbr⟩, hndt, hndr, htr⟩ := nodup_branch.mp hnd'
  simp only [mem_keys_branch, not_or, List.Disjoint] at ha' hoff hrim hlb
  obtain ⟨hab, hat, har⟩ := ha'
  obtain ⟨s', hs'⟩ : ∃ s', s' = (((((s.setChild a d.other (top t)).adopt (top t) (some a)).setChild b d (some a)).setParent b
      (above fs)).relink d (above fs) a (some b)).setParent a (some b) := ⟨_, rfl⟩
  have hta : top t ≠ some a := fun htop => hat (mem_of_top htop)
  have htb : top t ≠ some b := fun htop => hbt (mem_of_top htop)
  have hna : s'.node a = sided d (some b) c (top l) (top t) := by
    simp [hs', Store.relink_node (hoff a (.inl rfl)), hab, hta, ha]
  have hnb : s'.node b = sided d (above fs) e (some a) (top r) := by
    simp [hs', Store.relink_node (hoff b (.inr (.inr (.inl rfl)))), Ne.symm hab, htb, hb]
  have hrest : ∀ x, x ≠ a → x ≠ b → above fs ≠ some x →
      s'.node x = if top t = some x then (s.node x).setParent (some a) else s.node x := by
    intro x hxa hxb hx
    simp [hs', Store.relink_node hx, hxa, hxb]
  refine ⟨s', by rw [Store.rotate, hup, hparent, hs', ← hinner]; rfl, ?_, ?_, ?_, hnd⟩
  · simp only [lays_branch, top_branch]
    refine ⟨hnb, ⟨hna, hl.congr fun x hx => ?_, ht.adopt hndt fun x hx => ?_⟩, hr.congr fun x hx => ?_⟩
    · have hxt : top t ≠ some x := fun htop => hlb hx (.inr (.inl (mem_of_top htop)))
      rw [hrest x (ne_of_mem_of_not_mem hx hal) (fun hxb => hlb hx (.inl hxb)) (hoff x (.inr (.inl hx))), if_neg hxt]
    · exact hrest x (ne_of_mem_of_not_mem hx hat) (ne_of_mem_of_not_mem hx hbt) (hoff x (.inr (.inr (.inr (.inl hx)))))
    · have hxt : top t ≠ some x := fun htop => htr (mem_of_top htop) hx
      rw [hrest x (ne_of_mem_of_not_mem hx har) (ne_of_mem_of_not_mem hx hbr) (hoff x (.inr (.inr (.inr (.inr hx))))),
        if_neg hxt]
  · rw [top_branch, hs']
    have hstay : Held ((((s.setChild a d.other (top t)).adopt (top t) (some a)).setChild b d (some a)).setParent b
        (above fs)) (some a) fs := by
      refine hheld.congr Store.adopt_root fun x hx => ?_
      have hxa : x ≠ a := fun hxa => hrim hx (.inl hxa)
      have hxb : x ≠ b := fun hxb => hrim hx (.inr (.inr (.inl hxb)))
      have hxt : top t ≠ some x := fun htop => hrim hx (.inr (.inr (.inr (.inl (mem_of_top htop)))))
      simp [hxa, hxb, hxt]
    refine (hstay.relink hnd (mem_keys_branch.mpr (.inl rfl))).congr rfl fun x hx => ?_
    rw [Store.setParent_node, if_neg fun hxa => hrim hx (.inl hxa)]
  · rw [keys, inorder_plug, inorder_rotate, ← inorder_plug, keys]

theorem Shows.setBlack (h : Shows ks s fs (branch d (a, c) l r)) (e : Bool) :
    Shows ks (s.setBlack a e) fs (branch d (a, e) l r) := by
  obtain ⟨hlays, hheld, rfl, hnd⟩ := h
  obtain ⟨ha, hl, hr⟩ := lays_branch.mp hlays
  obtain ⟨-, hkeys, hrim⟩ := nodup_plug.mp hnd
  obtain ⟨⟨hal, har⟩, -⟩ := nodup_branch.mp hkeys
  have hrest : ∀ x, x ≠ a → (s.setBlack a e).node x = s.node x := fun x hx => by rw [Store.setBlack_node, if_neg hx]
  refine ⟨lays_branch.mpr ⟨?_, hl.congr fun x hx => ?_, hr.congr fun x hx => ?_⟩, ?_, ?_, hnd⟩
  · rw [Store.setBlack_node, if_pos rfl, ha, sided_setBlack]
  · exact hrest x (ne_of_mem_of_not_mem hx hal)
  · exact hrest x (ne_of_mem_of_not_mem hx har)
  · rw [top_branch] at hheld ⊢
    exact hheld.congr rfl fun x hx => hrest x fun hxa => hrim hx (mem_keys_branch.mpr (.inl hxa))
  · rw [keys, inorder_plug, keys, inorder_plug]
    cases d <;> simp [branch, inorder]

/-- The test by which the code finds the side. -/
theorem Shows.side (h : Shows ks s fs (branch d (a, c) l r)) (hp : top l = p) (hne : l ≠ nil ∨ r ≠ nil) :
    (if (s.node a).left = p then Side.left else Side.right) = d := by
  subst hp
  have hside := h.top_ne hne
  rw [h.node_eq]
  cases d
  · exact if_pos rfl
  · exact if_neg hside

/-- A child takes the place of its parent, and the colours are set for it. -/
theorem Shows.raise {near far sib : BinaryTree (α × Bool)}
    (h : Shows ks s fs (branch d (a, c) (branch d (b, e) near far) sib)) :
    ∃ s', ((s.setBlack b true).setBlack a false).rotate d.other a = some s' ∧
      Shows ks s' fs (branch d (b, true) near (branch d (a, false) far sib)) := by
  have hpaint : Shows ks ((s.setBlack b true).setBlack a false) fs
      (branch d.other (a, false) sib (branch d.other (b, true) far near)) := by
    rw [branch_other, branch_other]
    exact (shows_near.mpr ((shows_near.mp h).setBlack true)).setBlack false
  obtain ⟨s', hs', h'⟩ := hpaint.rotate
  rw [branch_other, branch_other] at h'
  exact ⟨s', hs', h'⟩

end Sneks.Rbtree
