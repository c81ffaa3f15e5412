import Sneks.Lib.SearchTree

/-!
# Red-black trees with a hole

A tree is taken apart at a place: the frames on the way up from there, and the tree that is there. What
is said of one side holds of the other by its name. No path of a balanced tree is more than twice as long
as another.
-/

namespace Sneks.Lib
open BinaryTree

inductive Side
  | left | right
  deriving DecidableEq

def Side.other : Side → Side
  | .left => .right
  | .right => .left

@[simp] theorem Side.other_other (d : Side) : d.other.other = d := by cases d <;> rfl

theorem Side.eq_or (d e : Side) : e = d ∨ e = d.other := by cases d <;> cases e <;> decide

variable {α β : Type*} {d : Side}

-- Places in a tree

/-- The node `x` with the tree `near` on the side `d`. -/
def branch (d : Side) (x : β) (near far : BinaryTree β) : BinaryTree β :=
  match d with
  | .left => node x near far
  | .right => node x far near

/-- A node on the way up, and what hangs on its other side. -/
structure Frame (β : Type*) where
  side : Side
  value : β
  sib : BinaryTree β

def Frame.fill (f : Frame β) (t : BinaryTree β) : BinaryTree β := branch f.side f.value t f.sib

def plug : List (Frame β) → BinaryTree β → BinaryTree β
  | [], t => t
  | f :: fs, t => plug fs (f.fill t)

/-- The values on the side `d` of the hole. -/
def beside (d : Side) : List (Frame β) → List β
  | [] => []
  | f :: fs =>
    match d with
    | .left => beside .left fs ++ if f.side = .left then [] else inorder f.sib ++ [f.value]
    | .right => (if f.side = .left then f.value :: inorder f.sib else []) ++ beside .right fs

theorem branch_other (x : β) (l r : BinaryTree β) : branch d.other x l r = branch d x r l := by
  cases d <;> rfl

theorem exists_branch (d : Side) (x : β) (l r : BinaryTree β) : ∃ n f, node x l r = branch d x n f := by
  cases d
  · exact ⟨l, r, rfl⟩
  · exact ⟨r, l, rfl⟩

/-- A rotation leaves the order alone. -/
theorem inorder_rotate (x y : β) (l m r : BinaryTree β) :
    inorder (branch d y (branch d x l m) r) = inorder (branch d x l (branch d y m r)) := by
  cases d <;> simp [branch, inorder]

theorem inorder_plug (fs : List (Frame β)) (t : BinaryTree β) :
    inorder (plug fs t) = beside .left fs ++ inorder t ++ beside .right fs := by
  induction fs generalizing t with
  | nil => simp [plug, beside]
  | cons f fs ih =>
    rw [plug, ih]
    cases hs : f.side <;> simp [Frame.fill, branch, inorder, beside, hs]

/-- Going down on one side, nothing is left on that side. -/
theorem beside_eq_nil {fs : List (Frame β)} (h : ∀ f ∈ fs, f.side = d) : beside d fs = [] := by
  induction fs with
  | nil => cases d <;> rfl
  | cons f fs ih =>
    have hf : f.side = d := h f List.mem_cons_self
    have hfs := ih fun g hg => h g (List.mem_cons_of_mem _ hg)
    cases d <;> simp [beside, hf, hfs]

theorem plug_append (fs gs : List (Frame β)) (t : BinaryTree β) : plug (fs ++ gs) t = plug gs (plug fs t) := by
  induction fs generalizing t with
  | nil => rfl
  | cons f fs ih => exact ih _

theorem exists_plug {x : β} {t : BinaryTree β} (h : x ∈ inorder t) : ∃ fs l r, t = plug fs (node x l r) := by
  induction t with
  | nil => cases h
  | node y l r ihl ihr =>
    obtain hl | hr := List.mem_append.mp h
    · obtain ⟨fs, l', r', rfl⟩ := ihl hl
      exact ⟨fs ++ [⟨.left, y, r⟩], l', r', by rw [plug_append]; rfl⟩
    · obtain rfl | hr := List.mem_cons.mp hr
      · exact ⟨[], l, r, rfl⟩
      · obtain ⟨fs, l', r', rfl⟩ := ihr hr
        exact ⟨fs ++ [⟨.right, y, l⟩], l', r', by rw [plug_append]; rfl⟩

theorem height_branch (x : β) (l r : BinaryTree β) : (branch d x l r).height = max l.height r.height + 1 := by
  cases d
  · rfl
  · exact congrArg (· + 1) (Nat.max_comm _ _)

theorem height_plug (fs : List (Frame β)) (t : BinaryTree β) : fs.length + t.height ≤ (plug fs t).height := by
  induction fs generalizing t with
  | nil => exact Nat.le_of_eq (Nat.zero_add _)
  | cons f fs ih =>
    have hfill := ih (f.fill t)
    have hmax := Nat.le_max_left t.height f.sib.height
    rw [Frame.fill, height_branch] at hfill
    rw [List.length_cons, plug, Frame.fill]
    omega

-- The balance

/-- Is there no red node at the root? -/
def isBlack : BinaryTree (α × Bool) → Bool
  | nil => true
  | node x _ _ => x.2

/-- Each way down passes `h` black nodes, and no two red ones in a row. -/
def Balanced : BinaryTree (α × Bool) → ℕ → Prop
  | nil, h => h = 0
  | node x l r, h =>
    if x.2 then ∃ k, h = k + 1 ∧ Balanced l k ∧ Balanced r k
    else Balanced l h ∧ Balanced r h ∧ isBlack l ∧ isBlack r

/-- The hole takes a red node. -/
def Open (fs : List (Frame (α × Bool))) : Prop := ∀ f ∈ fs.head?, f.value.2 = true

/-- The hole takes a tree of `h` black nodes a path. -/
def Fits : List (Frame (α × Bool)) → ℕ → Prop
  | [], _ => True
  | f :: fs, h =>
    Balanced f.sib h ∧ if f.value.2 then Fits fs (h + 1) else isBlack f.sib ∧ fs ≠ [] ∧ Open fs ∧ Fits fs h

variable {x y : α} {c : Bool} {h n : ℕ} {l r t : BinaryTree (α × Bool)} {f : Frame (α × Bool)} {fs : List (Frame (α × Bool))}

@[simp] theorem isBlack_branch : isBlack (branch d (x, c) l r) = c := by
  cases d <;> rfl

@[simp] theorem balanced_black : Balanced (branch d (x, true) l r) h ↔ ∃ k, h = k + 1 ∧ Balanced l k ∧ Balanced r k := by
  cases d
  · exact Iff.rfl
  · exact exists_congr fun k => and_congr_right' and_comm

@[simp] theorem balanced_red :
    Balanced (branch d (x, false) l r) h ↔ (Balanced l h ∧ isBlack l) ∧ Balanced r h ∧ isBlack r := by
  cases d <;> simp [branch, Balanced] <;> tauto

theorem Fits.plug (hf : Fits fs h) (ht : Balanced t h) (hc : isBlack t ∨ Open fs) :
    ∃ m, Balanced (plug fs t) m ∧ (fs ≠ [] → isBlack (Lib.plug fs t)) := by
  induction fs generalizing t h with
  | nil => exact ⟨h, ht, fun hne => absurd rfl hne⟩
  | cons f fs ih =>
    obtain ⟨d, ⟨x, c⟩, sib⟩ := f
    obtain ⟨hsib, hf⟩ := hf
    cases c with
    | true =>
      obtain ⟨m, hm, hroot⟩ := ih hf (balanced_black.mpr ⟨h, rfl, ht, hsib⟩) (.inl isBlack_branch)
      refine ⟨m, hm, fun _ => ?_⟩
      cases fs with
      | nil => exact isBlack_branch
      | cons g fs => exact hroot (List.cons_ne_nil g fs)
    | false =>
      obtain ⟨hblack, hne, hopen, hf⟩ := hf
      have ht' : isBlack t := hc.resolve_right fun ho => Bool.false_ne_true (ho _ rfl)
      obtain ⟨m, hm, hroot⟩ := ih hf (balanced_red.mpr ⟨⟨ht, ht'⟩, hsib, hblack⟩) (.inr hopen)
      exact ⟨m, hm, fun _ => hroot hne⟩

theorem Balanced.unplug (ht : Balanced (plug fs t) n) (hroot : isBlack (plug fs t)) :
    ∃ h, Balanced t h ∧ Fits fs h ∧ (isBlack t ∨ Open fs) := by
  induction fs generalizing t with
  | nil => exact ⟨n, ht, trivial, .inl hroot⟩
  | cons f fs ih =>
    obtain ⟨h, hfill, hf, hc⟩ := ih ht hroot
    obtain ⟨d, ⟨x, c⟩, sib⟩ := f
    cases c with
    | true =>
      obtain ⟨k, rfl, hk, hsib⟩ := balanced_black.mp hfill
      refine ⟨k, hk, ⟨hsib, hf⟩, .inr ?_⟩
      rintro _ ⟨⟩
      rfl
    | false =>
      obtain ⟨⟨hk, hblack⟩, hsib, hsblack⟩ := balanced_red.mp hfill
      have hopen : Open fs := hc.resolve_left fun hb => Bool.false_ne_true (isBlack_branch.symm.trans hb)
      refine ⟨h, hk, ⟨hsib, hsblack, ?_, hopen, hf⟩, .inl hblack⟩
      rintro rfl
      exact Bool.false_ne_true (isBlack_branch.symm.trans hroot)

/-- Only the colours of the nodes matter. -/
theorem Balanced.rename (ht : Balanced (plug fs (branch d (x, c) l r)) n) (hroot : isBlack (plug fs (branch d (x, c) l r)))
    (y : α) : ∃ m, Balanced (plug fs (branch d (y, c) l r)) m ∧ isBlack (plug fs (branch d (y, c) l r)) := by
  obtain ⟨h, hb, hf, hc⟩ := ht.unplug hroot
  rw [isBlack_branch] at hc
  have hb' : Balanced (branch d (y, c) l r) h := by
    cases c with
    | true => exact balanced_black.mpr (balanced_black.mp hb)
    | false => exact balanced_red.mpr (balanced_red.mp hb)
  obtain ⟨m, hm, hroot'⟩ := hf.plug hb' (by rwa [isBlack_branch])
  refine ⟨m, hm, ?_⟩
  cases fs with
  | nil => exact isBlack_branch.trans (isBlack_branch.symm.trans hroot)
  | cons f fs => exact hroot' (List.cons_ne_nil f fs)

/-- A red node at the root may be made black. -/
theorem Balanced.blacken (ht : Balanced (branch d (x, c) l r) h) : ∃ m, Balanced (branch d (x, true) l r) m := by
  cases c with
  | true => exact ⟨h, ht⟩
  | false =>
    obtain ⟨⟨hl, -⟩, hr, -⟩ := balanced_red.mp ht
    exact ⟨h + 1, balanced_black.mpr ⟨h, rfl, hl, hr⟩⟩

theorem Balanced.size (ht : Balanced t h) :
    2 ^ h ≤ (inorder t).length + 1 ∧ t.height ≤ 2 * h + if isBlack t then 0 else 1 := by
  induction t generalizing h with
  | nil =>
    cases ht
    simp
  | node y l r ihl ihr =>
    obtain ⟨y, c⟩ := y
    simp only [inorder, List.length_append, List.length_cons, BinaryTree.height, isBlack]
    cases c with
    | true =>
      obtain ⟨k, rfl, hl, hr⟩ := balanced_black (d := .left).mp ht
      obtain ⟨hsl, hhl⟩ := ihl hl
      obtain ⟨hsr, hhr⟩ := ihr hr
      have hl1 : (if isBlack l then 0 else 1) ≤ 1 := by split <;> simp
      have hr1 : (if isBlack r then 0 else 1) ≤ 1 := by split <;> simp
      simp only [if_true, Nat.pow_succ]
      omega
    | false =>
      obtain ⟨⟨hl, hlb⟩, hr, hrb⟩ := balanced_red (d := .left).mp ht
      obtain ⟨hsl, hhl⟩ := ihl hl
      obtain ⟨hsr, hhr⟩ := ihr hr
      simp only [hlb, hrb, if_true] at hhl hhr
      simp only [Bool.false_eq_true, if_false]
      omega

theorem Balanced.height_le (ht : Balanced t h) (hroot : isBlack t) : t.height ≤ 2 * ((inorder t).length + 1).log2 := by
  obtain ⟨hsize, hheight⟩ := ht.size
  rw [if_pos hroot] at hheight
  have hlog : h ≤ ((inorder t).length + 1).log2 := (Nat.le_log2 (Nat.succ_ne_zero _)).mpr hsize
  omega

end Sneks.Lib
