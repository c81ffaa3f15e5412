import Mathlib.Data.UInt
import Mathlib.Data.Tree.Basic
import Mathlib.Data.List.Basic

/-!
# Search trees by direction

A binary search tree whose user brings the comparison: `dir y` tells whether what is looked
for lies left of `y`, right of it, or meets it. A balanced tree rebalances after the leaf is
linked in, which leaves the order of the values alone.
-/

namespace Sneks.Lib
open BinaryTree

variable {α : Type*}

def inorder : BinaryTree α → List α
  | nil => []
  | node x l r => inorder l ++ x :: inorder r

/-- Links `x` in as a leaf, unless it meets a value on the way down. -/
def linkNode (x : α) (dir : α → Ordering) : BinaryTree α → Except α (BinaryTree α)
  | nil => .ok (node x nil nil)
  | node y l r =>
    match dir y with
    | .lt => (linkNode x dir l).map (node y · r)
    | .gt => (linkNode x dir r).map (node y l ·)
    | .eq => .error y

def probe (dir : α → Ordering) : BinaryTree α → Option α
  | nil => none
  | node y l r =>
    match dir y with
    | .lt => (probe dir l).or (some y)
    | .gt => (probe dir r).or (some y)
    | .eq => some y

/-- No node whose value has `p` has a left child. -/
def Leftless (p : α → Prop) : BinaryTree α → Prop
  | nil => True
  | node y l r => (p y → l = nil) ∧ Leftless p l ∧ Leftless p r

variable {x : α} {dir : α → Ordering} {t u : BinaryTree α}

theorem inorder_linkNode (h : linkNode x dir t = .ok u) :
    ∃ l r, inorder t = l ++ r ∧ inorder u = l ++ x :: r := by
  induction t generalizing u with
  | nil =>
    cases h
    exact ⟨[], [], rfl, rfl⟩
  | node y l r ihl ihr =>
    rw [linkNode] at h
    split at h
    · obtain ⟨l', hl', rfl⟩ : ∃ l', linkNode x dir l = .ok l' ∧ node y l' r = u := by
        cases hl : linkNode x dir l with
        | error e => simp [hl, Except.map] at h
        | ok l' => exact ⟨l', rfl, by simpa [hl, Except.map] using h⟩
      obtain ⟨a, b, hab, hab'⟩ := ihl hl'
      exact ⟨a, b ++ y :: inorder r, by simp [inorder, hab], by simp [inorder, hab']⟩
    · obtain ⟨r', hr', rfl⟩ : ∃ r', linkNode x dir r = .ok r' ∧ node y l r' = u := by
        cases hr : linkNode x dir r with
        | error e => simp [hr, Except.map] at h
        | ok r' => exact ⟨r', rfl, by simpa [hr, Except.map] using h⟩
      obtain ⟨a, b, hab, hab'⟩ := ihr hr'
      exact ⟨inorder l ++ y :: a, b, by simp [inorder, hab], by simp [inorder, hab']⟩
    · cases h

theorem perm_linkNode (h : linkNode x dir t = .ok u) : (inorder u).Perm (x :: inorder t) := by
  obtain ⟨l, r, ht, hu⟩ := inorder_linkNode h
  rw [ht, hu]
  exact List.perm_middle

def Directed (dir : α → Ordering) (l : List α) : Prop :=
  l.Pairwise fun a b => dir a = .gt ∨ dir b = .lt

theorem probe_eq_none (h : probe dir t = none) : inorder t = [] := by
  cases t with
  | nil => rfl
  | node y l r =>
    rw [probe] at h
    split at h
    · simp at h
    · simp at h
    · cases h

theorem probe_congr {dir' : α → Ordering} (h : ∀ y ∈ inorder t, dir y = dir' y) : probe dir t = probe dir' t := by
  induction t with
  | nil => rfl
  | node y l r ihl ihr =>
    have hl := ihl fun z hz => h z (List.mem_append_left _ hz)
    have hr := ihr fun z hz => h z (List.mem_append_right _ (List.mem_cons_of_mem _ hz))
    rw [probe, probe, h y (List.mem_append_right _ List.mem_cons_self), hl, hr]

theorem linkNode_congr {dir' : α → Ordering} (h : ∀ y ∈ inorder t, dir y = dir' y) :
    linkNode x dir t = linkNode x dir' t := by
  induction t with
  | nil => rfl
  | node y l r ihl ihr =>
    have hl := ihl fun z hz => h z (List.mem_append_left _ hz)
    have hr := ihr fun z hz => h z (List.mem_append_right _ (List.mem_cons_of_mem _ hz))
    rw [linkNode, linkNode, h y (List.mem_append_right _ List.mem_cons_self), hl, hr]

theorem mem_of_probe {y : α} (h : probe dir t = some y) : y ∈ inorder t := by
  induction t with
  | nil => cases h
  | node z l r ihl ihr =>
    have hor {o : Option α} (ho : o.or (some z) = some y) : o = some y ∨ z = y := by
      cases o with
      | none => exact .inr (Option.some.inj ho)
      | some w => exact .inl ho
    rw [inorder, List.mem_append, List.mem_cons]
    rw [probe] at h
    split at h
    · obtain h | rfl := hor h
      · exact .inl (ihl h)
      · exact .inr (.inl rfl)
    · obtain h | rfl := hor h
      · exact .inr (.inr (ihr h))
      · exact .inr (.inl rfl)
    · cases h
      exact .inr (.inl rfl)

theorem probe_of_eq (hd : Directed dir (inorder t)) (hx : x ∈ inorder t) (he : dir x = .eq) :
    ∃ y, probe dir t = some y ∧ dir y = .eq := by
  induction t with
  | nil => cases hx
  | node y l r ihl ihr =>
    obtain ⟨hdl, hdyr, hcross⟩ := List.pairwise_append.mp hd
    obtain ⟨hdy, hdr⟩ := List.pairwise_cons.mp hdyr
    rw [probe]
    split
    · next hy =>
      -- nothing right of `y` meets
      have hl : x ∈ inorder l := by
        obtain hl | hyr := List.mem_append.mp hx
        · exact hl
        · obtain rfl | hr := List.mem_cons.mp hyr
          · rw [hy] at he
            cases he
          · obtain hgt | hlt := hdy x hr
            · rw [hy] at hgt
              cases hgt
            · rw [he] at hlt
              cases hlt
      obtain ⟨z, hz, hze⟩ := ihl hdl hl
      exact ⟨z, by rw [hz]; rfl, hze⟩
    · next hy =>
      have hr : x ∈ inorder r := by
        obtain hl | hyr := List.mem_append.mp hx
        · obtain hgt | hlt := hcross x hl y List.mem_cons_self
          · rw [he] at hgt
            cases hgt
          · rw [hy] at hlt
            cases hlt
        · obtain rfl | hr := List.mem_cons.mp hyr
          · rw [hy] at he
            cases he
          · exact hr
      obtain ⟨z, hz, hze⟩ := ihr hdr hr
      exact ⟨z, by rw [hz]; rfl, hze⟩
    · next hy => exact ⟨y, rfl, hy⟩

theorem probe_split {y : α} (hd : Directed dir (inorder t)) (h : probe dir t = some y) :
    ∃ l r, inorder t = l ++ y :: r ∧ (dir y = .lt → ∀ a ∈ l, dir a = .gt) ∧ (dir y = .gt → ∀ b ∈ r, dir b = .lt) := by
  induction t generalizing y with
  | nil => cases h
  | node z l r ihl ihr =>
    obtain ⟨hdl, hdzr, hcross⟩ := List.pairwise_append.mp hd
    obtain ⟨hdz, hdr⟩ := List.pairwise_cons.mp hdzr
    rw [probe] at h
    split at h
    · next hz =>
      have hright : ∀ b ∈ inorder r, dir b = .lt := fun b hb =>
        (hdz b hb).resolve_left fun hgt => by rw [hz] at hgt; cases hgt
      cases hl : probe dir l with
      | none =>
        rw [hl] at h
        obtain rfl : z = y := by simpa using h
        refine ⟨[], inorder r, by rw [inorder, probe_eq_none hl], fun _ => by simp, fun _ => hright⟩
      | some w =>
        rw [hl] at h
        obtain rfl : w = y := by simpa using h
        obtain ⟨a, b, hab, hlt, hgt⟩ := ihl hdl hl
        refine ⟨a, b ++ z :: inorder r, by simp [inorder, hab], hlt, fun hw c hc => ?_⟩
        obtain hc | hc := List.mem_append.mp hc
        · exact hgt hw c hc
        · obtain rfl | hc := List.mem_cons.mp hc
          · exact hz
          · exact hright c hc
    · next hz =>
      have hleft : ∀ a ∈ inorder l, dir a = .gt := fun a ha =>
        (hcross a ha z List.mem_cons_self).resolve_right fun hlt => by rw [hz] at hlt; cases hlt
      cases hr : probe dir r with
      | none =>
        rw [hr] at h
        obtain rfl : z = y := by simpa using h
        refine ⟨inorder l, [], by rw [inorder, probe_eq_none hr], fun _ => hleft, fun _ => by simp⟩
      | some w =>
        rw [hr] at h
        obtain rfl : w = y := by simpa using h
        obtain ⟨a, b, hab, hlt, hgt⟩ := ihr hdr hr
        refine ⟨inorder l ++ z :: a, b, by simp [inorder, hab], fun hw c hc => ?_, hgt⟩
        obtain hc | hc := List.mem_append.mp hc
        · exact hleft c hc
        · obtain rfl | hc := List.mem_cons.mp hc
          · exact hz
          · exact hlt hw c hc
    · next hz =>
      cases h
      refine ⟨inorder l, inorder r, rfl, fun hlt => ?_, fun hgt => ?_⟩
      · rw [hz] at hlt
        cases hlt
      · rw [hz] at hgt
        cases hgt

theorem inorder_eq_nil : inorder t = [] ↔ t = nil := by
  cases t <;> simp [inorder]

theorem leftless_of_forall {p : α → Prop} (h : ∀ y ∈ inorder t, ¬ p y) : Leftless p t := by
  induction t with
  | nil => trivial
  | node y l r ihl ihr =>
    exact ⟨fun hy => absurd hy (h y (by simp [inorder])), ihl fun z hz => h z (by simp [inorder, hz]),
      ihr fun z hz => h z (by simp [inorder, hz])⟩

theorem probe_between {p : α → Prop} {l r : List α} (ht : inorder t = l ++ x :: r) (hl : ∀ a ∈ l, dir a = .gt)
    (hr : ∀ b ∈ x :: r, dir b = .lt) (hx : p x) (hp : ∀ y ∈ l ++ r, ¬ p y) :
    probe dir t = some x ∧ Leftless p t ∨ (∃ y ∈ l, probe dir t = some y) ∧ ¬ Leftless p t := by
  induction t generalizing l r with
  | nil => simp [inorder] at ht
  | node y a b iha ihb =>
    have hside : (∃ c, l = inorder a ++ y :: c ∧ inorder b = c ++ x :: r) ∨
        (l = inorder a ∧ x = y ∧ r = inorder b) ∨ ∃ c, inorder a = l ++ x :: c ∧ r = c ++ y :: inorder b := by
      obtain ⟨c, hc, hy⟩ | ⟨c, hc, hy⟩ := List.append_eq_append_iff.mp ht
      · cases c with
        | nil =>
          obtain ⟨rfl, rfl⟩ := List.cons.inj hy
          exact .inr (.inl ⟨by simpa using hc, rfl, rfl⟩)
        | cons z c =>
          obtain ⟨rfl, hb⟩ := List.cons.inj hy
          exact .inl ⟨c, hc, hb⟩
      · cases c with
        | nil =>
          obtain ⟨rfl, rfl⟩ := List.cons.inj hy
          exact .inr (.inl ⟨by simpa using hc.symm, rfl, rfl⟩)
        | cons z c =>
          obtain ⟨rfl, hr⟩ := List.cons.inj hy
          exact .inr (.inr ⟨c, hc, hr⟩)
    obtain ⟨c, rfl, hb⟩ | ⟨rfl, rfl, rfl⟩ | ⟨c, ha, rfl⟩ := hside
    · have hpa : Leftless p a := leftless_of_forall fun z hz => hp z (by simp [hz])
      have hleft : Leftless p (node y a b) ↔ Leftless p b :=
        ⟨fun h => h.2.2, fun h => ⟨fun hy => absurd hy (hp y (by simp)), hpa, h⟩⟩
      rw [probe, hl y (by simp), hleft]
      obtain ⟨hprobe, h⟩ | ⟨⟨w, hw, hprobe⟩, h⟩ := ihb hb (fun z hz => hl z (by simp [hz])) hr fun z hz =>
        hp z (by rw [List.append_assoc, List.cons_append]; exact List.mem_append_right _ (List.mem_cons_of_mem _ hz))
      · exact .inl ⟨by rw [hprobe]; rfl, h⟩
      · exact .inr ⟨⟨w, by simp [hw], by rw [hprobe]; rfl⟩, h⟩
    · have hpa : Leftless p a := leftless_of_forall fun z hz => hp z (List.mem_append_left _ hz)
      have hpb : Leftless p b := leftless_of_forall fun z hz => hp z (List.mem_append_right _ hz)
      rw [probe, hr x List.mem_cons_self]
      cases hprobe : probe dir a with
      | none => exact .inl ⟨rfl, fun _ => inorder_eq_nil.mp (probe_eq_none hprobe), hpa, hpb⟩
      | some w =>
        have hw := mem_of_probe hprobe
        refine .inr ⟨⟨w, hw, rfl⟩, fun hleft => ?_⟩
        rw [hleft.1 hx] at hw
        cases hw
    · have hpb : Leftless p b := leftless_of_forall fun z hz => hp z (by simp [hz])
      have hleft : Leftless p (node y a b) ↔ Leftless p a :=
        ⟨fun h => h.2.1, fun h => ⟨fun hy => absurd hy (hp y (by simp)), h, hpb⟩⟩
      rw [probe, hr y (by simp), hleft]
      obtain ⟨hprobe, h⟩ | ⟨⟨w, hw, hprobe⟩, h⟩ := iha ha hl (fun z hz => hr z (by
          rw [← List.cons_append]
          exact List.mem_append_left _ hz)) fun z hz => hp z (by
            rw [← List.append_assoc]
            exact List.mem_append_left _ hz)
      · exact .inl ⟨by rw [hprobe]; rfl, h⟩
      · exact .inr ⟨⟨w, hw, by rw [hprobe]; rfl⟩, h⟩

theorem linkNode_between {l r : List α} (ht : inorder t = l ++ r) (hl : ∀ a ∈ l, dir a = .gt)
    (hr : ∀ b ∈ r, dir b = .lt) : ∃ u, linkNode x dir t = .ok u ∧ inorder u = l ++ x :: r := by
  induction t generalizing l r with
  | nil =>
    obtain ⟨rfl, rfl⟩ := List.append_eq_nil_iff.mp ht.symm
    exact ⟨_, rfl, rfl⟩
  | node y a b iha ihb =>
    have hside : (∃ c, l = inorder a ++ y :: c ∧ inorder b = c ++ r) ∨
        ∃ c, inorder a = l ++ c ∧ r = c ++ y :: inorder b := by
      obtain ⟨c, hc, hb⟩ | ⟨c, hc, hb⟩ := List.append_eq_append_iff.mp ht
      · cases c with
        | nil => exact .inr ⟨[], by simpa using hc.symm, by simpa using hb.symm⟩
        | cons z c =>
          rw [List.cons_append, List.cons.injEq] at hb
          exact .inl ⟨c, hb.1 ▸ hc, hb.2⟩
      · exact .inr ⟨c, hc, hb⟩
    obtain ⟨c, rfl, hb⟩ | ⟨c, ha, rfl⟩ := hside
    · have hy : dir y = .gt := hl y (by simp)
      obtain ⟨u, hu, hin⟩ := ihb hb (fun z hz => hl z (by simp [hz])) hr
      refine ⟨node y a u, by rw [linkNode, hy, hu]; rfl, ?_⟩
      rw [inorder, hin, List.append_assoc, List.cons_append]
    · have hy : dir y = .lt := hr y (by simp)
      obtain ⟨u, hu, hin⟩ := iha ha hl fun z hz => hr z (by simp [hz])
      refine ⟨node y u b, by rw [linkNode, hy, hu]; rfl, ?_⟩
      rw [inorder, hin, List.append_assoc, List.cons_append]

theorem linkNode_of_eq {z : α}
    (hd : (inorder t).Pairwise fun a b => (dir a = .lt → dir b = .lt) ∧ (dir b = .gt → dir a = .gt))
    (hz : z ∈ inorder t) (he : dir z = .eq) : ∃ y, linkNode x dir t = .error y := by
  induction t with
  | nil => cases hz
  | node y l r ihl ihr =>
    obtain ⟨hdl, hdyr, hcross⟩ := List.pairwise_append.mp hd
    obtain ⟨hdy, hdr⟩ := List.pairwise_cons.mp hdyr
    rw [linkNode]
    split
    · next hy =>
      have hl : z ∈ inorder l := by
        obtain hl | hyr := List.mem_append.mp hz
        · exact hl
        · obtain rfl | hr := List.mem_cons.mp hyr
          · rw [hy] at he
            cases he
          · rw [(hdy z hr).1 hy] at he
            cases he
      obtain ⟨w, hw⟩ := ihl hdl hl
      exact ⟨w, by rw [hw]; rfl⟩
    · next hy =>
      have hr : z ∈ inorder r := by
        obtain hl | hyr := List.mem_append.mp hz
        · rw [(hcross z hl y List.mem_cons_self).2 hy] at he
          cases he
        · obtain rfl | hr := List.mem_cons.mp hyr
          · rw [hy] at he
            cases he
          · exact hr
      obtain ⟨w, hw⟩ := ihr hdr hr
      exact ⟨w, by rw [hw]; rfl⟩
    · exact ⟨y, rfl⟩

end Sneks.Lib
