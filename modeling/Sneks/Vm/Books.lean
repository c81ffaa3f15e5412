import Sneks.Vm.Calls

/-!
# The books on physical pages

What the lists, the owners and the share table say of the physical pages, and that the parts
of `sys/vm/vm.c` which change them keep the books right. `held` are the virtual pages that the
books account for: the resident ones, less the one that is being removed.
-/

namespace Sneks.Vm
open Lib

-- Links

/-- The links `ls` are different, and the live ones name each physical page once. -/
structure Core (phys : List ℕ) (pl : ℕ → Pl) (link : ℕ → Option ℕ) (next : ℕ) (ls : List ℕ) : Prop where
  nodup : ls.Nodup
  lt : ∀ l ∈ ls, l < next
  link : ∀ l ∈ ls, (pl l).live = true → link (pl l).page = some l
  linked : ∀ p ∈ phys, ∃ l ∈ ls, (pl l).live = true ∧ (pl l).page = p
  page : ∀ l ∈ ls, (pl l).page ∈ phys

namespace Core

variable {phys : List ℕ} {pl : ℕ → Pl} {link : ℕ → Option ℕ} {next l : ℕ} {ls ls' : List ℕ} {n : Pl}

theorem perm (h : Core phys pl link next ls) (hp : ls.Perm ls') : Core phys pl link next ls' where
  nodup := hp.nodup_iff.mp h.nodup
  lt l hl := h.lt l (hp.mem_iff.mpr hl)
  link l hl := h.link l (hp.mem_iff.mpr hl)
  linked p hp' := by
    obtain ⟨l, hl, hlive⟩ := h.linked p hp'
    exact ⟨l, hp.mem_iff.mp hl, hlive⟩
  page l hl := h.page l (hp.mem_iff.mpr hl)

theorem unique (h : Core phys pl link next ls) {l l' : ℕ} (hl : l ∈ ls) (hl' : l' ∈ ls)
    (hlive : (pl l).live = true) (hlive' : (pl l').live = true) (he : (pl l).page = (pl l').page) : l = l' := by
  have h1 := h.link l hl hlive
  rw [he, h.link l' hl' hlive', Option.some.injEq] at h1
  exact h1.symm

theorem replace (h : Core phys pl link next (l :: ls)) (hlive : (pl l).live = true)
    (hpage : n.page = (pl l).page) (hnew : n.live = true) :
    Core phys (Function.update pl next n) (Function.update link (pl l).page (some next)) (next + 1)
      (next :: ls) := by
  have hne : ∀ k ∈ ls, k ≠ next := fun k hk => by
    have := h.lt k (List.mem_cons_of_mem _ hk)
    omega
  have hl : l ∉ ls := (List.nodup_cons.mp h.nodup).1
  constructor
  · exact List.nodup_cons.mpr ⟨fun hk => hne _ hk rfl, (List.nodup_cons.mp h.nodup).2⟩
  · intro k hk
    cases List.mem_cons.mp hk with
    | inl hk => omega
    | inr hk =>
      have := h.lt k (List.mem_cons_of_mem _ hk)
      omega
  · intro k hk hklive
    cases List.mem_cons.mp hk with
    | inl hk => simp [hk, hpage]
    | inr hk =>
      rw [Function.update_of_ne (hne k hk)] at hklive ⊢
      have hpk : (pl k).page ≠ (pl l).page := fun he => hl (by
        rwa [← h.unique (List.mem_cons_of_mem _ hk) List.mem_cons_self hklive hlive he])
      rw [Function.update_of_ne hpk]
      exact h.link k (List.mem_cons_of_mem _ hk) hklive
  · intro p hp
    obtain ⟨k, hk, hklive, hkp⟩ := h.linked p hp
    cases List.mem_cons.mp hk with
    | inl hk => exact ⟨next, List.mem_cons_self, by simp [hnew, hpage, ← hkp, hk]⟩
    | inr hk =>
      exact ⟨k, List.mem_cons_of_mem _ hk, by rw [Function.update_of_ne (hne k hk)]; exact ⟨hklive, hkp⟩⟩
  · intro k hk
    cases List.mem_cons.mp hk with
    | inl hk =>
      simp only [hk, Function.update_self, hpage]
      exact h.page l List.mem_cons_self
    | inr hk =>
      rw [Function.update_of_ne (hne k hk)]
      exact h.page k (List.mem_cons_of_mem _ hk)

theorem renew (h : Core phys pl link next ls) (hl : l ∈ ls) (hlive : (pl l).live = true)
    (hpage : n.page = (pl l).page) (hnew : n.live = true) :
    Core phys (Function.update (Function.update pl l { pl l with live := false }) next n)
      (Function.update link (pl l).page (some next)) (next + 1) (next :: ls) := by
  have hne : ∀ k ∈ ls, k ≠ next := fun k hk => by
    have := h.lt k hk
    omega
  have hpl : ∀ k ∈ ls, (Function.update (Function.update pl l { pl l with live := false }) next n k).page =
      (pl k).page := fun k hk => by
    rw [Function.update_of_ne (hne k hk), Function.update_apply]
    split
    · next he => rw [he]
    · rfl
  constructor
  · exact List.nodup_cons.mpr ⟨fun hk => hne _ hk rfl, h.nodup⟩
  · intro k hk
    cases List.mem_cons.mp hk with
    | inl hk => omega
    | inr hk =>
      have := h.lt k hk
      omega
  · intro k hk hklive
    cases List.mem_cons.mp hk with
    | inl hk => simp [hk, hpage]
    | inr hk =>
      rw [hpl k hk]
      rw [Function.update_of_ne (hne k hk)] at hklive
      have hkl : k ≠ l := fun he => by simp [he] at hklive
      rw [Function.update_of_ne hkl] at hklive
      have hpk : (pl k).page ≠ (pl l).page := fun he => hkl (h.unique hk hl hklive hlive he)
      rw [Function.update_of_ne hpk]
      exact h.link k hk hklive
  · intro p hp
    obtain ⟨k, hk, hklive, hkp⟩ := h.linked p hp
    by_cases hkl : k = l
    · exact ⟨next, List.mem_cons_self, by simp [hnew, hpage, ← hkp, hkl]⟩
    · refine ⟨k, List.mem_cons_of_mem _ hk, ?_⟩
      rw [Function.update_of_ne (hne k hk), Function.update_of_ne hkl]
      exact ⟨hklive, hkp⟩
  · intro k hk
    cases List.mem_cons.mp hk with
    | inl hk =>
      simp only [hk, Function.update_self, hpage]
      exact h.page l hl
    | inr hk =>
      rw [hpl k hk]
      exact h.page k hk

theorem sublist (h : Core phys pl link next ls) (hs : ls'.Sublist ls)
    (hkeep : ∀ l ∈ ls, (pl l).live = true → l ∈ ls') : Core phys pl link next ls' where
  nodup := h.nodup.sublist hs
  lt l hl := h.lt l (hs.subset hl)
  link l hl := h.link l (hs.subset hl)
  linked p hp := by
    obtain ⟨l, hl, hlive, he⟩ := h.linked p hp
    exact ⟨l, hkeep l hl hlive, hlive, he⟩
  page l hl := h.page l (hs.subset hl)

end Core

-- The books

def Mem.home (m : Mem) (v : Vp) : List ℕ := if v.anon then m.active else m.cache

structure Books (phys : List ℕ) (held : ℕ → Prop) (m : Mem) : Prop where
  links : Core phys m.pl m.link m.nextPl (m.free ++ m.active ++ m.cache)
  free_live : ∀ l ∈ m.free, (m.pl l).live = true
  dead : ∀ l ∈ m.plbuf, (m.pl l).live = false ∧ l < m.nextPl
  key : ∀ l ∈ m.cache, (m.pl l).live = true → (m.pl l).fsidIno ≠ 0
  owner : ∀ p v, m.owner p = some v → held v ∧ (m.vp v).status = p
  share : ∀ v ∈ m.shareTable, held v
  share_nodup : m.shareTable.Nodup
  registered : ∀ v, held v → m.owner (m.vp v).status = some v ∨ v ∈ m.shareTable
  exclusive : ∀ v ∈ m.shareTable, m.owner (m.vp v).status ≠ some v
  lt : ∀ v, held v → v < m.nextVp
  place : ∀ v, held v → ∃ l ∈ m.home (m.vp v), (m.pl l).live = true ∧ (m.pl l).page = (m.vp v).status
  kind : ∀ v, held v → (m.vp v).shared = !(m.vp v).anon
  cow : ∀ v, held v → (m.vp v).rights.w = true → (m.vp v).cow = false
  sole : ∀ v, held v → (m.vp v).anon = true → (m.vp v).cow = false →
    m.owner (m.vp v).status = some v ∧ m.hasShares (m.vp v).status = false

namespace Mem

variable {m : Mem} {p v : ℕ}

theorem hasShares_eq_true : m.hasShares p = true ↔ ∃ v ∈ m.shareTable, (m.vp v).status = p := by
  simp [hasShares]

theorem hasShares_eq_false : m.hasShares p = false ↔ ∀ v ∈ m.shareTable, (m.vp v).status ≠ p := by
  simp [hasShares]

theorem setOwner_owner (p q : ℕ) (o : Option ℕ) :
    (m.setOwner p o).owner q = if q = p then o else m.owner q := by
  simp [setOwner, Function.update_apply]

@[simp] theorem setVp_self (m : Mem) (v : ℕ) (w : Vp) : (m.setVp v w).vp v = w := Function.update_self ..

theorem setVp_ne (m : Mem) (w : Vp) {u v : ℕ} (h : u ≠ v) : (m.setVp v w).vp u = m.vp u := Function.update_of_ne h _ _

theorem home_of_anon {v : Vp} (ha : v.anon = true) : m.home v = m.active := if_pos ha

theorem home_of_not_anon {v : Vp} (ha : v.anon = false) : m.home v = m.cache := by simp [home, ha]

theorem home_subset (v : Vp) : ∀ l ∈ m.home v, l ∈ m.free ++ m.active ++ m.cache := by
  intro l hl
  rw [home] at hl
  split at hl <;> simp [hl]

end Mem

namespace Books

variable {phys : List ℕ} {held held' : ℕ → Prop} {m m' : Mem} {v p l : ℕ} {w : Vp}

theorem congr (h : Books phys held m) (hh : ∀ v, held' v ↔ held v) : Books phys held' m := by
  rwa [funext fun v => propext (hh v)]

theorem of_eq {data : ℕ → Page} {pages : ℕ → List ℕ} (h : Books phys held m) :
    Books phys held { m with data := data, pages := pages } :=
  ⟨h.links, h.free_live, h.dead, h.key, h.owner, h.share, h.share_nodup, h.registered, h.exclusive, h.lt,
    h.place, h.kind, h.cow, h.sole⟩

theorem link_home (h : Books phys held m) (hv : held v) :
    ∃ l ∈ m.home (m.vp v), m.link (m.vp v).status = some l ∧ (m.pl l).live = true ∧
      (m.pl l).page = (m.vp v).status := by
  obtain ⟨l, hl, hlive, hp⟩ := h.place v hv
  refine ⟨l, hl, ?_, hlive, hp⟩
  rw [← hp]
  exact h.links.link l (Mem.home_subset _ l hl) hlive

theorem free_unheld (h : Books phys held m) (hl : l ∈ m.free) (hv : held v) :
    (m.vp v).status ≠ (m.pl l).page := by
  intro he
  obtain ⟨k, hk, hklive, hkp⟩ := h.place v hv
  have hd := h.links.nodup
  rw [List.append_assoc, List.nodup_append] at hd
  have hlk : l = k := h.links.unique (by simp [hl]) (Mem.home_subset _ k hk) (h.free_live l hl) hklive
    (he.symm.trans hkp.symm)
  refine hd.2.2 l hl k ?_ hlk
  rw [Mem.home] at hk
  split at hk <;> simp [hk]

theorem owner_eq_none (h : Books phys held m) (hp : ∀ v, held v → (m.vp v).status ≠ p) : m.owner p = none := by
  cases ho : m.owner p with
  | none => rfl
  | some v =>
    obtain ⟨hv, he⟩ := h.owner p v ho
    exact absurd he (hp v hv)

theorem hasShares_eq_false (h : Books phys held m) (hp : ∀ v, held v → (m.vp v).status ≠ p) :
    m.hasShares p = false :=
  Mem.hasShares_eq_false.mpr fun v hv => hp v (h.share v hv)

theorem unheld (h : Books phys held m) (ho : m.owner p = none) (hs : m.hasShares p = false) (hv : held v) :
    (m.vp v).status ≠ p := by
  intro he
  cases h.registered v hv with
  | inl hr => rw [he, ho] at hr; cases hr
  | inr hr => exact Mem.hasShares_eq_false.mp hs v hr he

theorem sole_holder (h : Books phys held m) (hv : held v) (ha : (m.vp v).anon = true)
    (hc : (m.vp v).cow = false) {u : ℕ} (hu : held u) (he : (m.vp u).status = (m.vp v).status) : u = v := by
  obtain ⟨ho, hs⟩ := h.sole v hv ha hc
  cases h.registered u hu with
  | inl hr =>
    rw [he, ho, Option.some.injEq] at hr
    exact hr.symm
  | inr hr => exact absurd he (Mem.hasShares_eq_false.mp hs u hr)

-- Flags

theorem setVp_unheld (h : Books phys held m) (hv : ¬ held v) : Books phys held (m.setVp v w) := by
  have hne : ∀ u, held u → u ≠ v := fun u hu he => hv (he ▸ hu)
  have hvp : ∀ u, held u → (m.setVp v w).vp u = m.vp u := fun u hu => Function.update_of_ne (hne u hu) _ _
  have hsh : ∀ p, (m.setVp v w).hasShares p = m.hasShares p := fun p => by
    rw [Bool.eq_iff_iff, Mem.hasShares_eq_true, Mem.hasShares_eq_true]
    refine exists_congr fun u => and_congr_right fun hu => ?_
    rw [hvp u (h.share u hu)]
  refine ⟨h.links, h.free_live, h.dead, h.key, fun p u ho => ?_, h.share, h.share_nodup, fun u hu => ?_,
    fun u hu => ?_, h.lt, fun u hu => ?_, fun u hu => ?_, fun u hu => ?_, fun u hu => ?_⟩
  · rw [hvp u (h.owner p u ho).1]
    exact h.owner p u ho
  · rw [hvp u hu]
    exact h.registered u hu
  · rw [hvp u (h.share u hu)]
    exact h.exclusive u hu
  · rw [hvp u hu]
    exact h.place u hu
  · rw [hvp u hu]
    exact h.kind u hu
  · rw [hvp u hu]
    exact h.cow u hu
  · rw [hvp u hu, hsh]
    exact h.sole u hu

theorem setRights {r : Rights} {c : Bool} (h : Books phys held m) (hcow : r.w = true → c = false)
    (hsole : (m.vp v).anon = true → c = false →
      m.owner (m.vp v).status = some v ∧ m.hasShares (m.vp v).status = false) :
    Books phys held (m.setVp v { m.vp v with rights := r, cow := c }) := by
  have hvp : ∀ u, (m.setVp v { m.vp v with rights := r, cow := c }).vp u =
      if u = v then { m.vp v with rights := r, cow := c } else m.vp u := fun u => by
    simp [Mem.setVp, Function.update_apply]
  have hst : ∀ u, ((m.setVp v { m.vp v with rights := r, cow := c }).vp u).status = (m.vp u).status :=
    fun u => by rw [hvp]; split <;> simp [*]
  have han : ∀ u, ((m.setVp v { m.vp v with rights := r, cow := c }).vp u).anon = (m.vp u).anon :=
    fun u => by rw [hvp]; split <;> simp [*]
  have hsd : ∀ u, ((m.setVp v { m.vp v with rights := r, cow := c }).vp u).shared = (m.vp u).shared :=
    fun u => by rw [hvp]; split <;> simp [*]
  have hsh : ∀ p, (m.setVp v { m.vp v with rights := r, cow := c }).hasShares p = m.hasShares p :=
    fun p => by
      rw [Bool.eq_iff_iff, Mem.hasShares_eq_true, Mem.hasShares_eq_true]
      simp only [hst]
      rfl
  refine ⟨h.links, h.free_live, h.dead, h.key, fun p u ho => ?_, h.share, h.share_nodup, fun u hu => ?_,
    fun u hu => ?_, h.lt, fun u hu => ?_, fun u hu => ?_, fun u hu => ?_, fun u hu => ?_⟩
  · rw [hst]
    exact h.owner p u ho
  · rw [hst]
    exact h.registered u hu
  · rw [hst]
    exact h.exclusive u hu
  · rw [hst, Mem.home, han]
    exact h.place u hu
  · rw [han, hsd]
    exact h.kind u hu
  · rw [hvp]
    split
    · exact hcow
    · exact h.cow u hu
  · rw [hst, han, hsh, hvp]
    split
    · next he =>
      subst he
      exact hsole
    · exact h.sole u hu

-- Owners and shares

theorem dropOwner (h : Books phys held m) (ho : m.owner p = some v) :
    Books phys (fun u => held u ∧ u ≠ v) (m.setOwner p none) := by
  have hvp : (m.vp v).status = p := (h.owner p v ho).2
  have hstay : ∀ u, u ≠ v → m.owner (m.vp u).status = some u →
      (m.setOwner p none).owner (m.vp u).status = some u := fun u hu hou => by
    refine (Function.update_of_ne (fun he => hu ?_) _ _).trans hou
    rw [he, ho, Option.some.injEq] at hou
    exact hou.symm
  refine ⟨h.links, h.free_live, h.dead, h.key, fun q u hou => ?_, fun u hu => ?_, h.share_nodup,
    fun u hu => ?_, fun u hu => ?_, fun u hu => h.lt u hu.1, fun u hu => h.place u hu.1,
    fun u hu => h.kind u hu.1, fun u hu => h.cow u hu.1, fun u hu ha hc => ?_⟩
  · rw [Mem.setOwner_owner] at hou
    split at hou
    · cases hou
    · next hq =>
      obtain ⟨hu, he⟩ := h.owner q u hou
      exact ⟨⟨hu, fun huv => hq (he.symm.trans (huv ▸ hvp))⟩, he⟩
  · refine ⟨h.share u hu, fun huv => h.exclusive u hu ?_⟩
    rw [huv, hvp, ho]
  · cases h.registered u hu.1 with
    | inl hr => exact .inl (hstay u hu.2 hr)
    | inr hr => exact .inr hr
  · intro hou
    rw [Mem.setOwner_owner] at hou
    split at hou
    · cases hou
    · exact h.exclusive u hu hou
  · obtain ⟨hou, hs⟩ := h.sole u hu.1 ha hc
    exact ⟨hstay u hu.2 hou, hs⟩

theorem dropShare (h : Books phys held m) (hv : v ∈ m.shareTable) :
    Books phys (fun u => held u ∧ u ≠ v) { m with shareTable := m.shareTable.erase v } := by
  refine ⟨h.links, h.free_live, h.dead, h.key, fun q u hou => ?_, fun u hu => ?_, h.share_nodup.erase v,
    fun u hu => ?_, fun u hu => h.exclusive u (List.mem_of_mem_erase hu), fun u hu => h.lt u hu.1,
    fun u hu => h.place u hu.1, fun u hu => h.kind u hu.1, fun u hu => h.cow u hu.1,
    fun u hu ha hc => ?_⟩
  · obtain ⟨hu, he⟩ := h.owner q u hou
    refine ⟨⟨hu, fun huv => h.exclusive v hv ?_⟩, he⟩
    rw [← huv, he]
    exact hou
  · obtain ⟨huv, hu⟩ := h.share_nodup.mem_erase_iff.mp hu
    exact ⟨h.share u hu, huv⟩
  · cases h.registered u hu.1 with
    | inl hr => exact .inl hr
    | inr hr => exact .inr ((List.mem_erase_of_ne hu.2).mpr hr)
  · obtain ⟨hou, hs⟩ := h.sole u hu.1 ha hc
    rw [Mem.hasShares_eq_false] at hs
    exact ⟨hou, Mem.hasShares_eq_false.mpr fun w hw => hs w (List.mem_of_mem_erase hw)⟩

structure Ready (m : Mem) (v : ℕ) : Prop where
  lt : v < m.nextVp
  place : ∃ l ∈ m.home (m.vp v), (m.pl l).live = true ∧ (m.pl l).page = (m.vp v).status
  kind : (m.vp v).shared = !(m.vp v).anon
  cow : (m.vp v).rights.w = true → (m.vp v).cow = false

theorem takeOwner (h : Books phys held m) (hv : ¬ held v) (hr : Ready m v)
    (ho : m.owner (m.vp v).status = none)
    (hs : (m.vp v).anon = true → (m.vp v).cow = false → m.hasShares (m.vp v).status = false) :
    Books phys (fun u => held u ∨ u = v) (m.setOwner (m.vp v).status (some v)) := by
  have hself : (m.setOwner (m.vp v).status (some v)).owner (m.vp v).status = some v :=
    Function.update_self ..
  have hstay : ∀ u, m.owner (m.vp u).status = some u →
      (m.setOwner (m.vp v).status (some v)).owner (m.vp u).status = some u := fun u hou => by
    refine (Function.update_of_ne (fun he => ?_) _ _).trans hou
    rw [he, ho] at hou
    cases hou
  refine ⟨h.links, h.free_live, h.dead, h.key, fun q u hou => ?_, fun u hu => .inl (h.share u hu),
    h.share_nodup, ?_, fun u hu => ?_, ?_, ?_, ?_, ?_, ?_⟩
  · rw [Mem.setOwner_owner] at hou
    split at hou
    · next hq =>
      cases hou
      exact ⟨.inr rfl, hq.symm⟩
    · obtain ⟨hu, he⟩ := h.owner q u hou
      exact ⟨.inl hu, he⟩
  · rintro u (hu | rfl)
    · exact (h.registered u hu).imp (hstay u) id
    · exact .inl hself
  · intro hou
    rw [Mem.setOwner_owner] at hou
    split at hou
    · cases hou
      exact hv (h.share v hu)
    · exact h.exclusive u hu hou
  · rintro u (hu | rfl)
    exacts [h.lt u hu, hr.lt]
  · rintro u (hu | rfl)
    exacts [h.place u hu, hr.place]
  · rintro u (hu | rfl)
    exacts [h.kind u hu, hr.kind]
  · rintro u (hu | rfl)
    exacts [h.cow u hu, hr.cow]
  · rintro u (hu | rfl) ha hc
    · obtain ⟨hou, hsh⟩ := h.sole u hu ha hc
      exact ⟨hstay u hou, hsh⟩
    · exact ⟨hself, hs ha hc⟩

theorem takeShare (h : Books phys held m) (hv : ¬ held v) (hr : Ready m v)
    (hcow : (m.vp v).anon = true → (m.vp v).cow = true)
    (hothers : ∀ u, held u → (m.vp u).status = (m.vp v).status → (m.vp u).anon = true →
      (m.vp u).cow = true) :
    Books phys (fun u => held u ∨ u = v) { m with shareTable := v :: m.shareTable } := by
  have hvs : v ∉ m.shareTable := fun hs => hv (h.share v hs)
  refine ⟨h.links, h.free_live, h.dead, h.key, fun q u hou => ?_, fun u hu => ?_,
    List.nodup_cons.mpr ⟨hvs, h.share_nodup⟩, ?_, fun u hu => ?_, ?_, ?_, ?_, ?_, ?_⟩
  · obtain ⟨hu, he⟩ := h.owner q u hou
    exact ⟨.inl hu, he⟩
  · exact (List.mem_cons.mp hu).symm.imp (h.share u) id
  · rintro u (hu | rfl)
    · exact (h.registered u hu).imp id (List.mem_cons_of_mem _)
    · exact .inr List.mem_cons_self
  · cases List.mem_cons.mp hu with
    | inl hu =>
      subst hu
      exact fun hou => hv (h.owner _ _ hou).1
    | inr hu => exact h.exclusive u hu
  · rintro u (hu | rfl)
    exacts [h.lt u hu, hr.lt]
  · rintro u (hu | rfl)
    exacts [h.place u hu, hr.place]
  · rintro u (hu | rfl)
    exacts [h.kind u hu, hr.kind]
  · rintro u (hu | rfl)
    exacts [h.cow u hu, hr.cow]
  · rintro u (hu | rfl) ha hc
    · obtain ⟨hou, hsh⟩ := h.sole u hu ha hc
      refine ⟨hou, Mem.hasShares_eq_false.mpr fun w hw => ?_⟩
      cases List.mem_cons.mp hw with
      | inl hw =>
        subst hw
        intro he
        rw [hothers u hu he.symm ha] at hc
        cases hc
      | inr hw => exact Mem.hasShares_eq_false.mp hsh w hw
    · rw [hcow ha] at hc
      cases hc

theorem addShare (h : Books phys held m) (hv : ¬ held v) (hr : Ready m v)
    (hcow : (m.vp v).anon = true → (m.vp v).cow = true)
    (hothers : ∀ u, held u → (m.vp u).status = (m.vp v).status → (m.vp u).anon = true →
      (m.vp u).cow = true) :
    Books phys (fun u => held u ∨ u = v) (m.addShare (m.vp v).status v true).1 := by
  rw [Mem.addShare]
  split
  · next ho =>
    exact h.takeOwner hv hr ho fun ha hc => by rw [hcow ha] at hc; cases hc
  · exact h.takeShare hv hr hcow hothers

theorem rmShare {cfg : Config} {last : Bool} (h : Books phys held m) (hv : held v)
    (hs : m.rmShare cfg v = some (m', last)) :
    Books phys (fun u => held u ∧ u ≠ v) m' ∧
      (last = true → ∀ u, held u ∧ u ≠ v → (m'.vp u).status ≠ (m.vp v).status) ∧
      m'.vp = m.vp ∧ m'.pl = m.pl ∧ m'.link = m.link ∧ m'.free = m.free ∧ m'.active = m.active ∧
      m'.cache = m.cache ∧ m'.pages = m.pages ∧ m'.nextPl = m.nextPl := by
  rw [Mem.rmShare] at hs
  split at hs
  · next ho =>
    cases hs
    have hb := h.dropOwner ho
    refine ⟨hb, fun hlast u hu => hb.unheld (Function.update_self ..) ?_ hu, rfl, rfl, rfl, rfl, rfl,
      rfl, rfl, rfl⟩
    simpa using hlast
  · next ho =>
    obtain ⟨_, -, hs⟩ := Option.bind_eq_some_iff.mp hs
    cases hs
    have hb := h.dropShare ((h.registered v hv).resolve_left ho)
    refine ⟨hb, fun hlast u hu => ?_, rfl, rfl, rfl, rfl, rfl, rfl, rfl, rfl⟩
    rw [Bool.and_eq_true, Option.isNone_iff_eq_none, Bool.not_eq_true'] at hlast
    exact hb.unheld hlast.1 hlast.2 hu

end Books

end Sneks.Vm
