import Sneks.Vm.Residence

/-!
# What holds of the pages between two calls

The books account for exactly the resident virtual pages, and each of these is in one space.
-/

namespace Sneks.Vm
open Lib

variable {cfg : Config} {phys : List ℕ} {m m' : Mem} {v p l pid : ℕ} {mm : LazyMmap}

structure Sound (phys : List ℕ) (m : Mem) : Prop where
  books : Books phys m.Resident m
  nodup : ∀ pid, (m.pages pid).Nodup
  disjoint : ∀ pid pid' v, v ∈ m.pages pid → v ∈ m.pages pid' → pid = pid'

theorem Config.assert_eq_some {q : Prop} [Decidable q] {u : Unit} (hs : cfg.assert q = some u)
    (ha : cfg.asserts = true) : q := by
  rw [Config.assert] at hs
  split at hs
  · cases hs
  · next hno => exact of_not_not fun hq => hno ⟨ha, hq⟩

namespace Mem

-- The hashes of the spaces

theorem addPage_pages (q : ℕ) :
    (m.addPage pid v).pages q = if q = pid then v :: m.pages pid else m.pages q := by
  simp [addPage, Function.update_apply]

theorem dropPage_pages (q : ℕ) :
    (m.dropPage pid v).pages q = if q = pid then (m.pages pid).erase v else m.pages q := by
  simp [dropPage, Function.update_apply]

theorem resident_congr (h : m'.pages = m.pages) : m'.Resident = m.Resident := by
  funext u
  rw [Resident, Resident, h]

theorem resident_addPage (u : ℕ) : (m.addPage pid v).Resident u ↔ m.Resident u ∨ u = v := by
  constructor
  · rintro ⟨q, hq⟩
    rw [addPage_pages] at hq
    split at hq
    · exact (List.mem_cons.mp hq).symm.imp_left fun hq => ⟨pid, hq⟩
    · exact .inl ⟨q, hq⟩
  · rintro (⟨q, hq⟩ | rfl)
    · refine ⟨q, ?_⟩
      rw [addPage_pages]
      split
      · next he => exact List.mem_cons_of_mem _ (he ▸ hq)
      · exact hq
    · exact ⟨pid, by simp [addPage_pages]⟩

theorem addShare_pages (ok : Bool) : (m.addShare p v ok).1.pages = m.pages := by
  rw [addShare]
  split
  · rfl
  · split <;> rfl

theorem attachFresh_pages {b : Page} (hs : m.attachFresh v b = some m') : m'.pages = m.pages := by
  obtain ⟨⟨l, m1⟩, hl, rfl⟩ := Option.map_eq_some_iff.mp hs
  obtain ⟨rest, -, rfl⟩ := getFreePl_eq_some.mp hl
  rfl

theorem loadPage_pages {bump off c : ℕ} {ans : PfAnswer} (hs : m.loadPage cfg mm bump off ans = some (c, m')) :
    m'.pages = m.pages := by
  obtain ⟨⟨l, m1⟩, hl, hs⟩ := Option.bind_eq_some_iff.mp hs
  obtain ⟨rest, -, rfl⟩ := getFreePl_eq_some.mp hl
  obtain ⟨_, -, hs⟩ := Option.bind_eq_some_iff.mp hs
  obtain ⟨_, -, hs⟩ := Option.bind_eq_some_iff.mp hs
  obtain ⟨_, -, hs⟩ := Option.bind_eq_some_iff.mp hs
  cases hs
  rfl

theorem findOrLoad_pages {page c : ℕ} {ans : PfAnswer} (hs : m.findOrLoad cfg mm page ans = some (c, m')) :
    m'.pages = m.pages := by
  rw [findOrLoad] at hs
  split at hs
  · cases hs
    rfl
  · exact loadPage_pages hs

theorem pfMmapShared_pages {page : ℕ} {ans : PfAnswer} (hs : m.pfMmapShared cfg v mm page ans = some m') :
    m'.pages = m.pages := by
  obtain ⟨⟨c, m1⟩, hc, hs⟩ := Option.bind_eq_some_iff.mp hs
  simp only at hs
  split at hs
  · exact (attachFresh_pages hs).trans (findOrLoad_pages hc)
  · cases hs
    have h1 := findOrLoad_pages hc
    exact (addShare_pages _).trans h1

theorem pfMmapPrivate_pages {page : ℕ} {ans : PfAnswer} (hs : m.pfMmapPrivate cfg v mm page ans = some m') :
    m'.pages = m.pages := by
  obtain ⟨⟨c, loaded, m1⟩, hc, hs⟩ := Option.bind_eq_some_iff.mp hs
  obtain ⟨m2, hm2, hs⟩ := Option.bind_eq_some_iff.mp hs
  have h1 : m1.pages = m.pages := by
    rw [fetchCachedPage] at hc
    split at hc
    · cases hc
      rfl
    · obtain ⟨⟨c', m3⟩, hl, he⟩ := Option.map_eq_some_iff.mp hc
      cases he
      have h3 := loadPage_pages hl
      exact h3
  have h2 := (attachFresh_pages hm2).trans h1
  split at hs
  · obtain ⟨_, -, hs⟩ := Option.bind_eq_some_iff.mp hs
    cases hs
    exact h2
  · cases hs
    exact h2

theorem pfMmap_pages {page : ℕ} {rwx : Rights} {ans : PfAnswer}
    (hs : m.pfMmap cfg pid mm page rwx ans = some (v, m')) :
    v = m.nextVp ∧ m'.pages = (m.addPage pid v).pages := by
  obtain ⟨m1, hm1, he⟩ := Option.map_eq_some_iff.mp hs
  cases he
  have h1 : m1.pages = m.pages := by
    rw [pfRepair] at hm1
    split at hm1
    · obtain ⟨m2, hm2, rfl⟩ := Option.map_eq_some_iff.mp hm1
      have h2 := pfMmapShared_pages hm2
      refine Eq.trans ?_ h2
      rw [markCow]
      split <;> rfl
    · split at hm1
      · have h2 := attachFresh_pages hm1
        exact h2
      · have h2 := pfMmapPrivate_pages hm1
        exact h2
  refine ⟨rfl, ?_⟩
  rw [addPage, addPage, h1]

theorem pfCow_pages (hs : m.pfCow cfg v = some m') : m'.pages = m.pages := by
  obtain ⟨_, -, hs⟩ := Option.bind_eq_some_iff.mp hs
  obtain ⟨_, -, hs⟩ := Option.bind_eq_some_iff.mp hs
  obtain ⟨m1, hm1, hs⟩ := Option.bind_eq_some_iff.mp hs
  have h1 : m1.pages = m.pages := by
    rw [dropSecondary] at hm1
    split at hm1
    · cases hm1
      rfl
    · split at hm1
      · cases hm1
        rfl
      · cases hm1
  split at hs
  · obtain ⟨_, -, hs⟩ := Option.bind_eq_some_iff.mp hs
    cases hs
    exact h1
  · refine (attachFresh_pages hs).trans (Eq.trans ?_ h1)
    split <;> rfl

structure Shrinks (m m' : Mem) : Prop where
  vp : m'.vp = m.vp
  next : m'.nextVp = m.nextVp
  pages : ∀ q, m'.pages q ⊆ m.pages q

theorem Shrinks.refl (m : Mem) : m.Shrinks m := ⟨rfl, rfl, fun _ _ hv => hv⟩

theorem Shrinks.trans {m'' : Mem} (h : m.Shrinks m') (h' : m'.Shrinks m'') : m.Shrinks m'' :=
  ⟨h'.vp.trans h.vp, h'.next.trans h.next, fun q _ hv => h.pages q (h'.pages q hv)⟩

theorem rmShare_frame {last : Bool} (hs : m.rmShare cfg v = some (m', last)) :
    m'.pages = m.pages ∧ m'.vp = m.vp ∧ m'.nextVp = m.nextVp := by
  rw [rmShare] at hs
  split at hs
  · cases hs
    exact ⟨rfl, rfl, rfl⟩
  · obtain ⟨_, -, hs⟩ := Option.bind_eq_some_iff.mp hs
    cases hs
    exact ⟨rfl, rfl, rfl⟩

theorem removeVp_frame (hs : m.removeVp cfg v = some m') :
    m'.pages = m.pages ∧ m'.vp = m.vp ∧ m'.nextVp = m.nextVp := by
  obtain ⟨l, -, hs⟩ := Option.bind_eq_some_iff.mp hs
  split at hs
  · obtain ⟨_, -, hs⟩ := Option.bind_eq_some_iff.mp hs
    obtain ⟨_, -, hs⟩ := Option.bind_eq_some_iff.mp hs
    cases hs
    exact ⟨rfl, rfl, rfl⟩
  · obtain ⟨⟨m1, last⟩, hr, hs⟩ := Option.bind_eq_some_iff.mp hs
    cases hs
    have hframe := rmShare_frame hr
    split <;> exact hframe

theorem removeVp_pages (hs : m.removeVp cfg v = some m') : m'.pages = m.pages := (removeVp_frame hs).1

theorem removeVp_vp (hs : m.removeVp cfg v = some m') : m'.vp = m.vp := (removeVp_frame hs).2.1

theorem forkPage_pages (dest cur : ℕ) :
    (m.forkPage dest cur true).1.pages = (m.addPage dest m.nextVp).pages := by
  rw [forkPage_ok]
  refine (addShare_pages _).trans ?_
  simp only [forkMark]
  split <;> rfl

theorem forkPages_pages {dest q : ℕ} {ans : ForkAnswer} {order : List ℕ} {copy ok : Bool}
    (hans : ∀ v ∈ order, ans.share v = true) (hs : m.forkPages cfg dest ans copy order = some (m', ok)) (hq : q ≠ dest) :
    m'.pages q = m.pages q := by
  induction order generalizing m copy with
  | nil =>
    cases hs
    rfl
  | cons cur rest ih =>
    have hrest : ∀ v ∈ rest, ans.share v = true := fun v hv => hans v (List.mem_cons_of_mem _ hv)
    obtain ⟨_, -, hs⟩ := Option.bind_eq_some_iff.mp hs
    split at hs
    · cases hs
      rfl
    split at hs
    · exact ih hrest hs
    split at hs
    · cases hs
    split at hs
    · cases hs
      rfl
    rw [hans cur List.mem_cons_self, show m.forkPage dest cur true = ((m.forkPage dest cur true).1, true) by
      rw [forkPage_ok]] at hs
    rw [ih hrest hs, forkPage_pages, addPage_pages, if_neg hq]

theorem addShare_vp (ok : Bool) : (m.addShare p v ok).1.vp = m.vp := by
  rw [addShare]
  split
  · rfl
  · split <;> rfl

theorem forkPage_vp (dest : ℕ) {cur u : ℕ} (hcur : u ≠ cur) (hnext : u ≠ m.nextVp) :
    (m.forkPage dest cur true).1.vp u = m.vp u := by
  rw [forkPage_ok]
  refine (congrFun (addShare_vp true) u).trans ?_
  simp only [forkMark]
  split
  · exact (Function.update_of_ne hcur _ _).trans (Function.update_of_ne hnext _ _)
  · exact Function.update_of_ne hnext _ _

theorem popPage_eq_some {r : ℕ × Mem} (hs : m.popPage pid p = some r) :
    r.1 ∈ m.pages pid ∧ (m.vp r.1).addr = p ∧ r.2 = m.dropPage pid r.1 := by
  obtain ⟨v, hv, rfl⟩ := Option.map_eq_some_iff.mp hs
  exact ⟨List.mem_of_find?_eq_some hv, by simpa using List.find?_some hv, rfl⟩

theorem dropPage_subset (m : Mem) (pid v q : ℕ) : (m.dropPage pid v).pages q ⊆ m.pages q := fun w hw => by
  rw [dropPage_pages] at hw
  split at hw
  · next he => exact he ▸ List.mem_of_mem_erase hw
  · exact hw

theorem dropPage_shrinks (m : Mem) (pid v : ℕ) : m.Shrinks (m.dropPage pid v) := ⟨rfl, rfl, m.dropPage_subset pid v⟩

theorem removeVp_shrinks (hs : m.removeVp cfg v = some m') : m.Shrinks m' := by
  obtain ⟨hpages, hvp, hnext⟩ := removeVp_frame hs
  exact ⟨hvp, hnext, fun q _ hu => hpages ▸ hu⟩

theorem removeVps_shrinks {n pos : ℕ} (hs : removeVps cfg pid n pos m = some m') : m.Shrinks m' := by
  induction n generalizing pos m with
  | zero =>
    cases hs
    exact .refl _
  | succ n ih =>
    rw [removeVps] at hs
    split at hs
    · exact ih hs
    · next v m1 hv =>
      obtain ⟨m2, hm2, hs⟩ := Option.bind_eq_some_iff.mp hs
      obtain ⟨-, -, hm1⟩ := popPage_eq_some hv
      rw [show m1 = m.dropPage pid v from hm1] at hm2
      exact (m.dropPage_shrinks pid v).trans ((removeVp_shrinks hm2).trans (ih hs))

theorem removeVpRange_shrinks {addr size : ℕ} (hs : m.removeVpRange cfg pid addr size = some m') : m.Shrinks m' := by
  obtain ⟨m1, hm1, rfl⟩ := Option.map_eq_some_iff.mp hs
  exact (removeVps_shrinks hm1).trans ⟨rfl, rfl, fun _ _ hu => hu⟩

theorem eraseVps_shrinks {order : List ℕ} (hs : eraseVps cfg pid order m = some m') : m.Shrinks m' := by
  induction order generalizing m with
  | nil =>
    cases hs
    exact .refl _
  | cons v rest ih =>
    obtain ⟨m1, hm1, hs⟩ := Option.bind_eq_some_iff.mp hs
    exact (m.dropPage_shrinks pid v).trans ((removeVp_shrinks hm1).trans (ih hs))

theorem eraseVps_pages {order : List ℕ} (h : order.Perm (m.pages pid)) (hs : eraseVps cfg pid order m = some m') :
    m'.pages pid = [] := by
  induction order generalizing m with
  | nil =>
    cases hs
    exact h.nil_eq.symm
  | cons v rest ih =>
    obtain ⟨m1, hm1, hs⟩ := Option.bind_eq_some_iff.mp hs
    refine ih ?_ hs
    rw [removeVp_pages hm1, dropPage_pages, if_pos rfl]
    exact (List.cons_perm_iff_perm_erase.mp h).2

end Mem

namespace Sound

theorem congr (h : Sound phys m) (hb : Books phys m.Resident m') (hp : m'.pages = m.pages) : Sound phys m' where
  books := by rwa [Mem.resident_congr hp]
  nodup := by rw [hp]; exact h.nodup
  disjoint := by rw [hp]; exact h.disjoint

theorem add (h : Sound phys m) (hv : ¬ m.Resident v) (hb : Books phys (fun u => m.Resident u ∨ u = v) m')
    (hp : m'.pages = (m.addPage pid v).pages) : Sound phys m' where
  books := by
    rw [Mem.resident_congr hp]
    exact hb.congr Mem.resident_addPage
  nodup q := by
    rw [hp, Mem.addPage_pages]
    split
    · exact List.nodup_cons.mpr ⟨fun hm => hv ⟨pid, hm⟩, h.nodup pid⟩
    · exact h.nodup q
  disjoint q q' u hq hq' := by
    rw [hp, Mem.addPage_pages] at hq hq'
    split at hq <;> split at hq'
    · next he he' => exact he.trans he'.symm
    · next he he' =>
      cases List.mem_cons.mp hq with
      | inl hu => exact absurd ⟨q', hu ▸ hq'⟩ hv
      | inr hu => exact he.trans (h.disjoint pid q' u hu hq')
    · next he he' =>
      cases List.mem_cons.mp hq' with
      | inl hu => exact absurd ⟨q, hu ▸ hq⟩ hv
      | inr hu => exact (h.disjoint q pid u hq hu).trans he'.symm
    · exact h.disjoint q q' u hq hq'

theorem resident_dropPage (h : Sound phys m) (hv : v ∈ m.pages pid) (u : ℕ) :
    (m.dropPage pid v).Resident u ↔ m.Resident u ∧ u ≠ v := by
  constructor
  · rintro ⟨q, hq⟩
    rw [Mem.dropPage_pages] at hq
    split at hq
    · obtain ⟨hne, hu⟩ := (h.nodup pid).mem_erase_iff.mp hq
      exact ⟨⟨pid, hu⟩, hne⟩
    · next hqp => exact ⟨⟨q, hq⟩, fun he => hqp (h.disjoint q pid v (he ▸ hq) hv)⟩
  · rintro ⟨⟨q, hq⟩, hne⟩
    refine ⟨q, ?_⟩
    rw [Mem.dropPage_pages]
    split
    · next he => exact (List.mem_erase_of_ne hne).mpr (he ▸ hq)
    · exact hq

theorem remove (h : Sound phys m) (hv : v ∈ m.pages pid)
    (hs : (m.dropPage pid v).removeVp cfg v = some m') : Sound phys m' := by
  have hp := Mem.removeVp_pages hs
  have hb : Books phys m.Resident (m.dropPage pid v) := h.books.of_eq
  refine ⟨?_, fun q => ?_, fun q q' u hq hq' => ?_⟩
  · rw [Mem.resident_congr hp]
    exact (hb.removeVp ⟨pid, hv⟩ hs).congr (h.resident_dropPage hv)
  · rw [hp, Mem.dropPage_pages]
    split
    · exact (h.nodup pid).erase v
    · exact h.nodup q
  · rw [hp] at hq hq'
    exact h.disjoint q q' u (m.dropPage_subset pid v q hq) (m.dropPage_subset pid v q' hq')

theorem flush (h : Sound phys m) : Sound phys m.flushPlbuf := h.congr h.books.flushPlbuf rfl

theorem removeVps {n pos : ℕ} (h : Sound phys m) (hs : Mem.removeVps cfg pid n pos m = some m') :
    Sound phys m' := by
  induction n generalizing pos m with
  | zero =>
    cases hs
    exact h
  | succ n ih =>
    rw [Mem.removeVps] at hs
    split at hs
    · exact ih h hs
    · next v m1 hv =>
      obtain ⟨m2, hm2, hs⟩ := Option.bind_eq_some_iff.mp hs
      obtain ⟨hmem, -, hm1⟩ := Mem.popPage_eq_some hv
      rw [show m1 = m.dropPage pid v from hm1] at hm2
      exact ih (h.remove hmem hm2) hs

theorem removeVpRange {addr size : ℕ} (h : Sound phys m)
    (hs : m.removeVpRange cfg pid addr size = some m') : Sound phys m' := by
  obtain ⟨m1, hm1, rfl⟩ := Option.map_eq_some_iff.mp hs
  exact (h.removeVps hm1).flush

theorem eraseVps {order : List ℕ} (h : Sound phys m) (hnodup : order.Nodup)
    (hsub : ∀ v ∈ order, v ∈ m.pages pid) (hs : Mem.eraseVps cfg pid order m = some m') : Sound phys m' := by
  induction order generalizing m with
  | nil =>
    cases hs
    exact h
  | cons v rest ih =>
    obtain ⟨m1, hm1, hs⟩ := Option.bind_eq_some_iff.mp hs
    obtain ⟨hv, hrest⟩ := List.nodup_cons.mp hnodup
    refine ih (h.remove (hsub v List.mem_cons_self) hm1) hrest (fun u hu => ?_) hs
    rw [Mem.removeVp_pages hm1, Mem.dropPage_pages, if_pos rfl]
    have hne : u ≠ v := fun he => hv (he ▸ hu)
    exact (List.mem_erase_of_ne hne).mpr (hsub u (List.mem_cons_of_mem _ hu))

theorem not_resident_next (h : Sound phys m) : ¬ m.Resident m.nextVp :=
  fun hr => Nat.lt_irrefl _ (h.books.lt _ hr)

theorem newVp (h : Sound phys m) (w : Vp) : Sound phys (m.newVp w).2 ∧ ¬ (m.newVp w).2.Resident m.nextVp :=
  ⟨⟨h.books.newVp h.not_resident_next w, h.nodup, h.disjoint⟩, h.not_resident_next⟩

theorem pfMmap {page : ℕ} {rwx : Rights} {ans : PfAnswer} (h : Sound phys m)
    (hmm : mm.anon = true → mm.shared = true → mm.fsidIno ≠ 0) (hans : ans.share = true)
    (hs : m.pfMmap cfg pid mm page rwx ans = some (v, m')) : Sound phys m' := by
  obtain ⟨rfl, hb⟩ := h.books.pfMmap h.not_resident_next hmm hans hs
  exact h.add h.not_resident_next hb (Mem.pfMmap_pages hs).2

theorem pfCow (h : Sound phys m) (hv : v ∈ m.pages pid) (hs : m.pfCow cfg v = some m') : Sound phys m' :=
  h.congr (h.books.pfCow ⟨pid, hv⟩ hs) (Mem.pfCow_pages hs)

theorem freeCached (h : Sound phys m) (hl : l ∈ m.cache) (hlive : (m.pl l).live = true)
    (hno : ∀ v, m.Resident v → (m.vp v).status ≠ (m.pl l).page) : Sound phys (m.freePage l) :=
  h.congr (h.books.freePage (List.mem_append_right _ hl) hlive hno) rfl

/-- What `fork_pages` may copy: an anonymous page that can be written to, or will be when it is
    copied. -/
def ForkReady (m : Mem) (v : ℕ) : Prop :=
  (m.vp v).anon = true → (m.vp v).cow = true ∨ (m.vp v).rights.w = true

theorem forkPages {dest : ℕ} {ans : ForkAnswer} {order : List ℕ} {copy ok : Bool} (h : Sound phys m)
    (hres : ∀ v ∈ order, m.Resident v) (hnodup : order.Nodup) (hans : ∀ v ∈ order, ans.share v = true)
    (hready : cfg.asserts = true ∨ ∀ v ∈ order, ForkReady m v)
    (hs : m.forkPages cfg dest ans copy order = some (m', ok)) : Sound phys m' := by
  induction order generalizing m copy with
  | nil =>
    cases hs
    exact h
  | cons cur rest ih =>
    obtain ⟨hcur, hrest⟩ := List.nodup_cons.mp hnodup
    have hcr := hres cur List.mem_cons_self
    have hsub : ∀ v ∈ rest, v ∈ cur :: rest := fun v => List.mem_cons_of_mem _
    obtain ⟨_, hassert, hs⟩ := Option.bind_eq_some_iff.mp hs
    have hcurReady : ForkReady m cur := by
      cases hready with
      | inl ha =>
        intro _
        have hx := Config.assert_eq_some hassert ha
        cases hc : (m.vp cur).cow with
        | true => exact .inl rfl
        | false => exact .inr (by simpa [hc] using hx)
      | inr hr => exact hr cur List.mem_cons_self
    split at hs
    · cases hs
      exact h
    split at hs
    · exact ih h (fun v hv => hres v (hsub v hv)) hrest (fun v hv => hans v (hsub v hv))
        (hready.imp_right fun hr v hv => hr v (hsub v hv)) hs
    split at hs
    · cases hs
    split at hs
    · cases hs
      exact h
    next hns _ =>
    rw [hans cur List.mem_cons_self, show m.forkPage dest cur true = ((m.forkPage dest cur true).1, true) by
      rw [Mem.forkPage_ok]] at hs
    have hanon : (m.vp cur).anon = true := by
      have hk := h.books.kind cur hcr
      rw [Bool.eq_false_iff.mpr hns] at hk
      simpa using hk.symm
    have h1 := h.add h.not_resident_next
      (h.books.forkPage dest h.not_resident_next hcr (hcurReady hanon))
      (Mem.forkPage_pages dest cur)
    refine ih h1 (fun v hv => ?_) hrest (fun v hv => hans v (hsub v hv))
      (hready.imp_right fun hr v hv => ?_) hs
    · rw [Mem.resident_congr (Mem.forkPage_pages dest cur)]
      exact (Mem.resident_addPage v).mpr (.inl (hres v (hsub v hv)))
    · have hne : v ≠ cur := fun he => hcur (he ▸ hv)
      have hnn : v ≠ m.nextVp := fun he => h.not_resident_next (he ▸ hres v (hsub v hv))
      rw [ForkReady, Mem.forkPage_vp dest hne hnn]
      exact hr v (hsub v hv)

end Sound

end Sneks.Vm
