import Sneks.Vm.Cases
import Sneks.Vm.Forkable
import Sneks.Vm.Munmap

/-!
# Where the resident pages lie

In every state that is reached the virtual pages of a space are at different addresses, and each is
at the start of a page.
-/

namespace Sneks.Vm
open Lib State

variable {cfg : Config} {phys : PhysMem} {s t : State} {m m' : Mem} {v pid i : ℕ} {mm : LazyMmap}

namespace Mem

structure Stays (m m' : Mem) : Prop where
  addr : ∀ u, (m'.vp u).addr = (m.vp u).addr
  next : m'.nextVp = m.nextVp

namespace Stays

theorem of_eq (hvp : m'.vp = m.vp) (hnext : m'.nextVp = m.nextVp) : m.Stays m' := ⟨fun _ => by rw [hvp], hnext⟩

theorem trans {m'' : Mem} (h : m.Stays m') (h' : m'.Stays m'') : m.Stays m'' :=
  ⟨fun u => (h'.addr u).trans (h.addr u), h'.next.trans h.next⟩

theorem setVp {w : Vp} (hw : w.addr = (m.vp v).addr) : m.Stays (m.setVp v w) where
  addr u := by
    by_cases he : u = v
    · rw [he, setVp_self, hw]
    · rw [setVp_ne _ _ he]
  next := rfl

theorem of_repairs (h : m.Repairs m' v) (hv : (m'.vp v).addr = (m.vp v).addr) : m.Stays m' where
  addr u := by
    by_cases he : u = v
    · rw [he, hv]
    · rw [h.others u he]
  next := h.next

theorem attachFresh {b : Page} (hs : m.attachFresh v b = some m') : m.Stays m' := by
  refine of_repairs (attachFresh_repairs hs) ?_
  obtain ⟨⟨l, m1⟩, hl, rfl⟩ := Option.map_eq_some_iff.mp hs
  obtain ⟨rest, -, rfl⟩ := getFreePl_eq_some.mp hl
  have hself : Function.update m.vp v { m.vp v with status := (m.pl l).page, anon := true } v =
      { m.vp v with status := (m.pl l).page, anon := true } := Function.update_self ..
  have haddr := congrArg Vp.addr hself
  exact haddr

theorem pfMmapShared {page : ℕ} {ans : PfAnswer} (hs : m.pfMmapShared cfg v mm page ans = some m') : m.Stays m' := by
  obtain ⟨⟨c, m1⟩, hc, hs⟩ := Option.bind_eq_some_iff.mp hs
  have hload : m.Stays m1 := by
    rw [findOrLoad] at hc
    split at hc
    · cases hc
      exact .of_eq rfl rfl
    · obtain ⟨hvp, hnext⟩ := loadPage_vp hc
      exact .of_eq hvp hnext
  dsimp only at hs
  split at hs
  · exact hload.trans (.attachFresh hs)
  · obtain rfl := Option.some.inj hs
    refine hload.trans ((Stays.setVp (v := v) (w := { m1.vp v with status := (m1.pl c).page, shared := true }) rfl).trans ?_)
    exact .of_eq (addShare_vp _) (addShare_nextVp _)

theorem pfMmapPrivate {page : ℕ} {ans : PfAnswer} (hs : m.pfMmapPrivate cfg v mm page ans = some m') : m.Stays m' := by
  obtain ⟨⟨c, loaded, m1⟩, hc, hs⟩ := Option.bind_eq_some_iff.mp hs
  obtain ⟨m2, hm2, hs⟩ := Option.bind_eq_some_iff.mp hs
  have hload : m.Stays m1 := by
    rw [fetchCachedPage] at hc
    split at hc
    · cases hc
      exact .of_eq rfl rfl
    · obtain ⟨⟨c', m3⟩, hl, he⟩ := Option.map_eq_some_iff.mp hc
      cases he
      obtain ⟨hvp, hnext⟩ := loadPage_vp hl
      exact .of_eq hvp hnext
  have hattach := hload.trans (.attachFresh hm2)
  split at hs
  · obtain ⟨_, -, hs⟩ := Option.bind_eq_some_iff.mp hs
    cases hs
    exact hattach.trans (.of_eq rfl rfl)
  · cases hs
    exact hattach

theorem pfRepair {page : ℕ} {rwx : Rights} {ans : PfAnswer} (hs : m.pfRepair cfg v mm page rwx ans = some m') :
    m.Stays m' := by
  rw [Mem.pfRepair] at hs
  split at hs
  · obtain ⟨m1, hm1, rfl⟩ := Option.map_eq_some_iff.mp hs
    refine (pfMmapShared hm1).trans ?_
    rw [markCow]
    split
    · exact .setVp rfl
    · exact .of_eq rfl rfl
  split at hs
  · exact .attachFresh hs
  · exact pfMmapPrivate hs

theorem pfCow (hs : m.pfCow cfg v = some m') : m.Stays m' := by
  obtain ⟨_, -, hs⟩ := Option.bind_eq_some_iff.mp hs
  obtain ⟨_, -, hs⟩ := Option.bind_eq_some_iff.mp hs
  obtain ⟨m1, hm1, hs⟩ := Option.bind_eq_some_iff.mp hs
  obtain ⟨hvp, hnext⟩ := Forkable.dropSecondary_vp hm1
  have hdrop : m.Stays m1 := .of_eq hvp hnext
  have haddr : (m.vp v).addr = (m1.vp v).addr := (hdrop.addr v).symm
  split at hs
  · obtain ⟨_, -, hs⟩ := Option.bind_eq_some_iff.mp hs
    cases hs
    exact (hdrop.trans (.of_eq rfl rfl : m1.Stays (m1.setOwner (m.vp v).status (some v)))).trans (.setVp haddr)
  · refine hdrop.trans (Stays.trans (Stays.setVp (v := v) (w := (m.vp v).copied) haddr) ?_)
    refine Stays.trans ?_ (.attachFresh hs)
    split <;> exact .of_eq rfl rfl

end Stays

-- Removing

theorem dropPage_sublist (m : Mem) (pid v q : ℕ) : ((m.dropPage pid v).pages q).Sublist (m.pages q) := by
  rw [dropPage_pages]
  split
  · next he => exact he ▸ List.erase_sublist
  · exact .refl _

theorem removeVpRange_sublist {addr size : ℕ} (hs : m.removeVpRange cfg pid addr size = some m') (q : ℕ) :
    (m'.pages q).Sublist (m.pages q) := by
  have key : ∀ (n pos : ℕ) (m m' : Mem), removeVps cfg pid n pos m = some m' → (m'.pages q).Sublist (m.pages q) := by
    intro n
    induction n with
    | zero =>
      intro pos m m' hs
      cases hs
      exact .refl _
    | succ n ih =>
      intro pos m m' hs
      rw [removeVps] at hs
      split at hs
      · exact ih _ _ _ hs
      · next v m1 hv =>
        obtain ⟨m2, hm2, hs⟩ := Option.bind_eq_some_iff.mp hs
        obtain ⟨-, -, hm1⟩ := popPage_eq_some hv
        rw [show m1 = m.dropPage pid v from hm1] at hm2
        have hrest := ih _ _ _ hs
        rw [removeVp_pages hm2] at hrest
        exact List.Sublist.trans hrest (m.dropPage_sublist pid v q)
  obtain ⟨m1, hm1, rfl⟩ := Option.map_eq_some_iff.mp hs
  have hsub := key _ _ _ _ hm1
  exact hsub

theorem eraseVps_sublist {order : List ℕ} (hs : eraseVps cfg pid order m = some m') (q : ℕ) :
    (m'.pages q).Sublist (m.pages q) := by
  induction order generalizing m with
  | nil =>
    cases hs
    exact .refl _
  | cons v rest ih =>
    obtain ⟨m1, hm1, hs⟩ := Option.bind_eq_some_iff.mp hs
    have hrest := ih hs
    rw [removeVp_pages hm1] at hrest
    exact List.Sublist.trans hrest (m.dropPage_sublist pid v q)

end Mem

theorem Edits.sublist (h : Edits cfg s t) (q : ℕ) : (t.mem.pages q).Sublist (s.mem.pages q) := by
  refine h.keeps (P := fun u => (u.mem.pages q).Sublist (s.mem.pages q)) (fun u v he hu => ?_) (.refl _)
  cases he with
  | space | resize | copy | new | table | anonIno => exact hu
  | remove _ _ _ _ hm => exact List.Sublist.trans (Mem.removeVpRange_sublist hm q) hu
  | cut _ _ _ _ hcut =>
    obtain ⟨m, rfl, hm⟩ := State.cutAnonMmap_same hcut
    show (m.pages q).Sublist _
    rw [hm.1]
    exact hu

-- The invariant

structure Mem.Addressed (m : Mem) : Prop where
  lt : ∀ v, m.Resident v → v < m.nextVp
  paged : ∀ pid, Paged m pid

namespace Mem.Addressed

theorem shrink (h : m.Addressed) (hs : m.Shrinks m') (hsub : ∀ q, (m'.pages q).Sublist (m.pages q)) : m'.Addressed := by
  refine ⟨fun v ⟨q, hq⟩ => hs.next ▸ h.lt v ⟨q, hs.pages q hq⟩, fun q => ⟨?_, fun v hv => ?_⟩⟩
  · rw [hs.vp]
    exact List.Pairwise.sublist (hsub q) (h.paged q).distinct
  · rw [hs.vp]
    exact (h.paged q).aligned v (hs.pages q hv)

theorem edits (h : s.mem.Addressed) (he : Edits cfg s t) : t.mem.Addressed := h.shrink he.shrinks he.sublist

theorem stay (h : m.Addressed) (hs : m.Stays m') (hp : m'.pages = m.pages) : m'.Addressed := by
  refine ⟨fun v hv => ?_, fun q => ⟨?_, fun v hv => ?_⟩⟩
  · rw [hs.next]
    exact h.lt v (resident_congr hp ▸ hv)
  · rw [hp]
    exact (h.paged q).distinct.imp fun {u w} hne => by rwa [hs.addr u, hs.addr w]
  · rw [hs.addr v]
    exact (h.paged q).aligned v (hp ▸ hv)

theorem newVp (h : m.Addressed) (w : Vp) : (m.newVp w).2.Addressed := by
  have hold : ∀ q, ∀ v ∈ m.pages q, (m.newVp w).2.vp v = m.vp v := fun q v hv =>
    Function.update_of_ne (Nat.ne_of_lt (h.lt v ⟨q, hv⟩)) _ _
  refine ⟨fun v hv => Nat.lt_succ_of_lt (h.lt v hv), fun q => ⟨?_, fun v hv => ?_⟩⟩
  · exact (h.paged q).distinct.imp_of_mem fun {u x} hu hx hne => by rwa [hold q u hu, hold q x hx]
  · rw [hold q v hv]
    exact (h.paged q).aligned v hv

theorem add (h : m.Addressed) (hv : v < m.nextVp) (halign : (m.vp v).addr % pageSize = 0)
    (hfree : ∀ u ∈ m.pages pid, (m.vp u).addr ≠ (m.vp v).addr) (hp : m'.pages = (m.addPage pid v).pages)
    (hs : m.Stays m') : m'.Addressed := by
  have hadd : (m.addPage pid v).Addressed := by
    refine ⟨fun u hu => ?_, fun q => ?_⟩
    · obtain hu | rfl := (resident_addPage u).mp hu
      · exact h.lt u hu
      · exact hv
    · by_cases hq : q = pid
      · have hpages : (m.addPage pid v).pages q = v :: m.pages pid := by rw [addPage_pages, if_pos hq]
        refine ⟨?_, fun u hu => ?_⟩
        · rw [hpages]
          exact List.pairwise_cons.mpr ⟨fun u hu => (hfree u hu).symm, (h.paged pid).distinct⟩
        · rw [hpages] at hu
          obtain rfl | hu := List.mem_cons.mp hu
          · exact halign
          · exact (h.paged pid).aligned u hu
      · have hpages : (m.addPage pid v).pages q = m.pages q := by rw [addPage_pages, if_neg hq]
        exact ⟨hpages ▸ (h.paged q).distinct, fun u hu => (h.paged q).aligned u (hpages ▸ hu)⟩
  exact hadd.stay ⟨hs.addr, hs.next⟩ hp

theorem pfMmap {page : ℕ} {rwx : Rights} {ans : PfAnswer} (h : m.Addressed) (halign : page % pageSize = 0)
    (hfree : ∀ u ∈ m.pages pid, (m.vp u).addr ≠ page) (hs : m.pfMmap cfg pid mm page rwx ans = some (v, m')) :
    m'.Addressed := by
  obtain ⟨rfl, hp⟩ := pfMmap_pages hs
  obtain ⟨m1, hm1, he⟩ := Option.map_eq_some_iff.mp hs
  cases he
  have hself : ((m.newVp ⟨page, mm.rights, false, false, false, 0⟩).2.vp m.nextVp).addr = page := by
    rw [Mem.newVp, setVp_self]
  have hstay := Stays.pfRepair hm1
  have hnone : ∀ u ∈ m.pages pid, ((m.newVp ⟨page, mm.rights, false, false, false, 0⟩).2.vp u).addr ≠
      ((m.newVp ⟨page, mm.rights, false, false, false, 0⟩).2.vp m.nextVp).addr := fun u hu => by
    rw [hself, show (m.newVp ⟨page, mm.rights, false, false, false, 0⟩).2.vp u = m.vp u from
      Function.update_of_ne (Nat.ne_of_lt (h.lt u ⟨pid, hu⟩)) _ _]
    exact hfree u hu
  refine (h.newVp ⟨page, mm.rights, false, false, false, 0⟩).add (Nat.lt_succ_self m.nextVp) ?_ hnone hp
    ⟨hstay.addr, hstay.next⟩
  rw [hself]
  exact halign

-- fork

theorem forkPage {dest cur : ℕ} {share ok : Bool} (h : m.Addressed) (hcur : m.Resident cur)
    (halign : (m.vp cur).addr % pageSize = 0) (hfree : ∀ u ∈ m.pages dest, (m.vp u).addr ≠ (m.vp cur).addr)
    (hs : m.forkPage dest cur share = (m', ok)) :
    m'.Addressed ∧ m'.pages = (m.addPage dest m.nextVp).pages ∧ (∀ u, u ≠ m.nextVp → (m'.vp u).addr = (m.vp u).addr) ∧
      (m'.vp m.nextVp).addr = (m.vp cur).addr := by
  have hne : cur ≠ m.nextVp := Nat.ne_of_lt (h.lt cur hcur)
  have hself : (m.newVp (m.vp cur).forked).2.vp m.nextVp = (m.vp cur).forked := by rw [Mem.newVp, setVp_self]
  have hother : ∀ u, u ≠ m.nextVp → (m.newVp (m.vp cur).forked).2.vp u = m.vp u := fun u hu => Function.update_of_ne hu _ _
  have hmark : (m.newVp (m.vp cur).forked).2.Stays (m.forkMark dest cur) ∧
      (m.forkMark dest cur).pages = (m.addPage dest m.nextVp).pages := by
    simp only [forkMark]
    split
    · have hcurAddr : (m.vp cur).forked.addr = ((m.newVp (m.vp cur).forked).2.vp cur).addr := by
        rw [hother cur hne]
        rfl
      have hset := Stays.setVp (m := (m.newVp (m.vp cur).forked).2.addPage dest m.nextVp) (v := cur) hcurAddr
      exact ⟨⟨hset.addr, hset.next⟩, rfl⟩
    · exact ⟨⟨fun _ => rfl, rfl⟩, rfl⟩
  have hshare {m₁ : Mem} {b : Bool} (he : (m.forkMark dest cur).addShare (m.vp cur).status m.nextVp share = (m₁, b)) :
      (m.newVp (m.vp cur).forked).2.Stays m₁ ∧ m₁.pages = (m.addPage dest m.nextVp).pages := by
    have hvp := addShare_vp (m := m.forkMark dest cur) (p := (m.vp cur).status) (v := m.nextVp) share
    have hpages := addShare_pages (m := m.forkMark dest cur) (p := (m.vp cur).status) (v := m.nextVp) share
    have hnext := addShare_nextVp (m := m.forkMark dest cur) (p := (m.vp cur).status) (v := m.nextVp) share
    rw [he] at hvp hpages hnext
    exact ⟨hmark.1.trans (.of_eq hvp hnext), hpages.trans hmark.2⟩
  have hstay : (m.newVp (m.vp cur).forked).2.Stays m' ∧ m'.pages = (m.addPage dest m.nextVp).pages := by
    rw [Mem.forkPage] at hs
    split at hs
    · next m1 he =>
      cases hs
      exact hshare he
    · next m1 he =>
      cases hs
      obtain ⟨hs1, hp1⟩ := hshare he
      split
      · refine ⟨hs1.trans (.setVp ?_), hp1⟩
        rw [hs1.addr, hother cur hne]
      · exact ⟨hs1, hp1⟩
  refine ⟨?_, hstay.2, fun u hu => ?_, ?_⟩
  · have hnone : ∀ u ∈ m.pages dest, ((m.newVp (m.vp cur).forked).2.vp u).addr ≠
        ((m.newVp (m.vp cur).forked).2.vp m.nextVp).addr := fun u hu => by
      rw [hself, hother u (Nat.ne_of_lt (h.lt u ⟨dest, hu⟩))]
      exact hfree u hu
    refine (h.newVp (m.vp cur).forked).add (Nat.lt_succ_self m.nextVp) ?_ hnone hstay.2 hstay.1
    rw [hself]
    exact halign
  · rw [hstay.1.addr, hother u hu]
  · rw [hstay.1.addr, hself]
    rfl

theorem forkPages {dest : ℕ} {ans : ForkAnswer} {order : List ℕ} {copy ok : Bool} (h : m.Addressed)
    (hres : ∀ v ∈ order, m.Resident v ∧ (m.vp v).addr % pageSize = 0)
    (hdistinct : order.Pairwise fun u v => (m.vp u).addr ≠ (m.vp v).addr)
    (hfree : ∀ u ∈ m.pages dest, ∀ v ∈ order, (m.vp u).addr ≠ (m.vp v).addr)
    (hs : m.forkPages cfg dest ans copy order = some (m', ok)) : m'.Addressed := by
  induction order generalizing m copy with
  | nil =>
    cases hs
    exact h
  | cons cur rest ih =>
    obtain ⟨hcur, hdistinct⟩ := List.pairwise_cons.mp hdistinct
    have hrest : ∀ v ∈ rest, m.Resident v ∧ (m.vp v).addr % pageSize = 0 := fun v hv => hres v (List.mem_cons_of_mem _ hv)
    have hfree' : ∀ u ∈ m.pages dest, ∀ v ∈ rest, (m.vp u).addr ≠ (m.vp v).addr := fun u hu v hv =>
      hfree u hu v (List.mem_cons_of_mem _ hv)
    obtain ⟨hres', halign⟩ := hres cur List.mem_cons_self
    obtain ⟨_, -, hs⟩ := Option.bind_eq_some_iff.mp hs
    split at hs
    · cases hs
      exact h
    split at hs
    · exact ih h hrest hdistinct hfree' hs
    split at hs
    · cases hs
    split at hs
    · cases hs
      exact h
    split at hs
    · next m1 he =>
      cases hs
      exact (h.forkPage hres' halign (fun u hu => hfree u hu cur List.mem_cons_self) he).1
    · next m1 he =>
      obtain ⟨hm1, hpages, haddr, hself⟩ := h.forkPage hres' halign (fun u hu => hfree u hu cur List.mem_cons_self) he
      have hold : ∀ v, m.Resident v → (m1.vp v).addr = (m.vp v).addr := fun v hv => haddr v (Nat.ne_of_lt (h.lt v hv))
      refine ih hm1 (fun v hv => ?_) (hdistinct.imp_of_mem fun {u v} hu hv hne => ?_) (fun u hu v hv => ?_) hs
      · obtain ⟨hv', halign'⟩ := hrest v hv
        rw [hold v hv', resident_congr hpages]
        exact ⟨(resident_addPage v).mpr (.inl hv'), halign'⟩
      · rwa [hold u (hrest u hu).1, hold v (hrest v hv).1]
      · rw [hold v (hrest v hv).1]
        rw [hpages, addPage_pages, if_pos rfl] at hu
        obtain rfl | hu := List.mem_cons.mp hu
        · rw [hself]
          exact hcur v hv
        · rw [hold u ⟨dest, hu⟩]
          exact hfree' u hu v hv

theorem vmFork {sender srcpid destpid id : ℕ} {order : List ℕ} {ans : ForkAnswer} {r : Result ℕ} (h : s.mem.Addressed)
    (hs : s.vmFork cfg sender srcpid destpid id order ans = some (t, r)) : t.mem.Addressed := by
  obtain rfl | ⟨pid, -, hcases⟩ := vmFork_cases hs
  · exact h
  have hpages : ∀ q, (s.clearPages pid).mem.pages q = if q = pid then [] else s.mem.pages q := fun q =>
    Function.update_apply ..
  have hsub : ∀ q, ((s.clearPages pid).mem.pages q).Sublist (s.mem.pages q) := fun q => by
    rw [hpages]
    split
    · exact List.nil_sublist _
    · exact .refl _
  have hclear : (s.clearPages pid).mem.Addressed := h.shrink ⟨rfl, rfl, fun q => (hsub q).subset⟩ hsub
  obtain rfl | ⟨-, hperm, u, ok, hu, hcases⟩ := hcases
  · exact hclear
  have hcopied := State.forkMaps_mem hu
  have hmem : u.mem = (s.clearPages pid).mem := hcopied
  have hstart : u.mem.Addressed := hmem ▸ hclear
  obtain rfl | ⟨m, ok', hm, rfl⟩ := hcases
  · exact hstart
  rw [← hmem] at hperm
  have hsrc := hstart.paged srcpid
  refine hstart.forkPages (fun v hv => ?_) ?_ (fun w hw => ?_) hm
  · have hv' := hperm.mem_iff.mp hv
    exact ⟨⟨srcpid, hv'⟩, hsrc.aligned v hv'⟩
  · exact hperm.symm.pairwise hsrc.distinct fun {_ _} hne => hne.symm
  · rw [hmem, hpages, if_pos rfl] at hw
    cases hw

theorem vmConfigure {utcb kip : Fpage} {malloc : Bool} {r : Result ℕ} (h : s.mem.Addressed)
    (hs : s.vmConfigure cfg pid utcb kip malloc = some (t, r)) : t.mem.Addressed := by
  obtain rfl | ⟨-, rfl | ⟨-, r', hu⟩⟩ := vmConfigure_cases hs
  · exact h
  · exact h
  · have hset : (s.setSpace pid ((s.spaces pid).configured utcb kip)).mem.Addressed := h
    exact hset.edits (((Edits.refl cfg _).newPrivate rfl).reserveMmap hu)

theorem dropOld {target addr : ℕ} (h : s.mem.Addressed) (hs : s.dropOld cfg target addr = some m) :
    m.Addressed ∧ s.mem.Shrinks m ∧ ∀ u ∈ m.pages target, (m.vp u).addr ≠ addr := by
  have hshrinks := State.dropOld_shrinks hs
  rw [State.dropOld] at hs
  split at hs
  · next hpop =>
    cases hs
    refine ⟨h, hshrinks, fun u hu he => ?_⟩
    exact List.find?_eq_none.mp (Option.map_eq_none_iff.mp hpop) u hu (decide_eq_true he)
  · next old m1 hpop =>
    obtain ⟨m2, hm2, rfl⟩ := Option.map_eq_some_iff.mp hs
    obtain ⟨-, -, hm1⟩ := popPage_eq_some hpop
    obtain ⟨hvp, -, hmem⟩ := popPage_spec (h.paged target) hpop
    have hpages : m2.flushPlbuf.pages = (s.mem.dropPage target old).pages := by
      rw [show m2.flushPlbuf.pages = m2.pages from rfl, removeVp_pages hm2]
      exact congrArg Mem.pages hm1
    have hvp2 : m2.flushPlbuf.vp = s.mem.vp := (removeVp_vp hm2).trans hvp
    refine ⟨h.shrink hshrinks fun q => ?_, hshrinks, fun u hu => ?_⟩
    · rw [hpages]
      exact s.mem.dropPage_sublist target old q
    · rw [hvp2]
      refine ((hmem u).mp ?_).2
      have hm1 : m1 = s.mem.dropPage target old := hm1
      show u ∈ m1.pages target
      rw [hm1]
      exact hpages ▸ hu

theorem vmUploadPage {target addr prot : ℕ} {data : List UInt8} {flags : MapFlags} {malloc : Bool} {r : Result Unit}
    (h : s.mem.Addressed) (hs : s.vmUploadPage cfg target addr data prot flags malloc = some (t, r)) : t.mem.Addressed := by
  have hnew : ({ s with mem := (s.mem.newVp ⟨addr, protToL4Rights prot, false, true, false, 0⟩).2 } : State).mem.Addressed :=
    h.newVp _
  obtain rfl | ⟨hok, ⟨e, hu⟩ | ⟨u, m, m', hu, hm, hm', rfl⟩⟩ := vmUploadPage_cases hs
  · exact h
  · exact hnew.edits (((Edits.refl cfg _).newPrivate rfl).reserveMmap hu)
  · have hedits := ((Edits.refl cfg _).newPrivate rfl).reserveMmap hu
    obtain ⟨hm1, hdrop, hfree⟩ := (hnew.edits hedits).dropOld hm
    have hself : (m.vp s.mem.nextVp).addr = addr := by
      rw [hdrop.vp, hedits.shrinks.vp]
      show ((s.mem.newVp ⟨addr, protToL4Rights prot, false, true, false, 0⟩).2.vp s.mem.nextVp).addr = addr
      rw [Mem.newVp, setVp_self]
    have hlt : s.mem.nextVp < m.nextVp := by
      rw [hdrop.next, hedits.shrinks.next]
      exact Nat.lt_succ_self _
    have hstay := Stays.attachFresh hm'
    have hnone : ∀ w ∈ m.pages target, (m.vp w).addr ≠ (m.vp s.mem.nextVp).addr := fun w hw => by
      rw [hself]
      exact hfree w hw
    refine hm1.add hlt ?_ hnone ?_ ⟨hstay.addr, hstay.next⟩
    · rw [hself]
      exact hok.aligned
    · rw [Mem.addPage, Mem.addPage, attachFresh_pages hm']

theorem vmErase {sender target : ℕ} {order : List ℕ} {r : Result Unit} (h : s.mem.Addressed)
    (hs : s.vmErase cfg sender target order = some (t, r)) : t.mem.Addressed := by
  obtain rfl | ⟨m, u, -, hm, hu, rfl⟩ := vmErase_cases hs
  · exact h
  · have hremoved : ({ s with mem := m.flushPlbuf } : State).mem.Addressed :=
      (h.shrink (eraseVps_shrinks hm) (eraseVps_sublist hm)).stay (.of_eq rfl rfl) rfl
    have hleft := hremoved.edits ((Edits.refl cfg _).eraseMmaps hu)
    exact hleft

theorem vmPf {faddr : ℕ} {rwx : Rights} {ans : PfAnswer} {r : Option (ℕ × Rights)} (h : s.mem.Addressed)
    (hs : s.vmPf cfg pid faddr rwx ans = some (t, r)) : t.mem.Addressed := by
  obtain rfl | ⟨-, ⟨old, m, -, hm, rfl⟩ | rfl | ⟨i, v, m, hfree, -, -, -, -, hm, rfl, -⟩⟩ := vmPf_cases hs
  · exact h
  · exact h.stay (.pfCow hm) (pfCow_pages hm)
  · rw [State.findLazyMmap_mem]
    exact h
  · exact h.pfMmap (Nat.mul_mod_left _ _) hfree hm

end Mem.Addressed

/-- **Step lemma**. -/
theorem Mem.Addressed.exec {call : Call} (h : s.mem.Addressed) (hs : Vm.exec cfg s call = some t) : t.mem.Addressed := by
  cases call with
  | mmap =>
    obtain ⟨⟨u, r⟩, hu, rfl⟩ := Option.map_eq_some_iff.mp hs
    exact h.edits (.vmMmap hu)
  | munmap =>
    obtain ⟨⟨u, r⟩, hu, rfl⟩ := Option.map_eq_some_iff.mp hs
    exact h.edits (.vmMunmap hu)
  | brk =>
    obtain ⟨⟨u, r⟩, hu, rfl⟩ := Option.map_eq_some_iff.mp hs
    exact h.edits (.vmBrk hu)
  | fork =>
    obtain ⟨⟨u, r⟩, hu, rfl⟩ := Option.map_eq_some_iff.mp hs
    exact h.vmFork hu
  | configure =>
    obtain ⟨⟨u, r⟩, hu, rfl⟩ := Option.map_eq_some_iff.mp hs
    exact h.vmConfigure hu
  | uploadPage =>
    obtain ⟨⟨u, r⟩, hu, rfl⟩ := Option.map_eq_some_iff.mp hs
    exact h.vmUploadPage hu
  | erase =>
    obtain ⟨⟨u, r⟩, hu, rfl⟩ := Option.map_eq_some_iff.mp hs
    exact h.vmErase hu
  | fault =>
    obtain ⟨⟨u, r⟩, hu, rfl⟩ := Option.map_eq_some_iff.mp hs
    exact h.vmPf hu

theorem addressed_of_run {P : State → Call → Prop} {calls : List Call} (h : Run (exec cfg) P (bootState phys) calls s) :
    s.mem.Addressed := by
  have hinit : (bootState phys).mem.Addressed :=
    ⟨fun v ⟨_, hv⟩ => (nomatch hv), fun _ => ⟨List.Pairwise.nil, nofun⟩⟩
  exact h.invariant (I := fun s : State => s.mem.Addressed) (fun _ _ _ _ hs hm => hm.exec hs) hinit

end Sneks.Vm
