import Sneks.Vm.Cases
import Sneks.Vm.Invariant

/-!
# What `fork_pages` asserts of every page

A resident page is either copy-on-write or can be written to, and not both, as long as pages are
uploaded writable and made resident in mappings that can be written to.
-/

namespace Sneks.Vm
open Lib

def Vp.Forkable (v : Vp) : Prop := (v.cow ^^ v.rights.w) = true

instance (v : Vp) : Decidable v.Forkable := inferInstanceAs (Decidable (_ = true))

variable {cfg : Config} {phys : PhysMem} {s t : State} {m m' : Mem} {v pid i : ℕ} {mm : LazyMmap}

structure Mem.Repairs (m m' : Mem) (v : ℕ) : Prop where
  others : ∀ u, u ≠ v → m'.vp u = m.vp u
  rights : (m'.vp v).rights = (m.vp v).rights
  cow : (m'.vp v).cow = (m.vp v).cow
  next : m'.nextVp = m.nextVp

structure Mem.Forkable (m : Mem) : Prop where
  lt : ∀ v, m.Resident v → v < m.nextVp
  flags : ∀ v, m.Resident v → (m.vp v).Forkable

theorem Vp.Forkable.forked {v : Vp} (h : v.Forkable) : v.forked.Forkable := by
  have hcopy : (v.cow || v.rights.w) = true := by
    rw [Vp.Forkable] at h
    cases hc : v.cow
    · rw [hc, Bool.false_xor] at h
      rw [Bool.false_or, h]
    · rfl
  rw [Vp.Forkable]
  exact (Bool.xor_false _).trans hcopy

theorem Edits.shrinks (h : Edits cfg s t) : s.mem.Shrinks t.mem := by
  refine h.keeps (P := fun u => s.mem.Shrinks u.mem) (fun u v he hu => ?_) (.refl _)
  cases he with
  | space | resize | copy | new | table | anonIno => exact hu
  | remove _ _ _ _ hm => exact hu.trans (Mem.removeVpRange_shrinks hm)
  | cut _ _ _ _ hcut =>
    obtain ⟨m, rfl, hm⟩ := State.cutAnonMmap_induct (P := fun m => u.mem.Shrinks m) (.refl _)
      (fun _ _ _ h _ _ => ⟨h.vp, h.next, h.pages⟩) (fun _ h => ⟨h.vp, h.next, h.pages⟩) hcut
    exact hu.trans hm

namespace Mem

-- Page faults

theorem attachFresh_repairs {b : Page} (hs : m.attachFresh v b = some m') : m.Repairs m' v := by
  obtain ⟨⟨l, m1⟩, hl, rfl⟩ := Option.map_eq_some_iff.mp hs
  obtain ⟨rest, -, rfl⟩ := getFreePl_eq_some.mp hl
  have hself : (Function.update m.vp v { m.vp v with status := (m.pl l).page, anon := true }) v = _ :=
    Function.update_self ..
  have hrights := congrArg Vp.rights hself
  have hcow := congrArg Vp.cow hself
  exact ⟨fun u hu => Function.update_of_ne hu _ _, hrights, hcow, rfl⟩

theorem loadPage_vp {bump off c : ℕ} {ans : PfAnswer} (hs : m.loadPage cfg mm bump off ans = some (c, m')) :
    m'.vp = m.vp ∧ m'.nextVp = m.nextVp := by
  obtain ⟨⟨l, m1⟩, hl, hs⟩ := Option.bind_eq_some_iff.mp hs
  obtain ⟨rest, -, rfl⟩ := getFreePl_eq_some.mp hl
  obtain ⟨_, -, hs⟩ := Option.bind_eq_some_iff.mp hs
  obtain ⟨_, -, hs⟩ := Option.bind_eq_some_iff.mp hs
  obtain ⟨_, -, hs⟩ := Option.bind_eq_some_iff.mp hs
  cases hs
  exact ⟨rfl, rfl⟩

theorem addShare_nextVp {p : ℕ} (ok : Bool) : (m.addShare p v ok).1.nextVp = m.nextVp := by
  rw [addShare]
  split
  · rfl
  · split <;> rfl

theorem Repairs.of_eq {m₁ : Mem} (h : m₁.Repairs m' v) (hvp : m₁.vp = m.vp) (hnext : m₁.nextVp = m.nextVp) :
    m.Repairs m' v :=
  ⟨fun u hu => hvp ▸ h.others u hu, hvp ▸ h.rights, hvp ▸ h.cow, h.next.trans hnext⟩

theorem pfMmapShared_repairs {page : ℕ} {ans : PfAnswer} (hs : m.pfMmapShared cfg v mm page ans = some m') :
    m.Repairs m' v := by
  obtain ⟨⟨c, m1⟩, hc, hs⟩ := Option.bind_eq_some_iff.mp hs
  have hload : m1.vp = m.vp ∧ m1.nextVp = m.nextVp := by
    rw [findOrLoad] at hc
    split at hc
    · cases hc
      exact ⟨rfl, rfl⟩
    · exact loadPage_vp hc
  dsimp only at hs
  split at hs
  · exact (attachFresh_repairs hs).of_eq hload.1 hload.2
  · obtain rfl := Option.some.inj hs
    suffices hrep : m1.Repairs _ v from hrep.of_eq hload.1 hload.2
    have hvp := addShare_vp (m := m1.setVp v { m1.vp v with status := (m1.pl c).page, shared := true })
      (p := (m1.pl c).page) (v := v) ans.share
    have hself : (m1.setVp v { m1.vp v with status := (m1.pl c).page, shared := true }).vp v = _ :=
      Function.update_self ..
    refine ⟨fun u hu => ?_, ?_, ?_, ?_⟩
    · rw [hvp]
      exact Function.update_of_ne hu _ _
    · rw [hvp, hself]
    · rw [hvp, hself]
    · rw [addShare_nextVp]
      rfl

theorem pfMmapPrivate_repairs {page : ℕ} {ans : PfAnswer} (hs : m.pfMmapPrivate cfg v mm page ans = some m') :
    m.Repairs m' v := by
  obtain ⟨⟨c, loaded, m1⟩, hc, hs⟩ := Option.bind_eq_some_iff.mp hs
  obtain ⟨m2, hm2, hs⟩ := Option.bind_eq_some_iff.mp hs
  have hload : m1.vp = m.vp ∧ m1.nextVp = m.nextVp := by
    rw [fetchCachedPage] at hc
    split at hc
    · cases hc
      exact ⟨rfl, rfl⟩
    · obtain ⟨⟨c', m3⟩, hl, he⟩ := Option.map_eq_some_iff.mp hc
      cases he
      have h3 := loadPage_vp hl
      exact h3
  have hattach := (attachFresh_repairs hm2).of_eq hload.1 hload.2
  split at hs
  · obtain ⟨_, -, hs⟩ := Option.bind_eq_some_iff.mp hs
    cases hs
    exact ⟨hattach.others, hattach.rights, hattach.cow, hattach.next⟩
  · cases hs
    exact hattach

theorem pfRepair_forkable {page : ℕ} {rwx : Rights} {ans : PfAnswer} (hv : (m.vp v).cow = false)
    (hw : (m.vp v).rights.w = true) (hs : m.pfRepair cfg v mm page rwx ans = some m') :
    (∀ u, u ≠ v → m'.vp u = m.vp u) ∧ m'.nextVp = m.nextVp ∧ (m'.vp v).Forkable := by
  have hkeep {m₁ : Mem} (h : m.Repairs m₁ v) : (m₁.vp v).Forkable := by
    rw [Vp.Forkable, h.rights, h.cow, hv, hw]
    rfl
  rw [pfRepair] at hs
  split at hs
  · obtain ⟨m1, hm1, rfl⟩ := Option.map_eq_some_iff.mp hs
    have hrep := pfMmapShared_repairs hm1
    rw [markCow]
    split
    · refine ⟨fun u hu => (setVp_ne _ _ hu).trans (hrep.others u hu), hrep.next, ?_⟩
      rw [setVp_self]
      rfl
    · exact ⟨hrep.others, hrep.next, hkeep hrep⟩
  split at hs
  · have hrep := attachFresh_repairs hs
    exact ⟨hrep.others, hrep.next, hkeep hrep⟩
  · have hrep := pfMmapPrivate_repairs hs
    exact ⟨hrep.others, hrep.next, hkeep hrep⟩

namespace Forkable

theorem shrink (h : m.Forkable) (hs : m.Shrinks m') : m'.Forkable := by
  have hres : ∀ u, m'.Resident u → m.Resident u := fun u ⟨q, hq⟩ => ⟨q, hs.pages q hq⟩
  refine ⟨fun u hu => ?_, fun u hu => ?_⟩
  · rw [hs.next]
    exact h.lt u (hres u hu)
  · rw [hs.vp]
    exact h.flags u (hres u hu)

theorem add (h : m.Forkable) (hp : m'.pages = (m.addPage pid v).pages) (hlt : m.nextVp ≤ m'.nextVp) (hv : v < m'.nextVp)
    (hold : ∀ u, m.Resident u → u ≠ v → (m'.vp u).Forkable) (hnew : (m'.vp v).Forkable) : m'.Forkable := by
  have hres : ∀ u, m'.Resident u → m.Resident u ∨ u = v := fun u hu => by
    rw [resident_congr hp] at hu
    exact (resident_addPage u).mp hu
  refine ⟨fun u hu => ?_, fun u hu => ?_⟩
  · obtain hu | rfl := hres u hu
    · exact Nat.lt_of_lt_of_le (h.lt u hu) hlt
    · exact hv
  · by_cases he : u = v
    · exact he ▸ hnew
    · exact hold u ((hres u hu).resolve_right he) he

theorem newVp (h : m.Forkable) (w : Vp) : (m.newVp w).2.Forkable where
  lt u hu := Nat.lt_succ_of_lt (h.lt u hu)
  flags u hu := by
    have hne : u ≠ m.nextVp := Nat.ne_of_lt (h.lt u hu)
    rw [show (m.newVp w).2.vp u = m.vp u from Function.update_of_ne hne _ _]
    exact h.flags u hu

theorem pfMmap {page : ℕ} {rwx : Rights} {ans : PfAnswer} (h : m.Forkable) (hw : mm.rights.w = true)
    (hs : m.pfMmap cfg pid mm page rwx ans = some (v, m')) : m'.Forkable := by
  obtain ⟨rfl, hp⟩ := pfMmap_pages hs
  obtain ⟨m1, hm1, he⟩ := Option.map_eq_some_iff.mp hs
  cases he
  have hself : (m.newVp ⟨page, mm.rights, false, false, false, 0⟩).2.vp m.nextVp = _ := Function.update_self ..
  obtain ⟨hothers, hnext, hflags⟩ := pfRepair_forkable (m := (m.newVp ⟨page, mm.rights, false, false, false, 0⟩).2)
    (congrArg Vp.cow hself) ((congrArg (fun w => w.rights.w) hself).trans hw) hm1
  have hlt : (m1.addPage pid m.nextVp).nextVp = m.nextVp + 1 := hnext
  refine h.add hp (hlt ▸ Nat.le_succ _) (hlt ▸ Nat.lt_succ_self _) (fun u hu hne => ?_) hflags
  have hu' : m1.vp u = m.vp u := (hothers u hne).trans (Function.update_of_ne hne _ _)
  show (m1.vp u).Forkable
  rw [hu']
  exact h.flags u hu

theorem dropSecondary_vp (hs : m.dropSecondary v = some m') : m'.vp = m.vp ∧ m'.nextVp = m.nextVp := by
  rw [dropSecondary] at hs
  split at hs
  · cases hs
    exact ⟨rfl, rfl⟩
  · split at hs
    · cases hs
      exact ⟨rfl, rfl⟩
    · cases hs

theorem pfCow (h : m.Forkable) (hs : m.pfCow cfg v = some m') : m'.Forkable := by
  have hpages := pfCow_pages hs
  obtain ⟨_, -, hs⟩ := Option.bind_eq_some_iff.mp hs
  obtain ⟨_, -, hs⟩ := Option.bind_eq_some_iff.mp hs
  obtain ⟨m1, hm1, hs⟩ := Option.bind_eq_some_iff.mp hs
  obtain ⟨hvp1, hnext1⟩ := dropSecondary_vp hm1
  have hspec : m'.nextVp = m.nextVp ∧ (∀ u, u ≠ v → m'.vp u = m.vp u) ∧ (m'.vp v).Forkable := by
    split at hs
    · obtain ⟨_, -, hs⟩ := Option.bind_eq_some_iff.mp hs
      cases hs
      refine ⟨hnext1, fun u hu => (setVp_ne _ _ hu).trans (congrFun hvp1 u), ?_⟩
      rw [setVp_self]
      rfl
    · generalize hm2 : (if m.owner (m.vp v).status = some v then m1.setOwner (m.vp v).status none else m1) = m2 at hs
      have hm2 : m2.vp = m1.vp ∧ m2.nextVp = m1.nextVp := by
        rw [← hm2]
        split <;> exact ⟨rfl, rfl⟩
      have hrep := attachFresh_repairs hs
      refine ⟨hrep.next.trans (hm2.2.trans hnext1), fun u hu => ?_, ?_⟩
      · rw [hrep.others u hu, setVp_ne _ _ hu, hm2.1, hvp1]
      · rw [Vp.Forkable, hrep.cow, hrep.rights, setVp_self]
        rfl
  obtain ⟨hnext, hothers, hself⟩ := hspec
  have hres := resident_congr hpages
  refine ⟨fun u hu => ?_, fun u hu => ?_⟩
  · rw [hnext]
    exact h.lt u (hres ▸ hu)
  · by_cases he : u = v
    · exact he ▸ hself
    · rw [hothers u he]
      exact h.flags u (hres ▸ hu)

-- fork

theorem forkPage {dest cur : ℕ} {share ok : Bool} (h : m.Forkable) (hcur : m.Resident cur)
    (hs : m.forkPage dest cur share = (m', ok)) :
    m'.Forkable ∧ m'.pages = (m.addPage dest m.nextVp).pages := by
  have hne : cur ≠ m.nextVp := Nat.ne_of_lt (h.lt cur hcur)
  -- the copy, and what becomes of the page itself
  have hmark : (m.forkMark dest cur).pages = (m.addPage dest m.nextVp).pages ∧
      (m.forkMark dest cur).nextVp = m.nextVp + 1 ∧ (m.forkMark dest cur).vp m.nextVp = (m.vp cur).forked ∧
      (∀ u, u ≠ cur → u ≠ m.nextVp → (m.forkMark dest cur).vp u = m.vp u) ∧ ((m.forkMark dest cur).vp cur).Forkable := by
    have hcopy : (m.newVp (m.vp cur).forked).2.vp m.nextVp = (m.vp cur).forked := Function.update_self ..
    have hother : ∀ u, u ≠ m.nextVp → (m.newVp (m.vp cur).forked).2.vp u = m.vp u :=
      fun u hu => Function.update_of_ne hu _ _
    simp only [forkMark]
    split
    · refine ⟨rfl, rfl, (Function.update_of_ne hne.symm _ _).trans hcopy,
        fun u hu hu' => (Function.update_of_ne hu _ _).trans (hother u hu'), ?_⟩
      rw [setVp_self]
      exact (h.flags cur hcur).forked
    · refine ⟨rfl, rfl, hcopy, fun u _ hu' => hother u hu', ?_⟩
      have hkeep := hother cur hne
      show ((m.newVp (m.vp cur).forked).2.vp cur).Forkable
      rw [hkeep]
      exact h.flags cur hcur
  obtain ⟨hpages, hnext, hnew, hothers, hself⟩ := hmark
  have hadd {m₁ : Mem} (hp : m₁.pages = (m.forkMark dest cur).pages) (hn : m₁.nextVp = (m.forkMark dest cur).nextVp)
      (hvp : ∀ u, u ≠ cur → m₁.vp u = (m.forkMark dest cur).vp u) (hcur' : (m₁.vp cur).Forkable) :
      m₁.Forkable ∧ m₁.pages = (m.addPage dest m.nextVp).pages := by
    refine ⟨h.add (hp.trans hpages) ?_ ?_ (fun u hu hun => ?_) ?_, hp.trans hpages⟩
    · rw [hn, hnext]
      exact Nat.le_succ _
    · rw [hn, hnext]
      exact Nat.lt_succ_self _
    · by_cases he : u = cur
      · exact he ▸ hcur'
      · rw [hvp u he, hothers u he hun]
        exact h.flags u hu
    · rw [hvp _ hne.symm, hnew]
      exact (h.flags cur hcur).forked
  have hvp := addShare_vp (m := m.forkMark dest cur) (p := (m.vp cur).status) (v := m.nextVp) share
  have hsp := addShare_pages (m := m.forkMark dest cur) (p := (m.vp cur).status) (v := m.nextVp) share
  have hsn := addShare_nextVp (m := m.forkMark dest cur) (p := (m.vp cur).status) (v := m.nextVp) share
  rw [Mem.forkPage] at hs
  split at hs
  · next m1 he =>
    cases hs
    rw [he] at hvp hsp hsn
    exact hadd hsp hsn (fun u _ => congrFun hvp u) (congrFun hvp cur ▸ hself)
  · next m1 he =>
    rw [he] at hvp hsp hsn
    cases hs
    split
    · refine hadd hsp hsn (fun u hu => (Function.update_of_ne hu _ _).trans (congrFun hvp u)) ?_
      rw [setVp_self]
      exact h.flags cur hcur
    · exact hadd hsp hsn (fun u _ => congrFun hvp u) (congrFun hvp cur ▸ hself)

theorem forkPages {dest : ℕ} {ans : ForkAnswer} {order : List ℕ} {copy ok : Bool} (h : m.Forkable)
    (hres : ∀ v ∈ order, m.Resident v) (hs : m.forkPages cfg dest ans copy order = some (m', ok)) : m'.Forkable := by
  induction order generalizing m copy with
  | nil =>
    cases hs
    exact h
  | cons cur rest ih =>
    have hrest : ∀ v ∈ rest, m.Resident v := fun v hv => hres v (List.mem_cons_of_mem _ hv)
    obtain ⟨_, -, hs⟩ := Option.bind_eq_some_iff.mp hs
    split at hs
    · cases hs
      exact h
    split at hs
    · exact ih h hrest hs
    split at hs
    · cases hs
    split at hs
    · cases hs
      exact h
    split at hs
    · next m1 he =>
      cases hs
      exact (h.forkPage (hres cur List.mem_cons_self) he).1
    · next m1 he =>
      obtain ⟨hm1, hpages⟩ := h.forkPage (hres cur List.mem_cons_self) he
      refine ih hm1 (fun v hv => ?_) hs
      rw [resident_congr hpages]
      exact (resident_addPage v).mpr (.inl (hrest v hv))

end Forkable

end Mem

namespace State

def faultsIn (s : State) (pid faddr : ℕ) (rwx : Rights) : Option ℕ :=
  let sp := s.spaces pid
  if maxPid < pid ∨ sp.utcbArea = .nil ∨ (∃ v ∈ s.mem.pages pid, (s.mem.vp v).addr = pageFloor faddr) ∨
      sp.sysinfoArea.overlap ⟨faddr, 1⟩ then none
  else (s.findLazyMmap pid faddr).1.filter fun i => (s.mm i).rights.allow rwx

/-- An upload that `vm_upload_page` and `reserve_mmap` do not refuse. -/
def accepts (s : State) (target addr prot : ℕ) (flags : MapFlags) (malloc : Bool) : Prop :=
  (s.spaces target).utcbArea ≠ .nil ∧ addr % pageSize = 0 ∧ flags.anon = true ∧ flags.fixed = true ∧ prot ≠ 0 ∧
    flags.shared = false ∧ flags.priv = true ∧ malloc = true ∧ s.nogo target addr pageSize = false

instance (s : State) (target addr prot : ℕ) (flags : MapFlags) (malloc : Bool) :
    Decidable (s.accepts target addr prot flags malloc) :=
  inferInstanceAs (Decidable (_ ∧ _))

theorem Uploads.accepts {target addr prot : ℕ} {flags : MapFlags} {malloc : Bool} (h : s.Uploads target addr prot flags malloc)
    (hnogo : s.nogo target addr pageSize = false) : s.accepts target addr prot flags malloc := by
  obtain ⟨hutcb, haligned, rfl, hprot, rfl⟩ := h
  exact ⟨hutcb, haligned, rfl, rfl, hprot, rfl, rfl, rfl, hnogo⟩

theorem faultsIn_eq_some {faddr : ℕ} {rwx : Rights} (hspace : (s.spaces pid).utcbArea ≠ .nil)
    (hfree : ∀ v ∈ s.mem.pages pid, (s.mem.vp v).addr ≠ pageFloor faddr) (hpid : pid ≤ maxPid)
    (hsys : (s.spaces pid).sysinfoArea.overlap ⟨faddr, 1⟩ = false) (hi : (s.findLazyMmap pid faddr).1 = some i)
    (hallow : (s.mm i).rights.allow rwx = true) : s.faultsIn pid faddr rwx = some i := by
  rw [faultsIn, if_neg, hi, Option.filter_some, if_pos hallow]
  rintro (hlt | hnil | ⟨v, hv, ha⟩ | hover)
  · exact Nat.not_lt.mpr hpid hlt
  · exact hspace hnil
  · exact hfree v hv ha
  · exact Bool.eq_false_iff.mp hsys hover

theorem clearPages_shrinks (s : State) (pid : ℕ) : s.mem.Shrinks (s.clearPages pid).mem := by
  refine ⟨rfl, rfl, fun q u hu => ?_⟩
  change u ∈ Function.update s.mem.pages pid [] q at hu
  rw [Function.update_apply] at hu
  split at hu
  · cases hu
  · exact hu

theorem findLazyMmap_mm (s : State) (pid addr : ℕ) : (s.findLazyMmap pid addr).2.mm = s.mm := by
  rw [findLazyMmap]
  split
  · rfl
  · split <;> rfl

theorem reserveMmap_nogo {address length : ℕ} {ok : Bool}
    (hs : s.reserveMmap cfg pid i address length true ok = some (t, .ok ())) : s.nogo pid address length = false := by
  simp only [reserveMmap, Option.bind_eq_bind, Option.bind_eq_some_iff] at hs
  obtain ⟨_, -, _, -, hs⟩ := hs
  split at hs
  · cases hs
  · next hbad => simpa using hbad

theorem dropOld_shrinks {target addr : ℕ} (hs : s.dropOld cfg target addr = some m) : s.mem.Shrinks m := by
  rw [dropOld] at hs
  split at hs
  · cases hs
    exact .refl _
  · next old m1 hpop =>
    obtain ⟨m2, hm2, rfl⟩ := Option.map_eq_some_iff.mp hs
    obtain ⟨-, -, hm1⟩ := Mem.popPage_eq_some hpop
    rw [show m1 = s.mem.dropPage target old from hm1] at hm2
    exact (s.mem.dropPage_shrinks target old).trans ((Mem.removeVp_shrinks hm2).trans ⟨rfl, rfl, fun _ _ hu => hu⟩)

end State

namespace Mem.Forkable

theorem vmFork {sender srcpid destpid id : ℕ} {order : List ℕ} {ans : ForkAnswer} {r : Result ℕ} (h : s.mem.Forkable)
    (hs : s.vmFork cfg sender srcpid destpid id order ans = some (t, r)) : t.mem.Forkable := by
  obtain rfl | ⟨pid, -, hcases⟩ := State.vmFork_cases hs
  · exact h
  have hclear := h.shrink (s.clearPages_shrinks pid)
  obtain rfl | ⟨-, hperm, u, ok, hu, hcases⟩ := hcases
  · exact hclear
  have hmem : u.mem = (s.clearPages pid).mem := (State.forkMaps_mem hu).trans rfl
  rw [← hmem] at hclear hperm
  obtain rfl | ⟨m, ok', hm, rfl⟩ := hcases
  · exact hclear
  · exact hclear.forkPages (fun v hv => ⟨srcpid, hperm.mem_iff.mp hv⟩) hm

theorem vmConfigure {utcb kip : Fpage} {malloc : Bool} {r : Result ℕ} (h : s.mem.Forkable)
    (hs : s.vmConfigure cfg pid utcb kip malloc = some (t, r)) : t.mem.Forkable := by
  obtain rfl | ⟨-, rfl | ⟨-, r', hu⟩⟩ := State.vmConfigure_cases hs
  · exact h
  · exact h
  · exact h.shrink (((Edits.refl cfg _).newPrivate rfl).reserveMmap hu).shrinks

theorem vmUploadPage {target addr prot : ℕ} {data : List UInt8} {flags : MapFlags} {malloc : Bool} {r : Result Unit}
    (h : s.mem.Forkable) (hw : s.accepts target addr prot flags malloc → (protToL4Rights prot).w = true)
    (hs : s.vmUploadPage cfg target addr data prot flags malloc = some (t, r)) : t.mem.Forkable := by
  have hnew := h.newVp ⟨addr, protToL4Rights prot, false, true, false, 0⟩
  obtain rfl | ⟨hok, ⟨e, hu⟩ | ⟨u, m, m', hu, hm, hm', rfl⟩⟩ := State.vmUploadPage_cases hs
  · exact h
  · exact hnew.shrink (((Edits.refl cfg _).newPrivate rfl).reserveMmap hu).shrinks
  have hplaced := (((Edits.refl cfg _).newPrivate rfl).reserveMmap hu).shrinks
  have hdrop := State.dropOld_shrinks hm
  have hleft := (hnew.shrink hplaced).shrink hdrop
  have hrep : m.Repairs m' s.mem.nextVp := Mem.attachFresh_repairs hm'
  have hvp : m.vp s.mem.nextVp = ⟨addr, protToL4Rights prot, false, true, false, 0⟩ := by
    rw [hdrop.vp, hplaced.vp]
    exact Function.update_self ..
  have hnogo := State.reserveMmap_nogo hu
  have hwrite : (protToL4Rights prot).w = true := hw (hok.accepts hnogo)
  have hnext : m'.nextVp = s.mem.nextVp + 1 := hrep.next.trans (hdrop.next.trans hplaced.next)
  have hpages : (m'.addPage target s.mem.nextVp).pages = (m.addPage target s.mem.nextVp).pages := by
    rw [Mem.addPage, Mem.addPage, Mem.attachFresh_pages hm']
  refine hleft.add hpages (Nat.le_of_eq hrep.next.symm) ?_ (fun v hv hne => ?_) ?_
  · exact hnext ▸ Nat.lt_succ_self _
  · show (m'.vp v).Forkable
    rw [hrep.others v hne]
    exact hleft.flags v hv
  · show (m'.vp s.mem.nextVp).Forkable
    rw [Vp.Forkable, hrep.cow, hrep.rights, hvp, hwrite]
    rfl

theorem vmErase {sender target : ℕ} {order : List ℕ} {r : Result Unit} (h : s.mem.Forkable)
    (hs : s.vmErase cfg sender target order = some (t, r)) : t.mem.Forkable := by
  obtain rfl | ⟨m, u, -, hm, hu, rfl⟩ := State.vmErase_cases hs
  · exact h
  have hflush : m.Shrinks m.flushPlbuf := ⟨rfl, rfl, fun _ _ hv => hv⟩
  exact (h.shrink ((Mem.eraseVps_shrinks hm).trans hflush)).shrink ((Edits.refl cfg _).eraseMmaps hu).shrinks

theorem vmPf {faddr : ℕ} {rwx : Rights} {ans : PfAnswer} {r : Option (ℕ × Rights)} (h : s.mem.Forkable)
    (hw : ∀ i, s.faultsIn pid faddr rwx = some i → (s.mm i).rights.w = true)
    (hs : s.vmPf cfg pid faddr rwx ans = some (t, r)) : t.mem.Forkable := by
  obtain rfl | ⟨hspace, ⟨old, m, -, hm, rfl⟩ | rfl | ⟨i, v, m, hfree, hpid, hsys, hi, hallow, hm, rfl, -⟩⟩ :=
    State.vmPf_cases hs
  · exact h
  · exact h.pfCow hm
  · rw [State.findLazyMmap_mem]
    exact h
  · exact h.pfMmap (hw i (State.faultsIn_eq_some hspace hfree hpid hsys hi hallow)) hm

end Mem.Forkable

/-- What a call makes resident can be written to: the upload has `PROT_WRITE`, and so has the mapping
    of the fault. -/
def Writes (s : State) : Call → Prop
  | .uploadPage target addr _ prot flags malloc =>
    s.accepts target addr prot flags malloc → (protToL4Rights prot).w = true
  | .fault pid faddr rwx _ => ∀ i ∈ s.faultsIn pid faddr rwx, (s.mm i).rights.w = true
  | _ => True

instance (s : State) : (call : Call) → Decidable (Writes s call)
  | .uploadPage _ _ _ _ _ _ => inferInstanceAs (Decidable (_ → _))
  | .fault pid faddr rwx _ => inferInstanceAs (Decidable (∀ i ∈ s.faultsIn pid faddr rwx, _))
  | .mmap .. | .munmap .. | .brk .. | .fork .. | .configure .. | .erase .. => inferInstanceAs (Decidable True)

/-- **Step lemma**. -/
theorem Mem.Forkable.exec {call : Call} (h : s.mem.Forkable) (hw : Writes s call) (hs : Vm.exec cfg s call = some t) :
    t.mem.Forkable := by
  cases call with
  | mmap =>
    obtain ⟨⟨u, r⟩, hu, rfl⟩ := Option.map_eq_some_iff.mp hs
    exact h.shrink (Edits.vmMmap hu).shrinks
  | munmap =>
    obtain ⟨⟨u, r⟩, hu, rfl⟩ := Option.map_eq_some_iff.mp hs
    exact h.shrink (Edits.vmMunmap hu).shrinks
  | brk =>
    obtain ⟨⟨u, r⟩, hu, rfl⟩ := Option.map_eq_some_iff.mp hs
    exact h.shrink (Edits.vmBrk hu).shrinks
  | fork =>
    obtain ⟨⟨u, r⟩, hu, rfl⟩ := Option.map_eq_some_iff.mp hs
    exact h.vmFork hu
  | configure =>
    obtain ⟨⟨u, r⟩, hu, rfl⟩ := Option.map_eq_some_iff.mp hs
    exact h.vmConfigure hu
  | uploadPage =>
    obtain ⟨⟨u, r⟩, hu, rfl⟩ := Option.map_eq_some_iff.mp hs
    exact h.vmUploadPage hw hu
  | erase =>
    obtain ⟨⟨u, r⟩, hu, rfl⟩ := Option.map_eq_some_iff.mp hs
    exact h.vmErase hu
  | fault =>
    obtain ⟨⟨u, r⟩, hu, rfl⟩ := Option.map_eq_some_iff.mp hs
    exact h.vmPf hw hu

/-- **Fork precondition.** In every run in which what becomes resident can be written to, each
    resident page of each space is copy-on-write or can be written to, and not both. -/
theorem forkable {calls : List Call} (h : Run (exec cfg) Writes (bootState phys) calls t) {v : ℕ} (hv : t.mem.Resident v) :
    ((t.mem.vp v).cow ^^ (t.mem.vp v).rights.w) = true := by
  have hnone : ∀ v, ¬ (bootState phys).mem.Resident v := fun v ⟨_, hv⟩ => by cases hv
  have hinit : (bootState phys).mem.Forkable := ⟨fun v hv => absurd hv (hnone v), fun v hv => absurd hv (hnone v)⟩
  exact (h.invariant (I := fun s : State => s.mem.Forkable) (fun _ _ _ hw hs hm => hm.exec hw hs) hinit).flags v hv

/-- What process 5 has was written to be read and written, and is when it is forked. -/
theorem forkable_upload : ∃ (t : State) (v : ℕ), t.mem.Resident v ∧ ((t.mem.vp v).cow ^^ (t.mem.vp v).rights.w) = true := by
  have hrun := Run.exists_of_evalRun (exec plainConfig) Writes (bootState threePhys) spawnCalls
    (fun t => decide (0 ∈ t.mem.pages 5)) true (by decide)
  obtain ⟨t, h, hread⟩ := hrun
  have hv : t.mem.Resident 0 := ⟨5, of_decide_eq_true hread⟩
  exact ⟨t, 0, hv, forkable h hv⟩

/-- A page is uploaded with `PROT_READ`. -/
theorem read_only_upload : ∃ (calls : List Call) (t : State) (v : ℕ),
    Run (exec plainConfig) free (bootState threePhys) calls t ∧ t.mem.Resident v ∧
      ((t.mem.vp v).cow ^^ (t.mem.vp v).rights.w) = false := by
  have hrun := Run.exists_of_evalRun (exec plainConfig) free (bootState threePhys)
    [.fork 50000 0 5 0 [] ⟨fun _ => true, fun _ => true, fun _ => true, fun _ => true, fun _ => true⟩,
      .configure 5 ⟨0x200000, 0x1000⟩ ⟨0x100000, 0x1000⟩ true,
      .uploadPage 5 0x300000 [] 1 ⟨false, true, true, true⟩ true]
    (fun t => (decide (0 ∈ t.mem.pages 5), (t.mem.vp 0).cow ^^ (t.mem.vp 0).rights.w)) (true, false) (by decide)
  obtain ⟨t, h, hread⟩ := hrun
  exact ⟨_, t, 0, h, ⟨5, of_decide_eq_true (congrArg Prod.fst hread)⟩, congrArg Prod.snd hread⟩

end Sneks.Vm
