import Sneks.Vm.Edits
import Sneks.Vm.Sound

/-!
# What holds between two calls

Sound pages, and what the mappings must have for page faults to keep them so. Edits keep it where a
failed assertion stops the server.
-/

namespace Sneks.Vm
open Lib

variable {cfg : Config} {phys : PhysMem} {s₀ s t : State} {pid i : ℕ}

theorem Sound.init (phys : PhysMem) : Sound phys.pages (initPhys phys) := by
  have hmem : ∀ l, l ∈ (initPhys phys).free ++ (initPhys phys).active ++ (initPhys phys).cache ↔
      l < phys.pages.length := fun l => by simp [initPhys]
  have hget : ∀ l (h : l < phys.pages.length), phys.pages.getD l 0 = phys.pages[l] := fun l h =>
    by simp [List.getD, h]
  have hno : ∀ v, ¬ (initPhys phys).Resident v := fun v ⟨_, hv⟩ => by cases hv
  refine ⟨⟨⟨?_, fun l hl => (hmem l).mp hl, fun l hl _ => ?_, fun p hp => ?_, fun l hl => ?_⟩, fun _ _ => rfl,
    nofun, nofun, nofun, nofun, List.nodup_nil, fun v hv => absurd hv (hno v), nofun,
    fun v hv => absurd hv (hno v), fun v hv => absurd hv (hno v), fun v hv => absurd hv (hno v),
    fun v hv => absurd hv (hno v), fun v hv => absurd hv (hno v)⟩, fun _ => List.nodup_nil, nofun⟩
  · simpa [initPhys] using (List.reverse_perm _).nodup_iff.mpr (List.nodup_range (n := phys.pages.length))
  · have hlt := (hmem l).mp hl
    show (if phys.pages.getD l 0 ∈ phys.pages then some (phys.pages.idxOf (phys.pages.getD l 0)) else none) =
      some l
    rw [hget l hlt, if_pos (List.getElem_mem hlt), phys.nodup.idxOf_getElem]
  · have hlt := List.idxOf_lt_length_of_mem hp
    refine ⟨phys.pages.idxOf p, (hmem _).mpr hlt, rfl, ?_⟩
    show phys.pages.getD (phys.pages.idxOf p) 0 = p
    rw [hget _ hlt, List.getElem_idxOf]
  · show phys.pages.getD l 0 ∈ phys.pages
    rw [hget l ((hmem l).mp hl)]
    exact List.getElem_mem _

theorem LazyMmap.fsidIno_ne_zero {mm : LazyMmap} (h : mm.fdServ = cfg.self) : mm.fsidIno ≠ 0 := by
  have h4 := cfg.self_systask
  have hlt := cfg.self_lt
  have hpid : pidof cfg.self = minSysid + (cfg.self.version >>> 2) := by
    rw [pidof, if_neg (by omega), if_pos h4]
  have hsh : cfg.self.version >>> 2 = cfg.self.version / 4 := Nat.shiftRight_eq_div_pow _ 2
  rw [LazyMmap.fsidIno, h, hpid, hsh, minSysid]
  omega

namespace State

theorem cutPage_cases {m m' : Mem} {first page : ℕ} (hs : s.cutPage cfg i first page m = some m') :
    m' = m ∨ ∃ link, m.findCachedPage cfg (s.mm i) (word ((s.mm i).offset + page)) = some link ∧
      s.covered i (word (first + page * pageSize)) = false ∧ m' = m.freePage link ∧
      (cfg.asserts = true → m.hasShares (m.pl link).page = false ∧ m.owner (m.pl link).page = none) := by
  rw [cutPage] at hs
  split at hs
  · cases hs
    exact .inl rfl
  next link hlink =>
  split at hs
  · cases hs
    exact .inl rfl
  next hcov =>
  obtain ⟨_, h1, hs⟩ := Option.bind_eq_some_iff.mp hs
  obtain ⟨_, h2, hs⟩ := Option.bind_eq_some_iff.mp hs
  cases hs
  exact .inr ⟨link, hlink, Bool.eq_false_iff.mpr hcov, rfl, fun ha =>
    ⟨Config.assert_eq_some h1 ha, Config.assert_eq_some h2 ha⟩⟩

theorem cutAnonMmap_induct {P : Mem → Prop} {first last : ℕ} (h : P s.mem)
    (hfree : ∀ m link page, P m → m.findCachedPage cfg (s.mm i) page = some link →
      (cfg.asserts = true → m.hasShares (m.pl link).page = false ∧ m.owner (m.pl link).page = none) → P (m.freePage link))
    (hflush : ∀ m, P m → P m.flushPlbuf) (hs : s.cutAnonMmap cfg i first last = some t) :
    ∃ m, t = { s with mem := m } ∧ P m := by
  obtain ⟨_, -, hs⟩ := Option.bind_eq_some_iff.mp hs
  obtain ⟨m, hm, hs⟩ := Option.bind_eq_some_iff.mp hs
  cases hs
  suffices hfold : ∀ (pages : List ℕ) (m0 : Mem), P m0 →
      pages.foldlM (fun m page => s.cutPage cfg i (max (s.mm i).addr first) page m) m0 = some m → P m from
    ⟨_, rfl, hflush m (hfold _ _ h hm)⟩
  intro pages
  induction pages with
  | nil =>
    intro m0 h0 hf
    cases hf
    exact h0
  | cons page rest ih =>
    intro m0 h0 hf
    rw [List.foldlM_cons] at hf
    obtain ⟨m1, hm1, hf⟩ := Option.bind_eq_some_iff.mp hf
    obtain he | ⟨link, hlink, -, rfl, hassert⟩ := State.cutPage_cases hm1
    · exact ih m1 (he ▸ h0) hf
    · exact ih _ (hfree m0 link _ h0 hlink hassert) hf

end State

theorem Sound.cutAnonMmap {pages : List ℕ} {first last : ℕ} (h : Sound pages s.mem) (ha : cfg.asserts = true)
    (hs : s.cutAnonMmap cfg i first last = some t) : ∃ m, t = { s with mem := m } ∧ Sound pages m ∧ s.mem.Shrinks m := by
  have hfree : ∀ (m : Mem) (link page : ℕ), Sound pages m ∧ s.mem.Shrinks m →
      m.findCachedPage cfg (s.mm i) page = some link →
      (cfg.asserts = true → m.hasShares (m.pl link).page = false ∧ m.owner (m.pl link).page = none) →
      Sound pages (m.freePage link) ∧ s.mem.Shrinks (m.freePage link) := fun m link page ⟨hm, hp⟩ hlink hassert => by
    obtain ⟨hmem, hlive, -⟩ := Mem.findCachedPage_spec hlink
    obtain ⟨hsh, how⟩ := hassert ha
    exact ⟨hm.freeCached hmem hlive fun v hv => hm.books.unheld how hsh hv, hp.vp, hp.next, hp.pages⟩
  exact State.cutAnonMmap_induct (P := fun m => Sound pages m ∧ s.mem.Shrinks m)
    ⟨h, .refl _⟩ hfree (fun m ⟨hm, hp⟩ => ⟨hm.flush, hp.vp, hp.next, hp.pages⟩) hs

theorem Edits.sound {pages : List ℕ} (he : Edits cfg s t) (ha : cfg.asserts = true) (h : Sound pages s.mem) :
    Sound pages t.mem := by
  refine he.keeps (P := fun u => Sound pages u.mem) (fun u v he hu => ?_) h
  cases he with
  | space | resize | copy | new | table | anonIno => exact hu
  | remove _ _ _ _ hm => exact hu.removeVpRange hm
  | cut _ _ _ _ hcut =>
    obtain ⟨m, rfl, hm, -⟩ := hu.cutAnonMmap ha hcut
    exact hm

/-- Between two calls: the pages are sound, shared anonymous memory is the server's own, and a
    space that is not in use has nothing. Since a call began pages were only given up. -/
structure Inv (cfg : Config) (phys : PhysMem) (s₀ s : State) : Prop where
  since : s₀.mem.Shrinks s.mem
  used : ∀ pid, (s.spaces pid).used = (s₀.spaces pid).used
  sound : Sound phys.pages s.mem
  anonSelf : ∀ i, (s.mm i).isAnonMmap = true → (s.mm i).fdServ = cfg.self
  unused : ∀ pid, (s.spaces pid).used = false → s.mem.pages pid = []
  areas : ∀ pid, (s.spaces pid).kipArea ≠ .nil ∨ (s.spaces pid).utcbArea ≠ .nil → (s.spaces pid).used = true

namespace Inv

theorem init : Inv cfg phys (bootState phys) (bootState phys) where
  since := .refl _
  used _ := rfl
  sound := Sound.init phys
  anonSelf _ h := by cases h
  unused _ _ := rfl
  areas _ h := by cases h <;> contradiction

-- Changes of the mappings

theorem setSpace {sp : Space} (h : Inv cfg phys s₀ s) (hu : sp.used = (s.spaces pid).used)
    (ha : sp.kipArea ≠ .nil ∨ sp.utcbArea ≠ .nil → sp.used = true) : Inv cfg phys s₀ (s.setSpace pid sp) := by
  have hused : ∀ q, ((s.setSpace pid sp).spaces q).used = (s.spaces q).used := fun q => by
    rw [State.setSpace_spaces]
    split
    · next he => rw [he, hu]
    · rfl
  refine ⟨h.since, fun q => (hused q).trans (h.used q), h.sound, h.anonSelf, fun q hq => ?_, fun q hq => ?_⟩
  · exact h.unused q (hused q ▸ hq)
  · rw [State.setSpace_spaces] at hq ⊢
    split at hq
    · next he => exact (if_pos he).symm ▸ ha hq
    · next he => exact (if_neg he).symm ▸ h.areas q hq

theorem setMaps {t : RbTree} (h : Inv cfg phys s₀ s) : Inv cfg phys s₀ (s.setMaps pid t) :=
  h.setSpace rfl (h.areas pid)

theorem setLast {o : Option ℕ} (h : Inv cfg phys s₀ s) : Inv cfg phys s₀ (s.setLast pid o) :=
  h.setSpace rfl (h.areas pid)

theorem setMm {mm : LazyMmap} (h : Inv cfg phys s₀ s) (hmm : mm.isAnonMmap = true → mm.fdServ = cfg.self) :
    Inv cfg phys s₀ (s.setMm i mm) where
  since := h.since
  used := h.used
  sound := h.sound
  anonSelf j hj := by
    rw [State.setMm_mm] at hj ⊢
    split at hj
    · next he => exact (if_pos he).symm ▸ hmm hj
    · next he => exact (if_neg he).symm ▸ h.anonSelf j hj
  unused := h.unused
  areas := h.areas

theorem newMm {mm : LazyMmap} (h : Inv cfg phys s₀ s) (hmm : mm.isAnonMmap = true → mm.fdServ = cfg.self) :
    Inv cfg phys s₀ (s.newMm mm).2 :=
  have h1 := h.setMm (i := s.nextMm) hmm
  ⟨h1.since, h1.used, h1.sound, h1.anonSelf, h1.unused, h1.areas⟩

theorem setTable {l : List ℕ} (h : Inv cfg phys s₀ s) : Inv cfg phys s₀ { s with anonMmapTable := l } :=
  ⟨h.since, h.used, h.sound, h.anonSelf, h.unused, h.areas⟩

theorem insertLazyMmap (h : Inv cfg phys s₀ s) (pid i : ℕ) : Inv cfg phys s₀ (s.insertLazyMmap cfg pid i).1 := by
  rw [State.insertLazyMmap]
  split
  · exact h
  · exact h.setMaps

theorem findLazyMmap (h : Inv cfg phys s₀ s) (pid addr : ℕ) : Inv cfg phys s₀ (s.findLazyMmap pid addr).2 := by
  rw [State.findLazyMmap]
  split
  · exact h
  · split
    · exact h.setLast
    · exact h

theorem setMem {m : Mem} (h : Inv cfg phys s₀ s) (hm : Sound phys.pages m) (hs : s.mem.Shrinks m) :
    Inv cfg phys s₀ { s with mem := m } where
  since := h.since.trans hs
  used := h.used
  sound := hm
  anonSelf := h.anonSelf
  unused pid hp := List.eq_nil_of_subset_nil (h.unused pid hp ▸ hs.pages pid)
  areas := h.areas

-- Cutting, where assertions stop the server

theorem cutAnonMmap {first last : ℕ} (h : Inv cfg phys s₀ s) (ha : cfg.asserts = true)
    (hs : s.cutAnonMmap cfg i first last = some t) : Inv cfg phys s₀ t := by
  obtain ⟨m, rfl, hsound, hsh⟩ := h.sound.cutAnonMmap ha hs
  exact h.setMem hsound hsh

theorem removeVpRange {m : Mem} {addr size : ℕ} (h : Inv cfg phys s₀ s)
    (hs : s.mem.removeVpRange cfg pid addr size = some m) : Inv cfg phys s₀ { s with mem := m } :=
  h.setMem (h.sound.removeVpRange hs) (Mem.removeVpRange_shrinks hs)

theorem edit (h : Inv cfg phys s₀ s) (ha : cfg.asserts = true) (he : Edit cfg s t) : Inv cfg phys s₀ t := by
  cases he with
  | space pid sp used kip utcb => exact h.setSpace used (by rw [used, kip, utcb]; exact h.areas pid)
  | resize i => exact h.setMm (h.anonSelf i)
  | copy i => exact h.newMm (h.anonSelf i)
  | new _ hself => exact h.newMm hself
  | table => exact h.setTable
  | anonIno => exact ⟨h.since, h.used, h.sound, h.anonSelf, h.unused, h.areas⟩
  | remove _ _ _ _ hm => exact h.removeVpRange hm
  | cut _ _ _ _ hcut => exact h.cutAnonMmap ha hcut

theorem edits (h : Inv cfg phys s₀ s) (ha : cfg.asserts = true) (he : Edits cfg s t) : Inv cfg phys s₀ t :=
  he.keeps (P := Inv cfg phys s₀) (fun _ _ he h => h.edit ha he) h

end Inv

end Sneks.Vm
