import Sneks.Vm.Addresses
import Sneks.Vm.Anonymous
import Sneks.Vm.Cache
import Sneks.Vm.Conservation
import Sneks.Vm.Cutting
import Sneks.Vm.Layout

/-!
# When `munmap_space` returns

Without assertions it does where the pages can be removed. With them it does where the range is
found, where something is to be unmapped or nothing is mapped at its start, and where what it frees
of shared anonymous memory nothing has any more.
-/

namespace Sneks.Vm
open Lib

variable {cfg : Config} {phys : PhysMem} {s₀ s t u : State} {m m' : Mem} {v pid i c addr fin size : ℕ} {l r : List ℕ}

theorem assert_of {p : Prop} [Decidable p] (h : cfg.asserts = false ∨ p) : cfg.assert p = some () := by
  rw [Config.assert, if_neg]
  rintro ⟨ha, hno⟩
  obtain hoff | hp := h
  · exact absurd (ha.symm.trans hoff) Bool.noConfusion
  · exact hno hp

-- Removing pages

theorem Books.removeVp_returns {phys : List ℕ} {held : ℕ → Prop} (h : Books phys held m) (hv : held v) :
    ∃ m', m.removeVp cfg v = some m' := by
  obtain ⟨l, hl, hlink, hlive, hp⟩ := h.link_home hv
  rw [Mem.removeVp, hlink]
  simp only [Option.bind_eq_bind, Option.bind_some]
  split
  · next hpriv =>
    have hanon : (m.vp v).anon = true := by
      cases ha : (m.vp v).anon with
      | true => rfl
      | false =>
        rw [Mem.home_of_not_anon ha] at hl
        exact absurd hpriv.1 (h.key l hl hlive)
    obtain ⟨howner, hshares⟩ := h.sole v hv hanon hpriv.2
    rw [assert_of (.inr howner), assert_of (.inr (hp ▸ hshares))]
    exact ⟨_, rfl⟩
  · obtain ⟨⟨m1, last⟩, hr⟩ : ∃ x, m.rmShare cfg v = some x := by
      rw [Mem.rmShare]
      split
      · exact ⟨_, rfl⟩
      · next hno =>
        rw [assert_of (.inr ((h.registered v hv).resolve_left hno))]
        exact ⟨_, rfl⟩
    rw [hr]
    exact ⟨_, rfl⟩

theorem Sound.removeVpRange_returns {phys : List ℕ} (h : Sound phys m) (cfg : Config) (pid addr size : ℕ) :
    ∃ m', m.removeVpRange cfg pid addr size = some m' := by
  have key : ∀ (n pos : ℕ) (m : Mem), Sound phys m → ∃ m', Mem.removeVps cfg pid n pos m = some m' := by
    intro n
    induction n with
    | zero => exact fun _ m _ => ⟨m, rfl⟩
    | succ n ih =>
      intro pos m h
      rw [Mem.removeVps]
      split
      · exact ih _ m h
      · next v m1 hpop =>
        obtain ⟨hv, -, hm1⟩ := Mem.popPage_eq_some hpop
        rw [show m1 = m.dropPage pid v from hm1]
        have hbooks : Books phys m.Resident (m.dropPage pid v) := h.books.of_eq
        obtain ⟨m2, hm2⟩ : ∃ m2, (m.dropPage pid v).removeVp cfg v = some m2 := hbooks.removeVp_returns ⟨pid, hv⟩
        obtain ⟨m3, hm3⟩ := ih (pos + pageSize) m2 (h.remove hv hm2)
        exact ⟨m3, by rw [hm2]; exact hm3⟩
  obtain ⟨m', hm'⟩ := key _ addr m h
  exact ⟨_, by rw [Mem.removeVpRange, hm']; rfl⟩

namespace State

-- Cutting

theorem cutAnonMmap_returns {first last : ℕ} (P : Mem → Prop) (hanon : cfg.asserts = false ∨ (s.mm i).isAnonMmap = true)
    (h0 : P s.mem)
    (hcut : ∀ m page link, P m → page < (s.mm i).visits first last →
      m.findCachedPage cfg (s.mm i) (word ((s.mm i).offset + page)) = some link →
      s.covered i (word (max (s.mm i).addr first + page * pageSize)) = false →
        (cfg.asserts = false ∨ m.hasShares (m.pl link).page = false ∧ m.owner (m.pl link).page = none) ∧
          P (m.freePage link)) :
    ∃ t, s.cutAnonMmap cfg i first last = some t := by
  have hfold : ∀ (ps : List ℕ) (m : Mem), (∀ page ∈ ps, page < (s.mm i).visits first last) → P m →
      ∃ m', ps.foldlM (fun m page => s.cutPage cfg i (max (s.mm i).addr first) page m) m = some m' := by
    intro ps
    induction ps with
    | nil => exact fun m _ _ => ⟨m, rfl⟩
    | cons page ps ih =>
      intro m hps hm
      obtain ⟨m1, hm1, hP⟩ : ∃ m1, s.cutPage cfg i (max (s.mm i).addr first) page m = some m1 ∧ P m1 := by
        unfold cutPage
        split
        · exact ⟨m, rfl, hm⟩
        · next link hlink =>
          split
          · exact ⟨m, rfl, hm⟩
          · next hcov =>
            obtain ⟨hloose, hP⟩ := hcut m page link hm (hps page List.mem_cons_self) hlink (Bool.eq_false_iff.mpr hcov)
            rw [assert_of (hloose.imp_right And.left), assert_of (hloose.imp_right And.right)]
            exact ⟨_, rfl, hP⟩
      obtain ⟨m2, hm2⟩ := ih m1 (fun page hp => hps page (List.mem_cons_of_mem _ hp)) hP
      exact ⟨m2, by rw [List.foldlM_cons, hm1]; exact hm2⟩
  obtain ⟨m, hm⟩ := hfold (List.range ((s.mm i).visits first last)) s.mem (fun _ => List.mem_range.mp) h0
  rw [cutAnonMmap_eq, assert_of hanon, Option.bind_some, hm]
  exact ⟨_, rfl⟩

/-- The state in which `cut_anon_mmap` is called for the mapping `c`. -/
structure Cuts (s u : State) (c : ℕ) : Prop where
  mem : u.mem = s.mem
  table : u.anonMmapTable = s.anonMmapTable
  others : ∀ j, j ≠ c → u.mm j = s.mm j
  self : ∃ length tailsz, u.mm c = (s.mm c).resize (s.mm c).addr length tailsz

theorem Cuts.refl (s : State) (c : ℕ) : Cuts s s c := ⟨rfl, rfl, fun _ _ => rfl, _, _, rfl⟩

theorem Cuts.cutTo (s : State) (c addr : ℕ) : Cuts s (s.setMm c ((s.mm c).cutTo addr)) c := by
  refine ⟨rfl, rfl, fun j hj => ?_, wordSub addr (s.mm c).addr, pageSize, ?_⟩
  · rw [setMm_mm, if_neg hj]
  · rw [setMm_mm, if_pos rfl]
    rfl

theorem unmapOne_returns (h : Mapped s pid) (hm : s.mmaps pid = l ++ c :: r) (haddr : addr % pageSize = 0)
    (hfin : fin % pageSize = 0) (hle : addr ≤ fin) (hover : addr < (s.mm c).stop) (hover' : (s.mm c).addr < fin)
    (hcut : (s.mm c).isAnonMmap = true → ∀ u first last, first ≤ (s.mm c).addr → Cuts s u c →
      (u.mm c).visits first last = (s.mm c).looks addr fin → ∃ t, u.cutAnonMmap cfg c first last = some t) :
    ∃ t, s.unmapOne cfg pid addr fin c = some t := by
  have hc := h.valid (i := c) (by rw [hm]; simp)
  simp only [unmapOne, hc.fin_eq]
  split
  · next hwhole =>
    simp only [unmapWhole, dropAnon]
    split
    · next hanon =>
      obtain ⟨t, ht⟩ := hcut hanon s 0 0 (Nat.zero_le _) (Cuts.refl s c)
        (by rw [LazyMmap.visits_whole hc, LazyMmap.looks, if_pos hwhole])
      rw [ht]
      exact ⟨_, rfl⟩
    · exact ⟨_, rfl⟩
  next hwhole =>
  split
  · next hmid =>
    obtain ⟨hok, hrep⟩ := splitMmap_spec cfg h hm haddr hfin hmid.1 hle hmid.2
    simp only [unmapMiddle, hok, assert_of (.inr trivial), Option.bind_eq_bind, Option.bind_some]
    split
    · next hanon =>
      -- nothing is looked at
      have hne : c ≠ s.nextMm := Nat.ne_of_lt (h.fresh c (by rw [hm]; simp))
      have hself : (s.splitMmap cfg pid addr fin c).1.mm c = (s.mm c).cutTo addr := by
        have hmm := @FromZero.insertLazyMmap_mm cfg ((s.newMm ((s.mm c).moveUp fin)).2.setMm c ((s.mm c).cutTo addr))
          pid s.nextMm
        refine (congrFun hmm c).trans ?_
        rw [setMm_mm, if_pos rfl]
      have hnone : ((s.splitMmap cfg pid addr fin c).1.mm c).visits
          ((s.splitMmap cfg pid addr fin c).1.mm c).fin (wordSub fin 1) = 0 := by
        rw [hself]
        exact LazyMmap.visits_middle hc haddr hfin hmid.1 hle hmid.2
      have hanon' : ((s.splitMmap cfg pid addr fin c).1.mm c).isAnonMmap = true := by
        rw [hself]
        exact hanon
      rw [cutAnonMmap_eq, assert_of (.inr hanon'), Option.bind_some, hnone]
      exact ⟨_, rfl⟩
    · exact ⟨_, rfl⟩
  next hmid =>
  split
  · next hlo =>
    simp only [unmapLeft, hc.fin_eq, assert_of (.inr hover), Option.bind_eq_bind, Option.bind_some]
    split
    · next hanon =>
      refine hcut hanon _ _ _ le_rfl (Cuts.cutTo s c addr) ?_
      rw [setMm_mm, if_pos rfl, LazyMmap.visits_left hc haddr hlo hover, LazyMmap.looks, if_neg hwhole, if_neg hmid, if_pos hlo]
    · exact ⟨_, rfl⟩
  next hlo =>
  · have hend : fin < (s.mm c).stop := by omega
    simp only [unmapRight, hc.fin_eq, assert_of (.inr hend), assert_of (.inr hover'), Option.bind_eq_bind, Option.bind_some]
    split
    · next hanon =>
      obtain ⟨t, ht⟩ := hcut hanon s (s.mm c).addr (wordSub addr 1) le_rfl (Cuts.refl s c)
        (by rw [LazyMmap.visits_right hc haddr (Nat.le_of_not_lt hlo), LazyMmap.looks, if_neg hwhole, if_neg hmid, if_neg hlo])
      rw [ht]
      exact ⟨_, rfl⟩
    · exact ⟨_, rfl⟩

theorem munmapLoop_returns {n : ℕ} (J : List ℕ → State → Prop)
    (hcut : ∀ u c r, J (c :: r) u → (u.mm c).addr < fin → (u.mm c).isAnonMmap = true → ∀ w first last,
      first ≤ (u.mm c).addr → Cuts u w c → (w.mm c).visits first last = (u.mm c).looks addr fin →
        ∃ t, w.cutAnonMmap cfg c first last = some t)
    (hnext : ∀ u v c r, J (c :: r) u → (u.mm c).addr < fin → u.unmapOne cfg pid addr fin c = some v →
      u.nextMm ≤ v.nextMm → (∀ i ∈ r, v.mm i = u.mm i) → J r v)
    (h : Mapped s pid) (hm : s.mmaps pid = l ++ r) (haddr : addr % pageSize = 0) (hfin : fin % pageSize = 0)
    (hle : addr ≤ fin) (hr : ∀ i ∈ r, addr < (s.mm i).stop) (hn : r.length ≤ n) (hJ : J r s) :
    ∃ t, munmapLoop cfg pid addr fin n s r.head? = some t := by
  induction n generalizing s l r with
  | zero =>
    obtain rfl := List.eq_nil_of_length_eq_zero (Nat.le_zero.mp hn)
    exact ⟨s, rfl⟩
  | succ n ih =>
    cases r with
    | nil => exact ⟨s, rfl⟩
    | cons c r =>
      have hmem : c ∈ s.mmaps pid := by rw [hm]; simp
      have hover := hr c List.mem_cons_self
      have hassert : addr ≤ (s.mm c).addr ∨ addr < (s.mm c).fin := .inr (by rw [(h.valid hmem).fin_eq]; exact hover)
      simp only [List.head?_cons, munmapLoop, assert_of (.inr hassert), Option.bind_eq_bind, Option.bind_some]
      split
      · exact ⟨s, rfl⟩
      · next hover' =>
        have hlow := not_le.mp hover'
        obtain ⟨u, hu⟩ := unmapOne_returns h hm haddr hfin hle hover hlow (hcut s c r hJ hlow)
        have hrep := unmapOne_replaced h hm haddr hfin hle hover hlow hu
        obtain ⟨new, hnew, -, -⟩ := hrep.mmaps
        have hold : ∀ i ∈ r, u.mm i = s.mm i := fun i hi => hrep.mm i (List.mem_append_right _ hi)
        rw [hu, Option.bind_some, h.nextMmap_eq hm]
        refine ih (hrep.mapped h hm haddr hfin hle) hnew (fun i hi => ?_) (Nat.le_of_succ_le_succ hn)
          (hnext s u c r hJ hlow hu hrep.next hold)
        rw [hold i hi]
        exact hr i (List.mem_cons_of_mem _ hi)

theorem munmapLoop_first (J : List ℕ → State → Prop)
    (hcut : ∀ u c r, J (c :: r) u → (u.mm c).addr < addr + size → (u.mm c).isAnonMmap = true → ∀ w first last,
      first ≤ (u.mm c).addr → Cuts u w c → (w.mm c).visits first last = (u.mm c).looks addr (addr + size) →
        ∃ t, w.cutAnonMmap cfg c first last = some t)
    (hnext : ∀ u v c r, J (c :: r) u → (u.mm c).addr < addr + size → u.unmapOne cfg pid addr (addr + size) c = some v →
      u.nextMm ≤ v.nextMm → (∀ i ∈ r, v.mm i = u.mm i) → J r v)
    (h : Mapped s pid) (haddr : addr % pageSize = 0) (hsize : size % pageSize = 0) (hlt : addr + size < 2 ^ 32)
    (hJ : ∀ r, (∀ i ∈ r, i ∈ s.mmaps pid ∧ addr < (s.mm i).stop) → J r { s with mem := m }) :
    ∃ u, munmapLoop cfg pid addr (addr + size) ((s.mmaps pid).length + 2) { s with mem := m }
      (s.firstLazyMmap pid addr size) = some u := by
  have h' : Mapped { s with mem := m } pid := ⟨h.inOrder, h.fresh, h.last⟩
  have hfin : (addr + size) % pageSize = 0 := by
    simp only [pageSize] at *
    omega
  obtain ⟨y, -, -, hfirst⟩ | ⟨l, c, r, hsplit, -, hc, -, hfirst, -⟩ | ⟨hfirst, -⟩ := h.firstLazyMmap_cases hlt
  · rw [hfirst]
    exact ⟨_, rfl⟩
  · rw [hfirst]
    have hr : ∀ i ∈ c :: r, i ∈ s.mmaps pid ∧ addr < (s.mm i).stop := fun i hi =>
      ⟨by rw [hsplit]; exact List.mem_append_right _ hi, h.stop_of_mem hsplit hc i hi⟩
    refine munmapLoop_returns (r := c :: r) J hcut hnext h' hsplit haddr hfin (Nat.le_add_right _ _)
      (fun i hi => (hr i hi).2) ?_ (hJ _ hr)
    have hlen := congrArg List.length hsplit
    rw [List.length_append] at hlen
    omega
  · rw [hfirst]
    exact ⟨_, rfl⟩

-- Without assertions

theorem munmapSpace_returns (ha : cfg.asserts = false) (h : Mapped s pid) (haddr : addr % pageSize = 0)
    (hsize : size % pageSize = 0) (hlt : addr + size < 2 ^ 32) (hm : s.mem.removeVpRange cfg pid addr size = some m) :
    ∃ t, s.munmapSpace cfg pid addr size = some t := by
  obtain ⟨u, hu⟩ := munmapLoop_first (fun _ _ => True)
    (fun _ _ _ _ _ _ _ _ _ _ _ _ => cutAnonMmap_returns (fun _ => True) (.inl ha) trivial fun _ _ _ _ _ _ _ => ⟨.inl ha, trivial⟩)
    (fun _ _ _ _ _ _ _ _ _ => trivial) h haddr hsize hlt fun _ _ => trivial
  refine ⟨u, ?_⟩
  simp only [munmapSpace, assert_of (.inl ha), hm, Option.bind_eq_bind, Option.bind_some, word_of_lt hlt]
  change (munmapLoop cfg pid addr (addr + size) ((s.mmaps pid).length + 2) { s with mem := m }
    (s.firstLazyMmap pid addr size)).bind _ = _
  rw [hu]
  rfl

-- With assertions

/-- The page `k` of the memory of `i` is covered by a mapping that the range leaves. -/
def Elsewhere (s : State) (pid addr fin i k : ℕ) : Prop :=
  ∃ q, ∃ j ∈ s.mmaps q, j ∈ s.anonMmapTable ∧ (q = pid → ¬ (addr < (s.mm j).stop ∧ (s.mm j).addr < fin)) ∧
    (s.mm j).ino = (s.mm i).ino ∧
    overlapExcl (word ((s.mm i).addr + k * pageSize)) pageSize (s.mm j).addr (s.mm j).length = true

def Spared (s : State) (pid addr fin : ℕ) : Prop :=
  ∀ i ∈ s.mmaps pid, addr < (s.mm i).stop → (s.mm i).addr < fin → (s.mm i).isAnonMmap = true →
    ∀ k < (s.mm i).looks addr fin, ∀ l ∈ s.mem.cache, (s.mm i).isAt (word ((s.mm i).offset + k)) (s.mem.pl l) →
      s.Elsewhere pid addr fin i k ∨ ∀ q, ∀ v ∈ s.mem.pages q, (s.mem.vp v).status = (s.mem.pl l).page →
        q = pid ∧ addr ≤ (s.mem.vp v).addr ∧ (s.mem.vp v).addr < fin

theorem insertLazyMmap_frame (s : State) (pid i : ℕ) : (s.insertLazyMmap cfg pid i).1.mm = s.mm ∧
    (s.insertLazyMmap cfg pid i).1.anonMmapTable = s.anonMmapTable := by
  unfold insertLazyMmap
  split <;> exact ⟨rfl, rfl⟩

theorem cutAnonMmap_frame {first last : ℕ} (hs : s.cutAnonMmap cfg i first last = some t) :
    t.mm = s.mm ∧ t.anonMmapTable = s.anonMmapTable := by
  obtain ⟨m, rfl, -⟩ := cutAnonMmap_same hs
  exact ⟨rfl, rfl⟩

theorem unmapOne_others {j : ℕ} (hu : s.unmapOne cfg pid addr fin c = some t) (hj : j ≠ c) (hnew : j ≠ s.nextMm) :
    t.mm j = s.mm j ∧ (j ∈ s.anonMmapTable → j ∈ t.anonMmapTable) := by
  simp only [unmapOne] at hu
  split at hu
  · obtain ⟨v, hv, hu⟩ := Option.bind_eq_some_iff.mp hu
    have hdrop : v.mm = s.mm ∧ (j ∈ s.anonMmapTable → j ∈ v.anonMmapTable) := by
      split at hv
      · obtain ⟨w, hw, rfl⟩ := Option.map_eq_some_iff.mp hv
        obtain ⟨hmm, htable⟩ := cutAnonMmap_frame hw
        refine ⟨hmm, fun hmem => ?_⟩
        show j ∈ w.anonMmapTable.erase c
        rw [htable]
        exact (List.mem_erase_of_ne hj).mpr hmem
      · cases hv
        exact ⟨rfl, id⟩
    cases hu
    split <;> exact ⟨congrFun hdrop.1 j, hdrop.2⟩
  split at hu
  · have hsplit : (s.splitMmap cfg pid addr fin c).1.mm j = s.mm j := by
      refine (congrFun (insertLazyMmap_frame _ pid s.nextMm).1 j).trans ?_
      rw [setMm_mm, if_neg hj]
      exact Function.update_of_ne hnew _ _
    have htable : (s.splitMmap cfg pid addr fin c).1.anonMmapTable = s.anonMmapTable :=
      (insertLazyMmap_frame _ pid s.nextMm).2
    obtain ⟨_, -, hu⟩ := Option.bind_eq_some_iff.mp hu
    split at hu
    · obtain ⟨v, hv, he⟩ := Option.bind_eq_some_iff.mp hu
      cases he
      obtain ⟨hmm, htable'⟩ := cutAnonMmap_frame hv
      refine ⟨(congrFun hmm j).trans hsplit, fun hmem => List.mem_cons_of_mem _ ?_⟩
      rw [htable', htable]
      exact hmem
    · cases hu
      exact ⟨hsplit, fun hmem => htable ▸ hmem⟩
  split at hu
  · obtain ⟨_, -, hu⟩ := Option.bind_eq_some_iff.mp hu
    have hcut : (s.setMm c ((s.mm c).cutTo addr)).mm j = s.mm j := by rw [setMm_mm, if_neg hj]
    split at hu
    · obtain ⟨hmm, htable⟩ := cutAnonMmap_frame hu
      exact ⟨(congrFun hmm j).trans hcut, fun hmem => htable ▸ hmem⟩
    · cases hu
      exact ⟨hcut, id⟩
  · obtain ⟨_, -, hu⟩ := Option.bind_eq_some_iff.mp hu
    obtain ⟨_, -, hu⟩ := Option.bind_eq_some_iff.mp hu
    obtain ⟨v, hv, hu⟩ := Option.bind_eq_some_iff.mp hu
    cases hu
    have hkeep : v.mm = s.mm ∧ v.anonMmapTable = s.anonMmapTable := by
      split at hv
      · exact cutAnonMmap_frame hv
      · cases hv
        exact ⟨rfl, rfl⟩
    refine ⟨?_, fun hmem => hkeep.2 ▸ hmem⟩
    rw [setMm_mm, if_neg hj, hkeep.1]

/-- Before a turn of the loop, with the mappings `r` to go. -/
structure Turn (cfg : Config) (phys : PhysMem) (s₀ s : State) (m : Mem) (pid addr fin : ℕ) (r : List ℕ) (u : State) : Prop where
  inv : Inv cfg phys s₀ u
  frees : s.mem.Frees u.mem
  shrinks : m.Shrinks u.mem
  next : s.nextMm ≤ u.nextMm
  rest : ∀ i ∈ r, i ∈ s.mmaps pid ∧ addr < (s.mm i).stop ∧ u.mm i = s.mm i
  others : ∀ q, ∀ j ∈ s.mmaps q, j ∈ s.anonMmapTable → (q = pid → ¬ (addr < (s.mm j).stop ∧ (s.mm j).addr < fin)) →
    u.mm j = s.mm j ∧ j ∈ u.anonMmapTable

namespace Turn

variable {phys : PhysMem} {s₀ : State}

theorem loose {k link : ℕ} {w : State} (h : Turn cfg phys s₀ s m pid addr fin (c :: r) u) (hl : Layout s)
    (hlt : ∀ l ∈ s.mem.cache, l < s.mem.nextPl)
    (hgone : ∀ v ∈ m.pages pid, ¬ (addr ≤ (m.vp v).addr ∧ (m.vp v).addr < fin)) (hm : s.mem.Shrinks m)
    (hspared : s.Spared pid addr fin) (hlow : (u.mm c).addr < fin) (hanon : (u.mm c).isAnonMmap = true)
    (hw : Cuts u w c) (hk : k < (u.mm c).looks addr fin) {m' : Mem} (hfrees : s.mem.Frees m') (hshr : m.Shrinks m')
    (hlink : m'.findCachedPage cfg (w.mm c) (word ((w.mm c).offset + k)) = some link)
    (hcov : w.covered c (word ((w.mm c).addr + k * pageSize)) = false) (q v : ℕ) (hv : v ∈ m'.pages q) :
    (m'.vp v).status ≠ (m'.pl link).page := by
  obtain ⟨hc, hstop, hmm⟩ := h.rest c List.mem_cons_self
  obtain ⟨length, tailsz, hself⟩ := hw.self
  obtain ⟨hmem, hat⟩ := Mem.findCachedPage_spec hlink
  rw [hmm] at hlow hanon hk
  rw [hself, hmm] at hat
  have hold : m'.pl link = s.mem.pl link := hfrees.live (hlt link (hfrees.cache ▸ hmem)) hat.1
  rw [hold] at hat ⊢
  obtain ⟨q', j, hj, htable, hleft, hino, hover⟩ | hgone' :=
    hspared c hc hstop hlow hanon k hk link (hfrees.cache ▸ hmem) hat
  · -- it is covered still
    have hne : j ≠ c := by
      rintro rfl
      exact hleft (hl.apart _ _ j hj hc) ⟨hstop, hlow⟩
    obtain ⟨hj', hjt⟩ := h.others q' j hj htable hleft
    have hwj : w.mm j = s.mm j := (hw.others j hne).trans hj'
    have hyes : w.covered c (word ((w.mm c).addr + k * pageSize)) = true := by
      refine List.any_eq_true.mpr ⟨j, hw.table ▸ hjt, ?_⟩
      rw [hwj, hself, hmm]
      exact decide_eq_true ⟨hino, hne, hover⟩
    rw [hcov] at hyes
    cases hyes
  · intro hst
    have hvp : m'.vp = s.mem.vp := hshr.vp.trans hm.vp
    rw [hvp] at hst
    obtain ⟨rfl, hin⟩ := hgone' q v (hm.pages q (hshr.pages q hv)) hst
    rw [← hm.vp] at hin
    exact hgone v (hshr.pages q hv) hin

theorem cut {w : State} {first last : ℕ} (h : Turn cfg phys s₀ s m pid addr fin (c :: r) u) (hl : Layout s)
    (hlt : ∀ l ∈ s.mem.cache, l < s.mem.nextPl)
    (hgone : ∀ v ∈ m.pages pid, ¬ (addr ≤ (m.vp v).addr ∧ (m.vp v).addr < fin)) (hm : s.mem.Shrinks m)
    (hspared : s.Spared pid addr fin) (hlow : (u.mm c).addr < fin) (hanon : (u.mm c).isAnonMmap = true)
    (hfirst : first ≤ (u.mm c).addr) (hw : Cuts u w c) (hlooks : (w.mm c).visits first last = (u.mm c).looks addr fin) :
    ∃ t, w.cutAnonMmap cfg c first last = some t := by
  obtain ⟨length, tailsz, hself⟩ := hw.self
  have hat : (w.mm c).addr = (u.mm c).addr := by rw [hself]; rfl
  have hanon' : (w.mm c).isAnonMmap = true := by rw [hself]; exact hanon
  refine cutAnonMmap_returns (fun m' => Sound phys.pages m' ∧ s.mem.Frees m' ∧ m.Shrinks m') (.inr hanon')
    (hw.mem ▸ ⟨h.inv.sound, h.frees, h.shrinks⟩) fun m' k link ⟨hsound, hfrees, hshr⟩ hk hlink hcov => ?_
  rw [Nat.max_eq_left (hat ▸ hfirst)] at hcov
  have hno : ∀ v, m'.Resident v → (m'.vp v).status ≠ (m'.pl link).page := fun v ⟨q, hv⟩ =>
    h.loose hl hlt hgone hm hspared hlow hanon hw (hlooks ▸ hk) hfrees hshr hlink hcov q v hv
  obtain ⟨hmem, hlive, -⟩ := Mem.findCachedPage_spec hlink
  exact ⟨.inr ⟨hsound.books.hasShares_eq_false hno, hsound.books.owner_eq_none hno⟩, hsound.freeCached hmem hlive hno,
    hfrees.trans (.freePage m' link), hshr.vp, hshr.next, hshr.pages⟩

theorem step {v : State} (h : Turn cfg phys s₀ s m pid addr fin (c :: r) u) (hl : Layout s) (ha : cfg.asserts = true)
    (hlow : (u.mm c).addr < fin) (hv : u.unmapOne cfg pid addr fin c = some v) (hnext : u.nextMm ≤ v.nextMm)
    (hmm : ∀ i ∈ r, v.mm i = u.mm i) : Turn cfg phys s₀ s m pid addr fin r v := by
  have hedits := (Edits.refl cfg u).unmapOne hv
  obtain ⟨hc, hstop, hself⟩ := h.rest c List.mem_cons_self
  refine ⟨h.inv.edits ha hedits, h.frees.trans hedits.frees, h.shrinks.trans hedits.shrinks, h.next.trans hnext,
    fun i hi => ?_, fun q j hj htable hleft => ?_⟩
  · obtain ⟨him, hstop', hi'⟩ := h.rest i (List.mem_cons_of_mem _ hi)
    exact ⟨him, hstop', (hmm i hi).trans hi'⟩
  · obtain ⟨hj', hjt⟩ := h.others q j hj htable hleft
    have hne : j ≠ c := by
      rintro rfl
      exact hleft (hl.apart _ _ j hj hc) ⟨hstop, by rwa [hself] at hlow⟩
    have hold : j ≠ u.nextMm := Nat.ne_of_lt (Nat.lt_of_lt_of_le ((hl.mapped q).fresh j hj) h.next)
    obtain ⟨hvj, hvt⟩ := unmapOne_others hv hne hold
    exact ⟨hvj.trans hj', hvt hjt⟩

end Turn

/-- `munmap_space` passes its assertions where the range is found, something is to be unmapped or
    nothing is mapped at its start, and what is freed is had in the range only. -/
theorem munmapSpace_passes {phys : PhysMem} {s₀ : State} (ha : cfg.asserts = true) (hinv : Inv cfg phys s₀ s) (hl : Layout s)
    (hpaged : Paged s.mem pid) (haddr : addr % pageSize = 0) (hsize : size % pageSize = 0) (hlt : addr + size < 2 ^ 32)
    (hfound : Found s pid addr (addr + size)) (hpos : size = 0 → ∀ i ∈ s.mmaps pid, ¬ (s.mm i).Covers addr)
    (hspared : s.Spared pid addr (addr + size)) : ∃ t, s.munmapSpace cfg pid addr size = some t := by
  obtain ⟨m, hm⟩ := hinv.sound.removeVpRange_returns cfg pid addr size
  have hmap := hl.mapped pid
  have hshr := Mem.removeVpRange_shrinks hm
  have hvalid : validAddrSize addr size = true := decide_eq_true (by omega)
  have hlinks : ∀ l ∈ s.mem.cache, l < s.mem.nextPl := fun l hl => hinv.sound.books.links.lt l (by simp [hl])
  have hgone : ∀ v ∈ m.pages pid, ¬ (addr ≤ (m.vp v).addr ∧ (m.vp v).addr < addr + size) := fun v hv => by
    obtain ⟨hvp, hmem⟩ := removeVpRange_spec hpaged haddr hsize hlt hm
    rw [hvp]
    exact ((hmem v).mp hv).2
  have hstart : ∀ r, (∀ i ∈ r, i ∈ s.mmaps pid ∧ addr < (s.mm i).stop) →
      Turn cfg phys s₀ s m pid addr (addr + size) r { s with mem := m } := fun r hr =>
    ⟨hinv.removeVpRange hm, .removeVpRange hm, .refl m, Nat.le_refl _, fun i hi => ⟨(hr i hi).1, (hr i hi).2, rfl⟩,
      fun _ _ _ htable _ => ⟨rfl, htable⟩⟩
  obtain ⟨u, hu⟩ := munmapLoop_first (Turn cfg phys s₀ s m pid addr (addr + size))
    (fun u c r h hlow hanon w first last hfirst hw hlooks => h.cut hl hlinks hgone hshr hspared hlow hanon hfirst hw hlooks)
    (fun u v c r h hlow hv hnext hmm => h.step hl ha hlow hv hnext hmm) hmap haddr hsize hlt hstart
  -- after the loop nothing is found
  have hclosing : u.firstLazyMmap pid addr size = none := by
    obtain ⟨-, hmapu, hcut, -⟩ := munmapLoop_maps hmap haddr hsize hlt hu
    obtain ⟨y, -, -, hnone⟩ | ⟨l, c, r, hsplit, -, hstop, hlow, -, -⟩ | ⟨hnone, -⟩ := hmapu.firstLazyMmap_cases hlt
    · exact hnone
    · have hc : c ∈ u.mmaps pid := by rw [hsplit]; simp
      obtain hzero | hsome := Nat.eq_zero_or_pos size
      · have hsame : u.records pid = s.records pid := by
          rw [hcut hfound]
          refine flatMap_cut_of_outside fun mm hmm => ?_
          obtain ⟨i, hi, rfl⟩ := List.mem_map.mp hmm
          have hno : ¬ ((s.mm i).addr ≤ addr ∧ addr < (s.mm i).stop) := hpos hzero i hi
          omega
        have hmem : u.mm c ∈ s.records pid := hsame ▸ List.mem_map_of_mem hc
        obtain ⟨i, hi, he⟩ := List.mem_map.mp hmem
        refine absurd ?_ (hpos hzero i hi)
        rw [he]
        exact ⟨by omega, hstop⟩
      · exact absurd ⟨c, hc, hstop, by omega⟩ (not_taken_of_cut hmap.inOrder haddr (hcut hfound))
    · exact hnone
  refine ⟨u, ?_⟩
  simp only [munmapSpace, assert_of (.inr (And.intro haddr hsize)), assert_of (.inr hvalid), hm, Option.bind_eq_bind,
    Option.bind_some, word_of_lt hlt]
  change (munmapLoop cfg pid addr (addr + size) ((s.mmaps pid).length + 2) { s with mem := m }
    (s.firstLazyMmap pid addr size)).bind _ = _
  rw [hu, Option.bind_some, assert_of (.inr hclosing)]
  rfl

end State

end Sneks.Vm
