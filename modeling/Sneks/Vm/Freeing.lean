import Mathlib.Data.List.Find
import Sneks.Vm.Mmap
import Sneks.Vm.Returns

/-!
# What unmapping frees of shared anonymous memory

`cut_anon_mmap` (`sys/vm/vm.c`) looks at pages from page 0 on, whatever part of the mapping goes, and
keeps a page if another mapping of the memory covers the address that the page has in this one.
-/

namespace Sneks.Vm
open Lib

variable {cfg : Config} {phys : PhysMem} {s₀ s t u v w : State} {m m' : Mem} {mm : LazyMmap} {pid i c k l n first last : ℕ}

theorem Mem.Frees.find (h : m.Frees m') (hlt : ∀ l ∈ m.cache, l < m.nextPl)
    (hkeep : ∀ l ∈ m.cache, mm.isAt k (m.pl l) → m'.pl l = m.pl l) :
    m'.findCachedPage cfg mm k = m.findCachedPage cfg mm k := by
  rw [findCachedPage, findCachedPage, List.find?_filter, List.find?_filter, h.cache]
  refine List.find?_congr fun l hl => ?_
  obtain he | hdead := h.pl l (hlt l hl)
  · rw [he]
  · have hnot' : ¬ mm.isAt k (m'.pl l) := fun hat => by
      rw [hat.1] at hdead
      cases hdead
    have hnot : ¬ mm.isAt k (m.pl l) := fun hat => hnot' (hkeep l hl hat ▸ hat)
    simp only [hnot, hnot', decide_false, Bool.false_eq_true, and_false]

namespace State

/-- One of the first `n` turns frees the link. -/
def Hit (cfg : Config) (s : State) (i first n l : ℕ) : Prop :=
  ∃ k < n, s.mem.findCachedPage cfg (s.mm i) k = some l ∧ s.covered i (word (first + k * pageSize)) = false

theorem Hit.at (h : s.Hit cfg i first n l) (hzero : (s.mm i).offset = 0) (hn : n ≤ 2 ^ 32) :
    (s.mem.pl l).offset < n ∧ (s.mm i).isAt (s.mem.pl l).offset (s.mem.pl l) := by
  obtain ⟨k, hk, hfind, -⟩ := h
  obtain ⟨-, hat⟩ := Mem.findCachedPage_spec hfind
  have hoff : (s.mem.pl l).offset = k := by
    rw [hat.2.2.1, hzero, Nat.zero_add, word_of_lt (Nat.lt_of_lt_of_le hk hn)]
  rw [hoff]
  exact ⟨hk, hat⟩

/-- The loop of `cut_anon_mmap` has freed what its turns hit, and passed their assertions. -/
structure Swept (cfg : Config) (s : State) (i first n : ℕ) (m : Mem) : Prop where
  frees : s.mem.Frees m
  pl : ∀ l ∈ s.mem.cache,
    m.pl l = s.mem.pl l ∧ ¬ s.Hit cfg i first n l ∨ (m.pl l).live = false ∧ s.Hit cfg i first n l
  owner : m.owner = s.mem.owner
  shares : m.hasShares = s.mem.hasShares
  loose : cfg.asserts = true → ∀ l, s.Hit cfg i first n l →
    s.mem.hasShares (s.mem.pl l).page = false ∧ s.mem.owner (s.mem.pl l).page = none

theorem hit_succ {n : ℕ} : s.Hit cfg i first (n + 1) l ↔ s.Hit cfg i first n l ∨
    s.mem.findCachedPage cfg (s.mm i) n = some l ∧ s.covered i (word (first + n * pageSize)) = false := by
  constructor
  · rintro ⟨k, hk, hhit⟩
    obtain hk | rfl := Nat.lt_succ_iff_lt_or_eq.mp hk
    · exact .inl ⟨k, hk, hhit⟩
    · exact .inr hhit
  · rintro (⟨k, hk, hhit⟩ | hhit)
    · exact ⟨k, Nat.lt_succ_of_lt hk, hhit⟩
    · exact ⟨n, Nat.lt_succ_self n, hhit⟩

theorem Swept.find (h : Swept cfg s i first n m) (hzero : (s.mm i).offset = 0) (hlt : ∀ l ∈ s.mem.cache, l < s.mem.nextPl)
    (hn : n < 2 ^ 32) : m.findCachedPage cfg (s.mm i) n = s.mem.findCachedPage cfg (s.mm i) n := by
  refine h.frees.find hlt fun l hl hat => ?_
  obtain ⟨he, -⟩ | ⟨-, hhit⟩ := h.pl l hl
  · exact he
  · have hoff : (s.mem.pl l).offset = n := by rw [hat.2.2.1, hzero, Nat.zero_add, word_of_lt hn]
    have hlow := (hhit.at hzero hn.le).1
    omega

theorem Swept.skip (h : Swept cfg s i first n m) (hno : ∀ l, ¬ (s.mem.findCachedPage cfg (s.mm i) n = some l ∧
    s.covered i (word (first + n * pageSize)) = false)) : Swept cfg s i first (n + 1) m := by
  have hhit (l : ℕ) : s.Hit cfg i first (n + 1) l ↔ s.Hit cfg i first n l := by
    rw [hit_succ, or_iff_left (hno l)]
  refine ⟨h.frees, fun l hl => ?_, h.owner, h.shares, fun ha l hl => h.loose ha l ((hhit l).mp hl)⟩
  rw [hhit]
  exact h.pl l hl

theorem Swept.free (h : Swept cfg s i first n m) (hlt : ∀ l ∈ s.mem.cache, l < s.mem.nextPl)
    (hlink : s.mem.findCachedPage cfg (s.mm i) n = some k) (hlink' : m.findCachedPage cfg (s.mm i) n = some k)
    (hcov : s.covered i (word (first + n * pageSize)) = false)
    (hassert : cfg.asserts = true → m.hasShares (m.pl k).page = false ∧ m.owner (m.pl k).page = none) :
    Swept cfg s i first (n + 1) (m.freePage k) := by
  have hmem := (Mem.findCachedPage_spec hlink).1
  have hsame : m.pl k = s.mem.pl k := h.frees.live (hlt k hmem) (Mem.findCachedPage_spec hlink').2.1
  refine ⟨h.frees.trans (.freePage m k), fun l hl => ?_, h.owner, h.shares, fun ha l hl => ?_⟩
  · have hold : (m.freePage k).pl l = Function.update m.pl k { m.pl k with live := false } l :=
      Function.update_of_ne (Nat.ne_of_lt (Nat.lt_of_lt_of_le (hlt l hl) h.frees.next)) _ _
    rw [hit_succ, hold]
    by_cases he : l = k
    · subst he
      rw [Function.update_self]
      exact .inr ⟨rfl, .inr ⟨hlink, hcov⟩⟩
    · rw [Function.update_of_ne he]
      refine (h.pl l hl).imp (And.imp_right fun hno hyes => ?_) (And.imp_right .inl)
      obtain hyes | ⟨hyes, -⟩ := hyes
      · exact hno hyes
      · exact he (Option.some.inj (hyes.symm.trans hlink))
  · obtain hl | ⟨hl, -⟩ := hit_succ.mp hl
    · exact h.loose ha l hl
    · obtain rfl := Option.some.inj (hlink.symm.trans hl)
      rw [← h.shares, ← h.owner, ← hsame]
      exact hassert ha

theorem cutPages_spec (hzero : (s.mm i).offset = 0) (hlt : ∀ l ∈ s.mem.cache, l < s.mem.nextPl) (hn : n ≤ 2 ^ 32)
    (hs : (List.range n).foldlM (fun m page => s.cutPage cfg i first page m) s.mem = some m) :
    Swept cfg s i first n m := by
  induction n generalizing m with
  | zero =>
    cases hs
    exact ⟨.refl _, fun l _ => .inl ⟨rfl, fun ⟨k, hk, _⟩ => Nat.not_lt_zero k hk⟩, rfl, rfl,
      fun _ l ⟨k, hk, _⟩ => absurd hk (Nat.not_lt_zero k)⟩
  | succ n ih =>
    rw [List.range_succ, List.foldlM_append] at hs
    obtain ⟨m1, hm1, hs⟩ := Option.bind_eq_some_iff.mp hs
    have hswept := ih (by omega) hm1
    have hstep : s.cutPage cfg i first n m1 = some m := by simpa using hs
    have hfind := hswept.find hzero hlt (by omega)
    rw [cutPage, hzero, Nat.zero_add, word_of_lt (by omega), hfind] at hstep
    split at hstep
    · next hnone =>
      cases hstep
      exact hswept.skip fun l hl => by
        rw [hnone] at hl
        cases hl.1
    · next link hlink =>
      split at hstep
      · next hcov =>
        cases hstep
        exact hswept.skip fun l hl => by
          rw [hcov] at hl
          cases hl.2
      · next hcov =>
        obtain ⟨_, h1, hstep⟩ := Option.bind_eq_some_iff.mp hstep
        obtain ⟨_, h2, hstep⟩ := Option.bind_eq_some_iff.mp hstep
        cases hstep
        exact hswept.free hlt hlink (hfind.trans hlink) (Bool.eq_false_iff.mpr hcov) fun ha =>
          ⟨Config.assert_eq_some h1 ha, Config.assert_eq_some h2 ha⟩

theorem cutAnonMmap_spec (hzero : (s.mm i).offset = 0) (hlt : ∀ l ∈ s.mem.cache, l < s.mem.nextPl)
    (hs : s.cutAnonMmap cfg i first last = some t) :
    ∃ m, t.mem = m.flushPlbuf ∧ Swept cfg s i (max (s.mm i).addr first) ((s.mm i).visits first last) m := by
  rw [cutAnonMmap_eq] at hs
  obtain ⟨_, -, hs⟩ := Option.bind_eq_some_iff.mp hs
  obtain ⟨m, hm, he⟩ := Option.bind_eq_some_iff.mp hs
  cases he
  exact ⟨m, rfl, cutPages_spec hzero hlt LazyMmap.visits_le hm⟩

-- One turn of unmapping

theorem Cuts.covered (h : Cuts u w c) (x : ℕ) : w.covered c x = u.covered c x := by
  obtain ⟨length, tailsz, hself⟩ := h.self
  rw [State.covered, State.covered, h.table, hself]
  refine List.any_congr rfl fun j => ?_
  by_cases hj : j = c
  · simp [hj]
  · rw [h.others j hj]
    rfl

theorem unmapOne_cut {addr fin : ℕ} (h : Mapped u pid) (hc : c ∈ u.mmaps pid) (haddr : addr % pageSize = 0)
    (hfin : fin % pageSize = 0) (hle : addr ≤ fin) (hover : addr < (u.mm c).stop) (hanon : (u.mm c).isAnonMmap = true)
    (hs : u.unmapOne cfg pid addr fin c = some t) :
    ∃ (w w' : State) (first last : ℕ), w.cutAnonMmap cfg c first last = some w' ∧ w'.mem = t.mem ∧ w.mem = u.mem ∧
      (∃ length tailsz, w.mm c = (u.mm c).resize (u.mm c).addr length tailsz) ∧
      (w.mm c).visits first last = (u.mm c).looks addr fin ∧
      ∀ k < (u.mm c).looks addr fin, w.covered c (word (max (w.mm c).addr first + k * pageSize)) =
        u.covered c (word ((u.mm c).addr + k * pageSize)) := by
  have hv := h.valid hc
  -- where the address is that of the mapping
  have hsame {w : State} {first : ℕ} (hw : Cuts u w c) (hfirst : first ≤ (u.mm c).addr) (k : ℕ) :
      w.covered c (word (max (w.mm c).addr first + k * pageSize)) = u.covered c (word ((u.mm c).addr + k * pageSize)) := by
    obtain ⟨length, tailsz, hself⟩ := hw.self
    have hat : (w.mm c).addr = (u.mm c).addr := by
      rw [hself]
      rfl
    rw [hw.covered, hat, Nat.max_eq_left hfirst]
  simp only [unmapOne, hv.fin_eq] at hs
  split at hs
  · next hwhole =>
    obtain ⟨x, hx, hs⟩ := Option.bind_eq_some_iff.mp hs
    rw [if_pos hanon] at hx
    obtain ⟨w', hcut, rfl⟩ := Option.map_eq_some_iff.mp hx
    cases hs
    refine ⟨u, w', 0, 0, hcut, ?_, rfl, ⟨_, _, rfl⟩, ?_, fun k _ => hsame (Cuts.refl u c) (Nat.zero_le _) k⟩
    · split <;> rfl
    · rw [LazyMmap.visits_whole hv, LazyMmap.looks, if_pos hwhole]
  next hwhole =>
  split at hs
  · next hmid =>
    obtain ⟨_, -, hs⟩ := Option.bind_eq_some_iff.mp hs
    rw [if_pos hanon] at hs
    obtain ⟨w', hcut, he⟩ := Option.bind_eq_some_iff.mp hs
    cases he
    have hne : c ≠ u.nextMm := Nat.ne_of_lt (h.fresh c hc)
    have hself : (u.splitMmap cfg pid addr fin c).1.mm c = (u.mm c).cutTo addr := by
      refine (congrFun (insertLazyMmap_frame _ pid u.nextMm).1 c).trans ?_
      rw [setMm_mm, if_pos rfl]
    have hlooks : (u.mm c).looks addr fin = 0 := by rw [LazyMmap.looks, if_neg hwhole, if_pos hmid]
    refine ⟨_, w', _, _, hcut, rfl, insertLazyMmap_mem, ⟨_, _, hself⟩, ?_, fun k hk => ?_⟩
    · rw [hself, hlooks]
      exact LazyMmap.visits_middle hv haddr hfin hmid.1 hle hmid.2
    · rw [hlooks] at hk
      exact absurd hk (Nat.not_lt_zero k)
  next hmid =>
  split at hs
  · next hlo =>
    obtain ⟨_, -, hs⟩ := Option.bind_eq_some_iff.mp hs
    rw [if_pos hanon] at hs
    refine ⟨_, t, _, _, hs, rfl, rfl, (Cuts.cutTo u c addr).self, ?_, fun k _ => hsame (Cuts.cutTo u c addr) le_rfl k⟩
    rw [setMm_mm, if_pos rfl, LazyMmap.visits_left hv haddr hlo hover, LazyMmap.looks, if_neg hwhole, if_neg hmid, if_pos hlo]
  · next hlo =>
    obtain ⟨_, -, hs⟩ := Option.bind_eq_some_iff.mp hs
    obtain ⟨_, -, hs⟩ := Option.bind_eq_some_iff.mp hs
    obtain ⟨w', hcut, he⟩ := Option.bind_eq_some_iff.mp hs
    rw [if_pos hanon] at hcut
    cases he
    refine ⟨u, w', _, _, hcut, rfl, rfl, ⟨_, _, rfl⟩, ?_, fun k _ => hsame (Cuts.refl u c) le_rfl k⟩
    rw [LazyMmap.visits_right hv haddr (Nat.le_of_not_lt hlo), LazyMmap.looks, if_neg hwhole, if_neg hmid, if_neg hlo]

end State

-- The pages of a mapping

namespace LazyMmap

def HasPage (mm : LazyMmap) (k : ℕ) : Prop := ∃ x, mm.Covers x ∧ (mm.backing x).page = k

theorem hasPage_iff (hv : mm.Valid) (hzero : mm.offset = 0) : mm.HasPage k ↔ k < mm.length / pageSize := by
  have hlt : mm.addr + mm.length < 2 ^ 32 := hv.stop_lt
  have halign := hv.length_aligned
  have hpage (x : ℕ) (hlo : mm.addr ≤ x) (hhi : x < mm.stop) : (mm.backing x).page = (x - mm.addr) / pageSize := by
    have hx : x < mm.addr + mm.length := hhi
    show word (mm.offset + wordSub x mm.addr / pageSize) = _
    rw [hzero, Nat.zero_add, wordSub_of_le hlo (by omega), word_of_lt]
    exact Nat.lt_of_le_of_lt (Nat.div_le_self _ _) (by omega)
  constructor
  · rintro ⟨x, ⟨hlo, hhi⟩, rfl⟩
    have hx : x < mm.addr + mm.length := hhi
    rw [hpage x hlo hhi]
    simp only [pageSize] at *
    omega
  · intro hk
    have hk' : k * pageSize < mm.length := by
      simp only [pageSize] at *
      omega
    have hhi : mm.addr + k * pageSize < mm.stop := Nat.add_lt_add_left hk' _
    refine ⟨mm.addr + k * pageSize, ⟨Nat.le_add_right _ _, hhi⟩, ?_⟩
    rw [hpage _ (Nat.le_add_right _ _) hhi, Nat.add_sub_cancel_left, Nat.mul_div_cancel _ (by decide)]

end LazyMmap

namespace State

def Reached (s : State) (mm : LazyMmap) (k : ℕ) : Prop :=
  ∃ q, ∃ j ∈ s.mmaps q, (s.mm j).isAnonMmap = true ∧ (s.mm j).ino = mm.ino ∧ (s.mm j).HasPage k

def Others (s : State) (c k : ℕ) : Prop :=
  ∃ q, ∃ j ∈ s.mmaps q, j ≠ c ∧ (s.mm j).isAnonMmap = true ∧ (s.mm j).ino = (s.mm c).ino ∧ (s.mm j).HasPage k

theorem reached_iff (hc : c ∈ u.mmaps pid) (hanon : (u.mm c).isAnonMmap = true) :
    u.Reached (u.mm c) k ↔ (u.mm c).HasPage k ∨ u.Others c k := by
  constructor
  · rintro ⟨q, j, hj, hja, hino, hpage⟩
    obtain rfl | hne := eq_or_ne j c
    · exact .inl hpage
    · exact .inr ⟨q, j, hj, hne, hja, hino, hpage⟩
  · rintro (hpage | ⟨q, j, hj, -, h⟩)
    · exact ⟨pid, c, hc, hanon, rfl, hpage⟩
    · exact ⟨q, j, hj, h⟩

def Remains (mm : LazyMmap) (addr fin k : ℕ) : Prop := ∃ part ∈ mm.cut addr fin, part.HasPage k

theorem Layout.reached_unmapOne {addr fin : ℕ} (h : Layout u) (hc : c ∈ u.mmaps pid) (hanon : (u.mm c).isAnonMmap = true)
    (haddr : addr % pageSize = 0) (hfin : fin % pageSize = 0) (hle : addr ≤ fin) (hover : addr < (u.mm c).stop)
    (hover' : (u.mm c).addr < fin) (hs : u.unmapOne cfg pid addr fin c = some t) :
    t.Reached (u.mm c) k ↔ Remains (u.mm c) addr fin k ∨ u.Others c k := by
  obtain ⟨l, r, hm⟩ := List.append_of_mem hc
  have hmap := h.mapped pid
  have hrep := unmapOne_replaced hmap hm haddr hfin hle hover hover' hs
  have hconf := (Confined.refl u pid).unmapOne hc hmap.nodup hs
  obtain ⟨new, hnew, hparts, -⟩ := hrep.mmaps
  have hother (q j : ℕ) (hj : j ∈ u.mmaps q) (hne : j ≠ c) : t.mm j = u.mm j :=
    (unmapOne_others hs hne (Nat.ne_of_lt ((h.mapped q).fresh j hj))).1
  have hq (q : ℕ) (hne : q ≠ pid) : t.mmaps q = u.mmaps q := by rw [mmaps, mmaps, hconf.others q hne]
  have hsame (part : LazyMmap) (hpart : part ∈ (u.mm c).cut addr fin) :
      part.isAnonMmap = true ∧ part.ino = (u.mm c).ino := by
    obtain ⟨-, rfl⟩ | ⟨-, ⟨-, rfl⟩ | ⟨-, rfl⟩⟩ := LazyMmap.mem_cut.mp hpart <;> exact ⟨hanon, rfl⟩
  have hout : ∀ j ∈ l ++ r, j ∈ u.mmaps pid ∧ j ≠ c := fun j hj => by
    have hnodup := hmap.nodup
    rw [hm] at hnodup ⊢
    obtain ⟨hnot, -⟩ := List.nodup_cons.mp (List.perm_middle.nodup_iff.mp hnodup)
    refine ⟨?_, fun he => hnot (he ▸ hj)⟩
    simp only [List.mem_append, List.mem_cons] at hj ⊢
    tauto
  constructor
  · rintro ⟨q, j, hj, hja, hino, hpage⟩
    by_cases hqp : q = pid
    · subst hqp
      rw [hnew] at hj
      by_cases hjn : j ∈ new
      · have hpart : t.mm j ∈ (u.mm c).cut addr fin := hparts ▸ List.mem_map_of_mem hjn
        exact .inl ⟨_, hpart, hpage⟩
      · have hj' : j ∈ l ++ r := by
          simp only [List.mem_append] at hj ⊢
          tauto
        obtain ⟨hmem, hne⟩ := hout j hj'
        rw [hother q j hmem hne] at hja hino hpage
        exact .inr ⟨q, j, hmem, hne, hja, hino, hpage⟩
    · rw [hq q hqp] at hj
      have hne : j ≠ c := by
        rintro rfl
        exact hqp (h.apart _ _ j hj hc)
      rw [hother q j hj hne] at hja hino hpage
      exact .inr ⟨q, j, hj, hne, hja, hino, hpage⟩
  · rintro (⟨part, hpart, hpage⟩ | ⟨q, j, hj, hne, hja, hino, hpage⟩)
    · obtain ⟨hpa, hpi⟩ := hsame part hpart
      rw [← hparts] at hpart
      obtain ⟨j, hj, rfl⟩ := List.mem_map.mp hpart
      exact ⟨pid, j, by rw [hnew]; simp [hj], hpa, hpi, hpage⟩
    · rw [← hother q j hj hne] at hja hino hpage
      refine ⟨q, j, ?_, hja, hino, hpage⟩
      by_cases hqp : q = pid
      · subst hqp
        rw [hnew]
        rw [hm] at hj
        simp only [List.mem_append, List.mem_cons] at hj ⊢
        tauto
      · rwa [hq q hqp]

-- When one turn is exact

def left (mm : LazyMmap) (addr : ℕ) : ℕ := if mm.addr < addr then (addr - mm.addr) / pageSize else 0

def right (mm : LazyMmap) (fin : ℕ) : ℕ := if fin < mm.stop then (mm.stop - fin) / pageSize else 0

theorem remains_iff {addr fin : ℕ} (hv : mm.Valid) (hzero : mm.offset = 0) (haddr : addr % pageSize = 0)
    (hfin : fin % pageSize = 0) (hover : addr < mm.stop) (hover' : mm.addr < fin) :
    Remains mm addr fin k ↔ k < left mm addr ∨ k < right mm fin := by
  have hlt := hv.stop_lt
  have hpart (part : LazyMmap) : part ∈ mm.cut addr fin ↔
      mm.addr < addr ∧ part = mm.cutTo addr ∨ fin < mm.stop ∧ part = mm.moveUp fin := by
    rw [LazyMmap.mem_cut]
    constructor
    · rintro (⟨hout, -⟩ | ⟨-, h⟩)
      · omega
      · exact h
    · exact fun h => .inr ⟨⟨hover, hover'⟩, h⟩
  have hlow (hlo : mm.addr < addr) : (mm.cutTo addr).HasPage k ↔ k < left mm addr := by
    obtain ⟨hv', hstop⟩ := hv.cutTo haddr hlo hover
    have hlen : (mm.cutTo addr).length = addr - mm.addr := wordSub_of_le hlo.le (by omega)
    rw [LazyMmap.hasPage_iff hv' hzero, hlen, left, if_pos hlo]
  have hhigh (hhi : fin < mm.stop) : (mm.moveUp fin).HasPage k ↔ k < right mm fin := by
    obtain ⟨hv', hstop⟩ := hv.moveUp hfin hover' hhi
    have hstop' : fin + (mm.moveUp fin).length = mm.stop := hstop
    rw [LazyMmap.hasPage_iff hv' hzero, right, if_pos hhi, show (mm.moveUp fin).length = mm.stop - fin by omega]
  constructor
  · rintro ⟨part, hmem, hpage⟩
    obtain ⟨hlo, rfl⟩ | ⟨hhi, rfl⟩ := (hpart part).mp hmem
    · exact .inl ((hlow hlo).mp hpage)
    · exact .inr ((hhigh hhi).mp hpage)
  · rintro (hk | hk)
    · have hlo : mm.addr < addr := by
        by_contra hno
        rw [left, if_neg hno] at hk
        exact Nat.not_lt_zero k hk
      exact ⟨_, (hpart _).mpr (.inl ⟨hlo, rfl⟩), (hlow hlo).mpr hk⟩
    · have hhi : fin < mm.stop := by
        by_contra hno
        rw [right, if_neg hno] at hk
        exact Nat.not_lt_zero k hk
      exact ⟨_, (hpart _).mpr (.inr ⟨hhi, rfl⟩), (hhigh hhi).mpr hk⟩

def Covered (s : State) (c k : ℕ) : Prop := s.covered c (word ((s.mm c).addr + k * pageSize)) = true

/-- Of the page `k` of a mapping that is cut: where it stays and is looked at, its address is covered;
    where it goes, it is looked at and its address not covered just if others do not have it; beyond
    the mapping it is not looked at or its address is covered. -/
structure CutFits (s : State) (addr fin c k : ℕ) : Prop where
  stays : k < left (s.mm c) addr ∨ k < right (s.mm c) fin → k < (s.mm c).looks addr fin → s.Covered c k
  goes : left (s.mm c) addr ≤ k → right (s.mm c) fin ≤ k → k < (s.mm c).length / pageSize →
    (k < (s.mm c).looks addr fin ∧ ¬ s.Covered c k ↔ ¬ s.Others c k)
  beyond : (s.mm c).length / pageSize ≤ k → k < (s.mm c).looks addr fin → s.Covered c k

theorem cutFits_iff {addr fin : ℕ} (hover : addr < (s.mm c).stop) (hover' : (s.mm c).addr < fin) :
    s.CutFits addr fin c k ↔ (k < (s.mm c).looks addr fin ∧ ¬ s.Covered c k ↔
      (k < (s.mm c).length / pageSize ∨ s.Others c k) ∧
        ¬ ((k < left (s.mm c) addr ∨ k < right (s.mm c) fin) ∨ s.Others c k)) := by
  have hstop : (s.mm c).stop = (s.mm c).addr + (s.mm c).length := rfl
  have hleft : left (s.mm c) addr ≤ (s.mm c).length / pageSize := by
    rw [left]
    split
    · exact Nat.div_le_div_right (by omega)
    · exact Nat.zero_le _
  have hright : right (s.mm c) fin ≤ (s.mm c).length / pageSize := by
    rw [right]
    split
    · exact Nat.div_le_div_right (by omega)
    · exact Nat.zero_le _
  constructor
  · intro h
    by_cases hstays : k < left (s.mm c) addr ∨ k < right (s.mm c) fin
    · have hst := h.stays hstays
      tauto
    · by_cases hn : k < (s.mm c).length / pageSize
      · have hgoes := h.goes (by omega) (by omega) hn
        tauto
      · have hbeyond := h.beyond (by omega)
        tauto
  · intro h
    refine ⟨fun hstays => ?_, fun hl hr hn => ?_, fun hn => ?_⟩
    · tauto
    · have hnot : ¬ (k < left (s.mm c) addr ∨ k < right (s.mm c) fin) := by omega
      tauto
    · have hnot : ¬ k < (s.mm c).length / pageSize := by omega
      tauto

/-- What a turn on the mapping `c` frees is the cached pages of its memory that some mapping had and
    none has any more, and no space has these resident. -/
structure FreedExactly (cfg : Config) (u t : State) (c : ℕ) : Prop where
  freed : ∀ k < 2 ^ 32, ∀ l, u.mem.findCachedPage cfg (u.mm c) k = some l →
    ((t.mem.pl l).live = false ↔ u.Reached (u.mm c) k ∧ ¬ t.Reached (u.mm c) k)
  only : ∀ l ∈ u.mem.cache, (u.mem.pl l).live = true → (t.mem.pl l).live = false →
    ∃ k < 2 ^ 32, u.mem.findCachedPage cfg (u.mm c) k = some l
  unheld : ∀ l ∈ u.mem.cache, (u.mem.pl l).live = true → (t.mem.pl l).live = false →
    ∀ q, ∀ v ∈ t.mem.pages q, (t.mem.vp v).status ≠ (u.mem.pl l).page

def Unheld (cfg : Config) (u : State) (addr fin c : ℕ) : Prop :=
  ∀ k < (u.mm c).looks addr fin, ∀ l, u.mem.findCachedPage cfg (u.mm c) k = some l → ¬ u.Covered c k →
    ∀ q, ∀ v ∈ u.mem.pages q, (u.mem.vp v).status ≠ (u.mem.pl l).page

theorem unmapOne_freed {addr fin : ℕ} (h : Mapped u pid) (hlt : ∀ l ∈ u.mem.cache, l < u.mem.nextPl)
    (hzero : (u.mm c).offset = 0) (hc : c ∈ u.mmaps pid) (haddr : addr % pageSize = 0) (hfin : fin % pageSize = 0)
    (hle : addr ≤ fin) (hover : addr < (u.mm c).stop) (hanon : (u.mm c).isAnonMmap = true)
    (hs : u.unmapOne cfg pid addr fin c = some t) :
    (∀ l ∈ u.mem.cache, (u.mem.pl l).live = true → ((t.mem.pl l).live = false ↔
        ∃ k < (u.mm c).looks addr fin, u.mem.findCachedPage cfg (u.mm c) k = some l ∧ ¬ u.Covered c k)) ∧
      (cfg.asserts = true → ∀ k < (u.mm c).looks addr fin, ∀ l, u.mem.findCachedPage cfg (u.mm c) k = some l →
        ¬ u.Covered c k → u.mem.hasShares (u.mem.pl l).page = false ∧ u.mem.owner (u.mem.pl l).page = none) := by
  obtain ⟨w, w', first, last, hcut, hmem', hmem, ⟨length, tailsz, hself⟩, hvisits, hcov⟩ :=
    unmapOne_cut h hc haddr hfin hle hover hanon hs
  have hfind (k : ℕ) : w.mem.findCachedPage cfg (w.mm c) k = u.mem.findCachedPage cfg (u.mm c) k := by
    rw [hmem, hself]
    rfl
  obtain ⟨m, hm, hswept⟩ := cutAnonMmap_spec (by rw [hself]; exact hzero) (hmem ▸ hlt) hcut
  have hhit (l : ℕ) : w.Hit cfg c (max (w.mm c).addr first) ((w.mm c).visits first last) l ↔
      ∃ k < (u.mm c).looks addr fin, u.mem.findCachedPage cfg (u.mm c) k = some l ∧ ¬ u.Covered c k := by
    rw [Hit, hvisits]
    refine exists_congr fun k => and_congr_right fun hk => ?_
    rw [hfind, hcov k hk, Covered, Bool.not_eq_true]
  have hpl : t.mem.pl = m.pl := by
    rw [← hmem', hm]
    rfl
  refine ⟨fun l hl hlive => ?_, fun ha k hk l hfound hno => ?_⟩
  · rw [hpl, ← hhit l]
    obtain ⟨he, hno⟩ | ⟨hdead, hyes⟩ := hswept.pl l (hmem ▸ hl)
    · rw [he, hmem, hlive]
      exact iff_of_false nofun hno
    · exact iff_of_true hdead hyes
  · have hloose := hswept.loose ha l ((hhit l).mpr ⟨k, hk, hfound, hno⟩)
    rwa [hmem] at hloose

theorem Layout.freedExactly_iff {addr fin : ℕ} (h : Layout u) (hzero : u.FromZero) (hlt : ∀ l ∈ u.mem.cache, l < u.mem.nextPl)
    (hc : c ∈ u.mmaps pid) (haddr : addr % pageSize = 0) (hfin : fin % pageSize = 0) (hle : addr ≤ fin)
    (hover : addr < (u.mm c).stop) (hover' : (u.mm c).addr < fin) (hanon : (u.mm c).isAnonMmap = true)
    (hs : u.unmapOne cfg pid addr fin c = some t) :
    FreedExactly cfg u t c ↔
      (∀ k < 2 ^ 32, ∀ l, u.mem.findCachedPage cfg (u.mm c) k = some l → u.CutFits addr fin c k) ∧ Unheld cfg u addr fin c := by
  have hmap := h.mapped pid
  have hv := hmap.valid hc
  have hoff := hzero c hanon
  have hfreed := (unmapOne_freed hmap hlt hoff hc haddr hfin hle hover hanon hs).1
  obtain ⟨l, r, hm⟩ := List.append_of_mem hc
  have hpages := (unmapOne_replaced hmap hm haddr hfin hle hover hover' hs).pages
  have hlooks : (u.mm c).looks addr fin ≤ 2 ^ 32 := LazyMmap.looks_le hv hover
  -- a link is found at its own page
  have hat {k l : ℕ} (hk : k < 2 ^ 32) (hfind : u.mem.findCachedPage cfg (u.mm c) k = some l) :
      l ∈ u.mem.cache ∧ (u.mem.pl l).live = true ∧ (u.mem.pl l).offset = k := by
    obtain ⟨hmem, hisAt⟩ := Mem.findCachedPage_spec hfind
    exact ⟨hmem, hisAt.1, by rw [hisAt.2.2.1, hoff, Nat.zero_add, word_of_lt hk]⟩
  have hpage {k l : ℕ} (hk : k < 2 ^ 32) (hfind : u.mem.findCachedPage cfg (u.mm c) k = some l) :
      (t.mem.pl l).live = false ↔ k < (u.mm c).looks addr fin ∧ ¬ u.Covered c k := by
    obtain ⟨hmem, hlive, hk'⟩ := hat hk hfind
    rw [hfreed l hmem hlive]
    constructor
    · rintro ⟨k', hlt', hfind', hcov⟩
      obtain rfl : k' = k := (hat (by omega) hfind').2.2.symm.trans hk'
      exact ⟨hlt', hcov⟩
    · rintro ⟨hlt', hcov⟩
      exact ⟨k, hlt', hfind, hcov⟩
  have hfits (k : ℕ) : u.CutFits addr fin c k ↔ (k < (u.mm c).looks addr fin ∧ ¬ u.Covered c k ↔
      u.Reached (u.mm c) k ∧ ¬ t.Reached (u.mm c) k) := by
    rw [cutFits_iff hover hover', reached_iff hc hanon, h.reached_unmapOne hc hanon haddr hfin hle hover hover' hs,
      LazyMmap.hasPage_iff hv hoff, remains_iff hv hoff haddr hfin hover hover']
  constructor
  · refine fun hex => ⟨fun k hk l hfind => (hfits k).mpr ((hpage hk hfind).symm.trans (hex.freed k hk l hfind)), ?_⟩
    intro k hk l hfind hcov q v hv
    obtain ⟨hmem, hlive, -⟩ := hat (by omega) hfind
    have hdead := (hpage (by omega) hfind).mpr ⟨hk, hcov⟩
    rw [← hpages.1] at hv
    rw [← hpages.2]
    exact hex.unheld l hmem hlive hdead q v hv
  · rintro ⟨hall, hunheld⟩
    refine ⟨fun k hk l hfind => (hpage hk hfind).trans ((hfits k).mp (hall k hk l hfind)), fun l hl hlive hdead => ?_,
      fun l hl hlive hdead q v hv => ?_⟩
    · obtain ⟨k, hk, hfind, -⟩ := (hfreed l hl hlive).mp hdead
      exact ⟨k, by omega, hfind⟩
    · obtain ⟨k, hk, hfind, hcov⟩ := (hfreed l hl hlive).mp hdead
      rw [hpages.1] at hv
      rw [hpages.2]
      exact hunheld k hk l hfind hcov q v hv

/-- The turns that the loop of `munmap_space` has taken, and the mapping that comes next. -/
inductive Turns (cfg : Config) (pid addr fin : ℕ) (s : State) (cur : Option ℕ) : State → Option ℕ → Prop
  | start : Turns cfg pid addr fin s cur s cur
  | turn {u t : State} {c : ℕ} (h : Turns cfg pid addr fin s cur u (some c)) (low : (u.mm c).addr < fin)
      (next : u.unmapOne cfg pid addr fin c = some t) : Turns cfg pid addr fin s cur t (u.nextMmap pid c)

theorem munmapLoop_turns {addr fin n : ℕ} {cur cur' : Option ℕ} (h : Turns cfg pid addr fin s cur u cur')
    (hs : munmapLoop cfg pid addr fin n u cur' = some t) : ∃ last, Turns cfg pid addr fin s cur t last := by
  induction n generalizing u cur' with
  | zero =>
    cases cur' with
    | none =>
      cases hs
      exact ⟨_, h⟩
    | some c => cases hs
  | succ n ih =>
    cases cur' with
    | none =>
      cases hs
      exact ⟨_, h⟩
    | some c =>
      obtain ⟨_, -, hs⟩ := Option.bind_eq_some_iff.mp hs
      split at hs
      · cases hs
        exact ⟨_, h⟩
      · next hlow =>
        obtain ⟨w, hw, hs⟩ := Option.bind_eq_some_iff.mp hs
        exact ih (h.turn (not_le.mp hlow) hw) hs

inductive Before (s : State) (pid : ℕ) : State → Prop
  | same : Before s pid s
  | page (w : Vp) : Before s pid { s with mem := (s.mem.newVp w).2 }
  | anonIno (n : ℕ) : Before s pid { s with nextAnonIno := n }
  | areas {utcb kip : Fpage} (takes : s.configures pid utcb kip) (fit : AreasFit utcb kip) :
      Before s pid (s.setSpace pid ((s.spaces pid).configured utcb kip))

/-- A call made in `s` calls `munmap_space`: to unmap, to lower the break, or to place a mapping at a
    fixed address. -/
inductive Called (s : State) (pid : ℕ) : State → ℕ → ℕ → Prop
  | unmap {addr size : ℕ} (start : addr % pageSize = 0) (whole : size % pageSize = 0) (lt : addr + size < 2 ^ 32) :
      Called s pid s addr size
  | shrink {a : ℕ} (start : a % pageSize = 0) (le : a ≤ (s.spaces pid).brk) :
      Called s pid (s.findLazyMmap pid (wordSub (s.spaces pid).brk 1)).2 a ((s.spaces pid).brk - a)
  | place {u : State} {mm : LazyMmap} {addr length : ℕ} (before : Before s pid u) (valid : (mm.at addr length).Valid)
      (zero : mm.isAnonMmap = true → mm.offset = 0) :
      Called s pid (((u.newMm mm).2.addAnon u.nextMm).setMm u.nextMm (mm.at addr length)) addr length

structure Starts (pages : List ℕ) (v : State) (addr size : ℕ) : Prop where
  layout : Layout v
  zero : v.FromZero
  sound : Sound pages v.mem
  start : addr % pageSize = 0
  whole : size % pageSize = 0
  lt : addr + size < 2 ^ 32

theorem Before.starts {pages : List ℕ} (h : Before s pid u) (hl : Layout s) (hz : s.FromZero) (hs : Sound pages s.mem) :
    Layout u ∧ u.FromZero ∧ Sound pages u.mem := by
  cases h with
  | same => exact ⟨hl, hz, hs⟩
  | page w => exact ⟨hl.congr rfl rfl rfl, hz.congr rfl, (hs.newVp w).1⟩
  | anonIno => exact ⟨hl.congr rfl rfl rfl, hz.congr rfl, hs⟩
  | areas takes fit => exact ⟨hl.configured takes fit, hz.congr rfl, hs⟩

theorem Called.starts (cfg : Config) {pages : List ℕ} {addr size : ℕ} (h : Called s pid v addr size) (hl : Layout s) (hz : s.FromZero)
    (hs : Sound pages s.mem) : Starts pages v addr size := by
  cases h with
  | unmap start whole lt => exact ⟨hl, hz, hs, start, whole, lt⟩
  | shrink start le =>
    obtain ⟨halign, hlt⟩ := hl.brk pid
    refine ⟨hl.findLazyMmap pid _, hz.edits ((Edits.refl cfg s).findLazyMmap pid _), findLazyMmap_mem.symm ▸ hs, start, ?_,
      by omega⟩
    simp only [pageSize] at *
    omega
  | place before valid zero =>
    next u mm =>
    obtain ⟨hul, huz, hus⟩ := before.starts hl hz hs
    have hready : Ready u (((u.newMm mm).2.addAnon u.nextMm).setMm u.nextMm (mm.at addr size)) pid u.nextMm (u.spaces pid).mmapBot :=
      (hul.ready pid mm).prepare
    have hmem : (((u.newMm mm).2.addAnon u.nextMm).setMm u.nextMm (mm.at addr size)).mem = u.mem := by
      rw [addAnon]
      split <;> rfl
    have hadd : ((u.newMm mm).2.addAnon u.nextMm).FromZero := by
      rw [addAnon]
      split
      · exact (huz.newMm zero).congr rfl
      · exact huz.newMm zero
    exact ⟨hul.confined hready.confined hready.mapped (hul.bot pid), hadd.setMm zero, hmem.symm ▸ hus, valid.addr_aligned,
      valid.length_aligned, valid.stop_lt⟩

structure Between (cfg : Config) (phys : PhysMem) (pid addr : ℕ) (cur : Option ℕ) (u : State) : Prop where
  layout : Layout u
  zero : u.FromZero
  links : ∀ l ∈ u.mem.cache, l < u.mem.nextPl
  rest : ∃ l r, u.mmaps pid = l ++ r ∧ cur = r.head? ∧ ∀ i ∈ r, addr < (u.mm i).stop
  sound : cfg.asserts = true → Sound phys.pages u.mem

theorem Between.turn {addr fin : ℕ} (h : Between cfg phys pid addr (some c) u) (haddr : addr % pageSize = 0)
    (hfin : fin % pageSize = 0) (hle : addr ≤ fin) (hlow : (u.mm c).addr < fin)
    (hs : u.unmapOne cfg pid addr fin c = some t) : Between cfg phys pid addr (u.nextMmap pid c) t := by
  obtain ⟨l, r, hm, hhead, hr⟩ := h.rest
  cases r with
  | nil => cases hhead
  | cons j r =>
    obtain rfl : c = j := Option.some.inj hhead
    have hmap := h.layout.mapped pid
    have hc : c ∈ u.mmaps pid := by rw [hm]; simp
    have hedits := (Edits.refl cfg u).unmapOne hs
    have hrep := unmapOne_replaced hmap hm haddr hfin hle (hr c List.mem_cons_self) hlow hs
    obtain ⟨new, hnew, -, -⟩ := hrep.mmaps
    refine ⟨h.layout.confined ((Confined.refl u pid).unmapOne hc hmap.nodup hs) (hrep.mapped hmap hm haddr hfin hle)
      (h.layout.bot pid), h.zero.edits hedits, fun l hl => ?_, ⟨l ++ new, r, hnew, hmap.nextMmap_eq hm, fun i hi => ?_⟩,
      fun ha => hedits.sound ha (h.sound ha)⟩
    · rw [hedits.frees.cache] at hl
      exact Nat.lt_of_lt_of_le (h.links l hl) hedits.frees.next
    · rw [hrep.mm i (List.mem_append_right _ hi)]
      exact hr i (List.mem_cons_of_mem _ hi)

theorem Turns.between {addr fin : ℕ} {cur cur' : Option ℕ} (h : Turns cfg pid addr fin s cur u cur')
    (hs : Between cfg phys pid addr cur s) (haddr : addr % pageSize = 0) (hfin : fin % pageSize = 0) (hle : addr ≤ fin) :
    Between cfg phys pid addr cur' u := by
  induction h with
  | start => exact hs
  | turn _ low next ih => exact ih.turn haddr hfin hle low next

theorem Starts.between {addr size : ℕ} (h : Starts phys.pages v addr size)
    (hm : v.mem.removeVpRange cfg pid addr size = some m) :
    Between cfg phys pid addr (v.firstLazyMmap pid addr size) { v with mem := m } := by
  have hmap := h.layout.mapped pid
  have hfrees := Mem.Frees.removeVpRange hm
  refine ⟨h.layout.congr rfl rfl rfl, h.zero.congr rfl, fun l hl => ?_, ?_, fun _ => h.sound.removeVpRange hm⟩
  · have hl' : l ∈ v.mem.cache := hfrees.cache ▸ hl
    exact Nat.lt_of_lt_of_le (h.sound.books.links.lt l (by simp [hl'])) hfrees.next
  · obtain ⟨y, -, -, hfirst⟩ | ⟨l, c, r, hsplit, -, hc, -, hfirst, -⟩ | ⟨hfirst, -⟩ := hmap.firstLazyMmap_cases h.lt
    · exact ⟨_, [], (List.append_nil _).symm, hfirst, nofun⟩
    · exact ⟨l, c :: r, hsplit, hfirst, hmap.stop_of_mem hsplit hc⟩
    · exact ⟨_, [], (List.append_nil _).symm, hfirst, nofun⟩

/-- **Shared anonymous memory.** In every run in which what is placed fits and whose calls are sparing,
each turn of unmapping in which a mapping of shared anonymous memory is cut frees exactly the pages
that no mapping has any more, just if the turn fits for each cached page of the memory, and in a
server without assertions frees what no space has. -/
theorem freed_exactly_iff {calls : List Call} {addr size : ℕ} (hmax : cfg.EndsPage)
    (hrun : Run (exec cfg) (fun s call => Fits cfg s call ∧ Sparing cfg s call) (bootState phys) calls s)
    (hcall : Called s pid v addr size) (hm : v.mem.removeVpRange cfg pid addr size = some m)
    (hturns : Turns cfg pid addr (addr + size) { v with mem := m } (v.firstLazyMmap pid addr size) u (some c))
    (hlow : (u.mm c).addr < addr + size) (hanon : (u.mm c).isAnonMmap = true)
    (hs : u.unmapOne cfg pid addr (addr + size) c = some t) :
    FreedExactly cfg u t c ↔
      (∀ k < 2 ^ 32, ∀ l, u.mem.findCachedPage cfg (u.mm c) k = some l → u.CutFits addr (addr + size) c k) ∧
        (cfg.asserts = true ∨ Unheld cfg u addr (addr + size) c) := by
  have hstart : Starts phys.pages v addr size := hcall.starts cfg (layout_of_run hmax (hrun.mono fun _ _ => And.left))
    (fromZero_of_run hrun) (inv_of_run (hrun.mono fun _ _ => And.right)).sound
  have hfin : (addr + size) % pageSize = 0 := by
    have h1 := hstart.start
    have h2 := hstart.whole
    simp only [pageSize] at *
    omega
  have hbetween := hturns.between (hstart.between hm) hstart.start hfin (Nat.le_add_right _ _)
  obtain ⟨l, r, hmm, hhead, hr⟩ := hbetween.rest
  obtain ⟨r, rfl⟩ : ∃ r', r = c :: r' := by
    cases r with
    | nil => cases hhead
    | cons j r => exact ⟨r, by rw [Option.some.inj hhead]⟩
  have hc : c ∈ u.mmaps pid := by rw [hmm]; simp
  have hover := hr c List.mem_cons_self
  rw [hbetween.layout.freedExactly_iff hbetween.zero hbetween.links hc hstart.start hfin (Nat.le_add_right _ _) hover hlow
    hanon hs]
  refine and_congr_right fun _ => ⟨.inr, fun hor => hor.elim (fun ha k hk l hfind hno q p hp => ?_) id⟩
  -- with assertions nobody has what is freed
  obtain ⟨hshares, howner⟩ := (unmapOne_freed (hbetween.layout.mapped pid) hbetween.links (hbetween.zero c hanon) hc
    hstart.start hfin (Nat.le_add_right _ _) hover hanon hs).2 ha k hk l hfind hno
  exact (hbetween.sound ha).books.unheld howner hshares ⟨q, hp⟩

def sharedCalls : List Call :=
  spawnCalls ++ [.mmap 5 0 0x400000 0x2000 3 ⟨true, false, true, true⟩ ⟨0, 0⟩ 0 0 ⟨true, none, true⟩,
    .fault 5 0x401000 ⟨true, true, false⟩ ⟨none, true⟩]

/-- What is to be known of the state after these calls: mapping 2 is the only one of shared anonymous
    memory, and link 4 its page 1, the only page of the cache. -/
structure TwoShared (m : Mem) (s : State) : Prop where
  mem : 2 ∈ s.mmaps 5
  next : s.nextMm = 3
  mm : (s.mm 2).addr = 0x400000 ∧ (s.mm 2).length = 0x2000 ∧ (s.mm 2).isAnonMmap = true ∧ (s.mm 2).offset = 0
  only : ∀ j < 2, (s.mm j).isAnonMmap = false
  table : s.anonMmapTable = [2]
  cache : m.cache = [4] ∧ (m.pl 4).offset = 1 ∧ m.findCachedPage plainConfig (s.mm 2) 1 = some 4

instance (m : Mem) (s : State) : Decidable (TwoShared m s) :=
  decidable_of_iff (2 ∈ s.mmaps 5 ∧ s.nextMm = 3 ∧
      ((s.mm 2).addr = 0x400000 ∧ (s.mm 2).length = 0x2000 ∧ (s.mm 2).isAnonMmap = true ∧ (s.mm 2).offset = 0) ∧
      (∀ j < 2, (s.mm j).isAnonMmap = false) ∧ s.anonMmapTable = [2] ∧
      m.cache = [4] ∧ (m.pl 4).offset = 1 ∧ m.findCachedPage plainConfig (s.mm 2) 1 = some 4)
    ⟨fun ⟨h1, h2, h3, h4, h5, h6⟩ => ⟨h1, h2, h3, h4, h5, h6⟩, fun ⟨h1, h2, h3, h4, h5, h6⟩ => ⟨h1, h2, h3, h4, h5, h6⟩⟩

theorem TwoShared.setMem (h : TwoShared m s) : TwoShared m { s with mem := m } :=
  ⟨h.mem, h.next, h.mm, h.only, h.table, h.cache⟩

theorem TwoShared.not_others (h : TwoShared m s) (hl : Layout s) (k : ℕ) : ¬ s.Others 2 k := by
  rintro ⟨q, j, hj, hne, hanon, -⟩
  have hlt := (hl.mapped q).fresh j hj
  rw [h.next] at hlt
  rw [h.only j (by omega)] at hanon
  cases hanon

theorem TwoShared.not_covered (h : TwoShared m s) (k : ℕ) : ¬ s.Covered 2 k := by
  rw [Covered, State.covered, h.table]
  simp

theorem TwoShared.at_one (h : TwoShared m s) (hk : k < 2 ^ 32)
    (hfind : m.findCachedPage plainConfig (s.mm 2) k = some l) : k = 1 ∧ l = 4 := by
  obtain ⟨hmem, hat⟩ := Mem.findCachedPage_spec hfind
  obtain ⟨hcache, hoff, -⟩ := h.cache
  rw [hcache] at hmem
  obtain rfl := List.mem_singleton.mp hmem
  have hoff' := hat.2.2.1
  rw [hoff, h.mm.2.2.2, Nat.zero_add, word_of_lt hk] at hoff'
  exact ⟨hoff'.symm, rfl⟩

/-- All of it is unmapped: page 1 is freed. -/
theorem shared_whole : ∃ u t : State, u.mem.findCachedPage plainConfig (u.mm 2) 1 = some 4 ∧ (t.mem.pl 4).live = false ∧
    FreedExactly plainConfig u t 2 := by
  obtain ⟨s, h, hread⟩ := Run.exists_of_evalRun (exec plainConfig)
    (fun s call => Fits plainConfig s call ∧ Sparing plainConfig s call) (bootState threePhys) sharedCalls
    (fun s => (s.mem.removeVpRange plainConfig 5 0x400000 0x2000).bind fun m =>
      ({ s with mem := m } : State).unmapOne plainConfig 5 0x400000 0x402000 2 |>.map fun t =>
        (decide (s.firstLazyMmap 5 0x400000 0x2000 = some 2), decide (TwoShared m s), (t.mem.pl 4).live))
    (some (true, true, false)) (by decide)
  obtain ⟨m, hm, hread⟩ := Option.bind_eq_some_iff.mp hread
  obtain ⟨t, ht, hread⟩ := Option.map_eq_some_iff.mp hread
  obtain ⟨hfirst, hread⟩ := Prod.mk.inj hread
  obtain ⟨htwo, hdead⟩ := Prod.mk.inj hread
  have hfirst : s.firstLazyMmap 5 0x400000 0x2000 = some 2 := of_decide_eq_true hfirst
  have htwo : TwoShared m { s with mem := m } := TwoShared.setMem (of_decide_eq_true htwo)
  have hl := layout_of_run plainConfig_endsPage (h.mono fun _ _ => And.left)
  have hl' : Layout { s with mem := m } := hl.congr rfl rfl rfl
  obtain ⟨haddr, hlength, hanon, -⟩ := htwo.mm
  refine ⟨_, t, htwo.cache.2.2, hdead, (freed_exactly_iff plainConfig_endsPage h (.unmap rfl rfl (by decide)) hm
    (hfirst ▸ .start) (by rw [haddr]; decide) hanon ht).mpr ⟨fun k hk l hfind => ?_, .inl rfl⟩⟩
  obtain ⟨rfl, rfl⟩ := htwo.at_one hk hfind
  have hlooks : ((({ s with mem := m } : State).mm 2).looks 0x400000 0x402000) = 2 := by
    have hstop : (({ s with mem := m } : State).mm 2).stop = 0x402000 := by rw [LazyMmap.stop, haddr, hlength]
    rw [LazyMmap.looks, if_pos ⟨haddr.ge, hstop.le⟩, hlength]
    rfl
  refine ⟨fun hstays => ?_, fun _ _ _ => ?_, fun hn => ?_⟩
  · rw [left, right, haddr, if_neg (by decide), LazyMmap.stop, haddr, hlength, if_neg (by decide)] at hstays
    omega
  · exact iff_of_true ⟨by rw [hlooks]; decide, htwo.not_covered 1⟩ (htwo.not_others hl' 1)
  · rw [hlength] at hn
    exact absurd hn (by decide)

/-- Its second page is unmapped: page 1, which nothing has then, is not freed. -/
theorem shared_tail : ¬ ∀ (cfg : Config) (phys : PhysMem) (calls : List Call) (s v u t : State) (m : Mem) (pid addr size c : ℕ),
    cfg.EndsPage → Run (exec cfg) free (bootState phys) calls s → Called s pid v addr size →
      v.mem.removeVpRange cfg pid addr size = some m →
      Turns cfg pid addr (addr + size) { v with mem := m } (v.firstLazyMmap pid addr size) u (some c) →
      (u.mm c).addr < addr + size → (u.mm c).isAnonMmap = true → u.unmapOne cfg pid addr (addr + size) c = some t →
        FreedExactly cfg u t c := by
  intro hall
  obtain ⟨s, h, hread⟩ := Run.exists_of_evalRun (exec plainConfig) (Fits plainConfig) (bootState threePhys) sharedCalls
    (fun s => (s.mem.removeVpRange plainConfig 5 0x401000 0x1000).bind fun m =>
      ({ s with mem := m } : State).unmapOne plainConfig 5 0x401000 0x402000 2 |>.map fun t =>
        (decide (s.firstLazyMmap 5 0x401000 0x1000 = some 2), decide (TwoShared m s), decide (4 < m.nextPl)))
    (some (true, true, true)) (by decide)
  obtain ⟨m, hm, hread⟩ := Option.bind_eq_some_iff.mp hread
  obtain ⟨t, ht, hread⟩ := Option.map_eq_some_iff.mp hread
  obtain ⟨hfirst, hread⟩ := Prod.mk.inj hread
  obtain ⟨htwo, hlt⟩ := Prod.mk.inj hread
  have hfirst : s.firstLazyMmap 5 0x401000 0x1000 = some 2 := of_decide_eq_true hfirst
  have htwo : TwoShared m { s with mem := m } := TwoShared.setMem (of_decide_eq_true htwo)
  have hl := layout_of_run plainConfig_endsPage h
  have hl' : Layout { s with mem := m } := hl.congr rfl rfl rfl
  have hz' : ({ s with mem := m } : State).FromZero := (fromZero_of_run h).congr rfl
  obtain ⟨haddr, hlength, hanon, -⟩ := htwo.mm
  have hstop : (({ s with mem := m } : State).mm 2).stop = 0x402000 := by rw [LazyMmap.stop, haddr, hlength]
  have hexact := hall plainConfig threePhys sharedCalls s s { s with mem := m } t m 5 0x401000 0x1000 2 plainConfig_endsPage
    (h.mono fun _ _ _ => trivial) (.unmap rfl rfl (by decide)) hm (hfirst ▸ .start) (by rw [haddr]; decide) hanon ht
  obtain ⟨hfits, -⟩ := (hl'.freedExactly_iff hz' (fun l hl => by
      rw [show m.cache = [4] from htwo.cache.1] at hl
      exact List.mem_singleton.mp hl ▸ of_decide_eq_true hlt) htwo.mem rfl rfl (by decide) (by rw [hstop]; decide)
    (by rw [haddr]; decide) hanon ht).mp hexact
  have hgoes := (hfits 1 (by decide) 4 htwo.cache.2.2).goes
  -- one page stays, and one is looked at
  rw [left, right, LazyMmap.looks, hstop, haddr, hlength] at hgoes
  exact absurd ((hgoes (by decide) (by decide) (by decide)).mpr (htwo.not_others hl' 1)).1 (by decide)

end State

end Sneks.Vm
