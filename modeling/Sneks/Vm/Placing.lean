import Sneks.Vm.Munmap
import Mathlib.Data.List.TakeWhile

/-!
# Putting a mapping into a space

What `insert_lazy_mmap` does in a space whose mappings are in order, and what the calls that work on
one space leave of the others.
-/

namespace Sneks.Vm
open Lib

namespace State

variable {cfg : Config} {s t u : State} {pid i j addr fin : ℕ} {l r : List ℕ}

def Taken (s : State) (pid addr fin : ℕ) : Prop :=
  ∃ i ∈ s.mmaps pid, addr < (s.mm i).stop ∧ (s.mm i).addr < fin

instance (s : State) (pid addr fin : ℕ) : Decidable (s.Taken pid addr fin) :=
  inferInstanceAs (Decidable (∃ i ∈ s.mmaps pid, _))

theorem dirMm_spec (h : Mapped s pid) (hi : (s.mm i).Valid) (hj : j ∈ s.mmaps pid) (b : Bool) :
    (s.dirMm i (j, b) = .lt ↔ (s.mm i).stop ≤ (s.mm j).addr) ∧
      (s.dirMm i (j, b) = .gt ↔ (s.mm j).stop ≤ (s.mm i).addr) := by
  have hv := h.valid hj
  have hpos := hv.pos
  have hposi := hi.pos
  have hlt := hv.stop_lt
  have hlti := hi.stop_lt
  have hstop : (s.mm j).stop = (s.mm j).addr + (s.mm j).length := rfl
  have hstopi : (s.mm i).stop = (s.mm i).addr + (s.mm i).length := rfl
  simp only [dirMm, hv.fin_eq, hi.fin_eq]
  rw [wordSub_of_le (by omega) hlt, wordSub_of_le (by omega) hlti]
  split
  · exact ⟨by simp; omega, by simp; omega⟩
  · split
    · exact ⟨by simp; omega, by simp; omega⟩
    · exact ⟨by simp; omega, by simp; omega⟩

theorem split_of_free (h : Mapped s pid) (hfree : ¬ s.Taken pid addr fin) :
    ∃ l r, s.mmaps pid = l ++ r ∧ (∀ j ∈ l, (s.mm j).stop ≤ addr) ∧ ∀ j ∈ r, fin ≤ (s.mm j).addr := by
  have hout : ∀ j ∈ s.mmaps pid, (s.mm j).stop ≤ addr ∨ fin ≤ (s.mm j).addr := fun j hj => by
    by_contra hno
    exact hfree ⟨j, hj, by omega, by omega⟩
  refine ⟨(s.mmaps pid).takeWhile fun j => (s.mm j).stop ≤ addr, (s.mmaps pid).dropWhile fun j => (s.mm j).stop ≤ addr,
    List.takeWhile_append_dropWhile.symm, fun j hj => by simpa using List.mem_takeWhile_imp hj, fun j hj => ?_⟩
  have hord := h.ordered
  have hvalid : ∀ k ∈ s.mmaps pid, (s.mm k).addr < (s.mm k).stop := fun k hk => by
    have hpos := (h.valid hk).pos
    show (s.mm k).addr < (s.mm k).addr + (s.mm k).length
    omega
  clear hfree
  generalize s.mmaps pid = maps at hj hord hout hvalid
  induction maps with
  | nil => cases hj
  | cons k maps ih =>
    obtain ⟨hk, hord⟩ := List.pairwise_cons.mp hord
    rw [List.dropWhile_cons] at hj
    split at hj
    · exact ih hj hord (fun j hj => hout j (List.mem_cons_of_mem _ hj)) fun j hj => hvalid j (List.mem_cons_of_mem _ hj)
    · next hno =>
      have hkout : fin ≤ (s.mm k).addr := (hout k List.mem_cons_self).resolve_left (by simpa using hno)
      obtain rfl | hj := List.mem_cons.mp hj
      · exact hkout
      · have hkj := hk j hj
        have hkpos := hvalid k List.mem_cons_self
        omega

theorem insertLazyMmap_spec (cfg : Config) (h : Mapped s pid) (hi : (s.mm i).Valid) :
    (¬ s.Taken pid (s.mm i).addr (s.mm i).stop ∧ ∃ l r tree, s.mmaps pid = l ++ r ∧
        (∀ j ∈ l, (s.mm j).stop ≤ (s.mm i).addr) ∧ (∀ j ∈ r, (s.mm i).stop ≤ (s.mm j).addr) ∧
        tree.mmaps = l ++ i :: r ∧ s.insertLazyMmap cfg pid i = (s.setMaps pid tree, true)) ∨
      s.Taken pid (s.mm i).addr (s.mm i).stop ∧ s.insertLazyMmap cfg pid i = (s, false) := by
  have hpos := hi.pos
  have hstop : (s.mm i).stop = (s.mm i).addr + (s.mm i).length := rfl
  by_cases htaken : s.Taken pid (s.mm i).addr (s.mm i).stop
  · refine .inr ⟨htaken, ?_⟩
    obtain ⟨j, hj, hlo, hhi⟩ := htaken
    obtain ⟨y, hy, rfl⟩ := List.mem_map.mp hj
    have hd : (inorder (s.spaces pid).maps).Pairwise fun a b =>
        (s.dirMm i a = .lt → s.dirMm i b = .lt) ∧ (s.dirMm i b = .gt → s.dirMm i a = .gt) := by
      have hord : (inorder (s.spaces pid).maps).Pairwise fun y z => (s.mm y.1).stop ≤ (s.mm z.1).addr :=
        List.pairwise_map.mp h.ordered
      refine hord.imp_of_mem fun {a b} ha hb hle => ?_
      have ha' := Mapped.mem_tree ha
      have hb' := Mapped.mem_tree hb
      obtain ⟨halt, hagt⟩ := dirMm_spec h hi ha' a.2
      obtain ⟨hblt, hbgt⟩ := dirMm_spec h hi hb' b.2
      have hapos := (h.valid ha').pos
      have hbpos := (h.valid hb').pos
      have hastop : (s.mm a.1).stop = (s.mm a.1).addr + (s.mm a.1).length := rfl
      have hbstop : (s.mm b.1).stop = (s.mm b.1).addr + (s.mm b.1).length := rfl
      refine ⟨fun hlt => hblt.mpr ?_, fun hgt => hagt.mpr ?_⟩
      · have := halt.mp hlt
        omega
      · have := hbgt.mp hgt
        omega
    obtain ⟨hlt, hgt⟩ := dirMm_spec h hi hj y.2
    have heq : s.dirMm i y = .eq := by
      cases hdir : s.dirMm i y with
      | lt =>
        have := hlt.mp hdir
        omega
      | gt =>
        have := hgt.mp hdir
        omega
      | eq => rfl
    obtain ⟨z, hz⟩ := linkNode_of_eq (x := (i, true)) hd hy heq
    rw [insertLazyMmap, hz]
  · refine .inl ⟨htaken, ?_⟩
    obtain ⟨l, r, hm, hl, hr⟩ := split_of_free h htaken
    obtain ⟨left, right, htree, rfl, rfl⟩ := List.map_eq_append_iff.mp hm
    have hmem : ∀ y ∈ left ++ right, y.1 ∈ s.mmaps pid := fun y hy => Mapped.mem_tree (htree ▸ hy)
    obtain ⟨tree, hlink, hin⟩ := @linkNode_between _ (i, true) (s.dirMm i) _ _ _ htree
      (fun y hy => (dirMm_spec h hi (hmem y (List.mem_append_left _ hy)) y.2).2.mpr (hl y.1 (List.mem_map_of_mem hy)))
      (fun y hy => (dirMm_spec h hi (hmem y (List.mem_append_right _ hy)) y.2).1.mpr (hr y.1 (List.mem_map_of_mem hy)))
    refine ⟨left.map Prod.fst, right.map Prod.fst, cfg.rb.insertColor i tree, hm, hl, hr, ?_, ?_⟩
    · refine (cfg.rb.mmaps_insertColor _ _).trans ?_
      rw [RbTree.mmaps, hin, List.map_append, List.map_cons]
    · rw [insertLazyMmap, hlink]

theorem Mapped.insertLazyMmap (cfg : Config) (h : Mapped s pid) (hi : (s.mm i).Valid) (hlt : i < s.nextMm) :
    Mapped (s.insertLazyMmap cfg pid i).1 pid ∧
      ((s.insertLazyMmap cfg pid i).2 = true ↔ ¬ s.Taken pid (s.mm i).addr (s.mm i).stop) ∧
      ((s.insertLazyMmap cfg pid i).2 = true → i ∈ (s.insertLazyMmap cfg pid i).1.mmaps pid) ∧
      ∀ j ∈ (s.insertLazyMmap cfg pid i).1.mmaps pid, j = i ∨ j ∈ s.mmaps pid := by
  obtain ⟨hfree, l, r, tree, hm, hl, hr, htree, heq⟩ | ⟨htaken, heq⟩ := insertLazyMmap_spec cfg h hi
  · have hmaps : (s.setMaps pid tree).mmaps pid = l ++ i :: r := by
      rw [mmaps, setMaps, setSpace_spaces, if_pos rfl]
      exact htree
    have hold : ∀ j, j ∈ l ++ i :: r ↔ j = i ∨ j ∈ s.mmaps pid := fun j => by
      rw [hm, List.mem_append, List.mem_cons, List.mem_append]
      tauto
    rw [heq]
    refine ⟨⟨⟨fun mm hmm => ?_, ?_⟩, fun j hj => ?_, fun j hj => ?_⟩, ⟨fun _ => hfree, fun _ => rfl⟩, fun _ => ?_,
      fun j hj => (hold j).mp (hmaps ▸ hj)⟩
    · obtain ⟨j, hj, rfl⟩ := List.mem_map.mp hmm
      obtain rfl | hj := (hold j).mp (hmaps ▸ hj)
      · exact hi
      · exact h.valid hj
    · have hord := h.ordered
      rw [hm] at hord
      obtain ⟨hll, hrr, hlr⟩ := List.pairwise_append.mp hord
      refine List.pairwise_map.mpr ?_
      rw [hmaps]
      refine List.pairwise_append.mpr ⟨hll, List.pairwise_cons.mpr ⟨hr, hrr⟩, fun a ha b hb => ?_⟩
      obtain rfl | hb := List.mem_cons.mp hb
      · exact hl a ha
      · exact hlr a ha b hb
    · obtain rfl | hj := (hold j).mp (hmaps ▸ hj)
      · exact hlt
      · exact h.fresh j hj
    · rw [setMaps, setSpace_spaces, if_pos rfl] at hj
      rw [hmaps]
      exact (hold j).mpr (.inr (h.last j hj))
    · rw [hmaps]
      exact (hold i).mpr (.inl rfl)
  · rw [heq]
    exact ⟨h, ⟨by rintro ⟨⟩, fun hfree => absurd htaken hfree⟩, by rintro ⟨⟩, fun j hj => .inr hj⟩

-- One space at a time

/-- Nothing has changed but the mappings of one space and new ones. Its `mmap_bot` is `bot`. -/
structure Confined (s t : State) (pid bot : ℕ) : Prop where
  others : ∀ q, q ≠ pid → t.spaces q = s.spaces q
  space : ∃ maps last, t.spaces pid = { s.spaces pid with maps := maps, lastMmap := last, mmapBot := bot }
  mm : ∀ i, i < s.nextMm → i ∉ s.mmaps pid → t.mm i = s.mm i
  next : s.nextMm ≤ t.nextMm
  mmaps : ∀ i ∈ t.mmaps pid, i ∈ s.mmaps pid ∨ s.nextMm ≤ i

namespace Confined

variable {bot : ℕ}

theorem refl (s : State) (pid : ℕ) : Confined s s pid (s.spaces pid).mmapBot :=
  ⟨fun _ _ => rfl, ⟨_, _, rfl⟩, fun _ _ _ => rfl, le_rfl, fun _ => .inl⟩

theorem congr (h : Confined s t pid bot) (hsp : u.spaces = t.spaces) (hmm : u.mm = t.mm) (hnext : u.nextMm = t.nextMm) :
    Confined s u pid bot :=
  ⟨hsp ▸ h.others, hsp ▸ h.space, hmm ▸ h.mm, hnext ▸ h.next, fun i hi => h.mmaps i (by rwa [State.mmaps, hsp] at hi)⟩

theorem setMem {m : Mem} (h : Confined s t pid bot) : Confined s { t with mem := m } pid bot :=
  ⟨h.others, h.space, h.mm, h.next, h.mmaps⟩

theorem table {l : List ℕ} (h : Confined s t pid bot) : Confined s { t with anonMmapTable := l } pid bot :=
  ⟨h.others, h.space, h.mm, h.next, h.mmaps⟩

theorem setMm {mm : LazyMmap} (h : Confined s t pid bot) (hi : i ∈ t.mmaps pid ∨ s.nextMm ≤ i) :
    Confined s (t.setMm i mm) pid bot where
  others := h.others
  space := h.space
  mm j hlt hj := by
    have hne : j ≠ i := by
      rintro rfl
      obtain hi | hi := hi
      · obtain hi | hi := h.mmaps j hi
        · exact hj hi
        · omega
      · omega
    rw [setMm_mm, if_neg hne]
    exact h.mm j hlt hj
  next := h.next
  mmaps := h.mmaps

theorem newMm {mm : LazyMmap} (h : Confined s t pid bot) : Confined s (t.newMm mm).2 pid bot :=
  have h1 : Confined s (t.setMm t.nextMm mm) pid bot := h.setMm (.inr h.next)
  ⟨h1.others, h1.space, h1.mm, Nat.le_succ_of_le h1.next, h1.mmaps⟩

theorem setMaps {tree : RbTree} (h : Confined s t pid bot)
    (htree : ∀ i ∈ tree.mmaps, i ∈ t.mmaps pid ∨ s.nextMm ≤ i) : Confined s (t.setMaps pid tree) pid bot where
  others q hq := by
    rw [State.setMaps, setSpace_spaces, if_neg hq]
    exact h.others q hq
  space := by
    obtain ⟨maps, last, hsp⟩ := h.space
    refine ⟨tree, last, ?_⟩
    rw [State.setMaps, setSpace_spaces, if_pos rfl, hsp]
  mm := h.mm
  next := h.next
  mmaps i hi := by
    rw [State.mmaps, State.setMaps, setSpace_spaces, if_pos rfl] at hi
    exact (htree i hi).elim (h.mmaps i) .inr

theorem setLast {o : Option ℕ} (h : Confined s t pid bot) : Confined s (t.setLast pid o) pid bot where
  others q hq := by
    rw [State.setLast, setSpace_spaces, if_neg hq]
    exact h.others q hq
  space := by
    obtain ⟨maps, last, hsp⟩ := h.space
    refine ⟨maps, o, ?_⟩
    rw [State.setLast, setSpace_spaces, if_pos rfl, hsp]
  mm := h.mm
  next := h.next
  mmaps i hi := by
    rw [State.mmaps, State.setLast, setSpace_spaces, if_pos rfl] at hi
    exact h.mmaps i hi

theorem insertLazyMmap (h : Confined s t pid bot) (hi : s.nextMm ≤ i) :
    Confined s (t.insertLazyMmap cfg pid i).1 pid bot := by
  rw [State.insertLazyMmap]
  split
  · exact h
  · next tree hlink =>
    refine h.setMaps fun j hj => ?_
    rw [cfg.rb.mmaps_insertColor] at hj
    have hperm := (perm_linkNode hlink).map Prod.fst
    obtain rfl | hj := List.mem_cons.mp (hperm.mem_iff.mp hj)
    · exact .inr hi
    · exact .inl hj

theorem findLazyMmap {a : ℕ} (h : Confined s t pid bot) : Confined s (t.findLazyMmap pid a).2 pid bot := by
  rw [State.findLazyMmap]
  split
  · exact h
  · split
    · exact h.setLast
    · exact h

theorem cutAnonMmap {first last : ℕ} (h : Confined s t pid bot) (hu : t.cutAnonMmap cfg i first last = some u) :
    Confined s u pid bot := by
  obtain ⟨m, rfl, -⟩ := cutAnonMmap_same hu
  exact h.setMem

theorem dropAnon (h : Confined s t pid bot) (hu : t.dropAnon cfg i = some u) : Confined s u pid bot := by
  obtain ⟨v, hv, rfl⟩ := Option.map_eq_some_iff.mp hu
  exact (h.cutAnonMmap hv).table

theorem eraseMmap (h : Confined s t pid bot) (hnodup : (t.mmaps pid).Nodup) : Confined s (t.eraseMmap cfg pid i) pid bot :=
  h.setMaps fun j hj => by
    rw [cfg.rb.mmaps_erase _ _ hnodup] at hj
    exact .inl (List.mem_of_mem_erase hj)

theorem unmapOne (h : Confined s t pid bot) (hi : i ∈ t.mmaps pid) (hnodup : (t.mmaps pid).Nodup)
    (hu : t.unmapOne cfg pid addr fin i = some u) : Confined s u pid bot := by
  simp only [State.unmapOne] at hu
  split at hu
  · obtain ⟨v, hv, hu⟩ := Option.bind_eq_some_iff.mp hu
    have hdrop : Confined s v pid bot ∧ v.spaces = t.spaces := by
      split at hv
      · refine ⟨h.dropAnon hv, ?_⟩
        obtain ⟨w, hw, rfl⟩ := Option.map_eq_some_iff.mp hv
        obtain ⟨m, rfl, -⟩ := cutAnonMmap_same hw
        rfl
      · cases hv
        exact ⟨h, rfl⟩
    have herase : Confined s (v.eraseMmap cfg pid i) pid bot := hdrop.1.eraseMmap (by rwa [State.mmaps, hdrop.2])
    cases hu
    split
    · exact herase.setLast
    · exact herase
  split at hu
  · have hsplit : Confined s (t.splitMmap cfg pid addr fin i).1 pid bot :=
      (h.newMm.setMm (.inl hi)).insertLazyMmap h.next
    obtain ⟨_, -, hu⟩ := Option.bind_eq_some_iff.mp hu
    split at hu
    · obtain ⟨v, hv, he⟩ := Option.bind_eq_some_iff.mp hu
      cases he
      exact (hsplit.cutAnonMmap hv).table
    · cases hu
      exact hsplit
  split at hu
  · obtain ⟨_, -, hu⟩ := Option.bind_eq_some_iff.mp hu
    have hcut : Confined s (t.setMm i ((t.mm i).cutTo addr)) pid bot := h.setMm (.inl hi)
    split at hu
    · exact hcut.cutAnonMmap hu
    · cases hu
      exact hcut
  · obtain ⟨_, -, hu⟩ := Option.bind_eq_some_iff.mp hu
    obtain ⟨_, -, hu⟩ := Option.bind_eq_some_iff.mp hu
    obtain ⟨v, hv, hu⟩ := Option.bind_eq_some_iff.mp hu
    cases hu
    split at hv
    · obtain ⟨m, rfl, -⟩ := cutAnonMmap_same hv
      exact h.setMem.setMm (.inl hi)
    · cases hv
      exact h.setMm (.inl hi)

theorem munmapLoop {n : ℕ} (h : Confined s t pid bot) (hmap : Mapped t pid) (hm : t.mmaps pid = l ++ r)
    (haddr : addr % pageSize = 0) (hfin : fin % pageSize = 0) (hle : addr ≤ fin) (hr : ∀ i ∈ r, addr < (t.mm i).stop)
    (hu : State.munmapLoop cfg pid addr fin n t r.head? = some u) : Confined s u pid bot := by
  induction n generalizing t l r with
  | zero =>
    cases r with
    | nil =>
      cases hu
      exact h
    | cons c r => cases hu
  | succ n ih =>
    cases r with
    | nil =>
      cases hu
      exact h
    | cons c r =>
      obtain ⟨_, -, hu⟩ := Option.bind_eq_some_iff.mp hu
      split at hu
      · cases hu
        exact h
      · next hover =>
        obtain ⟨v, hv, hu⟩ := Option.bind_eq_some_iff.mp hu
        have hrep := unmapOne_replaced hmap hm haddr hfin hle (hr c List.mem_cons_self) (not_le.mp hover) hv
        obtain ⟨new, hnew, -, -⟩ := hrep.mmaps
        rw [hmap.nextMmap_eq hm] at hu
        refine ih (h.unmapOne (by rw [hm]; simp) hmap.nodup hv) (hrep.mapped hmap hm haddr hfin hle) hnew (fun i hi => ?_) hu
        rw [hrep.mm i (List.mem_append_right _ hi)]
        exact hr i (List.mem_cons_of_mem _ hi)

theorem munmapSpace {size : ℕ} (h : Confined s t pid bot) (hmap : Mapped t pid) (haddr : addr % pageSize = 0)
    (hsize : size % pageSize = 0) (hlt : addr + size < 2 ^ 32) (hu : t.munmapSpace cfg pid addr size = some u) :
    Confined s u pid bot := by
  have hfin : (addr + size) % pageSize = 0 := by
    simp only [pageSize] at *
    omega
  obtain ⟨m, -, hloop⟩ := munmapSpace_loop hlt hu
  obtain ⟨rfl, -⟩ | ⟨l, c, r, hm, -, hr, -, hloop⟩ := munmapLoop_cases hmap hlt hloop
  · exact h.setMem
  · exact (h.setMem (m := m)).munmapLoop (r := c :: r) ⟨hmap.inOrder, hmap.fresh, hmap.last⟩ hm haddr hfin
      (Nat.le_add_right _ _) hr hloop

end Confined

theorem not_taken_of_cut (h : InOrder (s.records pid)) (haddr : addr % pageSize = 0)
    (hcut : t.records pid = (s.records pid).flatMap (·.cut addr fin)) : ¬ t.Taken pid addr fin := by
  rintro ⟨i, hi, hlo, hhi⟩
  have hmem : t.mm i ∈ t.records pid := List.mem_map_of_mem hi
  rw [hcut] at hmem
  obtain ⟨mm, hmm, hm⟩ := List.mem_flatMap.mp hmem
  obtain ⟨hout, heq⟩ | ⟨⟨hstop, hstart⟩, ⟨hlow, heq⟩ | ⟨hhigh, heq⟩⟩ := LazyMmap.mem_cut.mp hm
  · rw [heq] at hlo hhi
    omega
  · rw [heq, ((h.valid mm hmm).cutTo haddr hlow hstop).2] at hlo
    omega
  · rw [heq] at hhi
    exact Nat.lt_irrefl _ hhi

theorem not_taken_of_found {size : ℕ} (h : Mapped s pid) (haddr : addr % pageSize = 0) (hsize : size % pageSize = 0)
    (hlt : addr + size < 2 ^ 32) (hfound : Found s pid addr (addr + size))
    (hs : s.munmapSpace cfg pid addr size = some t) : ¬ t.Taken pid addr (addr + size) := by
  obtain ⟨m, -, -, -, hcut, -⟩ := munmapSpace_maps h haddr hsize hlt hs
  exact not_taken_of_cut h.inOrder haddr (hcut hfound)

-- Placing

/-- What placing the mapping `i` leaves: the space is in order, and has `i` at `addr` if `ok`. -/
structure Put (s : State) (pid i addr length bot : ℕ) (r : State × Bool) : Prop where
  mapped : Mapped r.1 pid
  confined : Confined s r.1 pid bot
  mm : (r.1.mm i).addr = addr ∧ (r.1.mm i).length = length
  mem : r.2 = true → i ∈ r.1.mmaps pid
  lt : i < r.1.nextMm

variable {length bot : ℕ} {v : State} {r' : State × Bool}

theorem Mapped.congr (h : Mapped s pid) (hm : t.mmaps pid = s.mmaps pid) (hmm : ∀ j ∈ s.mmaps pid, t.mm j = s.mm j)
    (hnext : s.nextMm ≤ t.nextMm) (hlast : (t.spaces pid).lastMmap = (s.spaces pid).lastMmap) : Mapped t pid := by
  have hrecords : t.records pid = s.records pid := by
    rw [State.records, hm]
    exact List.map_congr_left hmm
  exact ⟨hrecords ▸ h.inOrder, fun j hj => Nat.lt_of_lt_of_le (h.fresh j (hm ▸ hj)) hnext,
    fun j hj => hm ▸ h.last j (hlast ▸ hj)⟩

structure Ready (s v : State) (pid i bot : ℕ) : Prop where
  mapped : Mapped v pid
  confined : Confined s v pid bot
  new : s.nextMm ≤ i
  lt : i < v.nextMm
  out : i ∉ v.mmaps pid

theorem Mapped.ready (h : Mapped s pid) (mm : LazyMmap) :
    Ready s (s.newMm mm).2 pid s.nextMm (s.spaces pid).mmapBot := by
  have hlt : ∀ j ∈ s.mmaps pid, j ≠ s.nextMm := fun j hj => Nat.ne_of_lt (h.fresh j hj)
  refine ⟨h.congr rfl (fun j hj => ?_) (Nat.le_succ _) rfl, (Confined.refl s pid).newMm, le_rfl,
    Nat.lt_succ_self _, fun hi => hlt _ hi rfl⟩
  exact Function.update_of_ne (hlt j hj) _ _

theorem Ready.congr {w : State} (h : Ready s v pid i bot) (hsp : w.spaces = v.spaces) (hmm : w.mm = v.mm)
    (hnext : w.nextMm = v.nextMm) : Ready s w pid i bot := by
  have hmaps : w.mmaps pid = v.mmaps pid := by rw [mmaps, hsp, mmaps]
  exact ⟨h.mapped.congr hmaps (fun j _ => congrFun hmm j) hnext.ge (by rw [hsp]), h.confined.congr hsp hmm hnext, h.new,
    hnext ▸ h.lt, hmaps ▸ h.out⟩

theorem Ready.insert (cfg : Config) (h : Ready s v pid i bot) (hv : (v.mm i).Valid) :
    Put s pid i (v.mm i).addr (v.mm i).length bot (v.insertLazyMmap cfg pid i) := by
  obtain ⟨hmap, -, hmem, -⟩ := h.mapped.insertLazyMmap cfg hv h.lt
  have hmm : (v.insertLazyMmap cfg pid i).1.mm = v.mm ∧ (v.insertLazyMmap cfg pid i).1.nextMm = v.nextMm := by
    rw [insertLazyMmap]
    split <;> exact ⟨rfl, rfl⟩
  exact ⟨hmap, h.confined.insertLazyMmap h.new, by rw [hmm.1]; exact ⟨rfl, rfl⟩, hmem, by rw [hmm.2]; exact h.lt⟩

theorem Ready.setMm {mm : LazyMmap} (h : Ready s v pid i bot) : Ready s (v.setMm i mm) pid i bot := by
  have hold : ∀ j ∈ v.mmaps pid, (v.setMm i mm).mm j = v.mm j := fun j hj => by
    rw [setMm_mm, if_neg fun he => h.out (by rwa [← he])]
  exact ⟨h.mapped.congr rfl hold le_rfl rfl, h.confined.setMm (.inr h.new), h.new, h.lt, h.out⟩

theorem Ready.carve (h : Ready s v pid i bot) : Ready s (v.carve pid i length) pid i (wordSub bot length) := by
  obtain ⟨maps, last, hsp⟩ := h.confined.space
  have hself : (v.setSpace pid { v.spaces pid with mmapBot := wordSub (v.spaces pid).mmapBot length }).spaces pid =
      { v.spaces pid with mmapBot := wordSub (v.spaces pid).mmapBot length } := by rw [setSpace_spaces, if_pos rfl]
  have hmaps : (v.setSpace pid { v.spaces pid with mmapBot := wordSub (v.spaces pid).mmapBot length }).mmaps pid =
      v.mmaps pid := by rw [mmaps, hself, mmaps]
  refine Ready.setMm ⟨h.mapped.congr hmaps (fun _ _ => rfl) le_rfl (by rw [hself]), ⟨fun q hq => ?_, ?_, h.confined.mm,
    h.confined.next, fun j hj => h.confined.mmaps j (hmaps ▸ hj)⟩, h.new, h.lt, hmaps.symm ▸ h.out⟩
  · rw [setSpace_spaces, if_neg hq]
    exact h.confined.others q hq
  · refine ⟨maps, last, ?_⟩
    rw [hself, hsp]

theorem placeFixed_spec (h : Ready s v pid i bot) (hv : (v.mm i).Valid) (haddr : (v.mm i).addr = addr)
    (hlen : (v.mm i).length = length) (hr : v.placeFixed cfg pid i addr length = some r') :
    Put s pid i addr length bot r' ∧
      ((v.Taken pid addr (addr + length) → Found v pid addr (addr + length)) → r'.2 = true) := by
  subst haddr hlen
  rw [placeFixed] at hr
  obtain ⟨-, hok, -⟩ := h.mapped.insertLazyMmap cfg hv h.lt
  by_cases hfirst : (v.insertLazyMmap cfg pid i).2 = true
  · rw [if_pos hfirst, Option.some.injEq] at hr
    subst hr
    exact ⟨h.insert cfg hv, fun _ => hfirst⟩
  · rw [if_neg hfirst] at hr
    obtain ⟨w, hw, rfl⟩ := Option.map_eq_some_iff.mp hr
    have htaken : v.Taken pid (v.mm i).addr (v.mm i).stop := by
      by_contra hfree
      exact hfirst (hok.mpr hfree)
    have hlt : (v.mm i).addr + (v.mm i).length < 2 ^ 32 := hv.stop_lt
    obtain ⟨m, -, -, hwmap, -⟩ := munmapSpace_maps h.mapped hv.addr_aligned hv.length_aligned hlt hw
    have hvw : Confined v w pid _ := (Confined.refl v pid).munmapSpace h.mapped hv.addr_aligned hv.length_aligned hlt hw
    have hmm : w.mm i = v.mm i := hvw.mm i h.lt h.out
    have hready : Ready s w pid i bot := by
      refine ⟨hwmap, h.confined.munmapSpace h.mapped hv.addr_aligned hv.length_aligned hlt hw, h.new,
        Nat.lt_of_lt_of_le h.lt hvw.next, fun hi => ?_⟩
      obtain hi | hi := hvw.mmaps i hi
      · exact h.out hi
      · exact absurd h.lt (Nat.not_lt.mpr hi)
    have hput := hready.insert cfg (hmm.symm ▸ hv)
    rw [hmm] at hput
    refine ⟨hput, fun hfound => ?_⟩
    have hfree := not_taken_of_found h.mapped hv.addr_aligned hv.length_aligned hlt (hfound htaken) hw
    obtain ⟨-, hok', -⟩ := hwmap.insertLazyMmap cfg (hmm.symm ▸ hv) hready.lt
    rw [hmm] at hok'
    exact hok'.mpr hfree

theorem placeHint_spec (cfg : Config) (h : Ready s v pid i bot) (haddr : (v.mm i).addr = addr) (hlen : (v.mm i).length = length)
    (hhint : addr ≠ 0 → (v.insertLazyMmap cfg pid i).2 = true → (v.mm i).Valid)
    (hcarve : ¬ (addr ≠ 0 ∧ (v.insertLazyMmap cfg pid i).2 = true) →
      ((v.mm i).at (v.carveAddr pid length) length).Valid) :
    ∃ place bot', Put s pid i place length bot' (v.placeHint cfg pid i addr length) ∧
      (addr ≠ 0 ∧ (v.insertLazyMmap cfg pid i).2 = true ∧ place = addr ∧ bot' = bot ∧
          (v.placeHint cfg pid i addr length).2 = true ∨
        ¬ (addr ≠ 0 ∧ (v.insertLazyMmap cfg pid i).2 = true) ∧ place = v.carveAddr pid length ∧
          bot' = wordSub bot length ∧ (¬ v.Taken pid place (place + length) →
            (v.placeHint cfg pid i addr length).2 = true)) := by
  rw [placeHint]
  by_cases hused : addr ≠ 0 ∧ (v.insertLazyMmap cfg pid i).2 = true
  · have hput := h.insert cfg (hhint hused.1 hused.2)
    rw [haddr, hlen] at hput
    rw [if_neg hused.1, if_pos hused.2]
    exact ⟨addr, bot, hput, .inl ⟨hused.1, hused.2, rfl, rfl, hused.2⟩⟩
  · have hv := hcarve hused
    have hhint' : (if addr = 0 then (v, false) else v.insertLazyMmap cfg pid i).2 = false := by
      split
      · rfl
      · next hne => exact Bool.eq_false_iff.mpr fun hok => hused ⟨hne, hok⟩
    have hself : (v.carve pid i length).mm i = (v.mm i).at (v.carveAddr pid length) length := by
      rw [carve, setMm_mm, if_pos rfl]
    have hready : Ready s (v.carve pid i length) pid i (wordSub bot length) := h.carve
    have hput := hready.insert cfg (hself.symm ▸ hv)
    obtain ⟨-, hok, -⟩ := hready.mapped.insertLazyMmap cfg (hself.symm ▸ hv) hready.lt
    rw [hself] at hput hok
    rw [if_neg (by rw [hhint']; exact Bool.false_ne_true)]
    refine ⟨_, _, hput, .inr ⟨hused, rfl, rfl, fun hfree => hok.mpr ?_⟩⟩
    rintro ⟨j, hj, hlo, hhi⟩
    have hjm : j ∈ v.mmaps pid := by
      rw [mmaps, carve] at hj
      simpa [setMm, setSpace_spaces, mmaps] using hj
    have hjmm : (v.carve pid i length).mm j = v.mm j := by
      have hne : j ≠ i := fun he => h.out (he ▸ hjm)
      rw [carve, setMm_mm, if_neg hne]
      rfl
    rw [hjmm] at hlo hhi
    exact hfree ⟨j, hjm, hlo, hhi⟩

structure SameMaps (s t : State) (pid : ℕ) : Prop where
  maps : (t.spaces pid).maps = (s.spaces pid).maps
  mm : ∀ j ∈ s.mmaps pid, t.mm j = s.mm j

namespace SameMaps

theorem mmaps (h : SameMaps s t pid) : t.mmaps pid = s.mmaps pid := by rw [State.mmaps, State.mmaps, h.maps]

theorem taken (h : SameMaps s t pid) : t.Taken pid addr fin ↔ s.Taken pid addr fin := by
  rw [Taken, Taken, h.mmaps]
  exact exists_congr fun j => and_congr_right fun hj => by rw [h.mm j hj]

theorem found (h : SameMaps s t pid) : Found t pid addr fin ↔ Found s pid addr fin := by
  have hprobe : probe (t.dirAddr addr) (t.spaces pid).maps = probe (s.dirAddr addr) (s.spaces pid).maps := by
    rw [h.maps]
    exact probe_congr fun y hy => by rw [dirAddr, dirAddr, h.mm y.1 (Mapped.mem_tree hy)]
  rw [Found, Found, hprobe, h.mmaps]
  refine forall_congr' fun y => imp_congr_right fun hy => ?_
  have hmem : y.1 ∈ s.mmaps pid := Mapped.mem_tree (mem_of_probe hy)
  rw [h.mm y.1 hmem]
  exact imp_congr_right fun _ => forall_congr' fun j => imp_congr_right fun hj => by rw [h.mm j hj]

theorem insertLazyMmap (cfg : Config) (h : SameMaps s t pid) (hfin : (t.mm i).fin = (s.mm i).fin)
    (haddr : (t.mm i).addr = (s.mm i).addr) : (t.insertLazyMmap cfg pid i).2 = (s.insertLazyMmap cfg pid i).2 := by
  have hlink : linkNode (i, true) (t.dirMm i) (t.spaces pid).maps = linkNode (i, true) (s.dirMm i) (s.spaces pid).maps := by
    rw [h.maps]
    exact linkNode_congr fun y hy => by rw [dirMm, dirMm, h.mm y.1 (Mapped.mem_tree hy), hfin, haddr]
  rw [State.insertLazyMmap, State.insertLazyMmap, hlink]
  split <;> rfl

end SameMaps

theorem Ready.prepare {mm : LazyMmap} (h : Ready s u pid i bot) : Ready s ((u.addAnon i).setMm i mm) pid i bot := by
  rw [addAnon]
  split
  · exact h.setMm.congr rfl rfl rfl
  · exact h.setMm

theorem Ready.prepare_same {mm : LazyMmap} (h : Ready s u pid i bot) : SameMaps u ((u.addAnon i).setMm i mm) pid := by
  have hold : ∀ j ∈ u.mmaps pid, j ≠ i := fun j hj he => h.out (he ▸ hj)
  rw [addAnon]
  split <;> exact ⟨rfl, fun j hj => by rw [setMm_mm, if_neg (hold j hj)]⟩

theorem reserveFixed_cases {ok : Bool} {res : Result Unit}
    (hs : u.reserveMmap cfg pid i addr length true ok = some (t, res)) :
    (t = u ∧ ∃ e, res = .error e) ∨ res = .ok () ∧ u.nogo pid addr length = false ∧ ∃ b,
      ((u.addAnon i).setMm i ((u.mm i).at addr length)).placeFixed cfg pid i addr length = some (t, b) := by
  simp only [reserveMmap, Option.bind_eq_bind, Option.bind_eq_some_iff] at hs
  obtain ⟨_, -, _, -, hs⟩ := hs
  split at hs
  · cases hs
    exact .inl ⟨rfl, _, rfl⟩
  next hbad =>
  split at hs
  · cases hs
    exact .inl ⟨rfl, _, rfl⟩
  have hnogo : u.nogo pid addr length = false := Bool.eq_false_iff.mpr fun hb => hbad ⟨hb, trivial⟩
  obtain ⟨r', hr', hs⟩ := Option.bind_eq_some_iff.mp hs
  obtain ⟨_, -, he⟩ := Option.bind_eq_some_iff.mp hs
  cases he
  rw [hnogo] at hr'
  exact .inr ⟨rfl, hnogo, r'.2, hr'⟩

theorem reserveFixed_spec {ok : Bool} {res : Result Unit} (h : Ready s u pid i bot)
    (hv : ((u.mm i).at addr length).Valid) (hs : u.reserveMmap cfg pid i addr length true ok = some (t, res)) :
    (t = u ∧ ∃ e, res = .error e) ∨ res = .ok () ∧ u.nogo pid addr length = false ∧ ∃ b, Put s pid i addr length bot (t, b) ∧
      ((u.Taken pid addr (addr + length) → Found u pid addr (addr + length)) → b = true) := by
  refine (reserveFixed_cases hs).imp_right fun ⟨hres, hnogo, b, hb⟩ => ⟨hres, hnogo, b, ?_⟩
  have hself : ((u.addAnon i).setMm i ((u.mm i).at addr length)).mm i = (u.mm i).at addr length := by
    rw [setMm_mm, if_pos rfl]
  have hready : Ready s ((u.addAnon i).setMm i ((u.mm i).at addr length)) pid i bot := h.prepare
  have hsame : SameMaps u ((u.addAnon i).setMm i ((u.mm i).at addr length)) pid := h.prepare_same
  have hspec := placeFixed_spec hready (hself.symm ▸ hv) (by rw [hself]; rfl) (by rw [hself]; rfl) hb
  rwa [hsame.taken, hsame.found] at hspec

theorem reserveFixed_free {ok : Bool} (h : Ready s u pid i bot) (hv : ((u.mm i).at addr length).Valid)
    (hnogo : u.nogo pid addr length = false) (hanon : (u.mm i).isAnonMmap = false)
    (hfree : ¬ u.Taken pid addr (addr + length)) :
    ∃ t, u.reserveMmap cfg pid i addr length true ok = some (t, .ok ()) ∧
      ∀ j ∈ u.mmaps pid, j ∈ t.mmaps pid ∧ t.mm j = u.mm j := by
  have hself : (u.setMm i ((u.mm i).at addr length)).mm i = (u.mm i).at addr length := by rw [setMm_mm, if_pos rfl]
  have hready : Ready s (u.setMm i ((u.mm i).at addr length)) pid i bot := h.setMm
  have hprepare : (u.addAnon i).setMm i ((u.mm i).at addr length) = u.setMm i ((u.mm i).at addr length) := by
    rw [addAnon, hanon, if_neg Bool.false_ne_true]
  have hold : ∀ j ∈ u.mmaps pid, j ≠ i := fun j hj he => h.out (he ▸ hj)
  have hassert : ∀ (p : Prop) [Decidable p], p → cfg.assert p = some () := fun p _ hp => by
    rw [Config.assert, if_neg fun hno => hno.2 hp]
  obtain ⟨-, l, r, tree, hm, -, -, htree, heq⟩ | ⟨⟨j, hj, hlo, hhi⟩, -⟩ :=
    insertLazyMmap_spec cfg hready.mapped (hself.symm ▸ hv)
  · refine ⟨(u.setMm i ((u.mm i).at addr length)).setMaps pid tree, ?_, fun j hj => ⟨?_, ?_⟩⟩
    · have hlength : length % pageSize = 0 := hv.length_aligned
      have haddr : addr % pageSize = 0 := hv.addr_aligned
      simp only [reserveMmap, hassert _ hlength, hassert _ haddr, hnogo, hanon, hprepare, place, placeFixed, heq,
        Bool.false_eq_true, false_and, if_false, if_true, Option.bind_eq_bind, Option.bind_some, hassert _ trivial]
    · have hmem : j ∈ l ++ r := hm ▸ hj
      have htm : (((u.setMm i ((u.mm i).at addr length)).setMaps pid tree).mmaps pid) = l ++ i :: r := by
        rw [mmaps, setMaps, setSpace_spaces, if_pos rfl]
        exact htree
      rw [htm]
      rw [List.mem_append] at hmem ⊢
      exact hmem.imp_right (List.mem_cons_of_mem _)
    · exact Function.update_of_ne (hold j hj) _ _
  · have hmm : (u.setMm i ((u.mm i).at addr length)).mm j = u.mm j := Function.update_of_ne (hold j hj) _ _
    rw [hself] at hlo hhi
    rw [hmm] at hlo hhi
    exact absurd ⟨j, hj, hlo, hhi⟩ hfree

def UsesHint (cfg : Config) (s : State) (pid i addr length : ℕ) : Prop :=
  s.nogo pid addr length = false ∧ addr ≠ 0 ∧
    ((s.setMm i ((s.mm i).at addr length)).insertLazyMmap cfg pid i).2 = true

theorem reserveHint_spec {ok : Bool} (h : Ready s u pid i bot)
    (hhint : u.UsesHint cfg pid i addr length → ((u.mm i).at addr length).Valid)
    (hcarve : ¬ u.UsesHint cfg pid i addr length → ((u.mm i).at (u.carveAddr pid length) length).Valid)
    (hs : u.reserveMmap cfg pid i addr length false ok = some (t, .ok ())) :
    ∃ place bot' b, Put s pid i place length bot' (t, b) ∧
      (u.UsesHint cfg pid i addr length ∧ place = addr ∧ bot' = bot ∧ b = true ∨
        ¬ u.UsesHint cfg pid i addr length ∧ place = u.carveAddr pid length ∧ bot' = wordSub bot length ∧
          (¬ u.Taken pid place (place + length) → b = true)) := by
  simp only [reserveMmap, Option.bind_eq_bind, Option.bind_eq_some_iff] at hs
  obtain ⟨_, -, _, -, hs⟩ := hs
  split at hs
  · cases hs
  split at hs
  · cases hs
  obtain ⟨r', hr', hs⟩ := Option.bind_eq_some_iff.mp hs
  obtain ⟨_, -, he⟩ := Option.bind_eq_some_iff.mp hs
  cases he
  generalize haddr : (if u.nogo pid addr length = true then 0 else addr) = a at hr'
  have hself : ((u.addAnon i).setMm i ((u.mm i).at a length)).mm i = (u.mm i).at a length := by
    rw [setMm_mm, if_pos rfl]
  have hready : Ready s ((u.addAnon i).setMm i ((u.mm i).at a length)) pid i bot := h.prepare
  have hsame : SameMaps u ((u.addAnon i).setMm i ((u.mm i).at a length)) pid := h.prepare_same
  have hused : a ≠ 0 ∧ (((u.addAnon i).setMm i ((u.mm i).at a length)).insertLazyMmap cfg pid i).2 = true ↔
      u.UsesHint cfg pid i addr length := by
    by_cases hbad : u.nogo pid addr length = true
    · rw [if_pos hbad] at haddr
      subst haddr
      exact iff_of_false (fun h => h.1 rfl) fun h => by
        rw [h.1] at hbad
        cases hbad
    · rw [if_neg hbad] at haddr
      subst haddr
      have hbare : SameMaps (u.setMm i ((u.mm i).at addr length)) ((u.addAnon i).setMm i ((u.mm i).at addr length)) pid := by
        rw [addAnon]
        split <;> exact ⟨rfl, fun _ _ => rfl⟩
      have hi : ((u.addAnon i).setMm i ((u.mm i).at addr length)).mm i = (u.setMm i ((u.mm i).at addr length)).mm i := by
        rw [hself, setMm_mm, if_pos rfl]
      rw [UsesHint, hbare.insertLazyMmap cfg (by rw [hi]) (by rw [hi])]
      exact ⟨fun h => ⟨Bool.eq_false_iff.mpr hbad, h⟩, fun h => h.2⟩
  have hcarveAddr : ((u.addAnon i).setMm i ((u.mm i).at a length)).carveAddr pid length = u.carveAddr pid length := by
    rw [addAnon]
    split <;> rfl
  have hplace : r' = ((u.addAnon i).setMm i ((u.mm i).at a length)).placeHint cfg pid i a length :=
    (Option.some.inj hr').symm
  have haddr' (hu : u.UsesHint cfg pid i addr length) : a = addr := by
    rw [← haddr, hu.1]
    rfl
  have hvaddr : (((u.addAnon i).setMm i ((u.mm i).at a length)).mm i).addr = a := congrArg LazyMmap.addr hself
  have hvlen : (((u.addAnon i).setMm i ((u.mm i).at a length)).mm i).length = length := congrArg LazyMmap.length hself
  obtain ⟨place, bot', hput, hwhere⟩ := placeHint_spec cfg hready hvaddr hvlen
    (fun hne hins => by
      have hu := hused.mp ⟨hne, hins⟩
      rw [hself, haddr' hu]
      exact hhint hu)
    (fun hno => by
      have hc := hcarve fun hu => hno (hused.mpr hu)
      rw [hself, hcarveAddr]
      exact hc)
  rw [hused, hcarveAddr, hsame.taken, ← hplace] at hwhere
  rw [← hplace] at hput
  refine ⟨place, bot', r'.2, hput, hwhere.imp_left ?_⟩
  rintro ⟨hne, hins, hp, hb, hok⟩
  have hu := hused.mp ⟨hne, hins⟩
  exact ⟨hu, hp.trans (haddr' hu), hb, hok⟩

end State

end Sneks.Vm
