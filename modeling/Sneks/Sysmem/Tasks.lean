import Sneks.Sysmem.Replace

/-!
# Tasks, their pages and their memory

The invariant of sysmem as a whole, and that making, filling and removing logical
pages keeps it.
-/

namespace Sneks.Sysmem
open Lib

variable {lz : Lz4} {lay : Layout} {s t u : State} {limbo : List ℕ} {olp och : Option ℕ}
  {p lp pid : ℕ} {k : Kind}

-- Items of the internal allocator

namespace AllocHead

def Holds (h : AllocHead) (ptr : ℕ) : Prop :=
  ptr / pageSize ∈ h.pages ∧ ∀ top, h.pages.head? = some top → ptr / pageSize = top → ptr < h.next

structure Ok (h : AllocHead) (live : ℕ → Prop) : Prop where
  holds : ∀ ptr, live ptr ∨ ptr ∈ h.trash → h.Holds ptr
  nodup : h.trash.Nodup
  dead : ∀ ptr ∈ h.trash, ¬ live ptr
  next : ∀ top, h.pages.head? = some top → top * pageSize ≤ h.next

structure Fresh (h : AllocHead) (live : ℕ → Prop) (ptr : ℕ) : Prop where
  dead : ¬ live ptr
  trash : ptr ∉ h.trash
  holds : h.Holds ptr

variable {h : AllocHead} {live : ℕ → Prop} {ptr : ℕ}

theorem Ok.pop {trash : List ℕ} (hok : h.Ok live) (htrash : h.trash = ptr :: trash) :
    Ok { h with trash := trash } live ∧ Fresh { h with trash := trash } live ptr := by
  obtain ⟨hnot, hnodup⟩ := List.nodup_cons.mp (htrash ▸ hok.nodup)
  have hsub : ∀ q ∈ trash, q ∈ h.trash := fun q hq => htrash ▸ List.mem_cons_of_mem _ hq
  have hmem : ptr ∈ h.trash := htrash ▸ List.mem_cons_self
  exact ⟨⟨fun q hq => hok.holds q (hq.imp_right (hsub q)), hnodup, fun q hq => hok.dead q (hsub q hq),
    hok.next⟩, hok.dead ptr hmem, hnot, hok.holds ptr (.inr hmem)⟩

theorem Ok.skip (hok : h.Ok live) (size : ℕ) : Ok { h with next := h.next + size } live where
  holds q hq := ⟨(hok.holds q hq).1, fun top ht he =>
    Nat.lt_of_lt_of_le ((hok.holds q hq).2 top ht he) (Nat.le_add_right ..)⟩
  nodup := hok.nodup
  dead := hok.dead
  next top ht := Nat.le_trans (hok.next top ht) (Nat.le_add_right ..)

theorem Ok.bump {top size : ℕ} {rest : List ℕ} (hok : h.Ok live) (hpages : h.pages = top :: rest)
    (hsize : 0 < size) (hroom : h.next + size < (top + 1) * pageSize) :
    Fresh { h with next := h.next + size } live h.next := by
  have hhead : h.pages.head? = some top := by rw [hpages, List.head?_cons]
  have hle := hok.next top hhead
  have hdiv : h.next / pageSize = top := by
    refine Nat.div_eq_of_lt_le hle ?_
    omega
  have hnot : ¬ (live h.next ∨ h.next ∈ h.trash) :=
    fun hq => Nat.lt_irrefl _ ((hok.holds h.next hq).2 top hhead hdiv)
  refine ⟨fun hl => hnot (.inl hl), fun hm => hnot (.inr hm), ?_, fun _ _ _ => ?_⟩
  · simp only [hdiv, hpages]
    exact List.mem_cons_self
  · exact Nat.lt_add_of_pos_right hsize

theorem Ok.grow {size : ℕ} (hok : h.Ok live) (hp : p ∉ h.pages) (hsize : 0 < size) :
    let h' : AllocHead := { h with pages := p :: h.pages, next := p * pageSize + 4 + size }
    h'.Ok live ∧ h'.Fresh live (p * pageSize + 4) := by
  have hdiv : (p * pageSize + 4) / pageSize = p := by
    simp only [pageSize]
    omega
  have hnot : ¬ (live (p * pageSize + 4) ∨ p * pageSize + 4 ∈ h.trash) :=
    fun hq => hp (hdiv ▸ (hok.holds _ hq).1)
  refine ⟨⟨fun q hq => ?_, hok.nodup, hok.dead, ?_⟩, fun hl => hnot (.inl hl), fun hm => hnot (.inr hm),
    ?_, ?_⟩
  · obtain ⟨hmem, -⟩ := hok.holds q hq
    refine ⟨List.mem_cons_of_mem _ hmem, ?_⟩
    rintro top ⟨⟩ rfl
    exact absurd hmem hp
  · rintro top ⟨⟩
    simp only
    omega
  · rw [hdiv]
    exact List.mem_cons_self
  · intro _ _ _
    exact Nat.lt_add_of_pos_right hsize

theorem Ok.push {live' : ℕ → Prop} (hok : h.Ok live) (hlive : live ptr)
    (hlive' : ∀ q, live' q ↔ q ≠ ptr ∧ live q) : Ok { h with trash := ptr :: h.trash } live' where
  holds q hq := by
    refine hok.holds q ?_
    rcases hq with hq | hq
    · exact .inl ((hlive' q).mp hq).2
    · rcases List.mem_cons.mp hq with rfl | hq
      · exact .inl hlive
      · exact .inr hq
  nodup := List.nodup_cons.mpr ⟨fun hm => hok.dead ptr hm hlive, hok.nodup⟩
  dead q hq hl := by
    obtain ⟨hne, hl⟩ := (hlive' q).mp hl
    rcases List.mem_cons.mp hq with rfl | hq
    · exact hne rfl
    · exact hok.dead q hq hl
  next := hok.next

theorem Ok.admit {live' : ℕ → Prop} (hok : h.Ok live) (hf : h.Fresh live ptr)
    (hlive' : ∀ q, live' q ↔ q = ptr ∨ live q) : h.Ok live' where
  holds q hq := by
    rcases hq with hq | hq
    · rcases (hlive' q).mp hq with rfl | hq
      · exact hf.holds
      · exact hok.holds q (.inl hq)
    · exact hok.holds q (.inr hq)
  nodup := hok.nodup
  dead q hq hl := by
    rcases (hlive' q).mp hl with rfl | hl
    · exact hf.trash hq
    · exact hok.dead q hq hl
  next := hok.next

end AllocHead

-- The invariant

structure Lists (s : State) : Prop where
  nodup : ∀ {pid t}, s.tasks pid = some t → t.mem.Nodup
  unique : ∀ {pid pid' t t' lp}, s.tasks pid = some t → s.tasks pid' = some t' → lp ∈ t.mem →
    lp ∈ t'.mem → pid = pid'

structure Inv (lz : Lz4) (lay : Layout) (s : State) (limbo : List ℕ) (olp och : Option ℕ) : Prop where
  books : Books lz lay s limbo olp och
  lists : Lists s
  heap : (s.heap .lPage).Ok s.Live
  unswaps : lz.Undoes → ∀ e ∈ s.unswaps, e.1 = e.2

theorem Lists.congr (h : Lists s) (ht : t.tasks = s.tasks) : Lists t := by
  refine ⟨?_, ?_⟩
  · rw [ht]
    exact h.nodup
  · rw [ht]
    exact h.unique

theorem live_congr (ht : t.tasks = s.tasks) : t.Live = s.Live := by
  funext q
  simp only [State.Live, ht]

theorem Inv.getFreePage (h : Inv lz lay s limbo olp och) (hs : s.getFreePage lz = some (t, p)) :
    Inv lz lay t (p :: limbo) olp och ∧ Replaced s t ∧ p ∈ s.free := by
  obtain ⟨hb, hr, hp⟩ := getFreePage_spec h.books hs
  refine ⟨⟨hb, h.lists.congr hr.tasks, ?_, ?_⟩, hr, hp⟩
  · rw [hr.heap, live_congr hr.tasks]
    exact h.heap
  · rw [hr.unswaps]
    exact h.unswaps

theorem setHeap_self {hd : AllocHead} : (s.setHeap k hd).heap k = hd := Function.update_self ..

theorem setHeap_of_ne {hd : AllocHead} {j : Kind} (hj : j ≠ k) : (s.setHeap k hd).heap j = s.heap j :=
  Function.update_of_ne hj ..

theorem count_heapPages (hd : AllocHead) (q : ℕ) :
    (s.setHeap k hd).heapPages.count q + (s.heap k).pages.count q =
      s.heapPages.count q + hd.pages.count q := by
  cases k <;>
    simp [State.heapPages, State.setHeap, List.count_append, Function.update_of_ne] <;> omega

theorem Inv.setHeap {limbo' : List ℕ} {hd : AllocHead} (h : Inv lz lay s limbo olp och)
    (hcount : ∀ q, hd.pages.count q + limbo'.count q = (s.heap k).pages.count q + limbo.count q)
    (hok : k = .lPage → hd.Ok s.Live) : Inv lz lay (s.setHeap k hd) limbo' olp och := by
  obtain ⟨⟨hh, hl⟩, hlists, hheap, hun⟩ := h
  refine ⟨⟨hh.move rfl (fun q => ?_) hh.numFree, ?_⟩, hlists.congr rfl, ?_, hun⟩
  · have h1 := count_heapPages (s := s) (k := k) hd q
    have h2 := hcount q
    simp only [State.places] at h1 ⊢
    simp only [State.setHeap] at h1 ⊢
    omega
  · exact hl.congr rfl (fun _ => rfl) (fun _ => Iff.rfl) (fun _ _ => ⟨rfl, rfl⟩) fun _ _ => rfl
  · by_cases hk : k = .lPage
    · subst hk
      rw [setHeap_self]
      exact hok rfl
    · rw [setHeap_of_ne (Ne.symm hk)]
      exact hheap

theorem Kind.size_pos (k : Kind) : 0 < k.size := by cases k <;> simp [Kind.size]

theorem Inv.not_heap (h : Inv lz lay s (p :: limbo) olp och) (k : Kind) : p ∉ (s.heap k).pages := by
  intro hm
  have hone := h.books.homes.le_one p
  have hpos : 0 < s.heapPages.count p := by
    refine List.count_pos_iff.mpr ?_
    simp only [State.heapPages, List.mem_append]
    cases k
    · exact .inl (.inl hm)
    · exact .inl (.inr hm)
    · exact .inr hm
  simp only [State.places, List.count_cons_self] at hone
  omega

theorem Inv.getRam {ptr : ℕ} (h : Inv lz lay s limbo olp och) (hs : s.getRam lz k = some (t, ptr)) :
    Inv lz lay t limbo olp och ∧ Kept s t ∧
      (k = .lPage → (t.heap .lPage).Fresh t.Live ptr) := by
  simp only [State.getRam] at hs
  split at hs
  · cases hs
  next u p hu =>
  cases hs
  obtain ⟨hinv, hr, -⟩ := h.getFreePage hu
  have hp := hinv.not_heap k
  refine ⟨hinv.setHeap (fun q => ?_) ?_, hr.toKept.trans (.congr u rfl fun _ => rfl), ?_⟩
  · simp only [List.count_cons]
    omega
  · rintro rfl
    exact (hinv.heap.grow hp (Kind.size_pos _)).1
  · rintro rfl
    rw [setHeap_self]
    exact (hinv.heap.grow hp (Kind.size_pos _)).2

theorem Inv.skip (h : Inv lz lay s limbo olp och) (k : Kind) :
    Inv lz lay (s.setHeap k { s.heap k with next := (s.heap k).next + k.size }) limbo olp och := by
  refine h.setHeap (fun q => rfl) ?_
  rintro rfl
  exact h.heap.skip _

theorem Inv.alloc {ptr : ℕ} (h : Inv lz lay s limbo olp och) (hs : s.alloc lz k = some (t, ptr)) :
    Inv lz lay t limbo olp och ∧ Kept s t ∧
      (k = .lPage → (t.heap .lPage).Fresh t.Live ptr) := by
  simp only [State.alloc] at hs
  split at hs
  · next trash htrash =>
    cases hs
    refine ⟨h.setHeap (fun q => rfl) ?_, .congr s rfl fun _ => rfl, ?_⟩
    · rintro rfl
      exact (h.heap.pop htrash).1
    · rintro rfl
      rw [setHeap_self]
      exact (h.heap.pop htrash).2
  · exact h.getRam hs
  · next top rest _ hpages =>
    have hkept : Kept s (s.setHeap k { s.heap k with next := (s.heap k).next + k.size }) :=
      .congr s rfl fun _ => rfl
    have hskip := h.skip k
    split at hs
    · obtain ⟨hinv, hk, hfresh⟩ := hskip.getRam hs
      exact ⟨hinv, hkept.trans hk, hfresh⟩
    · next hroom =>
      cases hs
      refine ⟨hskip, hkept, ?_⟩
      rintro rfl
      rw [setHeap_self]
      exact h.heap.bump hpages (Kind.size_pos _) (Nat.lt_of_not_le hroom)

-- Tasks and new logical pages

theorem setTask_self {tk : Task} : (s.setTask pid tk).tasks pid = some tk := Function.update_self ..

theorem setTask_of_ne {tk : Task} {q : ℕ} (hq : q ≠ pid) : (s.setTask pid tk).tasks q = s.tasks q :=
  Function.update_of_ne hq ..

theorem live_setTask {tk : Task} {q : ℕ} : (s.setTask pid tk).Live q ↔
    q ∈ tk.mem ∨ ∃ pid' t, pid' ≠ pid ∧ s.tasks pid' = some t ∧ q ∈ t.mem := by
  constructor
  · rintro ⟨pid', t, ht, hq⟩
    by_cases hp : pid' = pid
    · subst hp
      rw [setTask_self] at ht
      cases ht
      exact .inl hq
    · rw [setTask_of_ne hp] at ht
      exact .inr ⟨pid', t, hp, ht, hq⟩
  · rintro (hq | ⟨pid', t, hp, ht, hq⟩)
    · exact ⟨pid, tk, setTask_self, hq⟩
    · exact ⟨pid', t, by rw [setTask_of_ne hp, ht], hq⟩

theorem Inv.congrTasks (h : Inv lz lay s limbo olp och) (ht : t = { s with tasks := t.tasks })
    (hlive : ∀ lp, t.Live lp ↔ s.Live lp) (hlists : Lists t) : Inv lz lay t limbo olp och := by
  have hl : t.Live = s.Live := funext fun lp => propext (hlive lp)
  refine ⟨⟨h.books.homes.move (by rw [ht]) (fun q => by rw [ht]; rfl) (by rw [ht]; exact h.books.homes.numFree),
    h.books.links.congr (by rw [ht]) (fun _ => by rw [ht]) hlive (fun _ _ => by rw [ht]; exact ⟨rfl, rfl⟩)
      fun _ _ => by rw [ht]⟩, hlists, ?_, ?_⟩
  · rw [hl, ht]
    exact h.heap
  · rw [ht]
    exact h.unswaps

theorem Inv.setTask {tk tk' : Task} (h : Inv lz lay s limbo olp och) (htk : s.tasks pid = some tk)
    (hmem : tk'.mem = tk.mem) : Inv lz lay (s.setTask pid tk') limbo olp och := by
  have hold : ∀ {q t}, (s.setTask pid tk').tasks q = some t →
      ∃ t', s.tasks q = some t' ∧ t'.mem = t.mem := by
    intro q t ht
    by_cases hq : q = pid
    · subst hq
      rw [setTask_self] at ht
      cases ht
      exact ⟨tk, htk, hmem.symm⟩
    · rw [setTask_of_ne hq] at ht
      exact ⟨t, ht, rfl⟩
  refine h.congrTasks rfl (fun lp => ?_) ⟨fun ht => ?_, fun ht ht' hlp hlp' => ?_⟩
  · constructor
    · rintro ⟨q, t, ht, hlp⟩
      obtain ⟨t', ht', he⟩ := hold ht
      exact ⟨q, t', ht', he ▸ hlp⟩
    · rintro ⟨q, t, ht, hlp⟩
      by_cases hq : q = pid
      · subst hq
        obtain rfl : t = tk := Option.some.inj (ht.symm.trans htk)
        exact ⟨q, tk', setTask_self, hmem ▸ hlp⟩
      · exact ⟨q, t, by rw [setTask_of_ne hq, ht], hlp⟩
  · obtain ⟨t', ht', he⟩ := hold ht
    exact he ▸ h.lists.nodup ht'
  · obtain ⟨t₁, ht₁, he₁⟩ := hold ht
    obtain ⟨t₂, ht₂, he₂⟩ := hold ht'
    exact h.lists.unique ht₁ ht₂ (he₁ ▸ hlp) (he₂ ▸ hlp')

theorem Inv.newTask {tk : Task} (h : Inv lz lay s limbo olp och) (hnone : s.tasks pid = none)
    (hmem : tk.mem = []) : Inv lz lay (s.setTask pid tk) limbo olp och := by
  have hold : ∀ {q t lp}, (s.setTask pid tk).tasks q = some t → lp ∈ t.mem → s.tasks q = some t := by
    intro q t lp ht hlp
    by_cases hq : q = pid
    · subst hq
      rw [setTask_self] at ht
      cases ht
      rw [hmem] at hlp
      cases hlp
    · rwa [setTask_of_ne hq] at ht
  refine h.congrTasks rfl (fun lp => ?_) ⟨fun {q t} ht => ?_, fun ht ht' hlp hlp' => ?_⟩
  · rw [live_setTask, hmem]
    constructor
    · rintro (hlp | ⟨q, t, -, ht, hlp⟩)
      · cases hlp
      · exact ⟨q, t, ht, hlp⟩
    · rintro ⟨q, t, ht, hlp⟩
      have hq : q ≠ pid := by
        rintro rfl
        cases hnone.symm.trans ht
      exact .inr ⟨q, t, hq, ht, hlp⟩
  · by_cases hq : q = pid
    · subst hq
      rw [setTask_self] at ht
      cases ht
      rw [hmem]
      exact List.nodup_nil
    · rw [setTask_of_ne hq] at ht
      exact h.lists.nodup ht
  · exact h.lists.unique (hold ht hlp) (hold ht' hlp') hlp hlp'

theorem Inv.getTask (h : Inv lz lay s limbo olp och) (hs : s.getTask lz pid = some t) :
    Inv lz lay t limbo olp och ∧ (∀ lp, t.Live lp ↔ s.Live lp) ∧
      (∀ q tk, s.tasks q = some tk → t.tasks q = some tk) ∧
      ∀ lp, (t.lpage lp).lAddr = (s.lpage lp).lAddr := by
  simp only [State.getTask] at hs
  split at hs
  · cases hs
  split at hs
  · cases hs
    exact ⟨h, fun _ => Iff.rfl, fun _ _ => id, fun _ => rfl⟩
  next hnone =>
  split at hs
  · cases hs
  next u ptr hu =>
  cases hs
  obtain ⟨hinv, hk, -⟩ := h.alloc hu
  have hnone' : u.tasks pid = none := by rw [hk.tasks, hnone]
  refine ⟨hinv.newTask hnone' rfl, fun lp => ?_, fun q tk htk => ?_, fun lp => (hk.attr lp).1⟩
  · rw [live_setTask, ← live_congr hk.tasks]
    constructor
    · rintro (hlp | ⟨q, t, -, ht, hlp⟩)
      · cases hlp
      · exact ⟨q, t, ht, hlp⟩
    · rintro ⟨q, t, ht, hlp⟩
      have hq : q ≠ pid := by
        rintro rfl
        cases hnone'.symm.trans ht
      exact .inr ⟨q, t, hq, ht, hlp⟩
  · have hq : q ≠ pid := by
      rintro rfl
      cases hnone.symm.trans htk
    rw [setTask_of_ne hq, hk.tasks, htk]

theorem Links.admit (h : Links lz s olp och)
    (ht : t = { s with lpage := t.lpage, tasks := t.tasks })
    (hlive : ∀ q, t.Live q ↔ q = lp ∨ s.Live q) (hdead : ¬ s.Live lp)
    (hlp : ∀ q, q ≠ lp → t.lpage q = s.lpage q) (hpage : (t.lpage lp).page = 0)
    (hswap : (t.lpage lp).swap = false) : Links lz t olp och := by
  have hne : ∀ {q}, s.Live q → t.lpage q = s.lpage q := by
    rintro q hq
    refine hlp q ?_
    rintro rfl
    exact hdead hq
  have hpages : t.pages = s.pages := by rw [ht]
  have hactive : t.active = s.active := by rw [ht]
  have hstore : t.store = s.store := by rw [ht]
  have hhdr : t.hdr = s.hdr := by rw [ht]
  constructor
  case owned =>
    intro q hq
    obtain ⟨lq, ho, hl, hrest⟩ := h.owned q (hactive ▸ hq)
    exact ⟨lq, by rw [hpages, ho], (hlive lq).mpr (.inr hl), by rwa [hne hl]⟩
  case idle =>
    rw [hactive, hpages]
    exact h.idle
  case resident =>
    intro q hq hother hsw hzero
    rcases (hlive q).mp hq with rfl | hq
    · exact absurd hpage hzero
    · rw [hne hq] at hsw hzero ⊢
      rw [hactive, hpages]
      exact h.resident q hq hother hsw hzero
  case swapped =>
    intro q hq hother hsw
    rcases (hlive q).mp hq with rfl | hq
    · rw [hswap] at hsw
      cases hsw
    · rw [hne hq] at hsw ⊢
      rw [hstore, hhdr]
      exact h.swapped q hq hother hsw
  case filled =>
    intro ch hch slot q hq
    rw [hstore] at hch
    rw [hhdr] at hq
    obtain ⟨hl, hpg, hsw, hother, hdata⟩ := h.filled ch hch slot q hq
    refine ⟨(hlive q).mpr (.inr hl), by rw [hne hl, hpg], by rw [hne hl, hsw], hother, ?_⟩
    rw [ht]
    exact hdata
  case phys => simpa only [hstore, hhdr] using h.phys
  case fits => simpa only [hstore, hhdr] using h.fits
  case twice => simpa only [hstore, hhdr] using h.twice
  case used => simpa only [hstore, hhdr] using h.used
  case buddy =>
    rw [ht]
    exact h.buddy
  case nodup =>
    rw [ht]
    exact h.nodup
  case stored => simpa only [hstore] using h.stored

theorem putLpage_spec (hs : s.putLpage pid lp = some t) : ∃ tk below above, s.tasks pid = some tk ∧
    tk.mem = below ++ above ∧ t = s.setTask pid { tk with mem := below ++ lp :: above } := by
  simp only [State.putLpage] at hs
  split at hs
  · cases hs
  next tk htk =>
  split at hs
  · cases hs
  · cases hs
    exact ⟨tk, _, _, htk, (List.takeWhile_append_dropWhile ..).symm, rfl⟩

theorem live_putLpage (hs : s.putLpage pid lp = some t) (q : ℕ) :
    t.Live q ↔ q = lp ∨ s.Live q := by
  obtain ⟨tk, below, above, htk, hmem, rfl⟩ := putLpage_spec hs
  rw [live_setTask]
  have hin : q ∈ below ++ lp :: above ↔ q = lp ∨ q ∈ tk.mem := by
    rw [hmem]
    simp only [List.mem_append, List.mem_cons]
    tauto
  rw [hin]
  constructor
  · rintro ((rfl | hq) | ⟨pid', t, -, ht, hq⟩)
    · exact .inl rfl
    · exact .inr ⟨pid, tk, htk, hq⟩
    · exact .inr ⟨pid', t, ht, hq⟩
  · rintro (rfl | ⟨pid', t, ht, hq⟩)
    · exact .inl (.inl rfl)
    · by_cases hp : pid' = pid
      · subst hp
        obtain rfl : t = tk := Option.some.inj (ht.symm.trans htk)
        exact .inl (.inr hq)
      · exact .inr ⟨pid', t, hp, ht, hq⟩

theorem Lists.putLpage (h : Lists s) (hdead : ¬ s.Live lp) (hs : s.putLpage pid lp = some t) :
    Lists t := by
  obtain ⟨tk, below, above, htk, hmem, rfl⟩ := putLpage_spec hs
  have hnew : lp ∉ tk.mem := fun hm => hdead ⟨pid, tk, htk, hm⟩
  have hold : ∀ {q t r}, (s.setTask pid { tk with mem := below ++ lp :: above }).tasks q = some t →
      r ∈ t.mem → r ≠ lp → ∃ t', s.tasks q = some t' ∧ r ∈ t'.mem := by
    intro q t r ht hr hne
    by_cases hq : q = pid
    · subst hq
      rw [setTask_self] at ht
      cases ht
      refine ⟨tk, htk, ?_⟩
      rw [hmem]
      simp only [List.mem_append, List.mem_cons] at hr ⊢
      tauto
    · rw [setTask_of_ne hq] at ht
      exact ⟨t, ht, hr⟩
  have hself : ∀ {q t}, (s.setTask pid { tk with mem := below ++ lp :: above }).tasks q = some t →
      lp ∈ t.mem → q = pid := by
    intro q t ht hm
    by_contra hq
    rw [setTask_of_ne hq] at ht
    exact hdead ⟨q, t, ht, hm⟩
  constructor
  · intro q t ht
    by_cases hq : q = pid
    · subst hq
      rw [setTask_self] at ht
      cases ht
      have hnodup := h.nodup htk
      rw [hmem] at hnodup hnew
      exact List.nodup_middle.mpr (List.nodup_cons.mpr ⟨hnew, hnodup⟩)
    · rw [setTask_of_ne hq] at ht
      exact h.nodup ht
  · intro q q' t t' r ht ht' hr hr'
    by_cases hrl : r = lp
    · subst hrl
      rw [hself ht hr, hself ht' hr']
    · obtain ⟨t₁, ht₁, hr₁⟩ := hold ht hr hrl
      obtain ⟨t₂, ht₂, hr₂⟩ := hold ht' hr' hrl
      exact h.unique ht₁ ht₂ hr₁ hr₂

structure NewLpage (s t : State) (lp : ℕ) : Prop where
  live : t.Live lp
  page : (t.lpage lp).page = 0
  swap : (t.lpage lp).swap = false
  kept : ∀ q tk, s.tasks q = some tk → ∃ tk', t.tasks q = some tk'

theorem Inv.newLpage {addr flags : ℕ} (h : Inv lz lay s limbo olp och)
    (hs : s.newLpage lz pid addr flags = some (t, lp)) :
    Inv lz lay t limbo olp och ∧ NewLpage s t lp := by
  simp only [State.newLpage] at hs
  split at hs
  · cases hs
  next u ptr hu =>
  obtain ⟨v, hv, he⟩ := Option.map_eq_some_iff.mp hs
  cases he
  obtain ⟨hinv, hk, hfresh⟩ := h.alloc hu
  obtain ⟨hdead, htrash, hholds⟩ := hfresh rfl
  have hlive := live_putLpage hv
  obtain ⟨tk, below, above, htk, hmem, rfl⟩ := putLpage_spec hv
  have hself : ((u.setLpage lp ⟨addr, 0, false, flags⟩).setTask pid
      { tk with mem := below ++ lp :: above }).lpage lp = ⟨addr, 0, false, flags⟩ :=
    Function.update_self ..
  refine ⟨⟨⟨hinv.books.homes.move rfl (fun q => rfl) hinv.books.homes.numFree, ?_⟩, ?_, ?_,
    hinv.unswaps⟩, (hlive lp).mpr (.inl rfl), by rw [hself], by rw [hself], fun q tk' htk' => ?_⟩
  · exact hinv.books.links.admit rfl hlive hdead (fun q hq => Function.update_of_ne hq ..)
      (by rw [hself]) (by rw [hself])
  · exact (hinv.lists.congr (t := u.setLpage lp _) rfl).putLpage hdead hv
  · exact hinv.heap.admit ⟨hdead, htrash, hholds⟩ hlive
  · by_cases hq : q = pid
    · subst hq
      exact ⟨_, setTask_self⟩
    · exact ⟨tk', by rw [setTask_of_ne hq]; exact (congrFun hk.tasks q).trans htk'⟩

end Sneks.Sysmem
