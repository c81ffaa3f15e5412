import Sneks.Sysmem.Faults

/-!
# The calls of sysmem keep the invariant

Page faults, the removal of logical pages, and the calls built from them, up to
the invariant of every run.
-/

namespace Sneks.Sysmem
open Lib

variable {lz : Lz4} {lay : Layout} {s t u : State} {limbo : List ℕ} {p lp pid : ℕ}

-- Page faults

theorem getLpage_spec {tk : Task} {addr : ℕ} (hs : s.getLpage tk addr = some lp) :
    lp ∈ tk.mem ∧ (s.lpage lp).lAddr = addr :=
  ⟨List.mem_of_find?_eq_some hs, by simpa using List.find?_some hs⟩

theorem Inv.faultIn {addr : ℕ} (h : Inv lz lay s limbo none none)
    (hs : s.faultIn lz pid addr = some (t, lp)) : Inv lz lay t limbo none none := by
  simp only [State.faultIn] at hs
  split at hs
  · cases hs
  next tk htk =>
  split at hs
  · split at hs
    · cases hs
    split at hs
    · cases hs
    next u lq hu =>
    obtain ⟨v, hv, he⟩ := Option.map_eq_some_iff.mp hs
    cases he
    obtain ⟨hinv, hlive, hpage, hswap, -⟩ := h.newLpage hu
    exact (hinv.populate hlive hpage hswap hv).1
  · next lq hlq =>
    have hlive : s.Live lq := ⟨pid, tk, htk, (getLpage_spec hlq).1⟩
    split at hs
    · next hnone =>
      split at hs
      · cases hs
      obtain ⟨v, hv, he⟩ := Option.map_eq_some_iff.mp hs
      cases he
      exact (h.populate hlive hnone.1 hnone.2 hv).1
    split at hs
    · next hswap =>
      obtain ⟨v, hv, he⟩ := Option.map_eq_some_iff.mp hs
      cases he
      exact (h.unswap hlive hswap hv).1
    · cases hs
      exact h

theorem Inv.handlePf {faddr : ℕ} {ok : Bool} (h : Inv lz lay s limbo none none)
    (hs : s.handlePf lz pid faddr = some (t, ok)) : Inv lz lay t limbo none none := by
  simp only [State.handlePf] at hs
  split at hs
  · cases hs
    exact h
  split at hs
  · cases hs
  next u hu =>
  split at hs
  · cases hs
  next v lp hv =>
  split at hs
  · cases hs
  next tk htk =>
  split at hs
  · cases hs
  · cases hs
    exact ((h.getTask hu).1.faultIn hv).setTask htk rfl

-- Removal

theorem Links.evict (hh : Homes lay s limbo) (h : Links lz s none none) (hv : Victim s none p lp) :
    Links lz { s with
      active := s.active.erase p
      pages := Function.update s.pages p { s.pages p with owner := none } } (some lp) none := by
  have hactive : ∀ q, q ∈ s.active.erase p ↔ q ≠ p ∧ q ∈ s.active :=
    fun q => hh.active_nodup.mem_erase_iff
  have hpages : ∀ q, q ≠ p → Function.update s.pages p { s.pages p with owner := none } q = s.pages q :=
    fun q hq => Function.update_of_ne hq ..
  refine ⟨fun q hq => ?_, fun q hq => ?_, fun q hl hne hsw hzero => ?_, fun q hl _ => h.swapped q hl nofun,
    fun c hc slot q hq => ?_, h.phys, h.fits, h.twice, h.used, h.buddy, h.nodup, h.stored⟩
  · obtain ⟨hqp, hq⟩ := (hactive q).mp hq
    obtain ⟨lq, ho, hl, hpq, hsw, -⟩ := h.owned q hq
    simp only [hpages q hqp]
    exact ⟨lq, ho, hl, hpq, hsw, by simpa using hv.ne_of_page hqp hpq⟩
  · by_cases hqp : q = p
    · simp [hqp]
    · simp only [hpages q hqp]
      exact h.idle q fun hm => hq ((hactive q).mpr ⟨hqp, hm⟩)
  · obtain ⟨hm, ho⟩ := h.resident q hl nofun hsw hzero
    have hqp : (s.lpage q).page ≠ p := by
      intro he
      rw [he, hv.owner] at ho
      exact hne ho.symm
    simp only [hpages _ hqp]
    exact ⟨(hactive _).mpr ⟨hqp, hm⟩, ho⟩
  · obtain ⟨hl, hpq, hsw, -, hdata⟩ := h.filled c hc slot q hq
    exact ⟨hl, hpq, hsw, by simpa using hv.ne_of_swap hsw, hdata⟩

theorem Inv.dropMemory (h : Inv lz lay s limbo none none) (hlive : s.Live lp)
    (hs : s.dropMemory lp = some t) :
    Inv lz lay t limbo (some lp) none ∧ t.tasks = s.tasks ∧ t.lpage = s.lpage := by
  simp only [State.dropMemory] at hs
  split at hs
  · next hswap =>
    obtain ⟨hstore, hd⟩ := h.held hlive hswap
    obtain ⟨⟨hh, hl⟩, hlists, hheap, hun⟩ := h
    simp only [State.dropSlot] at hs
    generalize (if (s.hdr (s.lpage lp).page).lp .a = some lp then Slot.a else Slot.b) = slot at hs hd
    generalize hch : (s.lpage lp).page = ch at hs hd hstore
    split at hs
    · cases hs
    split at hs
    · next hother =>
      split at hs
      · cases hs
      cases hs
      have hphys := hl.phys ch hstore
      have hcount := count_erase_of_mem hstore
      refine ⟨⟨⟨hh.move rfl (fun q => ?_) ?_, ?_⟩, hlists.congr rfl, hheap, hun⟩, rfl, rfl⟩
      · have := hcount q
        simp only [State.places, State.heapPages, hphys, List.count_cons, List.count_nil] at this ⊢
        omega
      · simp [hh.numFree]
      · exact (hl.clear_last hh hd hother).congr rfl (fun _ => rfl) (fun _ => Iff.rfl)
          (fun _ _ => ⟨rfl, rfl⟩) fun _ _ => rfl
    · next hother =>
      cases hs
      have hclear := hl.clear_half hd hstore hother
      have hhalf : ((s.hdr ch).clear slot).Half :=
        ⟨slot.other, by rwa [CHdr.clear_other], by rw [slot.other_other, CHdr.clear_self]⟩
      refine ⟨⟨⟨hh.move rfl (fun q => rfl) hh.numFree, hclear.rejoin ?_⟩, hlists.congr rfl, hheap, hun⟩,
        rfl, rfl⟩
      simpa only [Function.update_self] using hhalf
  · next hswap =>
    have hswap : (s.lpage lp).swap = false := by simpa using hswap
    simp only [State.dropPage] at hs
    split at hs
    · next hm =>
      split at hs
      · next ho =>
        cases hs
        obtain ⟨⟨hh, hl⟩, hlists, hheap, hun⟩ := h
        have hv := hl.victim hm ho
        have hcount := count_erase_of_mem hm
        refine ⟨⟨⟨hh.move rfl (fun q => ?_) ?_, ?_⟩, hlists.congr rfl, hheap, hun⟩, rfl, rfl⟩
        · have := hcount q
          simp only [State.places, State.heapPages, List.count_cons, List.count_nil] at this ⊢
          omega
        · simp [hh.numFree]
        · exact (hl.evict hh hv).congr rfl (fun _ => rfl) (fun _ => Iff.rfl) (fun _ _ => ⟨rfl, rfl⟩)
            fun _ _ => rfl
      · cases hs
    · next hm =>
      cases hs
      have hpage : (s.lpage lp).page = 0 := by
        by_contra hzero
        exact hm (h.books.links.resident lp hlive (by rintro ⟨⟩) hswap hzero).1
      exact ⟨h.exempt hpage hswap, rfl, rfl⟩

theorem Links.forget {och : Option ℕ} (h : Links lz s (some lp) och)
    (ht : t = { s with tasks := t.tasks, heap := t.heap })
    (hlive : ∀ q, t.Live q ↔ q ≠ lp ∧ s.Live q) : Links lz t none och := by
  have hpages : t.pages = s.pages := by rw [ht]
  have hactive : t.active = s.active := by rw [ht]
  have hstore : t.store = s.store := by rw [ht]
  have hhdr : t.hdr = s.hdr := by rw [ht]
  have hlp : t.lpage = s.lpage := by rw [ht]
  constructor
  case owned =>
    intro q hq
    obtain ⟨lq, ho, hl, hpq, hsw, hne⟩ := h.owned q (hactive ▸ hq)
    rw [hpages, hlp]
    exact ⟨lq, ho, (hlive lq).mpr ⟨by simpa using hne, hl⟩, hpq, hsw, nofun⟩
  case idle =>
    rw [hactive, hpages]
    exact h.idle
  case resident =>
    intro q hq _
    obtain ⟨hne, hq⟩ := (hlive q).mp hq
    rw [hlp, hactive, hpages]
    exact h.resident q hq (by simpa using hne)
  case swapped =>
    intro q hq _
    obtain ⟨hne, hq⟩ := (hlive q).mp hq
    rw [hlp, hstore, hhdr]
    exact h.swapped q hq (by simpa using hne)
  case filled =>
    intro c hc slot q hq
    rw [hstore] at hc
    rw [hhdr] at hq
    obtain ⟨hl, hpq, hsw, hne, hdata⟩ := h.filled c hc slot q hq
    refine ⟨(hlive q).mpr ⟨by simpa using hne, hl⟩, by rw [hlp, hpq], by rw [hlp, hsw], nofun, ?_⟩
    rw [ht]
    exact hdata
  case phys => simpa only [hstore, hhdr] using h.phys
  case fits => simpa only [hstore, hhdr] using h.fits
  case twice => simpa only [hstore, hhdr] using h.twice
  case used => simpa only [hstore, hhdr] using h.used
  case buddy =>
    rw [ht]
    exact h.buddy
  case nodup =>
    rw [ht]
    exact h.nodup
  case stored => simpa only [hstore] using h.stored

theorem Lists.erase {tk : Task} (h : Lists s) (htk : s.tasks pid = some tk) (hlp : lp ∈ tk.mem) :
    Lists (s.setTask pid { tk with mem := tk.mem.erase lp }) ∧
      ∀ q, (s.setTask pid { tk with mem := tk.mem.erase lp }).Live q ↔ q ≠ lp ∧ s.Live q := by
  have hold : ∀ {q t}, (s.setTask pid { tk with mem := tk.mem.erase lp }).tasks q = some t →
      ∃ t', s.tasks q = some t' ∧ t.mem.Sublist t'.mem := by
    intro q t ht
    by_cases hq : q = pid
    · subst hq
      rw [setTask_self] at ht
      cases ht
      exact ⟨tk, htk, List.erase_sublist ..⟩
    · rw [setTask_of_ne hq] at ht
      exact ⟨t, ht, List.Sublist.refl _⟩
  refine ⟨⟨fun ht => ?_, fun ht ht' hq hq' => ?_⟩, fun q => ?_⟩
  · obtain ⟨t', ht', hsub⟩ := hold ht
    exact (h.nodup ht').sublist hsub
  · obtain ⟨t₁, ht₁, hsub₁⟩ := hold ht
    obtain ⟨t₂, ht₂, hsub₂⟩ := hold ht'
    exact h.unique ht₁ ht₂ (hsub₁.subset hq) (hsub₂.subset hq')
  · rw [live_setTask, (h.nodup htk).mem_erase_iff]
    constructor
    · rintro (⟨hne, hq⟩ | ⟨pid', t, hp, ht, hq⟩)
      · exact ⟨hne, pid, tk, htk, hq⟩
      · refine ⟨?_, pid', t, ht, hq⟩
        rintro rfl
        exact hp (h.unique ht htk hq hlp)
    · rintro ⟨hne, pid', t, ht, hq⟩
      by_cases hp : pid' = pid
      · subst hp
        obtain rfl : t = tk := Option.some.inj (ht.symm.trans htk)
        exact .inl ⟨hne, hq⟩
      · exact .inr ⟨pid', t, hp, ht, hq⟩

theorem Inv.removeLpage {tk : Task} (h : Inv lz lay s limbo none none) (htk : s.tasks pid = some tk)
    (hlp : lp ∈ tk.mem) (hs : s.removeLpage pid lp = some t) :
    Inv lz lay t limbo none none ∧ t.lpage = s.lpage ∧
      t.tasks = Function.update s.tasks pid (some { tk with mem := tk.mem.erase lp }) := by
  simp only [State.removeLpage, State.eraseLpage, Option.bind_eq_bind, Option.bind_eq_some_iff,
    Option.map_eq_some_iff, Option.some.injEq] at hs
  obtain ⟨u, hu, v, ⟨tk', htk', rfl⟩, rfl⟩ := hs
  have hlive : s.Live lp := ⟨pid, tk, htk, hlp⟩
  obtain ⟨hinv, htasks, hlpage⟩ := h.dropMemory hlive hu
  obtain rfl : tk = tk' := by
    rw [htasks, htk] at htk'
    exact Option.some.inj htk'
  obtain ⟨⟨hh, hl⟩, hlists, hheap, hun⟩ := hinv
  obtain ⟨hlists', hlive'⟩ := hlists.erase htk' hlp
  refine ⟨⟨⟨hh.move rfl (fun q => ?_) hh.numFree, hl.forget rfl hlive'⟩, hlists'.congr rfl, ?_, hun⟩,
    hlpage, ?_⟩
  · have hcount := count_heapPages (s := u) (k := .lPage)
      { u.heap .lPage with trash := lp :: (u.heap .lPage).trash } q
    simp only [State.places, State.recycle] at hcount ⊢
    simp only [State.setHeap, State.setTask, State.heapPages] at hcount ⊢
    omega
  · rw [State.recycle, setHeap_self]
    exact hheap.push ⟨pid, tk, htk', hlp⟩ hlive'
  · rw [← htasks]
    rfl

theorem Inv.removeLpages {lps : List ℕ} {tk : Task} (h : Inv lz lay s limbo none none)
    (htk : s.tasks pid = some tk) (hsub : ∀ lp ∈ lps, lp ∈ tk.mem) (hnodup : lps.Nodup)
    (hs : s.removeLpages pid lps = some t) :
    Inv lz lay t limbo none none ∧ ∃ tk', t.tasks pid = some tk' ∧
      ∀ q, q ∈ tk'.mem ↔ q ∈ tk.mem ∧ q ∉ lps := by
  simp only [State.removeLpages] at hs
  induction lps generalizing s tk with
  | nil =>
    cases hs
    exact ⟨h, tk, htk, by simp⟩
  | cons lp lps ih =>
    simp only [List.foldlM_cons, Option.bind_eq_bind, Option.bind_eq_some_iff] at hs
    obtain ⟨u, hu, hs⟩ := hs
    obtain ⟨hnot, hnodup⟩ := List.nodup_cons.mp hnodup
    obtain ⟨hinv, -, htasks⟩ := h.removeLpage htk (hsub lp List.mem_cons_self) hu
    have htk' : u.tasks pid = some { tk with mem := tk.mem.erase lp } := by
      rw [htasks, Function.update_self]
    have hmem : ∀ q, q ∈ tk.mem.erase lp ↔ q ≠ lp ∧ q ∈ tk.mem :=
      fun q => (h.lists.nodup htk).mem_erase_iff
    obtain ⟨hinv', tk'', htk'', hmem'⟩ := ih hinv htk' (fun q hq => (hmem q).mpr
      ⟨fun he => hnot (he ▸ hq), hsub q (List.mem_cons_of_mem _ hq)⟩) hnodup hs
    refine ⟨hinv', tk'', htk'', fun q => ?_⟩
    rw [hmem' q, hmem q, List.mem_cons]
    tauto

theorem Inv.dropTask {tk : Task} (h : Inv lz lay s limbo none none) (htk : s.tasks pid = some tk)
    (hmem : ∀ q, q ∉ tk.mem) : Inv lz lay { s with tasks := Function.update s.tasks pid none }
      limbo none none := by
  have hold : ∀ {q t}, Function.update s.tasks pid none q = some t → q ≠ pid ∧ s.tasks q = some t := by
    intro q t ht
    by_cases hq : q = pid
    · subst hq
      rw [Function.update_self] at ht
      cases ht
    · rw [Function.update_of_ne hq] at ht
      exact ⟨hq, ht⟩
  refine h.congrTasks rfl (fun lp => ?_) ⟨fun ht => h.lists.nodup (hold ht).2,
    fun ht ht' => h.lists.unique (hold ht).2 (hold ht').2⟩
  constructor
  · rintro ⟨q, t, ht, hlp⟩
    exact ⟨q, t, (hold ht).2, hlp⟩
  · rintro ⟨q, t, ht, hlp⟩
    have hq : q ≠ pid := by
      rintro rfl
      obtain rfl : t = tk := Option.some.inj (ht.symm.trans htk)
      exact hmem lp hlp
    exact ⟨q, t, by simpa only [Function.update_of_ne hq] using ht, hlp⟩

theorem Inv.rmTask (h : Inv lz lay s limbo none none) (hs : s.rmTask pid = some t) :
    Inv lz lay t limbo none none := by
  simp only [State.rmTask] at hs
  split at hs
  · cases hs
    exact h
  split at hs
  · cases hs
    exact h
  next tk htk =>
  simp only [Option.bind_eq_bind, Option.bind_eq_some_iff, Option.some.injEq] at hs
  obtain ⟨u, hu, rfl⟩ := hs
  obtain ⟨hinv, tk', htk', hmem⟩ := h.removeLpages htk (fun _ => id) (h.lists.nodup htk) hu
  have hempty : ∀ q, q ∉ tk'.mem := by
    intro q hq
    exact ((hmem q).mp hq).2 ((hmem q).mp hq).1
  exact (hinv.dropTask htk' hempty).setHeap (fun q => rfl) nofun

-- Physical memory

theorem Layout.inImage_of_mem (hp : p ∈ lay.initPages) : lay.inImage p := by
  have hle := lay.start_le
  have htop := lay.le_top
  simp only [Layout.initPages, List.mem_range'_1] at hp
  exact ⟨by omega, by omega⟩

theorem Inv.receive (h : Inv lz lay s limbo none none) (hzero : p ≠ 0) (hnew : p ∉ s.handed) :
    Inv lz lay { s with handed := p :: s.handed } (if lay.inImage p then limbo else p :: limbo)
      none none := by
  obtain ⟨⟨⟨hplaces, hnonzero, hnum⟩, hl⟩, hlists, hheap, hun⟩ := h
  refine ⟨⟨⟨fun q => ?_, ?_, hnum⟩, ?_⟩, hlists.congr rfl, hheap, hun⟩
  · have hq := hplaces q
    have htracked : State.Tracked lay { s with handed := p :: s.handed } q ↔
        s.Tracked lay q ∨ q = p ∧ ¬ lay.inImage p := by
      simp only [State.Tracked, List.mem_cons]
      constructor
      · rintro (hq | ⟨rfl | hq, him⟩)
        · exact .inl (.inl hq)
        · exact .inr ⟨rfl, him⟩
        · exact .inl (.inr ⟨hq, him⟩)
      · rintro ((hq | ⟨hq, him⟩) | ⟨rfl, him⟩)
        · exact .inl hq
        · exact .inr ⟨.inr hq, him⟩
        · exact .inr ⟨.inl rfl, him⟩
    by_cases him : lay.inImage p
    · rw [if_pos him]
      simp only [htracked, him, not_true_eq_false, and_false, or_false]
      exact hq
    · rw [if_neg him]
      by_cases hqp : q = p
      · subst hqp
        have hnot : ¬ s.Tracked lay q := by
          rintro (hm | ⟨hm, -⟩)
          · exact him (Layout.inImage_of_mem hm)
          · exact hnew hm
        rw [if_neg hnot] at hq
        simp only [htracked, him, not_false_eq_true, and_self, or_true, if_true, List.count_cons_self]
        simp only [State.places] at hq ⊢
        exact congrArg (· + 1) hq
      · simp only [htracked, hqp, false_and, or_false, List.count_cons_of_ne (Ne.symm hqp)]
        exact hq
  · simpa using ⟨Ne.symm hzero, hnonzero⟩
  · exact hl.congr rfl (fun _ => rfl) (fun _ => Iff.rfl) (fun _ _ => ⟨rfl, rfl⟩) fun _ _ => rfl

theorem Inv.newPpage (h : Inv lz lay s (p :: limbo) none none) :
    Inv lz lay (s.newPpage p) (p :: limbo) none none := by
  have hnot : p ∉ s.active := by
    intro hm
    have hone := h.books.homes.le_one p
    have := List.count_pos_iff.mpr hm
    simp only [State.places, List.count_cons_self] at hone
    omega
  refine ⟨h.books.congr rfl fun q => ?_, h.lists.congr rfl, h.heap, h.unswaps⟩
  by_cases hq : q = p
  · subst hq
    simp [State.newPpage, State.setPage, h.books.links.idle q hnot]
  · simp [State.newPpage, State.setPage, Function.update_of_ne hq]

theorem Inv.addFreePage (h : Inv lz lay s (if lay.inImage p then limbo else p :: limbo) none none) :
    Inv lz lay (s.addFreePage lay p) limbo none none := by
  simp only [State.addFreePage]
  split
  · next him =>
    rw [if_pos him] at h
    split
    · exact h
    · exact ⟨h.books.congr rfl fun _ => rfl, h.lists.congr rfl, h.heap, h.unswaps⟩
  · next him =>
    rw [if_neg him] at h
    obtain ⟨⟨hh, hl⟩, hlists, hheap, hun⟩ := h.newPpage
    refine ⟨⟨hh.move rfl (fun q => ?_) ?_, ?_⟩, hlists.congr rfl, hheap, hun⟩
    · simp only [State.places, State.heapPages, List.count_append, List.count_cons, List.count_nil]
      simp only [State.newPpage, State.setPage]
      omega
    · have := hh.numFree
      simp only [State.newPpage, State.setPage] at this
      simp [this]
    · exact hl.congr rfl (fun _ => rfl) (fun _ => Iff.rfl) (fun _ _ => ⟨rfl, rfl⟩) fun _ _ => rfl

theorem Inv.addTaskPage (h : Inv lz lay s (p :: limbo) none none)
    (hs : s.addTaskPage lz pid p = some t) : Inv lz lay t limbo none none := by
  simp only [State.addTaskPage, Option.bind_eq_bind, Option.bind_eq_some_iff, Option.some.injEq] at hs
  obtain ⟨⟨u, lp⟩, hu, tk, htk, rfl⟩ := hs
  obtain ⟨hinv, hlive, hpage, hswap, -⟩ := h.newPpage.newLpage hu
  have hage : Inv lz lay (u.setPage p { u.pages p with age := 1 }) (p :: limbo) none none := by
    exact ⟨hinv.books.congr rfl (setPage_owner rfl), hinv.lists.congr rfl, hinv.heap, hinv.unswaps⟩
  exact (Inv.activate (hage.exempt hpage hswap) hlive).setTask htk rfl

theorem Inv.addFrames {dest : Option ℕ} {ps : List ℕ} (h : Inv lz lay s limbo none none)
    (hs : s.addFrames lz lay dest ps = some t) : Inv lz lay t limbo none none := by
  induction ps generalizing s with
  | nil =>
    cases hs
    exact h
  | cons p ps ih =>
    simp only [State.addFrames] at hs
    split at hs
    · cases hs
    next hp =>
    simp only [not_or, not_and] at hp
    split at hs
    · cases hs
    next u ptr hu =>
    obtain ⟨hinv, hk, -⟩ := h.alloc hu
    have hrec := hinv.receive hp.1 (by rw [hk.handed]; exact hp.2.1)
    split at hs
    · exact ih hrec.addFreePage hs
    · next pid =>
      obtain ⟨v, hv, hs⟩ := Option.bind_eq_some_iff.mp hs
      rw [if_neg (hp.2.2 rfl)] at hrec
      exact ih (hrec.addTaskPage hv) hs

theorem Inv.interimFaults {sender : ℕ} {faults : List ℕ} (h : Inv lz lay s limbo none none) (hs : s.interimFaults lz sender faults = some t) :
    Inv lz lay t limbo none none := by
  induction faults generalizing s with
  | nil =>
    cases hs
    exact h
  | cons faddr faults ih =>
    simp only [State.interimFaults] at hs
    split at hs
    · next u hu => exact ih (h.handlePf hu) hs
    · cases hs

theorem Inv.sendPhys {sender : ℕ} {dest : Option ℕ} {frame sizeLog2 : ℕ} {faults : List ℕ}
    {received : Bool} (h : Inv lz lay s limbo none none)
    (hs : s.sendPhys lz lay sender dest frame sizeLog2 faults received = some t) :
    Inv lz lay t limbo none none := by
  simp only [State.sendPhys] at hs
  split at hs
  · cases hs
    exact h
  simp only [Option.bind_eq_bind, Option.bind_eq_some_iff] at hs
  obtain ⟨u, hu, v, hv, hs⟩ := hs
  have hinv : Inv lz lay u limbo none none := by
    simp only [State.getDest] at hu
    split at hu
    · cases hu
      exact h
    · exact (h.getTask hu).1
  have hinv' := hinv.interimFaults hv
  split at hs
  · split at hs
    · cases hs
    · exact hinv'.addFrames hs
  · cases hs
    exact hinv'

-- Virtual memory

theorem Inv.moveLpage {srcPid destPid destAddr : ℕ} {tk : Task} (h : Inv lz lay s limbo none none)
    (htk : s.tasks srcPid = some tk) (hlp : lp ∈ tk.mem)
    (hs : s.moveLpage srcPid destPid lp destAddr = some t) : Inv lz lay t limbo none none := by
  simp only [State.moveLpage, State.eraseLpage, Option.bind_eq_bind, Option.bind_eq_some_iff,
    Option.map_eq_some_iff, Option.some.injEq] at hs
  obtain ⟨u, ⟨tk', htk', rfl⟩, w, hw, dk, hdk, rfl⟩ := hs
  obtain rfl : tk = tk' := Option.some.inj (htk.symm.trans htk')
  obtain ⟨hlists, hlive⟩ := h.lists.erase htk hlp
  have hdead : ¬ (s.setTask srcPid { tk with mem := tk.mem.erase lp }).Live lp :=
    fun hl => ((hlive lp).mp hl).1 rfl
  have hlive' : ∀ q, w.Live q ↔ s.Live q := by
    intro q
    rw [live_putLpage hw q]
    constructor
    · rintro (rfl | hq)
      · exact ⟨srcPid, tk, htk, hlp⟩
      · exact ((hlive q).mp hq).2
    · intro hq
      by_cases hql : q = lp
      · exact .inl hql
      · exact .inr ((hlive q).mpr ⟨hql, hq⟩)
  have hlists' : Lists w := by
    refine Lists.putLpage ?_ ?_ hw
    · exact hlists.congr rfl
    · exact hdead
  obtain ⟨ek, below, above, -, -, rfl⟩ := putLpage_spec hw
  refine Inv.setTask ⟨⟨h.books.homes.move rfl (fun q => rfl) h.books.homes.numFree, ?_⟩, hlists', ?_,
    h.unswaps⟩ hdk rfl
  · refine h.books.links.congr rfl (fun _ => rfl) hlive' (fun q _ => ?_) fun _ _ => rfl
    by_cases hq : q = lp
    · subst hq
      simp [State.setTask, State.setLpage]
    · simp [State.setTask, State.setLpage, Function.update_of_ne hq]
  · rw [show (State.setTask _ destPid _).Live = s.Live from funext fun q => propext (hlive' q)]
    exact h.heap

theorem Inv.sendVirt {srcPid srcAddr destAddr : ℕ} {dest : Option ℕ} {r : Result}
    (h : Inv lz lay s limbo none none) (hapart : ¬ (dest = some srcPid ∧ destAddr = srcAddr))
    (hs : s.sendVirt lz srcPid srcAddr dest destAddr = some (t, r)) : Inv lz lay t limbo none none := by
  simp only [State.sendVirt] at hs
  split at hs
  · cases hs
    exact h
  simp only [Option.bind_eq_bind, Option.bind_eq_some_iff] at hs
  obtain ⟨u, hu, src, hsrc, hs⟩ := hs
  obtain ⟨hinv, -⟩ := h.getTask hu
  split at hs
  · cases hs
  split at hs
  · cases hs
    exact hinv
  next lp hlp =>
  obtain ⟨hmem, haddr⟩ := getLpage_spec hlp
  split at hs
  · obtain ⟨v, hv, he⟩ := Option.map_eq_some_iff.mp hs
    cases he
    exact (hinv.removeLpage hsrc hmem hv).1
  next destPid =>
  split at hs
  · cases hs
    exact hinv
  simp only [Option.bind_eq_some_iff] at hs
  obtain ⟨v, hv, tk, htk, hs⟩ := hs
  obtain ⟨hinv', -, hkept, hattr⟩ := hinv.getTask hv
  split at hs
  · cases hs
  simp only [Option.bind_eq_some_iff, Option.map_eq_some_iff] at hs
  obtain ⟨w, hw, x, hx, he⟩ := hs
  cases he
  have hsrc' := hkept srcPid src hsrc
  simp only [State.removeAt] at hw
  split at hw
  · cases hw
    exact hinv'.moveLpage hsrc' hmem hx
  next dstp hdstp =>
  obtain ⟨hdmem, hdaddr⟩ := getLpage_spec hdstp
  obtain ⟨hinv'', -, htasks⟩ := hinv'.removeLpage htk hdmem hw
  -- the page at the destination is another one than the source
  have hne : lp ≠ dstp := by
    rintro rfl
    have hpid : srcPid = destPid := hinv'.lists.unique hsrc' htk hmem hdmem
    refine hapart ⟨congrArg some hpid.symm, ?_⟩
    rw [← hdaddr, hattr, haddr]
  by_cases hpid : srcPid = destPid
  · subst hpid
    obtain rfl : src = tk := Option.some.inj (hsrc'.symm.trans htk)
    refine hinv''.moveLpage (by rw [htasks, Function.update_self]) ?_ hx
    exact (List.mem_erase_of_ne hne).mpr hmem
  · exact hinv''.moveLpage (by rw [htasks, Function.update_of_ne hpid, hsrc']) hmem hx

theorem Inv.brk {newBrk : ℕ} (h : Inv lz lay s limbo none none) (hs : s.brk lz pid newBrk = some t) :
    Inv lz lay t limbo none none := by
  simp only [State.brk] at hs
  split at hs
  · cases hs
    exact h
  simp only [Option.bind_eq_bind, Option.bind_eq_some_iff] at hs
  obtain ⟨u, hu, tk, htk, hs⟩ := hs
  obtain ⟨hinv, -⟩ := h.getTask hu
  split at hs
  · split at hs
    · cases hs
    · cases hs
      exact hinv.setTask htk rfl
    next lp _ =>
    simp only [Option.bind_eq_some_iff, Option.some.injEq] at hs
    obtain ⟨v, hv, tk', htk', rfl⟩ := hs
    have hsub : List.Sublist ((tk.mem.dropWhile (· ≠ lp)).takeWhile
        fun q => (u.lpage q).lAddr < pageEnd tk.brk) tk.mem :=
      (List.takeWhile_sublist _).trans (List.dropWhile_sublist _)
    have hrem := hinv.removeLpages htk (fun q hq => hsub.subset hq)
      ((hinv.lists.nodup htk).sublist hsub) hv
    exact hrem.1.setTask htk' rfl
  · cases hs
    exact hinv.setTask htk rfl

theorem Inv.setKernelAreas {utcbArea kipArea : Fpage} (h : Inv lz lay s limbo none none) :
    Inv lz lay (s.setKernelAreas pid utcbArea kipArea).1 limbo none none := by
  simp only [State.setKernelAreas]
  split
  · exact h
  next tk htk =>
  split
  · exact h
  split
  · exact h
  · exact h.setTask htk rfl

theorem Inv.setFlags {flags : ℕ} (h : Inv lz lay s limbo none none) :
    Inv lz lay (s.setLpage lp { s.lpage lp with flags := flags }) limbo none none := by
  refine ⟨⟨h.books.homes.move rfl (fun q => rfl) h.books.homes.numFree, ?_⟩, h.lists.congr rfl, h.heap,
    h.unswaps⟩
  refine h.books.links.congr rfl (fun _ => rfl) (fun _ => Iff.rfl) (fun q _ => ?_) fun _ _ => rfl
  by_cases hq : q = lp
  · subst hq
    simp [State.setLpage]
  · simp [State.setLpage, Function.update_of_ne hq]

theorem Inv.alterPage {addr orMask andMask : ℕ} (h : Inv lz lay s limbo none none)
    (hs : s.alterPage lz pid addr orMask andMask = some t) : Inv lz lay t limbo none none := by
  simp only [State.alterPage, Option.bind_eq_bind, Option.bind_eq_some_iff] at hs
  obtain ⟨tk, htk, hs⟩ := hs
  split at hs
  · cases hs
  split at hs
  · next lp hlp =>
    split at hs
    · have hmem : lp ∈ tk.mem := (getLpage_spec hlp).1
      exact (h.setFlags.removeLpage htk hmem hs).1
    · cases hs
      exact h.setFlags
  · obtain ⟨⟨u, lp⟩, hu, rfl⟩ := Option.map_eq_some_iff.mp hs
    exact (h.newLpage hu).1

theorem Inv.alterLoop {high orMask andMask n addr : ℕ} (h : Inv lz lay s limbo none none)
    (hs : s.alterLoop lz pid high orMask andMask n addr = some t) : Inv lz lay t limbo none none := by
  induction n generalizing s addr with
  | zero => cases hs
  | succ n ih =>
    simp only [State.alterLoop] at hs
    split at hs
    · split at hs
      · cases hs
      · next u hu => exact ih (h.alterPage hu) hs
    · cases hs
      exact h

theorem Inv.alterFlags {sender : ℕ} {task : Option ℕ} {range : Fpage} {orMask andMask : ℕ}
    {r : Result} (h : Inv lz lay s limbo none none)
    (hs : s.alterFlags lz sender task range orMask andMask = some (t, r)) :
    Inv lz lay t limbo none none := by
  simp only [State.alterFlags] at hs
  split at hs
  · cases hs
    exact h
  split at hs
  · cases hs
    exact h
  split at hs
  · cases hs
    exact h
  split at hs
  · cases hs
    exact h
  split at hs
  · cases hs
    exact h
  · obtain ⟨u, hu, he⟩ := Option.map_eq_some_iff.mp hs
    cases he
    exact h.alterLoop hu

theorem Inv.write {addr : ℕ} {page : Page} (h : Inv lz lay s limbo none none)
    (hs : s.write pid addr page = some t) : Inv lz lay t limbo none none := by
  simp only [State.write, Option.bind_eq_bind, Option.bind_eq_some_iff] at hs
  obtain ⟨tk, htk, lp, hlp, hs⟩ := hs
  split at hs
  · next hact =>
    cases hs
    have hlive : s.Live lp := ⟨pid, tk, htk, (getLpage_spec hlp).1⟩
    obtain ⟨hm, -⟩ := h.books.links.resident lp hlive nofun hact.1 hact.2
    refine ⟨⟨h.books.homes.move rfl (fun q => rfl) h.books.homes.numFree, ?_⟩, h.lists.congr rfl, h.heap,
      h.unswaps⟩
    refine h.books.links.congr rfl (fun _ => rfl) (fun _ => Iff.rfl) (fun _ _ => ⟨rfl, rfl⟩)
      fun c hc => Function.update_of_ne ?_ ..
    rintro rfl
    exact h.books.homes.active_not_store hm hc
  · cases hs

theorem Inv.exec {a : Step} (h : Inv lz lay s [] none none) (hapart : apart s a)
    (hs : exec lz lay s a = some t) : Inv lz lay t [] none none := by
  obtain ⟨op, rights⟩ := a
  have hr : Inv lz lay { s with rights := rights } [] none none :=
    ⟨h.books.congr rfl fun _ => rfl, h.lists.congr rfl, h.heap, h.unswaps⟩
  cases op with
  | fault pid faddr =>
    obtain ⟨⟨u, ok⟩, hu, rfl⟩ := Option.map_eq_some_iff.mp hs
    exact hr.handlePf hu
  | rmTask pid => exact hr.rmTask hs
  | sendPhys sender dest frame sizeLog2 faults received => exact hr.sendPhys hs
  | sendVirt srcPid srcAddr dest destAddr =>
    obtain ⟨⟨u, r⟩, hu, rfl⟩ := Option.map_eq_some_iff.mp hs
    exact hr.sendVirt hapart hu
  | brk pid newBrk => exact hr.brk hs
  | setKernelAreas pid utcbArea kipArea =>
    cases hs
    exact hr.setKernelAreas
  | alterFlags sender task range orMask andMask =>
    obtain ⟨⟨u, r⟩, hu, rfl⟩ := Option.map_eq_some_iff.mp hs
    exact hr.alterFlags hu
  | write pid addr page => exact hr.write hs

theorem Inv.init : Inv lz lay (State.init lay) [] none none := by
  have hlive : ∀ lp, ¬ (State.init lay).Live lp := by
    rintro lp ⟨pid, t, ht, -⟩
    cases ht
  refine ⟨⟨⟨fun p => ?_, by simp [State.init], by simp [State.init, Layout.initPages]⟩, ?_⟩,
    ⟨by rintro _ _ ⟨⟩, by rintro _ _ _ _ _ ⟨⟩⟩, ⟨?_, List.nodup_nil, by rintro _ ⟨⟩, by rintro _ ⟨⟩⟩, by rintro _ _ ⟨⟩⟩
  · have hnodup : lay.initPages.Nodup := List.nodup_range'
    have hcount := List.nodup_iff_count_le_one.mp hnodup p
    by_cases hp : p ∈ lay.initPages
    · have hpos := List.count_pos_iff.mpr hp
      simp only [State.places, State.heapPages, State.init, State.Tracked, hp, true_or, if_true,
        List.count_nil, List.append_nil]
      omega
    · have hzero := List.count_eq_zero.mpr hp
      simp only [State.places, State.heapPages, State.init, State.Tracked, hp, List.not_mem_nil,
        false_and, or_false, if_false, List.count_nil, List.append_nil]
      omega
  · exact ⟨by rintro _ ⟨⟩, fun _ _ => rfl, fun lp hl => absurd hl (hlive lp), fun lp hl => absurd hl (hlive lp),
      by rintro _ ⟨⟩, by rintro _ ⟨⟩, by rintro _ ⟨⟩, by rintro _ ⟨⟩, by rintro _ ⟨⟩,
      fun ch => ⟨by rintro ⟨⟩, by rintro ⟨⟨⟩, -⟩⟩, List.nodup_nil, by rintro _ ⟨⟩⟩
  · rintro ptr (hl | hm)
    · exact absurd hl (hlive ptr)
    · cases hm

theorem Inv.of_run {as : List Step} (h : Run (Sysmem.exec lz lay) apart (State.init lay) as s) : Inv lz lay s [] none none :=
  Run.invariant (I := fun s => Inv lz lay s [] none none)
    (fun _ _ _ hok he hi => hi.exec hok he) h Inv.init

end Sneks.Sysmem
