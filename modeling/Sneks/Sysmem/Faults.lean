import Sneks.Sysmem.Tasks

/-!
# Memory for logical pages

A logical page gets memory when it is first touched, loses it to the compressed
store and gets it back, and gives it up when it is removed. In between it is a
page that the links leave out.
-/

namespace Sneks.Sysmem
open Lib

variable {lz : Lz4} {lay : Layout} {s t u : State} {limbo : List ℕ} {olp och : Option ℕ}
  {p lp pid ch : ℕ} {slot : Slot}

-- Getting memory

theorem Links.exempt (hh : Homes lay s limbo) (h : Links lz s none och)
    (hpage : (s.lpage lp).page = 0) (hswap : (s.lpage lp).swap = false) : Links lz s (some lp) och := by
  refine ⟨fun q hq => ?_, h.idle, fun q hl _ => h.resident q hl nofun,
    fun q hl _ => h.swapped q hl nofun, fun c hc slot q hq => ?_, h.phys, h.fits, h.twice, h.used,
    h.buddy, h.nodup, h.stored⟩
  · obtain ⟨lq, ho, hl, hpq, hsw, -⟩ := h.owned q hq
    refine ⟨lq, ho, hl, hpq, hsw, ?_⟩
    rintro ⟨⟩
    refine hh.ne_zero (p := q) ?_ (hpq.symm.trans hpage)
    have := List.count_pos_iff.mpr hq
    simp only [State.places]
    omega
  · obtain ⟨hl, hpq, hsw, -, hdata⟩ := h.filled c hc slot q hq
    refine ⟨hl, hpq, hsw, ?_, hdata⟩
    rintro ⟨⟩
    rw [hswap] at hsw
    cases hsw

theorem Links.activate (hh : Homes lay s (p :: limbo)) (h : Links lz s (some lp) och)
    (hlive : s.Live lp) : Links lz (s.activate lp p) none och := by
  have hnot : p ∉ s.active := by
    intro hm
    have hone := hh.le_one p
    have := List.count_pos_iff.mpr hm
    simp only [State.places, List.count_cons_self] at hone
    omega
  have hlp : ∀ q, q ≠ lp → (s.activate lp p).lpage q = s.lpage q := fun q hq => Function.update_of_ne hq ..
  have hpages : ∀ q, q ≠ p → (s.activate lp p).pages q = s.pages q := fun q hq => Function.update_of_ne hq ..
  have hself : (s.activate lp p).lpage lp = { s.lpage lp with page := p, swap := false } :=
    Function.update_self ..
  have hown : ((s.activate lp p).pages p).owner = some lp := by simp [State.activate]
  have hactive : ∀ q, q ∈ (s.activate lp p).active ↔ q ∈ s.active ∨ q = p := by
    simp [State.activate]
  constructor
  case owned =>
    intro q hq
    by_cases hqp : q = p
    · subst hqp
      exact ⟨lp, hown, hlive, by rw [hself], by rw [hself], by rintro ⟨⟩⟩
    · obtain ⟨lq, ho, hl, hpq, hsw, hother⟩ := h.owned q (((hactive q).mp hq).resolve_right hqp)
      have hne : lq ≠ lp := fun he => hother (congrArg some he)
      exact ⟨lq, by rw [hpages q hqp, ho], hl, by rw [hlp lq hne, hpq], by rw [hlp lq hne, hsw], by rintro ⟨⟩⟩
  case idle =>
    intro q hq
    have hqp : q ≠ p := fun he => hq ((hactive q).mpr (.inr he))
    rw [hpages q hqp]
    exact h.idle q fun hm => hq ((hactive q).mpr (.inl hm))
  case resident =>
    intro q hl _ hsw hzero
    by_cases hq : q = lp
    · subst hq
      rw [hself]
      exact ⟨(hactive p).mpr (.inr rfl), hown⟩
    · rw [hlp q hq] at hsw hzero ⊢
      obtain ⟨hm, ho⟩ := h.resident q hl (by simpa using hq) hsw hzero
      have hqp : (s.lpage q).page ≠ p := by
        intro he
        exact hnot (he ▸ hm)
      rw [hpages _ hqp]
      exact ⟨(hactive _).mpr (.inl hm), ho⟩
  case swapped =>
    intro q hl _ hsw
    have hq : q ≠ lp := by
      rintro rfl
      rw [hself] at hsw
      cases hsw
    rw [hlp q hq] at hsw ⊢
    exact h.swapped q hl (by simpa using hq) hsw
  case filled =>
    intro c hc slot q hq
    obtain ⟨hl, hpq, hsw, hother, hdata⟩ := h.filled c hc slot q hq
    have hne : q ≠ lp := fun he => hother (congrArg some he)
    exact ⟨hl, by rw [hlp q hne, hpq], by rw [hlp q hne, hsw], by rintro ⟨⟩, hdata⟩
  case phys => exact h.phys
  case fits => exact h.fits
  case twice => exact h.twice
  case used => exact h.used
  case buddy => exact h.buddy
  case nodup => exact h.nodup
  case stored => exact h.stored

theorem Inv.activate (h : Inv lz lay s (p :: limbo) (some lp) och) (hlive : s.Live lp) :
    Inv lz lay (s.activate lp p) limbo none och := by
  refine ⟨⟨h.books.homes.move rfl (fun q => ?_) h.books.homes.numFree,
    h.books.links.activate h.books.homes hlive⟩, h.lists.congr rfl, h.heap, h.unswaps⟩
  simp only [State.places, State.heapPages, State.activate, List.count_append, List.count_cons,
    List.count_nil]
  omega

theorem Inv.exempt (h : Inv lz lay s limbo none och) (hpage : (s.lpage lp).page = 0)
    (hswap : (s.lpage lp).swap = false) : Inv lz lay s limbo (some lp) och :=
  ⟨⟨h.books.homes, h.books.links.exempt h.books.homes hpage hswap⟩, h.lists, h.heap, h.unswaps⟩

theorem Inv.populate (h : Inv lz lay s limbo none none) (hlive : s.Live lp)
    (hpage : (s.lpage lp).page = 0) (hswap : (s.lpage lp).swap = false)
    (hs : s.populate lz lp = some t) : Inv lz lay t limbo none none ∧ t.tasks = s.tasks := by
  simp only [State.populate] at hs
  split at hs
  · cases hs
  next u p hu =>
  cases hs
  obtain ⟨hinv, hr, -⟩ := h.getFreePage hu
  obtain ⟨hl, -⟩ := hr.still lp (.inr hpage)
  refine ⟨Inv.activate (hinv.exempt (by rw [hl, hpage]) (by rw [hl, hswap])) ?_, hr.tasks⟩
  rw [live_congr hr.tasks]
  exact hlive

-- Giving up a slot

def CHdr.clear (h : CHdr) (slot : Slot) : CHdr := { h with lp := Function.update h.lp slot none }

theorem CHdr.clear_self {h : CHdr} : (h.clear slot).lp slot = none := Function.update_self ..

theorem CHdr.clear_other {h : CHdr} : (h.clear slot).lp slot.other = h.lp slot.other :=
  Function.update_of_ne slot.other_ne ..

theorem CHdr.lp_of_clear {h : CHdr} {slot' : Slot} {q : ℕ} (hq : (h.clear slot).lp slot' = some q) :
    slot' = slot.other ∧ h.lp slot' = some q := by
  rcases slot.eq_or_other slot' with rfl | rfl
  · rw [CHdr.clear_self] at hq
    cases hq
  · rw [CHdr.clear_other] at hq
    exact ⟨rfl, hq⟩

/-- The slot that holds the compressed contents of `lp`. -/
structure Held (s : State) (lp ch : ℕ) (slot : Slot) : Prop where
  live : s.Live lp
  page : (s.lpage lp).page = ch
  swap : (s.lpage lp).swap = true
  held : (s.hdr ch).lp slot = some lp

theorem Held.ne_of_swap {q : ℕ} (hd : Held s lp ch slot) (hq : (s.lpage q).swap = false) : q ≠ lp := by
  rintro rfl
  rw [hd.swap] at hq
  cases hq

theorem Links.clear_half (h : Links lz s none none) (hd : Held s lp ch slot) (hch : ch ∈ s.store)
    (hother : (s.hdr ch).lp slot.other ≠ none) :
    Links lz { s with hdr := Function.update s.hdr ch ((s.hdr ch).clear slot) } (some lp) (some ch) := by
  have hhdr : ∀ c, c ≠ ch → Function.update s.hdr ch ((s.hdr ch).clear slot) c = s.hdr c :=
    fun c hc => Function.update_of_ne hc ..
  have hself : Function.update s.hdr ch ((s.hdr ch).clear slot) ch = (s.hdr ch).clear slot :=
    Function.update_self ..
  constructor
  case owned =>
    intro q hq
    obtain ⟨lq, ho, hl, hpq, hsw, -⟩ := h.owned q hq
    exact ⟨lq, ho, hl, hpq, hsw, by simpa using hd.ne_of_swap hsw⟩
  case idle => exact h.idle
  case resident => exact fun q hl _ => h.resident q hl nofun
  case swapped =>
    intro q hl hne hsw
    obtain ⟨hm, slot', hslot⟩ := h.swapped q hl nofun hsw
    refine ⟨hm, ?_⟩
    by_cases hc : (s.lpage q).page = ch
    · rw [hc] at hslot
      simp only [hc, hself]
      rcases slot.eq_or_other slot' with rfl | rfl
      · rw [hd.held] at hslot
        exact absurd hslot.symm hne
      · exact ⟨slot.other, CHdr.clear_other.trans hslot⟩
    · simp only [hhdr _ hc]
      exact ⟨slot', hslot⟩
  case filled =>
    intro c hc slot' q hq
    by_cases hcc : c = ch
    · subst hcc
      simp only [hself] at hq
      obtain ⟨rfl, hq⟩ := CHdr.lp_of_clear hq
      obtain ⟨hl, hpq, hsw, -, hdata⟩ := h.filled c hc slot.other q hq
      refine ⟨hl, hpq, hsw, ?_, ?_⟩
      · rintro ⟨⟩
        exact h.twice c hc slot lp hd.held hq
      · simp only [hself]
        exact hdata
    · simp only [hhdr c hcc] at hq
      obtain ⟨hl, hpq, hsw, -, hdata⟩ := h.filled c hc slot' q hq
      refine ⟨hl, hpq, hsw, ?_, ?_⟩
      · rintro ⟨⟩
        exact hcc (hpq.symm.trans hd.page)
      · simp only [hhdr c hcc]
        exact hdata
  case phys =>
    intro c hc
    by_cases hcc : c = ch
    · subst hcc
      simp only [hself]
      exact h.phys c hc
    · simpa only [hhdr c hcc] using h.phys c hc
  case fits =>
    intro c hc
    by_cases hcc : c = ch
    · subst hcc
      simp only [hself]
      exact h.fits c hc
    · simpa only [hhdr c hcc] using h.fits c hc
  case twice =>
    intro c hc slot' q hq
    by_cases hcc : c = ch
    · subst hcc
      simp only [hself] at hq ⊢
      obtain ⟨rfl, -⟩ := CHdr.lp_of_clear hq
      rw [slot.other_other, CHdr.clear_self]
      nofun
    · simp only [hhdr c hcc] at hq ⊢
      exact h.twice c hc slot' q hq
  case used =>
    intro c hc
    by_cases hcc : c = ch
    · subst hcc
      simp only [hself]
      exact ⟨slot.other, by rwa [CHdr.clear_other]⟩
    · simpa only [hhdr c hcc] using h.used c hc
  case buddy =>
    intro c
    by_cases hcc : c = ch
    · subst hcc
      refine iff_of_false (fun hm => ?_) (fun hm => hm.2.2 rfl)
      obtain ⟨-, ⟨slot', hused, hempty⟩, -⟩ := (h.buddy c).mp hm
      rcases slot.eq_or_other slot' with rfl | rfl
      · exact hother hempty
      · rw [slot.other_other, hd.held] at hempty
        cases hempty
    · simp only [hhdr c hcc]
      rw [h.buddy c]
      simp [hcc]
  case nodup => exact h.nodup
  case stored =>
    rintro c ⟨⟩
    exact hch

theorem Links.clear_last (hh : Homes lay s limbo) (h : Links lz s none none) (hd : Held s lp ch slot)
    (hother : (s.hdr ch).lp slot.other = none) :
    Links lz { s with
      hdr := Function.update s.hdr ch ((s.hdr ch).clear slot)
      buddies := s.buddies.erase ch, store := s.store.erase ch } (some lp) none := by
  have hstore : ∀ c, c ∈ s.store.erase ch ↔ c ≠ ch ∧ c ∈ s.store :=
    fun c => hh.store_nodup.mem_erase_iff
  have hhdr : ∀ c, c ≠ ch → Function.update s.hdr ch ((s.hdr ch).clear slot) c = s.hdr c :=
    fun c hc => Function.update_of_ne hc ..
  constructor
  case owned =>
    intro q hq
    obtain ⟨lq, ho, hl, hpq, hsw, -⟩ := h.owned q hq
    exact ⟨lq, ho, hl, hpq, hsw, by simpa using hd.ne_of_swap hsw⟩
  case idle => exact h.idle
  case resident => exact fun q hl _ => h.resident q hl nofun
  case swapped =>
    intro q hl hne hsw
    obtain ⟨hm, slot', hslot⟩ := h.swapped q hl nofun hsw
    have hc : (s.lpage q).page ≠ ch := by
      intro hc
      rw [hc] at hslot
      rcases slot.eq_or_other slot' with rfl | rfl
      · rw [hd.held] at hslot
        exact hne hslot.symm
      · cases hother.symm.trans hslot
    simp only [hhdr _ hc]
    exact ⟨(hstore _).mpr ⟨hc, hm⟩, slot', hslot⟩
  case filled =>
    intro c hc slot' q hq
    obtain ⟨hcc, hc⟩ := (hstore c).mp hc
    simp only [hhdr c hcc] at hq
    obtain ⟨hl, hpq, hsw, -, hdata⟩ := h.filled c hc slot' q hq
    refine ⟨hl, hpq, hsw, ?_, ?_⟩
    · rintro ⟨⟩
      exact hcc (hpq.symm.trans hd.page)
    · simp only [hhdr c hcc]
      exact hdata
  case phys =>
    intro c hc
    obtain ⟨hcc, hc⟩ := (hstore c).mp hc
    simpa only [hhdr c hcc] using h.phys c hc
  case fits =>
    intro c hc
    obtain ⟨hcc, hc⟩ := (hstore c).mp hc
    simpa only [hhdr c hcc] using h.fits c hc
  case twice =>
    intro c hc
    obtain ⟨hcc, hc⟩ := (hstore c).mp hc
    simpa only [hhdr c hcc] using h.twice c hc
  case used =>
    intro c hc
    obtain ⟨hcc, hc⟩ := (hstore c).mp hc
    simpa only [hhdr c hcc] using h.used c hc
  case buddy =>
    intro c
    rw [h.nodup.mem_erase_iff, hstore]
    by_cases hcc : c = ch
    · simp [hcc]
    · simp only [hhdr c hcc]
      rw [h.buddy c]
      simp [hcc]
  case nodup => exact h.nodup.erase ch
  case stored => exact nofun

theorem Links.rejoin (h : Links lz s olp (some ch)) (hhalf : (s.hdr ch).Half) :
    Links lz { s with buddies := ch :: s.buddies } olp none := by
  have hch := h.stored ch rfl
  refine ⟨h.owned, h.idle, h.resident, h.swapped, fun c hc slot q hq => ?_, h.phys, h.fits, h.twice,
    h.used, fun c => ?_, ?_, nofun⟩
  · obtain ⟨hl, hpq, hsw, hother, hdata⟩ := h.filled c hc slot q hq
    exact ⟨hl, hpq, hsw, hother, hdata⟩
  · rw [List.mem_cons, h.buddy c]
    by_cases hc : c = ch
    · subst hc
      simp [hch, hhalf]
    · simp [hc]
  · exact List.nodup_cons.mpr ⟨fun hm => ((h.buddy ch).mp hm).2.2 rfl, h.nodup⟩

theorem Inv.held (h : Inv lz lay s limbo none none) (hlive : s.Live lp)
    (hswap : (s.lpage lp).swap = true) :
    (s.lpage lp).page ∈ s.store ∧ Held s lp (s.lpage lp).page
      (if (s.hdr (s.lpage lp).page).lp .a = some lp then .a else .b) := by
  obtain ⟨hstore, slot, hslot⟩ := h.books.links.swapped lp hlive nofun hswap
  refine ⟨hstore, hlive, rfl, hswap, ?_⟩
  split
  · next ha => exact ha
  · next ha =>
    cases slot with
    | a => exact absurd hslot ha
    | b => exact hslot

-- Coming back

/-- What is known when `decompress` returns: the page it returns holds what was saved, if
    decompression undoes compression. -/
structure Decompressed (lz : Lz4) (lay : Layout) (s t : State) (limbo : List ℕ) (lp phys : ℕ) : Prop where
  inv : Inv lz lay t (phys :: limbo) (some lp) none
  tasks : t.tasks = s.tasks
  data : lz.Undoes → t.mem phys = s.saved lp

theorem Inv.clearHalf (h : Inv lz lay s limbo none none) (hd : Held s lp ch slot) (hch : ch ∈ s.store)
    (hother : (s.hdr ch).lp slot.other ≠ none) :
    Inv lz lay { s with hdr := Function.update s.hdr ch ((s.hdr ch).clear slot) } limbo (some lp) (some ch) :=
  ⟨⟨h.books.homes.move rfl (fun _ => rfl) h.books.homes.numFree, h.books.links.clear_half hd hch hother⟩,
    h.lists.congr rfl, h.heap, h.unswaps⟩

theorem Inv.decompress {phys : ℕ} (h : Inv lz lay s limbo none none) (hlive : s.Live lp)
    (hswap : (s.lpage lp).swap = true) (hs : s.decompress lz lp = some (t, phys)) :
    Decompressed lz lay s t limbo lp phys := by
  obtain ⟨hstore, hd⟩ := h.held hlive hswap
  obtain ⟨⟨hh, hl⟩, hlists, hheap, hun⟩ := h
  simp only [State.decompress] at hs
  generalize (if (s.hdr (s.lpage lp).page).lp .a = some lp then Slot.a else Slot.b) = slot at hs hd
  generalize hch : (s.lpage lp).page = ch at hs hd hstore
  have hdata := (hl.filled ch hstore slot lp hd.held).data
  split at hs
  · cases hs
  split at hs
  · -- the page itself is expanded in place
    next hother =>
    have hphys := hl.phys ch hstore
    rw [hdata] at hs
    split at hs
    · cases hs
    next page hpage =>
    cases hs
    have hclear := hl.clear_last hh hd hother
    have hcount := count_erase_of_mem hstore
    refine ⟨⟨⟨hh.move rfl (fun q => ?_) hh.numFree, ?_⟩, hlists.congr rfl, hheap, hun⟩, rfl, ?_⟩
    · have := hcount q
      simp only [State.places, State.heapPages, hphys, List.count_cons, List.count_nil] at this ⊢
      omega
    · refine hclear.congr rfl (fun _ => rfl) (fun _ => Iff.rfl) (fun _ _ => ⟨rfl, rfl⟩) fun c hc => ?_
      refine Function.update_of_ne ?_ ..
      rw [hphys]
      exact (hh.store_nodup.mem_erase_iff.mp hc).1
    · intro hlz
      rw [hlz] at hpage
      simp only [Function.update_self]
      exact (Option.some.inj hpage).symm
  · next hother =>
    split at hs
    · cases hs
    next u q hu =>
    have hinv := Inv.clearHalf ⟨⟨hh, hl⟩, hlists, hheap, hun⟩ hd hstore hother
    have hclear := hinv.books.links
    obtain ⟨hinv', hr, -⟩ := hinv.getFreePage hu
    have hnot : ch ∉ s.active ∧ ch ∉ s.buddies :=
      ⟨fun hm => hh.active_not_store hm hstore, fun hm => ((hclear.buddy ch).mp hm).2.2 rfl⟩
    obtain ⟨-, hhdr, hmem⟩ := hr.inert ch hnot.1 hnot.2
    simp only [Function.update_self] at hhdr
    simp only [hmem, hdata] at hs
    split at hs
    · cases hs
    next page hpage =>
    cases hs
    have hhalf : (u.hdr ch).Half := by
      refine ⟨slot.other, ?_, ?_⟩
      · rwa [hhdr, CHdr.clear_other]
      · rw [hhdr, slot.other_other, CHdr.clear_self]
    have hq : phys ∉ u.store := by
      intro hm
      have hone := hinv'.books.homes.le_one phys
      have := List.count_pos_iff.mpr hm
      simp only [State.places, List.count_cons_self] at hone
      omega
    refine ⟨⟨⟨hinv'.books.homes.move rfl (fun q => rfl) hinv'.books.homes.numFree, ?_⟩,
      hinv'.lists.congr rfl, hinv'.heap, hinv'.unswaps⟩, hr.tasks, fun hlz => ?_⟩
    · refine (hinv'.books.links.rejoin hhalf).congr rfl (fun _ => rfl) (fun _ => Iff.rfl)
        (fun _ _ => ⟨rfl, rfl⟩) fun c hc => Function.update_of_ne ?_ ..
      rintro rfl
      exact hq hc
    · rw [hlz] at hpage
      simp only [Function.update_self]
      exact (Option.some.inj hpage).symm

theorem Inv.unswap (h : Inv lz lay s limbo none none) (hlive : s.Live lp)
    (hswap : (s.lpage lp).swap = true) (hs : s.unswap lz lp = some t) :
    Inv lz lay t limbo none none ∧ t.tasks = s.tasks := by
  simp only [State.unswap] at hs
  split at hs
  · cases hs
  next u phys hu =>
  cases hs
  obtain ⟨hinv, htasks, hdata⟩ := h.decompress hlive hswap hu
  have hlog : Inv lz lay { u with unswaps := u.unswaps ++ [(s.saved lp, u.mem phys)] }
      (phys :: limbo) (some lp) none := by
    obtain ⟨⟨hh, hl⟩, hlists, hheap, hun⟩ := hinv
    refine ⟨⟨hh.move rfl (fun q => rfl) hh.numFree,
      hl.congr rfl (fun _ => rfl) (fun _ => Iff.rfl) (fun _ _ => ⟨rfl, rfl⟩) fun _ _ => rfl⟩,
      hlists.congr rfl, hheap, fun hlz e he => ?_⟩
    rcases List.mem_append.mp he with he | he
    · exact hun hlz e he
    · rw [List.mem_singleton.mp he, hdata hlz]
  refine ⟨hlog.activate ?_, htasks⟩
  rw [← live_congr htasks] at hlive
  exact hlive

end Sneks.Sysmem
