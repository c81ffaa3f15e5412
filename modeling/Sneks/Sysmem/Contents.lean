import Sneks.Sysmem.Calls

/-!
# What logical pages hold

The contents of a logical page as its task finds them, and what each operation does
to them.
-/

namespace Sneks.Sysmem
open Lib

def State.content (s : State) (lp : ℕ) : Option Page :=
  if (s.lpage lp).swap then some (s.saved lp)
  else if (s.lpage lp).page = 0 then none
  else some (s.mem (s.lpage lp).page)

structure Same (s t : State) (lp : ℕ) : Prop where
  lAddr : (t.lpage lp).lAddr = (s.lpage lp).lAddr
  flags : (t.lpage lp).flags = (s.lpage lp).flags
  content : t.content lp = s.content lp

variable {lz : Lz4} {lay : Layout} {s t u : State} {limbo : List ℕ} {olp och : Option ℕ} {p q lp pid : ℕ}

theorem Same.refl (s : State) (lp : ℕ) : Same s s lp := ⟨rfl, rfl, rfl⟩

theorem Same.trans (h : Same s t lp) (h' : Same t u lp) : Same s u lp :=
  ⟨h'.lAddr.trans h.lAddr, h'.flags.trans h.flags, h'.content.trans h.content⟩

theorem content_none : s.content lp = none ↔ (s.lpage lp).page = 0 ∧ (s.lpage lp).swap = false := by
  simp only [State.content]
  split
  · next hswap => simp [hswap]
  next hswap =>
  split
  · next hpage => simp [hpage, hswap]
  · next hpage => simp [hpage]

theorem Same.congr (hl : t.lpage lp = s.lpage lp) (hsaved : t.saved lp = s.saved lp)
    (hmem : (s.lpage lp).swap = false → (s.lpage lp).page ≠ 0 →
      t.mem (s.lpage lp).page = s.mem (s.lpage lp).page) : Same s t lp := by
  refine ⟨by rw [hl], by rw [hl], ?_⟩
  simp only [State.content, hl, hsaved]
  split
  · rfl
  next hswap =>
  split
  · rfl
  · next hpage => rw [hmem (by simpa using hswap) hpage]

-- Replacement and allocation

theorem Links.sits (h : Links lz s olp och) (hlive : s.Live q) (hq : some q ≠ olp)
    (hswap : (s.lpage q).swap = false) (hpage : (s.lpage q).page ≠ 0) : s.Sits q := by
  obtain ⟨hactive, howner⟩ := h.resident q hlive hq hswap hpage
  exact ⟨hswap, hactive, howner⟩

theorem Kept.same (h : Kept s t) (hl : Links lz s olp och) (hlive : s.Live q)
    (hq : some q = olp → (s.lpage q).swap = true) : Same s t q := by
  refine ⟨(h.attr q).1, (h.attr q).2, ?_⟩
  by_cases hstill : (s.lpage q).swap = true ∨ (s.lpage q).page = 0
  · obtain ⟨hlp, hsaved⟩ := h.still q hstill
    simp only [State.content, hlp, hsaved]
    rcases hstill with hswap | hpage
    · rw [if_pos hswap, if_pos hswap]
    · rw [if_pos hpage, if_pos hpage]
  · simp only [not_or, Bool.not_eq_true] at hstill
    obtain ⟨hswap, hpage⟩ := hstill
    have hother : some q ≠ olp := fun he => by simp [hq he] at hswap
    have hbefore : s.content q = some (s.mem (s.lpage q).page) := by
      simp [State.content, hswap, hpage]
    rw [hbefore]
    rcases h.sits q (hl.sits hlive hother hswap hpage) with ⟨-, hlp, hmem⟩ | ⟨hswap', hsaved⟩
    · simp [State.content, hlp, hswap, hpage, hmem]
    · simp [State.content, hswap', hsaved]

theorem Inv.kept_same (h : Inv lz lay s limbo none och) (hk : Kept s t) (hlive : s.Live q) :
    Same s t q :=
  hk.same h.books.links hlive nofun

theorem Inv.getTask_same (h : Inv lz lay s limbo none none) (hs : s.getTask lz pid = some t)
    (hlive : s.Live q) : Same s t q := by
  simp only [State.getTask] at hs
  split at hs
  · cases hs
  split at hs
  · cases hs
    exact .refl s q
  split at hs
  · cases hs
  next u ptr hu =>
  cases hs
  obtain ⟨-, hk, -⟩ := h.alloc hu
  exact (h.kept_same hk hlive).trans (.congr rfl rfl fun _ _ => rfl)

theorem Inv.newLpage_same {addr flags : ℕ} (h : Inv lz lay s limbo none none)
    (hs : s.newLpage lz pid addr flags = some (t, lp)) :
    t.lpage lp = ⟨addr, 0, false, flags⟩ ∧ (∀ q, t.Live q ↔ q = lp ∨ s.Live q) ∧ ¬ s.Live lp ∧
      ∀ q, s.Live q → Same s t q := by
  simp only [State.newLpage] at hs
  split at hs
  · cases hs
  next u ptr hu =>
  obtain ⟨v, hv, he⟩ := Option.map_eq_some_iff.mp hs
  cases he
  obtain ⟨-, hk, hfresh⟩ := h.alloc hu
  have hdead : ¬ s.Live lp := by
    rw [← live_congr hk.tasks]
    exact (hfresh rfl).1
  have hlive : ∀ q, t.Live q ↔ q = lp ∨ s.Live q := by
    intro q
    rw [live_putLpage hv q, ← live_congr hk.tasks]
    rfl
  obtain ⟨tk, below, above, -, -, rfl⟩ := putLpage_spec hv
  refine ⟨Function.update_self .., hlive, hdead, fun q hq => (h.kept_same hk hq).trans ?_⟩
  have hne : q ≠ lp := fun he => hdead (he ▸ hq)
  exact .congr (Function.update_of_ne hne ..) rfl fun _ _ => rfl

theorem Inv.limbo_ne_zero (h : Inv lz lay s (p :: limbo) olp och) : p ≠ 0 := by
  refine h.books.homes.ne_zero ?_
  simp only [List.count_cons_self]
  omega

theorem activate_same (hne : q ≠ lp) : Same s (s.activate lp p) q :=
  .congr (Function.update_of_ne hne ..) rfl fun _ _ => rfl

theorem activate_content (hp : p ≠ 0) : (s.activate lp p).content lp = some (s.mem p) := by
  simp [State.content, State.activate, hp]

theorem activate_lAddr (q : ℕ) : ((s.activate lp p).lpage q).lAddr = (s.lpage q).lAddr := by
  by_cases hq : q = lp
  · subst hq
    simp [State.activate]
  · simp [State.activate, Function.update_of_ne hq]

theorem Inv.populate_same (h : Inv lz lay s limbo none none)
    (hs : s.populate lz lp = some t) :
    t.tasks = s.tasks ∧ t.content lp ≠ none ∧ (∀ q, (t.lpage q).lAddr = (s.lpage q).lAddr) ∧
      ∀ q, s.Live q → q ≠ lp → Same s t q := by
  simp only [State.populate] at hs
  split at hs
  · cases hs
  next u p hu =>
  cases hs
  obtain ⟨hinv, hr, -⟩ := h.getFreePage hu
  refine ⟨hr.tasks, ?_, fun q => (activate_lAddr q).trans (hr.attr q).1,
    fun q hq hne => (h.kept_same hr.toKept hq).trans (activate_same hne)⟩
  rw [activate_content hinv.limbo_ne_zero]
  rintro ⟨⟩

-- Coming back

theorem Links.write_same {page : Page} (h : Links lz s olp och) (hp : p ∉ s.active) (hlive : s.Live q)
    (hq : some q ≠ olp) (ht : t.lpage q = s.lpage q ∧ t.saved q = s.saved q)
    (hmem : t.mem = Function.update s.mem p page) : Same s t q := by
  refine .congr ht.1 ht.2 fun hswap hpage => ?_
  rw [hmem]
  refine Function.update_of_ne ?_ ..
  rintro rfl
  exact hp (h.sits hlive hq hswap hpage).active

theorem Inv.decompress_same {phys : ℕ} (h : Inv lz lay s limbo none none) (hlive : s.Live lp)
    (hswap : (s.lpage lp).swap = true) (hs : s.decompress lz lp = some (t, phys)) :
    (∀ q, (t.lpage q).lAddr = (s.lpage q).lAddr) ∧ ∀ q, s.Live q → q ≠ lp → Same s t q := by
  obtain ⟨hstore, hd⟩ := h.held hlive hswap
  simp only [State.decompress] at hs
  generalize (if (s.hdr (s.lpage lp).page).lp .a = some lp then Slot.a else Slot.b) = slot at hs hd
  generalize (s.lpage lp).page = ch at hs hd hstore
  split at hs
  · cases hs
  split at hs
  · split at hs
    · cases hs
    · cases hs
      have hphys := h.books.links.phys ch hstore
      have hidle : (s.hdr ch).phys ∉ s.active := by
        rw [hphys]
        exact fun hm => h.books.homes.active_not_store hm hstore
      exact ⟨fun _ => rfl, fun q hq _ => h.books.links.write_same hidle hq (by rintro ⟨⟩) ⟨rfl, rfl⟩ rfl⟩
  · next hfull =>
    split at hs
    · cases hs
    next u p hu =>
    have hinv : Inv lz lay { s with hdr := Function.update s.hdr ch ((s.hdr ch).clear slot) }
        limbo (some lp) (some ch) :=
      ⟨⟨h.books.homes.move rfl (fun q => rfl) h.books.homes.numFree,
        h.books.links.clear_half hd hstore hfull⟩, h.lists.congr rfl, h.heap, h.unswaps⟩
    obtain ⟨hinv', hr, -⟩ := hinv.getFreePage hu
    split at hs
    · cases hs
    · cases hs
      refine ⟨fun q => (hr.attr q).1, fun q hq hne => ?_⟩
      have hother : some q ≠ some lp := by simpa using hne
      have hclear : Same s { s with hdr := Function.update s.hdr ch ((s.hdr ch).clear slot) } q :=
        .congr rfl rfl fun _ _ => rfl
      have hsame : Same s u q :=
        hclear.trans (hr.toKept.same hinv.books.links hq fun he => absurd he hother)
      refine hsame.trans (hinv'.books.links.write_same (p := phys) ?_ ?_ hother ⟨rfl, rfl⟩ rfl)
      · intro hm
        have hone := hinv'.books.homes.le_one phys
        have := List.count_pos_iff.mpr hm
        simp only [State.places, List.count_cons_self] at hone
        omega
      · rw [live_congr hr.tasks]
        exact hq

theorem Inv.unswap_same (h : Inv lz lay s limbo none none) (hlive : s.Live lp)
    (hswap : (s.lpage lp).swap = true) (hs : s.unswap lz lp = some t) :
    t.tasks = s.tasks ∧ t.content lp ≠ none ∧ (∀ q, (t.lpage q).lAddr = (s.lpage q).lAddr) ∧
      ∀ q, s.Live q → q ≠ lp → Same s t q := by
  simp only [State.unswap] at hs
  split at hs
  · cases hs
  next u phys hu =>
  cases hs
  obtain ⟨hinv, htasks, -⟩ := h.decompress hlive hswap hu
  obtain ⟨hattr, hsame⟩ := h.decompress_same hlive hswap hu
  have hcontent := @activate_content { u with unswaps := u.unswaps ++ [(s.saved lp, u.mem phys)] } _ lp hinv.limbo_ne_zero
  refine ⟨htasks, by rw [hcontent]; rintro ⟨⟩, fun q => (activate_lAddr q).trans (hattr q), fun q hq hne => ?_⟩
  refine (hsame q hq hne).trans (Same.trans ?_ (activate_same hne))
  exact .congr rfl rfl fun _ _ => rfl

-- Removal

theorem dropMemory_frame (hs : s.dropMemory lp = some t) : t.tasks = s.tasks ∧ ∀ q, Same s t q := by
  simp only [State.dropMemory, State.dropSlot, State.dropPage] at hs
  split at hs
  · generalize (if (s.hdr (s.lpage lp).page).lp .a = some lp then Slot.a else Slot.b) = slot at hs
    split at hs
    · cases hs
    split at hs
    · split at hs
      · cases hs
      · cases hs
        exact ⟨rfl, fun _ => .congr rfl rfl fun _ _ => rfl⟩
    · cases hs
      exact ⟨rfl, fun _ => .congr rfl rfl fun _ _ => rfl⟩
  · split at hs
    · split at hs
      · cases hs
        exact ⟨rfl, fun _ => .congr rfl rfl fun _ _ => rfl⟩
      · cases hs
    · cases hs
      exact ⟨rfl, .refl s⟩

theorem live_eraseLpage (hs : s.eraseLpage pid lp = some t) (hlive : t.Live q) : s.Live q := by
  obtain ⟨tk, htk, rfl⟩ := Option.map_eq_some_iff.mp hs
  rcases live_setTask.mp hlive with hm | ⟨pid', t, -, ht, hm⟩
  · exact ⟨pid, tk, htk, List.mem_of_mem_erase hm⟩
  · exact ⟨pid', t, ht, hm⟩

theorem removeLpage_frame (hs : s.removeLpage pid lp = some t) :
    (∀ q, t.Live q → s.Live q) ∧ ∀ q, Same s t q := by
  simp only [State.removeLpage, Option.bind_eq_bind, Option.bind_eq_some_iff, Option.some.injEq] at hs
  obtain ⟨u, hu, v, hv, rfl⟩ := hs
  obtain ⟨htasks, hsame⟩ := dropMemory_frame hu
  refine ⟨fun q hq => ?_, fun q => (hsame q).trans ?_⟩
  · rw [← live_congr htasks]
    exact live_eraseLpage hv hq
  · obtain ⟨tk, -, rfl⟩ := Option.map_eq_some_iff.mp hv
    exact .congr rfl rfl fun _ _ => rfl

theorem removeLpages_frame {lps : List ℕ} (hs : s.removeLpages pid lps = some t) :
    (∀ q, t.Live q → s.Live q) ∧ ∀ q, Same s t q := by
  simp only [State.removeLpages] at hs
  induction lps generalizing s with
  | nil =>
    cases hs
    exact ⟨fun _ => id, .refl _⟩
  | cons lp lps ih =>
    simp only [List.foldlM_cons, Option.bind_eq_bind, Option.bind_eq_some_iff] at hs
    obtain ⟨u, hu, hs⟩ := hs
    obtain ⟨hlive, hsame⟩ := removeLpage_frame hu
    obtain ⟨hlive', hsame'⟩ := ih hs
    exact ⟨fun q hq => hlive q (hlive' q hq), fun q => (hsame q).trans (hsame' q)⟩

theorem Inv.removeLpage_some {tk : Task} (h : Inv lz lay s limbo none none) (htk : s.tasks pid = some tk)
    (hlp : lp ∈ tk.mem) : ∃ t, s.removeLpage pid lp = some t := by
  have hlive : s.Live lp := ⟨pid, tk, htk, hlp⟩
  obtain ⟨u, hu⟩ : ∃ u, s.dropMemory lp = some u := by
    simp only [State.dropMemory]
    split
    · next hswap =>
      obtain ⟨hstore, hd⟩ := h.held hlive hswap
      have hphys := h.books.links.phys _ hstore
      have hidle := h.books.links.idle _ fun hm => h.books.homes.active_not_store hm hstore
      simp only [State.dropSlot]
      generalize (if (s.hdr (s.lpage lp).page).lp .a = some lp then Slot.a else Slot.b) = slot at hd ⊢
      simp only [hd.held, ne_eq, not_true_eq_false, if_false, hphys, hidle]
      split
      · exact ⟨_, rfl⟩
      · exact ⟨_, rfl⟩
    · next hswap =>
      simp only [State.dropPage]
      split
      · next hm =>
        have hzero : (s.lpage lp).page ≠ 0 := by
          refine h.books.homes.ne_zero ?_
          have := List.count_pos_iff.mpr hm
          simp only [State.places]
          omega
        rw [if_pos (h.books.links.resident lp hlive (by rintro ⟨⟩) (by simpa using hswap) hzero).2]
        exact ⟨_, rfl⟩
      · exact ⟨_, rfl⟩
  have htasks := (dropMemory_frame hu).1
  simp [State.removeLpage, State.eraseLpage, hu, htasks, htk]

theorem Inv.removeLpages_some {lps : List ℕ} {tk : Task} (h : Inv lz lay s limbo none none)
    (htk : s.tasks pid = some tk) (hsub : ∀ lp ∈ lps, lp ∈ tk.mem) (hnodup : lps.Nodup) :
    ∃ t, s.removeLpages pid lps = some t ∧ ∀ q, q ≠ pid → t.tasks q = s.tasks q := by
  induction lps generalizing s tk with
  | nil => exact ⟨s, rfl, fun _ _ => rfl⟩
  | cons lp lps ih =>
    obtain ⟨hnot, hnodup⟩ := List.nodup_cons.mp hnodup
    obtain ⟨u, hu⟩ := h.removeLpage_some htk (hsub lp List.mem_cons_self)
    obtain ⟨hinv, -, htasks⟩ := h.removeLpage htk (hsub lp List.mem_cons_self) hu
    have hsub' : ∀ q ∈ lps, q ∈ tk.mem.erase lp := by
      intro q hq
      refine (List.mem_erase_of_ne ?_).mpr (hsub q (List.mem_cons_of_mem _ hq))
      rintro rfl
      exact hnot hq
    obtain ⟨t, ht, hother⟩ := ih hinv (by rw [htasks, Function.update_self]) hsub' hnodup
    refine ⟨t, ?_, fun q hq => ?_⟩
    · simpa [State.removeLpages, hu] using ht
    · rw [hother q hq, htasks, Function.update_of_ne hq]

-- Moves

structure Moved (s t : State) (lp destAddr : ℕ) : Prop where
  lpage : t.lpage lp = { s.lpage lp with lAddr := destAddr }
  content : t.content lp = s.content lp
  other : ∀ q, q ≠ lp → Same s t q
  live : ∀ q, t.Live q → q = lp ∨ s.Live q

theorem moveLpage_moved {srcPid destPid destAddr : ℕ}
    (hs : s.moveLpage srcPid destPid lp destAddr = some t) : Moved s t lp destAddr := by
  simp only [State.moveLpage, Option.bind_eq_bind, Option.bind_eq_some_iff, Option.some.injEq] at hs
  obtain ⟨u, hu, w, hw, dk, hdk, rfl⟩ := hs
  have hlive : ∀ q, w.Live q → q = lp ∨ s.Live q := by
    intro q hq
    rcases (live_putLpage hw q).mp hq with rfl | hq
    · exact .inl rfl
    · exact .inr (live_eraseLpage hu hq)
  obtain ⟨tk, -, rfl⟩ := Option.map_eq_some_iff.mp hu
  obtain ⟨ek, below, above, -, -, rfl⟩ := putLpage_spec hw
  refine ⟨Function.update_self .., ?_, fun q hne => .congr (Function.update_of_ne hne ..) rfl fun _ _ => rfl,
    fun q hq => hlive q ?_⟩
  · simp [State.content, State.setTask, State.setLpage]
  · rcases live_setTask.mp hq with hm | ⟨pid', t, -, ht, hm⟩
    · exact ⟨destPid, dk, hdk, hm⟩
    · exact ⟨pid', t, ht, hm⟩

end Sneks.Sysmem
