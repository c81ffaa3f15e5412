import Sneks.Sysmem.Brk

/-!
# `send_virt` moves a page

What is at the source address goes to the destination address, what was there before is
released, and nothing else changes. A page that is sent to itself is released first and
goes on in use.
-/

namespace Sneks.Sysmem
open Lib

def State.pageAt (s : State) (pid addr : ℕ) : Option ℕ := (s.tasks pid).bind fun t => s.getLpage t addr

def State.reads (lz : Lz4) (s : State) (lp : ℕ) : Option Page :=
  let l := s.lpage lp
  if l.swap then
    let h := s.hdr l.page
    let slot : Slot := if h.lp .a = some lp then .a else .b
    if h.lp slot = some lp then
      lz.decompress ((s.mem l.page).read (slot.offset (h.len slot)) (h.len slot))
    else none
  else if l.page = 0 then none
  else some (s.mem l.page)

structure Owns (s : State) (lp : ℕ) : Prop where
  used : lp ∉ (s.heap .lPage).trash
  frame : (s.lpage lp).swap = false → (s.lpage lp).page ≠ 0 → s.Sits lp
  slot : (s.lpage lp).swap = true → ∃ slot, (s.hdr (s.lpage lp).page).lp slot = some lp

structure Unchanged (lz : Lz4) (s t : State) (lp : ℕ) : Prop where
  flags : (t.lpage lp).flags = (s.lpage lp).flags
  reads : t.reads lz lp = s.reads lz lp
  owns : Owns t lp

/-- The frames that become free with a logical page: its own, or the one with its compressed
    contents if nothing else is in there. -/
def State.frames (s : State) (lp : ℕ) : List ℕ :=
  let l := s.lpage lp
  if l.swap then
    let h := s.hdr l.page
    let slot : Slot := if h.lp .a = some lp then .a else .b
    if h.lp slot.other = none then [l.page] else []
  else if l.page = 0 then []
  else [l.page]

structure Released (s t : State) (lp : ℕ) : Prop where
  gone : ∀ pid addr, t.pageAt pid addr ≠ some lp
  trash : (t.heap .lPage).trash = lp :: (s.heap .lPage).trash
  once : lp ∉ (s.heap .lPage).trash
  free : t.free = s.frames lp ++ s.free
  frames : ∀ p ∈ s.frames lp, p ∉ s.free ∧ p ∉ t.active ∧ p ∉ t.buddies
  slot : (s.lpage lp).swap = true → ∀ slot, (t.hdr (s.lpage lp).page).lp slot ≠ some lp

structure Sent (lz : Lz4) (s t : State) (src dest : ℕ × ℕ) (lp : ℕ) : Prop where
  source : s.pageAt src.1 src.2 = some lp
  arrived : t.pageAt dest.1 dest.2 = some lp
  same : Unchanged lz s t lp
  left : src ≠ dest → t.pageAt src.1 src.2 = none
  released : ∀ q, s.pageAt dest.1 dest.2 = some q → q ≠ lp → Released s t q
  other : ∀ pid addr, (pid, addr) ≠ src → (pid, addr) ≠ dest →
    t.pageAt pid addr = s.pageAt pid addr ∧ ∀ q, s.pageAt pid addr = some q → Unchanged lz s t q

/-- What `impl_send_virt` is for: a page is sent, or nothing changes. -/
def SentVirt (lz : Lz4) (s t : State) (src dest : ℕ × ℕ) : Result → Prop
  | .ok _ => ∃ lp, Sent lz s t src dest lp
  | .error _ => ∀ pid addr,
    t.pageAt pid addr = s.pageAt pid addr ∧ ∀ q, s.pageAt pid addr = some q → Unchanged lz s t q

variable {lz : Lz4} {lay : Layout} {s t u : State} {limbo : List ℕ} {addr p q lp pid : ℕ} {tk : Task}

-- Pages at addresses

def State.Has (s : State) (pid lp : ℕ) : Prop := ∃ t, s.tasks pid = some t ∧ lp ∈ t.mem

theorem Trees.pageAt_iff (ht : Trees s) :
    s.pageAt pid addr = some lp ↔ s.Has pid lp ∧ (s.lpage lp).lAddr = addr := by
  rw [State.pageAt, Option.bind_eq_some_iff]
  constructor
  · rintro ⟨tk, htk, hlp⟩
    obtain ⟨hm, ha⟩ := getLpage_spec hlp
    exact ⟨⟨tk, htk, hm⟩, ha⟩
  · rintro ⟨⟨tk, htk, hm⟩, ha⟩
    exact ⟨tk, htk, (ht.sorted htk).find?_eq.mpr ⟨hm, ha⟩⟩

theorem State.Has.live (h : s.Has pid lp) : s.Live lp := ⟨pid, h⟩

theorem Inv.has_unique {pid' : ℕ} (h : Inv lz lay s limbo none none) (hlp : s.Has pid lp)
    (hlp' : s.Has pid' lp) : pid = pid' := by
  obtain ⟨tk, htk, hm⟩ := hlp
  obtain ⟨tk', htk', hm'⟩ := hlp'
  exact h.lists.unique htk htk' hm hm'

theorem pageAt_congr (htasks : ∀ q tk, t.tasks q = some tk → tk.mem = [] ∧ s.tasks q = none ∨
      ∃ tk', s.tasks q = some tk' ∧ tk.mem = tk'.mem)
    (hback : ∀ q tk', s.tasks q = some tk' → ∃ tk, t.tasks q = some tk)
    (haddr : ∀ lp, (t.lpage lp).lAddr = (s.lpage lp).lAddr) (pid addr : ℕ) :
    t.pageAt pid addr = s.pageAt pid addr := by
  simp only [State.pageAt, State.getLpage, haddr]
  cases htk : t.tasks pid with
  | none =>
    cases hsk : s.tasks pid with
    | none => rfl
    | some tk' =>
      obtain ⟨tk, htk'⟩ := hback pid tk' hsk
      cases htk.symm.trans htk'
  | some tk =>
    rcases htasks pid tk htk with ⟨hmem, hnone⟩ | ⟨tk', htk', hmem⟩
    · simp [hmem, hnone]
    · simp [htk', hmem]

-- Contents

theorem Inv.reads_eq (hlz : lz.Undoes) (h : Inv lz lay s limbo none none) (hlive : s.Live lp) :
    s.reads lz lp = s.content lp := by
  simp only [State.reads, State.content]
  split
  · next hswap =>
    obtain ⟨hstore, hd⟩ := h.held hlive hswap
    rw [if_pos hd.held, (h.books.links.filled _ hstore _ lp hd.held).data, hlz]
  · rfl

theorem Inv.owns (h : Inv lz lay s limbo none none) (hlive : s.Live lp) : Owns s lp where
  used := fun hm => h.heap.dead lp hm hlive
  frame := h.books.links.sits hlive nofun
  slot hswap := (h.books.links.swapped lp hlive nofun hswap).2

theorem Inv.unchanged (hlz : lz.Undoes) (h : Inv lz lay s limbo none none)
    (h' : Inv lz lay t limbo none none) (hlive : s.Live lp) (hlive' : t.Live lp)
    (hflags : (t.lpage lp).flags = (s.lpage lp).flags) (hcontent : t.content lp = s.content lp) :
    Unchanged lz s t lp :=
  ⟨hflags, by rw [h'.reads_eq hlz hlive', h.reads_eq hlz hlive, hcontent], h'.owns hlive'⟩

theorem Inv.getTask_pages (h : Inv lz lay s limbo none none) (hs : s.getTask lz pid = some t)
    (q addr : ℕ) : t.pageAt q addr = s.pageAt q addr := by
  have hattr := (h.getTask hs).2.2.2
  simp only [State.getTask] at hs
  split at hs
  · cases hs
  split at hs
  · cases hs
    rfl
  next hnone =>
  split at hs
  · cases hs
  next u ptr hu =>
  cases hs
  obtain ⟨-, hk, -⟩ := h.alloc hu
  refine pageAt_congr (fun r tk htk => ?_) (fun r tk' htk' => ?_) hattr q addr
  · by_cases hr : r = pid
    · subst hr
      rw [setTask_self] at htk
      cases htk
      exact .inl ⟨rfl, hnone⟩
    · rw [setTask_of_ne hr, hk.tasks] at htk
      exact .inr ⟨tk, htk, rfl⟩
  · by_cases hr : r = pid
    · exact ⟨_, by rw [hr, setTask_self]⟩
    · exact ⟨tk', by rw [setTask_of_ne hr, hk.tasks, htk']⟩

-- Lists

theorem has_setTask : (s.setTask pid tk).Has p q ↔ p = pid ∧ q ∈ tk.mem ∨ p ≠ pid ∧ s.Has p q := by
  constructor
  · rintro ⟨t, ht, hq⟩
    by_cases hp : p = pid
    · subst hp
      rw [setTask_self] at ht
      cases ht
      exact .inl ⟨rfl, hq⟩
    · rw [setTask_of_ne hp] at ht
      exact .inr ⟨hp, t, ht, hq⟩
  · rintro (⟨rfl, hq⟩ | ⟨hp, t, ht, hq⟩)
    · exact ⟨tk, setTask_self, hq⟩
    · exact ⟨t, by rw [setTask_of_ne hp, ht], hq⟩

theorem has_congr (ht : t.tasks = s.tasks) : t.Has p q ↔ s.Has p q := by
  simp only [State.Has, ht]

theorem Inv.has_erase (h : Inv lz lay s limbo none none) (htk : s.tasks pid = some tk)
    (hlp : lp ∈ tk.mem) :
    (s.setTask pid { tk with mem := tk.mem.erase lp }).Has p q ↔ s.Has p q ∧ q ≠ lp := by
  rw [has_setTask, (h.lists.nodup htk).mem_erase_iff]
  constructor
  · rintro (⟨rfl, hne, hq⟩ | ⟨hp, t, ht, hq⟩)
    · exact ⟨⟨tk, htk, hq⟩, hne⟩
    · refine ⟨⟨t, ht, hq⟩, ?_⟩
      rintro rfl
      exact hp (h.lists.unique ht htk hq hlp)
  · rintro ⟨⟨t, ht, hq⟩, hne⟩
    by_cases hp : p = pid
    · subst hp
      obtain rfl : t = tk := Option.some.inj (ht.symm.trans htk)
      exact .inl ⟨rfl, hne, hq⟩
    · exact .inr ⟨hp, t, ht, hq⟩

theorem Inv.has_removeLpage (h : Inv lz lay s limbo none none) (htk : s.tasks pid = some tk)
    (hlp : lp ∈ tk.mem) (hs : s.removeLpage pid lp = some t) : t.Has p q ↔ s.Has p q ∧ q ≠ lp := by
  obtain ⟨-, -, htasks⟩ := h.removeLpage htk hlp hs
  rw [← h.has_erase htk hlp]
  exact has_congr htasks

theorem has_putLpage (hs : s.putLpage pid lp = some t) : t.Has p q ↔ p = pid ∧ q = lp ∨ s.Has p q := by
  obtain ⟨tk, below, above, htk, hmem, rfl⟩ := putLpage_spec hs
  have hin : q ∈ below ++ lp :: above ↔ q = lp ∨ q ∈ tk.mem := by
    rw [hmem]
    simp only [List.mem_append, List.mem_cons]
    tauto
  rw [has_setTask, hin]
  constructor
  · rintro (⟨rfl, rfl | hq⟩ | ⟨-, hq⟩)
    · exact .inl ⟨rfl, rfl⟩
    · exact .inr ⟨tk, htk, hq⟩
    · exact .inr hq
  · rintro (⟨rfl, rfl⟩ | ⟨t, ht, hq⟩)
    · exact .inl ⟨rfl, .inl rfl⟩
    · by_cases hp : p = pid
      · subst hp
        obtain rfl : t = tk := Option.some.inj (ht.symm.trans htk)
        exact .inl ⟨rfl, .inr hq⟩
      · exact .inr ⟨hp, t, ht, hq⟩

theorem Inv.has_moveLpage {srcPid destPid destAddr : ℕ} (h : Inv lz lay s limbo none none)
    (htk : s.tasks srcPid = some tk) (hlp : lp ∈ tk.mem)
    (hs : s.moveLpage srcPid destPid lp destAddr = some t) :
    t.Has p q ↔ p = destPid ∧ q = lp ∨ s.Has p q ∧ q ≠ lp := by
  simp only [State.moveLpage, State.eraseLpage, Option.bind_eq_bind, Option.bind_eq_some_iff,
    Option.map_eq_some_iff, Option.some.injEq] at hs
  obtain ⟨u, ⟨tk', htk', rfl⟩, w, hw, dk, hdk, rfl⟩ := hs
  obtain rfl : tk = tk' := Option.some.inj (htk.symm.trans htk')
  have hput := has_putLpage (p := p) (q := q) hw
  have hset : (w.setTask destPid { dk with
      minFault := min dk.minFault destAddr, brk := max dk.brk (pageEnd destAddr) }).Has p q ↔ w.Has p q := by
    rw [has_setTask]
    constructor
    · rintro (⟨rfl, hq⟩ | ⟨-, hq⟩)
      · exact ⟨dk, hdk, hq⟩
      · exact hq
    · rintro ⟨t, ht, hq⟩
      by_cases hp : p = destPid
      · subst hp
        obtain rfl : t = dk := Option.some.inj (ht.symm.trans hdk)
        exact .inl ⟨rfl, hq⟩
      · exact .inr ⟨hp, t, ht, hq⟩
  rw [hset, hput, ← h.has_erase htk hlp]
  exact or_congr_right (has_congr rfl)

theorem moveLpage_frame {srcPid destPid destAddr : ℕ}
    (hs : s.moveLpage srcPid destPid lp destAddr = some t) :
    t.heap = s.heap ∧ t.free = s.free ∧ t.active = s.active ∧ t.buddies = s.buddies ∧ t.hdr = s.hdr := by
  simp only [State.moveLpage, State.eraseLpage, Option.bind_eq_bind, Option.bind_eq_some_iff,
    Option.map_eq_some_iff, Option.some.injEq] at hs
  obtain ⟨u, ⟨tk', -, rfl⟩, w, hw, dk, -, rfl⟩ := hs
  obtain ⟨ek, below, above, -, -, rfl⟩ := putLpage_spec hw
  exact ⟨rfl, rfl, rfl, rfl, rfl⟩

-- Release

theorem Homes.active_not_free (h : Homes lay s limbo) (hp : p ∈ s.active) : p ∉ s.free := by
  intro hfree
  have hone := h.le_one p
  have ha := List.count_pos_iff.mpr hp
  have hf := List.count_pos_iff.mpr hfree
  simp only [State.places] at hone
  omega

theorem Homes.store_not_free (h : Homes lay s limbo) (hp : p ∈ s.store) : p ∉ s.free := by
  intro hfree
  have hone := h.le_one p
  have hs := List.count_pos_iff.mpr hp
  have hf := List.count_pos_iff.mpr hfree
  simp only [State.places] at hone
  omega

theorem Homes.active_ne_zero' (h : Homes lay s limbo) (hp : p ∈ s.active) : p ≠ 0 := by
  refine h.ne_zero ?_
  have := List.count_pos_iff.mpr hp
  simp only [State.places]
  omega

structure Freed (s t : State) (lp : ℕ) : Prop where
  heap : t.heap = s.heap
  free : t.free = s.frames lp ++ s.free
  frames : ∀ p ∈ s.frames lp, p ∉ s.free ∧ p ∉ t.active ∧ p ∉ t.buddies
  slot : (s.lpage lp).swap = true → ∀ slot, (t.hdr (s.lpage lp).page).lp slot ≠ some lp

theorem Inv.dropMemory_freed (h : Inv lz lay s limbo none none) (hlive : s.Live lp)
    (hs : s.dropMemory lp = some t) : Freed s t lp := by
  simp only [State.dropMemory] at hs
  split at hs
  · next hswap =>
    obtain ⟨hstore, hd⟩ := h.held hlive hswap
    have hphys := h.books.links.phys _ hstore
    have hidle : (s.lpage lp).page ∉ s.active := fun hm => h.books.homes.active_not_store hm hstore
    have hcleared : ∀ slot : Slot, (s.hdr (s.lpage lp).page).lp slot = some lp → ∀ slot' : Slot,
        Function.update (s.hdr (s.lpage lp).page).lp slot none slot' ≠ some lp := by
      intro slot hslot slot'
      rcases slot.eq_or_other slot' with rfl | rfl
      · simp
      · rw [Function.update_of_ne slot.other_ne]
        exact h.books.links.twice _ hstore slot lp hslot
    have hframes : s.frames lp = if (s.hdr (s.lpage lp).page).lp (Slot.other
        (if (s.hdr (s.lpage lp).page).lp .a = some lp then .a else .b)) = none
        then [(s.lpage lp).page] else [] := by simp [State.frames, hswap]
    simp only [State.dropSlot] at hs
    generalize (if (s.hdr (s.lpage lp).page).lp .a = some lp then Slot.a else Slot.b) = slot
      at hs hd hframes
    split at hs
    · cases hs
    split at hs
    · next hother =>
      rw [if_pos hother] at hframes
      split at hs
      · cases hs
      cases hs
      refine ⟨rfl, ?_, fun p hp => ?_, fun _ slot => ?_⟩
      · simp only [hframes, hphys, List.singleton_append]
      · simp only [hframes, List.mem_singleton] at hp
        subst hp
        exact ⟨h.books.homes.store_not_free hstore, hidle, fun hm =>
          (h.books.links.nodup.mem_erase_iff.mp hm).1 rfl⟩
      · simp only [Function.update_self]
        exact hcleared _ hd.held slot
    · next hother =>
      rw [if_neg hother] at hframes
      cases hs
      refine ⟨rfl, ?_, fun p hp => ?_, fun _ slot => ?_⟩
      · simp only [hframes, List.nil_append]
      · simp only [hframes, List.not_mem_nil] at hp
      · simp only [Function.update_self]
        exact hcleared _ hd.held slot
  · next hswap =>
    have hswap : (s.lpage lp).swap = false := by simpa using hswap
    simp only [State.dropPage] at hs
    split at hs
    · next hm =>
      have hzero := h.books.homes.active_ne_zero' hm
      split at hs
      · cases hs
        refine ⟨rfl, ?_, fun p hp => ?_, fun hsw => by simp [hswap] at hsw⟩
        · simp [State.frames, hswap, hzero]
        · simp only [State.frames, hswap, if_neg hzero, Bool.false_eq_true, if_false,
            List.mem_singleton] at hp
          subst hp
          exact ⟨h.books.homes.active_not_free hm, fun hm' =>
            (h.books.homes.active_nodup.mem_erase_iff.mp hm').1 rfl, fun hb =>
            h.books.homes.active_not_store hm ((h.books.links.buddy _).mp hb).1⟩
      · cases hs
    · next hm =>
      cases hs
      have hpage : (s.lpage lp).page = 0 := by
        by_contra hzero
        exact hm (h.books.links.resident lp hlive (by rintro ⟨⟩) hswap hzero).1
      refine ⟨rfl, ?_, fun p hp => ?_, fun hsw => by simp [hswap] at hsw⟩
      · simp [State.frames, hswap, hpage]
      · simp [State.frames, hswap, hpage] at hp

theorem Inv.removeLpage_freed (h : Inv lz lay s limbo none none) (hlive : s.Live lp)
    (hs : s.removeLpage pid lp = some t) :
    (t.heap .lPage).trash = lp :: (s.heap .lPage).trash ∧ t.free = s.frames lp ++ s.free ∧
      (∀ p ∈ s.frames lp, p ∉ s.free ∧ p ∉ t.active ∧ p ∉ t.buddies) ∧
      ((s.lpage lp).swap = true → ∀ slot, (t.hdr (s.lpage lp).page).lp slot ≠ some lp) := by
  simp only [State.removeLpage, State.eraseLpage, Option.bind_eq_bind, Option.bind_eq_some_iff,
    Option.map_eq_some_iff, Option.some.injEq] at hs
  obtain ⟨u, hu, v, ⟨tk, -, rfl⟩, rfl⟩ := hs
  obtain ⟨hheap, hfree, hframes, hslot⟩ := h.dropMemory_freed hlive hu
  refine ⟨?_, hfree, hframes, hslot⟩
  simp [State.recycle, State.setHeap, State.setTask, hheap]

def Quiet (lz : Lz4) (s t : State) : Prop := ∀ pid addr,
  t.pageAt pid addr = s.pageAt pid addr ∧ ∀ q, s.pageAt pid addr = some q → Unchanged lz s t q

theorem live_of_pageAt (h : s.pageAt pid addr = some lp) : s.Live lp := by
  obtain ⟨tk, htk, hlp⟩ := Option.bind_eq_some_iff.mp h
  exact ⟨pid, tk, htk, (getLpage_spec hlp).1⟩

theorem Inv.quiet_refl (hlz : lz.Undoes) (h : Inv lz lay s limbo none none) : Quiet lz s s :=
  fun _ _ => ⟨rfl, fun _ hq => h.unchanged hlz h (live_of_pageAt hq) (live_of_pageAt hq) rfl rfl⟩

theorem Inv.getTask_quiet (hlz : lz.Undoes) (h : Inv lz lay s limbo none none)
    (hs : s.getTask lz pid = some t) : Quiet lz s t := by
  obtain ⟨hinv, hlive, -⟩ := h.getTask hs
  refine fun p addr => ⟨h.getTask_pages hs p addr, fun q hq => ?_⟩
  have hsame := h.getTask_same hs (live_of_pageAt hq)
  exact h.unchanged hlz hinv (live_of_pageAt hq) ((hlive q).mpr (live_of_pageAt hq)) hsame.flags
    hsame.content

theorem getTask_eq (htk : s.tasks pid = some tk) (hs : s.getTask lz pid = some t) : t = s := by
  simp only [State.getTask, htk] at hs
  split at hs
  · cases hs
  · cases hs
    rfl

theorem Inv.removeAt_has {destPid destAddr : ℕ} (h : Inv lz lay s limbo none none) (ht : Trees s)
    (htk : s.tasks destPid = some tk) (hs : s.removeAt destPid tk destAddr = some t) :
    Inv lz lay t limbo none none ∧ Trees t ∧ (∀ q, Same s t q) ∧
      ∀ p q, t.Has p q ↔ s.Has p q ∧ s.pageAt destPid destAddr ≠ some q := by
  have hat : s.pageAt destPid destAddr = s.getLpage tk destAddr := by simp [State.pageAt, htk]
  simp only [State.removeAt] at hs
  split at hs
  · next hnone =>
    cases hs
    exact ⟨h, ht, .refl s, fun p q => by simp [hat, hnone]⟩
  next dstp hdstp =>
  obtain ⟨hm, -⟩ := getLpage_spec hdstp
  refine ⟨(h.removeLpage htk hm hs).1, ht.thin (removeLpage_thins hs), (removeLpage_frame hs).2,
    fun p q => ?_⟩
  rw [h.has_removeLpage htk hm hs, hat, hdstp]
  exact and_congr_right fun _ => ⟨fun hne he => hne (Option.some.inj he).symm, fun hne he => hne (he ▸ rfl)⟩

theorem Inv.sent {srcPid srcAddr destPid destAddr : ℕ} {src : Task} (hlz : lz.Undoes)
    (h : Inv lz lay s limbo none none) (ht : Trees s) (hpage : destAddr % pageSize = 0)
    (hword : destAddr < 2 ^ 32) (hne : (srcPid, srcAddr) ≠ (destPid, destAddr))
    (hsrc : s.tasks srcPid = some src) (hlp : s.getLpage src srcAddr = some lp)
    (hdest : s.getTask lz destPid = some t) (htk : t.tasks destPid = some tk) {w x : State}
    (hw : t.removeAt destPid tk destAddr = some w) (hx : w.moveLpage srcPid destPid lp destAddr = some x) :
    Sent lz s x (srcPid, srcAddr) (destPid, destAddr) lp := by
  obtain ⟨hinv, -, hkept, -⟩ := h.getTask hdest
  have htt := h.getTask_trees ht hdest
  have hpages := h.getTask_pages hdest
  have hat : s.pageAt srcPid srcAddr = some lp := by simp [State.pageAt, hsrc, hlp]
  have hatt : t.pageAt srcPid srcAddr = some lp := by rw [hpages, hat]
  obtain ⟨hinvw, htw, hsamew, hhasw⟩ := hinv.removeAt_has htt htk hw
  obtain ⟨hlpt, hlpa⟩ := htt.pageAt_iff.mp hatt
  -- the page that is moved is not the one at the destination
  have hstays : t.pageAt destPid destAddr ≠ some lp := by
    intro he
    obtain ⟨hhas, ha⟩ := htt.pageAt_iff.mp he
    exact hne (Prod.ext_iff.mpr ⟨hinv.has_unique hlpt hhas, hlpa.symm.trans ha⟩)
  obtain ⟨sw, hsw, hlpw⟩ : w.Has srcPid lp := (hhasw srcPid lp).mpr ⟨hlpt, hstays⟩
  have hinvx := hinvw.moveLpage hsw hlpw hx
  have htx := htw.moveLpage hinvw hsw hlpw hpage hword hx
  have hmoved := moveLpage_moved hx
  -- the pages at all addresses
  have hall : ∀ p addr q, x.pageAt p addr = some q ↔ (p, addr) = (destPid, destAddr) ∧ q = lp ∨
      (p, addr) ≠ (destPid, destAddr) ∧ (p, addr) ≠ (srcPid, srcAddr) ∧ t.pageAt p addr = some q := by
    intro p addr q
    rw [htx.pageAt_iff, hinvw.has_moveLpage hsw hlpw hx, hhasw]
    constructor
    · rintro ⟨⟨rfl, rfl⟩ | ⟨⟨hq, hqd⟩, hqlp⟩, ha⟩
      · rw [hmoved.lpage] at ha
        exact .inl ⟨by rw [← ha], rfl⟩
      · rw [(hmoved.other q hqlp).lAddr, (hsamew q).lAddr] at ha
        have hqa := htt.pageAt_iff.mpr ⟨hq, ha⟩
        refine .inr ⟨?_, ?_, hqa⟩
        · intro he
          obtain ⟨rfl, rfl⟩ := Prod.ext_iff.mp he
          exact hqd hqa
        · intro he
          obtain ⟨rfl, rfl⟩ := Prod.ext_iff.mp he
          exact hqlp (Option.some.inj (hqa.symm.trans hatt))
    · rintro (⟨he, rfl⟩ | ⟨hd, hs, hqa⟩)
      · obtain ⟨rfl, rfl⟩ := Prod.ext_iff.mp he
        exact ⟨.inl ⟨rfl, rfl⟩, by rw [hmoved.lpage]⟩
      · obtain ⟨hq, ha⟩ := htt.pageAt_iff.mp hqa
        have hqlp : q ≠ lp := by
          rintro rfl
          exact hs (Prod.ext_iff.mpr ⟨hinv.has_unique hq hlpt, ha.symm.trans hlpa⟩)
        have hqd : t.pageAt destPid destAddr ≠ some q := by
          intro he
          obtain ⟨hq', ha'⟩ := htt.pageAt_iff.mp he
          exact hd (Prod.ext_iff.mpr ⟨hinv.has_unique hq hq', ha.symm.trans ha'⟩)
        exact ⟨.inr ⟨⟨hq, hqd⟩, hqlp⟩, by rw [(hmoved.other q hqlp).lAddr, (hsamew q).lAddr, ha]⟩
  have hlive : ∀ q, x.pageAt destPid destAddr = some q → x.Live q := fun q hq => live_of_pageAt hq
  have harrived : x.pageAt destPid destAddr = some lp := (hall _ _ _).mpr (.inl ⟨rfl, rfl⟩)
  have hsamet : Same s t lp := h.getTask_same hdest (live_of_pageAt hat)
  constructor
  case source => exact hat
  case arrived => exact harrived
  case same =>
    refine h.unchanged hlz hinvx (live_of_pageAt hat) (hlive lp harrived) ?_ ?_
    · rw [hmoved.lpage]
      exact (hsamew lp).flags.trans hsamet.flags
    · exact hmoved.content.trans ((hsamew lp).content.trans hsamet.content)
  case left =>
    intro _
    cases hq : x.pageAt srcPid srcAddr with
    | none => rfl
    | some q =>
      rcases (hall _ _ _).mp hq with ⟨he, -⟩ | ⟨-, he, -⟩
      · exact absurd he hne
      · exact absurd rfl he
  case released =>
    intro q hq hqlp
    obtain ⟨tk', htk', hq'⟩ := Option.bind_eq_some_iff.mp hq
    obtain rfl := getTask_eq htk' hdest
    obtain rfl : tk = tk' := Option.some.inj (htk.symm.trans htk')
    have hq' : t.getLpage tk destAddr = some q := hq'
    simp only [State.removeAt, hq'] at hw
    obtain ⟨htrash, hfree, hframes, hslot⟩ := h.removeLpage_freed (live_of_pageAt hq) hw
    obtain ⟨hheap, hfree', hactive, hbuddies, hhdr⟩ := moveLpage_frame hx
    refine ⟨fun p addr he => ?_, by rw [hheap, htrash], fun hm => h.heap.dead q hm (live_of_pageAt hq),
      by rw [hfree', hfree], fun p hp => ?_, fun hsw => ?_⟩
    · rcases (hall p addr q).mp he with ⟨-, hql⟩ | ⟨hd, -, hqa⟩
      · exact hqlp hql
      · obtain ⟨hh, ha⟩ := htt.pageAt_iff.mp hqa
        obtain ⟨hh', ha'⟩ := htt.pageAt_iff.mp hq
        exact hd (Prod.ext_iff.mpr ⟨hinv.has_unique hh hh', ha.symm.trans ha'⟩)
    · rw [hactive, hbuddies]
      exact hframes p hp
    · rw [hhdr]
      exact hslot hsw
  case other =>
    intro p addr hs hd
    have hat' : x.pageAt p addr = t.pageAt p addr := by
      refine Option.ext fun q => ?_
      rw [hall]
      constructor
      · rintro (⟨he, -⟩ | ⟨-, -, hq⟩)
        · exact absurd he hd
        · exact hq
      · exact fun hq => .inr ⟨hd, hs, hq⟩
    refine ⟨by rw [hat', hpages], fun q hq => ?_⟩
    have hqx : x.pageAt p addr = some q := by rw [hat', hpages, hq]
    have hqlp : q ≠ lp := by
      rintro rfl
      obtain ⟨hh, ha⟩ := ht.pageAt_iff.mp hq
      obtain ⟨hh', ha'⟩ := ht.pageAt_iff.mp hat
      exact hs (Prod.ext_iff.mpr ⟨h.has_unique hh hh', ha.symm.trans ha'⟩)
    have hsame : Same s x q :=
      (h.getTask_same hdest (live_of_pageAt hq)).trans ((hsamew q).trans (hmoved.other q hqlp))
    exact h.unchanged hlz hinvx (live_of_pageAt hq) (live_of_pageAt hqx) hsame.flags hsame.content

theorem Inv.sent_self {src : Task} (h : Inv lz lay s limbo none none) (hsrc : s.tasks pid = some src)
    (hlp : s.getLpage src addr = some lp) {w x : State} (hw : s.removeAt pid src addr = some w)
    (hx : w.moveLpage pid pid lp addr = some x) : ¬ Owns x lp := by
  intro ho
  refine ho.used ?_
  simp only [State.removeAt, hlp] at hw
  have hlive : s.Live lp := ⟨pid, src, hsrc, (getLpage_spec hlp).1⟩
  rw [(moveLpage_frame hx).1, (h.removeLpage_freed hlive hw).1]
  exact List.mem_cons_self

theorem Inv.sendVirt_iff {srcPid srcAddr destPid destAddr : ℕ} {r : Result} (hlz : lz.Undoes)
    (h : Inv lz lay s limbo none none) (ht : Trees s) (hword : destAddr < 2 ^ 32)
    (hs : s.sendVirt lz srcPid srcAddr (some destPid) destAddr = some (t, r)) :
    SentVirt lz s t (srcPid, srcAddr) (destPid, destAddr) r ↔
      ((srcPid, srcAddr) = (destPid, destAddr) → s.pageAt srcPid srcAddr = none) := by
  simp only [State.sendVirt] at hs
  split at hs
  · next hsys =>
    cases hs
    refine iff_of_true (h.quiet_refl hlz) fun _ => ?_
    rw [State.pageAt, Option.bind_eq_none_iff]
    exact fun tk htk => absurd (ht.sys htk) (Nat.not_le.mpr hsys)
  next hsys =>
  simp only [Option.bind_eq_bind, Option.bind_eq_some_iff] at hs
  obtain ⟨u, hu, src, hsrc, hs⟩ := hs
  split at hs
  · cases hs
  split at hs
  · next hnone =>
    cases hs
    refine iff_of_true (h.getTask_quiet hlz hu) fun _ => ?_
    rw [← h.getTask_pages hu]
    simp [State.pageAt, hsrc, hnone]
  next lp hlp =>
  have hat : u.pageAt srcPid srcAddr = some lp := by simp [State.pageAt, hsrc, hlp]
  have hats : s.pageAt srcPid srcAddr = some lp := by rw [← h.getTask_pages hu, hat]
  -- the sender has a page, so that it was known before
  obtain rfl : u = s := by
    obtain ⟨tk, htk, -⟩ := Option.bind_eq_some_iff.mp hats
    exact getTask_eq htk hu
  split at hs
  · next hdest =>
    cases hs
    refine iff_of_true (h.quiet_refl hlz) fun he => ?_
    obtain ⟨rfl, -⟩ := Prod.ext_iff.mp he
    exact absurd hdest hsys
  simp only [Option.bind_eq_some_iff] at hs
  obtain ⟨v, hv, tk, htk, hs⟩ := hs
  split at hs
  · cases hs
  next hpage =>
  simp only [Option.bind_eq_some_iff, Option.map_eq_some_iff] at hs
  obtain ⟨w, hw, x, hx, he⟩ := hs
  cases he
  by_cases hself : (srcPid, srcAddr) = (destPid, destAddr)
  · obtain ⟨rfl, rfl⟩ := Prod.ext_iff.mp hself
    obtain rfl := getTask_eq hsrc hv
    obtain rfl : src = tk := Option.some.inj (hsrc.symm.trans htk)
    refine iff_of_false ?_ fun hnone => ?_
    · rintro ⟨lq, hsent⟩
      obtain rfl : lp = lq := Option.some.inj (hats.symm.trans hsent.source)
      exact h.sent_self hsrc hlp hw hx hsent.same.owns
    · rw [hnone rfl] at hats
      cases hats
  · exact iff_of_true ⟨lp, h.sent hlz ht (by simpa using hpage) hword hself hsrc hlp hv htk hw hx⟩
      fun he => absurd he hself

-- No assertion fails

theorem Trees.getTask_some (ht : Trees s) (htk : s.tasks pid = some tk) : s.getTask lz pid = some s := by
  simp [State.getTask, Nat.not_lt.mpr (ht.sys htk), htk]

theorem moveLpage_some {srcPid destPid : ℕ} {sk dk : Task} (lp destAddr : ℕ) (hsk : s.tasks srcPid = some sk)
    (hnodup : sk.mem.Nodup) (hdk : s.tasks destPid = some dk) (hlp : srcPid ≠ destPid → lp ∉ dk.mem)
    (hnew : ∀ q ∈ dk.mem, q ≠ lp → (s.lpage q).lAddr ≠ destAddr) :
    ∃ t, s.moveLpage srcPid destPid lp destAddr = some t := by
  obtain ⟨ek, hek, hmem⟩ : ∃ ek, (s.setTask srcPid { sk with mem := sk.mem.erase lp }).tasks destPid = some ek ∧
      ∀ q ∈ ek.mem, q ∈ dk.mem ∧ q ≠ lp := by
    by_cases hp : destPid = srcPid
    · subst hp
      obtain rfl : sk = dk := Option.some.inj (hsk.symm.trans hdk)
      refine ⟨_, setTask_self, fun q hq => ?_⟩
      obtain ⟨hne, hq⟩ := hnodup.mem_erase_iff.mp hq
      exact ⟨hq, hne⟩
    · refine ⟨dk, by rw [setTask_of_ne hp, hdk], fun q hq => ⟨hq, ?_⟩⟩
      rintro rfl
      exact hlp (Ne.symm hp) hq
  set u := (s.setTask srcPid { sk with mem := sk.mem.erase lp }).setLpage lp
    { s.lpage lp with lAddr := destAddr }
  have hek' : u.tasks destPid = some ek := hek
  have hself : (u.lpage lp).lAddr = destAddr := by simp [u, State.setLpage]
  have hnone : u.getLpage ek destAddr = none := by
    refine List.find?_eq_none.mpr fun q hq => ?_
    obtain ⟨hq, hne⟩ := hmem q hq
    have hl : (u.lpage q).lAddr = (s.lpage q).lAddr := by
      simp [u, State.setLpage, Function.update_of_ne hne, State.setTask]
    simpa [hl] using hnew q hq hne
  obtain ⟨w, hw⟩ : ∃ w, u.putLpage destPid lp = some w := by
    simp [State.putLpage, hek', hself, hnone]
  obtain ⟨ek', below, above, hek'', -, rfl⟩ := putLpage_spec hw
  exact ⟨_, by
    simp only [State.moveLpage, State.eraseLpage, hsk, Option.map_some, Option.bind_eq_bind,
      Option.bind_some]
    show (u.putLpage destPid lp).bind _ = _
    rw [hw, Option.bind_some, setTask_self, Option.bind_some]⟩

theorem Inv.sendVirt_some {srcPid srcAddr destPid destAddr : ℕ} {src dest : Task}
    (h : Inv lz lay s limbo none none) (ht : Trees s) (hsrc : s.tasks srcPid = some src)
    (hdest : s.tasks destPid = some dest) (hspage : srcAddr % pageSize = 0)
    (hdpage : destAddr % pageSize = 0) :
    ∃ t r, s.sendVirt lz srcPid srcAddr (some destPid) destAddr = some (t, r) := by
  simp only [State.sendVirt, if_neg (Nat.not_lt.mpr (ht.sys hsrc)), ht.getTask_some hsrc,
    ht.getTask_some hdest, Option.bind_eq_bind, Option.bind_some, hsrc, hdest, hspage, hdpage, ne_eq,
    not_true_eq_false, if_false, if_neg (Nat.not_lt.mpr (ht.sys hdest))]
  split
  · exact ⟨_, _, rfl⟩
  next lp hlp =>
  obtain ⟨hlpm, -⟩ := getLpage_spec hlp
  obtain ⟨w, hw⟩ : ∃ w, s.removeAt destPid dest destAddr = some w := by
    simp only [State.removeAt]
    split
    · exact ⟨s, rfl⟩
    · next dstp hdstp => exact h.removeLpage_some hdest (getLpage_spec hdstp).1
  obtain ⟨hinvw, htw, hsamew, hhasw⟩ := h.removeAt_has ht hdest hw
  obtain ⟨sk, hsk⟩ : ∃ sk, w.tasks srcPid = some sk := by
    simp only [State.removeAt] at hw
    split at hw
    · cases hw
      exact ⟨src, hsrc⟩
    · next dstp hdstp =>
      rw [(h.removeLpage hdest (getLpage_spec hdstp).1 hw).2.2]
      by_cases hp : srcPid = destPid
      · exact ⟨_, by rw [hp, Function.update_self]⟩
      · exact ⟨src, by rw [Function.update_of_ne hp, hsrc]⟩
  obtain ⟨dk, hdk⟩ : ∃ dk, w.tasks destPid = some dk := by
    simp only [State.removeAt] at hw
    split at hw
    · cases hw
      exact ⟨dest, hdest⟩
    · next dstp hdstp =>
      rw [(h.removeLpage hdest (getLpage_spec hdstp).1 hw).2.2, Function.update_self]
      exact ⟨_, rfl⟩
  obtain ⟨x, hx⟩ := moveLpage_some lp destAddr hsk (hinvw.lists.nodup hsk) hdk
    (fun hp hm => hp (h.has_unique ⟨src, hsrc, hlpm⟩ ((hhasw destPid lp).mp ⟨dk, hdk, hm⟩).1))
    fun q hq _ ha => by
      obtain ⟨hq', hne⟩ := (hhasw destPid q).mp ⟨dk, hdk, hq⟩
      exact hne (ht.pageAt_iff.mpr ⟨hq', (hsamew q).lAddr.symm.trans ha⟩)
  exact ⟨x, .ok (), by simp only [hw, hx, Option.bind_some, Option.map_some]⟩

/-- In every state that is reached, `impl_send_virt` does what it is for, unless the page is sent
    to itself. For tasks that are known it returns. -/
theorem send_virt_moves {as : List Step} {srcPid srcAddr destPid destAddr : ℕ} {rights : List (List ℕ)}
    (hlz : lz.Undoes) (h : Run (exec lz lay) called (State.init lay) as s)
    (hword : destAddr < 2 ^ 32) (hsrc : srcAddr % pageSize = 0) (hdest : destAddr % pageSize = 0) :
    (∀ t r, State.sendVirt lz { s with rights := rights } srcPid srcAddr (some destPid) destAddr = some (t, r) →
      (SentVirt lz { s with rights := rights } t (srcPid, srcAddr) (destPid, destAddr) r ↔
        ((srcPid, srcAddr) = (destPid, destAddr) → s.pageAt srcPid srcAddr = none))) ∧
      (s.tasks srcPid ≠ none → s.tasks destPid ≠ none → ∃ t r,
        State.sendVirt lz { s with rights := rights } srcPid srcAddr (some destPid) destAddr = some (t, r)) := by
  obtain ⟨hinv, ht⟩ := Trees.of_run h
  have hinv' : Inv lz lay { s with rights := rights } [] none none := hinv.setRights
  have ht' : Trees { s with rights := rights } := ht.thin (.of_tasks rfl fun _ _ => rfl)
  refine ⟨fun t r hs => hinv'.sendVirt_iff hlz ht' hword hs, fun hsk hdk => ?_⟩
  obtain ⟨src, hsk⟩ := Option.ne_none_iff_exists'.mp hsk
  obtain ⟨dest, hdk⟩ := Option.ne_none_iff_exists'.mp hdk
  exact hinv'.sendVirt_some ht' hsk hdk hsrc hdest

/-- The second page of a heap goes to another task. -/
theorem send_virt_moves_heap : ∃ s t, Run (exec lz4Constant swapLayout) called (State.init swapLayout) heapRun s ∧
    State.sendVirt lz4Constant { s with rights := [] } (minSysid + 1) 0x101000 (some (minSysid + 2)) 0x200000 =
      some (t, .ok ()) ∧
    SentVirt lz4Constant { s with rights := [] } t (minSysid + 1, 0x101000) (minSysid + 2, 0x200000) (.ok ()) := by
  obtain ⟨s, hrun, hs⟩ := Run.exists_of_evalRun (exec lz4Constant swapLayout) called
    (State.init swapLayout) heapRun
    (fun s => (State.sendVirt lz4Constant { s with rights := [] } (minSysid + 1) 0x101000
      (some (minSysid + 2)) 0x200000).map (·.2.isOk)) (some true) (by decide +kernel)
  obtain ⟨⟨t, r⟩, ht, hr⟩ := Option.map_eq_some_iff.mp hs
  cases r with
  | error e => cases hr
  | ok _ =>
    refine ⟨s, t, hrun, ht, ?_⟩
    exact ((send_virt_moves lz4Constant_undoes hrun (by decide) (by decide) (by decide)).1 t _ ht).mpr
      fun he => absurd he (by decide)

/-- The second page of a heap is sent to itself: it stays in the task, while its structure is in
    the trash and its frame is free. -/
theorem sent_to_itself : ∃ s t lp,
    Run (exec lz4Constant swapLayout) called (State.init swapLayout) heapRun s ∧
      State.sendVirt lz4Constant { s with rights := [] } (minSysid + 1) 0x101000 (some (minSysid + 1)) 0x101000 =
        some (t, .ok ()) ∧
      t.pageAt (minSysid + 1) 0x101000 = some lp ∧ lp ∈ (t.heap .lPage).trash ∧ (t.lpage lp).page ∈ t.free ∧
      ¬ SentVirt lz4Constant { s with rights := [] } t (minSysid + 1, 0x101000) (minSysid + 1, 0x101000)
        (.ok ()) := by
  obtain ⟨s, hrun, hs⟩ := Run.exists_of_evalRun (exec lz4Constant swapLayout) called
    (State.init swapLayout) heapRun
    (fun s => (State.sendVirt lz4Constant { s with rights := [] } (minSysid + 1) 0x101000
      (some (minSysid + 1)) 0x101000).bind fun (t, r) => (t.pageAt (minSysid + 1) 0x101000).map fun lp =>
        (r.isOk, decide (s.pageAt (minSysid + 1) 0x101000 = some lp), decide (lp ∈ (t.heap .lPage).trash),
          decide ((t.lpage lp).page ∈ t.free)))
    (some (true, true, true, true)) (by decide +kernel)
  obtain ⟨⟨t, r⟩, ht, hs⟩ := Option.bind_eq_some_iff.mp hs
  obtain ⟨lp, hlp, he⟩ := Option.map_eq_some_iff.mp hs
  simp only [Prod.mk.injEq, decide_eq_true_eq] at he
  obtain ⟨hr, hsource, htrash, hfree⟩ := he
  cases r with
  | error e => cases hr
  | ok _ =>
    refine ⟨s, t, lp, hrun, ht, hlp, htrash, hfree, ?_⟩
    rintro ⟨lq, hsent⟩
    obtain rfl : lp = lq := Option.some.inj (hsource.symm.trans hsent.source)
    exact hsent.same.owns.used htrash

end Sneks.Sysmem
