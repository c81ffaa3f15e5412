import Sneks.Sysmem.Defs
import Mathlib.Data.List.Nodup

/-!
# Replacement keeps the books

The invariants of sysmem, and that replacing active pages keeps them. Pages are
counted by the places where they can be. Links say how logical pages, physical
pages and headers refer to each other, and what the compressed bytes are.
-/

namespace Sneks.Sysmem
open Lib

def CHdr.Half (h : CHdr) : Prop := ∃ slot, h.lp slot ≠ none ∧ h.lp (Slot.other slot) = none

namespace State

variable (lay : Layout) (s : State)

def Live (lp : ℕ) : Prop := ∃ pid t, s.tasks pid = some t ∧ lp ∈ t.mem

def heapPages : List ℕ :=
  (s.heap .systask).pages ++ (s.heap .pPage).pages ++ (s.heap .lPage).pages

def Tracked (p : ℕ) : Prop := p ∈ lay.initPages ∨ p ∈ s.handed ∧ ¬ lay.inImage p

instance (p : ℕ) : Decidable (s.Tracked lay p) := inferInstanceAs (Decidable (_ ∨ _))

def places (p : ℕ) : ℕ :=
  s.free.count p + s.active.count p + s.store.count p + s.heapPages.count p

end State

structure Homes (lay : Layout) (s : State) (limbo : List ℕ) : Prop where
  places : ∀ p, s.places p + limbo.count p = if s.Tracked lay p then 1 else 0
  nonzero : 0 ∉ s.handed
  numFree : s.numFree = s.free.length

structure Filled (lz : Lz4) (s : State) (olp : Option ℕ) (ch : ℕ) (slot : Slot) (lp : ℕ) : Prop where
  live : s.Live lp
  page : (s.lpage lp).page = ch
  swap : (s.lpage lp).swap = true
  other : some lp ≠ olp
  data : (s.mem ch).read (slot.offset ((s.hdr ch).len slot)) ((s.hdr ch).len slot) =
    lz.compress (s.saved lp)

structure Links (lz : Lz4) (s : State) (olp och : Option ℕ) : Prop where
  owned : ∀ p ∈ s.active, ∃ lp, (s.pages p).owner = some lp ∧ s.Live lp ∧
    (s.lpage lp).page = p ∧ (s.lpage lp).swap = false ∧ some lp ≠ olp
  idle : ∀ p, p ∉ s.active → (s.pages p).owner = none
  resident : ∀ lp, s.Live lp → some lp ≠ olp → (s.lpage lp).swap = false → (s.lpage lp).page ≠ 0 →
    (s.lpage lp).page ∈ s.active ∧ (s.pages (s.lpage lp).page).owner = some lp
  swapped : ∀ lp, s.Live lp → some lp ≠ olp → (s.lpage lp).swap = true →
    (s.lpage lp).page ∈ s.store ∧ ∃ slot, (s.hdr (s.lpage lp).page).lp slot = some lp
  filled : ∀ ch ∈ s.store, ∀ slot lp, (s.hdr ch).lp slot = some lp → Filled lz s olp ch slot lp
  phys : ∀ ch ∈ s.store, (s.hdr ch).phys = ch
  fits : ∀ ch ∈ s.store, (s.hdr ch).len .a + (s.hdr ch).len .b ≤ pageSize - chdrSize
  twice : ∀ ch ∈ s.store, ∀ slot lp, (s.hdr ch).lp slot = some lp →
    (s.hdr ch).lp slot.other ≠ some lp
  used : ∀ ch ∈ s.store, ∃ slot, (s.hdr ch).lp slot ≠ none
  buddy : ∀ ch, ch ∈ s.buddies ↔ ch ∈ s.store ∧ (s.hdr ch).Half ∧ some ch ≠ och
  nodup : s.buddies.Nodup
  stored : ∀ ch, och = some ch → ch ∈ s.store

variable {lz : Lz4} {lay : Layout} {s t u : State} {limbo : List ℕ} {olp och : Option ℕ} {p lp : ℕ}

-- Places

theorem Homes.le_one (h : Homes lay s limbo) (p : ℕ) : s.places p + limbo.count p ≤ 1 := by
  rw [h.places]
  split <;> omega

theorem Homes.move {limbo' : List ℕ} (h : Homes lay s limbo) (hhanded : t.handed = s.handed)
    (hcount : ∀ q, t.places q + limbo'.count q = s.places q + limbo.count q)
    (hfree : t.numFree = t.free.length) : Homes lay t limbo' where
  places q := by
    have htracked : s.Tracked lay q ↔ t.Tracked lay q := by simp only [State.Tracked, hhanded]
    rw [hcount q, h.places q]
    exact if_congr htracked rfl rfl
  nonzero := hhanded ▸ h.nonzero
  numFree := hfree

theorem Homes.active_not_store (h : Homes lay s limbo) (hp : p ∈ s.active) : p ∉ s.store := by
  intro hstore
  have hone := h.le_one p
  have ha := List.count_pos_iff.mpr hp
  have hs := List.count_pos_iff.mpr hstore
  simp only [State.places] at hone
  omega

theorem Homes.active_nodup (h : Homes lay s limbo) : s.active.Nodup := by
  refine List.nodup_iff_count_le_one.mpr fun q => ?_
  have hone := h.le_one q
  simp only [State.places] at hone
  omega

theorem Homes.store_nodup (h : Homes lay s limbo) : s.store.Nodup := by
  refine List.nodup_iff_count_le_one.mpr fun q => ?_
  have hone := h.le_one q
  simp only [State.places] at hone
  omega

theorem Homes.ne_zero (h : Homes lay s limbo) (hp : 0 < s.places p + limbo.count p) : p ≠ 0 := by
  rintro rfl
  rw [h.places] at hp
  split at hp
  · next htracked =>
    rcases htracked with hinit | ⟨hhanded, -⟩
    · have hpos := lay.start_pos
      have hle := lay.start_le
      simp only [Layout.initPages, List.mem_range'_1] at hinit
      omega
    · exact h.nonzero hhanded
  · omega

theorem count_erase_of_mem {l : List ℕ} (hp : p ∈ l) (q : ℕ) :
    (l.erase p).count q + [p].count q = l.count q := by
  have hpos := List.count_pos_iff.mpr hp
  by_cases hq : p = q
  · subst hq
    simp only [List.count_erase_self, List.count_singleton_self]
    omega
  · simp [List.count_erase_of_ne (Ne.symm hq), hq]

-- Storing a page

theorem Slot.other_other (slot : Slot) : slot.other.other = slot := by cases slot <;> rfl

theorem Slot.other_ne (slot : Slot) : slot.other ≠ slot := by cases slot <;> nofun

theorem Slot.eq_or_other (slot slot' : Slot) : slot' = slot ∨ slot' = slot.other := by
  cases slot <;> cases slot' <;> simp [Slot.other]

structure Victim (s : State) (olp : Option ℕ) (p lp : ℕ) : Prop where
  active : p ∈ s.active
  owner : (s.pages p).owner = some lp
  live : s.Live lp
  page : (s.lpage lp).page = p
  swap : (s.lpage lp).swap = false
  other : some lp ≠ olp

theorem Links.victim (h : Links lz s olp och) (hp : p ∈ s.active)
    (ho : (s.pages p).owner = some lp) : Victim s olp p lp := by
  obtain ⟨lp', ho', hlive, hpage, hswap, hother⟩ := h.owned p hp
  obtain rfl : lp = lp' := Option.some.inj (ho.symm.trans ho')
  exact ⟨hp, ho, hlive, hpage, hswap, hother⟩

theorem Victim.ne_of_page {q lq : ℕ} (h : Victim s olp p lp) (hq : q ≠ p)
    (hpage : (s.lpage lq).page = q) : lq ≠ lp := by
  rintro rfl
  exact hq (hpage.symm.trans h.page)

theorem Victim.ne_of_swap {lq : ℕ} (h : Victim s olp p lp) (hswap : (s.lpage lq).swap = true) :
    lq ≠ lp := by
  rintro rfl
  rw [h.swap] at hswap
  cases hswap

/-- Page `p` of `lp` has been compressed into a slot of `target`. -/
structure Stored (lz : Lz4) (s t : State) (och : Option ℕ) (p lp target : ℕ) (slot : Slot) : Prop where
  tasks : t.tasks = s.tasks
  active : t.active = s.active.erase p
  pages : t.pages = Function.update s.pages p { s.pages p with owner := none }
  lpage : t.lpage = Function.update s.lpage lp { s.lpage lp with page := target, swap := true }
  saved : t.saved = Function.update s.saved lp (s.mem p)
  hdr : ∀ ch, ch ≠ target → t.hdr ch = s.hdr ch
  mem : t.mem = Function.update s.mem target ((s.mem target).write
    (slot.offset (lz.compress (s.mem p)).length) (lz.compress (s.mem p)))
  store : ∀ ch, ch ∈ t.store ↔ ch = target ∨ ch ∈ s.store
  filled : (t.hdr target).lp slot = some lp
  len : (t.hdr target).len slot = (lz.compress (s.mem p)).length
  phys : (t.hdr target).phys = target
  rest : target ∉ s.store ∧ (t.hdr target).lp slot.other = none ∨
    target ∈ s.store ∧ (s.hdr target).lp slot = none ∧
      (t.hdr target).lp slot.other = (s.hdr target).lp slot.other ∧
      (t.hdr target).len slot.other = (s.hdr target).len slot.other
  fits : (t.hdr target).len .a + (t.hdr target).len .b ≤ pageSize - chdrSize
  buddy : ∀ ch, ch ∈ t.buddies ↔ ch ∈ t.store ∧ (t.hdr ch).Half ∧ some ch ≠ och
  nodup : t.buddies.Nodup

theorem CHdr.slots_disjoint {h : CHdr} (hfits : h.len .a + h.len .b ≤ pageSize - chdrSize)
    (slot : Slot) :
    slot.offset (h.len slot) + h.len slot ≤ pageSize ∧
    (slot.other.offset (h.len slot.other) + h.len slot.other ≤ slot.offset (h.len slot) ∨
      slot.offset (h.len slot) + h.len slot ≤ slot.other.offset (h.len slot.other)) := by
  simp only [pageSize, chdrSize] at hfits
  cases slot <;> simp only [Slot.offset, Slot.other, pageSize, chdrSize] <;> omega

theorem Stored.filled_target {target : ℕ} {slot : Slot} (h : Links lz s olp och) (hv : Victim s olp p lp)
    (hs : Stored lz s t och p lp target slot) (slot' : Slot) (lq : ℕ)
    (hlq : (t.hdr target).lp slot' = some lq) : Filled lz t olp target slot' lq := by
  have hlive : ∀ q, s.Live q → t.Live q := by simp only [State.Live, hs.tasks]; exact fun _ => id
  obtain ⟨hroom, hapart⟩ := CHdr.slots_disjoint hs.fits slot
  rcases slot.eq_or_other slot' with rfl | rfl
  · obtain rfl : lp = lq := Option.some.inj (hs.filled.symm.trans hlq)
    refine ⟨hlive lp hv.live, ?_, ?_, hv.other, ?_⟩
    · rw [hs.lpage, Function.update_self]
    · rw [hs.lpage, Function.update_self]
    · rw [hs.len] at hroom ⊢
      rw [hs.mem, hs.saved, Function.update_self, Function.update_self]
      exact Block.read_write _ hroom
  · rcases hs.rest with ⟨-, hnone⟩ | ⟨hstore, -, hsame, hlen⟩
    · cases hnone.symm.trans hlq
    · obtain ⟨hl, hpage, hswap, hother, hdata⟩ := h.filled target hstore slot.other lq (hsame ▸ hlq)
      have hne : lq ≠ lp := hv.ne_of_swap hswap
      refine ⟨hlive lq hl, ?_, ?_, hother, ?_⟩
      · rw [hs.lpage, Function.update_of_ne hne, hpage]
      · rw [hs.lpage, Function.update_of_ne hne, hswap]
      · rw [hs.len] at hapart
        rw [hs.mem, hs.saved, Function.update_self, Function.update_of_ne hne,
          Block.read_write_of_disjoint _ hapart, hlen]
        exact hdata

theorem Stored.links {target : ℕ} {slot : Slot} (hh : Homes lay s limbo) (h : Links lz s olp och)
    (hv : Victim s olp p lp) (htarget : target = p ∨ target ∈ s.store)
    (hs : Stored lz s t och p lp target slot) : Links lz t olp och := by
  have hlive : ∀ q, t.Live q ↔ s.Live q := fun q => by simp only [State.Live, hs.tasks]
  have hactive : ∀ q, q ∈ t.active ↔ q ≠ p ∧ q ∈ s.active := fun q => by
    rw [hs.active, hh.active_nodup.mem_erase_iff]
  have hlp : ∀ q, q ≠ lp → t.lpage q = s.lpage q := fun q hq => by
    rw [hs.lpage, Function.update_of_ne hq]
  have hpages : ∀ q, q ≠ p → t.pages q = s.pages q := fun q hq => by
    rw [hs.pages, Function.update_of_ne hq]
  have hnot : ∀ ch ∈ s.store, ch ≠ p := by
    rintro ch hch rfl
    exact hh.active_not_store hv.active hch
  have hself : t.lpage lp = { s.lpage lp with page := target, swap := true } := by
    rw [hs.lpage, Function.update_self]
  constructor
  case owned =>
    intro q hq
    obtain ⟨hqp, hq⟩ := (hactive q).mp hq
    obtain ⟨lq, ho, hl, hpage, hswap, hother⟩ := h.owned q hq
    rw [hpages q hqp]
    refine ⟨lq, ho, (hlive lq).mpr hl, ?_, ?_, hother⟩
    · rw [hlp lq (hv.ne_of_page hqp hpage), hpage]
    · rw [hlp lq (hv.ne_of_page hqp hpage), hswap]
  case idle =>
    intro q hq
    by_cases hqp : q = p
    · rw [hqp, hs.pages, Function.update_self]
    · rw [hpages q hqp]
      exact h.idle q fun hm => hq ((hactive q).mpr ⟨hqp, hm⟩)
  case resident =>
    intro lq hl hother hswap hzero
    have hne : lq ≠ lp := by
      rintro rfl
      rw [hself] at hswap
      cases hswap
    rw [hlp lq hne] at hswap hzero ⊢
    obtain ⟨hm, ho⟩ := h.resident lq ((hlive lq).mp hl) hother hswap hzero
    have hqp : (s.lpage lq).page ≠ p := by
      intro he
      rw [he] at ho
      exact hne (Option.some.inj (ho.symm.trans hv.owner))
    rw [hpages _ hqp]
    exact ⟨(hactive _).mpr ⟨hqp, hm⟩, ho⟩
  case swapped =>
    intro lq hl hother hswap
    by_cases hne : lq = lp
    · subst hne
      rw [hself]
      exact ⟨(hs.store _).mpr (.inl rfl), slot, hs.filled⟩
    · rw [hlp lq hne] at hswap ⊢
      obtain ⟨hm, slot', hslot⟩ := h.swapped lq ((hlive lq).mp hl) hother hswap
      refine ⟨(hs.store _).mpr (.inr hm), ?_⟩
      by_cases htar : (s.lpage lq).page = target
      · -- the slot that was filled was empty before
        rw [htar] at hm hslot ⊢
        rcases hs.rest with ⟨hnew, -⟩ | ⟨-, hempty, hsame, -⟩
        · exact absurd hm hnew
        · rcases slot.eq_or_other slot' with rfl | rfl
          · cases hempty.symm.trans hslot
          · exact ⟨slot.other, hsame.trans hslot⟩
      · rw [hs.hdr _ htar]
        exact ⟨slot', hslot⟩
  case filled =>
    intro ch hch slot' lq hlq
    by_cases hct : ch = target
    · subst hct
      exact hs.filled_target h hv slot' lq hlq
    · have hold := ((hs.store ch).mp hch).resolve_left hct
      rw [hs.hdr ch hct] at hlq
      obtain ⟨hl, hpage, hswap, hother, hdata⟩ := h.filled ch hold slot' lq hlq
      have hne : lq ≠ lp := hv.ne_of_swap hswap
      refine ⟨(hlive lq).mpr hl, by rw [hlp lq hne, hpage], by rw [hlp lq hne, hswap], hother, ?_⟩
      rw [hs.mem, hs.saved, Function.update_of_ne hct, Function.update_of_ne hne, hs.hdr ch hct]
      exact hdata
  case phys =>
    intro ch hch
    by_cases hct : ch = target
    · rw [hct, hs.phys]
    · rw [hs.hdr ch hct, h.phys ch (((hs.store ch).mp hch).resolve_left hct)]
  case fits =>
    intro ch hch
    by_cases hct : ch = target
    · rw [hct]
      exact hs.fits
    · rw [hs.hdr ch hct]
      exact h.fits ch (((hs.store ch).mp hch).resolve_left hct)
  case twice =>
    intro ch hch slot' lq hlq
    by_cases hct : ch = target
    · subst hct
      have hne : ∀ lq, (t.hdr ch).lp slot.other = some lq → lq ≠ lp := by
        intro lq hlq
        rcases hs.rest with ⟨-, hnone⟩ | ⟨hstore, -, hsame, -⟩
        · cases hnone.symm.trans hlq
        · exact hv.ne_of_swap (h.filled ch hstore slot.other lq (hsame ▸ hlq)).swap
      rcases slot.eq_or_other slot' with rfl | rfl
      · obtain rfl : lp = lq := Option.some.inj (hs.filled.symm.trans hlq)
        exact fun hsame => hne lp hsame rfl
      · rw [slot.other_other, hs.filled]
        exact fun hsame => hne lq hlq (Option.some.inj hsame).symm
    · rw [hs.hdr ch hct] at hlq ⊢
      exact h.twice ch (((hs.store ch).mp hch).resolve_left hct) slot' lq hlq
  case used =>
    intro ch hch
    by_cases hct : ch = target
    · exact ⟨slot, by rw [hct, hs.filled]; nofun⟩
    · rw [hs.hdr ch hct]
      exact h.used ch (((hs.store ch).mp hch).resolve_left hct)
  case buddy => exact hs.buddy
  case nodup => exact hs.nodup
  case stored => exact fun ch hch => (hs.store ch).mpr (.inr (h.stored ch hch))

theorem bestBuddy_spec {size best : ℕ} (hb : s.bestBuddy size = some best) :
    best ∈ s.buddies ∧ size ≤ (s.hdr best).left := by
  have key : ∀ (l : List ℕ) (acc : Option ℕ × ℕ),
      (∀ b, acc.1 = some b → b ∈ s.buddies ∧ size ≤ (s.hdr b).left) → (∀ b ∈ l, b ∈ s.buddies) →
      ∀ b, (l.foldl (fun acc cand =>
        let left := (s.hdr cand).left
        if left < size then acc
        else if left - size < acc.2 then (some cand, left - size)
        else acc) acc).1 = some b → b ∈ s.buddies ∧ size ≤ (s.hdr b).left := by
    intro l
    induction l with
    | nil => exact fun acc hacc _ => hacc
    | cons cand l ih =>
      intro acc hacc hl
      refine ih _ (fun b hb => ?_) fun b hb => hl b (List.mem_cons_of_mem _ hb)
      simp only at hb
      split at hb
      · exact hacc b hb
      split at hb
      · cases hb
        exact ⟨hl cand List.mem_cons_self, by omega⟩
      · exact hacc b hb
  exact key s.buddies _ (fun b hb => by cases hb) (fun _ => id) best hb

theorem CHdr.Half.slot_of_a {h : CHdr} (hhalf : h.Half) :
    h.lp (if h.lp .a = none then .a else .b) = none ∧
    h.lp (Slot.other (if h.lp .a = none then .a else .b)) ≠ none ∧
    h.left = pageSize - chdrSize - h.len (Slot.other (if h.lp .a = none then .a else .b)) := by
  obtain ⟨slot, hused, hempty⟩ := hhalf
  cases slot with
  | a =>
    have hsome : (h.lp .a).isSome := Option.isSome_iff_ne_none.mpr hused
    rw [if_neg hused, CHdr.left, if_pos hsome]
    exact ⟨hempty, hused, rfl⟩
  | b =>
    have hnone : h.lp .a = none := hempty
    have hsome : ¬ (h.lp .a).isSome := by simp [hnone]
    rw [if_pos hnone, CHdr.left, if_neg hsome]
    exact ⟨hnone, hused, rfl⟩

theorem storeAlone_stored {out : List UInt8} (hh : Homes lay s limbo) (h : Links lz s olp och)
    (hv : Victim s olp p lp) (hout : out = lz.compress (s.mem p)) (hlen : out.length < maxCompressedSize) :
    Stored lz s ({ s with
      active := s.active.erase p
      saved := Function.update s.saved lp (s.mem p) }.storeAlone p lp out) och p lp p .a := by
  have hstore := hh.active_not_store hv.active
  constructor
  case tasks => rfl
  case active => rfl
  case pages => rfl
  case lpage =>
    simp only [State.storeAlone, hv.page]
  case saved => rfl
  case hdr => exact fun ch hch => Function.update_of_ne hch ..
  case mem =>
    rw [← hout]
    rfl
  case store => exact fun ch => List.mem_cons
  case filled => simp [State.storeAlone]
  case len => simp [State.storeAlone, hout]
  case phys => simp [State.storeAlone]
  case rest => exact .inl ⟨hstore, by simp [State.storeAlone, Slot.other]⟩
  case fits =>
    simp only [maxCompressedSize, pageSize, chdrSize] at hlen
    simp only [State.storeAlone, Function.update_self, pageSize, chdrSize]
    omega
  case buddy =>
    intro ch
    by_cases hch : ch = p
    · subst hch
      have hother : some ch ≠ och := fun he => hstore (h.stored ch he.symm)
      simp only [State.storeAlone, List.mem_cons, true_or, true_iff, Function.update_self]
      exact ⟨trivial, ⟨.a, by simp, rfl⟩, hother⟩
    · simp only [State.storeAlone, List.mem_cons, hch, false_or, Function.update_of_ne hch]
      exact h.buddy ch
  case nodup => exact List.nodup_cons.mpr ⟨fun hm => hstore ((h.buddy p).mp hm).1, h.nodup⟩

theorem storeWith_frame {out : List UInt8} {best : ℕ} (hs : s.storeWith best p lp out = some t) :
    t = { s with
      hdr := t.hdr, mem := t.mem, lpage := t.lpage, pages := t.pages
      buddies := s.buddies.erase best, free := p :: s.free, numFree := s.numFree + 1 } := by
  simp only [State.storeWith] at hs
  generalize (if (s.hdr best).lp .a = none then Slot.a else Slot.b) = slot at hs
  split at hs
  · cases hs
  · cases hs
    rfl

theorem storeWith_stored {out : List UInt8} {best : ℕ} (h : Links lz s olp och)
    (hout : out = lz.compress (s.mem p)) (hbest : best ∈ s.buddies) (hroom : out.length ≤ (s.hdr best).left)
    (hs : { s with
      active := s.active.erase p
      saved := Function.update s.saved lp (s.mem p) }.storeWith best p lp out = some t) :
    Stored lz s t och p lp best (if (s.hdr best).lp .a = none then .a else .b) := by
  obtain ⟨hstore, hhalf, hother⟩ := (h.buddy best).mp hbest
  obtain ⟨hempty, hused, hleft⟩ := hhalf.slot_of_a
  have hfits := h.fits best hstore
  simp only [State.storeWith] at hs
  generalize (if (s.hdr best).lp .a = none then Slot.a else Slot.b) = slot at hs hempty hused hleft ⊢
  split at hs
  · cases hs
  cases hs
  have hne : slot.other ≠ slot := slot.other_ne
  constructor
  case tasks => rfl
  case active => rfl
  case pages => rfl
  case lpage => rfl
  case saved => rfl
  case hdr => exact fun ch hch => Function.update_of_ne hch ..
  case mem =>
    rw [← hout]
  case store =>
    intro ch
    refine ⟨.inr, ?_⟩
    rintro (rfl | hch)
    · exact hstore
    · exact hch
  case filled => simp
  case len => simp [hout]
  case phys =>
    simp only [Function.update_self]
    exact h.phys best hstore
  case rest =>
    refine .inr ⟨hstore, hempty, ?_, ?_⟩
    · simp [Function.update_of_ne hne]
    · simp [Function.update_of_ne hne]
  case fits =>
    simp only [Function.update_self]
    rw [hleft] at hroom
    cases slot with
    | a =>
      simp only [Slot.other] at hroom
      simp only [Function.update_self, ne_eq, reduceCtorEq, not_false_eq_true, Function.update_of_ne]
      omega
    | b =>
      simp only [Slot.other] at hroom
      simp only [Function.update_self, ne_eq, reduceCtorEq, not_false_eq_true, Function.update_of_ne]
      omega
  case buddy =>
    intro ch
    by_cases hch : ch = best
    · subst hch
      simp only [h.nodup.mem_erase_iff, ne_eq, not_true_eq_false, false_and, Function.update_self,
        false_iff, not_and]
      rintro - ⟨slot', hused', hempty'⟩
      simp only at hused' hempty'
      rcases slot.eq_or_other slot' with rfl | rfl
      · rw [Function.update_of_ne hne] at hempty'
        exact absurd hempty' hused
      · rw [slot.other_other, Function.update_self] at hempty'
        cases hempty'
    · simp only [h.nodup.mem_erase_iff, ne_eq, hch, not_false_eq_true, true_and,
        Function.update_of_ne]
      exact h.buddy ch
  case nodup => exact h.nodup.erase best

-- The clock

structure Books (lz : Lz4) (lay : Layout) (s : State) (limbo : List ℕ) (olp och : Option ℕ) : Prop where
  homes : Homes lay s limbo
  links : Links lz s olp och

structure State.Sits (s : State) (lp : ℕ) : Prop where
  swap : (s.lpage lp).swap = false
  active : (s.lpage lp).page ∈ s.active
  owner : (s.pages (s.lpage lp).page).owner = some lp

/-- What taking a free page leaves as it is: everything but active pages, the logical pages
    in them, and headers on the buddy list. The contents of a page in memory stay, there or
    as what was saved. -/
structure Kept (s t : State) : Prop where
  tasks : t.tasks = s.tasks
  handed : t.handed = s.handed
  unswaps : t.unswaps = s.unswaps
  store : ∀ ch ∈ s.store, ch ∈ t.store
  attr : ∀ lp, (t.lpage lp).lAddr = (s.lpage lp).lAddr ∧ (t.lpage lp).flags = (s.lpage lp).flags
  still : ∀ lp, (s.lpage lp).swap = true ∨ (s.lpage lp).page = 0 →
    t.lpage lp = s.lpage lp ∧ t.saved lp = s.saved lp
  inert : ∀ q, q ∉ s.active → q ∉ s.buddies →
    (q ∉ t.active ∧ q ∉ t.buddies) ∧ t.hdr q = s.hdr q ∧ t.mem q = s.mem q
  sits : ∀ lp, s.Sits lp →
    t.Sits lp ∧ t.lpage lp = s.lpage lp ∧ t.mem (s.lpage lp).page = s.mem (s.lpage lp).page ∨
      (t.lpage lp).swap = true ∧ t.saved lp = s.mem (s.lpage lp).page

structure Replaced (s t : State) : Prop extends Kept s t where
  heap : t.heap = s.heap

theorem Kept.congr (s : State) (ht : t = { s with
      pages := t.pages, hand := t.hand, rights := t.rights, free := t.free, numFree := t.numFree
      replEnable := t.replEnable, reserved := t.reserved, heap := t.heap })
    (hown : ∀ p, (t.pages p).owner = (s.pages p).owner) : Kept s t := by
  rw [ht]
  exact ⟨rfl, rfl, rfl, fun _ => id, fun _ => ⟨rfl, rfl⟩, fun _ _ => ⟨rfl, rfl⟩,
    fun _ ha hb => ⟨⟨ha, hb⟩, rfl, rfl⟩,
    fun lp h => .inl ⟨⟨h.swap, h.active, (hown _).trans h.owner⟩, rfl, rfl⟩⟩

theorem Kept.trans (h : Kept s t) (h' : Kept t u) : Kept s u where
  tasks := h'.tasks.trans h.tasks
  handed := h'.handed.trans h.handed
  unswaps := h'.unswaps.trans h.unswaps
  store ch hch := h'.store ch (h.store ch hch)
  attr lp := ⟨(h'.attr lp).1.trans (h.attr lp).1, (h'.attr lp).2.trans (h.attr lp).2⟩
  still lp hlp := by
    obtain ⟨hl, hsaved⟩ := h.still lp hlp
    obtain ⟨hl', hsaved'⟩ := h'.still lp (by rwa [hl])
    exact ⟨hl'.trans hl, hsaved'.trans hsaved⟩
  inert q ha hb := by
    obtain ⟨⟨ha', hb'⟩, hhdr, hmem⟩ := h.inert q ha hb
    obtain ⟨hnot, hhdr', hmem'⟩ := h'.inert q ha' hb'
    exact ⟨hnot, hhdr'.trans hhdr, hmem'.trans hmem⟩
  sits lp hlp := by
    rcases h.sits lp hlp with ⟨hsits, hl, hmem⟩ | ⟨hswap, hsaved⟩
    · have hnext := h'.sits lp hsits
      rw [hl, hmem] at hnext
      exact hnext
    · obtain ⟨hl, hsaved'⟩ := h'.still lp (.inl hswap)
      exact .inr ⟨by rw [hl, hswap], hsaved'.trans hsaved⟩

theorem Replaced.refl (s : State) : Replaced s s := ⟨.congr s rfl fun _ => rfl, rfl⟩

theorem Replaced.trans (h : Replaced s t) (h' : Replaced t u) : Replaced s u :=
  ⟨h.toKept.trans h'.toKept, h'.heap.trans h.heap⟩

theorem Links.congr (h : Links lz s olp och)
    (ht : t = { s with
      pages := t.pages, mem := t.mem, lpage := t.lpage, tasks := t.tasks, heap := t.heap
      free := t.free, numFree := t.numFree, hand := t.hand, rights := t.rights
      replEnable := t.replEnable, reserved := t.reserved, handed := t.handed, unswaps := t.unswaps })
    (hown : ∀ p, (t.pages p).owner = (s.pages p).owner) (hlive : ∀ lp, t.Live lp ↔ s.Live lp)
    (hlp : ∀ lp, s.Live lp → (t.lpage lp).page = (s.lpage lp).page ∧
      (t.lpage lp).swap = (s.lpage lp).swap)
    (hmem : ∀ ch ∈ s.store, t.mem ch = s.mem ch) : Links lz t olp och := by
  have hactive : t.active = s.active := by rw [ht]
  have hstore : t.store = s.store := by rw [ht]
  have hhdr : t.hdr = s.hdr := by rw [ht]
  have hbuddies : t.buddies = s.buddies := by rw [ht]
  have hsaved : t.saved = s.saved := by rw [ht]
  constructor
  case owned =>
    intro p hp
    obtain ⟨lp, ho, hl, hpage, hswap, hother⟩ := h.owned p (hactive ▸ hp)
    exact ⟨lp, (hown p).trans ho, (hlive lp).mpr hl, (hlp lp hl).1.trans hpage,
      (hlp lp hl).2.trans hswap, hother⟩
  case idle => exact fun p hp => (hown p).trans (h.idle p (hactive ▸ hp))
  case resident =>
    intro lp hl hother hswap hzero
    have hl' := (hlive lp).mp hl
    rw [(hlp lp hl').2] at hswap
    rw [(hlp lp hl').1] at hzero ⊢
    rw [hown, hactive]
    exact h.resident lp hl' hother hswap hzero
  case swapped =>
    intro lp hl hother hswap
    have hl' := (hlive lp).mp hl
    rw [(hlp lp hl').2] at hswap
    rw [(hlp lp hl').1, hstore, hhdr]
    exact h.swapped lp hl' hother hswap
  case filled =>
    intro ch hch slot lp hslot
    rw [hstore] at hch
    rw [hhdr] at hslot
    obtain ⟨hl, hpage, hswap, hother, hdata⟩ := h.filled ch hch slot lp hslot
    refine ⟨(hlive lp).mpr hl, (hlp lp hl).1.trans hpage, (hlp lp hl).2.trans hswap, hother, ?_⟩
    rw [hmem ch hch, hhdr, hsaved, hdata]
  case phys => simpa only [hstore, hhdr] using h.phys
  case fits => simpa only [hstore, hhdr] using h.fits
  case twice => simpa only [hstore, hhdr] using h.twice
  case used => simpa only [hstore, hhdr] using h.used
  case buddy => simpa only [hstore, hhdr, hbuddies] using h.buddy
  case nodup => simpa only [hbuddies] using h.nodup
  case stored => simpa only [hstore] using h.stored

theorem Books.congr (h : Books lz lay s limbo olp och)
    (ht : t = { s with
      pages := t.pages, hand := t.hand, rights := t.rights
      replEnable := t.replEnable, reserved := t.reserved })
    (hown : ∀ p, (t.pages p).owner = (s.pages p).owner) : Books lz lay t limbo olp och := by
  have hplaces : t.places = s.places := by
    rw [ht]
    rfl
  refine ⟨h.homes.move (by rw [ht]) (fun q => by rw [hplaces]) ?_,
    h.links.congr (by rw [ht]) hown (fun lp => ?_) (fun lp _ => ?_) fun ch _ => ?_⟩
  · rw [ht]
    exact h.homes.numFree
  · rw [ht]
    rfl
  · rw [ht]
    exact ⟨rfl, rfl⟩
  · rw [ht]

theorem Replaced.congr (s : State) (ht : t = { s with
      pages := t.pages, hand := t.hand, rights := t.rights
      replEnable := t.replEnable, reserved := t.reserved })
    (hown : ∀ p, (t.pages p).owner = (s.pages p).owner) : Replaced s t :=
  ⟨.congr s (by rw [ht]) hown, by rw [ht]⟩

theorem Stored.replaced {target : ℕ} {slot : Slot} (hh : Homes lay s limbo) (h : Links lz s olp och)
    (hv : Victim s olp p lp) (htarget : target = p ∨ target ∈ s.buddies)
    (hs : Stored lz s t och p lp target slot) (hheap : t.heap = s.heap) (hhanded : t.handed = s.handed)
    (hun : t.unswaps = s.unswaps) (hbud : ∀ q ∈ t.buddies, q = p ∨ q ∈ s.buddies) : Replaced s t := by
  have hp0 : p ≠ 0 := by
    refine hh.ne_zero ?_
    have := List.count_pos_iff.mpr hv.active
    simp only [State.places]
    omega
  refine ⟨⟨hs.tasks, hhanded, hun, fun ch hch => (hs.store ch).mpr (.inr hch), fun q => ?_,
    fun q hq => ?_, fun q ha hb => ?_, fun q hq => ?_⟩, hheap⟩
  · rw [hs.lpage]
    by_cases hq : q = lp
    · subst hq
      simp
    · simp [Function.update_of_ne hq]
  · have hne : q ≠ lp := by
      rintro rfl
      rcases hq with hswap | hpage
      · exact hv.ne_of_swap hswap rfl
      · exact hp0 (hv.page.symm.trans hpage)
    rw [hs.lpage, hs.saved, Function.update_of_ne hne, Function.update_of_ne hne]
    exact ⟨rfl, rfl⟩
  · have hqp : q ≠ p := by
      rintro rfl
      exact ha hv.active
    have hqt : q ≠ target := by
      rintro rfl
      exact htarget.elim hqp hb
    refine ⟨⟨?_, fun hm => (hbud q hm).elim hqp hb⟩, hs.hdr q hqt, ?_⟩
    · rw [hs.active]
      exact fun hm => ha (List.mem_of_mem_erase hm)
    · rw [hs.mem, Function.update_of_ne hqt]
  · by_cases hql : q = lp
    · subst hql
      refine .inr ⟨by rw [hs.lpage, Function.update_self], ?_⟩
      rw [hs.saved, Function.update_self, hv.page]
    · -- another page in memory is neither the one that is replaced nor one on the buddy list
      have hqp : (s.lpage q).page ≠ p := by
        intro he
        have ho := hq.owner
        rw [he, hv.owner] at ho
        exact hql (Option.some.inj ho).symm
      have hqt : (s.lpage q).page ≠ target := by
        rcases htarget with rfl | hbuddy
        · exact hqp
        · intro he
          exact hh.active_not_store hq.active (he ▸ ((h.buddy target).mp hbuddy).1)
      have hl : t.lpage q = s.lpage q := by rw [hs.lpage, Function.update_of_ne hql]
      refine .inl ⟨⟨by rw [hl, hq.swap], ?_, ?_⟩, hl, by rw [hs.mem, Function.update_of_ne hqt]⟩
      · rw [hl, hs.active]
        exact (List.mem_erase_of_ne hqp).mpr hq.active
      · rw [hl, hs.pages, Function.update_of_ne hqp, hq.owner]

theorem replaceActivePage_spec {ok : Bool} (h : Books lz lay s limbo olp och) (hp : p ∈ s.active)
    (hs : s.replaceActivePage lz p = some (t, ok)) :
    Books lz lay t limbo olp och ∧ Replaced s t ∧ (∀ q ∈ s.active, q ≠ p → q ∈ t.active) := by
  obtain ⟨hh, hl⟩ := h
  simp only [State.replaceActivePage] at hs
  split at hs
  · cases hs
  next lp ho =>
  have hv := hl.victim hp ho
  split at hs
  · cases hs
    exact ⟨⟨hh, hl⟩, .refl s, fun q hq _ => hq⟩
  split at hs
  · cases hs
  next hlen _ =>
  have hcount := count_erase_of_mem hp
  split at hs
  · cases hs
    have hst := storeAlone_stored hh hl hv rfl (Nat.lt_of_not_le hlen)
    refine ⟨⟨hh.move rfl (fun q => ?_) hh.numFree, hst.links hh hl hv (.inl rfl)⟩,
      hst.replaced hh hl hv (.inl rfl) rfl rfl rfl fun q hq => List.mem_cons.mp hq,
      fun q hq hqp => ?_⟩
    · have := hcount q
      simp only [State.places, State.heapPages, State.storeAlone, List.count_cons, List.count_nil] at this ⊢
      omega
    · exact (List.mem_erase_of_ne hqp).mpr hq
  · next best hbest =>
    obtain ⟨u, hu, he⟩ := Option.map_eq_some_iff.mp hs
    cases he
    obtain ⟨hbud, hroom⟩ := bestBuddy_spec hbest
    have hst := storeWith_stored hl rfl hbud hroom hu
    have hbest' := ((hl.buddy best).mp hbud).1
    have hf := storeWith_frame hu
    refine ⟨⟨hh.move (by rw [hf]) (fun q => ?_) ?_, hst.links hh hl hv (.inr hbest')⟩,
      hst.replaced hh hl hv (.inr hbud) (by rw [hf]) (by rw [hf]) (by rw [hf]) fun q hq => ?_,
      fun q hq hqp => ?_⟩
    · have := hcount q
      rw [hf]
      simp only [State.places, State.heapPages, List.count_cons, List.count_nil] at this ⊢
      omega
    · rw [hf, List.length_cons, hh.numFree]
    · rw [hf] at hq
      exact .inr (List.mem_of_mem_erase hq)
    · rw [hf]
      exact (List.mem_erase_of_ne hqp).mpr hq

theorem setPage_owner {pp : PPage} (hpp : pp.owner = (s.pages p).owner) (q : ℕ) :
    ((s.setPage p pp).pages q).owner = (s.pages q).owner := by
  by_cases hq : q = p
  · subst hq
    simp [State.setPage, hpp]
  · simp [State.setPage, Function.update_of_ne hq]

theorem replaceOne_spec {rights : ℕ} {ok : Bool} (h : Books lz lay s limbo olp och) (hp : p ∈ s.active)
    (hs : s.replaceOne lz p rights = some (t, ok)) :
    Books lz lay t limbo olp och ∧ Replaced s t ∧ (∀ q ∈ s.active, q ≠ p → q ∈ t.active) := by
  have hset : ∀ (u : State) (pp : PPage), pp.owner = (u.pages p).owner →
      ∀ q, ((u.setPage p pp).pages q).owner = (u.pages q).owner := fun _ _ hpp => setPage_owner hpp
  simp only [State.replaceOne] at hs
  split at hs
  · cases hs
    exact ⟨h.congr rfl (hset s _ rfl), .congr s rfl (hset s _ rfl), fun q hq _ => hq⟩
  split at hs
  · cases hs
    exact ⟨h.congr rfl (hset s _ rfl), .congr s rfl (hset s _ rfl), fun q hq _ => hq⟩
  split at hs
  · cases hs
  split at hs
  · cases hs
    exact ⟨h, .refl s, fun q hq _ => hq⟩
  split at hs
  · cases hs
  · next u hu =>
    cases hs
    obtain ⟨hb, hr, hactive⟩ := replaceActivePage_spec h hp hu
    exact ⟨hb.congr rfl (hset u _ rfl), hr.trans (.congr u rfl (hset u _ rfl)), hactive⟩
  · next u hu =>
    cases hs
    obtain ⟨hb, hr, hactive⟩ := replaceActivePage_spec h hp hu
    exact ⟨hb.congr rfl fun _ => rfl, hr.trans (.congr u rfl fun _ => rfl), hactive⟩

theorem replaceEach_spec {ps rights : List ℕ} {freed n : ℕ} (h : Books lz lay s limbo olp och)
    (hps : ∀ p ∈ ps, p ∈ s.active) (hnodup : ps.Nodup)
    (hs : s.replaceEach lz ps rights freed = some (t, n)) :
    Books lz lay t limbo olp och ∧ Replaced s t := by
  induction ps generalizing s rights freed with
  | nil =>
    cases hs
    exact ⟨h, .refl _⟩
  | cons p ps ih =>
    simp only [State.replaceEach] at hs
    split at hs
    · cases hs
    next u ok hu =>
    obtain ⟨hnot, hnodup⟩ := List.nodup_cons.mp hnodup
    obtain ⟨hb, hr, hactive⟩ := replaceOne_spec h (hps p List.mem_cons_self) hu
    have hps' : ∀ q ∈ ps, q ∈ u.active := by
      intro q hq
      refine hactive q (hps q (List.mem_cons_of_mem _ hq)) ?_
      rintro rfl
      exact hnot hq
    obtain ⟨hb', hr'⟩ := ih hb hps' hnodup hs
    exact ⟨hb', hr.trans hr'⟩

theorem replacePages_spec {r : ℕ × Bool} (h : Books lz lay s limbo olp och)
    (hs : s.replacePages lz = some (t, r)) : Books lz lay t limbo olp och ∧ Replaced s t := by
  simp only [State.replacePages] at hs
  split at hs
  · next start rights rest _ _ =>
    split at hs
    · split at hs
      · cases hs
      obtain ⟨⟨u, n⟩, hu, he⟩ := Option.map_eq_some_iff.mp hs
      cases he
      have hperm : (s.active.dropWhile (· ≠ start) ++ s.active.takeWhile (· ≠ start)).Perm s.active := by
        refine List.perm_append_comm.trans ?_
        rw [List.takeWhile_append_dropWhile]
      have hb : ∀ hand, Books lz lay { s with hand := hand, rights := rest } limbo olp och :=
        fun hand => h.congr rfl fun _ => rfl
      obtain ⟨hb', hr'⟩ := replaceEach_spec (hb _)
        (fun p hp => hperm.mem_iff.mp (List.mem_of_mem_take hp))
        ((hperm.nodup_iff.mpr h.homes.active_nodup).sublist (List.take_sublist ..)) hu
      refine ⟨hb', Replaced.trans ?_ hr'⟩
      exact .congr s rfl fun _ => rfl
    · cases hs
  · cases hs

theorem replaceLoop_spec {n loops freed : ℕ} (h : Books lz lay s limbo olp och)
    (hs : s.replaceLoop lz n loops freed = some t) : Books lz lay t limbo olp och ∧ Replaced s t := by
  induction n generalizing s loops freed with
  | zero => cases hs
  | succ n ih =>
    simp only [State.replaceLoop] at hs
    split at hs
    · cases hs
      exact ⟨h, .refl _⟩
    split at hs
    · cases hs
    next u k looped hu =>
    obtain ⟨hb, hr⟩ := replacePages_spec h hu
    split at hs
    · split at hs
      · cases hs
        exact ⟨hb, hr⟩
      · obtain ⟨hb', hr'⟩ := ih hb hs
        exact ⟨hb', hr.trans hr'⟩
    · obtain ⟨hb', hr'⟩ := ih hb hs
      exact ⟨hb', hr.trans hr'⟩

theorem Books.take {free : List ℕ} (h : Books lz lay s limbo olp och) (hfree : s.free = p :: free) :
    Books lz lay ({ s with free := free, numFree := s.numFree - 1 }.setPage p { s.pages p with age := 1 })
      (p :: limbo) olp och := by
  obtain ⟨hh, hl⟩ := h
  have hpop : Books lz lay { s with free := free, numFree := s.numFree - 1 } (p :: limbo) olp och := by
    refine ⟨hh.move rfl (fun r => ?_) ?_, ?_⟩
    · simp only [State.places, State.heapPages, hfree, List.count_cons]
      omega
    · simp [hh.numFree, hfree]
    · exact hl.congr rfl (fun _ => rfl) (fun _ => Iff.rfl) (fun _ _ => ⟨rfl, rfl⟩) fun _ _ => rfl
  exact hpop.congr rfl (setPage_owner (s := { s with free := free, numFree := s.numFree - 1 }) rfl)

theorem getFreePage_spec (h : Books lz lay s limbo olp och) (hs : s.getFreePage lz = some (t, p)) :
    Books lz lay t (p :: limbo) olp och ∧ Replaced s t ∧ p ∈ s.free := by
  simp only [State.getFreePage] at hs
  split at hs
  · cases hs
  next q free hfree =>
  have hb := h.take hfree
  have hown : ∀ r, (({ s with free := free, numFree := s.numFree - 1 }.setPage q { s.pages q with age := 1 }).pages r).owner =
      (s.pages r).owner := setPage_owner (s := { s with free := free, numFree := s.numFree - 1 }) rfl
  have hr : Replaced s ({ s with free := free, numFree := s.numFree - 1 }.setPage q { s.pages q with age := 1 }) :=
    ⟨.congr s rfl hown, rfl⟩
  have hmem : q ∈ s.free := hfree ▸ List.mem_cons_self
  split at hs
  · split at hs
    · cases hs
    next v hv =>
    obtain ⟨hb', hr'⟩ := replaceLoop_spec hb hv
    split at hs
    · cases hs
    · cases hs
      exact ⟨hb', hr.trans hr', hmem⟩
  · obtain ⟨rfl, rfl⟩ := Prod.mk.inj (Option.some.inj hs)
    exact ⟨hb, hr, hmem⟩

end Sneks.Sysmem
