import Sneks.Lib.Circuit
import Sneks.Sysmem.Swap
import Mathlib.Data.List.TakeWhile
import Mathlib.Tactic.Ring

/-!
# The watermark loop ends

`get_free_page` of `sys/sysmem/sysmem.c` replaces pages until 48 are free, where less than 16 are. A
round looks at up to 64 active pages from the clock's hand on, and takes what unmapping them tells of
their use. The loop gives up after a sweep in which nothing was replaced, but not before the third.

A replaced page leaves the active list, also where it is not free afterwards. Otherwise the hand comes
nearer to the end of the list, and where it comes around a sweep is done. So the loop ends, whatever
the pages' use is.
-/

namespace Sneks.Sysmem
open Lib

def Lz4.Compresses (lz : Lz4) : Prop := ∀ page, lz.compress page ≠ []

/-- How the loop of `get_free_page` ends: it is left, or the active list is drained, which is a panic.
    `failed` is an assertion or `abort()`, and `unanswered` a lack of answers. -/
inductive WatermarkEnd
  | left (s : State)
  | drained (s : State)
  | failed
  | unanswered

inductive GetEnd
  | page (s : State) (p : ℕ)
  | panic (s : State)
  | failed
  | unanswered

namespace State

variable (lz : Lz4) (s : State)

def startHand : Option ℕ :=
  match s.hand with
  | some p => if (s.pages p).owner.isNone then s.active.head? else some p
  | none => s.active.head?

def watermark : ℕ → ℕ → ℕ → State → WatermarkEnd
  | 0, _, _, _ => .unanswered
  | n + 1, loops, loopFreed, s =>
    if 48 ≤ s.numFree then .left s
    else if s.startHand = none then .drained s
    else if s.rights = [] then .unanswered
    else
      match s.replacePages lz with
      | none => .failed
      | some (s, freed, looped) =>
        if looped then
          if 1 < loops ∧ loopFreed + freed = 0 then .left s
          else watermark n (loops + 1) 0 s
        else watermark n loops (loopFreed + freed) s

def taken (p : ℕ) (free : List ℕ) : State :=
  { s with free := free, numFree := s.numFree - 1 }.setPage p { s.pages p with age := 1 }

def takeFreePage : GetEnd :=
  match s.free with
  | [] => .panic s
  | p :: free =>
    let s := s.taken p free
    if s.replEnable ∧ s.numFree < 16 then
      match s.watermark lz (s.rights.length + 1) 0 0 with
      | .left s => if s.numFree < 16 then .panic s else .page s p
      | .drained s => .panic s
      | .failed => .failed
      | .unanswered => .unanswered
    else .page s p

def toEnd : ℕ :=
  match s.startHand with
  | some start => (s.active.dropWhile (· ≠ start)).length
  | none => 0

end State

structure Clock (s : State) : Prop where
  nodup : s.active.Nodup
  owned : ∀ p ∈ s.active, (s.pages p).owner.isSome = true
  hand : ∀ p, s.hand = some p → (s.pages p).owner.isSome = true → p ∈ s.active

structure Untouched (s t : State) (p : ℕ) : Prop where
  page : t.pages p = s.pages p
  active : p ∈ t.active ↔ p ∈ s.active
  free : p ∈ t.free ↔ p ∈ s.free
  store : p ∈ t.store ↔ p ∈ s.store

variable {lz : Lz4} {lay : Layout} {s t u : State} {limbo : List ℕ} {olp och : Option ℕ} {p q : ℕ}

theorem Untouched.refl (s : State) (p : ℕ) : Untouched s s p := ⟨rfl, Iff.rfl, Iff.rfl, Iff.rfl⟩

theorem Untouched.trans (h : Untouched s t p) (h' : Untouched t u p) : Untouched s u p :=
  ⟨h'.page.trans h.page, h'.active.trans h.active, h'.free.trans h.free, h'.store.trans h.store⟩

theorem Books.free_not_active (h : Books lz lay s limbo olp och) : ∀ p ∈ s.free, p ∉ s.active := by
  intro p hfree hactive
  have hone := h.homes.le_one p
  have hf := List.count_pos_iff.mpr hfree
  have ha := List.count_pos_iff.mpr hactive
  simp only [State.places] at hone
  omega

theorem Books.clock (h : Books lz lay s limbo olp och) : Clock s where
  nodup := h.homes.active_nodup
  owned p hp := by
    obtain ⟨lp, ho, -⟩ := h.links.owned p hp
    rw [ho]
    rfl
  hand p _ ho := by
    by_contra hnot
    rw [h.links.idle p hnot] at ho
    cases ho

theorem replacePages_none (h : s.startHand = none ∨ s.rights = []) : s.replacePages lz = none := by
  simp only [State.replacePages]
  split
  · next start answers rest hstart hrights =>
    obtain h | h := h
    · cases h.symm.trans hstart
    · cases h.symm.trans hrights
  · rfl

theorem watermark_left_iff {n loops loopFreed : ℕ} :
    s.watermark lz n loops loopFreed = .left t ↔ s.replaceLoop lz n loops loopFreed = some t := by
  induction n generalizing s loops loopFreed with
  | zero => exact iff_of_false (by rintro ⟨⟩) (by rintro ⟨⟩)
  | succ n ih =>
    simp only [State.watermark, State.replaceLoop]
    split
    · rw [WatermarkEnd.left.injEq, Option.some.injEq]
    split
    · next hstart =>
      rw [replacePages_none (.inl hstart)]
      exact iff_of_false (by rintro ⟨⟩) (by rintro ⟨⟩)
    split
    · next hrights =>
      rw [replacePages_none (.inr hrights)]
      exact iff_of_false (by rintro ⟨⟩) (by rintro ⟨⟩)
    cases s.replacePages lz with
    | none => exact iff_of_false (by rintro ⟨⟩) (by rintro ⟨⟩)
    | some r =>
      obtain ⟨u, k, looped⟩ := r
      simp only
      split
      · split
        · rw [WatermarkEnd.left.injEq, Option.some.injEq]
        · exact ih
      · exact ih

theorem replaceLoop_none {n loops loopFreed : ℕ} (h : ∀ t, s.watermark lz n loops loopFreed ≠ .left t) :
    s.replaceLoop lz n loops loopFreed = none :=
  Option.eq_none_iff_forall_ne_some.mpr fun t ht => h t (watermark_left_iff.mpr ht)

theorem takeFreePage_page_iff : s.takeFreePage lz = .page t p ↔ s.getFreePage lz = some (t, p) := by
  cases hfree : s.free with
  | nil =>
    simp only [State.takeFreePage, State.getFreePage, hfree]
    exact iff_of_false (by rintro ⟨⟩) (by rintro ⟨⟩)
  | cons q free =>
    have htaken : { s with free := free, numFree := s.numFree - 1 }.setPage q { s.pages q with age := 1 } =
      s.taken q free := rfl
    simp only [State.takeFreePage, State.getFreePage, hfree, htaken]
    split
    · cases hend : (s.taken q free).watermark lz ((s.taken q free).rights.length + 1) 0 0 with
      | left u =>
        rw [watermark_left_iff.mp hend]
        simp only
        split
        · exact iff_of_false (by rintro ⟨⟩) (by rintro ⟨⟩)
        · rw [GetEnd.page.injEq, Option.some.injEq, Prod.mk.injEq]
      | drained u =>
        rw [replaceLoop_none fun t => by rw [hend]; rintro ⟨⟩]
        exact iff_of_false (by rintro ⟨⟩) (by rintro ⟨⟩)
      | failed =>
        rw [replaceLoop_none fun t => by rw [hend]; rintro ⟨⟩]
        exact iff_of_false (by rintro ⟨⟩) (by rintro ⟨⟩)
      | unanswered =>
        rw [replaceLoop_none fun t => by rw [hend]; rintro ⟨⟩]
        exact iff_of_false (by rintro ⟨⟩) (by rintro ⟨⟩)
    · rw [GetEnd.page.injEq, Option.some.injEq, Prod.mk.injEq]

-- A round

structure Turned (s t : State) (p : ℕ) (replaced : Bool) : Prop where
  clock : Clock t
  rights : t.rights = s.rights
  others : ∀ q, q ≠ p → Untouched s t q
  active : t.active = if replaced then s.active.erase p else s.active
  still : replaced = false → t.hand = s.hand ∧ ∀ q, (t.pages q).owner = (s.pages q).owner

theorem Slot.not_offset_lt {len : ℕ} (hlen : len < maxCompressedSize) (slot : Slot) : ¬ slot.offset len < chdrSize := by
  simp only [maxCompressedSize, pageSize, chdrSize] at hlen
  cases slot <;> simp only [Slot.offset, chdrSize, pageSize] <;> omega

theorem replaceActivePage_turned (lz : Lz4) (h : Clock s) (hp : p ∈ s.active) :
    s.replaceActivePage lz p = none ∧ lz.compress (s.mem p) = [] ∨ s.replaceActivePage lz p = some (s, false) ∨
      ∃ t, s.replaceActivePage lz p = some (t, true) ∧
        t.rights = s.rights ∧ t.hand = s.hand ∧ t.active = s.active.erase p ∧
        t.pages p = { s.pages p with owner := none } ∧ ∀ q, q ≠ p → Untouched s t q := by
  obtain ⟨lp, ho⟩ := Option.isSome_iff_exists.mp (h.owned p hp)
  have hactive : ∀ q, q ≠ p → (q ∈ s.active.erase p ↔ q ∈ s.active) := fun q hq => List.mem_erase_of_ne hq
  simp only [State.replaceActivePage, ho, List.length_eq_zero_iff]
  split
  · exact .inr (.inl rfl)
  next hlen =>
  split
  · next hnil => exact .inl ⟨rfl, hnil⟩
  refine .inr (.inr ?_)
  split
  · refine ⟨_, rfl, rfl, rfl, rfl, by simp [State.storeAlone], fun q hq => ⟨?_, hactive q hq, Iff.rfl, ?_⟩⟩
    · simp [State.storeAlone, Function.update_of_ne hq]
    · simp [State.storeAlone, hq]
  next best _ =>
  simp only [State.storeWith, if_neg (Slot.not_offset_lt (Nat.not_le.mp hlen) _), Option.map_some]
  refine ⟨_, rfl, rfl, rfl, rfl, by simp, fun q hq => ⟨?_, hactive q hq, ?_, Iff.rfl⟩⟩
  · simp [Function.update_of_ne hq]
  · simp [hq]

theorem setPage_turned {pp : PPage} (h : Clock s) (ho : pp.owner = (s.pages p).owner) :
    Turned s (s.setPage p pp) p false := by
  have hown := setPage_owner ho
  refine ⟨⟨h.nodup, fun q hq => ?_, fun q hq hsome => h.hand q hq (hown q ▸ hsome)⟩, rfl, fun q hq => ?_, rfl,
    fun _ => ⟨rfl, hown⟩⟩
  · rw [hown]
    exact h.owned q hq
  · exact ⟨Function.update_of_ne hq .., Iff.rfl, Iff.rfl, Iff.rfl⟩

theorem listNext_mem {l : List ℕ} (h : listNext l p = some q) : q ∈ l :=
  (List.dropWhile_sublist _).subset (List.mem_of_mem_tail (List.mem_of_mem_head? h))

theorem replaceOne_turned (lz : Lz4) (h : Clock s) (hp : p ∈ s.active) (rights : ℕ) :
    s.replaceOne lz p rights = none ∧ lz.compress (s.mem p) = [] ∨
      ∃ t replaced, s.replaceOne lz p rights = some (t, replaced) ∧ Turned s t p replaced := by
  obtain ⟨lp, ho⟩ := Option.isSome_iff_exists.mp (h.owned p hp)
  simp only [State.replaceOne, ho]
  split
  · exact .inr ⟨_, false, rfl, setPage_turned h ho.symm⟩
  split
  · exact .inr ⟨_, false, rfl, setPage_turned h ho.symm⟩
  split
  · exact .inr ⟨s, false, rfl, h, rfl, fun q _ => .refl s q, rfl, fun _ => ⟨rfl, fun _ => rfl⟩⟩
  obtain ⟨hfail, hnil⟩ | hkeep | ⟨t, hs, hrights, hhand, hactive, hpage, hothers⟩ := replaceActivePage_turned lz h hp
  · rw [hfail]
    exact .inl ⟨rfl, hnil⟩
  · rw [hkeep]
    exact .inr ⟨_, false, rfl, setPage_turned h rfl⟩
  · rw [hs]
    refine .inr ⟨_, true, rfl, ⟨?_, fun q hq => ?_, fun q hq hsome => ?_⟩, hrights,
      fun q hq => ⟨(hothers q hq).page, (hothers q hq).active, (hothers q hq).free, (hothers q hq).store⟩, hactive, by rintro ⟨⟩⟩
    · rw [hactive]
      exact h.nodup.erase p
    · have hqp : q ≠ p := fun he => by
        rw [hactive, he] at hq
        exact h.nodup.not_mem_erase hq
      rw [(hothers q hqp).page]
      exact h.owned q ((hothers q hqp).active.mp hq)
    · have hqp : q ≠ p := fun he => by
        rw [he, hpage] at hsome
        cases hsome
      refine (hothers q hqp).active.mpr ?_
      rw [hhand] at hq
      simp only at hq
      split at hq
      · -- the hand was at the page, and has gone on
        cases hnext : listNext s.active p with
        | some r =>
          rw [hnext] at hq
          cases hq
          exact listNext_mem hnext
        | none =>
          rw [hnext] at hq
          have hmem : q ∈ t.active := List.mem_of_mem_head? hq
          exact (hothers q hqp).active.mp hmem
      · refine h.hand q hq ?_
        rw [← (hothers q hqp).page]
        exact hsome

/-- What looking at some pages does, where `k` of them are replaced. -/
structure Looked (s t : State) (ps : List ℕ) (k : ℕ) : Prop where
  clock : Clock t
  rights : t.rights = s.rights
  others : ∀ q, q ∉ ps → Untouched s t q
  length : t.active.length + k = s.active.length
  still : k = 0 → t.active = s.active ∧ t.hand = s.hand ∧ ∀ q, (t.pages q).owner = (s.pages q).owner

theorem Turned.looked {replaced : Bool} (h : Turned s t p replaced) (hp : p ∈ s.active) :
    Looked s t [p] replaced.toNat where
  clock := h.clock
  rights := h.rights
  others q hq := h.others q (List.ne_of_not_mem_cons hq)
  length := by
    rw [h.active]
    cases replaced with
    | false => rfl
    | true =>
      have hlen := List.length_erase_of_mem hp
      have hpos := List.length_pos_of_mem hp
      simp only [if_true, Bool.toNat_true]
      omega
  still hk := by
    cases replaced with
    | false => exact ⟨h.active, h.still rfl⟩
    | true => cases hk

theorem Looked.trans {ps qs : List ℕ} {k l : ℕ} (h : Looked s t ps k) (h' : Looked t u qs l) :
    Looked s u (ps ++ qs) (k + l) where
  clock := h'.clock
  rights := h'.rights.trans h.rights
  others q hq := by
    rw [List.mem_append, not_or] at hq
    exact (h.others q hq.1).trans (h'.others q hq.2)
  length := by
    have := h.length
    have := h'.length
    omega
  still hk := by
    obtain ⟨ha, hh, ho⟩ := h.still (by omega)
    obtain ⟨ha', hh', ho'⟩ := h'.still (by omega)
    exact ⟨ha'.trans ha, hh'.trans hh, fun q => (ho' q).trans (ho q)⟩

theorem replaceEach_looked (hz : lz.Compresses) {ps : List ℕ} (rights : List ℕ) (n : ℕ) (h : Clock s)
    (hps : ∀ p ∈ ps, p ∈ s.active) (hnodup : ps.Nodup) :
    ∃ t k, s.replaceEach lz ps rights n = some (t, n + k) ∧ Looked s t ps k := by
  induction ps generalizing s rights n with
  | nil => exact ⟨s, 0, rfl, h, rfl, fun q _ => .refl s q, rfl, fun _ => ⟨rfl, rfl, fun _ => rfl⟩⟩
  | cons p ps ih =>
    obtain ⟨hnot, hnodup⟩ := List.nodup_cons.mp hnodup
    have hp := hps p List.mem_cons_self
    obtain ⟨t, replaced, ht, hturned⟩ :=
      (replaceOne_turned lz h hp (rights.headD 0)).resolve_left fun hfail => hz (s.mem p) hfail.2
    have hrest : ∀ q ∈ ps, q ∈ t.active := by
      intro q hq
      have hne : q ≠ p := fun he => hnot (he ▸ hq)
      exact (hturned.others q hne).active.mpr (hps q (List.mem_cons_of_mem _ hq))
    obtain ⟨u, k, hu, hlooked⟩ := ih rights.tail (n + replaced.toNat) hturned.clock hrest hnodup
    refine ⟨u, replaced.toNat + k, ?_, (hturned.looked hp).trans hlooked⟩
    simp only [State.replaceEach, ht]
    rw [hu, Nat.add_assoc]

theorem Clock.start_mem (h : Clock s) (hs : s.startHand = some p) : p ∈ s.active := by
  simp only [State.startHand] at hs
  split at hs
  · next hhand =>
    split at hs
    · exact List.mem_of_mem_head? hs
    · next ho =>
      cases hs
      exact h.hand p hhand (by simpa [Option.isSome_iff_ne_none] using ho)
  · exact List.mem_of_mem_head? hs

theorem Clock.toEnd_le (s : State) : s.toEnd ≤ s.active.length := by
  simp only [State.toEnd]
  split
  · exact (List.dropWhile_sublist _).length_le
  · exact Nat.zero_le _

theorem Clock.toEnd_pos (h : Clock s) (hs : s.startHand = some p) : 0 < s.toEnd := by
  simp only [State.toEnd, hs]
  rw [List.length_pos_iff, Ne, List.dropWhile_eq_nil_iff]
  intro hall
  simpa using hall p (h.start_mem hs)

theorem dropWhile_lt {l : List ℕ} (hnodup : l.Nodup) (hq : q ∈ (l.dropWhile (· ≠ p)).tail) :
    (l.dropWhile (· ≠ q)).length < (l.dropWhile (· ≠ p)).length := by
  induction l with
  | nil => cases hq
  | cons a l ih =>
    obtain ⟨hnot, hnodup⟩ := List.nodup_cons.mp hnodup
    have hskip : q ∈ l → (a :: l).dropWhile (· ≠ q) = l.dropWhile (· ≠ q) := by
      intro hmem
      have hne : a ≠ q := fun he => hnot (he ▸ hmem)
      simp [hne]
    by_cases ha : a = p
    · have hall : (a :: l).dropWhile (· ≠ p) = a :: l := by simp [ha]
      rw [hall] at hq ⊢
      rw [hskip hq]
      exact Nat.lt_succ_of_le (List.dropWhile_sublist _).length_le
    · have hrest : (a :: l).dropWhile (· ≠ p) = l.dropWhile (· ≠ p) := by simp [ha]
      rw [hrest] at hq ⊢
      rw [hskip ((List.dropWhile_sublist _).subset (List.mem_of_mem_tail hq))]
      exact ih hnodup hq

structure Rounded (s t : State) (k : ℕ) (looped : Bool) : Prop where
  clock : Clock t
  rights : t.rights = s.rights.tail
  others : ∀ q, q ∉ s.active → Untouched s t q
  length : t.active.length + k = s.active.length
  nearer : k = 0 → looped = false → t.toEnd < s.toEnd

theorem Clock.seen (h : Clock s) (p n : ℕ) :
    (∀ q ∈ (circuit s.active p).take n, q ∈ s.active) ∧ ((circuit s.active p).take n).Nodup := by
  have hperm := circuit_perm s.active p
  exact ⟨fun q hq => hperm.mem_iff.mp (List.mem_of_mem_take hq),
    (hperm.nodup_iff.mpr h.nodup).sublist (List.take_sublist ..)⟩

theorem replacePages_eq (lz : Lz4) (h : Clock s) (hs : s.startHand = some p) {answer : List ℕ} {rest : List (List ℕ)}
    (hr : s.rights = answer :: rest) :
    let seen := (circuit s.active p).take 64
    s.replacePages lz = (State.replaceEach lz seen answer { s with
      hand := (circuit s.active p)[seen.length % (circuit s.active p).length]?, rights := rest } 0).map fun r =>
        (r.1, r.2, decide ((s.active.dropWhile (· ≠ p)).length ≤ seen.length)) := by
  simp only [State.replacePages]
  split
  · next start answers rest' hstart hrights =>
    obtain rfl : p = start := Option.some.inj (hs.symm.trans hstart)
    cases hr.symm.trans hrights
    rw [if_pos (h.start_mem hs)]
    refine if_neg (Bool.eq_false_iff.mp (List.any_eq_false.mpr fun q hq => ?_))
    have howned := h.owned q ((h.seen p 64).1 q hq)
    rw [Option.isSome_iff_ne_none] at howned
    simpa using howned
  · next hnone => exact absurd hr (hnone p answer rest hs)

theorem replacePages_rounded (hz : lz.Compresses) (h : Clock s) (hs : s.startHand = some p) (hr : s.rights ≠ []) :
    ∃ t k looped, s.replacePages lz = some (t, k, looped) ∧ Rounded s t k looped := by
  have htoEnd : s.toEnd = (s.active.dropWhile (· ≠ p)).length := by simp only [State.toEnd, hs]
  obtain ⟨answers, rest, hrights⟩ := List.exists_cons_of_ne_nil hr
  rw [replacePages_eq lz h hs hrights]
  obtain ⟨hseen, hnodup⟩ := h.seen p 64
  set upper := s.active.dropWhile (· ≠ p)
  set cycle := circuit s.active p
  have hcycle : cycle = upper ++ s.active.takeWhile (· ≠ p) := rfl
  set hand := cycle[(cycle.take 64).length % cycle.length]?
  have hhand : ∀ q, hand = some q → q ∈ s.active := fun q hq =>
    (circuit_perm s.active p).mem_iff.mp (List.mem_of_getElem? hq)
  have hclock : Clock { s with hand := hand, rights := rest } := ⟨h.nodup, h.owned, fun q hq _ => hhand q hq⟩
  obtain ⟨t, k, ht, hlooked⟩ := replaceEach_looked hz answers 0 hclock hseen hnodup
  rw [ht, Option.map_some, Nat.zero_add]
  refine ⟨t, k, _, rfl, hlooked.clock, ?_, fun q hq => ?_, hlooked.length, fun hk hloop => ?_⟩
  · rw [hlooked.rights, hrights, List.tail_cons]
  · have hu := hlooked.others q fun hmem => hq (hseen q hmem)
    exact ⟨hu.page, hu.active, hu.free, hu.store⟩
  · obtain ⟨hactive, hhand', hown⟩ := hlooked.still hk
    rw [decide_eq_false_iff_not, Nat.not_le, List.length_take] at hloop
    have hle : upper.length ≤ cycle.length := by
      rw [hcycle, List.length_append]
      exact Nat.le_add_right _ _
    have h64 : 64 < upper.length := by omega
    -- the hand is 64 pages on
    have hnext : hand = some (upper[64]) := by
      simp only [hand]
      rw [List.length_take, Nat.min_eq_left (by omega), Nat.mod_eq_of_lt (by omega), hcycle,
        List.getElem?_append_left h64, List.getElem?_eq_getElem h64]
    have hmem : upper[64] ∈ upper.tail := by
      refine List.mem_iff_getElem.mpr ⟨63, by rw [List.length_tail]; omega, ?_⟩
      rw [List.getElem_tail]
    have hnow : t.startHand = some (upper[64]) := by
      have howned := h.owned _ (hhand _ hnext)
      rw [← hown, Option.isSome_iff_ne_none] at howned
      simp only [State.startHand, hhand', hnext]
      rw [if_neg (by simpa using howned)]
    rw [htoEnd, State.toEnd, hnow, hactive]
    exact dropWhile_lt h.nodup hmem

-- The loop

def sweeps (loops loopFreed : ℕ) : ℕ := (2 - loops) + if 0 < loopFreed then 1 else 0

def weight (s : State) (loops loopFreed : ℕ) : ℕ :=
  2 * (s.active.length * (s.active.length + 1)) + sweeps loops loopFreed * (s.active.length + 1) + s.toEnd

def roundsBound (n : ℕ) : ℕ := 2 * (n * (n + 1)) + 2 * (n + 1) + n

theorem weight_le (s : State) : weight s 0 0 ≤ roundsBound s.active.length := by
  have hend := Clock.toEnd_le s
  have hsweeps : sweeps 0 0 = 2 := rfl
  simp only [weight, roundsBound, hsweeps]
  omega

theorem sweeps_le (loops loopFreed : ℕ) : sweeps loops loopFreed ≤ 3 := by
  simp only [sweeps]
  split <;> omega

theorem weight_lt_of_length {loops loops' freed freed' : ℕ} (h : t.active.length < s.active.length) :
    weight t loops' freed' < weight s loops freed := by
  have hend := Clock.toEnd_le t
  have hsweeps := Nat.mul_le_mul_right (t.active.length + 1) (sweeps_le loops' freed')
  have hpages : (t.active.length + 1) * (t.active.length + 1 + 1) ≤ s.active.length * (s.active.length + 1) :=
    Nat.mul_le_mul h (Nat.succ_le_succ h)
  have hsquare : (t.active.length + 1) * (t.active.length + 1 + 1) =
      t.active.length * (t.active.length + 1) + 2 * (t.active.length + 1) := by ring
  simp only [weight]
  omega

theorem weight_lt_of_sweeps {loops loops' freed freed' : ℕ} (h : t.active.length = s.active.length)
    (hless : sweeps loops' freed' < sweeps loops freed) : weight t loops' freed' < weight s loops freed := by
  have hend := Clock.toEnd_le t
  have hmul := Nat.mul_le_mul_right (s.active.length + 1) hless
  rw [h] at hend
  simp only [weight, h]
  rw [Nat.succ_mul] at hmul
  omega

/-- **Each round makes the weight smaller**, or is the last one. -/
theorem Rounded.weight_lt {k : ℕ} {looped : Bool} (h : Rounded s t k looped) (loops loopFreed : ℕ) :
    if looped then 1 < loops ∧ loopFreed + k = 0 ∨ weight t (loops + 1) 0 < weight s loops loopFreed
    else weight t loops (loopFreed + k) < weight s loops loopFreed := by
  have hlen := h.length
  by_cases hk : k = 0
  · subst hk
    cases looped with
    | true =>
      rw [if_pos rfl]
      by_cases hlast : 1 < loops ∧ loopFreed + 0 = 0
      · exact .inl hlast
      · refine .inr (weight_lt_of_sweeps hlen ?_)
        simp only [sweeps, Nat.lt_irrefl, if_false]
        split <;> omega
    | false =>
      have hnear := h.nearer rfl rfl
      rw [Nat.add_zero] at hlen
      simp only [Bool.false_eq_true, if_false, weight, Nat.add_zero, hlen]
      omega
  · have hless : t.active.length < s.active.length := by omega
    cases looped with
    | true => exact .inr (weight_lt_of_length hless)
    | false => exact weight_lt_of_length hless

theorem watermark_ends (hz : lz.Compresses) {n loops loopFreed : ℕ} (h : Clock s) (hn : weight s loops loopFreed < n)
    (hr : weight s loops loopFreed ≤ s.rights.length) :
    ∃ u, (s.watermark lz n loops loopFreed = .left u ∨ s.watermark lz n loops loopFreed = .drained u) ∧
      ∀ q, q ∉ s.active → Untouched s u q := by
  induction n generalizing s loops loopFreed with
  | zero => omega
  | succ n ih =>
    simp only [State.watermark]
    split
    · exact ⟨s, .inl rfl, fun q _ => .refl s q⟩
    split
    · exact ⟨s, .inr rfl, fun q _ => .refl s q⟩
    next hstart =>
    obtain ⟨p, hp⟩ := Option.ne_none_iff_exists'.mp hstart
    have hpos := h.toEnd_pos hp
    have hanswer : s.rights ≠ [] := by
      intro he
      rw [he, List.length_nil] at hr
      simp only [weight] at hr
      omega
    rw [if_neg hanswer]
    obtain ⟨t, k, looped, ht, hround⟩ := replacePages_rounded hz h hp hanswer
    have hless := hround.weight_lt loops loopFreed
    have hrights : t.rights.length + 1 = s.rights.length := by
      rw [hround.rights, List.length_tail]
      have := List.length_pos_iff.mpr hanswer
      omega
    have hothers : ∀ u, (∀ q, q ∉ t.active → Untouched t u q) → ∀ q, q ∉ s.active → Untouched s u q := by
      intro u hu q hq
      have hq' := hround.others q hq
      exact hq'.trans (hu q (mt hq'.active.mp hq))
    rw [ht]
    cases looped with
    | true =>
      rw [if_pos rfl] at hless
      simp only [if_true]
      split
      · exact ⟨t, .inl rfl, hround.others⟩
      · next hmore =>
        have hless := hless.resolve_left hmore
        have hn' : weight t (loops + 1) 0 < n := by omega
        obtain ⟨u, hu, huntouched⟩ := ih hround.clock hn' (by omega)
        exact ⟨u, hu, hothers u huntouched⟩
    | false =>
      simp only [Bool.false_eq_true, if_false] at hless ⊢
      have hn' : weight t loops (loopFreed + k) < n := by omega
      obtain ⟨u, hu, huntouched⟩ := ih hround.clock hn' (by omega)
      exact ⟨u, hu, hothers u huntouched⟩

theorem takeFreePage_ends (hz : lz.Compresses) (h : Clock s) (hfree : ∀ p ∈ s.free, p ∉ s.active)
    (hlong : roundsBound s.active.length ≤ s.rights.length) :
    ∃ u, (s.takeFreePage lz = .panic u ∨
        ∃ p, s.takeFreePage lz = .page u p ∧ s.free.head? = some p ∧ (s.replEnable = true → 16 ≤ u.numFree)) ∧
      ∀ p free, s.free = p :: free → Untouched (s.taken p free) u p := by
  cases hlist : s.free with
  | nil => exact ⟨s, .inl (by simp only [State.takeFreePage, hlist]), nofun⟩
  | cons p free =>
    have hnot : p ∉ s.active := hfree p (hlist ▸ List.mem_cons_self)
    have hpop : Clock { s with free := free, numFree := s.numFree - 1 } := ⟨h.nodup, h.owned, h.hand⟩
    have hset : Turned { s with free := free, numFree := s.numFree - 1 } (s.taken p free) p false :=
      setPage_turned hpop rfl
    have hclock := hset.clock
    have huntouched : ∀ u, Untouched (s.taken p free) u p →
        ∀ q free', p :: free = q :: free' → Untouched (s.taken q free') u q := by
      intro u hu q free' he
      cases he
      exact hu
    simp only [State.takeFreePage, hlist, List.head?_cons]
    split
    · next hlow =>
      have hle : weight (s.taken p free) 0 0 ≤ (s.taken p free).rights.length :=
        Nat.le_trans (weight_le _) hlong
      obtain ⟨u, hu | hu, hsame⟩ := watermark_ends hz hclock (Nat.lt_succ_of_le hle) hle
      · refine ⟨u, ?_, huntouched u (hsame p hnot)⟩
        rw [hu]
        by_cases h16 : u.numFree < 16
        · exact .inl (if_pos h16)
        · exact .inr ⟨p, if_neg h16, rfl, fun _ => Nat.not_lt.mp h16⟩
      · refine ⟨u, .inl ?_, huntouched u (hsame p hnot)⟩
        rw [hu]
    · next hlow =>
      refine ⟨s.taken p free, .inr ⟨p, rfl, rfl, fun hon => ?_⟩, huntouched _ (.refl _ p)⟩
      by_contra h16
      exact hlow ⟨hon, Nat.not_le.mp h16⟩

/-- **`get_free_page` ends**, whatever unmapping tells of the pages in each round: with a page, and 16
free ones once replacement is on, or in a panic. The page taken is left alone. -/
theorem getFreePage_ends (hz : lz.Compresses) (h : Clock s) (hfree : ∀ p ∈ s.free, p ∉ s.active)
    (answers : ℕ → List ℕ) {n : ℕ} (hn : roundsBound s.active.length ≤ n) :
    ∃ u, (State.takeFreePage lz { s with rights := (List.range n).map answers } = .panic u ∨
        ∃ p, State.takeFreePage lz { s with rights := (List.range n).map answers } = .page u p ∧
          s.free.head? = some p ∧ (s.replEnable = true → 16 ≤ u.numFree)) ∧
      ∀ p free, s.free = p :: free →
        Untouched (State.taken { s with rights := (List.range n).map answers } p free) u p := by
  have hclock : Clock { s with rights := (List.range n).map answers } := ⟨h.nodup, h.owned, h.hand⟩
  exact takeFreePage_ends hz hclock hfree (by simpa using hn)

theorem lz4Constant_compresses : lz4Constant.Compresses := by
  intro page he
  have hlen := congrArg List.length he
  simp only [lz4Constant] at hlen
  split at hlen
  · cases hlen
  · rw [length_lz4Literals] at hlen
    cases hlen

def lowState : State :=
  { State.init swapLayout with
    pages := fun p => ⟨if p ∈ [400, 401, 402] then some p else none, 0, false⟩
    lpage := fun lp => ⟨lp, lp, false, if lp = 402 then State.smattrPin else 0⟩
    free := List.range' 300 16
    numFree := 16
    active := [400, 401, 402]
    replEnable := true }

/-- Two pages are compressed into one, and a pinned one is left. -/
theorem getFreePage_ends_low :
    (match State.takeFreePage lz4Constant { lowState with rights := (List.range 35).map fun _ => [] } with
      | .page u p => some (u.numFree, u.active, p)
      | _ => none) = some (16, [402], 300) ∧
    ∃ u, (State.takeFreePage lz4Constant { lowState with rights := (List.range 35).map fun _ => [] } =
        .panic u ∨
        ∃ p, State.takeFreePage lz4Constant
            { lowState with rights := (List.range 35).map fun _ => [] } = .page u p ∧
          lowState.free.head? = some p ∧ (lowState.replEnable = true → 16 ≤ u.numFree)) ∧
      ∀ p free, lowState.free = p :: free →
        Untouched (State.taken { lowState with rights := (List.range 35).map fun _ => [] } p free) u p := by
  have hclock : Clock lowState := ⟨by decide, by decide, nofun⟩
  exact ⟨by decide +kernel, getFreePage_ends lz4Constant_compresses hclock (by decide) (fun _ => []) (by decide)⟩

end Sneks.Sysmem
