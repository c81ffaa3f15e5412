import Sneks.Sysmem.Calls

/-!
# Swapping and accounting over whole runs

What holds in every state that sysmem reaches: a page that is faulted back in has the
contents it was compressed with, and every page handed to sysmem is in one place.
-/

namespace Sneks.Sysmem
open Lib

namespace State

def Compressed (s : State) (ch : ℕ) : Prop :=
  ∃ lp, s.Live lp ∧ (s.lpage lp).swap = true ∧ (s.lpage lp).page = ch

end State

inductive Home
  | free | active | compressed | heap

def State.At (s : State) (p : ℕ) : Home → Prop
  | .free => p ∈ s.free
  | .active => p ∈ s.active
  | .compressed => s.Compressed p
  | .heap => p ∈ s.heapPages

structure SwapTransparent (lz : Lz4) (s : State) : Prop where
  restored : ∀ e ∈ s.unswaps, e.1 = e.2
  kept : ∀ lp, s.Live lp → (s.lpage lp).swap = true →
    ∃ slot, (s.hdr (s.lpage lp).page).lp slot = some lp ∧
      lz.decompress ((s.mem (s.lpage lp).page).read
        (slot.offset ((s.hdr (s.lpage lp).page).len slot)) ((s.hdr (s.lpage lp).page).len slot)) =
        some (s.saved lp)
  fits : ∀ ch, s.Compressed ch → (s.hdr ch).len .a + (s.hdr ch).len .b ≤ pageSize - chdrSize
  header : ∀ ch, s.Compressed ch → ∀ slot, chdrSize ≤ Slot.offset ((s.hdr ch).len slot) slot
  disjoint : ∀ ch, s.Compressed ch →
    Slot.offset ((s.hdr ch).len .a) .a + (s.hdr ch).len .a ≤ Slot.offset ((s.hdr ch).len .b) .b
  buddies : s.buddies.Nodup ∧ ∀ ch, ch ∈ s.buddies ↔ s.Compressed ch ∧ (s.hdr ch).Half

structure Accounted (lay : Layout) (s : State) : Prop where
  home : ∀ p ∈ s.handed, ¬ lay.inImage p → ∃! home, s.At p home
  once : s.free.Nodup ∧ s.active.Nodup ∧ s.heapPages.Nodup
  owner : ∀ p ∈ s.active, ∃ lp, (s.pages p).owner = some lp ∧
    ∀ lq, s.Live lq ∧ (s.lpage lq).page = p ∧ (s.lpage lq).swap = false ↔ lq = lp
  numFree : s.numFree = s.free.length

variable {lz : Lz4} {lay : Layout} {s : State} {limbo : List ℕ}

theorem Links.compressed_iff (h : Links lz s none none) (ch : ℕ) : s.Compressed ch ↔ ch ∈ s.store := by
  constructor
  · rintro ⟨lp, hlive, hswap, rfl⟩
    exact (h.swapped lp hlive nofun hswap).1
  · intro hch
    obtain ⟨slot, hslot⟩ := h.used ch hch
    obtain ⟨lp, hlp⟩ := Option.ne_none_iff_exists'.mp hslot
    have hfilled := h.filled ch hch slot lp hlp
    exact ⟨lp, hfilled.live, hfilled.swap, hfilled.page⟩

theorem Inv.swapTransparent (hlz : lz.Undoes) (h : Inv lz lay s [] none none) :
    SwapTransparent lz s := by
  have hl := h.books.links
  have hroom : ∀ ch, s.Compressed ch → (s.hdr ch).len .a + (s.hdr ch).len .b ≤ pageSize - chdrSize :=
    fun ch hch => hl.fits ch ((hl.compressed_iff ch).mp hch)
  constructor
  case restored => exact h.unswaps hlz
  case kept =>
    intro lp hlive hswap
    obtain ⟨hstore, slot, hslot⟩ := hl.swapped lp hlive nofun hswap
    refine ⟨slot, hslot, ?_⟩
    rw [(hl.filled _ hstore slot lp hslot).data]
    exact hlz (s.saved lp)
  case fits => exact hroom
  case header =>
    intro ch hch slot
    have := hroom ch hch
    simp only [pageSize, chdrSize] at this
    cases slot <;> simp only [Slot.offset, pageSize, chdrSize] <;> omega
  case disjoint =>
    intro ch hch
    have := hroom ch hch
    simp only [pageSize, chdrSize] at this
    simp only [Slot.offset, pageSize, chdrSize]
    omega
  case buddies =>
    refine ⟨hl.nodup, fun ch => ?_⟩
    rw [hl.buddy, hl.compressed_iff]
    simp

theorem Homes.active_ne_zero {p : ℕ} (h : Homes lay s limbo) (hp : p ∈ s.active) : p ≠ 0 := by
  have hpos := List.count_pos_iff.mpr hp
  refine h.ne_zero ?_
  simp only [State.places]
  omega

theorem Inv.at_iff (h : Inv lz lay s [] none none) (p : ℕ) (home : Home) :
    s.At p home ↔ 0 < (match home with
      | .free => s.free | .active => s.active | .compressed => s.store | .heap => s.heapPages).count p := by
  cases home <;> simp only [State.At, List.count_pos_iff]
  exact h.books.links.compressed_iff p

theorem Inv.accounted (h : Inv lz lay s [] none none) : Accounted lay s := by
  have hhomes := h.books.homes
  have hl := h.books.links
  have hle : ∀ p, s.places p ≤ 1 := fun p => hhomes.le_one p
  constructor
  case home =>
    intro p hp hout
    have htracked : s.Tracked lay p := .inr ⟨hp, hout⟩
    have hone := hhomes.places p
    rw [if_pos htracked, List.count_nil, Nat.add_zero] at hone
    simp only [State.places] at hone
    have hex : ∃ home, s.At p home := by
      simp only [h.at_iff]
      by_cases h1 : 0 < s.free.count p
      · exact ⟨.free, h1⟩
      by_cases h2 : 0 < s.active.count p
      · exact ⟨.active, h2⟩
      by_cases h3 : 0 < s.store.count p
      · exact ⟨.compressed, h3⟩
      · refine ⟨.heap, ?_⟩
        simp only
        omega
    obtain ⟨home, hat⟩ := hex
    refine ⟨home, hat, fun home' hat' => ?_⟩
    rw [h.at_iff] at hat hat'
    cases home <;> cases home' <;> first | rfl | (simp only at hat hat'; omega)
  case once =>
    refine ⟨?_, hhomes.active_nodup, ?_⟩
    all_goals
      refine List.nodup_iff_count_le_one.mpr fun q => ?_
      have hq := hle q
      simp only [State.places] at hq
      omega
  case owner =>
    intro p hp
    obtain ⟨lp, howner, hlive, hpage, hswap, -⟩ := hl.owned p hp
    refine ⟨lp, howner, fun lq => ⟨?_, ?_⟩⟩
    · rintro ⟨hlive', rfl, hswap'⟩
      obtain ⟨-, howner'⟩ := hl.resident lq hlive' (by rintro ⟨⟩) hswap' (hhomes.active_ne_zero hp)
      exact Option.some.inj (howner'.symm.trans howner)
    · rintro rfl
      exact ⟨hlive, hpage, hswap⟩
  case numFree => exact hhomes.numFree

/-- **Swap transparency**: in every state that is reached, what was faulted back in is what
    had been compressed, and so is what still can be. -/
theorem swap_transparent {as : List Step} (hlz : lz.Undoes)
    (h : Run (exec lz lay) apart (State.init lay) as s) : SwapTransparent lz s :=
  (Inv.of_run h).swapTransparent hlz

/-- **Page accounting**: in every state that is reached, every page handed to sysmem outside
    of its image is in one place, and an active one has one owner. -/
theorem pages_accounted {as : List Step} (h : Run (exec lz lay) apart (State.init lay) as s) :
    Accounted lay s :=
  (Inv.of_run h).accounted

def lz4Repeat (c : UInt8) : List UInt8 :=
  [0x1f, c, 0x01, 0x00] ++ List.replicate 15 0xff ++ [0xf6, 0x50, c, c, c, c, c]

def lz4Literals (p : Page) : List UInt8 :=
  0xf0 :: List.replicate 16 0xff ++ 0x01 :: List.ofFn p

def firstByte (p : Page) : UInt8 := p ⟨0, by decide⟩

/-- All bytes of the `2 ^ n` from `off` on are `c`. -/
def allEq (p : Page) (c : UInt8) : ℕ → ℕ → Bool
  | 0, off => if h : off < pageSize then p ⟨off, h⟩ == c else true
  | n + 1, off => allEq p c n off && allEq p c n (off + 2 ^ n)

theorem allEq_spec (p : Page) (c : UInt8) (n off : ℕ) (h : allEq p c n off = true) (i : Fin pageSize)
    (hlo : off ≤ i) (hhi : i < off + 2 ^ n) : p i = c := by
  induction n generalizing off with
  | zero =>
    obtain rfl : off = i := by omega
    simpa [allEq] using h
  | succ n ih =>
    simp only [allEq, Bool.and_eq_true] at h
    by_cases hi : i < off + 2 ^ n
    · exact ih off h.1 hlo hi
    · exact ih (off + 2 ^ n) h.2 (by omega) (by omega)

def lz4Constant : Lz4 where
  compress p := if allEq p (firstByte p) 12 0 then lz4Repeat (firstByte p) else lz4Literals p
  decompress out :=
    if out.length = 26 then some fun _ => out.getD 1 0
    else if out.length = pageSize + 18 then some fun i => out.getD (i + 18) 0
    else none

theorem length_lz4Literals (p : Page) : (lz4Literals p).length = pageSize + 18 := by
  simp [lz4Literals]

theorem length_lz4Repeat (c : UInt8) : (lz4Repeat c).length = 26 := rfl

theorem lz4Constant_undoes : lz4Constant.Undoes := by
  intro p
  by_cases hp : allEq p (firstByte p) 12 0
  · have hconst : (fun _ => (lz4Repeat (firstByte p)).getD 1 0) = p := by
      funext i
      exact (allEq_spec p _ 12 0 hp i (Nat.zero_le _) (by simpa [pageSize] using i.isLt)).symm
    simp only [lz4Constant, if_pos hp]
    rw [if_pos (length_lz4Repeat _), hconst]
  · have hlen : ¬ pageSize + 18 = 26 := by decide
    have hbytes : (fun i : Fin pageSize => (lz4Literals p).getD (i + 18) 0) = p := by
      funext i
      simp only [lz4Literals, List.cons_append, List.getD_cons_succ, List.replicate, List.nil_append]
      rw [List.getD_eq_getElem?_getD, List.getElem?_eq_getElem (by simp), Option.getD_some, List.getElem_ofFn]
    simp only [lz4Constant, if_neg hp]
    rw [length_lz4Literals, if_neg hlen, if_pos rfl, hbytes]

def swapLayout : Layout := ⟨256, 512, 300, by decide, by decide, by decide⟩

def swapRun : List Step :=
  let task := minSysid + 1
  let page (i : ℕ) := 0x100000 + i * pageSize
  ⟨.sendPhys (minSysid + 2) none 1024 18 [] true, []⟩ ::
  ⟨.brk task 0x200000, []⟩ ::
  (List.range 57).map (fun i => ⟨.fault task (page i), []⟩) ++
  [⟨.write task (page 0) fun _ => 7, []⟩, ⟨.write task (page 1) fun _ => 0, []⟩,
   ⟨.fault task (page 57), List.replicate 3 (0 :: 0 :: List.replicate 55 2)⟩,
   ⟨.brk task (page 20), []⟩, ⟨.fault task (page 0), []⟩]

theorem run_swapRun : ∃ s, Run (exec lz4Constant swapLayout) apart (State.init swapLayout) swapRun s ∧
    (s.unswaps.map fun e => (firstByte e.1, firstByte e.2), s.buddies, s.numFree) =
      ([(7, 7)], [303], 53) :=
  Run.exists_of_evalRun (exec lz4Constant swapLayout) apart (State.init swapLayout) swapRun _ _
    (by decide +kernel)

theorem swap_transparent_fault : ∃ s,
    Run (exec lz4Constant swapLayout) apart (State.init swapLayout) swapRun s ∧
      s.unswaps.map (fun e => (firstByte e.1, firstByte e.2)) = [(7, 7)] ∧
      SwapTransparent lz4Constant s := by
  obtain ⟨s, hrun, hs⟩ := run_swapRun
  exact ⟨s, hrun, congrArg Prod.fst hs, swap_transparent lz4Constant_undoes hrun⟩

theorem pages_accounted_fault : ∃ s,
    Run (exec lz4Constant swapLayout) apart (State.init swapLayout) swapRun s ∧
      s.buddies = [303] ∧ s.numFree = 53 ∧ Accounted swapLayout s := by
  obtain ⟨s, hrun, hs⟩ := run_swapRun
  simp only [Prod.mk.injEq] at hs
  exact ⟨s, hrun, hs.2.1, hs.2.2, pages_accounted hrun⟩

end Sneks.Sysmem
