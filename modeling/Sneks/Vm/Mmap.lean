import Sneks.Vm.Layout

/-!
# Where `vm_mmap` puts a mapping

In every run in which what is placed fits, a mapping that `vm_mmap` makes is found at each of its
addresses, and is apart from the other mappings and from the areas of its space. Where fresh address
space is carved below `mmap_bot` nothing looks for what is there.
-/

namespace Sneks.Vm
open Lib

def Fpage.Apart (fp : Fpage) (addr length : ℕ) : Prop := fp.address + fp.size ≤ addr ∨ addr + length ≤ fp.address

/-- A call has added the mapping `i` at `a`, of `n` bytes rounded up to pages. -/
structure Placed (s t : State) (pid i a n : ℕ) : Prop where
  new : s.nextMm ≤ i
  mem : i ∈ t.mmaps pid
  addr : (t.mm i).addr = a
  length : (t.mm i).length = (n + pageSize - 1) / pageSize * pageSize
  pos : 0 < (t.mm i).length
  no_wrap : a + (t.mm i).length < 2 ^ 32
  lookup : ∀ b, a ≤ b → b < a + (t.mm i).length → (t.findLazyMmap pid b).1 = some i
  disjoint : ∀ j ∈ t.mmaps pid, j ≠ i → (t.mm j).stop ≤ a ∨ a + (t.mm i).length ≤ (t.mm j).addr
  areas : ∀ fp ∈ (t.spaces pid).areas, fp.Apart a (t.mm i).length
  heap : (t.spaces pid).brk ≠ 0 → (t.spaces pid).brk ≤ a ∨ a + (t.mm i).length ≤ (t.spaces pid).brk - pageSize

variable {cfg : Config} {s t : State} {pid i j addr length : ℕ}

namespace State

theorem Mapped.apart (h : Mapped s pid) (hi : i ∈ s.mmaps pid) (hj : j ∈ s.mmaps pid) (hne : j ≠ i) :
    (s.mm j).stop ≤ (s.mm i).addr ∨ (s.mm i).stop ≤ (s.mm j).addr := by
  have hpair : (s.mmaps pid).Pairwise fun a b => a = b ∨ (s.mm b).stop ≤ (s.mm a).addr ∨ (s.mm a).stop ≤ (s.mm b).addr :=
    h.ordered.imp fun hab => .inr (.inr hab)
  have hflip : (s.mmaps pid).Pairwise fun a b => b = a ∨ (s.mm a).stop ≤ (s.mm b).addr ∨ (s.mm b).stop ≤ (s.mm a).addr :=
    h.ordered.imp fun hab => .inr (.inl hab)
  exact (List.Pairwise.forall_of_forall_of_flip (fun _ _ => .inl rfl) hpair hflip hi hj).resolve_left hne.symm

theorem Mapped.findLazyMmap_eq {a : ℕ} (h : Mapped s pid) (hi : i ∈ s.mmaps pid) (ha : (s.mm i).Covers a) :
    (s.findLazyMmap pid a).1 = some i := by
  obtain ⟨j, hj, hcov, hfind⟩ | ⟨hno, -⟩ := h.findLazyMmap_spec a
  · by_cases hne : j = i
    · exact hne ▸ hfind
    · obtain ⟨hlo, hhi⟩ := ha
      obtain ⟨hlo', hhi'⟩ := hcov
      obtain hle | hle := h.apart hi hj hne <;> omega
  · exact absurd ha (hno i hi)

end State

theorem overlapExcl_eq_false {a b c d : ℕ} (hab : a + b < 2 ^ 32) (hcd : c + d < 2 ^ 32)
    (h : overlapExcl a b c d = false) : a + b ≤ c ∨ c + d ≤ a := by
  rw [overlapExcl, decide_eq_false_iff_not, not_not, word_of_lt hab, word_of_lt hcd] at h
  exact h

theorem Fpage.Low.apart {fp : Fpage} (h : fp.Low) (halign : (addr + length) % pageSize = 0)
    (hlt : addr + length < 2 ^ 32) (hover : overlapExcl fp.address fp.size addr length = false) : fp.Apart addr length := by
  obtain rfl | hlow := h
  · refine .inr ?_
    show addr + length ≤ 2 ^ 32 - 2 ^ 10
    simp only [pageSize] at halign
    omega
  · exact overlapExcl_eq_false hlow hlt hover

theorem State.Put.placed {bot n : ℕ} (h : Put s pid i addr length bot (t, true)) (hs : s.Layout) (hnew : s.nextMm ≤ i)
    (hlen : length = (n + pageSize - 1) / pageSize * pageSize) (hpos : 0 < length) (halign : (addr + length) % pageSize = 0)
    (hlt : addr + length < 2 ^ 32) (hclear : s.nogo pid addr length = false) : Placed s t pid i addr n := by
  obtain ⟨haddr, hlength⟩ : (t.mm i).addr = addr ∧ (t.mm i).length = length := h.mm
  have hi : i ∈ t.mmaps pid := h.mem rfl
  have hstop : (t.mm i).stop = addr + length := by rw [← haddr, ← hlength]; rfl
  obtain ⟨maps, last, hsp⟩ := h.confined.space
  have hsp : t.spaces pid = { s.spaces pid with maps := maps, lastMmap := last, mmapBot := bot } := hsp
  have hfps : ∀ fp ∈ [(s.spaces pid).utcbArea, (s.spaces pid).kipArea, (s.spaces pid).sysinfoArea,
      ⟨wordSub (s.spaces pid).brk pageSize, pageSize⟩], overlapExcl fp.address fp.size addr length = false := by
    simpa only [nogo, List.any_eq_false, Bool.not_eq_true] using hclear
  refine ⟨hnew, hi, haddr, hlength.trans hlen, hlength ▸ hpos, hlength ▸ hlt, fun b hlo hhi => ?_, fun j hj hne => ?_,
    fun fp hfp => ?_, fun hbrk => ?_⟩
  · refine h.mapped.findLazyMmap_eq hi ⟨?_, ?_⟩
    · show (t.mm i).addr ≤ b
      omega
    · show b < (t.mm i).stop
      omega
  · have hapart := h.mapped.apart hi hj hne
    rw [haddr, hstop] at hapart
    rwa [hlength]
  · rw [hsp] at hfp
    have hfp : fp ∈ (s.spaces pid).areas := hfp
    have hover : overlapExcl fp.address fp.size addr length = false := by
      obtain rfl | rfl | rfl : fp = (s.spaces pid).utcbArea ∨ fp = (s.spaces pid).kipArea ∨
          fp = (s.spaces pid).sysinfoArea := by simpa [Space.areas] using hfp
      · exact hfps _ (by simp)
      · exact hfps _ (by simp)
      · exact hfps _ (by simp)
    rw [hlength]
    exact (hs.areas pid fp hfp).apart halign hlt hover
  · obtain ⟨hbalign, hblt⟩ := hs.brk pid
    rw [hsp] at hbrk ⊢
    have hbrk : (s.spaces pid).brk ≠ 0 := hbrk
    have hheap := hfps ⟨wordSub (s.spaces pid).brk pageSize, pageSize⟩ (by simp)
    have hle : pageSize ≤ (s.spaces pid).brk := by
      simp only [pageSize] at *
      omega
    have hsub : (s.spaces pid).brk - pageSize + pageSize < 2 ^ 32 := by omega
    rw [wordSub_of_le hle hblt] at hheap
    have hout : (s.spaces pid).brk - pageSize + pageSize ≤ addr ∨ addr + length ≤ (s.spaces pid).brk - pageSize :=
      overlapExcl_eq_false hsub hlt hheap
    rw [hlength]
    show (s.spaces pid).brk ≤ addr ∨ addr + length ≤ (s.spaces pid).brk - pageSize
    omega

/-- **Placement.** In every run in which what is placed fits, a call of `vm_mmap` that fits and
succeeds adds a mapping that is found at each of its addresses and is apart from all others and from
the areas. It does so where a failed assertion stops nothing, so that `old` is null. -/
theorem mmap_placed {phys : PhysMem} {calls : List Call} (hmax : cfg.EndsPage)
    (h : Run (exec cfg) (Fits cfg) (bootState phys) calls s) (asserts : Bool) {sender target a n prot offset : ℕ}
    {flags : MapFlags} {fdServ : Tid} {fd : ℤ} {ans : State.MmapAnswer}
    (hfits : Fits cfg s (.mmap sender target addr n prot flags fdServ fd offset ans))
    (hs : s.vmMmap { cfg with asserts := asserts } sender target addr n prot flags fdServ fd offset ans =
      some (t, .ok a)) : ∃ i, Placed s t (State.mmapTarget sender target) i a n := by
  have hl := layout_of_run hmax h
  obtain ⟨-, e, he⟩ | ⟨hmaps, u, res, hready, hmm, hsp, hu, hres⟩ := hl.vmMmap_cases hs
  · cases he
  · have hargs := hmaps.1
    rw [not_or, not_or, not_or, not_or, not_or, not_or, not_or] at hargs
    have hne : ∀ j ∈ s.mmaps (State.mmapTarget sender target), j ≠ s.nextMm := fun j hj =>
      Nat.ne_of_lt ((hl.mapped _).fresh j hj)
    have hf : s.MapFits { cfg with asserts := asserts } (State.mmapTarget sender target) addr n flags.fixed := hfits hmaps
    cases res with
    | error e => cases hres
    | ok =>
      obtain ⟨place, bot, hput, hlt, hclear⟩ := hl.reserveMmap hready (fun j hj => hmm j (hne j hj)) hsp
        (Nat.pos_of_ne_zero hargs.1) (not_not.mp hargs.2.1) hargs.2.2.2.2.2.2.2 hf hu
      obtain rfl : a = place := (Except.ok.inj hres).trans hput.mm.1
      have hv := hput.mapped.valid (hput.mem rfl)
      have haddr := hv.addr_aligned
      have hlen := hv.length_aligned
      rw [hput.mm.1] at haddr
      rw [hput.mm.2] at hlen
      have halign : (a + pageCeil n) % pageSize = 0 :=
        Nat.mod_eq_zero_of_dvd (Nat.dvd_add (Nat.dvd_of_mod_eq_zero haddr) (Nat.dvd_of_mod_eq_zero hlen))
      exact ⟨s.nextMm, hput.placed hl le_rfl (State.pageCeil_eq hf.1)
        (State.pageCeil_pos (Nat.pos_of_ne_zero hargs.1) hf.1) halign hlt hclear⟩

theorem plainConfig_endsPage : plainConfig.EndsPage := ⟨by decide, by decide⟩

/-- Process 5 maps two pages of private memory wherever there is room. -/
theorem mmap_placed_anywhere : ∃ (s t : State) (i : ℕ), Placed s t 5 i 0xbfffe000 0x1800 := by
  obtain ⟨s, h, hread⟩ := Run.exists_of_evalRun (exec plainConfig) (Fits plainConfig) (bootState threePhys) spawnCalls
    (fun s => (decide (Fits plainConfig s (.mmap 5 0 0 0x1800 3 ⟨false, true, false, true⟩ ⟨0, 0⟩ 0 0 ⟨true, none, true⟩)),
      (s.vmMmap { plainConfig with asserts := false } 5 0 0 0x1800 3 ⟨false, true, false, true⟩ ⟨0, 0⟩ 0 0
        ⟨true, none, true⟩).bind fun r => r.2.toOption)) (true, some 0xbfffe000) (by decide)
  obtain ⟨⟨t, r⟩, hs, hr⟩ := Option.bind_eq_some_iff.mp (congrArg Prod.snd hread)
  cases r with
  | error e => cases hr
  | ok a =>
    obtain rfl : a = 0xbfffe000 := Option.some.inj hr
    have hfits := of_decide_eq_true (congrArg Prod.fst hread)
    obtain ⟨i, hi⟩ := mmap_placed plainConfig_endsPage h false hfits hs
    exact ⟨s, t, i, hi⟩

/-- A page at a fixed address where fresh space will be carved, and one anywhere. -/
theorem mmap_over_fixed : ¬ ∀ (cfg : Config) (phys : PhysMem) (calls : List Call) (s t : State) (asserts : Bool)
    (sender target addr a n prot offset : ℕ) (flags : MapFlags) (fdServ : Tid) (fd : ℤ) (ans : State.MmapAnswer),
    cfg.EndsPage → Run (exec cfg) free (bootState phys) calls s →
      s.vmMmap { cfg with asserts := asserts } sender target addr n prot flags fdServ fd offset ans = some (t, .ok a) →
        ∃ i, Placed s t (State.mmapTarget sender target) i a n := by
  intro hall
  obtain ⟨s, h, hread⟩ := Run.exists_of_evalRun (exec plainConfig) free (bootState threePhys)
    (spawnCalls ++ [.mmap 5 0 0xbffff000 0x1000 3 ⟨false, true, true, true⟩ ⟨0, 0⟩ 0 0 ⟨true, none, true⟩])
    (fun s => (s.vmMmap { plainConfig with asserts := false } 5 0 0 0x1000 3 ⟨false, true, false, true⟩ ⟨0, 0⟩ 0 0
      ⟨true, none, true⟩).bind fun r =>
        if r.2.toOption = some 0xbffff000 then some (decide (∃ i ∈ (r.1.findLazyMmap 5 0xbffff000).1, i < s.nextMm)) else none)
    (some true) (by decide)
  obtain ⟨⟨t, r⟩, hs, hr⟩ := Option.bind_eq_some_iff.mp hread
  split at hr
  · next hok =>
    cases r with
    | error e => cases hok
    | ok a =>
      obtain rfl : a = 0xbffff000 := Option.some.inj hok
      obtain ⟨i, hi⟩ := hall plainConfig threePhys _ s t false 5 0 0 _ 0x1000 3 0 _ _ _ _ plainConfig_endsPage h hs
      obtain ⟨j, hj, hlt⟩ := of_decide_eq_true (Option.some.inj hr)
      -- what is found there is the page that was there before
      have hpos := hi.pos
      have hfind := hi.lookup 0xbffff000 le_rfl (by omega)
      obtain rfl : i = j := Option.some.inj (hfind.symm.trans hj)
      exact absurd hi.new (Nat.not_le.mpr hlt)
  · cases hr

end Sneks.Vm
