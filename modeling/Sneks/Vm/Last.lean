import Sneks.Vm.Mmap

/-!
# The mapping that was found last

`find_lazy_mmap` looks first at the mapping that it found last. That is right as long as the tree of
the space is in order, which a mapping that wraps around the end of the address space can break.
-/

namespace Sneks.Vm
open Lib

variable {cfg : Config} {s : State} {pid i : ℕ}

namespace State

def searchMmap (s : State) (pid addr : ℕ) : Option ℕ :=
  ((probe (s.dirAddr addr) (s.spaces pid).maps).filter fun y => s.dirAddr addr y = .eq).map Prod.fst

theorem searchMmap_eq (s : State) (pid a : ℕ) : s.searchMmap pid a = ((s.setLast pid none).findLazyMmap pid a).1 := by
  have hsp : (s.setLast pid none).spaces pid = { s.spaces pid with lastMmap := none } := by
    rw [setLast, setSpace_spaces, if_pos rfl]
  have hdir : (s.setLast pid none).dirAddr a = s.dirAddr a := rfl
  rw [findLazyMmap, hsp, hdir, searchMmap]
  dsimp only [Option.filter_none]
  split
  · next y hy => rw [hy]; rfl
  · next hy => rw [hy]; rfl

theorem Mapped.forget (h : Mapped s pid) : Mapped (s.setLast pid none) pid := by
  have hsp : (s.setLast pid none).spaces pid = { s.spaces pid with lastMmap := none } := by
    rw [setLast, setSpace_spaces, if_pos rfl]
  have hmaps : (s.setLast pid none).mmaps pid = s.mmaps pid := by rw [mmaps, hsp, mmaps]
  refine ⟨?_, fun i hi => h.fresh i (hmaps ▸ hi), fun i hi => ?_⟩
  · rw [records, hmaps]
    exact h.inOrder
  · rw [hsp] at hi
    cases hi

theorem Mapped.findLazyMmap_search (h : Mapped s pid) (a : ℕ) : (s.findLazyMmap pid a).1 = s.searchMmap pid a := by
  have hforget := h.forget
  have hmaps : (s.setLast pid none).mmaps pid = s.mmaps pid := by
    rw [mmaps, setLast, setSpace_spaces, if_pos rfl, mmaps]
  rw [searchMmap_eq]
  obtain ⟨i, hi, hcov, hfind⟩ | ⟨hno, hfind⟩ := h.findLazyMmap_spec a
  · rw [hfind]
    exact (hforget.findLazyMmap_eq (hmaps.symm ▸ hi) hcov).symm
  · rw [hfind]
    obtain ⟨i, hi, hcov, -⟩ | ⟨-, hnone⟩ := hforget.findLazyMmap_spec a
    · exact absurd hcov (hno i (hmaps ▸ hi))
    · exact hnone.symm

end State

def Transparent (s : State) : Prop :=
  ∀ pid, (∀ i, (s.spaces pid).lastMmap = some i → i ∈ s.mmaps pid) ∧
    ∀ addr, (s.findLazyMmap pid addr).1 = s.searchMmap pid addr

/-- **The shortcut is transparent** in every run in which what is placed ends below the last byte. -/
theorem last_transparent {phys : PhysMem} {calls : List Call} (hmax : cfg.EndsPage)
    (h : Run (exec cfg) (EndsLow cfg) (bootState phys) calls s) : Transparent s := fun pid =>
  have hm := (layout_of_ends hmax h).mapped pid
  ⟨hm.last, hm.findLazyMmap_search⟩

/-- A page is touched in a mapping of two, and the mapping is cut. -/
theorem last_transparent_cut : ∃ s : State, (s.spaces 5).lastMmap = some 2 ∧ (s.mm 2).length = 0x1000 ∧ Transparent s := by
  obtain ⟨s, h, hread⟩ := Run.exists_of_evalRun (exec plainConfig) (EndsLow plainConfig) (bootState threePhys)
    (spawnCalls ++ [.mmap 5 0 0x400000 0x2000 3 ⟨false, true, true, true⟩ ⟨0, 0⟩ 0 0 ⟨true, none, true⟩,
      .fault 5 0x400000 ⟨true, false, false⟩ ⟨none, true⟩, .munmap 5 0x401000 0x1000])
    (fun s => ((s.spaces 5).lastMmap, (s.mm 2).length)) (some 2, 0x1000) (by decide)
  exact ⟨s, congrArg Prod.fst hread, congrArg Prod.snd hread, last_transparent plainConfig_endsPage h⟩

/-- A mapping is placed that wraps around to just below its start, and one on both sides of that start. A
fault on its second page finds it in the tree; the first page is then found only because it is remembered. -/
theorem last_over_wrap : ¬ ∀ (cfg : Config) (phys : PhysMem) (calls : List Call) (s : State),
    cfg.EndsPage → Run (exec cfg) free (bootState phys) calls s → Transparent s := by
  intro hall
  obtain ⟨s, h, hread⟩ := Run.exists_of_evalRun (exec plainConfig) free (bootState threePhys)
    (spawnCalls ++ [.mmap 5 0 0x400000 0xfffff000 3 ⟨false, true, true, true⟩ ⟨0, 0⟩ 0 0 ⟨true, none, true⟩,
      .mmap 5 0 0x3ff000 0x2000 3 ⟨false, true, true, true⟩ ⟨0, 0⟩ 0 0 ⟨true, none, true⟩,
      .fault 5 0x400000 ⟨true, false, false⟩ ⟨none, true⟩])
    (fun s => ((s.findLazyMmap 5 0x3ff000).1, s.searchMmap 5 0x3ff000)) (some 3, none) (by decide)
  obtain ⟨hfind, hsearch⟩ := Prod.mk.inj hread
  have heq := (hall plainConfig threePhys _ s plainConfig_endsPage h 5).2 0x3ff000
  rw [hfind, hsearch] at heq
  cases heq

end Sneks.Vm
