import Sneks.Vm.Cases
import Sneks.Vm.Edits

/-!
# Shared anonymous memory starts at page 0

`vm_mmap` gives a mapping of shared anonymous memory offset 0, and nothing changes an offset.
-/

namespace Sneks.Vm
open Lib

variable {cfg : Config} {phys : PhysMem} {s t : State} {pid i : ℕ}

def State.FromZero (s : State) : Prop := ∀ i, (s.mm i).isAnonMmap = true → (s.mm i).offset = 0

namespace State.FromZero

theorem congr (h : s.FromZero) (hmm : t.mm = s.mm) : t.FromZero := fun i hi => by
  rw [hmm] at hi ⊢
  exact h i hi

theorem setMm {mm : LazyMmap} (h : s.FromZero) (hmm : mm.isAnonMmap = true → mm.offset = 0) : (s.setMm i mm).FromZero :=
  fun j hj => by
    rw [setMm_mm] at hj ⊢
    split at hj
    · next he => exact (if_pos he).symm ▸ hmm hj
    · next he => exact (if_neg he).symm ▸ h j hj

theorem newMm {mm : LazyMmap} (h : s.FromZero) (hmm : mm.isAnonMmap = true → mm.offset = 0) : (s.newMm mm).2.FromZero :=
  (h.setMm (i := s.nextMm) hmm).congr rfl

theorem insertLazyMmap_mm (s : State) (pid i : ℕ) : (s.insertLazyMmap cfg pid i).1.mm = s.mm := by
  rw [insertLazyMmap]
  split <;> rfl

theorem edits (h : s.FromZero) (he : Edits cfg s t) : t.FromZero := by
  refine he.keeps (P := FromZero) (fun u v he hu => ?_) h
  cases he with
  | space | table | anonIno | remove => exact hu.congr rfl
  | resize i => exact hu.setMm (hu i)
  | copy i => exact hu.newMm (hu i)
  | new _ _ hzero => exact hu.newMm hzero
  | cut _ _ _ _ hcut =>
    obtain ⟨_, -, hcut⟩ := Option.bind_eq_some_iff.mp hcut
    obtain ⟨m, -, he⟩ := Option.bind_eq_some_iff.mp hcut
    cases he
    exact hu.congr rfl

theorem forkMaps {dest : ℕ} {ans : ForkAnswer} {maps : List ℕ} {ok : Bool} (h : s.FromZero)
    (hs : State.forkMaps cfg dest ans maps s = some (t, ok)) : t.FromZero := by
  induction maps generalizing s with
  | nil =>
    cases hs
    exact h
  | cons orig rest ih =>
    have hnew := h.newMm (h orig)
    rw [State.forkMaps] at hs
    split at hs
    · cases hs
      exact h
    dsimp only at hs
    split at hs
    · obtain ⟨_, -, hs⟩ := Option.bind_eq_some_iff.mp hs
      split at hs
      · cases hs
        exact hnew
      · obtain ⟨_, -, hs⟩ := Option.bind_eq_some_iff.mp hs
        have hentered : ({ (s.newMm (s.mm orig)).2 with anonMmapTable := s.nextMm :: s.anonMmapTable } : State).FromZero :=
          hnew.congr rfl
        exact ih (hentered.congr (insertLazyMmap_mm _ _ _)) hs
    · obtain ⟨_, -, hs⟩ := Option.bind_eq_some_iff.mp hs
      exact ih (hnew.congr (insertLazyMmap_mm _ _ _)) hs

theorem vmFork {sender srcpid destpid id : ℕ} {order : List ℕ} {ans : ForkAnswer} {r : Result ℕ} (h : s.FromZero)
    (hs : s.vmFork cfg sender srcpid destpid id order ans = some (t, r)) : t.FromZero := by
  obtain rfl | ⟨pid, -, rfl | ⟨-, -, u, ok, hu, hcases⟩⟩ := vmFork_cases hs
  · exact h
  · exact h.congr rfl
  · have hcopied := forkMaps (s := s.forkStart srcpid pid) (h.congr rfl) hu
    obtain rfl | ⟨m, ok', -, rfl⟩ := hcases
    · exact hcopied
    · exact hcopied.congr rfl

theorem vmConfigure {utcb kip : Fpage} {malloc : Bool} {r : Result ℕ} (h : s.FromZero)
    (hs : s.vmConfigure cfg pid utcb kip malloc = some (t, r)) : t.FromZero := by
  obtain rfl | ⟨-, rfl | ⟨-, r', hu⟩⟩ := vmConfigure_cases hs
  · exact h
  · exact h.congr rfl
  · have hset : (s.setSpace pid ((s.spaces pid).configured utcb kip)).FromZero := h.congr rfl
    exact hset.edits (((Edits.refl cfg _).newPrivate rfl).reserveMmap hu)

theorem vmUploadPage {target addr prot : ℕ} {data : List UInt8} {flags : MapFlags} {malloc : Bool} {r : Result Unit}
    (h : s.FromZero) (hs : s.vmUploadPage cfg target addr data prot flags malloc = some (t, r)) : t.FromZero := by
  have hnew : ({ s with mem := (s.mem.newVp ⟨addr, protToL4Rights prot, false, true, false, 0⟩).2 } : State).FromZero :=
    h.congr rfl
  obtain rfl | ⟨-, ⟨e, hu⟩ | ⟨u, m, m', hu, -, -, rfl⟩⟩ := vmUploadPage_cases hs
  · exact h
  · exact hnew.edits (((Edits.refl cfg _).newPrivate rfl).reserveMmap hu)
  · exact (hnew.edits (((Edits.refl cfg _).newPrivate rfl).reserveMmap hu)).congr rfl

theorem vmErase {sender target : ℕ} {order : List ℕ} {r : Result Unit} (h : s.FromZero)
    (hs : s.vmErase cfg sender target order = some (t, r)) : t.FromZero := by
  obtain rfl | ⟨m, u, -, -, hu, rfl⟩ := vmErase_cases hs
  · exact h
  · have hremoved : ({ s with mem := m.flushPlbuf } : State).FromZero := h.congr rfl
    exact (hremoved.edits ((Edits.refl cfg _).eraseMmaps hu)).congr rfl

theorem vmPf {faddr : ℕ} {rwx : Rights} {ans : PfAnswer} {r : Option (ℕ × Rights)} (h : s.FromZero)
    (hs : s.vmPf cfg pid faddr rwx ans = some (t, r)) : t.FromZero := by
  have hfind : (s.findLazyMmap pid faddr).2.FromZero := h.edits ((Edits.refl cfg s).findLazyMmap pid faddr)
  obtain rfl | ⟨-, ⟨old, m, -, -, rfl⟩ | rfl | ⟨i, v, m, -, -, -, -, -, -, rfl, -⟩⟩ := vmPf_cases hs
  · exact h
  · exact h.congr rfl
  · exact hfind
  · exact hfind.congr rfl

end State.FromZero

/-- **Step lemma**. -/
theorem State.FromZero.exec {call : Call} (h : s.FromZero) (hs : Vm.exec cfg s call = some t) : t.FromZero := by
  cases call with
  | mmap =>
    obtain ⟨⟨u, r⟩, hu, rfl⟩ := Option.map_eq_some_iff.mp hs
    exact h.edits (.vmMmap hu)
  | munmap =>
    obtain ⟨⟨u, r⟩, hu, rfl⟩ := Option.map_eq_some_iff.mp hs
    exact h.edits (.vmMunmap hu)
  | brk =>
    obtain ⟨⟨u, r⟩, hu, rfl⟩ := Option.map_eq_some_iff.mp hs
    exact h.edits (.vmBrk hu)
  | fork =>
    obtain ⟨⟨u, r⟩, hu, rfl⟩ := Option.map_eq_some_iff.mp hs
    exact h.vmFork hu
  | configure =>
    obtain ⟨⟨u, r⟩, hu, rfl⟩ := Option.map_eq_some_iff.mp hs
    exact h.vmConfigure hu
  | uploadPage =>
    obtain ⟨⟨u, r⟩, hu, rfl⟩ := Option.map_eq_some_iff.mp hs
    exact h.vmUploadPage hu
  | erase =>
    obtain ⟨⟨u, r⟩, hu, rfl⟩ := Option.map_eq_some_iff.mp hs
    exact h.vmErase hu
  | fault =>
    obtain ⟨⟨u, r⟩, hu, rfl⟩ := Option.map_eq_some_iff.mp hs
    exact h.vmPf hu

theorem fromZero_of_run {P : State → Call → Prop} {calls : List Call} (h : Run (exec cfg) P (bootState phys) calls s) :
    s.FromZero :=
  h.invariant (I := State.FromZero) (fun _ _ _ _ hs hz => hz.exec hs) fun _ hi => nomatch hi

end Sneks.Vm
