import Sneks.Vm.Calls

/-!
# What the other calls come to

`vm_fork`, `vm_configure`, `vm_upload_page`, `vm_erase` and page faults fail early, and leave the
state, or go on to one sequence of steps. Each is inverted once.
-/

namespace Sneks.Vm
open Lib

/-- A space that `vm_fork` makes for a process of its own. -/
def Space.spawned (sp : Space) (cfg : Config) : Space :=
  { sp with used := true, maps := .nil, lastMmap := none, kipArea := .unset, utcbArea := .nil, brk := 0,
            mmapBot := cfg.userAddrMax }

/-- A space that `vm_fork` makes for a copy of another. -/
def Space.copied (sp src : Space) : Space :=
  { sp with used := true, maps := .nil, lastMmap := none, kipArea := src.kipArea, utcbArea := src.utcbArea,
            sysinfoArea := src.sysinfoArea, brk := src.brk, mmapBot := src.mmapBot }

def Space.configured (sp : Space) (utcb kip : Fpage) : Space :=
  { sp with kipArea := kip, utcbArea := utcb, sysinfoArea := ⟨word (kip.address + kip.size), pageSize⟩ }

def Space.erased (sp : Space) : Space :=
  { sp with used := false, kipArea := .nil, utcbArea := .nil, sysinfoArea := .nil, lastMmap := none }

def heapMmap : LazyMmap := ⟨0, 0, .full, false, true, true, ⟨0, 0⟩, 0, 0, 0⟩

variable {cfg : Config} {s t : State} {pid : ℕ}

namespace State

def clearPages (s : State) (pid : ℕ) : State := { s with mem := { s.mem with pages := Function.update s.mem.pages pid [] } }

def forkStart (s : State) (srcpid pid : ℕ) : State :=
  (s.clearPages pid).setSpace pid ((s.spaces pid).copied (s.spaces srcpid))

theorem vmFork_cases {sender srcpid destpid id : ℕ} {order : List ℕ} {ans : ForkAnswer} {r : Result ℕ}
    (hs : s.vmFork cfg sender srcpid destpid id order ans = some (t, r)) :
    t = s ∨ ∃ pid, (s.spaces pid).used = false ∧
      (t = (s.clearPages pid).setSpace pid ((s.spaces pid).spawned cfg) ∨
        (s.spaces srcpid).kipArea ≠ .nil ∧ order.Perm ((s.clearPages pid).mem.pages srcpid) ∧
        ∃ u ok, forkMaps cfg pid ans ((s.forkStart srcpid pid).mmaps srcpid) (s.forkStart srcpid pid) = some (u, ok) ∧
          (t = u ∨ ∃ m ok', Mem.forkPages cfg pid ans false order u.mem = some (m, ok') ∧ t = { u with mem := m })) := by
  simp only [State.vmFork] at hs
  generalize (if 0 < destpid then destpid else id) = pid at hs
  split at hs
  · cases hs
    exact .inl rfl
  next hargs =>
  split at hs
  · cases hs
  split at hs
  · split at hs
    · cases hs
      exact .inl rfl
    · cases hs
  next hused =>
  refine .inr ⟨pid, Bool.eq_false_iff.mpr hused, ?_⟩
  split at hs
  · cases hs
    exact .inl rfl
  next hsrc =>
  split at hs
  · cases hs
  next hperm =>
  obtain ⟨⟨u, ok⟩, hu, hs⟩ := Option.bind_eq_some_iff.mp hs
  refine .inr ⟨fun hnil => hargs (.inr (.inr (.inr ⟨hsrc, hnil⟩))), not_not.mp hperm, u, ok, hu, ?_⟩
  split at hs
  · cases hs
    exact .inl rfl
  obtain ⟨⟨m, ok'⟩, hm, he⟩ := Option.bind_eq_some_iff.mp hs
  cases he
  exact .inr ⟨m, ok', hm, rfl⟩

def configures (s : State) (pid : ℕ) (utcb kip : Fpage) : Prop :=
  ¬ (maxPid < pid ∨ (s.spaces pid).kipArea ≠ .unset ∨ (s.spaces pid).utcbArea ≠ .nil ∨ kip.overlap utcb ∨
    (⟨word (kip.address + kip.size), pageSize⟩ : Fpage).overlap utcb)

instance (s : State) (pid : ℕ) (utcb kip : Fpage) : Decidable (s.configures pid utcb kip) :=
  inferInstanceAs (Decidable (¬ _))

theorem vmConfigure_cases {utcb kip : Fpage} {malloc : Bool} {r : Result ℕ}
    (hs : s.vmConfigure cfg pid utcb kip malloc = some (t, r)) :
    t = s ∨ s.configures pid utcb kip ∧
      (t = s.setSpace pid ((s.spaces pid).configured utcb kip) ∨
        0x10000 < min kip.address (min utcb.address (word (kip.address + kip.size))) ∧
        ∃ r', ((s.setSpace pid ((s.spaces pid).configured utcb kip)).newMm heapMmap).2.reserveMmap cfg pid s.nextMm 0x10000
          (min kip.address (min utcb.address (word (kip.address + kip.size))) - 0x10000) true true = some (t, r')) := by
  simp only [State.vmConfigure] at hs
  split at hs
  · cases hs
    exact .inl rfl
  next hargs =>
  refine .inr ⟨hargs, ?_⟩
  split at hs
  · cases hs
    exact .inl rfl
  next hlow =>
  split at hs
  · cases hs
    exact .inl rfl
  obtain ⟨⟨u, r'⟩, hu, he⟩ := Option.bind_eq_some_iff.mp hs
  cases he
  exact .inr ⟨Nat.not_le.mp hlow, r', hu⟩

theorem vmConfigure_ok {utcb kip : Fpage} {malloc : Bool} {resvhi : ℕ}
    (hs : s.vmConfigure cfg pid utcb kip malloc = some (t, .ok resvhi)) :
    0x10000 < min kip.address (min utcb.address (word (kip.address + kip.size))) ∧
      resvhi = wordSub (max (word (word (kip.address + kip.size) + pageSize)) (word (utcb.address + utcb.size))) 1 ∧
      ((s.setSpace pid ((s.spaces pid).configured utcb kip)).newMm heapMmap).2.reserveMmap cfg pid s.nextMm 0x10000
        (min kip.address (min utcb.address (word (kip.address + kip.size))) - 0x10000) true true = some (t, .ok ()) := by
  simp only [State.vmConfigure] at hs
  split at hs
  · cases hs
  split at hs
  · cases hs
  next hlow =>
  split at hs
  · cases hs
  obtain ⟨⟨u, r⟩, hu, he⟩ := Option.bind_eq_some_iff.mp hs
  cases r with
  | error e => cases he
  | ok =>
    obtain ⟨rfl, hr⟩ := Prod.mk.inj (Option.some.inj he)
    exact ⟨Nat.not_le.mp hlow, (Except.ok.inj hr).symm, hu⟩

/-- An upload that `vm_upload_page` does not refuse. -/
structure Uploads (s : State) (target addr prot : ℕ) (flags : MapFlags) (malloc : Bool) : Prop where
  utcb : (s.spaces target).utcbArea ≠ .nil
  aligned : addr % pageSize = 0
  flags : flags = ⟨false, true, true, true⟩
  prot : prot ≠ 0
  malloc : malloc = true

/-- `vm_upload_page` up to the virtual page and the record of its mapping. -/
def uploadStart (s : State) (addr prot : ℕ) : State :=
  (({ s with mem := (s.mem.newVp ⟨addr, protToL4Rights prot, false, true, false, 0⟩).2 } : State).newMm
    ⟨0, 0, protToL4Rights prot, false, true, true, ⟨0, 0⟩, 0, 0, 0⟩).2

theorem vmUploadPage_cases {target addr prot : ℕ} {data : List UInt8} {flags : MapFlags} {malloc : Bool} {r : Result Unit}
    (hs : s.vmUploadPage cfg target addr data prot flags malloc = some (t, r)) :
    t = s ∨ s.Uploads target addr prot flags malloc ∧
      ((∃ e, (s.uploadStart addr prot).reserveMmap cfg target s.nextMm addr pageSize true true = some (t, .error e)) ∨
        ∃ u m m', (s.uploadStart addr prot).reserveMmap cfg target s.nextMm addr pageSize true true = some (u, .ok ()) ∧
          u.dropOld cfg target addr = some m ∧ m.attachFresh s.mem.nextVp (pageOf data) = some m' ∧
          t = { u with mem := m'.addPage target s.mem.nextVp }) := by
  simp only [State.vmUploadPage] at hs
  split at hs
  · cases hs
    exact .inl rfl
  next hargs =>
  split at hs
  · cases hs
    exact .inl rfl
  next hshared =>
  split at hs
  · cases hs
    exact .inl rfl
  next hpriv =>
  split at hs
  · cases hs
    exact .inl rfl
  next hmalloc =>
  rw [not_or, not_or, not_or, not_or] at hargs
  obtain ⟨hutcb, halign, hanon, hfixed, hprot⟩ := hargs
  have hflags : flags = ⟨false, true, true, true⟩ := by
    obtain ⟨sh, pr, fi, an⟩ := flags
    simp_all
  refine .inr ⟨⟨hutcb, not_not.mp halign, hflags, hprot, eq_true_of_ne_false hmalloc⟩, ?_⟩
  obtain ⟨⟨u, r'⟩, hu, hs⟩ := Option.bind_eq_some_iff.mp hs
  cases r' with
  | error e =>
    cases hs
    exact .inl ⟨e, hu⟩
  | ok =>
    obtain ⟨_, -, hs⟩ := Option.bind_eq_some_iff.mp hs
    obtain ⟨m, hm, hs⟩ := Option.bind_eq_some_iff.mp hs
    obtain ⟨m', hm', he⟩ := Option.bind_eq_some_iff.mp hs
    cases he
    exact .inr ⟨u, m, m', hu, hm, hm', rfl⟩

theorem vmErase_cases {sender target : ℕ} {order : List ℕ} {r : Result Unit}
    (hs : s.vmErase cfg sender target order = some (t, r)) :
    t = s ∨ ∃ m u, order.Perm (s.mem.pages target) ∧ Mem.eraseVps cfg target order s.mem = some m ∧
      eraseMmaps cfg target (s.mmaps target) { s with mem := m.flushPlbuf } = some u ∧
      t = u.setSpace target (u.spaces target).erased := by
  simp only [State.vmErase] at hs
  split at hs
  · cases hs
    exact .inl rfl
  split at hs
  · obtain ⟨_, -, hs⟩ := Option.bind_eq_some_iff.mp hs
    obtain ⟨_, -, hs⟩ := Option.bind_eq_some_iff.mp hs
    cases hs
    exact .inl rfl
  split at hs
  · cases hs
  next hperm =>
  obtain ⟨m, hm, hs⟩ := Option.bind_eq_some_iff.mp hs
  obtain ⟨u, hu, he⟩ := Option.bind_eq_some_iff.mp hs
  cases he
  exact .inr ⟨m, u, not_not.mp hperm, hm, hu, rfl⟩

theorem vmPf_cases {faddr : ℕ} {rwx : Rights} {ans : PfAnswer} {r : Option (ℕ × Rights)}
    (hs : s.vmPf cfg pid faddr rwx ans = some (t, r)) :
    t = s ∨ (s.spaces pid).utcbArea ≠ .nil ∧
      ((∃ old m, old ∈ s.mem.pages pid ∧ s.mem.pfCow cfg old = some m ∧ t = { s with mem := m }) ∨
        t = (s.findLazyMmap pid faddr).2 ∨
        ∃ i v m, (∀ u ∈ s.mem.pages pid, (s.mem.vp u).addr ≠ pageFloor faddr) ∧ pid ≤ maxPid ∧
          (s.spaces pid).sysinfoArea.overlap ⟨faddr, 1⟩ = false ∧ (s.findLazyMmap pid faddr).1 = some i ∧
          (s.mm i).rights.allow rwx = true ∧
          s.mem.pfMmap cfg pid (s.mm i) (pageFloor faddr) rwx ans = some (v, m) ∧
          t = { (s.findLazyMmap pid faddr).2 with mem := m } ∧ r = some ((m.vp v).status, (m.vp v).rights)) := by
  have hsame : (s.findLazyMmap pid faddr).2.mem = s.mem ∧ (s.findLazyMmap pid faddr).2.mm = s.mm := by
    rw [findLazyMmap]
    split
    · exact ⟨rfl, rfl⟩
    · split <;> exact ⟨rfl, rfl⟩
  simp only [State.vmPf] at hs
  split at hs
  · cases hs
    exact .inl rfl
  next hspace =>
  rw [not_or] at hspace
  split at hs
  · next old hold =>
    split at hs
    · obtain ⟨m, hm, he⟩ := Option.map_eq_some_iff.mp hs
      cases he
      exact .inr ⟨hspace.2, .inl ⟨old, m, List.mem_of_find?_eq_some hold, hm, rfl⟩⟩
    · split at hs
      · cases hs
        exact .inl rfl
      · cases hs
        exact .inl rfl
  next habsent =>
  split at hs
  · cases hs
    exact .inl rfl
  next hsys =>
  refine .inr ⟨hspace.2, .inr ?_⟩
  split at hs
  · next u hu =>
    cases hs
    exact .inl (by rw [hu])
  · next i u hu =>
    rw [hu] at hsame ⊢
    obtain ⟨_, -, hs⟩ := Option.bind_eq_some_iff.mp hs
    split at hs
    · cases hs
      exact .inl rfl
    next hallow =>
    obtain ⟨⟨v, m⟩, hm, he⟩ := Option.bind_eq_some_iff.mp hs
    cases he
    rw [hsame.1, hsame.2] at hm
    rw [hsame.2] at hallow
    exact .inr ⟨i, v, m, fun w hw he => List.find?_eq_none.mp habsent w hw (decide_eq_true he), Nat.not_lt.mp hspace.1,
      Bool.eq_false_iff.mpr hsys, rfl, eq_true_of_ne_false hallow, hm, rfl, rfl⟩

end State

end Sneks.Vm
