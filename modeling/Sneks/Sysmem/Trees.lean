import Sneks.Sysmem.Contents
import Sneks.Lib.Increasing

/-!
# The trees of logical pages are ordered

A task's list of logical pages increases by address, so that an address has at most one
page, and the addresses are those of pages.
-/

namespace Sneks.Sysmem
open Lib

def Op.Words : Op → Prop
  | .fault _ faddr => faddr < 2 ^ 32
  | .sendPhys _ _ frame sizeLog2 faults _ =>
    frame + 2 ^ (sizeLog2 - 12) ≤ 2 ^ 20 ∧ ∀ faddr ∈ faults, faddr < 2 ^ 32
  | .sendVirt _ _ _ destAddr => destAddr < 2 ^ 32
  | .brk _ newBrk => newBrk < 2 ^ 32
  | _ => True

instance : (op : Op) → Decidable op.Words
  | .fault _ faddr => inferInstanceAs (Decidable (faddr < 2 ^ 32))
  | .sendPhys _ _ frame sizeLog2 faults _ =>
    inferInstanceAs (Decidable (frame + 2 ^ (sizeLog2 - 12) ≤ 2 ^ 20 ∧ ∀ faddr ∈ faults, faddr < 2 ^ 32))
  | .sendVirt _ _ _ destAddr => inferInstanceAs (Decidable (destAddr < 2 ^ 32))
  | .brk _ newBrk => inferInstanceAs (Decidable (newBrk < 2 ^ 32))
  | .rmTask .. | .setKernelAreas .. | .alterFlags .. | .write .. => inferInstanceAs (Decidable True)

/-- A call as the kernel delivers it, but for `send_virt` to the page itself. -/
def called (s : State) (a : Step) : Prop := apart s a ∧ a.op.Words

instance (s : State) (a : Step) : Decidable (called s a) := inferInstanceAs (Decidable (_ ∧ _))

structure Trees (s : State) : Prop where
  sys : ∀ {pid tk}, s.tasks pid = some tk → minSysid ≤ pid
  sorted : ∀ {pid tk}, s.tasks pid = some tk → Increasing (fun lp => (s.lpage lp).lAddr) tk.mem
  page : ∀ lp, s.Live lp → (s.lpage lp).lAddr % pageSize = 0 ∧ (s.lpage lp).lAddr < 2 ^ 32
  brk : ∀ {pid tk}, s.tasks pid = some tk → tk.brk < 2 ^ 32

variable {lz : Lz4} {lay : Layout} {s t u : State} {limbo : List ℕ} {p q lp pid : ℕ}

structure Thins (s t : State) : Prop where
  tasks : ∀ {pid tk'}, t.tasks pid = some tk' →
    minSysid ≤ pid ∧ tk'.mem = [] ∧ tk'.brk < 2 ^ 32 ∨
      ∃ tk, s.tasks pid = some tk ∧ List.Sublist tk'.mem tk.mem ∧ (tk'.brk = tk.brk ∨ tk'.brk < 2 ^ 32)
  lAddr : ∀ lp, s.Live lp → (t.lpage lp).lAddr = (s.lpage lp).lAddr

theorem Trees.thin (h : Trees s) (ht : Thins s t) : Trees t := by
  constructor
  case sys =>
    intro pid tk' htk'
    rcases ht.tasks htk' with ⟨hsys, -, -⟩ | ⟨tk, htk, -, -⟩
    · exact hsys
    · exact h.sys htk
  case sorted =>
    intro pid tk' htk'
    rcases ht.tasks htk' with ⟨-, hmem, -⟩ | ⟨tk, htk, hsub, -⟩
    · rw [hmem]
      exact List.Pairwise.nil
    · exact ((h.sorted htk).sublist hsub).congr fun lp hlp => ht.lAddr lp ⟨pid, tk, htk, hsub.subset hlp⟩
  case page =>
    rintro lp ⟨pid, tk', htk', hlp⟩
    rcases ht.tasks htk' with ⟨-, hmem, -⟩ | ⟨tk, htk, hsub, -⟩
    · rw [hmem] at hlp
      cases hlp
    · have hlive : s.Live lp := ⟨pid, tk, htk, hsub.subset hlp⟩
      rw [ht.lAddr lp hlive]
      exact h.page lp hlive
  case brk =>
    intro pid tk' htk'
    rcases ht.tasks htk' with ⟨-, -, hbrk⟩ | ⟨tk, htk, -, hbrk | hbrk⟩
    · exact hbrk
    · rw [hbrk]
      exact h.brk htk
    · exact hbrk

theorem Thins.of_tasks (htasks : t.tasks = s.tasks)
    (hl : ∀ lp, s.Live lp → (t.lpage lp).lAddr = (s.lpage lp).lAddr) : Thins s t := by
  refine ⟨fun {pid tk} htk => .inr ⟨tk, ?_, List.Sublist.refl _, .inl rfl⟩, hl⟩
  rw [← htasks, htk]

theorem Thins.setTask {tk tk' : Task} (htk : s.tasks pid = some tk) (hmem : List.Sublist tk'.mem tk.mem)
    (hbrk : tk'.brk = tk.brk ∨ tk'.brk < 2 ^ 32) : Thins s (s.setTask pid tk') := by
  refine ⟨fun {q tq} htq => .inr ?_, fun _ _ => rfl⟩
  by_cases hq : q = pid
  · subst hq
    rw [setTask_self] at htq
    cases htq
    exact ⟨tk, htk, hmem, hbrk⟩
  · rw [setTask_of_ne hq] at htq
    exact ⟨tq, htq, List.Sublist.refl _, .inl rfl⟩

theorem Kept.thins (h : Kept s t) : Thins s t := .of_tasks h.tasks fun lp _ => (h.attr lp).1

theorem Trees.putLpage (h : Trees s) (hpage : (s.lpage lp).lAddr % pageSize = 0)
    (hword : (s.lpage lp).lAddr < 2 ^ 32) (hs : s.putLpage pid lp = some t) : Trees t := by
  have hlive := live_putLpage hs
  simp only [State.putLpage] at hs
  split at hs
  · cases hs
  next tk htk =>
  split at hs
  · cases hs
  next hnew =>
  cases hs
  have hnew' : ∀ q ∈ tk.mem, (s.lpage q).lAddr ≠ (s.lpage lp).lAddr := by
    intro q hq he
    refine hnew (List.find?_isSome.mpr ⟨q, hq, ?_⟩)
    simpa using he
  have hcases : ∀ {q tq}, (s.setTask pid { tk with
      mem := tk.mem.takeWhile (fun q => (s.lpage q).lAddr < (s.lpage lp).lAddr) ++
        lp :: tk.mem.dropWhile (fun q => (s.lpage q).lAddr < (s.lpage lp).lAddr) }).tasks q = some tq →
      ∃ tk', s.tasks q = some tk' ∧ tq.brk = tk'.brk ∧
        Increasing (fun lp => (s.lpage lp).lAddr) tq.mem := by
    intro q tq htq
    by_cases hq : q = pid
    · subst hq
      rw [setTask_self] at htq
      cases htq
      exact ⟨tk, htk, rfl, (h.sorted htk).insert hnew'⟩
    · rw [setTask_of_ne hq] at htq
      exact ⟨tq, htq, rfl, h.sorted htq⟩
  constructor
  case sys =>
    intro q tq htq
    obtain ⟨tk', htk', -⟩ := hcases htq
    exact h.sys htk'
  case sorted =>
    intro q tq htq
    obtain ⟨-, -, -, hsorted⟩ := hcases htq
    exact hsorted
  case page =>
    intro q hq
    rcases (hlive q).mp hq with rfl | hq
    · exact ⟨hpage, hword⟩
    · exact h.page q hq
  case brk =>
    intro q tq htq
    obtain ⟨tk', htk', hbrk, -⟩ := hcases htq
    rw [hbrk]
    exact h.brk htk'

-- Operations

theorem pageFloor_mod (addr : ℕ) : pageFloor addr % pageSize = 0 := by
  simp [pageFloor, pageSize]

theorem pageFloor_le (addr : ℕ) : pageFloor addr ≤ addr := Nat.div_mul_le_self ..

theorem pageEnd_lt {addr : ℕ} (h : addr < 2 ^ 32) : pageEnd addr < 2 ^ 32 := by
  simp only [pageEnd, pageFloor, pageSize]
  omega

namespace Inv

theorem getTask_trees (h : Inv lz lay s limbo none none) (ht : Trees s)
    (hs : s.getTask lz pid = some t) : Trees t := by
  simp only [State.getTask] at hs
  split at hs
  · cases hs
  next hsys =>
  split at hs
  · cases hs
    exact ht
  split at hs
  · cases hs
  next u ptr hu =>
  cases hs
  obtain ⟨-, hk, -⟩ := h.alloc hu
  refine (ht.thin hk.thins).thin ⟨fun {q tq} htq => ?_, fun _ _ => rfl⟩
  by_cases hq : q = pid
  · subst hq
    rw [setTask_self] at htq
    cases htq
    refine .inl ⟨Nat.le_of_not_lt hsys, rfl, ?_⟩
    show 0x10000 < 2 ^ 32
    decide
  · rw [setTask_of_ne hq] at htq
    exact .inr ⟨tq, htq, List.Sublist.refl _, .inl rfl⟩

theorem newLpage_trees {addr flags : ℕ} (h : Inv lz lay s limbo none none) (ht : Trees s)
    (hpage : addr % pageSize = 0) (hword : addr < 2 ^ 32)
    (hs : s.newLpage lz pid addr flags = some (t, lp)) : Trees t := by
  simp only [State.newLpage] at hs
  split at hs
  · cases hs
  next u ptr hu =>
  obtain ⟨v, hv, he⟩ := Option.map_eq_some_iff.mp hs
  cases he
  obtain ⟨-, hk, hfresh⟩ := h.alloc hu
  have hset : Trees (u.setLpage lp ⟨addr, 0, false, flags⟩) := by
    refine (ht.thin hk.thins).thin (.of_tasks rfl fun q hq => ?_)
    have hne : q ≠ lp := fun he => (hfresh rfl).1 (he ▸ hq)
    simp [State.setLpage, Function.update_of_ne hne]
  have hself : ((u.setLpage lp ⟨addr, 0, false, flags⟩).lpage lp).lAddr = addr := by
    simp [State.setLpage]
  exact hset.putLpage (by rw [hself, hpage]) (by rw [hself]; exact hword) hv

theorem faultIn_trees {addr : ℕ} (h : Inv lz lay s limbo none none) (ht : Trees s)
    (hpage : addr % pageSize = 0) (hword : addr < 2 ^ 32)
    (hs : s.faultIn lz pid addr = some (t, lp)) : Trees t := by
  simp only [State.faultIn] at hs
  split at hs
  · cases hs
  next tk htk =>
  split at hs
  · split at hs
    · cases hs
    split at hs
    · cases hs
    next u lq hu =>
    obtain ⟨v, hv, he⟩ := Option.map_eq_some_iff.mp hs
    cases he
    obtain ⟨htasks, -, hattr, -⟩ := (h.newLpage hu).1.populate_same hv
    exact (h.newLpage_trees ht hpage hword hu).thin (.of_tasks htasks fun q _ => hattr q)
  · next lq hlq =>
    have hlive : s.Live lq := ⟨pid, tk, htk, (getLpage_spec hlq).1⟩
    split at hs
    · split at hs
      · cases hs
      obtain ⟨v, hv, he⟩ := Option.map_eq_some_iff.mp hs
      cases he
      obtain ⟨htasks, -, hattr, -⟩ := h.populate_same hv
      exact ht.thin (.of_tasks htasks fun q _ => hattr q)
    split at hs
    · next hswap =>
      obtain ⟨v, hv, he⟩ := Option.map_eq_some_iff.mp hs
      cases he
      obtain ⟨htasks, -, hattr, -⟩ := h.unswap_same hlive hswap hv
      exact ht.thin (.of_tasks htasks fun q _ => hattr q)
    · cases hs
      exact ht

theorem handlePf_trees {faddr : ℕ} {ok : Bool} (h : Inv lz lay s limbo none none) (ht : Trees s)
    (hword : faddr < 2 ^ 32) (hs : s.handlePf lz pid faddr = some (t, ok)) : Trees t := by
  simp only [State.handlePf] at hs
  split at hs
  · cases hs
    exact ht
  split at hs
  · cases hs
  next u hu =>
  split at hs
  · cases hs
  next v lp hv =>
  split at hs
  · cases hs
  next tk htk =>
  split at hs
  · cases hs
  · cases hs
    have hfloor := pageFloor_le faddr
    refine ((h.getTask hu).1.faultIn_trees (h.getTask_trees ht hu) (pageFloor_mod _) (by omega) hv).thin ?_
    exact .setTask htk (List.Sublist.refl _) (.inl rfl)

theorem interimFaults_trees {sender : ℕ} {faults : List ℕ} (h : Inv lz lay s limbo none none)
    (ht : Trees s) (hword : ∀ faddr ∈ faults, faddr < 2 ^ 32)
    (hs : s.interimFaults lz sender faults = some t) : Trees t := by
  induction faults generalizing s with
  | nil =>
    cases hs
    exact ht
  | cons faddr faults ih =>
    simp only [State.interimFaults] at hs
    split at hs
    · next u hu =>
      exact ih (h.handlePf hu) (h.handlePf_trees ht (hword faddr List.mem_cons_self) hu)
        (fun f hf => hword f (List.mem_cons_of_mem _ hf)) hs
    · cases hs

theorem addTaskPage_trees (h : Inv lz lay s (p :: limbo) none none) (ht : Trees s) (hframe : p < 2 ^ 20)
    (hs : s.addTaskPage lz pid p = some t) : Trees t := by
  simp only [State.addTaskPage, Option.bind_eq_bind, Option.bind_eq_some_iff, Option.some.injEq] at hs
  obtain ⟨⟨u, lp⟩, hu, tk, htk, rfl⟩ := hs
  have hword : p * pageSize < 2 ^ 32 := by
    simp only [pageSize]
    omega
  have hnew : Trees (s.newPpage p) := ht.thin (.of_tasks rfl fun _ _ => rfl)
  have hmade := h.newPpage.newLpage_trees hnew (Nat.mul_mod_left ..) hword hu
  have hbrk := hmade.brk htk
  have hend := pageEnd_lt hword
  refine (hmade.thin (.of_tasks (t := (u.setPage p { u.pages p with age := 1 }).activate lp p) rfl
    fun q _ => activate_lAddr q)).thin (.setTask htk (List.Sublist.refl _) (.inr ?_))
  exact Nat.max_lt.mpr ⟨hbrk, hend⟩

theorem addFrames_trees {dest : Option ℕ} {ps : List ℕ} (h : Inv lz lay s limbo none none) (ht : Trees s)
    (hframe : ∀ p ∈ ps, p < 2 ^ 20) (hs : s.addFrames lz lay dest ps = some t) : Trees t := by
  induction ps generalizing s with
  | nil =>
    cases hs
    exact ht
  | cons p ps ih =>
    simp only [State.addFrames] at hs
    split at hs
    · cases hs
    next hp =>
    simp only [not_or, not_and] at hp
    split at hs
    · cases hs
    next u ptr hu =>
    obtain ⟨hinv, hk, -⟩ := h.alloc hu
    have hrec := hinv.receive hp.1 (by rw [hk.handed]; exact hp.2.1)
    have hu' : Trees { u with handed := p :: u.handed } :=
      (ht.thin hk.thins).thin (.of_tasks rfl fun _ _ => rfl)
    have hframe' : ∀ p ∈ ps, p < 2 ^ 20 := fun q hq => hframe q (List.mem_cons_of_mem _ hq)
    split at hs
    · refine ih hrec.addFreePage (hu'.thin (.of_tasks ?_ fun q _ => ?_)) hframe' hs
      · rw [State.addFreePage]
        split
        · split <;> rfl
        · rfl
      · rw [State.addFreePage]
        split
        · split <;> rfl
        · rfl
    · next pid =>
      obtain ⟨v, hv, hs⟩ := Option.bind_eq_some_iff.mp hs
      rw [if_neg (hp.2.2 rfl)] at hrec
      exact ih (hrec.addTaskPage hv)
        (hrec.addTaskPage_trees hu' (hframe p List.mem_cons_self) hv) hframe' hs

theorem getDest_trees {dest : Option ℕ} (h : Inv lz lay s limbo none none) (ht : Trees s)
    (hs : s.getDest lz dest = some t) : Inv lz lay t limbo none none ∧ Trees t := by
  simp only [State.getDest] at hs
  split at hs
  · cases hs
    exact ⟨h, ht⟩
  · exact ⟨(h.getTask hs).1, h.getTask_trees ht hs⟩

theorem sendPhys_trees {sender : ℕ} {dest : Option ℕ} {frame sizeLog2 : ℕ} {faults : List ℕ}
    {received : Bool} (h : Inv lz lay s limbo none none) (ht : Trees s)
    (hwords : (Op.sendPhys sender dest frame sizeLog2 faults received).Words)
    (hs : s.sendPhys lz lay sender dest frame sizeLog2 faults received = some t) : Trees t := by
  simp only [State.sendPhys] at hs
  split at hs
  · cases hs
    exact ht
  simp only [Option.bind_eq_bind, Option.bind_eq_some_iff] at hs
  obtain ⟨u, hu, v, hv, hs⟩ := hs
  obtain ⟨hinv, ht'⟩ := h.getDest_trees ht hu
  have hv' := hinv.interimFaults_trees ht' hwords.2 hv
  split at hs
  · split at hs
    · cases hs
    · refine (hinv.interimFaults hv).addFrames_trees hv' (fun p hp => ?_) hs
      have := hwords.1
      simp only [List.mem_range'_1] at hp
      omega
  · cases hs
    exact hv'

end Inv

theorem removeLpage_thins (hs : s.removeLpage pid lp = some t) : Thins s t := by
  have hsame := (removeLpage_frame hs).2
  simp only [State.removeLpage, State.eraseLpage, Option.bind_eq_bind, Option.bind_eq_some_iff,
    Option.map_eq_some_iff, Option.some.injEq] at hs
  obtain ⟨u, hu, v, ⟨tk, htk, rfl⟩, rfl⟩ := hs
  have htasks := (dropMemory_frame hu).1
  refine ⟨fun {q tq} htq => .inr ?_, fun q _ => (hsame q).lAddr⟩
  have htq : (u.setTask pid { tk with mem := tk.mem.erase lp }).tasks q = some tq := htq
  by_cases hq : q = pid
  · subst hq
    rw [setTask_self] at htq
    cases htq
    exact ⟨tk, by rw [← htasks, htk], List.erase_sublist, .inl rfl⟩
  · rw [setTask_of_ne hq, htasks] at htq
    exact ⟨tq, htq, List.Sublist.refl _, .inl rfl⟩

theorem Trees.removeLpages {lps : List ℕ} (ht : Trees s) (hs : s.removeLpages pid lps = some t) :
    Trees t := by
  simp only [State.removeLpages] at hs
  induction lps generalizing s with
  | nil =>
    cases hs
    exact ht
  | cons lp lps ih =>
    simp only [List.foldlM_cons, Option.bind_eq_bind, Option.bind_eq_some_iff] at hs
    obtain ⟨u, hu, hs⟩ := hs
    exact ih (ht.thin (removeLpage_thins hu)) hs

theorem Trees.moveLpage {srcPid destPid destAddr : ℕ} {tk : Task} (h : Inv lz lay s limbo none none)
    (ht : Trees s) (htk : s.tasks srcPid = some tk) (hlp : lp ∈ tk.mem)
    (hpage : destAddr % pageSize = 0) (hword : destAddr < 2 ^ 32)
    (hs : s.moveLpage srcPid destPid lp destAddr = some t) : Trees t := by
  simp only [State.moveLpage, State.eraseLpage, Option.bind_eq_bind, Option.bind_eq_some_iff,
    Option.map_eq_some_iff, Option.some.injEq] at hs
  obtain ⟨u, ⟨tk', htk', rfl⟩, w, hw, dk, hdk, rfl⟩ := hs
  obtain rfl : tk = tk' := Option.some.inj (htk.symm.trans htk')
  obtain ⟨-, hlive⟩ := h.lists.erase htk hlp
  have herase : Trees (s.setTask srcPid { tk with mem := tk.mem.erase lp }) :=
    ht.thin (.setTask htk List.erase_sublist (.inl rfl))
  -- the page is in no list while its address changes
  have hset := herase.thin (t := (s.setTask srcPid { tk with mem := tk.mem.erase lp }).setLpage lp
    { s.lpage lp with lAddr := destAddr }) (.of_tasks rfl fun q hq => by
      have hne : q ≠ lp := ((hlive q).mp hq).1
      simp [State.setLpage, Function.update_of_ne hne])
  have hself : ((((s.setTask srcPid { tk with mem := tk.mem.erase lp }).setLpage lp
      { s.lpage lp with lAddr := destAddr }).lpage lp).lAddr) = destAddr := by simp [State.setLpage]
  have hput := hset.putLpage (by rw [hself, hpage]) (by rw [hself]; exact hword) hw
  exact hput.thin (.setTask hdk (List.Sublist.refl _) (.inr (Nat.max_lt.mpr
    ⟨hput.brk hdk, pageEnd_lt hword⟩)))

namespace Inv

theorem sendVirt_trees {srcPid srcAddr destAddr : ℕ} {dest : Option ℕ} {r : Result}
    (h : Inv lz lay s limbo none none) (ht : Trees s) (hword : destAddr < 2 ^ 32)
    (hapart : ¬ (dest = some srcPid ∧ destAddr = srcAddr))
    (hs : s.sendVirt lz srcPid srcAddr dest destAddr = some (t, r)) : Trees t := by
  simp only [State.sendVirt] at hs
  split at hs
  · cases hs
    exact ht
  simp only [Option.bind_eq_bind, Option.bind_eq_some_iff] at hs
  obtain ⟨u, hu, src, hsrc, hs⟩ := hs
  obtain ⟨hinv, -⟩ := h.getTask hu
  have ht := h.getTask_trees ht hu
  split at hs
  · cases hs
  split at hs
  · cases hs
    exact ht
  next lp hlp =>
  obtain ⟨hmem, haddr⟩ := getLpage_spec hlp
  split at hs
  · obtain ⟨v, hv, he⟩ := Option.map_eq_some_iff.mp hs
    cases he
    exact ht.thin (removeLpage_thins hv)
  next destPid =>
  split at hs
  · cases hs
    exact ht
  simp only [Option.bind_eq_some_iff] at hs
  obtain ⟨v, hv, tk, htk, hs⟩ := hs
  obtain ⟨hinv', -, hkept, hattr⟩ := hinv.getTask hv
  have ht := hinv.getTask_trees ht hv
  split at hs
  · cases hs
  next hpage =>
  simp only [Option.bind_eq_some_iff, Option.map_eq_some_iff] at hs
  obtain ⟨w, hw, x, hx, he⟩ := hs
  cases he
  have hsrc' := hkept srcPid src hsrc
  have hpage : destAddr % pageSize = 0 := by simpa using hpage
  simp only [State.removeAt] at hw
  split at hw
  · cases hw
    exact ht.moveLpage hinv' hsrc' hmem hpage hword hx
  next dstp hdstp =>
  obtain ⟨hdmem, hdaddr⟩ := getLpage_spec hdstp
  obtain ⟨hinv'', -, htasks⟩ := hinv'.removeLpage htk hdmem hw
  have ht := ht.thin (removeLpage_thins hw)
  have hne : lp ≠ dstp := by
    rintro rfl
    have hpid : srcPid = destPid := hinv'.lists.unique hsrc' htk hmem hdmem
    refine hapart ⟨congrArg some hpid.symm, ?_⟩
    rw [← hdaddr, hattr, haddr]
  by_cases hpid : srcPid = destPid
  · subst hpid
    obtain rfl : src = tk := Option.some.inj (hsrc'.symm.trans htk)
    refine ht.moveLpage hinv'' (by rw [htasks, Function.update_self]) ?_ hpage hword hx
    exact (List.mem_erase_of_ne hne).mpr hmem
  · exact ht.moveLpage hinv'' (by rw [htasks, Function.update_of_ne hpid, hsrc']) hmem hpage hword hx

theorem brk_trees {newBrk : ℕ} (h : Inv lz lay s limbo none none) (ht : Trees s)
    (hword : newBrk < 2 ^ 32) (hs : s.brk lz pid newBrk = some t) : Trees t := by
  simp only [State.brk] at hs
  split at hs
  · cases hs
    exact ht
  simp only [Option.bind_eq_bind, Option.bind_eq_some_iff] at hs
  obtain ⟨u, hu, tk, htk, hs⟩ := hs
  have ht := h.getTask_trees ht hu
  split at hs
  · split at hs
    · cases hs
    · cases hs
      exact ht.thin (.setTask htk (List.Sublist.refl _) (.inr hword))
    · simp only [Option.bind_eq_some_iff, Option.some.injEq] at hs
      obtain ⟨v, hv, tk', htk', rfl⟩ := hs
      exact (ht.removeLpages hv).thin (.setTask htk' (List.Sublist.refl _) (.inr hword))
  · cases hs
    exact ht.thin (.setTask htk (List.Sublist.refl _) (.inr hword))

theorem alterPage_trees {addr orMask andMask : ℕ} (h : Inv lz lay s limbo none none) (ht : Trees s)
    (hword : addr < 2 ^ 32) (hs : s.alterPage lz pid addr orMask andMask = some t) : Trees t := by
  simp only [State.alterPage, Option.bind_eq_bind, Option.bind_eq_some_iff] at hs
  obtain ⟨tk, htk, hs⟩ := hs
  split at hs
  · cases hs
  next hpage =>
  split at hs
  · next lp hlp =>
    have hset : Trees (s.setLpage lp
        { s.lpage lp with flags := ((s.lpage lp).flags ||| orMask) &&& andMask }) := by
      refine ht.thin (.of_tasks rfl fun q _ => ?_)
      by_cases hq : q = lp
      · subst hq
        simp [State.setLpage]
      · simp [State.setLpage, Function.update_of_ne hq]
    split at hs
    · exact hset.thin (removeLpage_thins hs)
    · cases hs
      exact hset
  · obtain ⟨⟨u, lp⟩, hu, rfl⟩ := Option.map_eq_some_iff.mp hs
    exact h.newLpage_trees ht (by simpa using hpage) hword hu

theorem alterLoop_trees {high orMask andMask n addr : ℕ} (h : Inv lz lay s limbo none none)
    (ht : Trees s) (hhigh : high < 2 ^ 32)
    (hs : s.alterLoop lz pid high orMask andMask n addr = some t) : Trees t := by
  induction n generalizing s addr with
  | zero => cases hs
  | succ n ih =>
    simp only [State.alterLoop] at hs
    split at hs
    · next hlt =>
      split at hs
      · cases hs
      · next u hu => exact ih (h.alterPage hu) (h.alterPage_trees ht (by omega) hu) hs
    · cases hs
      exact ht

theorem alterFlags_trees {sender : ℕ} {task : Option ℕ} {range : Fpage} {orMask andMask : ℕ}
    {r : Result} (h : Inv lz lay s limbo none none) (ht : Trees s)
    (hs : s.alterFlags lz sender task range orMask andMask = some (t, r)) : Trees t := by
  simp only [State.alterFlags] at hs
  split at hs
  · cases hs
    exact ht
  split at hs
  · cases hs
    exact ht
  split at hs
  · cases hs
    exact ht
  split at hs
  · cases hs
    exact ht
  split at hs
  · cases hs
    exact ht
  · obtain ⟨u, hu, he⟩ := Option.map_eq_some_iff.mp hs
    cases he
    exact h.alterLoop_trees ht (Nat.mod_lt _ (by decide)) hu

end Inv

theorem Trees.rmTask (ht : Trees s) (hs : s.rmTask pid = some t) : Trees t := by
  simp only [State.rmTask] at hs
  split at hs
  · cases hs
    exact ht
  split at hs
  · cases hs
    exact ht
  simp only [Option.bind_eq_bind, Option.bind_eq_some_iff, Option.some.injEq] at hs
  obtain ⟨u, hu, rfl⟩ := hs
  refine (ht.removeLpages hu).thin ⟨fun {q tq} htq => .inr ?_, fun _ _ => rfl⟩
  by_cases hq : q = pid
  · subst hq
    simp [State.recycle, State.setHeap] at htq
  · simp only [State.recycle, State.setHeap, Function.update_of_ne hq] at htq
    exact ⟨tq, htq, List.Sublist.refl _, .inl rfl⟩

theorem Trees.setKernelAreas {utcbArea kipArea : Fpage} (ht : Trees s) :
    Trees (s.setKernelAreas pid utcbArea kipArea).1 := by
  simp only [State.setKernelAreas]
  split
  · exact ht
  next tk htk =>
  split
  · exact ht
  split
  · exact ht
  · exact ht.thin (.setTask htk (List.Sublist.refl _) (.inl rfl))

theorem Trees.write {addr : ℕ} {page : Page} (ht : Trees s) (hs : s.write pid addr page = some t) :
    Trees t := by
  simp only [State.write, Option.bind_eq_bind, Option.bind_eq_some_iff] at hs
  obtain ⟨tk, htk, lp, hlp, hs⟩ := hs
  split at hs
  · cases hs
    exact ht.thin (.of_tasks rfl fun _ _ => rfl)
  · cases hs

theorem Inv.setRights {rights : List (List ℕ)} (h : Inv lz lay s limbo none none) :
    Inv lz lay { s with rights := rights } limbo none none :=
  ⟨h.books.congr rfl fun _ => rfl, h.lists.congr rfl, h.heap, h.unswaps⟩

theorem Inv.exec_trees {a : Step} (h : Inv lz lay s [] none none) (ht : Trees s) (hok : called s a)
    (hs : Sysmem.exec lz lay s a = some t) : Trees t := by
  obtain ⟨op, rights⟩ := a
  obtain ⟨hapart, hwords⟩ := hok
  have hr : Inv lz lay { s with rights := rights } [] none none := h.setRights
  have ht : Trees { s with rights := rights } := ht.thin (.of_tasks rfl fun _ _ => rfl)
  cases op with
  | fault pid faddr =>
    obtain ⟨⟨u, ok⟩, hu, rfl⟩ := Option.map_eq_some_iff.mp hs
    exact hr.handlePf_trees ht hwords hu
  | rmTask pid => exact ht.rmTask hs
  | sendPhys sender dest frame sizeLog2 faults received => exact hr.sendPhys_trees ht hwords hs
  | sendVirt srcPid srcAddr dest destAddr =>
    obtain ⟨⟨u, r⟩, hu, rfl⟩ := Option.map_eq_some_iff.mp hs
    exact hr.sendVirt_trees ht hwords hapart hu
  | brk pid newBrk => exact hr.brk_trees ht hwords hs
  | setKernelAreas pid utcbArea kipArea =>
    cases hs
    exact ht.setKernelAreas
  | alterFlags sender task range orMask andMask =>
    obtain ⟨⟨u, r⟩, hu, rfl⟩ := Option.map_eq_some_iff.mp hs
    exact hr.alterFlags_trees ht hu
  | write pid addr page => exact ht.write hs

theorem Trees.init : Trees (State.init lay) := by
  refine ⟨nofun, nofun, ?_, nofun⟩
  rintro lp ⟨pid, tk, htk, -⟩
  cases htk

theorem Trees.of_run {as : List Step} (h : Run (exec lz lay) called (State.init lay) as s) :
    Inv lz lay s [] none none ∧ Trees s :=
  Run.invariant (I := fun s => Inv lz lay s [] none none ∧ Trees s)
    (fun _ _ _ hok he hi => ⟨hi.1.exec hok.1 he, hi.1.exec_trees hi.2 hok he⟩) h ⟨.init, .init⟩

end Sneks.Sysmem
