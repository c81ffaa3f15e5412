import Sneks.Sysmem.Trees
import Sneks.Sysmem.Swap

/-!
# What `brk` removes

The break is inclusive: `handle_pf` serves the page that contains it. `impl_brk` takes the
new break for an exclusive one when it rounds it up, and its scan for the first page to
remove runs over the end of the address space.
-/

namespace Sneks.Sysmem
open Lib

variable {lz : Lz4} {lay : Layout} {s t : State} {tk : Task} {high addr n q lp pid newBrk : ℕ}

/-- The heap's pages wholly above the new break are gone; the task's others are there as they
    were, and so are those of other tasks. -/
structure BrkExact (s t : State) (pid : ℕ) (tk : Task) (newBrk : ℕ) : Prop where
  task : ∃ tk', t.tasks pid = some tk' ∧ tk'.brk = newBrk ∧
    ∀ lp, lp ∈ tk'.mem ↔ lp ∈ tk.mem ∧ ¬ (newBrk < (s.lpage lp).lAddr ∧ (s.lpage lp).lAddr ≤ tk.brk)
  other : ∀ q, q ≠ pid → t.tasks q = s.tasks q
  same : ∀ lp, Same s t lp

/-- When the new break is below the old one: it is not in the last page but at its start, it
    is not the address of a page that exists, and if the old break is in the last page then
    there is a page above the new break. -/
def BrkFits (s : State) (tk : Task) (newBrk : ℕ) : Prop :=
  newBrk < tk.brk → newBrk ≤ 0xfffff000 ∧ (∀ lp ∈ tk.mem, (s.lpage lp).lAddr ≠ newBrk) ∧
    (0xfffff000 ≤ tk.brk → ∃ lp ∈ tk.mem, newBrk < (s.lpage lp).lAddr)

-- The scan

theorem getLpage_none : s.getLpage tk addr = none ↔ ∀ q ∈ tk.mem, (s.lpage q).lAddr ≠ addr := by
  simp [State.getLpage, List.find?_eq_none]

theorem brkFind_found (hs : s.brkFind tk high n addr = some (some lp)) :
    lp ∈ tk.mem ∧ (s.lpage lp).lAddr < high := by
  induction n generalizing addr with
  | zero => cases hs
  | succ n ih =>
    simp only [State.brkFind] at hs
    split at hs
    · next hlt =>
      split at hs
      · next q hq =>
        cases hs
        obtain ⟨hm, ha⟩ := getLpage_spec hq
        exact ⟨hm, by omega⟩
      · exact ih hs
    · cases hs

theorem brkFind_last (haddr : addr < 2 ^ 32) (halign : addr % pageSize = 0)
    (hhigh : 2 ^ 32 - pageSize < high) : s.brkFind tk high n addr ≠ some none := by
  induction n generalizing addr with
  | zero => rintro ⟨⟩
  | succ n ih =>
    simp only [pageSize] at halign hhigh
    have hlt : addr < high := by omega
    simp only [State.brkFind, if_pos hlt]
    split
    · rintro ⟨⟩
    · exact ih (Nat.mod_lt _ (by decide)) (by simp only [word, pageSize]; omega)

def State.Stops (s : State) (tk : Task) (high addr : ℕ) : Prop :=
  ¬ addr < high ∨ s.getLpage tk addr ≠ none

theorem brkFind_ends (haddr : addr < 2 ^ 32) : s.brkFind tk high n addr ≠ none ↔
    ∃ i < n, s.Stops tk high (word (addr + i * pageSize)) := by
  induction n generalizing addr with
  | zero => simp [State.brkFind]
  | succ n ih =>
    have hself : word addr = addr := Nat.mod_eq_of_lt haddr
    have hnext : ∀ i, word (word (addr + pageSize) + i * pageSize) = word (addr + (i + 1) * pageSize) := by
      intro i
      simp only [word, Nat.mod_add_mod]
      congr 1
      rw [Nat.add_mul]
      omega
    have hstep : s.brkFind tk high (n + 1) addr ≠ none ↔
        s.Stops tk high addr ∨ s.brkFind tk high n (word (addr + pageSize)) ≠ none := by
      simp only [State.brkFind, State.Stops]
      split
      · next hlt =>
        split
        · next hq => simp [hq]
        · next hq => simp [hq, hlt]
      · next hlt => simp [hlt]
    have hword : word (addr + pageSize) < 2 ^ 32 := Nat.mod_lt _ (by decide)
    rw [hstep, ih hword]
    constructor
    · rintro (hstop | ⟨i, hi, hstop⟩)
      · exact ⟨0, Nat.succ_pos n, by simpa [hself] using hstop⟩
      · exact ⟨i + 1, by omega, by rwa [← hnext]⟩
    · rintro ⟨i, hi, hstop⟩
      cases i with
      | zero => exact .inl (by simpa [hself] using hstop)
      | succ i => exact .inr ⟨i, by omega, by rwa [hnext]⟩

theorem brkFind_endless (haddr : addr < 2 ^ 32) (hs : s.brkFind tk high (2 ^ 20 + 1) addr = none) :
    s.brkFind tk high n addr = none := by
  by_contra hend
  obtain ⟨i, -, hstop⟩ := (brkFind_ends haddr).mp hend
  refine (brkFind_ends (n := 2 ^ 20 + 1) haddr).mpr ⟨i % 2 ^ 20, ?_, ?_⟩ hs
  · exact Nat.lt_succ_of_lt (Nat.mod_lt _ (by decide))
  · have hword : word (addr + i % 2 ^ 20 * pageSize) = word (addr + i * pageSize) := by
      simp only [word, pageSize]
      omega
    rwa [hword]

/-- The first page at or after `addr`, where the scan does not pass the end of the address
    space. -/
theorem brkFind_least (ht : Trees s) (htk : s.tasks pid = some tk) (halign : addr % pageSize = 0)
    (hhigh : high < 2 ^ 32)
    (hend : high ≤ 2 ^ 32 - pageSize ∨ ∃ q ∈ tk.mem, addr ≤ (s.lpage q).lAddr)
    (hfuel : 2 ^ 32 ≤ addr + n * pageSize) :
    ∃ r, s.brkFind tk high (n + 1) addr = some r ∧
      (r = none → ∀ q ∈ tk.mem, addr ≤ (s.lpage q).lAddr → high ≤ (s.lpage q).lAddr) ∧
      ∀ lp, r = some lp → lp ∈ tk.mem ∧ addr ≤ (s.lpage lp).lAddr ∧
        ∀ q ∈ tk.mem, addr ≤ (s.lpage q).lAddr → (s.lpage lp).lAddr ≤ (s.lpage q).lAddr := by
  induction n generalizing addr with
  | zero =>
    have hge : ¬ addr < high := by omega
    exact ⟨none, by simp [State.brkFind, hge], fun _ q _ hle => by omega, by rintro _ ⟨⟩⟩
  | succ n ih =>
    rw [State.brkFind]
    split
    swap
    · exact ⟨none, rfl, fun _ q _ hle => by omega, by rintro _ ⟨⟩⟩
    next hlt =>
    split
    · next lp hlp =>
      obtain ⟨hm, ha⟩ := getLpage_spec hlp
      refine ⟨some lp, rfl, by rintro ⟨⟩, fun q hq => ?_⟩
      cases hq
      exact ⟨hm, Nat.le_of_eq ha.symm, fun q _ hle => by omega⟩
    · next hnone =>
      -- pages are at multiples of the page size, and there is none here
      have hnone := getLpage_none.mp hnone
      have hup : ∀ q ∈ tk.mem, addr ≤ (s.lpage q).lAddr → addr + pageSize ≤ (s.lpage q).lAddr := by
        intro q hq hle
        obtain ⟨hmod, -⟩ := ht.page q ⟨pid, tk, htk, hq⟩
        have hne := hnone q hq
        simp only [pageSize] at halign hmod ⊢
        omega
      have hnext : addr + pageSize < 2 ^ 32 := by
        rcases hend with hend | ⟨q, hq, hle⟩
        · simp only [pageSize] at halign hend ⊢
          omega
        · exact Nat.lt_of_le_of_lt (hup q hq hle) (ht.page q ⟨pid, tk, htk, hq⟩).2
      have hword : word (addr + pageSize) = addr + pageSize := Nat.mod_eq_of_lt hnext
      have halign' : (addr + pageSize) % pageSize = 0 := by simpa using halign
      obtain ⟨r, hr, hnil, hsome⟩ := ih halign'
        (hend.imp_right (Exists.imp fun q hq => ⟨hq.1, hup q hq.1 hq.2⟩)) (by rw [Nat.add_mul] at hfuel; omega)
      rw [hword]
      refine ⟨r, hr, fun h q hq hle => hnil h q hq (hup q hq hle), fun lp hlp => ?_⟩
      obtain ⟨hm, hle, hleast⟩ := hsome lp hlp
      exact ⟨hm, by omega, fun q hq hle => hleast q hq (hup q hq hle)⟩

/-- The address that the scan of `impl_brk` starts at. -/
def brkLow (newBrk : ℕ) : ℕ := pageFloor (word (newBrk + (pageSize - 1)))

theorem brkLow_mod (newBrk : ℕ) : brkLow newBrk % pageSize = 0 := pageFloor_mod _

theorem brkLow_lt (newBrk : ℕ) : brkLow newBrk < 2 ^ 32 :=
  Nat.lt_of_le_of_lt (pageFloor_le _) (Nat.mod_lt _ (by decide))

theorem brkLow_le (hword : newBrk ≤ 0xfffff000) (halign : addr % pageSize = 0) :
    brkLow newBrk ≤ addr ↔ newBrk ≤ addr := by
  simp only [brkLow, pageFloor, word, pageSize] at halign ⊢
  omega

theorem brkLow_self (hword : newBrk < 2 ^ 32) (halign : newBrk % pageSize = 0) : brkLow newBrk = newBrk := by
  simp only [brkLow, pageFloor, word, pageSize] at halign ⊢
  omega

theorem lt_pageEnd (brk : ℕ) (halign : addr % pageSize = 0) : addr < pageEnd brk ↔ addr ≤ brk := by
  simp only [pageEnd, pageFloor, pageSize] at halign ⊢
  omega

theorem Trees.brk_eq (ht : Trees s) (htk : s.tasks pid = some tk) : s.brk lz pid newBrk =
    if newBrk < tk.brk then
      match s.brkFind tk (pageEnd tk.brk) (2 ^ 20 + 1) (brkLow newBrk) with
      | none => none
      | some none => some (s.setTask pid { tk with brk := newBrk })
      | some (some lp) => do
        let s ← s.removeLpages pid
          ((tk.mem.dropWhile (· ≠ lp)).takeWhile fun q => (s.lpage q).lAddr < pageEnd tk.brk)
        let t ← s.tasks pid
        some (s.setTask pid { t with brk := newBrk })
    else some (s.setTask pid { tk with brk := newBrk }) := by
  have hget : s.getTask lz pid = some s := by
    simp [State.getTask, Nat.not_lt.mpr (ht.sys htk), htk]
  simp only [State.brk, if_neg (Nat.not_lt.mpr (ht.sys htk)), hget, htk, Option.bind_eq_bind,
    Option.bind_some]
  rfl

theorem BrkExact.of_setTask
    (hnone : ∀ lp ∈ tk.mem, ¬ (newBrk < (s.lpage lp).lAddr ∧ (s.lpage lp).lAddr ≤ tk.brk)) :
    BrkExact s (s.setTask pid { tk with brk := newBrk }) pid tk newBrk where
  task := ⟨_, setTask_self, rfl, fun lp => ⟨fun hm => ⟨hm, hnone lp hm⟩, fun h => h.1⟩⟩
  other _ hq := setTask_of_ne hq
  same _ := .congr rfl rfl fun _ _ => rfl

theorem Inv.brk_removes (newBrk : ℕ) (h : Inv lz lay s limbo none none) (ht : Trees s) (htk : s.tasks pid = some tk)
    (hlp : lp ∈ tk.mem) : ∃ t tk', (do
      let s ← s.removeLpages pid
        ((tk.mem.dropWhile (· ≠ lp)).takeWhile fun q => (s.lpage q).lAddr < pageEnd tk.brk)
      let t ← s.tasks pid
      some (s.setTask pid { t with brk := newBrk })) = some t ∧
      t.tasks pid = some tk' ∧ tk'.brk = newBrk ∧
      (∀ q, q ∈ tk'.mem ↔
        q ∈ tk.mem ∧ ¬ ((s.lpage lp).lAddr ≤ (s.lpage q).lAddr ∧ (s.lpage q).lAddr ≤ tk.brk)) ∧
      (∀ q, q ≠ pid → t.tasks q = s.tasks q) ∧ ∀ q, Same s t q := by
  have hseg : ∀ q, q ∈ (tk.mem.dropWhile (· ≠ lp)).takeWhile
      (fun q => (s.lpage q).lAddr < pageEnd tk.brk) ↔
      q ∈ tk.mem ∧ (s.lpage lp).lAddr ≤ (s.lpage q).lAddr ∧ (s.lpage q).lAddr ≤ tk.brk := by
    intro q
    have hmem := (ht.sorted htk).mem_segment (y := q) (b := pageEnd tk.brk) hlp
    constructor
    · intro hq
      obtain ⟨hm, hle, hlt⟩ := hmem.mp hq
      exact ⟨hm, hle, (lt_pageEnd tk.brk (ht.page q ⟨pid, tk, htk, hm⟩).1).mp hlt⟩
    · rintro ⟨hm, hle, hbrk⟩
      exact hmem.mpr ⟨hm, hle, (lt_pageEnd tk.brk (ht.page q ⟨pid, tk, htk, hm⟩).1).mpr hbrk⟩
  have hsub : List.Sublist ((tk.mem.dropWhile (· ≠ lp)).takeWhile
      fun q => (s.lpage q).lAddr < pageEnd tk.brk) tk.mem :=
    (List.takeWhile_sublist _).trans (List.dropWhile_sublist _)
  have hnodup := (h.lists.nodup htk).sublist hsub
  obtain ⟨u, hu, hother⟩ := h.removeLpages_some htk (fun q hq => hsub.subset hq) hnodup
  obtain ⟨-, tk', htk', hmem⟩ := h.removeLpages htk (fun q hq => hsub.subset hq) hnodup hu
  refine ⟨u.setTask pid { tk' with brk := newBrk }, { tk' with brk := newBrk }, ?_, setTask_self, rfl,
    fun q => ?_, fun q hq => (setTask_of_ne hq).trans (hother q hq), fun q =>
      ((removeLpages_frame hu).2 q).trans (.congr rfl rfl fun _ _ => rfl)⟩
  · simp only [Option.bind_eq_bind, hu, Option.bind_some, htk']
  · rw [hmem q, hseg q]
    tauto

theorem Trees.brkFind_self (ht : Trees s) (htk : s.tasks pid = some tk) (hword : newBrk < 2 ^ 32) (hlt : newBrk < tk.brk)
    (hlp : lp ∈ tk.mem) (ha : (s.lpage lp).lAddr = newBrk) :
    s.brkFind tk (pageEnd tk.brk) (2 ^ 20 + 1) (brkLow newBrk) = some (some lp) := by
  have hmod := (ht.page lp ⟨pid, tk, htk, hlp⟩).1
  have hself := brkLow_self hword (ha ▸ hmod)
  have hbelow : newBrk < pageEnd tk.brk := ha ▸ (lt_pageEnd tk.brk hmod).mpr (by omega)
  have hget : s.getLpage tk newBrk = some lp := (ht.sorted htk).find?_eq.mpr ⟨hlp, ha⟩
  rw [hself, State.brkFind, if_pos hbelow, hget]

theorem Inv.fits_of_exact (hinv : Inv lz lay s limbo none none) (ht : Trees s) (htk : s.tasks pid = some tk)
    (hword : newBrk < 2 ^ 32) (hs : s.brk lz pid newBrk = some t) (hexact : BrkExact s t pid tk newBrk) :
    BrkFits s tk newBrk := by
  intro hlt
  have hpage : ∀ q ∈ tk.mem, (s.lpage q).lAddr % pageSize = 0 ∧ (s.lpage q).lAddr < 2 ^ 32 :=
    fun q hq => ht.page q ⟨pid, tk, htk, hq⟩
  obtain ⟨tk', htk', -, hmem⟩ := hexact.task
  rw [ht.brk_eq htk, if_pos hlt] at hs
  split at hs
  · cases hs
  · next hfind =>
    have hlast : tk.brk < 0xfffff000 := by
      by_contra hlast
      refine brkFind_last (brkLow_lt newBrk) (brkLow_mod newBrk) ?_ hfind
      simp only [pageEnd, pageFloor, pageSize]
      omega
    refine ⟨by omega, fun lq hlq ha => ?_, fun hle => absurd hlast (Nat.not_lt.mpr hle)⟩
    rw [ht.brkFind_self htk hword hlt hlq ha] at hfind
    cases hfind
  · next lp hfind =>
    obtain ⟨hlp, hend⟩ := brkFind_found hfind
    obtain ⟨u, uk, hu, huk, -, humem, -⟩ := hinv.brk_removes newBrk ht htk hlp
    rw [hu] at hs
    cases hs
    obtain rfl : uk = tk' := Option.some.inj (huk.symm.trans htk')
    -- the page that was found is removed, so that it is above the break
    have hgone : lp ∉ uk.mem := by
      intro hm
      exact ((humem lp).mp hm).2 ⟨Nat.le_refl _, (lt_pageEnd tk.brk (hpage lp hlp).1).mp hend⟩
    have habove : newBrk < (s.lpage lp).lAddr := by
      by_contra hle
      exact hgone ((hmem lp).mpr ⟨hlp, fun hab => hle hab.1⟩)
    obtain ⟨hmod, hlpw⟩ := hpage lp hlp
    refine ⟨?_, fun lq hlq ha => ?_, fun _ => ⟨lp, hlp, habove⟩⟩
    · simp only [pageSize] at hmod
      omega
    · rw [ht.brkFind_self htk hword hlt hlq ha] at hfind
      cases hfind
      exact Nat.lt_irrefl _ (ha ▸ habove)

theorem Inv.exact_of_fits (hinv : Inv lz lay s limbo none none) (ht : Trees s) (htk : s.tasks pid = some tk)
    (hlt : newBrk < tk.brk) (hfits : BrkFits s tk newBrk) :
    ∃ t, s.brk lz pid newBrk = some t ∧ BrkExact s t pid tk newBrk := by
  have hbrk := ht.brk htk
  have hpage : ∀ q ∈ tk.mem, (s.lpage q).lAddr % pageSize = 0 ∧ (s.lpage q).lAddr < 2 ^ 32 :=
    fun q hq => ht.page q ⟨pid, tk, htk, hq⟩
  rw [ht.brk_eq htk, if_pos hlt]
  obtain ⟨hle, hself, hlast⟩ := hfits hlt
  have hend : pageEnd tk.brk ≤ 2 ^ 32 - pageSize ∨ ∃ q ∈ tk.mem, brkLow newBrk ≤ (s.lpage q).lAddr := by
    by_cases htop : 0xfffff000 ≤ tk.brk
    · obtain ⟨q, hq, hab⟩ := hlast htop
      exact .inr ⟨q, hq, (brkLow_le hle (hpage q hq).1).mpr (Nat.le_of_lt hab)⟩
    · refine .inl ?_
      simp only [pageEnd, pageFloor, pageSize]
      omega
  obtain ⟨r, hr, hnil, hsome⟩ := brkFind_least (n := 2 ^ 20) ht htk (brkLow_mod newBrk)
    (pageEnd_lt hbrk) hend (by simp only [pageSize]; omega)
  rw [hr]
  cases r with
  | none =>
    refine ⟨_, rfl, .of_setTask fun lp hlp hab => ?_⟩
    have hout := hnil rfl lp hlp ((brkLow_le hle (hpage lp hlp).1).mpr (Nat.le_of_lt hab.1))
    have hin := (lt_pageEnd tk.brk (hpage lp hlp).1).mpr hab.2
    omega
  | some lp =>
    obtain ⟨hlp, hge, hleast⟩ := hsome lp rfl
    obtain ⟨u, uk, hu, huk, hbrk', humem, hother, hsame⟩ := hinv.brk_removes newBrk ht htk hlp
    refine ⟨u, hu, ⟨uk, huk, hbrk', fun q => ?_⟩, hother, hsame⟩
    rw [humem q]
    refine and_congr_right fun hq => not_congr (and_congr_left fun _ => ?_)
    constructor
    · intro hle'
      have hnew := (brkLow_le hle (hpage lp hlp).1).mp hge
      exact Nat.lt_of_le_of_ne (Nat.le_trans hnew hle') (Ne.symm (hself q hq))
    · intro hab
      exact hleast q hq ((brkLow_le hle (hpage q hq).1).mpr (Nat.le_of_lt hab))

/-- `impl_brk` returns and removes what it should exactly when the break fits. -/
theorem brk_exact {as : List Step} (h : Run (exec lz lay) called (State.init lay) as s)
    (htk : s.tasks pid = some tk) (hword : newBrk < 2 ^ 32) :
    (∃ t, s.brk lz pid newBrk = some t ∧ BrkExact s t pid tk newBrk) ↔ BrkFits s tk newBrk := by
  obtain ⟨hinv, ht⟩ := Trees.of_run h
  refine ⟨fun ⟨t, hs, hexact⟩ => hinv.fits_of_exact ht htk hword hs hexact, fun hfits => ?_⟩
  by_cases hlt : newBrk < tk.brk
  · exact hinv.exact_of_fits ht htk hlt hfits
  · -- the heap grows or stays
    rw [ht.brk_eq htk, if_neg hlt]
    refine ⟨_, rfl, .of_setTask fun lp _ => ?_⟩
    omega

def heapRun : List Step :=
  [⟨.brk (minSysid + 1) 0x1fffff, []⟩, ⟨.fault (minSysid + 1) 0x100000, []⟩,
   ⟨.fault (minSysid + 1) 0x101000, []⟩]

def State.addresses (s : State) : Option (List ℕ × ℕ) :=
  (s.tasks (minSysid + 1)).map fun tk => (tk.mem.map fun lp => (s.lpage lp).lAddr, tk.brk)

theorem run_heapRun : ∃ s,
    Run (exec lz4Constant swapLayout) called (State.init swapLayout) heapRun s ∧
      (s.addresses, (s.brk lz4Constant (minSysid + 1) 0x101000).bind State.addresses) =
        (some ([0x100000, 0x101000], 0x1fffff), some ([0x100000], 0x101000)) :=
  Run.exists_of_evalRun (exec lz4Constant swapLayout) called (State.init swapLayout) heapRun
    (fun s => (s.addresses, (s.brk lz4Constant (minSysid + 1) 0x101000).bind State.addresses)) _
    (by decide +kernel)

/-- A new break within the first page leaves that one. -/
theorem brk_exact_heap : ∃ s tk, Run (exec lz4Constant swapLayout) called (State.init swapLayout) heapRun s ∧
    s.tasks (minSysid + 1) = some tk ∧
    ∃ t, s.brk lz4Constant (minSysid + 1) 0x100800 = some t ∧ BrkExact s t (minSysid + 1) tk 0x100800 := by
  obtain ⟨s, hrun, hs⟩ := run_heapRun
  simp only [Prod.mk.injEq] at hs
  obtain ⟨tk, htk, he⟩ := Option.map_eq_some_iff.mp hs.1
  simp only [Prod.mk.injEq] at he
  refine ⟨s, tk, hrun, htk, (brk_exact hrun htk (by decide)).mpr fun _ => ⟨by decide, fun lp hlp => ?_, ?_⟩⟩
  · have hm := List.mem_map_of_mem (f := fun lp => (s.lpage lp).lAddr) hlp
    rw [he.1] at hm
    simp only [List.mem_cons, List.not_mem_nil, or_false] at hm
    omega
  · rw [he.2]
    exact fun hle => absurd hle (by decide)

/-- A new break at the start of the second page: the page is removed, though `handle_pf` would
    serve it. -/
theorem brk_removes_break : ∃ s t tk lp,
    Run (exec lz4Constant swapLayout) called (State.init swapLayout) heapRun s ∧
      s.tasks (minSysid + 1) = some tk ∧ lp ∈ tk.mem ∧ (s.lpage lp).lAddr = 0x101000 ∧
      s.brk lz4Constant (minSysid + 1) 0x101000 = some t ∧
      t.addresses = some ([0x100000], 0x101000) ∧ ¬ BrkExact s t (minSysid + 1) tk 0x101000 := by
  obtain ⟨s, hrun, hs⟩ := run_heapRun
  simp only [Prod.mk.injEq] at hs
  obtain ⟨tk, htk, he⟩ := Option.map_eq_some_iff.mp hs.1
  obtain ⟨t, ht, ht'⟩ := Option.bind_eq_some_iff.mp hs.2
  simp only [Prod.mk.injEq] at he
  have hm : 0x101000 ∈ tk.mem.map fun lp => (s.lpage lp).lAddr := by
    rw [he.1]
    decide
  obtain ⟨lp, hlp, ha⟩ := List.mem_map.mp hm
  refine ⟨s, t, tk, lp, hrun, htk, hlp, ha, ht, ht', fun hexact => ?_⟩
  obtain ⟨tk', htk', -, hmem⟩ := hexact.task
  obtain ⟨tq, htq, he'⟩ := Option.map_eq_some_iff.mp ht'
  obtain rfl : tk' = tq := Option.some.inj (htk'.symm.trans htq)
  simp only [Prod.mk.injEq] at he'
  -- the page keeps its address, and no page of that address is left
  have hkept : lp ∈ tk'.mem := (hmem lp).mpr ⟨hlp, by omega⟩
  have hgone := List.mem_map_of_mem (f := fun lp => (t.lpage lp).lAddr) hkept
  rw [he'.1, (hexact.same lp).lAddr, ha] at hgone
  exact absurd hgone (by decide)

end Sneks.Sysmem
