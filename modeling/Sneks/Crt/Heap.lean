import Sneks.Vm.Layout

/-!
# The heap

`brk` and `sbrk` (`user/crt/heap.c`) over `VM::brk`, which is either done or fails with `ENOMEM`. The runtime
stores the new break before it asks for it and does not take it back.
-/

namespace Sneks.Crt
open Lib
open Vm (Config pageCeil pageSize wordSub)
open Vm.State (brkAddr)

structure Heap where
  currentBrk : ℕ
  heapBottom : ℕ
  /-- The last break that `VM::brk` has granted, or 0. -/
  accepted : ℕ
  /-- What `sbrk` has returned and is not released, from a start to an end. -/
  regions : List (ℕ × ℕ)

/-- A call with the answer of `VM::brk`. -/
inductive HeapStep
  | brk (addr : BitVec 32) (granted : Bool)
  | sbrk (increment : BitVec 32) (granted : Bool)

namespace Heap

def init : Heap := ⟨0, 0, 0, []⟩

variable (s : Heap)

def accept (addr : ℕ) : Heap := { s with accepted := addr, regions := s.regions.map fun r => (r.1, min r.2 addr) }

def brk (addr : ℕ) (granted : Bool) : ℤ × Heap :=
  let t : Heap :=
    { s with currentBrk := addr, heapBottom := if s.heapBottom = 0 ∨ addr < s.heapBottom then addr else s.heapBottom }
  if addr ≠ s.currentBrk then if granted then (0, t.accept addr) else (-1, t) else (0, t)

/-- The break that `sbrk` asks for. -/
def newBrk (increment : BitVec 32) : ℕ :=
  if 0 < increment.toInt then pageCeil (s.currentBrk + increment.toNat)
  else wordSub s.currentBrk (pageCeil (-increment).toNat)

/-- `sbrk`, with what it returns unless that is -1. -/
def sbrk (increment : BitVec 32) (granted : Bool) : Option (Option ℕ × Heap) :=
  if increment = 0 then some (some s.currentBrk, s)
  else if s.currentBrk = 0 then none
  else
    let (n, t) := s.brk (s.newBrk increment) granted
    some (if n ≠ 0 then none else some s.currentBrk, t)

/-- The bytes that were asked for from what `sbrk` has returned on. -/
def claim (increment : BitVec 32) (ret : Option ℕ) : Heap :=
  match ret with
  | some p => if 0 < increment.toInt then { s with regions := (p, p + increment.toNat) :: s.regions } else s
  | none => s

def exec : HeapStep → Option Heap
  | .brk addr granted => some (s.brk addr.toNat granted).2
  | .sbrk increment granted => (s.sbrk increment granted).map fun (ret, t) => t.claim increment ret

/-- The runtime's break is the one that was granted. What `sbrk` has returned is below it, and below what
`vm_brk` makes of it, and no two regions overlap. -/
structure Kept (cfg : Config) : Prop where
  current : s.currentBrk = s.accepted
  within : ∀ r ∈ s.regions, r.2 ≤ s.accepted ∧ r.2 ≤ brkAddr cfg s.accepted
  apart : s.regions.Pairwise fun r r' => r.2 ≤ r'.1 ∨ r'.2 ≤ r.1

/-- A break other than the runtime's is granted, and one that grows by `sbrk` stays below the last address
for users. -/
def Fits (cfg : Config) : HeapStep → Prop
  | .brk addr granted => addr.toNat ≠ s.currentBrk → granted
  | .sbrk increment granted =>
    increment ≠ 0 → granted ∧ (0 < increment.toInt → s.currentBrk + increment.toNat ≤ cfg.userAddrMax + 1)

instance (cfg : Config) (step : HeapStep) : Decidable (s.Fits cfg step) :=
  match step with
  | .brk _ _ => inferInstanceAs (Decidable (_ ≠ _ → _ = true))
  | .sbrk _ _ => inferInstanceAs (Decidable (_ ≠ _ → _ = true ∧ (_ < _ → _ ≤ _)))

variable {s} {t : Heap} {cfg : Config} {addr : ℕ}

-- What vm_brk makes of a break

theorem le_pageCeil {n : ℕ} (h : n ≤ 2 ^ 32 - pageSize) : n ≤ pageCeil n := by
  rw [Vm.State.pageCeil_eq h]
  simp only [pageSize] at *
  omega

theorem pageCeil_le {n b : ℕ} (hn : n ≤ b) (hb : b % pageSize = 0) (hlt : b < 2 ^ 32) : pageCeil n ≤ b := by
  simp only [pageSize] at *
  rw [Vm.State.pageCeil_eq (by simp only [pageSize]; omega)]
  simp only [pageSize]
  omega

theorem brkAddr_le (hends : cfg.EndsPage) (hmax : cfg.userAddrMax + 1 < 2 ^ 32) (addr : ℕ) : brkAddr cfg addr ≤ cfg.userAddrMax + 1 :=
  pageCeil_le (Nat.le_succ_of_le (Nat.min_le_right _ _)) hends.1 hmax

theorem le_brkAddr (hends : cfg.EndsPage) (hmax : cfg.userAddrMax + 1 < 2 ^ 32) {x : ℕ} (haddr : x ≤ addr)
    (hx : x ≤ cfg.userAddrMax + 1) : x ≤ brkAddr cfg addr := by
  have hpage := hends.1
  simp only [pageSize] at hpage
  rw [brkAddr, Vm.State.pageCeil_eq (by simp only [pageSize]; omega)]
  simp only [pageSize]
  omega

theorem clip_eq {l : List (ℕ × ℕ)} (h : ∀ r ∈ l, r.2 ≤ addr) : (l.map fun r => (r.1, min r.2 addr)) = l := by
  conv_rhs => rw [← List.map_id l]
  exact List.map_congr_left fun r hr => by rw [Nat.min_eq_left (h r hr)]; rfl

theorem brk_granted (h : s.Kept cfg) {granted : Bool} (hok : addr ≠ s.currentBrk → granted) :
    (s.brk addr granted).1 = 0 ∧ (s.brk addr granted).2.currentBrk = addr ∧ (s.brk addr granted).2.accepted = addr ∧
      (s.brk addr granted).2.regions = s.regions.map fun r => (r.1, min r.2 addr) := by
  unfold brk
  by_cases heq : addr = s.currentBrk
  · have haccepted : addr = s.accepted := heq.trans h.current
    rw [if_neg (not_not.mpr heq)]
    refine ⟨rfl, rfl, haccepted.symm, (clip_eq fun r hr => ?_).symm⟩
    exact haccepted ▸ (h.within r hr).1
  · rw [if_pos heq, if_pos (hok heq)]
    exact ⟨rfl, rfl, rfl, rfl⟩

theorem Kept.brk (h : s.Kept cfg) (hends : cfg.EndsPage) (hmax : cfg.userAddrMax + 1 < 2 ^ 32) {granted : Bool}
    (hok : addr ≠ s.currentBrk → granted) : (s.brk addr granted).2.Kept cfg := by
  obtain ⟨-, hcurrent, haccepted, hregions⟩ := brk_granted h hok
  constructor
  · rw [hcurrent, haccepted]
  · rw [hregions, haccepted]
    intro r hr
    obtain ⟨r', hr', rfl⟩ := List.mem_map.mp hr
    have hlow := (h.within r' hr').2.trans (brkAddr_le hends hmax _)
    exact ⟨Nat.min_le_right _ _, le_brkAddr hends hmax (Nat.min_le_right _ _) ((Nat.min_le_left _ _).trans hlow)⟩
  · rw [hregions, List.pairwise_map]
    exact h.apart.imp fun {r r'} => Or.imp (Nat.min_le_left _ _).trans (Nat.min_le_left _ _).trans

theorem Kept.claim (h : s.Kept cfg) (hends : cfg.EndsPage) (hmax : cfg.userAddrMax + 1 < 2 ^ 32) {n : ℕ} {granted : Bool}
    (hok : addr ≠ s.currentBrk → granted) (hnew : s.currentBrk + n ≤ addr) (hfits : s.currentBrk + n ≤ cfg.userAddrMax + 1) :
    Kept { (s.brk addr granted).2 with regions := (s.currentBrk, s.currentBrk + n) :: (s.brk addr granted).2.regions } cfg := by
  have hkept := h.brk hends hmax hok
  obtain ⟨-, -, haccepted, hregions⟩ := brk_granted h hok
  refine ⟨hkept.current, List.forall_mem_cons.mpr ⟨?_, hkept.within⟩, List.pairwise_cons.mpr ⟨fun r hr => ?_, hkept.apart⟩⟩
  · rw [haccepted]
    exact ⟨hnew, le_brkAddr hends hmax hnew hfits⟩
  · rw [hregions] at hr
    obtain ⟨r', hr', rfl⟩ := List.mem_map.mp hr
    refine .inr ((Nat.min_le_left _ _).trans ?_)
    rw [h.current]
    exact (h.within r' hr').1

theorem Kept.sbrk (h : s.Kept cfg) (hends : cfg.EndsPage) (hmax : cfg.userAddrMax + 1 < 2 ^ 32) {increment : BitVec 32}
    {granted : Bool} (hfits : s.Fits cfg (.sbrk increment granted)) (hs : s.exec (.sbrk increment granted) = some t) : t.Kept cfg := by
  simp only [exec, Heap.sbrk] at hs
  by_cases hzero : increment = 0
  · subst hzero
    cases hs
    exact h
  · obtain ⟨hgranted, hgrows⟩ := hfits hzero
    rw [if_neg hzero] at hs
    split at hs
    · cases hs
    · obtain rfl := Option.some.inj hs
      obtain ⟨hret, -⟩ := brk_granted h (fun _ => hgranted : s.newBrk increment ≠ s.currentBrk → granted)
      dsimp only
      rw [hret, if_neg (not_not.mpr rfl), Heap.claim]
      split
      · next hpos =>
        have hnew : s.currentBrk + increment.toNat ≤ s.newBrk increment := by
          have hpage := hends.1
          simp only [pageSize] at hpage
          rw [newBrk, if_pos hpos]
          refine le_pageCeil ((hgrows hpos).trans ?_)
          simp only [pageSize]
          omega
        exact h.claim hends hmax (fun _ => hgranted) hnew (hgrows hpos)
      · exact h.brk hends hmax fun _ => hgranted

/-- **The heap**: in every run in which `VM::brk` grants each new break, and `sbrk` asks for no more than
there are addresses, the runtime's break is the one that was granted, and what `sbrk` has returned is below
it and does not overlap. -/
theorem kept_of_run {steps : List HeapStep} (hends : cfg.EndsPage) (hmax : cfg.userAddrMax + 1 < 2 ^ 32)
    (hrun : Run exec (Fits · cfg) init steps s) : s.Kept cfg := by
  refine hrun.invariant (I := (Kept · cfg)) (fun s step t hfits hs h => ?_) ⟨rfl, nofun, List.Pairwise.nil⟩
  cases step with
  | brk addr granted =>
    obtain rfl := Option.some.inj hs
    exact h.brk hends hmax hfits
  | sbrk increment granted => exact h.sbrk hends hmax hfits hs

/-- The heap grows twice, shrinks into the second region, and grows again. -/
theorem kept_of_run_four : ∃ s : Heap, s.regions.length = 3 ∧ s.Kept Vm.plainConfig := by
  obtain ⟨s, hrun, hs⟩ := Run.exists_of_evalRun exec (Fits · Vm.plainConfig) init
    [.brk 0x20000 true, .sbrk 0x3000 true, .sbrk 0x2345 true, .sbrk (-0x1001) true, .sbrk 1 true] (·.regions.length) 3 (by decide)
  exact ⟨s, hs, kept_of_run ⟨by decide, by decide⟩ (by decide) hrun⟩

/-- The break is not granted. -/
theorem refused_not_kept : ¬ ∀ (cfg : Config) (steps : List HeapStep) (s : Heap), cfg.EndsPage → cfg.userAddrMax + 1 < 2 ^ 32 →
    Run exec free init steps s → s.Kept cfg := by
  intro hall
  obtain ⟨s, hrun, hs⟩ := Run.exists_of_evalRun exec free init [.brk 0x20000 true, .sbrk 0x1000 false]
    (fun s => decide (s.currentBrk = s.accepted)) false (by decide)
  exact of_decide_eq_false hs (hall Vm.plainConfig _ s ⟨by decide, by decide⟩ (by decide) hrun).current

end Heap

end Sneks.Crt
