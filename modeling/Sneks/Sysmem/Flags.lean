import Sneks.Sysmem.Contents
import Sneks.Sysmem.Swap

/-!
# Logical pages are not empty

`handle_pf` asserts that a logical page without memory has flags. Pages without memory are
made by `impl_alter_flags`, whose flags are the or-mask; with an or-mask of 0 the pages
it makes are empty.
-/

namespace Sneks.Sysmem
open Lib

/-- `p_addr` is not 0, or the page has flags. -/
def State.Backed (s : State) (lp : ℕ) : Prop :=
  (s.lpage lp).page ≠ 0 ∨ (s.lpage lp).swap = true ∨ (s.lpage lp).flags ≠ 0

instance (s : State) (lp : ℕ) : Decidable (s.Backed lp) := inferInstanceAs (Decidable (_ ∨ _))

/-- The assertion of `handle_pf` about a page that it finds. -/
def State.Asserts (s : State) (t : Task) (addr : ℕ) : Prop :=
  ∀ lp, s.getLpage t addr = some lp → (s.lpage lp).page = 0 ∧ (s.lpage lp).swap = false →
    (s.lpage lp).flags ≠ 0

structure NoEmpty (lz : Lz4) (s : State) : Prop where
  backed : ∀ lp, s.Live lp → s.Backed lp
  asserts : ∀ pid t tk addr, s.getTask lz pid = some t → t.tasks pid = some tk → t.Asserts tk addr

/-- `t` is a state that page faults are handled in: `s` between two calls, or one in which
    `impl_send_phys` waits for its second message. -/
def State.Waits (lz : Lz4) (s t : State) : Prop :=
  ∃ rights sender dest faults u, State.getDest lz { s with rights := rights } dest = some u ∧
    u.interimFaults lz sender faults = some t

def State.alters (s : State) (sender : ℕ) (task : Option ℕ) (range : Fpage) (orMask andMask : ℕ) : Prop :=
  orMask &&& andMask = orMask ∧ 12 ≤ 2 ^ range.sizeLog2 ∧ task ≠ some sender ∧
    (s.tasks (task.getD sender)).any
      (fun t => !(t.utcbArea.overlap range) && !(t.kipArea.overlap range)) = true

def State.present (s : State) (pid addr : ℕ) : Prop :=
  (s.tasks pid).any (fun t => (s.getLpage t addr).isSome) = true

/-- Pages made by `alter_flags` have flags; and `send_virt` is as in `apart`. -/
def flagged (s : State) (a : Step) : Prop :=
  apart s a ∧ match a.op with
  | .alterFlags sender task range orMask andMask =>
    orMask ≠ 0 ∨ ¬ s.alters sender task range orMask andMask ∨
      ∀ k < 2 ^ 20, range.address + k * pageSize < word (range.address + 2 ^ range.sizeLog2) →
        s.present (task.getD sender) (range.address + k * pageSize)
  | _ => True

instance (s : State) : (a : Step) → Decidable (flagged s a)
  | ⟨.alterFlags sender task range orMask andMask, rights⟩ =>
    have : Decidable (s.alters sender task range orMask andMask) :=
      inferInstanceAs (Decidable (_ ∧ _))
    have : ∀ addr, Decidable (s.present (task.getD sender) addr) :=
      fun _ => inferInstanceAs (Decidable (_ = true))
    inferInstanceAs (Decidable (apart s ⟨.alterFlags sender task range orMask andMask, rights⟩ ∧
      (orMask ≠ 0 ∨ ¬ s.alters sender task range orMask andMask ∨
        ∀ k < 2 ^ 20, range.address + k * pageSize < word (range.address + 2 ^ range.sizeLog2) →
          s.present (task.getD sender) (range.address + k * pageSize))))
  | ⟨.fault .., _⟩ | ⟨.rmTask .., _⟩ | ⟨.sendPhys .., _⟩ | ⟨.sendVirt .., _⟩ | ⟨.brk .., _⟩
  | ⟨.setKernelAreas .., _⟩ | ⟨.write .., _⟩ => inferInstanceAs (Decidable (_ ∧ True))

variable {lz : Lz4} {lay : Layout} {s t u : State} {limbo : List ℕ} {p q lp pid : ℕ}

-- What each operation fills

theorem backed_iff : s.Backed lp ↔ s.content lp ≠ none ∨ (s.lpage lp).flags ≠ 0 := by
  rw [ne_eq, content_none]
  simp only [State.Backed, not_and_or, Bool.not_eq_false]
  tauto

theorem Same.backed (h : Same s t lp) (hb : s.Backed lp) : t.Backed lp := by
  rw [backed_iff] at hb ⊢
  rwa [h.content, h.flags]

def Fills (s t : State) : Prop := ∀ q, t.Live q → t.Backed q ∨ s.Live q ∧ (s.Backed q → t.Backed q)

theorem Fills.refl (s : State) : Fills s s := fun _ hq => .inr ⟨hq, id⟩

theorem Fills.trans (h : Fills s t) (h' : Fills t u) : Fills s u := by
  intro q hq
  rcases h' q hq with hb | ⟨hlive, hkeep⟩
  · exact .inl hb
  rcases h q hlive with hb | ⟨hlive, hkeep'⟩
  · exact .inl (hkeep hb)
  · exact .inr ⟨hlive, fun hb => hkeep (hkeep' hb)⟩

theorem Fills.backed (h : Fills s t) (hs : ∀ lp, s.Live lp → s.Backed lp) : ∀ lp, t.Live lp → t.Backed lp := by
  intro q hq
  rcases h q hq with hb | ⟨hlive, hkeep⟩
  · exact hb
  · exact hkeep (hs q hlive)

theorem Fills.of_same (hlive : ∀ q, t.Live q → s.Live q) (hsame : ∀ q, s.Live q → Same s t q) :
    Fills s t :=
  fun q hq => .inr ⟨hlive q hq, (hsame q (hlive q hq)).backed⟩

theorem Fills.of_backed (hlive : ∀ q, t.Live q → q = lp ∨ s.Live q) (hb : t.Backed lp)
    (hsame : ∀ q, s.Live q → q ≠ lp → Same s t q) : Fills s t := by
  intro q hq
  by_cases hne : q = lp
  · exact .inl (hne ▸ hb)
  · have hq := (hlive q hq).resolve_left hne
    exact .inr ⟨hq, (hsame q hq hne).backed⟩

theorem Fills.of_tasks (ht : t = { s with tasks := t.tasks }) (hlive : ∀ q, t.Live q → s.Live q) :
    Fills s t := by
  refine .of_same hlive fun q _ => .congr ?_ ?_ fun _ _ => ?_ <;> rw [ht]

theorem Fills.setTask {tk tk' : Task} (htk : s.tasks pid = some tk) (hmem : tk'.mem = tk.mem) :
    Fills s (s.setTask pid tk') := by
  refine .of_tasks rfl fun q hq => ?_
  rcases live_setTask.mp hq with hm | ⟨pid', t, -, ht, hm⟩
  · exact ⟨pid, tk, htk, hmem ▸ hm⟩
  · exact ⟨pid', t, ht, hm⟩

theorem Fills.removeLpage (hs : s.removeLpage pid lp = some t) : Fills s t :=
  .of_same (removeLpage_frame hs).1 fun q _ => (removeLpage_frame hs).2 q

theorem Fills.removeLpages {lps : List ℕ} (hs : s.removeLpages pid lps = some t) : Fills s t :=
  .of_same (removeLpages_frame hs).1 fun q _ => (removeLpages_frame hs).2 q

namespace Inv

theorem getTask_fills (h : Inv lz lay s limbo none none) (hs : s.getTask lz pid = some t) : Fills s t :=
  .of_same (fun q => ((h.getTask hs).2.1 q).mp) fun _ => h.getTask_same hs

theorem faultIn_fills {addr : ℕ} (h : Inv lz lay s limbo none none)
    (hs : s.faultIn lz pid addr = some (t, lp)) : Fills s t := by
  simp only [State.faultIn] at hs
  split at hs
  · cases hs
  next tk htk =>
  split at hs
  · split at hs
    · cases hs
    split at hs
    · cases hs
    next u lq hu =>
    obtain ⟨v, hv, he⟩ := Option.map_eq_some_iff.mp hs
    cases he
    obtain ⟨hinv, -⟩ := h.newLpage hu
    obtain ⟨-, hlive, -, hsame⟩ := h.newLpage_same hu
    obtain ⟨htasks, hcontent, -, hsame'⟩ := hinv.populate_same hv
    refine .of_backed (fun q hq => (hlive q).mp ?_) (backed_iff.mpr (.inl hcontent))
      fun q hq hne => (hsame q hq).trans (hsame' q ((hlive q).mpr (.inr hq)) hne)
    rwa [live_congr htasks] at hq
  · next lq hlq =>
    have hlive : s.Live lq := ⟨pid, tk, htk, (getLpage_spec hlq).1⟩
    split at hs
    · split at hs
      · cases hs
      obtain ⟨v, hv, he⟩ := Option.map_eq_some_iff.mp hs
      cases he
      obtain ⟨htasks, hcontent, -, hsame⟩ := h.populate_same hv
      refine .of_backed (fun q hq => .inr ?_) (backed_iff.mpr (.inl hcontent)) hsame
      rwa [live_congr htasks] at hq
    split at hs
    · next hswap =>
      obtain ⟨v, hv, he⟩ := Option.map_eq_some_iff.mp hs
      cases he
      obtain ⟨htasks, hcontent, -, hsame⟩ := h.unswap_same hlive hswap hv
      refine .of_backed (fun q hq => .inr ?_) (backed_iff.mpr (.inl hcontent)) hsame
      rwa [live_congr htasks] at hq
    · cases hs
      exact .refl s

theorem handlePf_fills {faddr : ℕ} {ok : Bool} (h : Inv lz lay s limbo none none)
    (hs : s.handlePf lz pid faddr = some (t, ok)) : Fills s t := by
  simp only [State.handlePf] at hs
  split at hs
  · cases hs
    exact .refl s
  split at hs
  · cases hs
  next u hu =>
  split at hs
  · cases hs
  next v lp hv =>
  split at hs
  · cases hs
  next tk htk =>
  split at hs
  · cases hs
  · cases hs
    obtain ⟨hinv, -⟩ := h.getTask hu
    exact ((h.getTask_fills hu).trans (hinv.faultIn_fills hv)).trans (.setTask htk rfl)

theorem interimFaults_fills {sender : ℕ} {faults : List ℕ} (h : Inv lz lay s limbo none none)
    (hs : s.interimFaults lz sender faults = some t) : Fills s t := by
  induction faults generalizing s with
  | nil =>
    cases hs
    exact .refl _
  | cons faddr faults ih =>
    simp only [State.interimFaults] at hs
    split at hs
    · next u hu => exact (h.handlePf_fills hu).trans (ih (h.handlePf hu) hs)
    · cases hs

theorem addTaskPage_fills (h : Inv lz lay s (p :: limbo) none none)
    (hs : s.addTaskPage lz pid p = some t) : Fills s t := by
  simp only [State.addTaskPage, Option.bind_eq_bind, Option.bind_eq_some_iff, Option.some.injEq] at hs
  obtain ⟨⟨u, lp⟩, hu, tk, htk, rfl⟩ := hs
  obtain ⟨-, hlive, -, hsame⟩ := h.newPpage.newLpage_same hu
  set v := (u.setPage p { u.pages p with age := 1 }).activate lp p
  have hnew : Fills s v := by
    refine .of_backed (fun q hq => (hlive q).mp hq) (.inl ?_) fun q hq hne => ?_
    · simpa [v, State.activate] using h.limbo_ne_zero
    · have hmade : Same s (s.newPpage p) q := .congr rfl rfl fun _ _ => rfl
      refine hmade.trans ((hsame q hq).trans (Same.trans ?_ (activate_same hne)))
      exact .congr rfl rfl fun _ _ => rfl
  exact hnew.trans (.setTask htk rfl)

theorem addFrames_fills {dest : Option ℕ} {ps : List ℕ} (h : Inv lz lay s limbo none none)
    (hs : s.addFrames lz lay dest ps = some t) : Fills s t := by
  induction ps generalizing s with
  | nil =>
    cases hs
    exact .refl _
  | cons p ps ih =>
    simp only [State.addFrames] at hs
    split at hs
    · cases hs
    next hp =>
    simp only [not_or, not_and] at hp
    split at hs
    · cases hs
    next u ptr hu =>
    obtain ⟨hinv, hk, -⟩ := h.alloc hu
    have hrec := hinv.receive hp.1 (by rw [hk.handed]; exact hp.2.1)
    have halloc : Fills s { u with handed := p :: u.handed } := by
      refine .of_same (fun q hq => ?_) fun q hq => (h.kept_same hk hq).trans (.congr rfl rfl fun _ _ => rfl)
      rw [← live_congr hk.tasks]
      exact hq
    split at hs
    · refine halloc.trans (Fills.trans (.of_same ?_ ?_) (ih hrec.addFreePage hs))
      · intro q
        rw [State.addFreePage]
        split
        · split <;> exact id
        · exact id
      · intro q _
        rw [State.addFreePage]
        split
        · split <;> exact .congr rfl rfl fun _ _ => rfl
        · exact .congr rfl rfl fun _ _ => rfl
    · next pid =>
      obtain ⟨v, hv, hs⟩ := Option.bind_eq_some_iff.mp hs
      rw [if_neg (hp.2.2 rfl)] at hrec
      exact halloc.trans ((hrec.addTaskPage_fills hv).trans (ih (hrec.addTaskPage hv) hs))

theorem getDest (h : Inv lz lay s limbo none none) {dest : Option ℕ}
    (hs : s.getDest lz dest = some t) : Inv lz lay t limbo none none ∧ Fills s t := by
  simp only [State.getDest] at hs
  split at hs
  · cases hs
    exact ⟨h, .refl s⟩
  · exact ⟨(h.getTask hs).1, h.getTask_fills hs⟩

theorem sendPhys_fills {sender : ℕ} {dest : Option ℕ} {frame sizeLog2 : ℕ} {faults : List ℕ}
    {received : Bool} (h : Inv lz lay s limbo none none)
    (hs : s.sendPhys lz lay sender dest frame sizeLog2 faults received = some t) : Fills s t := by
  simp only [State.sendPhys] at hs
  split at hs
  · cases hs
    exact .refl s
  simp only [Option.bind_eq_bind, Option.bind_eq_some_iff] at hs
  obtain ⟨u, hu, v, hv, hs⟩ := hs
  obtain ⟨hinv, hfills⟩ := h.getDest hu
  have hinv' := hinv.interimFaults hv
  refine hfills.trans ((hinv.interimFaults_fills hv).trans ?_)
  split at hs
  · split at hs
    · cases hs
    · exact hinv'.addFrames_fills hs
  · cases hs
    exact .refl _

theorem sendVirt_fills {srcPid srcAddr destAddr : ℕ} {dest : Option ℕ} {r : Result}
    (h : Inv lz lay s limbo none none)
    (hs : s.sendVirt lz srcPid srcAddr dest destAddr = some (t, r)) : Fills s t := by
  simp only [State.sendVirt] at hs
  split at hs
  · cases hs
    exact .refl s
  simp only [Option.bind_eq_bind, Option.bind_eq_some_iff] at hs
  obtain ⟨u, hu, src, hsrc, hs⟩ := hs
  obtain ⟨hinv, -⟩ := h.getTask hu
  refine (h.getTask_fills hu).trans ?_
  split at hs
  · cases hs
  split at hs
  · cases hs
    exact .refl _
  next lp hlp =>
  split at hs
  · obtain ⟨v, hv, he⟩ := Option.map_eq_some_iff.mp hs
    cases he
    exact .removeLpage hv
  next destPid =>
  split at hs
  · cases hs
    exact .refl _
  simp only [Option.bind_eq_some_iff] at hs
  obtain ⟨v, hv, tk, htk, hs⟩ := hs
  obtain ⟨-, -, hkept, -⟩ := hinv.getTask hv
  refine (hinv.getTask_fills hv).trans ?_
  split at hs
  · cases hs
  simp only [Option.bind_eq_some_iff, Option.map_eq_some_iff] at hs
  obtain ⟨w, hw, x, hx, he⟩ := hs
  cases he
  have hlive : v.Live lp := ⟨srcPid, src, hkept srcPid src hsrc, (getLpage_spec hlp).1⟩
  have hmoved := moveLpage_moved hx
  -- contents and flags of all pages stay, and the moved page was there before
  have hsame : ∀ q, Same v w q := by
    intro q
    simp only [State.removeAt] at hw
    split at hw
    · cases hw
      exact .refl v q
    · exact (removeLpage_frame hw).2 q
  have hlives : ∀ q, w.Live q → v.Live q := by
    intro q
    simp only [State.removeAt] at hw
    split at hw
    · cases hw
      exact id
    · exact (removeLpage_frame hw).1 q
  intro q hq
  by_cases hne : q = lp
  · subst hne
    refine .inr ⟨hlive, fun hb => ?_⟩
    have hb := (hsame q).backed hb
    rw [backed_iff] at hb ⊢
    rwa [hmoved.content, hmoved.lpage]
  · exact .inr ⟨hlives q ((hmoved.live q hq).resolve_left hne),
      fun hb => (hmoved.other q hne).backed ((hsame q).backed hb)⟩

theorem brk_fills {newBrk : ℕ} (h : Inv lz lay s limbo none none) (hs : s.brk lz pid newBrk = some t) :
    Fills s t := by
  simp only [State.brk] at hs
  split at hs
  · cases hs
    exact .refl s
  simp only [Option.bind_eq_bind, Option.bind_eq_some_iff] at hs
  obtain ⟨u, hu, tk, htk, hs⟩ := hs
  refine (h.getTask_fills hu).trans ?_
  split at hs
  · split at hs
    · cases hs
    · cases hs
      exact .setTask htk rfl
    · simp only [Option.bind_eq_some_iff, Option.some.injEq] at hs
      obtain ⟨v, hv, tk', htk', rfl⟩ := hs
      exact (Fills.removeLpages hv).trans (.setTask htk' rfl)
  · cases hs
    exact .setTask htk rfl

end Inv

theorem Fills.rmTask (hs : s.rmTask pid = some t) : Fills s t := by
  simp only [State.rmTask] at hs
  split at hs
  · cases hs
    exact .refl s
  split at hs
  · cases hs
    exact .refl s
  simp only [Option.bind_eq_bind, Option.bind_eq_some_iff, Option.some.injEq] at hs
  obtain ⟨u, hu, rfl⟩ := hs
  refine (Fills.removeLpages hu).trans (.of_same ?_ fun q _ => .congr rfl rfl fun _ _ => rfl)
  rintro q ⟨pid', t, ht, hm⟩
  by_cases hp : pid' = pid
  · subst hp
    simp only [State.recycle, State.setHeap, Function.update_self, reduceCtorEq] at ht
  · simp only [State.recycle, State.setHeap, Function.update_of_ne hp] at ht
    exact ⟨pid', t, ht, hm⟩

theorem Fills.setKernelAreas {utcbArea kipArea : Fpage} :
    Fills s (s.setKernelAreas pid utcbArea kipArea).1 := by
  simp only [State.setKernelAreas]
  split
  · exact .refl s
  next tk htk =>
  split
  · exact .refl s
  split
  · exact .refl s
  · exact .setTask htk rfl

-- Flags

theorem Inv.alterPage_fills {addr orMask andMask : ℕ} (h : Inv lz lay s limbo none none)
    (hok : orMask ≠ 0 ∨ s.present pid addr) (hs : s.alterPage lz pid addr orMask andMask = some t) :
    Fills s t := by
  simp only [State.alterPage, Option.bind_eq_bind, Option.bind_eq_some_iff] at hs
  obtain ⟨tk, htk, hs⟩ := hs
  split at hs
  · cases hs
  split at hs
  · next lp hlp =>
    have hmem : lp ∈ tk.mem := (getLpage_spec hlp).1
    have hother : ∀ q, q ≠ lp → Same s (s.setLpage lp
        { s.lpage lp with flags := ((s.lpage lp).flags ||| orMask) &&& andMask }) q :=
      fun q hne => .congr (Function.update_of_ne hne ..) rfl fun _ _ => rfl
    split at hs
    · obtain ⟨-, -, htasks⟩ := h.setFlags.removeLpage htk hmem hs
      obtain ⟨-, hlive⟩ := h.lists.erase htk hmem
      intro q hq
      rw [live_congr (s := s.setTask pid { tk with mem := tk.mem.erase lp }) htasks, hlive] at hq
      exact .inr ⟨hq.2, fun hb => ((removeLpage_frame hs).2 q).backed ((hother q hq.1).backed hb)⟩
    · next hleft =>
      cases hs
      refine .of_backed (fun q hq => .inr hq) ?_ fun q _ hne => hother q hne
      rw [State.Backed]
      simp only [State.setLpage, Function.update_self, not_and_or, Bool.not_eq_false] at hleft ⊢
      tauto
  · next hnone =>
    have hor : orMask ≠ 0 := by
      refine hok.resolve_right fun hp => ?_
      simp [State.present, htk, hnone] at hp
    obtain ⟨⟨u, lp⟩, hu, rfl⟩ := Option.map_eq_some_iff.mp hs
    obtain ⟨hl, hlive, -, hsame⟩ := h.newLpage_same hu
    refine .of_backed (fun q hq => (hlive q).mp hq) (.inr (.inr ?_)) fun q hq _ => hsame q hq
    rw [hl]
    exact hor

theorem present_iff {addr : ℕ} : s.present pid addr ↔
    ∃ tk lp, s.tasks pid = some tk ∧ lp ∈ tk.mem ∧ (s.lpage lp).lAddr = addr := by
  simp only [State.present, Option.any_eq_true, State.getLpage, List.find?_isSome, decide_eq_true_eq]
  constructor
  · rintro ⟨tk, htk, lp, hm, ha⟩
    exact ⟨tk, lp, htk, hm, ha⟩
  · rintro ⟨tk, lp, htk, hm, ha⟩
    exact ⟨tk, htk, lp, hm, ha⟩

theorem Inv.alterPage_present {addr a orMask andMask : ℕ} (h : Inv lz lay s limbo none none)
    (hne : a ≠ addr) (haddr : s.present pid addr) (ha : s.present pid a)
    (hs : s.alterPage lz pid addr orMask andMask = some t) : t.present pid a := by
  obtain ⟨tk, q, htk, hq, hqa⟩ := present_iff.mp ha
  simp only [State.alterPage, Option.bind_eq_bind, Option.bind_eq_some_iff] at hs
  obtain ⟨tk', htk', hs⟩ := hs
  obtain rfl : tk = tk' := Option.some.inj (htk.symm.trans htk')
  split at hs
  · cases hs
  split at hs
  · next lp hlp =>
    obtain ⟨hmem, hla⟩ := getLpage_spec hlp
    have hql : q ≠ lp := by
      rintro rfl
      exact hne (hqa.symm.trans hla)
    have hqa' : ((s.setLpage lp { s.lpage lp with
        flags := ((s.lpage lp).flags ||| orMask) &&& andMask }).lpage q).lAddr = a := by
      simp only [State.setLpage, Function.update_of_ne hql, hqa]
    split at hs
    · obtain ⟨-, hl, htasks⟩ := h.setFlags.removeLpage htk hmem hs
      refine present_iff.mpr ⟨_, q, by rw [htasks, Function.update_self],
        (List.mem_erase_of_ne hql).mpr hq, ?_⟩
      rw [hl, hqa']
    · cases hs
      exact present_iff.mpr ⟨tk, q, htk, hq, hqa'⟩
  · next hnone => simp [State.present, htk, hnone] at haddr

theorem alterLoop_endless {high orMask andMask n addr : ℕ} (hhigh : 2 ^ 32 - pageSize < high)
    (haddr : addr < 2 ^ 32) (halign : addr % pageSize = 0) :
    s.alterLoop lz pid high orMask andMask n addr = none := by
  induction n generalizing s addr with
  | zero => rfl
  | succ n ih =>
    simp only [pageSize] at hhigh halign
    have hlt : addr < high := by omega
    simp only [State.alterLoop, if_pos hlt]
    split
    · rfl
    · exact ih (Nat.mod_lt _ (by decide)) (by simp only [word, pageSize]; omega)

theorem Inv.alterLoop_fills {high orMask andMask n addr : ℕ} (h : Inv lz lay s limbo none none)
    (hhigh : high < 2 ^ 32)
    (hok : orMask ≠ 0 ∨ ∀ a, addr ≤ a → a < high → a % pageSize = 0 → s.present pid a)
    (hs : s.alterLoop lz pid high orMask andMask n addr = some t) : Fills s t := by
  induction n generalizing s addr with
  | zero => cases hs
  | succ n ih =>
    have hrun := hs
    simp only [State.alterLoop] at hs
    split at hs
    swap
    · cases hs
      exact .refl _
    next hlt =>
    split at hs
    · cases hs
    next u hu =>
    have halign : addr % pageSize = 0 := by
      simp only [State.alterPage, Option.bind_eq_bind, Option.bind_eq_some_iff] at hu
      obtain ⟨_, -, hu⟩ := hu
      by_contra hne
      rw [if_pos hne] at hu
      cases hu
    have hend : high ≤ 2 ^ 32 - pageSize := by
      by_contra hlast
      rw [alterLoop_endless (Nat.lt_of_not_le hlast) (by omega) halign] at hrun
      cases hrun
    have hnext : word (addr + pageSize) = addr + pageSize := by
      simp only [pageSize] at halign hend ⊢
      exact Nat.mod_eq_of_lt (by omega)
    refine (h.alterPage_fills (hok.imp_right fun hp => hp addr (Nat.le_refl _) hlt halign) hu).trans
      (ih (h.alterPage hu) ?_ hs)
    refine hok.imp_right fun hp a hle ha hal => ?_
    rw [hnext] at hle
    have hpos : 0 < pageSize := by decide
    exact h.alterPage_present (by omega) (hp addr (Nat.le_refl _) hlt halign) (hp a (by omega) ha hal) hu

theorem Fills.write {addr : ℕ} {page : Page} (hs : s.write pid addr page = some t) : Fills s t := by
  simp only [State.write, Option.bind_eq_bind, Option.bind_eq_some_iff] at hs
  obtain ⟨tk, htk, lp, hlp, hs⟩ := hs
  split at hs
  · cases hs
    exact fun q hq => .inr ⟨hq, id⟩
  · cases hs

theorem Inv.alterFlags_fills {sender : ℕ} {task : Option ℕ} {range : Fpage} {orMask andMask : ℕ}
    {r : Result} (h : Inv lz lay s limbo none none)
    (hok : orMask ≠ 0 ∨ ¬ s.alters sender task range orMask andMask ∨
      ∀ k < 2 ^ 20, range.address + k * pageSize < word (range.address + 2 ^ range.sizeLog2) →
        s.present (task.getD sender) (range.address + k * pageSize))
    (hs : s.alterFlags lz sender task range orMask andMask = some (t, r)) : Fills s t := by
  simp only [State.alterFlags] at hs
  split at hs
  · cases hs
    exact .refl s
  next hmask =>
  split at hs
  · cases hs
    exact .refl s
  next hsize =>
  split at hs
  · cases hs
    exact .refl s
  next htask =>
  split at hs
  · cases hs
    exact .refl s
  next tk htk =>
  split at hs
  · cases hs
    exact .refl s
  next hareas =>
  obtain ⟨u, hu, he⟩ := Option.map_eq_some_iff.mp hs
  cases he
  have halters : s.alters sender task range orMask andMask := by
    refine ⟨by simpa using hmask, Nat.le_of_not_lt hsize, htask, ?_⟩
    simp only [not_or, Bool.not_eq_true] at hareas
    simp [htk, hareas.1, hareas.2]
  refine h.alterLoop_fills (Nat.mod_lt _ (by decide)) ?_ hu
  rcases hok with hor | hok | hok
  · exact .inl hor
  · exact absurd halters hok
  -- where the first address is not that of a page, the loop does not return
  by_cases hal : range.address % pageSize = 0
  · refine .inr fun a hle hlt ha => ?_
    have hword : word (range.address + 2 ^ range.sizeLog2) < 2 ^ 32 := Nat.mod_lt _ (by decide)
    have hk : range.address + (a - range.address) / pageSize * pageSize = a := by
      simp only [pageSize] at hal ha ⊢
      omega
    have := hok ((a - range.address) / pageSize) (by simp only [pageSize]; omega)
    rw [hk] at this
    exact this hlt
  · refine .inr fun a hle hlt ha => ?_
    have hlt' : range.address < word (range.address + 2 ^ range.sizeLog2) := Nat.lt_of_le_of_lt hle hlt
    rw [State.alterLoop, if_pos hlt'] at hu
    simp [State.alterPage, htk, hal] at hu

theorem Inv.exec_fills {a : Step} (h : Inv lz lay s [] none none) (hok : flagged s a)
    (hs : Sysmem.exec lz lay s a = some t) : Fills s t := by
  obtain ⟨op, rights⟩ := a
  obtain ⟨-, hok⟩ := hok
  have hr : Inv lz lay { s with rights := rights } [] none none :=
    ⟨h.books.congr rfl fun _ => rfl, h.lists.congr rfl, h.heap, h.unswaps⟩
  have hfills : Fills s { s with rights := rights } := .of_same (fun _ => id) fun _ _ => .congr rfl rfl fun _ _ => rfl
  refine hfills.trans ?_
  cases op with
  | fault pid faddr =>
    obtain ⟨⟨u, ok⟩, hu, rfl⟩ := Option.map_eq_some_iff.mp hs
    exact hr.handlePf_fills hu
  | rmTask pid => exact .rmTask hs
  | sendPhys sender dest frame sizeLog2 faults received => exact hr.sendPhys_fills hs
  | sendVirt srcPid srcAddr dest destAddr =>
    obtain ⟨⟨u, r⟩, hu, rfl⟩ := Option.map_eq_some_iff.mp hs
    exact hr.sendVirt_fills hu
  | brk pid newBrk => exact hr.brk_fills hs
  | setKernelAreas pid utcbArea kipArea =>
    cases hs
    exact .setKernelAreas
  | alterFlags sender task range orMask andMask =>
    obtain ⟨⟨u, r⟩, hu, rfl⟩ := Option.map_eq_some_iff.mp hs
    exact hr.alterFlags_fills hok hu
  | write pid addr page => exact .write hs

theorem Inv.noEmpty (h : Inv lz lay s [] none none) (hs : ∀ lp, s.Live lp → s.Backed lp) :
    NoEmpty lz s := by
  refine ⟨hs, fun pid t tk addr ht htk lp hlp hempty => ?_⟩
  have hlive : t.Live lp := ⟨pid, tk, htk, (getLpage_spec hlp).1⟩
  rcases (h.getTask_fills ht).backed hs lp hlive with hpage | hswap | hflags
  · exact absurd hempty.1 hpage
  · rw [hempty.2] at hswap
    cases hswap
  · exact hflags

/-- No logical page is empty in any state that is reached, nor does a page fault find an
    empty one, if no call of `alter_flags` with an or-mask of 0 has a page to make. -/
theorem no_empty_pages {as : List Step} (h : Run (exec lz lay) flagged (State.init lay) as s) :
    NoEmpty lz s ∧ ∀ t, s.Waits lz t → NoEmpty lz t := by
  have hrun : Inv lz lay s [] none none ∧ ∀ lp, s.Live lp → s.Backed lp := by
    refine Run.invariant (I := fun s => Inv lz lay s [] none none ∧ ∀ lp, s.Live lp → s.Backed lp)
      (fun s a t hok he hi => ⟨hi.1.exec hok.1 he, (hi.1.exec_fills hok he).backed hi.2⟩) h
      ⟨.init, ?_⟩
    rintro lp ⟨pid, t, ht, -⟩
    cases ht
  obtain ⟨hinv, hbacked⟩ := hrun
  refine ⟨hinv.noEmpty hbacked, ?_⟩
  rintro t ⟨rights, sender, dest, faults, u, hu, ht⟩
  have hr : Inv lz lay { s with rights := rights } [] none none :=
    ⟨hinv.books.congr rfl fun _ => rfl, hinv.lists.congr rfl, hinv.heap, hinv.unswaps⟩
  obtain ⟨hinv', hfills⟩ := hr.getDest hu
  exact (hinv'.interimFaults ht).noEmpty
    ((hinv'.interimFaults_fills ht).backed (hfills.backed hbacked))

def flagTask : ℕ := minSysid + 1

/-- What is at page `0x100000` of the task: `p_addr` and flags. -/
def State.entry (s : State) : Option (ℕ × Bool × ℕ) :=
  (s.tasks flagTask).bind fun t =>
    (s.getLpage t 0x100000).map fun lp => ((s.lpage lp).page, (s.lpage lp).swap, (s.lpage lp).flags)

def pinRun : List Step :=
  [⟨.brk flagTask 0x200000, []⟩, ⟨.alterFlags flagTask none 0x1000c0 State.smattrPin 0xffffffff, []⟩]

theorem run_pinRun : ∃ s, Run (exec lz4Constant swapLayout) flagged (State.init swapLayout) pinRun s ∧
    s.entry = some (0, false, State.smattrPin) :=
  Run.exists_of_evalRun (exec lz4Constant swapLayout) flagged (State.init swapLayout) pinRun
    State.entry _ (by decide +kernel)

theorem no_empty_pages_pinned : ∃ s,
    Run (exec lz4Constant swapLayout) flagged (State.init swapLayout) pinRun s ∧
      s.entry = some (0, false, State.smattrPin) ∧ NoEmpty lz4Constant s ∧
      ∀ t, s.Waits lz4Constant t → NoEmpty lz4Constant t := by
  obtain ⟨s, hrun, hs⟩ := run_pinRun
  exact ⟨s, hrun, hs, no_empty_pages hrun⟩

/-- An or-mask of 0 on a page that is not there makes an empty page. The task's first access
    to it is the last thing sysmem does. -/
theorem empty_page : ∃ s,
    Run (exec lz4Constant swapLayout) free (State.init swapLayout)
      [⟨.brk flagTask 0x200000, []⟩, ⟨.alterFlags flagTask none 0x1000c0 0 0xffffffff, []⟩] s ∧
      (∃ t lp, s.tasks flagTask = some t ∧ s.getLpage t 0x100000 = some lp ∧ ¬ s.Backed lp ∧
        ¬ s.Asserts t 0x100000) ∧
      exec lz4Constant swapLayout s ⟨.fault flagTask 0x100000, []⟩ = none := by
  obtain ⟨s, hrun, hs⟩ := Run.exists_of_evalRun (exec lz4Constant swapLayout) free
    (State.init swapLayout)
    [⟨.brk flagTask 0x200000, []⟩, ⟨.alterFlags flagTask none 0x1000c0 0 0xffffffff, []⟩]
    (fun s => (s.entry, (exec lz4Constant swapLayout s ⟨.fault flagTask 0x100000, []⟩).isNone))
    (some (0, false, 0), true) (by decide +kernel)
  simp only [Prod.mk.injEq, Option.isNone_iff_eq_none] at hs
  obtain ⟨t, ht, hs'⟩ := Option.bind_eq_some_iff.mp hs.1
  obtain ⟨lp, hlp, he⟩ := Option.map_eq_some_iff.mp hs'
  simp only [Prod.mk.injEq] at he
  refine ⟨s, hrun, ⟨t, lp, ht, hlp, ?_, fun ha => ha lp hlp ⟨he.1, he.2.1⟩ he.2.2⟩, hs.2⟩
  simp [State.Backed, he]

end Sneks.Sysmem
