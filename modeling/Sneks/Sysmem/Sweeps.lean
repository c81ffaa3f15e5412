import Sneks.Sysmem.Hand

/-!
# The calls of `replace_pages`

Where sysmem handles a call it may have to replace pages, some of them more than once. The states in
which `replace_pages` is called are collected, in order, with a function for each that gets to it.
Between the calls the model's own functions are used.
-/

namespace Sneks.Sysmem
open Lib

namespace Sweeps

variable (lz : Lz4) (lay : Layout)

def replaceLoop : ℕ → ℕ → ℕ → State → List State
  | 0, _, _, _ => []
  | n + 1, loops, loopFreed, s =>
    if 48 ≤ s.numFree then []
    else s ::
      match s.replacePages lz with
      | none => []
      | some (s, freed, looped) =>
        if looped then
          if 1 < loops ∧ loopFreed + freed = 0 then [] else replaceLoop n (loops + 1) 0 s
        else replaceLoop n loops (loopFreed + freed) s

def getFreePage (s : State) : List State :=
  match s.free with
  | [] => []
  | p :: free =>
    let s := s.taken p free
    if s.replEnable ∧ s.numFree < 16 then replaceLoop lz (s.rights.length + 1) 0 0 s else []

def alloc (k : Kind) (s : State) : List State :=
  let h := s.heap k
  match h.trash, h.pages with
  | _ :: _, _ => []
  | [], [] => getFreePage lz s
  | [], p :: _ =>
    let s := s.setHeap k { h with next := h.next + k.size }
    if (p + 1) * pageSize ≤ h.next + k.size then getFreePage lz s else []

def getTask (pid : ℕ) (s : State) : List State :=
  if pid < minSysid then []
  else
    match s.tasks pid with
    | some _ => []
    | none => alloc lz .systask s

def decompress (lp : ℕ) (s : State) : List State :=
  let ch := (s.lpage lp).page
  let h := s.hdr ch
  let slot : Slot := if h.lp .a = some lp then .a else .b
  if h.lp slot ≠ some lp then []
  else if h.lp slot.other = none then []
  else getFreePage lz { s with hdr := Function.update s.hdr ch (h.clear slot) }

def faultIn (pid addr : ℕ) (s : State) : List State :=
  match s.tasks pid with
  | none => []
  | some t =>
    match s.getLpage t addr with
    | none =>
      if t.brk < addr then []
      else alloc lz .lPage s ++ (s.newLpage lz pid addr 0).elim [] fun r => getFreePage lz r.1
    | some lp =>
      let l := s.lpage lp
      if l.page = 0 ∧ l.swap = false then
        if l.flags = 0 then [] else getFreePage lz s
      else if l.swap then decompress lz lp s
      else []

def handlePf (pid faddr : ℕ) (s : State) : List State :=
  let addr := pageFloor faddr
  if addr = 0 then []
  else getTask lz pid s ++ (s.getTask lz pid).elim [] (faultIn lz pid addr)

def interimFaults (sender : ℕ) : List ℕ → State → List State
  | [], _ => []
  | faddr :: rest, s =>
    handlePf lz sender faddr s ++
      match s.handlePf lz sender faddr with
      | some (s, true) => interimFaults sender rest s
      | _ => []

def addTaskPage (p : ℕ) (s : State) : List State := alloc lz .lPage (s.newPpage p)

def addFrames (dest : Option ℕ) : List ℕ → State → List State
  | [], _ => []
  | p :: ps, s =>
    if p = 0 ∨ p ∈ s.handed ∨ (dest.isSome ∧ lay.inImage p) then []
    else
      alloc lz .pPage s ++
        match s.alloc lz .pPage with
        | none => []
        | some (s, _) =>
          let s := { s with handed := p :: s.handed }
          match dest with
          | none => addFrames dest ps (s.addFreePage lay p)
          | some pid => addTaskPage lz p s ++ (s.addTaskPage lz pid p).elim [] (addFrames dest ps)

def getDest (dest : Option ℕ) (s : State) : List State :=
  match dest with
  | none => []
  | some pid => getTask lz pid s

def sendPhys (sender : ℕ) (dest : Option ℕ) (frame sizeLog2 : ℕ) (faults : List ℕ) (received : Bool)
    (s : State) : List State :=
  if dest.any (· < minSysid) then []
  else
    getDest lz dest s ++ (s.getDest lz dest).elim [] fun s =>
      interimFaults lz sender faults s ++ (s.interimFaults lz sender faults).elim [] fun s =>
        if received then
          if sizeLog2 < 12 then [] else addFrames lz lay dest (List.range' frame (2 ^ (sizeLog2 - 12))) s
        else []

def sendVirt (srcPid srcAddr : ℕ) (dest : Option ℕ) (s : State) : List State :=
  if srcPid < minSysid then []
  else
    getTask lz srcPid s ++ (s.getTask lz srcPid).elim [] fun s =>
      (s.tasks srcPid).elim [] fun src =>
        if srcAddr % pageSize ≠ 0 then []
        else if s.getLpage src srcAddr = none then []
        else
          match dest with
          | none => []
          | some destPid => if destPid < minSysid then [] else getTask lz destPid s

def brk (pid : ℕ) (s : State) : List State := if pid < minSysid then [] else getTask lz pid s

def alterPage (pid addr : ℕ) (s : State) : List State :=
  match s.tasks pid with
  | none => []
  | some t =>
    if addr % pageSize ≠ 0 then []
    else
      match s.getLpage t addr with
      | some _ => []
      | none => alloc lz .lPage s

def alterLoop (pid high orMask andMask : ℕ) : ℕ → ℕ → State → List State
  | 0, _, _ => []
  | n + 1, addr, s =>
    if addr < high then
      alterPage lz pid addr s ++ (s.alterPage lz pid addr orMask andMask).elim []
        (alterLoop pid high orMask andMask n (word (addr + pageSize)))
    else []

def alterFlags (sender : ℕ) (task : Option ℕ) (range : Fpage) (orMask andMask : ℕ) (s : State) : List State :=
  let size := 2 ^ range.sizeLog2
  if orMask &&& andMask ≠ orMask then []
  else if size < 12 then []
  else if task = some sender then []
  else
    let pid := task.getD sender
    match s.tasks pid with
    | none => []
    | some t =>
      if t.utcbArea.overlap range ∨ t.kipArea.overlap range then []
      else alterLoop lz pid (word (range.address + size)) orMask andMask (2 ^ 20 + 1) range.address s

def handle (s : State) : Op → List State
  | .fault pid faddr => handlePf lz pid faddr s
  | .sendPhys sender dest frame sizeLog2 faults received => sendPhys lz lay sender dest frame sizeLog2 faults received s
  | .sendVirt srcPid srcAddr dest _ => sendVirt lz srcPid srcAddr dest s
  | .brk pid _ => brk lz pid s
  | .alterFlags sender task range orMask andMask => alterFlags lz sender task range orMask andMask s
  | .rmTask _ | .setKernelAreas .. | .write .. => []

/-- The states in which a step calls `replace_pages`. -/
def exec (s : State) (a : Step) : List State := handle lz lay { s with rights := a.rights } a.op

end Sweeps

/-- What is known of the states collected on the way to `r`: the clock is in order in each, and each of
    the answers taken is to one of them. -/
structure Swept (s : State) (us : List State) (r : Option State) : Prop where
  clock : ∀ u ∈ us, Clock u
  answered : ∀ t, r = some t → us.length + t.rights.length = s.rights.length

variable {lz : Lz4} {lay : Layout} {s t u : State} {us vs : List State} {r r' : Option State} {limbo : List ℕ}
  {olp och : Option ℕ} {p lp pid : ℕ}

namespace Swept

theorem nil (h : ∀ t, r = some t → t.rights = s.rights) : Swept s [] r :=
  ⟨nofun, fun t ht => by rw [h t ht, List.length_nil, Nat.zero_add]⟩

theorem after (h : Swept s us r) (hr : ∀ t, r' = some t → ∃ u, r = some u ∧ t.rights = u.rights) : Swept s us r' := by
  refine ⟨h.clock, fun t ht => ?_⟩
  obtain ⟨u, hu, hrights⟩ := hr t ht
  rw [hrights]
  exact h.answered u hu

theorem failed (h : Swept s us r) : Swept s (us ++ []) none := by
  rw [List.append_nil]
  exact h.after nofun

theorem trans (h : Swept s us (some t)) (h' : Swept t vs r) : Swept s (us ++ vs) r := by
  refine ⟨fun u hu => ?_, fun u hu => ?_⟩
  · obtain hu | hu := List.mem_append.mp hu
    · exact h.clock u hu
    · exact h'.clock u hu
  · rw [List.length_append, Nat.add_assoc, h'.answered u hu]
    exact h.answered t rfl

theorem elim {vs : State → List State} {f : State → Option State} (h : Swept s us r)
    (hf : ∀ t, r = some t → Swept t (vs t) (f t)) : Swept s (us ++ r.elim [] vs) (r.bind f) := by
  cases r with
  | none => exact h.failed
  | some t => exact h.trans (hf t rfl)

theorem congr (h : Swept t us r) (ht : t.rights = s.rights) : Swept s us r := by
  refine ⟨h.clock, fun u hu => ?_⟩
  rw [← ht]
  exact h.answered u hu

end Swept

-- A page is taken

theorem replaceEach_rights {ps rights : List ℕ} {freed n : ℕ} (h : Clock s) (hps : ∀ p ∈ ps, p ∈ s.active)
    (hnodup : ps.Nodup) (hs : s.replaceEach lz ps rights freed = some (t, n)) : t.rights = s.rights := by
  induction ps generalizing s rights freed with
  | nil =>
    cases hs
    rfl
  | cons p ps ih =>
    obtain ⟨hnot, hnodup⟩ := List.nodup_cons.mp hnodup
    rw [State.replaceEach] at hs
    obtain ⟨hfail, -⟩ | ⟨u, replaced, hu, hturned⟩ :=
      replaceOne_turned lz h (hps p List.mem_cons_self) (rights.headD 0)
    · rw [hfail] at hs
      cases hs
    · rw [hu] at hs
      rw [ih hturned.clock (fun q hq => ?_) hnodup hs, hturned.rights]
      have hne : q ≠ p := fun he => hnot (he ▸ hq)
      exact (hturned.others q hne).active.mpr (hps q (List.mem_cons_of_mem _ hq))

theorem replacePages_rights {r : ℕ × Bool} (h : Clock s) (hs : s.replacePages lz = some (t, r)) :
    s.rights.length = t.rights.length + 1 := by
  have hstart : s.startHand ≠ none := fun he => by
    rw [replacePages_none (.inl he)] at hs
    cases hs
  have hrights : s.rights ≠ [] := fun he => by
    rw [replacePages_none (.inr he)] at hs
    cases hs
  obtain ⟨p, hp⟩ := Option.ne_none_iff_exists'.mp hstart
  obtain ⟨answer, rest, hr⟩ := List.exists_cons_of_ne_nil hrights
  have hclock : ∀ hand, (∀ q, hand = some q → q ∈ s.active) → Clock { s with hand := hand, rights := rest } :=
    fun hand hhand => ⟨h.nodup, h.owned, fun q hq _ => hhand q hq⟩
  rw [replacePages_eq lz h hp hr] at hs
  obtain ⟨⟨v, n⟩, hv, he⟩ := Option.map_eq_some_iff.mp hs
  cases he
  have hkept := replaceEach_rights (hclock _ fun q hq => (circuit_perm s.active p).mem_iff.mp (List.mem_of_getElem? hq))
    (h.seen p 64).1 (h.seen p 64).2 hv
  rw [hkept, hr]
  rfl

theorem replaceLoop_swept {n loops freed : ℕ} (h : Books lz lay s limbo olp och) :
    Swept s (Sweeps.replaceLoop lz n loops freed s) (s.replaceLoop lz n loops freed) := by
  induction n generalizing s loops freed with
  | zero => exact .nil (by rintro _ ⟨⟩)
  | succ n ih =>
    rw [Sweeps.replaceLoop, State.replaceLoop]
    split
    · exact .nil fun t ht => by cases ht; rfl
    have hclock : ∀ w ∈ [s], Clock w := fun w hw => by
      rw [List.mem_singleton.mp hw]
      exact h.clock
    cases hs : s.replacePages lz with
    | none => exact ⟨hclock, by rintro _ ⟨⟩⟩
    | some r =>
      obtain ⟨u, k, looped⟩ := r
      have hone : Swept s [s] (some u) := by
        refine ⟨hclock, fun t ht => ?_⟩
        cases ht
        rw [replacePages_rights h.clock hs, List.length_singleton, Nat.add_comm]
      have hu := (replacePages_spec h hs).1
      simp only
      split
      · split
        · exact hone
        · exact hone.trans (ih hu)
      · exact hone.trans (ih hu)

theorem getFreePage_swept (h : Books lz lay s limbo olp och) :
    Swept s (Sweeps.getFreePage lz s) ((s.getFreePage lz).map (·.1)) := by
  rw [Sweeps.getFreePage, State.getFreePage]
  cases hfree : s.free with
  | nil => exact .nil (by rintro _ ⟨⟩)
  | cons p free =>
    have htaken : { s with free := free, numFree := s.numFree - 1 }.setPage p { s.pages p with age := 1 } =
      s.taken p free := rfl
    simp only [htaken]
    split
    · have hloop : Swept (s.taken p free)
          (Sweeps.replaceLoop lz ((s.taken p free).rights.length + 1) 0 0 (s.taken p free)) _ :=
        replaceLoop_swept (h.take hfree)
      refine Swept.congr (hloop.after fun t ht => ?_) rfl
      split at ht
      · cases ht
      next v hv =>
      split at ht
      · cases ht
      · cases ht
        exact ⟨v, hv, rfl⟩
    · exact .nil fun t ht => by cases ht; rfl

theorem getRam_swept {k : Kind} (h : Books lz lay s limbo olp och) :
    Swept s (Sweeps.getFreePage lz s) ((s.getRam lz k).map (·.1)) := by
  refine (getFreePage_swept h).after fun t ht => ?_
  rw [State.getRam] at ht
  cases hs : s.getFreePage lz with
  | none =>
    rw [hs] at ht
    cases ht
  | some r =>
    rw [hs] at ht
    cases ht
    exact ⟨r.1, rfl, rfl⟩

theorem alloc_swept {k : Kind} (h : Inv lz lay s limbo olp och) :
    Swept s (Sweeps.alloc lz k s) ((s.alloc lz k).map (·.1)) := by
  simp only [Sweeps.alloc, State.alloc]
  cases htrash : (s.heap k).trash with
  | cons ptr trash => exact .nil fun t ht => by cases ht; rfl
  | nil =>
    cases hpages : (s.heap k).pages with
    | nil => exact getRam_swept h.books
    | cons p rest =>
      have hskip : Books lz lay (s.setHeap k ⟨p :: rest, (s.heap k).next + k.size, []⟩) limbo olp och := by
        rw [← hpages, ← htrash]
        exact (h.skip k).books
      simp only
      split
      · exact Swept.congr (getRam_swept hskip) rfl
      · exact .nil fun t ht => by cases ht; rfl

theorem getTask_swept (h : Inv lz lay s limbo olp och) : Swept s (Sweeps.getTask lz pid s) (s.getTask lz pid) := by
  rw [Sweeps.getTask, State.getTask]
  split
  · exact .nil (by rintro _ ⟨⟩)
  cases s.tasks pid with
  | some tk => exact .nil fun t ht => by cases ht; rfl
  | none =>
    refine (alloc_swept h).after fun t ht => ?_
    cases hs : s.alloc lz .systask with
    | none =>
      rw [hs] at ht
      cases ht
    | some r =>
      rw [hs] at ht
      cases ht
      exact ⟨r.1, rfl, rfl⟩

theorem putLpage_rights (hs : s.putLpage pid lp = some t) : t.rights = s.rights := by
  obtain ⟨tk, below, above, -, -, rfl⟩ := putLpage_spec hs
  rfl

theorem newLpage_swept {addr flags : ℕ} (h : Inv lz lay s limbo olp och) :
    Swept s (Sweeps.alloc lz .lPage s) ((s.newLpage lz pid addr flags).map (·.1)) := by
  refine (alloc_swept h).after fun t ht => ?_
  rw [State.newLpage] at ht
  cases hs : s.alloc lz .lPage with
  | none =>
    rw [hs] at ht
    cases ht
  | some r =>
    rw [hs, Option.map_map] at ht
    obtain ⟨u, hu, rfl⟩ := Option.map_eq_some_iff.mp ht
    have hrights := putLpage_rights hu
    exact ⟨r.1, rfl, hrights⟩

-- Page faults

theorem populate_swept (h : Inv lz lay s limbo olp och) :
    Swept s (Sweeps.getFreePage lz s) (s.populate lz lp) := by
  refine (getFreePage_swept h.books).after fun t ht => ?_
  rw [State.populate] at ht
  cases hs : s.getFreePage lz with
  | none =>
    rw [hs] at ht
    cases ht
  | some r =>
    rw [hs] at ht
    cases ht
    exact ⟨r.1, rfl, rfl⟩

theorem decompress_swept (h : Inv lz lay s limbo none none) (hlive : s.Live lp) (hswap : (s.lpage lp).swap = true) :
    Swept s (Sweeps.decompress lz lp s) ((s.decompress lz lp).map (·.1)) := by
  obtain ⟨hstore, hd⟩ := h.held hlive hswap
  simp only [Sweeps.decompress, State.decompress]
  generalize (if (s.hdr (s.lpage lp).page).lp .a = some lp then Slot.a else Slot.b) = slot at hd
  split
  · exact .nil (by rintro _ ⟨⟩)
  split
  · refine .nil fun t ht => ?_
    split at ht
    · cases ht
    · cases ht
      rfl
  · next hother =>
    refine Swept.congr (Swept.after (getFreePage_swept (h.clearHalf hd hstore hother).books) fun t ht => ?_) rfl
    simp only [CHdr.clear]
    split at ht
    · cases ht
    next u q hu =>
    split at ht
    · cases ht
    · cases ht
      exact ⟨u, by rw [hu]; rfl, rfl⟩

theorem unswap_swept (h : Inv lz lay s limbo none none) (hlive : s.Live lp) (hswap : (s.lpage lp).swap = true) :
    Swept s (Sweeps.decompress lz lp s) (s.unswap lz lp) := by
  refine (decompress_swept h hlive hswap).after fun t ht => ?_
  rw [State.unswap] at ht
  cases hs : s.decompress lz lp with
  | none =>
    rw [hs] at ht
    cases ht
  | some r =>
    rw [hs] at ht
    cases ht
    exact ⟨r.1, rfl, rfl⟩

theorem faultIn_swept {addr : ℕ} (h : Inv lz lay s limbo none none) :
    Swept s (Sweeps.faultIn lz pid addr s) ((s.faultIn lz pid addr).map (·.1)) := by
  simp only [Sweeps.faultIn, State.faultIn]
  cases htk : s.tasks pid with
  | none => exact .nil (by rintro _ ⟨⟩)
  | some tk =>
    simp only
    cases hlp : s.getLpage tk addr with
    | none =>
      simp only
      split
      · exact .nil (by rintro _ ⟨⟩)
      have hnew : Swept s _ ((s.newLpage lz pid addr 0).map (·.1)) := newLpage_swept h
      cases hs : s.newLpage lz pid addr 0 with
      | none =>
        rw [hs] at hnew
        exact hnew.failed
      | some r =>
        rw [hs] at hnew
        have hpop : Swept r.1 _ (r.1.populate lz r.2) := populate_swept (h.newLpage hs).1
        simp only [Option.map_map]
        exact hnew.trans (hpop.after fun t ht => ⟨t, by simpa using ht, rfl⟩)
    | some lp =>
      have hlive : s.Live lp := ⟨pid, tk, htk, (getLpage_spec hlp).1⟩
      simp only
      split
      · split
        · exact .nil (by rintro _ ⟨⟩)
        · have hpop : Swept s _ (s.populate lz lp) := populate_swept h
          exact hpop.after fun t ht => ⟨t, by simpa using ht, rfl⟩
      split
      · next hswap => exact (unswap_swept h hlive hswap).after fun t ht => ⟨t, by simpa using ht, rfl⟩
      · exact .nil fun t ht => by cases ht; rfl

theorem handlePf_swept {faddr : ℕ} (h : Inv lz lay s limbo none none) :
    Swept s (Sweeps.handlePf lz pid faddr s) ((s.handlePf lz pid faddr).map (·.1)) := by
  simp only [Sweeps.handlePf, State.handlePf]
  split
  · exact .nil fun t ht => by cases ht; rfl
  have htask : Swept s _ (s.getTask lz pid) := getTask_swept h
  cases hs : s.getTask lz pid with
  | none =>
    rw [hs] at htask
    exact htask.failed
  | some u =>
    rw [hs] at htask
    refine htask.trans ((faultIn_swept (h.getTask hs).1).after fun t ht => ?_)
    simp only at ht
    split at ht
    · cases ht
    next v lp hv =>
    split at ht
    · cases ht
    split at ht
    · cases ht
    · cases ht
      exact ⟨v, by rw [hv]; rfl, rfl⟩

theorem interimFaults_swept {sender : ℕ} {faults : List ℕ} (h : Inv lz lay s limbo none none) :
    Swept s (Sweeps.interimFaults lz sender faults s) (s.interimFaults lz sender faults) := by
  induction faults generalizing s with
  | nil => exact .nil fun t ht => by cases ht; rfl
  | cons faddr faults ih =>
    rw [Sweeps.interimFaults, State.interimFaults]
    have hfault : Swept s _ ((s.handlePf lz sender faddr).map (·.1)) := handlePf_swept h
    cases hs : s.handlePf lz sender faddr with
    | none =>
      rw [hs] at hfault
      exact hfault.failed
    | some r =>
      obtain ⟨u, answered⟩ := r
      rw [hs] at hfault
      cases answered with
      | true => exact hfault.trans (ih (h.handlePf hs))
      | false => exact hfault.failed

-- Frames

theorem addTaskPage_swept (h : Inv lz lay s (p :: limbo) none none) :
    Swept s (Sweeps.addTaskPage lz p s) (s.addTaskPage lz pid p) := by
  have hnew : Swept (s.newPpage p) _ (((s.newPpage p).newLpage lz pid (p * pageSize) 0).map (·.1)) :=
    newLpage_swept h.newPpage
  refine Swept.congr (hnew.after fun t ht => ?_) rfl
  simp only [State.addTaskPage, Option.bind_eq_bind, Option.bind_eq_some_iff, Option.some.injEq] at ht
  obtain ⟨⟨u, lp⟩, hu, tk, -, rfl⟩ := ht
  exact ⟨u, by rw [hu]; rfl, rfl⟩

theorem addFreePage_rights : (s.addFreePage lay p).rights = s.rights := by
  rw [State.addFreePage]
  split
  · split <;> rfl
  · rfl

theorem addFrames_swept {dest : Option ℕ} {ps : List ℕ} (h : Inv lz lay s limbo none none) :
    Swept s (Sweeps.addFrames lz lay dest ps s) (s.addFrames lz lay dest ps) := by
  induction ps generalizing s with
  | nil => exact .nil fun t ht => by cases ht; rfl
  | cons p ps ih =>
    rw [Sweeps.addFrames, State.addFrames]
    split
    · exact .nil (by rintro _ ⟨⟩)
    next hp =>
    simp only [not_or, not_and] at hp
    have halloc := alloc_swept (k := .pPage) h
    cases hs : s.alloc lz .pPage with
    | none =>
      rw [hs] at halloc
      exact halloc.failed
    | some r =>
      obtain ⟨u, ptr⟩ := r
      rw [hs] at halloc
      obtain ⟨hinv, hk, -⟩ := h.alloc hs
      have hrec := hinv.receive hp.1 (by rw [hk.handed]; exact hp.2.1)
      refine halloc.trans ?_
      cases dest with
      | none => exact Swept.congr (ih hrec.addFreePage) addFreePage_rights
      | some pid =>
        rw [if_neg (hp.2.2 rfl)] at hrec
        exact Swept.congr ((addTaskPage_swept hrec).elim fun v hv => ih (hrec.addTaskPage hv)) rfl

theorem getDest_swept {dest : Option ℕ} (h : Inv lz lay s limbo none none) :
    Swept s (Sweeps.getDest lz dest s) (s.getDest lz dest) := by
  cases dest with
  | none => exact .nil fun t ht => by cases ht; rfl
  | some pid => exact getTask_swept h

theorem sendPhys_swept {sender : ℕ} {dest : Option ℕ} {frame sizeLog2 : ℕ} {faults : List ℕ} {received : Bool}
    (h : Inv lz lay s limbo none none) :
    Swept s (Sweeps.sendPhys lz lay sender dest frame sizeLog2 faults received s)
      (s.sendPhys lz lay sender dest frame sizeLog2 faults received) := by
  rw [Sweeps.sendPhys, State.sendPhys]
  split
  · exact .nil fun t ht => by cases ht; rfl
  refine (getDest_swept h).elim fun u hu => ?_
  have hinv : Inv lz lay u limbo none none := by
    cases dest with
    | none =>
      cases hu
      exact h
    | some pid => exact (h.getTask hu).1
  refine (interimFaults_swept hinv).elim fun v hv => ?_
  split
  · split
    · exact .nil (by rintro _ ⟨⟩)
    · exact addFrames_swept (hinv.interimFaults hv)
  · exact .nil fun t ht => by cases ht; rfl

-- Virtual memory

theorem dropMemory_rights (hs : s.dropMemory lp = some t) : t.rights = s.rights := by
  rw [State.dropMemory] at hs
  split at hs
  · simp only [State.dropSlot] at hs
    generalize (if (s.hdr (s.lpage lp).page).lp .a = some lp then Slot.a else Slot.b) = slot at hs
    split at hs
    · cases hs
    split at hs
    · split at hs <;> cases hs
      rfl
    · cases hs
      rfl
  · simp only [State.dropPage] at hs
    split at hs
    · split at hs <;> cases hs
      rfl
    · cases hs
      rfl

theorem eraseLpage_rights (hs : s.eraseLpage pid lp = some t) : t.rights = s.rights := by
  obtain ⟨tk, -, rfl⟩ := Option.map_eq_some_iff.mp hs
  rfl

theorem removeLpage_rights (hs : s.removeLpage pid lp = some t) : t.rights = s.rights := by
  simp only [State.removeLpage, Option.bind_eq_bind, Option.bind_eq_some_iff, Option.some.injEq] at hs
  obtain ⟨u, hu, v, hv, rfl⟩ := hs
  exact (eraseLpage_rights hv).trans (dropMemory_rights hu)

theorem removeLpages_rights {lps : List ℕ} (hs : s.removeLpages pid lps = some t) : t.rights = s.rights := by
  rw [State.removeLpages] at hs
  induction lps generalizing s with
  | nil =>
    cases hs
    rfl
  | cons lp lps ih =>
    simp only [List.foldlM_cons, Option.bind_eq_bind, Option.bind_eq_some_iff] at hs
    obtain ⟨u, hu, hs⟩ := hs
    exact (ih hs).trans (removeLpage_rights hu)

theorem removeAt_rights {tk : Task} {addr : ℕ} (hs : s.removeAt pid tk addr = some t) : t.rights = s.rights := by
  rw [State.removeAt] at hs
  split at hs
  · cases hs
    rfl
  · exact removeLpage_rights hs

theorem moveLpage_rights {srcPid destPid destAddr : ℕ} (hs : s.moveLpage srcPid destPid lp destAddr = some t) :
    t.rights = s.rights := by
  simp only [State.moveLpage, Option.bind_eq_bind, Option.bind_eq_some_iff, Option.some.injEq] at hs
  obtain ⟨u, hu, v, hv, tk, -, rfl⟩ := hs
  have herase := eraseLpage_rights hu
  have hput := putLpage_rights hv
  exact hput.trans herase

theorem sendVirt_swept {srcPid srcAddr destAddr : ℕ} {dest : Option ℕ} (h : Inv lz lay s limbo none none) :
    Swept s (Sweeps.sendVirt lz srcPid srcAddr dest s) ((s.sendVirt lz srcPid srcAddr dest destAddr).map (·.1)) := by
  rw [Sweeps.sendVirt, State.sendVirt]
  split
  · exact .nil fun t ht => by cases ht; rfl
  have hsrc : Swept s _ (s.getTask lz srcPid) := getTask_swept h
  cases hu : s.getTask lz srcPid with
  | none =>
    rw [hu] at hsrc
    exact hsrc.failed
  | some u =>
    rw [hu] at hsrc
    refine hsrc.trans ?_
    have hinv := (h.getTask hu).1
    simp only [Option.elim, Option.bind_eq_bind, Option.bind_some]
    cases htk : u.tasks srcPid with
    | none => exact .nil (by rintro _ ⟨⟩)
    | some src =>
      simp only [Option.bind_some]
      split
      · exact .nil (by rintro _ ⟨⟩)
      cases hlp : u.getLpage src srcAddr with
      | none => exact .nil fun t ht => by cases ht; rfl
      | some lp =>
        simp only [reduceCtorEq, if_false]
        cases dest with
        | none =>
          refine .nil fun t ht => ?_
          simp only [Option.map_map] at ht
          obtain ⟨v, hv, rfl⟩ := Option.map_eq_some_iff.mp ht
          exact removeLpage_rights hv
        | some destPid =>
          simp only
          split
          · exact .nil fun t ht => by cases ht; rfl
          refine (getTask_swept hinv).after fun t ht => ?_
          obtain ⟨⟨v, r⟩, hv, rfl⟩ := Option.map_eq_some_iff.mp ht
          obtain ⟨w, hw, hv⟩ := Option.bind_eq_some_iff.mp hv
          obtain ⟨tk, -, hv⟩ := Option.bind_eq_some_iff.mp hv
          split at hv
          · cases hv
          obtain ⟨x, hx, hv⟩ := Option.bind_eq_some_iff.mp hv
          obtain ⟨y, hy, he⟩ := Option.map_eq_some_iff.mp hv
          cases he
          exact ⟨w, hw, (moveLpage_rights hy).trans (removeAt_rights hx)⟩

theorem brk_swept {newBrk : ℕ} (h : Inv lz lay s limbo none none) :
    Swept s (Sweeps.brk lz pid s) (s.brk lz pid newBrk) := by
  rw [Sweeps.brk, State.brk]
  split
  · exact .nil fun t ht => by cases ht; rfl
  refine (getTask_swept h).after fun t ht => ?_
  obtain ⟨u, hu, ht⟩ := Option.bind_eq_some_iff.mp ht
  obtain ⟨tk, -, ht⟩ := Option.bind_eq_some_iff.mp ht
  refine ⟨u, hu, ?_⟩
  split at ht
  · simp only at ht
    split at ht
    · cases ht
    · cases ht
      rfl
    · obtain ⟨v, hv, ht⟩ := Option.bind_eq_some_iff.mp ht
      obtain ⟨tk', -, ht⟩ := Option.bind_eq_some_iff.mp ht
      cases ht
      have hrights := removeLpages_rights hv
      exact hrights
  · cases ht
    rfl

-- Flags

theorem alterPage_swept {addr orMask andMask : ℕ} (h : Inv lz lay s limbo none none) :
    Swept s (Sweeps.alterPage lz pid addr s) (s.alterPage lz pid addr orMask andMask) := by
  rw [Sweeps.alterPage, State.alterPage]
  cases s.tasks pid with
  | none => exact .nil (by rintro _ ⟨⟩)
  | some tk =>
    simp only [Option.bind_eq_bind, Option.bind_some]
    split
    · exact .nil (by rintro _ ⟨⟩)
    cases s.getLpage tk addr with
    | none => exact newLpage_swept h
    | some lp =>
      refine .nil fun t ht => ?_
      simp only at ht
      split at ht
      · exact removeLpage_rights (s := s.setLpage lp _) ht
      · cases ht
        rfl

theorem alterLoop_swept {high orMask andMask n addr : ℕ} (h : Inv lz lay s limbo none none) :
    Swept s (Sweeps.alterLoop lz pid high orMask andMask n addr s)
      (s.alterLoop lz pid high orMask andMask n addr) := by
  induction n generalizing s addr with
  | zero => exact .nil nofun
  | succ n ih =>
    rw [Sweeps.alterLoop, State.alterLoop]
    split
    · have hpage : Swept s _ (s.alterPage lz pid addr orMask andMask) := alterPage_swept h
      cases hs : s.alterPage lz pid addr orMask andMask with
      | none =>
        rw [hs] at hpage
        exact hpage.failed
      | some u =>
        rw [hs] at hpage
        exact hpage.trans (ih (h.alterPage hs))
    · exact .nil fun t ht => by cases ht; rfl

theorem alterFlags_swept {sender : ℕ} {task : Option ℕ} {range : Fpage} {orMask andMask : ℕ}
    (h : Inv lz lay s limbo none none) :
    Swept s (Sweeps.alterFlags lz sender task range orMask andMask s)
      ((s.alterFlags lz sender task range orMask andMask).map (·.1)) := by
  have hkeep : ∀ r : Result, Swept s [] ((some (s, r)).map (·.1)) := fun r => .nil fun t ht => by cases ht; rfl
  rw [Sweeps.alterFlags, State.alterFlags]
  split
  · exact hkeep _
  split
  · exact hkeep _
  split
  · exact hkeep _
  simp only
  cases s.tasks (task.getD sender) with
  | none => exact hkeep _
  | some tk =>
    simp only
    split
    · exact hkeep _
    · exact (alterLoop_swept h).after fun t ht => ⟨t, by simpa using ht, rfl⟩

-- Runs

theorem rmTask_rights (hs : s.rmTask pid = some t) : t.rights = s.rights := by
  rw [State.rmTask] at hs
  split at hs
  · cases hs
    rfl
  split at hs
  · cases hs
    rfl
  · obtain ⟨u, hu, hs⟩ := Option.bind_eq_some_iff.mp hs
    cases hs
    have hrights := removeLpages_rights hu
    exact hrights

theorem setKernelAreas_rights {utcbArea kipArea : Fpage} : (s.setKernelAreas pid utcbArea kipArea).1.rights = s.rights := by
  rw [State.setKernelAreas]
  split
  · rfl
  split
  · rfl
  split <;> rfl

theorem write_rights {addr : ℕ} {page : Page} (hs : s.write pid addr page = some t) : t.rights = s.rights := by
  obtain ⟨tk, -, hs⟩ := Option.bind_eq_some_iff.mp hs
  obtain ⟨lp, -, hs⟩ := Option.bind_eq_some_iff.mp hs
  simp only at hs
  split at hs
  · cases hs
    rfl
  · cases hs

/-- **A step calls `replace_pages` in the states collected**, and each of the answers it takes is to one
of them. -/
theorem exec_swept {a : Step} (h : Inv lz lay s limbo none none) :
    Swept { s with rights := a.rights } (Sweeps.exec lz lay s a) (exec lz lay s a) := by
  obtain ⟨op, rights⟩ := a
  have hr : Inv lz lay { s with rights := rights } limbo none none :=
    ⟨h.books.congr rfl fun _ => rfl, h.lists.congr rfl, h.heap, h.unswaps⟩
  cases op with
  | fault pid faddr => exact handlePf_swept hr
  | rmTask pid => exact .nil fun t ht => rmTask_rights ht
  | sendPhys sender dest frame sizeLog2 faults received => exact sendPhys_swept hr
  | sendVirt srcPid srcAddr dest destAddr => exact sendVirt_swept hr
  | brk pid newBrk => exact brk_swept hr
  | setKernelAreas pid utcbArea kipArea =>
    refine .nil fun t ht => ?_
    cases ht
    exact setKernelAreas_rights
  | alterFlags sender task range orMask andMask => exact alterFlags_swept hr
  | write pid addr page => exact .nil fun t ht => write_rights ht

theorem exec_answered {as : List Step} {a : Step} (h : Run (exec lz lay) apart (State.init lay) as s)
    (ht : exec lz lay s a = some t) : (Sweeps.exec lz lay s a).length + t.rights.length = a.rights.length :=
  (exec_swept (Inv.of_run h)).answered t ht

/-- **In each call of `replace_pages`** with active pages all is as it should be, if and only if what the
array held besides the fpages of this call is of active pages, too. -/
theorem replace_pages_hand {as : List Step} {a : Step} (stale : Fin nUnmaps → Fpage)
    (h : Run (exec lz lay) apart (State.init lay) as s) (hu : u ∈ Sweeps.exec lz lay s a) (hne : u.active ≠ []) :
    SweepOk lz stale u ↔ ∀ i : Fin nUnmaps, u.active.length ≤ i → ∃ p ∈ u.active, (stale i).IsPage p :=
  sweepOk_iff ((exec_swept (Inv.of_run h)).clock u hu) hne

/-- The fault in `swapRun` for which pages are replaced. -/
def lowFault : Step := ⟨.fault (minSysid + 1) (0x100000 + 57 * pageSize), List.replicate 3 (0 :: 0 :: List.replicate 55 2)⟩

theorem sweep_lowFault : ∃ s u, Run (exec lz4Constant swapLayout) apart (State.init swapLayout) (swapRun.take 61) s ∧
    u ∈ Sweeps.exec lz4Constant swapLayout s lowFault ∧ u.active = List.range' 303 9 ++ List.range' 1024 48 := by
  obtain ⟨s, hrun, hs⟩ := Run.exists_of_evalRun (exec lz4Constant swapLayout) apart (State.init swapLayout) (swapRun.take 61)
    (fun s => (Sweeps.exec lz4Constant swapLayout s lowFault).head?.map (·.active))
    (some (List.range' 303 9 ++ List.range' 1024 48)) (by decide +kernel)
  obtain ⟨u, hu, hactive⟩ := Option.map_eq_some_iff.mp hs
  exact ⟨s, u, hrun, List.mem_of_mem_head? hu, hactive⟩

theorem replace_pages_hand_fault : ∃ s u,
    Run (exec lz4Constant swapLayout) apart (State.init swapLayout) (swapRun.take 61) s ∧
      u ∈ Sweeps.exec lz4Constant swapLayout s lowFault ∧ u.active.length = 57 ∧
      SweepOk lz4Constant (fun _ => unmapFpage 303) u := by
  obtain ⟨s, u, hrun, hu, hactive⟩ := sweep_lowFault
  have hmem : 303 ∈ u.active := by
    rw [hactive]
    decide
  refine ⟨s, u, hrun, hu, by rw [hactive]; rfl, ?_⟩
  exact (replace_pages_hand _ hrun hu (List.ne_nil_of_mem hmem)).mpr fun _ _ => ⟨303, hmem, unmapFpage_isPage 303⟩

/-- Entries from the 58th on are passed as they are: null words, or the fpage of a free page. -/
theorem not_replace_pages_hand : ∃ s u,
    Run (exec lz4Constant swapLayout) apart (State.init swapLayout) (swapRun.take 61) s ∧
      u ∈ Sweeps.exec lz4Constant swapLayout s lowFault ∧ u.active ≠ [] ∧
      ¬ SweepOk lz4Constant (fun _ => Fpage.nil) u ∧ ¬ SweepOk lz4Constant (fun _ => unmapFpage 1087) u := by
  obtain ⟨s, u, hrun, hu, hactive⟩ := sweep_lowFault
  have hclock := (exec_swept (a := lowFault) (Inv.of_run hrun)).clock u hu
  have hne : u.active ≠ [] := by
    rw [hactive]
    decide
  have hshort : u.active.length ≤ 63 := by
    rw [hactive]
    decide
  refine ⟨s, u, hrun, hu, hne, fun hok => ?_, fun hok => ?_⟩
  · obtain ⟨p, -, -, hlog⟩ := (sweepOk_iff hclock hne).mp hok ⟨63, by decide⟩ hshort
    exact absurd hlog (by decide)
  · obtain ⟨p, hp, haddr, -⟩ := (sweepOk_iff hclock hne).mp hok ⟨63, by decide⟩ hshort
    have hp87 : p = 1087 := by
      simp only [unmapFpage, Fpage.address, pageSize] at haddr
      omega
    rw [hp87, hactive] at hp
    revert hp
    decide

end Sneks.Sysmem
