import Sneks.Root.Pending

/-!
# The assertions on signals

`sig_default` asserts that the signal it ignores is not pending, and tests the bit after it. The
saved-mask branch of `sigset` asserts that it finds the lowest pending signal again, with `ffsl`,
which has 32 bits. So the first fails where the next signal is pending, and the second for signals
from 33 on (`root/sig.c`).
-/

namespace Sneks.Root
open Lib

-- Where the assertions fail

namespace State

variable (s : State)

/-- `sig_send` gets to the assertion of `sig_default`, and it fails. -/
def DefaultFails (pid sig : ℕ) : Prop :=
  (1 ≤ sig ∧ sig ≤ 64) ∧ (s.proc pid).disposition sig = .default ∧ (s.proc pid).ignSet &&& sigBit sig = 0 ∧
    deadly sig = false ∧ ~~~(s.proc pid).pendingSet &&& (1#64 <<< (sig % 64)) = 0

/-- It fails for the `SIGCHLD` that `zombify` sends. -/
def LayOutFails (pid : ℕ) : Prop :=
  ∃ t u v, (s.logZombify pid).dropHelper pid = some t ∧ t.taskDtor pid = some u ∧ u.reparent pid = some v ∧
    v.DefaultFails (v.proc pid).ppid SIGCHLD

/-- It fails in `sig_send`, or in the `zombify` of a deadly signal. -/
def SendFails (pid sig : ℕ) (self : Bool) : Prop :=
  s.DefaultFails pid sig ∨ ∃ t, s.sigAct pid sig self = some (t, true) ∧ t.LayOutFails pid

def LoopFails (pid : ℕ) (replyOk : Bool) : List ℕ → State → Prop
  | [], _ => False
  | sig :: sigs, s => s.SendFails pid sig true ∨
    ∃ t, s.sigSend pid sig true replyOk = some t ∧ LoopFails pid replyOk sigs t

end State

def Process.FetchFails (p : Process) (setName : ℕ) : Prop :=
  p.seen setName ≠ 0 ∧ p.savedMask = true ∧
    ffsll (sigBit (ffsll (p.seen setName)) &&& 0xffffffff#64) ≠ ffsll (p.seen setName)

def Call.Fails (s : State) (sender : Tid) : Call → Prop
  | .kill pid sig earlyReplyOk _ =>
    s.killError (pidof sender) pid sig earlyReplyOk = none ∧ sig ≠ 0 ∧
      s.SendFails pid.toNat sig.toNat (pid = pidof sender)
  | .exit status _ =>
    isSystask (pidof sender) = false ∧ s.hasProcess (pidof sender) = true ∧
      (s.setRecord (pidof sender) 0 (toShort status) CLD_EXITED).LayOutFails (pidof sender)
  | .sigset setName orBits andBits replyOk =>
    let pid := pidof sender
    let p := s.proc pid
    s.hasProcess pid = true ∧
      ¬ (setName = 4 ∧ (p.pendingSet ||| andBits) = 0 ∧ p.sighelperTid = some sender) ∧
      (setName = 2 ∧ p.ignSet &&& p.dflSet = 0 ∧
          State.LoopFails pid replyOk (State.sigList (State.released p andBits &&& ~~~p.ignSet))
            (s.setProc pid (State.remask p orBits andBits)) ∨
        (setName = 3 ∨ setName = 4) ∧ p.FetchFails setName)
  | _ => False

def Trips (s : State) : Step → Prop
  | .call sender call => sender ∈ (s.task (pidof sender)).threads ∧ s.confirm = none ∧ call.Fails s sender
  | _ => False

inductive Stops : State → List Step → Prop
  | here {s : State} {step : Step} {steps : List Step} : Trips s step → Stops s (step :: steps)
  | later {s t : State} {step : Step} {steps : List Step} :
      exec s step = some t → Stops t steps → Stops s (step :: steps)

-- The condition

def Process.Spared (p : Process) (sig : ℕ) : Prop :=
  p.disposition sig = .default → deadly sig = false → p.pendingSet.getLsbD (sig % 64) = false

def State.ParentSpared (s : State) (pid : ℕ) : Prop := (s.proc (s.parentOf pid)).Spared SIGCHLD

/-- The condition on a change of the mask, for the process with its new mask and the signals let through.
    Signal 1, if handled or masked again, is pending by the time that signal 64 is sent. -/
structure SparedAll (s : State) (pid : ℕ) (p : Process) (sigs : List ℕ) : Prop where
  spared : ∀ sig ∈ sigs, p.Spared sig
  last : 64 ∈ sigs → p.disposition 64 = .default → 1 ∈ sigs → p.disposition 1 = .default
  parent : ∀ sig ∈ sigs, p.fatal sig = true → s.parentOf pid ≠ pid ∧ s.ParentSpared pid

def steady (s : State) : Step → Prop
  | .call sender (.kill pid sig earlyReplyOk _) =>
    s.killError (pidof sender) pid sig earlyReplyOk = none → sig ≠ 0 →
      (s.proc pid.toNat).Spared sig.toNat ∧ ((s.proc pid.toNat).fatal sig.toNat = true → s.ParentSpared pid.toNat)
  | .call sender (.exit _ _) => isSystask (pidof sender) = false → s.ParentSpared (pidof sender)
  | .call sender (.sigset setName orBits andBits _) =>
    let p := s.proc (pidof sender)
    (setName = 2 → SparedAll s (pidof sender) (State.remask p orBits andBits)
        (State.sigList (State.released p andBits &&& ~~~p.ignSet))) ∧
      (setName = 3 ∨ setName = 4 → p.savedMask = true → ffsll (p.seen setName) ≤ 32)
  | _ => True

def SteadyRun : State → List Step → Prop
  | _, [] => True
  | s, step :: steps => steady s step ∧ ∀ t, exec s step = some t → SteadyRun t steps

-- A failure ends root

variable {s t u : State} {pid sig : ℕ} {self replyOk : Bool} {sender : Tid}

theorem sigAct_fails (h : s.DefaultFails pid sig) : s.sigAct pid sig self = none := by
  obtain ⟨⟨hpos, hle⟩, hdfl, hign, hdeadly, hbit⟩ := h
  rw [State.sigAct, if_neg (by omega), hdfl]
  rw [if_neg (not_not.mpr hign), State.sigDefault]
  dsimp only
  rw [if_neg (by rw [hdeadly]; decide), if_pos hbit]

theorem layOut_fails (h : s.LayOutFails pid) : s.layOut pid = none := by
  obtain ⟨t, u, v, ht, hu, hv, hfails⟩ := h
  simp only [State.layOut, Option.bind_eq_bind, ht, hu, hv, Option.bind_some, sigAct_fails hfails, Option.bind_none]

theorem zombify_fails (h : s.LayOutFails pid) : s.zombify pid replyOk = none := by
  simp only [State.zombify, Option.bind_eq_bind, layOut_fails h, Option.bind_none]

theorem sigSend_fails (h : s.SendFails pid sig self) : s.sigSend pid sig self replyOk = none := by
  obtain hfails | ⟨t, ht, hfails⟩ := h
  · simp only [State.sigSend, Option.bind_eq_bind, sigAct_fails hfails, Option.bind_none]
  · simp only [State.sigSend, Option.bind_eq_bind, ht, Option.bind_some, if_true, zombify_fails hfails]

theorem loop_fails {sigs : List ℕ} (h : State.LoopFails pid replyOk sigs s) :
    sigs.foldlM (fun s sig => s.sigSend pid sig true replyOk) s = none := by
  induction sigs generalizing s with
  | nil => exact h.elim
  | cons sig sigs ih =>
    rw [List.foldlM_cons, Option.bind_eq_bind]
    obtain hfails | ⟨t, ht, hrest⟩ := h
    · rw [sigSend_fails hfails, Option.bind_none]
    · rw [ht, Option.bind_some, ih hrest]

theorem readPending_fails {p : Process} {setName : ℕ} {andBits : SigSet} (h : p.FetchFails setName) :
    State.readPending p (setName = 4) andBits = none := by
  obtain ⟨hseen, hsaved, hffs⟩ := h
  have hold : (if decide (setName = 4) = true then p.pendingSet &&& ~~~p.maskSet else p.pendingSet) = p.seen setName := by
    simp only [decide_eq_true_eq, Process.seen]
  rw [State.readPending, hold, if_pos ⟨hseen, hsaved⟩]
  dsimp only
  rw [if_pos hffs]

/-- **A step that trips is not taken.** -/
theorem exec_trips {step : Step} (h : Trips s step) : exec s step = none := by
  cases step with
  | confirm | dropConfirm => exact h.elim
  | call sender call =>
    obtain ⟨hthread, hconfirm, hfails⟩ := h
    rw [exec, respond, if_neg (not_not.mpr hthread), hconfirm, if_neg (by simp)]
    cases call with
    | kill pid sig earlyReplyOk replyOk =>
      obtain ⟨herr, hsig, hsend⟩ := hfails
      simp only [State.handle, State.kill, herr, if_neg hsig, Option.bind_eq_bind, sigSend_fails hsend, Option.bind_none,
        Option.map_none]
    | exit status replyOk =>
      obtain ⟨hsys, hproc, hlay⟩ := hfails
      simp only [State.handle, State.exit, hsys, hproc, Bool.false_eq_true, if_false, Bool.not_true, Option.bind_eq_bind,
        zombify_fails hlay, Option.bind_none, Option.map_none]
    | sigset setName orBits andBits replyOk =>
      obtain ⟨hproc, hhelper, ⟨rfl, hapart, hloop⟩ | ⟨hset, hfetch⟩⟩ := hfails
      · have hnot : ¬ (!s.hasProcess (pidof sender)) = true := by simp [hproc]
        have hmask : s.setMask (pidof sender) orBits andBits replyOk = none := by
          rw [State.setMask, if_neg (not_not.mpr hapart), loop_fails hloop]
        rw [State.handle]
        unfold State.sigset
        dsimp only
        rw [if_neg hnot, if_neg hhelper]
        change Option.map _ (Option.bind (s.setMask (pidof sender) orBits andBits replyOk) _) = none
        rw [hmask]
        rfl
      · rw [State.handle, sigset_fetch orBits andBits replyOk hset hproc hhelper, readPending_fails hfetch]
        rfl
    | _ => exact hfails.elim

-- What becomes of the signals of a process

def Process.signals (p : Process) : SigSet × SigSet × SigSet × SigSet := (p.ignSet, p.dflSet, p.maskSet, p.pendingSet)

def SameSignals (s t : State) : Prop := ∀ q, (t.proc q).signals = (s.proc q).signals

theorem SameSignals.trans (h : SameSignals s t) (h' : SameSignals t u) : SameSignals s u := fun q => (h' q).trans (h q)

theorem SameSignals.setProc {p : Process} (hp : p.signals = (s.proc pid).signals) : SameSignals s (s.setProc pid p) :=
  setProc_field _ hp

theorem setRecord_signals (s : State) (pid : ℕ) (signo status code : ℤ) :
    SameSignals s (s.setRecord pid signo status code) := SameSignals.setProc (by rfl)

theorem SameButThreads.sameSignals (h : SameButThreads pid s t) : SameSignals s t := fun q => by rw [h.proc_eq]

theorem disposition_congr {p q : Process} (h : q.signals = p.signals) (sig : ℕ) : q.disposition sig = p.disposition sig := by
  simp only [Process.signals, Prod.mk.injEq] at h
  obtain ⟨hign, hdfl, hmask, hpending⟩ := h
  simp only [Process.disposition, hign, hdfl, hmask, hpending]

theorem Process.Spared.congr {p q : Process} (hp : p.Spared sig) (h : q.signals = p.signals) : q.Spared sig := by
  have hpending : q.pendingSet = p.pendingSet := congrArg (·.2.2.2) h
  rw [Process.Spared, disposition_congr h, hpending]
  exact hp

/-- At most, process `pid` has got signal `sig` pending, which is not at its default there. -/
structure Raises (pid sig : ℕ) (s t : State) : Prop where
  others : ∀ q ≠ pid, (t.proc q).signals = (s.proc q).signals
  ign : (t.proc pid).ignSet = (s.proc pid).ignSet
  dfl : (t.proc pid).dflSet = (s.proc pid).dflSet
  mask : (t.proc pid).maskSet = (s.proc pid).maskSet
  pending : (t.proc pid).pendingSet = (s.proc pid).pendingSet ∨
    (t.proc pid).pendingSet = (s.proc pid).pendingSet ||| sigBit sig ∧ (s.proc pid).disposition sig ≠ .default

theorem SameSignals.raises (h : SameSignals s t) (pid sig : ℕ) : Raises pid sig s t := by
  have hpid := h pid
  simp only [Process.signals, Prod.mk.injEq] at hpid
  exact ⟨fun q _ => h q, hpid.1, hpid.2.1, hpid.2.2.1, .inl hpid.2.2.2⟩

theorem Raises.congr_left (h : Raises pid sig t u) (hs : SameSignals s t) : Raises pid sig s u := by
  have hpid := hs pid
  have hdisp := disposition_congr hpid sig
  simp only [Process.signals, Prod.mk.injEq] at hpid
  obtain ⟨hign, hdfl, hmask, hpending⟩ := hpid
  refine ⟨fun q hq => (h.others q hq).trans (hs q), h.ign.trans hign, h.dfl.trans hdfl, h.mask.trans hmask, ?_⟩
  rw [← hpending, ← hdisp]
  exact h.pending

theorem Raises.congr_right (h : Raises pid sig s t) (ht : SameSignals t u) : Raises pid sig s u := by
  have hpid := ht pid
  simp only [Process.signals, Prod.mk.injEq] at hpid
  obtain ⟨hign, hdfl, hmask, hpending⟩ := hpid
  refine ⟨fun q hq => (ht q).trans (h.others q hq), hign.trans h.ign, hdfl.trans h.dfl, hmask.trans h.mask, ?_⟩
  rw [hpending]
  exact h.pending

theorem addPending_raises (hnot : (s.proc pid).disposition sig ≠ .default) : Raises pid sig s (s.addPending pid sig) := by
  have hself : (s.addPending pid sig).proc pid =
      { s.proc pid with pendingSet := (s.proc pid).pendingSet ||| sigBit sig } := Function.update_self ..
  refine ⟨fun q hq => ?_, by rw [hself], by rw [hself], by rw [hself], .inr ⟨by rw [hself], hnot⟩⟩
  simp only [State.addPending, State.setProc, Function.update_of_ne hq]

theorem sigDeliver_raises (hnot : (s.proc pid).disposition sig ≠ .default)
    (h : s.sigDeliver pid sig self = some t) : Raises pid sig s t := by
  obtain rfl | ⟨-, hnone | ⟨u, tid, utcb, hu, rfl⟩⟩ := sigDeliver_cases h
  · exact addPending_raises hnot
  · exact (allocateThread_frame hnone).sameSignals.raises pid sig
  · have hhelper : SameSignals s (u.setProc pid { u.proc pid with sighelperTid := some tid, sighelperUtcb := utcb }) :=
      (allocateThread_frame hu).sameSignals.trans (.setProc rfl)
    refine (addPending_raises ?_).congr_left hhelper
    rw [disposition_congr (hhelper pid)]
    exact hnot

theorem sigAct_raises {dies : Bool} (h : s.sigAct pid sig self = some (t, dies)) : Raises pid sig s t := by
  obtain ⟨-, rfl | ⟨hdisp, rfl | hdeliver⟩⟩ | ⟨-, -, -, rfl⟩ := sigAct_cases h
  · have hrefl : SameSignals t t := fun _ => rfl
    exact hrefl.raises pid sig
  · exact addPending_raises hdisp
  · exact sigDeliver_raises hdisp hdeliver
  · exact (setRecord_signals s pid _ _ _).raises pid sig

theorem dropHelper_signals (h : s.dropHelper pid = some t) : SameSignals s t ∧ Tame s t := by
  obtain ⟨-, rfl⟩ | hremove := dropHelper_cases h
  · exact ⟨fun _ => rfl, .refl t⟩
  · refine ⟨?_, sigRemoveHelper_tame hremove⟩
    obtain ⟨tid, u, v, -, hu, hv, rfl⟩ := sigRemoveHelper_cases hremove
    exact ((freeThread_frame hu).1.trans (freeThreadno_frame pid hv).1).sameSignals.trans (.setProc rfl)

theorem reparented {v : State} (ht : (s.logZombify pid).dropHelper pid = some t) (hu : t.taskDtor pid = some u)
    (hv : u.reparent pid = some v) : SameSignals s v ∧ (v.proc pid).ppid = s.parentOf pid := by
  obtain ⟨hdrop, htame⟩ := dropHelper_signals ht
  obtain ⟨hframe, -⟩ := taskDtor_frame hu
  have hsame : SameSignals s u := SameSignals.trans (t := s.logZombify pid) (fun _ => rfl) (hdrop.trans hframe.sameSignals)
  have hparent : u.parentOf pid = s.parentOf pid := (htame.trans hframe.tame).parentOf pid
  obtain ⟨hppid, rfl⟩ | ⟨hppid, -, rfl⟩ := reparent_cases hv
  · refine ⟨hsame, hparent ▸ ?_⟩
    rw [State.parentOf, if_pos hppid]
  · refine ⟨hsame.trans (.setProc rfl), hparent ▸ ?_⟩
    rw [State.parentOf, if_neg (by rw [hppid]; exact Bool.false_ne_true)]
    simp only [State.setProc, Function.update_self]

theorem bury_signals (s : State) (parent : ℕ) (w : Option Tid) : SameSignals s (s.bury pid parent w replyOk) := by
  rw [State.bury]
  split
  · exact fun _ => rfl
  · exact .setProc rfl

theorem takeWaiter_signals (s : State) (pid parent : ℕ) : SameSignals s (s.takeWaiter pid parent) := by
  simp only [State.takeWaiter]
  split
  · split
    · exact fun _ => rfl
    · exact SameSignals.trans (t := { s with waitanyHash := s.otherWaiters parent }) (fun _ => rfl) (.setProc rfl)
  · exact fun _ => rfl

theorem zombify_raises (h : s.zombify pid replyOk = some t) : Raises (s.parentOf pid) SIGCHLD s t := by
  simp only [State.zombify, State.layOut, Option.bind_eq_bind, Option.bind_eq_some_iff] at h
  obtain ⟨w, ⟨x, hx, u, hu, v, hv, ⟨y, dies⟩, hy, hw⟩, h⟩ := h
  cases hw
  cases h
  obtain ⟨hsame, hppid⟩ := reparented hx hu hv
  have hact := (sigAct_raises hy).congr_left hsame
  rw [hppid] at hact
  refine hact.congr_right (.trans (takeWaiter_signals y pid (y.proc pid).ppid) (.trans ?_ (bury_signals _ _ _)))
  exact fun _ => rfl

-- Under the condition they hold

theorem Process.Spared.not_fails (h : (s.proc pid).Spared sig) : ¬ s.DefaultFails pid sig := by
  rintro ⟨⟨-, hle⟩, hdfl, -, hdeadly, hbit⟩
  have hclear := h hdfl hdeadly
  have hat : (~~~(s.proc pid).pendingSet &&& (1#64 <<< (sig % 64))).getLsbD (sig % 64) = (0#64).getLsbD (sig % 64) :=
    congrArg (BitVec.getLsbD · _) hbit
  have hlt : sig % 64 < 64 := Nat.mod_lt _ (by decide)
  rw [BitVec.getLsbD_and, BitVec.getLsbD_not, ← BitVec.twoPow_eq, BitVec.getLsbD_twoPow, hclear, BitVec.getLsbD_zero,
    decide_eq_true hlt] at hat
  simp at hat

theorem State.ParentSpared.not_fails (h : s.ParentSpared pid) : ¬ s.LayOutFails pid := by
  rintro ⟨t, u, v, ht, hu, hv, hfails⟩
  obtain ⟨hsame, hppid⟩ := reparented ht hu hv
  rw [hppid] at hfails
  exact (h.congr (hsame _)).not_fails hfails

theorem State.ParentSpared.tame (h : s.ParentSpared pid) (htame : Tame s t) (hsame : SameSignals s t) :
    t.ParentSpared pid := by
  rw [State.ParentSpared, htame.parentOf]
  exact h.congr (hsame _)

theorem sendFails_of_spared (h : (s.proc pid).Spared sig) (hparent : (s.proc pid).fatal sig = true → s.ParentSpared pid) :
    ¬ s.SendFails pid sig self := by
  rintro (hfails | ⟨t, ht, hfails⟩)
  · exact h.not_fails hfails
  · obtain ⟨hno, -⟩ | ⟨-, hdeadly, hdfl, rfl⟩ := sigAct_spec ht
    · cases hno
    · have hfatal : (s.proc pid).fatal sig = true := by simp [Process.fatal, hdeadly, hdfl]
      exact ((hparent hfatal).tame (setRecord_tame ..) (setRecord_signals s pid _ _ _)).not_fails hfails

/-- Where a loop over the signals `sigs` is, `done` of them being sent: of the process's sets only the
pending one is other than in `p`, by signals that were sent and are not at their default. -/
structure Along (s₀ : State) (pid : ℕ) (p : Process) (sigs done : List ℕ) (s : State) : Prop where
  ign : (s.proc pid).ignSet = p.ignSet
  dfl : (s.proc pid).dflSet = p.dflSet
  mask : (s.proc pid).maskSet = p.maskSet
  pending : ∀ sig, (s.proc pid).pendingSet.has sig = true → p.pendingSet.has sig = true ∨ sig ∈ done ∧ p.disposition sig ≠ .default
  parent : (∃ sig ∈ sigs, p.fatal sig = true) → s.parentOf pid = s₀.parentOf pid ∧ s.ParentSpared pid

theorem not_pending (hpos : 0 < sig) (hle : sig ≤ 64) {set : SigSet} (h : set.has sig = false) :
    ¬ ~~~set &&& sigBit sig = 0 := by
  intro hzero
  have hbit : (~~~set &&& sigBit sig).getLsbD (sig - 1) = (0#64).getLsbD (sig - 1) := congrArg (BitVec.getLsbD · _) hzero
  rw [SigSet.has, decide_eq_true hpos, Bool.true_and] at h
  rw [BitVec.getLsbD_and, BitVec.getLsbD_not, sigBit_getLsbD, h, BitVec.getLsbD_zero, decide_eq_true (by omega)] at hbit
  simp at hbit

theorem Along.disposition {s₀ : State} {p : Process} {sigs done : List ℕ} (h : Along s₀ pid p sigs done s)
    (hpos : 0 < sig) (hle : sig ≤ 64) (hfresh : p.pendingSet.has sig = false) (hnot : sig ∉ done) :
    (s.proc pid).disposition sig = p.disposition sig := by
  have hclear : (s.proc pid).pendingSet.has sig = false := Bool.eq_false_of_not_eq_true fun hset =>
    (h.pending sig hset).elim (fun hp => by rw [hfresh] at hp; cases hp) fun hd => hnot hd.1
  simp only [Process.disposition, h.ign, h.dfl, h.mask, if_neg (not_pending hpos hle hclear),
    if_neg (not_pending hpos hle hfresh)]

theorem Raises.spared (h : Raises pid sig s t) (hs : (s.proc pid).Spared sig) :
    (t.proc pid).Spared sig := by
  obtain hsame | ⟨hset, -⟩ := h.pending
  · refine hs.congr ?_
    rw [Process.signals, Process.signals, h.ign, h.dfl, h.mask, hsame]
  · intro hdfl _
    have hpending : ~~~(t.proc pid).pendingSet &&& sigBit sig = 0 := by
      rw [hset]
      refine BitVec.eq_of_getLsbD_eq fun i hi => ?_
      rw [BitVec.getLsbD_and, BitVec.getLsbD_not, BitVec.getLsbD_or]
      refine Eq.trans ?_ BitVec.getLsbD_zero.symm
      cases (sigBit sig).getLsbD i <;> simp
    by_cases hmask : (t.proc pid).maskSet &&& sigBit sig ≠ 0
    · rw [Process.disposition, if_pos hmask] at hdfl
      cases hdfl
    · rw [Process.disposition, if_neg hmask, if_pos hpending] at hdfl
      cases hdfl

theorem zombify_parentOf (h : s.zombify pid replyOk = some t) (hne : s.parentOf pid ≠ pid) :
    t.parentOf pid = s.parentOf pid := by
  have hdied := zombify_died h
  have hppid : (t.proc pid).ppid = s.parentOf pid := by rw [hdied.ppid, if_pos rfl]
  rw [State.parentOf, hppid, if_pos]
  rw [hdied.process, hdied.parent, decide_eq_false hne, Bool.and_false]
  rfl

theorem Along.send {s₀ : State} {p : Process} {sigs done : List ℕ} (h : Along s₀ pid p sigs done s)
    (hmem : sig ∈ sigs) (hsig : 0 < sig) (hdisp : (s.proc pid).disposition sig = p.disposition sig)
    (hne : (∃ x ∈ sigs, p.fatal x = true) → s₀.parentOf pid ≠ pid) (ht : s.sigSend pid sig true replyOk = some t) :
    Along s₀ pid p sigs (done ++ [sig]) t := by
  simp only [State.sigSend, Option.bind_eq_bind, Option.bind_eq_some_iff] at ht
  obtain ⟨⟨u, dies⟩, hu, ht⟩ := ht
  have hraises := sigAct_raises hu
  have htame := sigAct_tame hu
  have halong : Along s₀ pid p sigs (done ++ [sig]) u := by
    refine ⟨hraises.ign.trans h.ign, hraises.dfl.trans h.dfl, hraises.mask.trans h.mask, fun x hx => ?_, fun hfatal => ?_⟩
    · have hold : (s.proc pid).pendingSet.has x = true → p.pendingSet.has x = true ∨ x ∈ done ++ [sig] ∧ p.disposition x ≠ .default :=
        fun hs => (h.pending x hs).imp_right fun hd => ⟨List.mem_append_left _ hd.1, hd.2⟩
      obtain hsame | ⟨hset, hnot⟩ := hraises.pending
      · rw [hsame] at hx
        exact hold hx
      · obtain ⟨hpos, hle, hbit⟩ := SigSet.has_iff.mp hx
        rw [hset, BitVec.getLsbD_or, Bool.or_eq_true] at hbit
        obtain hbit | hbit := hbit
        · exact hold (SigSet.has_iff.mpr ⟨hpos, hle, hbit⟩)
        · rw [sigBit_getLsbD, Bool.and_eq_true, decide_eq_true_eq, decide_eq_true_eq] at hbit
          have hx : x = sig := by omega
          rw [hx]
          exact .inr ⟨List.mem_append_right _ (List.mem_singleton_self _), hdisp ▸ hnot⟩
    · obtain ⟨hparent, hspared⟩ := h.parent hfatal
      have hother : s.parentOf pid ≠ pid := hparent ▸ hne hfatal
      refine ⟨(htame.parentOf pid).trans hparent, ?_⟩
      rw [State.ParentSpared, htame.parentOf]
      exact hspared.congr (hraises.others _ hother)
  cases dies with
  | false =>
    cases ht
    exact halong
  | true =>
    obtain ⟨hno, -⟩ | ⟨-, hdeadly, hdfl, -⟩ := sigAct_spec hu
    · cases hno
    have hfatal : ∃ x ∈ sigs, p.fatal x = true := ⟨sig, hmem, by simp [Process.fatal, hdeadly, ← hdisp, hdfl]⟩
    obtain ⟨hparent, hspared⟩ := halong.parent hfatal
    have hother : u.parentOf pid ≠ pid := hparent ▸ hne hfatal
    have hchld := zombify_raises ht
    have hself := hchld.others pid (Ne.symm hother)
    simp only [Process.signals, Prod.mk.injEq] at hself
    obtain ⟨hign, hdfl', hmask, hpending⟩ := hself
    refine ⟨hign.trans halong.ign, hdfl'.trans halong.dfl, hmask.trans halong.mask, fun x hx => ?_, fun _ => ?_⟩
    · rw [hpending] at hx
      exact halong.pending x hx
    · have hstays := zombify_parentOf ht hother
      refine ⟨hstays.trans hparent, ?_⟩
      rw [State.ParentSpared, hstays]
      exact hchld.spared hspared

theorem Along.loop {s₀ : State} {p : Process} {sigs done rest : List ℕ} (h : Along s₀ pid p sigs done s)
    (hall : SparedAll s₀ pid p sigs) (hsplit : sigs = done ++ rest) (hsorted : sigs.Pairwise (· < ·))
    (hrange : ∀ sig ∈ sigs, 0 < sig ∧ sig ≤ 64) (hfresh : ∀ sig ∈ sigs, p.pendingSet.has sig = false) :
    ¬ State.LoopFails pid replyOk rest s := by
  induction rest generalizing done s with
  | nil => exact id
  | cons sig rest ih =>
    have hmem : sig ∈ sigs := hsplit ▸ List.mem_append_right _ List.mem_cons_self
    obtain ⟨hpos, hle⟩ := hrange sig hmem
    have hbefore : ∀ x ∈ done, x < sig := by
      rw [hsplit] at hsorted
      exact fun x hx => (List.pairwise_append.mp hsorted).2.2 x hx sig List.mem_cons_self
    have hdisp := h.disposition hpos hle (hfresh sig hmem) fun hd => Nat.lt_irrefl _ (hbefore sig hd)
    have hspared : (s.proc pid).Spared sig := by
      intro hdfl hdeadly
      rw [hdisp] at hdfl
      have hclear := hall.spared sig hmem hdfl hdeadly
      refine Bool.eq_false_of_not_eq_true fun hbit => ?_
      have hhas : (s.proc pid).pendingSet.has (sig % 64 + 1) = true := by
        rw [SigSet.has, Nat.add_sub_cancel, hbit]
        rfl
      obtain hold | ⟨hd, hnot⟩ := h.pending _ hhas
      · rw [SigSet.has, Nat.add_sub_cancel, hclear] at hold
        simp at hold
      · have hlt := hbefore _ hd
        have hlast : sig = 64 := by omega
        subst hlast
        exact hnot (hall.last hmem hdfl (hsplit ▸ List.mem_append_left _ hd))
    have hparent : (∃ x ∈ sigs, p.fatal x = true) → s₀.parentOf pid ≠ pid := by
      rintro ⟨x, hx, hfatal⟩
      exact (hall.parent x hx hfatal).1
    rintro (hfails | ⟨t, ht, hfails⟩)
    · refine sendFails_of_spared hspared (fun hfatal => (h.parent ⟨sig, hmem, ?_⟩).2) hfails
      simpa only [Process.fatal, hdisp] using hfatal
    · refine ih (h.send hmem hpos hdisp hparent ht) ?_ hfails
      rw [hsplit, List.append_assoc]
      rfl

theorem sigList_mem {set : SigSet} : sig ∈ State.sigList set ↔ set.has sig = true := by
  rw [SigSet.has_iff, State.sigList, List.mem_map]
  constructor
  · rintro ⟨i, hi, rfl⟩
    obtain ⟨hlt, hbit⟩ := List.mem_filter.mp hi
    have hlt' := List.mem_range.mp hlt
    exact ⟨Nat.succ_pos i, hlt', hbit⟩
  · rintro ⟨hpos, hle, hbit⟩
    refine ⟨sig - 1, List.mem_filter.mpr ⟨List.mem_range.mpr (by omega), hbit⟩, by omega⟩

theorem sigList_sorted (set : SigSet) : (State.sigList set).Pairwise (· < ·) := by
  rw [State.sigList]
  exact (List.pairwise_lt_range.filter _).map _ fun _ _ => Nat.succ_lt_succ

theorem remask_fresh {p : Process} {orBits andBits : SigSet}
    (h : sig ∈ State.sigList (State.released p andBits &&& ~~~p.ignSet)) :
    (State.remask p orBits andBits).pendingSet.has sig = false := by
  obtain ⟨hpos, hle, hbit⟩ := SigSet.has_iff.mp (sigList_mem.mp h)
  rw [BitVec.getLsbD_and, Bool.and_eq_true] at hbit
  rw [SigSet.has, State.remask, BitVec.getLsbD_and, BitVec.getLsbD_not, hbit.1]
  simp

theorem remask_along {orBits andBits : SigSet} {sigs : List ℕ}
    (hall : SparedAll s pid (State.remask (s.proc pid) orBits andBits) sigs) :
    Along s pid (State.remask (s.proc pid) orBits andBits) sigs []
      (s.setProc pid (State.remask (s.proc pid) orBits andBits)) := by
  have hself : (s.setProc pid (State.remask (s.proc pid) orBits andBits)).proc pid =
      State.remask (s.proc pid) orBits andBits := Function.update_self ..
  have htame : Tame s (s.setProc pid (State.remask (s.proc pid) orBits andBits)) := .setProc rfl rfl rfl rfl
  refine ⟨by rw [hself], by rw [hself], by rw [hself], fun x hx => .inl (hself ▸ hx), ?_⟩
  rintro ⟨x, hx, hfatal⟩
  obtain ⟨hne, hspared⟩ := hall.parent x hx hfatal
  have hother : (s.setProc pid (State.remask (s.proc pid) orBits andBits)).proc (s.parentOf pid) =
      s.proc (s.parentOf pid) := Function.update_of_ne hne ..
  refine ⟨htame.parentOf pid, ?_⟩
  rw [State.ParentSpared, htame.parentOf, hother]
  exact hspared

theorem ffsl_finds {set : SigSet} (hne : set ≠ 0) (hle : ffsll set ≤ 32) :
    ffsll (sigBit (ffsll set) &&& 0xffffffff#64) = ffsll set := by
  obtain ⟨hle', hhas⟩ := ffsll_has hne
  rw [ffsl_sigBit _ (Nat.lt_succ_of_le hle') (SigSet.has_iff.mp hhas).1, if_pos hle]

/-- **A step that meets the condition trips neither assertion.** -/
theorem steady_holds {step : Step} (h : steady s step) : ¬ Trips s step := by
  cases step with
  | confirm | dropConfirm => exact id
  | call sender call =>
    rintro ⟨-, -, hfails⟩
    cases call with
    | kill pid sig earlyReplyOk replyOk =>
      obtain ⟨herr, hsig, hsend⟩ := hfails
      obtain ⟨hspared, hparent⟩ := h herr hsig
      exact sendFails_of_spared hspared hparent hsend
    | exit status replyOk =>
      obtain ⟨hsys, -, hlay⟩ := hfails
      exact ((h hsys).tame (setRecord_tame ..) (setRecord_signals s _ _ _ _)).not_fails hlay
    | sigset setName orBits andBits replyOk =>
      obtain ⟨hloop, hfetch⟩ := h
      obtain ⟨-, -, ⟨hset, -, hfails⟩ | ⟨hset, hseen, hsaved, hfails⟩⟩ := hfails
      · have hall := hloop hset
        exact (remask_along hall).loop hall rfl (sigList_sorted _)
          (fun sig hsig => ⟨(SigSet.has_iff.mp (sigList_mem.mp hsig)).1, (SigSet.has_iff.mp (sigList_mem.mp hsig)).2.1⟩)
          (fun sig hsig => remask_fresh hsig) hfails
      · exact hfails (ffsl_finds hseen (hfetch hset hsaved))
    | _ => exact hfails

/-- **The assertions on signals.** From any state of root, steps of which each meets the condition in the
state that it is taken from do not lead to a failure of either assertion. -/
theorem steady_run (s : State) (steps : List Step) (h : SteadyRun s steps) : ¬ Stops s steps := by
  intro hstops
  induction hstops with
  | here htrips => exact steady_holds h.1 htrips
  | later hstep _ ih => exact ih (h.2 _ hstep)

/-- `SIGCHLD` is sent with signal 5 pending. -/
theorem steady_run_child : ¬ Stops (pendingState (sigBit 5) false) [.call ⟨512, 3⟩ (.kill 1 17 true true)] := by
  refine steady_run (pendingState (sigBit 5) false) [.call ⟨512, 3⟩ (.kill 1 17 true true)] ⟨fun _ _ => ⟨fun _ _ => ?_, ?_⟩, ?_⟩
  · decide +kernel
  · exact fun hfatal => absurd hfatal (by decide +kernel)
  · exact fun _ _ => trivial

theorem Stops.of_run {ok : State → Step → Prop} {steps rest : List Step} (h : Run exec ok s steps t) (hstops : Stops t rest) :
    Stops s (steps ++ rest) := by
  induction h with
  | nil s => exact hstops
  | cons _ hstep _ ih => exact .later hstep (ih hstops)

/-- Init masks signal 18 and is sent it, and is sent `SIGCHLD`. -/
theorem stops_child : Booted bootState ∧ Stops bootState
    ([.call rootTid (.spawn (.loaded ⟨0x100000, 19⟩) .blank),
      .call initTid (.sigset 2 (sigBit 18) (~~~0) true),
      .call initTid (.kill 1 18 true true)] ++ [.call initTid (.kill 1 17 true true)]) := by
  obtain ⟨s, hs, he⟩ := Run.exists_of_evalRun exec free bootState
    [.call rootTid (.spawn (.loaded ⟨0x100000, 19⟩) .blank),
      .call initTid (.sigset 2 (sigBit 18) (~~~0) true),
      .call initTid (.kill 1 18 true true)]
    (fun s => (decide (initTid ∈ (s.task 1).threads ∧ s.confirm = none ∧ s.killError 1 1 17 true = none), (s.proc 1).signals))
    (true, 0, ~~~0, sigBit 18, sigBit 18) (by decide +kernel)
  simp only [Prod.mk.injEq, Process.signals, decide_eq_true_eq] at he
  obtain ⟨⟨hthreads, hconfirm, herr⟩, hign, hdfl, hmask, hpending⟩ := he
  refine ⟨bootState_booted, Stops.of_run hs (.here ⟨hthreads, hconfirm, herr, by decide, .inl ⟨by decide, ?_, ?_, by decide, ?_⟩⟩)⟩
  · change (s.proc 1).disposition 17 = .default
    simp only [Process.disposition, hign, hdfl, hmask, hpending]
    decide +kernel
  · change (s.proc 1).ignSet &&& sigBit 17 = 0
    rw [hign]
    decide +kernel
  · change ~~~(s.proc 1).pendingSet &&& (1#64 <<< (17 % 64)) = 0
    rw [hpending]
    decide +kernel

end Sneks.Root
