import Sneks.Root.Effects

/-!
# Ignored signals and default signals

`ign_set` and `dfl_set` of a process share no signal. Only `Proc::sigset` on one of the
two changes them once the process exists; a new process has all signals in `dfl_set`, or
the sets of the process it was forked from.
-/

namespace Sneks.Root
open Lib

def Process.dispositions (p : Process) : SigSet × SigSet := (p.ignSet, p.dflSet)

def Apart (sets : SigSet × SigSet) : Prop := sets.1 &&& sets.2 = 0

instance (sets : SigSet × SigSet) : Decidable (Apart sets) := inferInstanceAs (Decidable (_ = _))

/-- The named set becomes `(old & and) | or`, and what is new in it leaves the other set. -/
def adjusted (setName : ℕ) (orBits andBits : SigSet) (sets : SigSet × SigSet) : SigSet × SigSet :=
  match setName with
  | 0 =>
    let ign := (sets.1 &&& andBits) ||| orBits
    (ign, sets.2 &&& ~~~(ign &&& ~~~sets.1))
  | 1 =>
    let dfl := (sets.2 &&& andBits) ||| orBits
    (sets.1 &&& ~~~(dfl &&& ~~~sets.2), dfl)
  | _ => sets

/-- The sets of process `q` after a step, from those before it. -/
def Step.adjusts (q : ℕ) : Step → SigSet × SigSet → SigSet × SigSet
  | .call sender (.sigset setName orBits andBits _) =>
    if q = pidof sender then adjusted setName orBits andBits else id
  | _ => id

structure Dispositions (s : State) : Prop where
  apart : ∀ pid, s.hasProcess pid = true → Apart (s.proc pid).dispositions
  /-- The assertion of `sig_send`. -/
  sigSend : ∀ pid sig, s.hasProcess pid = true → (s.proc pid).dflSet &&& sigBit sig ≠ 0 →
    (s.proc pid).ignSet &&& sigBit sig = 0
  /-- The assertion of `sigset`, after a change of either set. -/
  sigset : ∀ pid orBits andBits, s.hasProcess pid = true →
    Apart (State.changedSets (s.proc pid).ignSet (s.proc pid).dflSet orBits andBits) ∧
    Apart (State.changedSets (s.proc pid).dflSet (s.proc pid).ignSet orBits andBits)
  /-- What a step does to the sets of the processes that there are. -/
  step : ∀ step t, exec s step = some t → ∀ q, s.hasProcess q = true →
    (t.proc q).dispositions = step.adjusts q (s.proc q).dispositions

theorem and_eq_zero_bit {a b : SigSet} (h : a &&& b = 0) (i : ℕ) (hi : i < 64) : (a[i] && b[i]) = false := by
  have hbit : (a &&& b)[i] = (0 : SigSet)[i] := by rw [h]
  simpa using hbit

theorem changedSets_apart {set other : SigSet} (h : set &&& other = 0) (orBits andBits : SigSet) :
    Apart (State.changedSets set other orBits andBits) := by
  simp only [Apart, State.changedSets]
  ext i hi
  have hbit := and_eq_zero_bit h i hi
  simp only [BitVec.getElem_and, BitVec.getElem_or, BitVec.getElem_not, BitVec.getElem_xor]
  grind

theorem changedSets_snd {set other : SigSet} (h : set &&& other = 0) (orBits andBits : SigSet) :
    (State.changedSets set other orBits andBits).2 =
      other &&& ~~~(((set &&& andBits) ||| orBits) &&& ~~~set) := by
  simp only [State.changedSets]
  ext i hi
  have hbit := and_eq_zero_bit h i hi
  simp only [BitVec.getElem_and, BitVec.getElem_or, BitVec.getElem_not, BitVec.getElem_xor]
  grind

theorem and_sigBit (set : SigSet) (sig : ℕ) :
    set &&& sigBit sig = if set.getLsbD (sig - 1) then sigBit sig else 0 := by
  rw [sigBit, ← BitVec.twoPow_eq]
  exact BitVec.and_twoPow set (sig - 1)

theorem sigBit_apart {ign dfl : SigSet} (h : ign &&& dfl = 0) {sig : ℕ} (hd : dfl &&& sigBit sig ≠ 0) :
    ign &&& sigBit sig = 0 := by
  have hbit : (ign &&& dfl).getLsbD (sig - 1) = false := by
    rw [h]
    exact BitVec.getLsbD_zero
  have hdfl : dfl.getLsbD (sig - 1) = true := by
    by_contra hno
    rw [and_sigBit, if_neg hno] at hd
    exact hd rfl
  rw [BitVec.getLsbD_and, hdfl, Bool.and_true] at hbit
  rw [and_sigBit, hbit]
  rfl

-- Steps that leave the sets alone

structure SameSets (s t : State) : Prop where
  sets : ∀ q, (t.proc q).dispositions = (s.proc q).dispositions
  process : ∀ q, t.hasProcess q = true → s.hasProcess q = true
  nextPid : s.nextUserPid ≤ t.nextUserPid

variable {s t u : State} {pid : ℕ} {r : Result}

theorem SameSets.refl (s : State) : SameSets s s := ⟨fun _ => rfl, fun _ h => h, Nat.le_refl _⟩

theorem SameSets.trans (h : SameSets s t) (h' : SameSets t u) : SameSets s u where
  sets q := (h'.sets q).trans (h.sets q)
  process q hq := h.process q (h'.process q hq)
  nextPid := Nat.le_trans h.nextPid h'.nextPid

theorem SameSets.setProc {p : Process} (hp : p.dispositions = (s.proc pid).dispositions) :
    SameSets s (s.setProc pid p) := ⟨setProc_field _ hp, fun _ h => h, Nat.le_refl _⟩

theorem SameButThreads.sameSets (h : SameButThreads pid s t) : SameSets s t where
  sets q := by rw [h.proc_eq]
  process q hq := (h.hasProcess_eq q).symm.trans hq
  nextPid := Nat.le_of_eq (by rw [h.eq])

theorem destroyProcess_sameSets (s : State) (pid : ℕ) : SameSets s (s.destroyProcess pid) := by
  refine ⟨fun _ => rfl, fun q hq => ?_, Nat.le_refl _⟩
  rw [destroyProcess_hasProcess] at hq
  simp only [Bool.and_eq_true] at hq
  exact hq.1

theorem sigDeliver_sameSets {sig : ℕ} {self : Bool} (h : s.sigDeliver pid sig self = some t) : SameSets s t := by
  obtain rfl | ⟨-, hnone | ⟨u, tid, utcb, hu, rfl⟩⟩ := sigDeliver_cases h
  · exact .setProc rfl
  · exact (allocateThread_frame hnone).sameSets
  · refine (allocateThread_frame hu).sameSets.trans (.trans ?_ (.setProc rfl))
    exact .setProc rfl

theorem sigAct_sameSets {sig : ℕ} {self dies : Bool} (h : s.sigAct pid sig self = some (t, dies)) :
    SameSets s t := by
  obtain ⟨-, rfl | ⟨-, rfl | hdeliver⟩⟩ | ⟨-, -, -, rfl⟩ := sigAct_cases h
  · exact .refl t
  · exact .setProc rfl
  · exact sigDeliver_sameSets hdeliver
  · exact .setProc rfl

theorem sigRemoveHelper_sameSets (h : s.sigRemoveHelper pid = some t) : SameSets s t := by
  obtain ⟨tid, u, v, -, hu, hv, rfl⟩ := sigRemoveHelper_cases h
  exact ((freeThread_frame hu).1.trans (freeThreadno_frame pid hv).1).sameSets.trans (.setProc rfl)

theorem reparent_sameSets (h : s.reparent pid = some t) : SameSets s t := by
  obtain ⟨-, rfl⟩ | ⟨-, -, rfl⟩ := reparent_cases h
  · exact .refl t
  · exact .setProc rfl

theorem layOut_sameSets (h : s.layOut pid = some t) : SameSets s t := by
  simp only [State.layOut, Option.bind_eq_bind, Option.bind_eq_some_iff] at h
  obtain ⟨u, hu, v, hv, w, hw, ⟨x, dies⟩, hx, h⟩ := h
  cases h
  have hlog : SameSets s (s.logZombify pid) := ⟨fun _ => rfl, fun _ h => h, Nat.le_refl _⟩
  have hhelper : SameSets (s.logZombify pid) u := by
    obtain ⟨-, rfl⟩ | hremove := dropHelper_cases hu
    · exact .refl _
    · exact sigRemoveHelper_sameSets hremove
  have hdtor := (taskDtor_frame hv).1.sameSets
  exact (hlog.trans hhelper).trans ((hdtor.trans (reparent_sameSets hw)).trans (sigAct_sameSets hx))

theorem takeWaiter_sameSets (s : State) (pid parent : ℕ) : SameSets s (s.takeWaiter pid parent) := by
  have hhash : SameSets s { s with waitanyHash := s.otherWaiters parent } :=
    ⟨fun _ => rfl, fun _ h => h, Nat.le_refl _⟩
  simp only [State.takeWaiter]
  split
  · split
    · exact hhash
    · exact hhash.trans (.setProc rfl)
  · exact .refl s

theorem zombify_sameSets {replyOk : Bool} (h : s.zombify pid replyOk = some t) : SameSets s t := by
  simp only [State.zombify, Option.bind_eq_bind, Option.bind_eq_some_iff] at h
  obtain ⟨u, hu, h⟩ := h
  cases h
  have hsame := (layOut_sameSets hu).trans (takeWaiter_sameSets u pid (u.proc pid).ppid)
  have hcast : SameSets (u.takeWaiter pid (u.proc pid).ppid)
      ((u.takeWaiter pid (u.proc pid).ppid).broadcastExit pid) :=
    ⟨fun _ => rfl, fun _ h => h, Nat.le_refl _⟩
  refine (hsame.trans hcast).trans ?_
  simp only [State.bury]
  split
  · exact destroyProcess_sameSets _ pid
  · exact .setProc rfl

theorem sigSend_sameSets {sig : ℕ} {self replyOk : Bool} (h : s.sigSend pid sig self replyOk = some t) :
    SameSets s t := by
  simp only [State.sigSend, Option.bind_eq_bind, Option.bind_eq_some_iff] at h
  obtain ⟨⟨u, dies⟩, hu, h⟩ := h
  have hact := sigAct_sameSets hu
  cases dies with
  | false =>
    cases h
    exact hact
  | true => exact hact.trans (zombify_sameSets h)

theorem sigLoop_sameSets {sigs : List ℕ} {replyOk : Bool}
    (h : sigs.foldlM (fun s sig => s.sigSend pid sig true replyOk) s = some t) : SameSets s t := by
  induction sigs generalizing s with
  | nil =>
    simp only [List.foldlM_nil, Option.pure_def, Option.some.injEq] at h
    exact h ▸ .refl s
  | cons sig sigs ih =>
    simp only [List.foldlM_cons, Option.bind_eq_bind, Option.bind_eq_some_iff] at h
    obtain ⟨u, hu, h⟩ := h
    exact (sigSend_sameSets hu).trans (ih h)

theorem syncConfirm_sameSets (h : s.syncConfirm = some t) : SameSets s t := by
  obtain ⟨-, rfl⟩ | ⟨c, -, -, rfl⟩ := syncConfirm_spec h
  · exact .refl t
  · have hclear : SameSets s { s with confirm := none } := ⟨fun _ => rfl, fun _ h => h, Nat.le_refl _⟩
    refine hclear.trans (.trans ?_ (destroyProcess_sameSets _ _))
    exact .setProc rfl

theorem readPending_dispositions {p p' : Process} {conceal : Bool} {andBits sigs : SigSet}
    (h : State.readPending p conceal andBits = some (p', sigs)) : p'.dispositions = p.dispositions := by
  obtain ⟨_, _, _, rfl⟩ := readPending_cases h
  rfl

theorem setMask_sameSets {orBits andBits : SigSet} {replyOk : Bool}
    (h : s.setMask pid orBits andBits replyOk = some t) : SameSets s t := by
  refine .trans ?_ (sigLoop_sameSets (setMask_cases h))
  exact .setProc rfl

theorem sigset_sets {sender : Tid} {setName : ℕ} {orBits andBits : SigSet} {replyOk : Bool}
    (hapart : Apart (s.proc (pidof sender)).dispositions)
    (h : s.sigset sender setName orBits andBits replyOk = some (t, r)) :
    (∀ q, (t.proc q).dispositions =
      (Step.call sender (.sigset setName orBits andBits replyOk)).adjusts q (s.proc q).dispositions) ∧
    (∀ q, t.hasProcess q = true → s.hasProcess q = true) ∧ s.nextUserPid ≤ t.nextUserPid := by
  have hkeep : SameSets s t → (∀ sets, adjusted setName orBits andBits sets = sets) →
      (∀ q, (t.proc q).dispositions =
        (Step.call sender (.sigset setName orBits andBits replyOk)).adjusts q (s.proc q).dispositions) ∧
      (∀ q, t.hasProcess q = true → s.hasProcess q = true) ∧ s.nextUserPid ≤ t.nextUserPid := by
    intro hsame hid
    refine ⟨fun q => ?_, hsame.process, hsame.nextPid⟩
    rw [hsame.sets q]
    simp only [Step.adjusts]
    split
    · exact (hid _).symm
    · rfl
  have hset : ∀ p, t = s.setProc (pidof sender) p →
      p.dispositions = adjusted setName orBits andBits (s.proc (pidof sender)).dispositions →
      (∀ q, (t.proc q).dispositions =
        (Step.call sender (.sigset setName orBits andBits replyOk)).adjusts q (s.proc q).dispositions) ∧
      (∀ q, t.hasProcess q = true → s.hasProcess q = true) ∧ s.nextUserPid ≤ t.nextUserPid := by
    rintro p rfl hp
    refine ⟨fun q => ?_, fun _ h => h, Nat.le_refl _⟩
    simp only [Step.adjusts]
    by_cases hq : q = pidof sender
    · subst hq
      simp only [State.setProc, Function.update_self, if_true]
      exact hp
    · simp only [State.setProc, Function.update_of_ne hq, if_neg hq, id]
  simp only [State.sigset] at h
  split at h
  · cases h
  split at h
  · next hfour =>
    simp only [Option.bind_eq_bind, Option.bind_eq_some_iff] at h
    obtain ⟨u, hu, h⟩ := h
    cases h
    exact hkeep (sigRemoveHelper_sameSets hu) (by rw [hfour.1]; exact fun _ => rfl)
  split at h
  · -- the ignored set
    split at h
    · cases h
    · cases h
      refine hset _ rfl ?_
      exact congrArg (Prod.mk _) (changedSets_snd hapart orBits andBits)
  · -- the default set
    split at h
    · cases h
    · cases h
      have hapart' : (s.proc (pidof sender)).dflSet &&& (s.proc (pidof sender)).ignSet = 0 := by
        rw [BitVec.and_comm]
        exact hapart
      refine hset _ rfl ?_
      exact congrArg (·, _) (changedSets_snd hapart' orBits andBits)
  · simp only [Option.bind_eq_bind, Option.bind_eq_some_iff] at h
    obtain ⟨u, hu, h⟩ := h
    cases h
    exact hkeep (setMask_sameSets hu) fun _ => rfl
  · simp only [Option.bind_eq_bind, Option.bind_eq_some_iff] at h
    obtain ⟨⟨p', sigs⟩, hp, h⟩ := h
    cases h
    exact hkeep (.setProc (readPending_dispositions hp)) fun _ => rfl
  · simp only [Option.bind_eq_bind, Option.bind_eq_some_iff] at h
    obtain ⟨⟨p', sigs⟩, hp, h⟩ := h
    cases h
    exact hkeep (.setProc (readPending_dispositions hp)) fun _ => rfl
  · cases h
    refine hkeep (.refl _) fun sets => ?_
    simp only [adjusted]

/-- A process came into being: `pid`, which no process had before. -/
structure Makes (pid : ℕ) (s t : State) : Prop where
  sets : ∀ q ≠ pid, (t.proc q).dispositions = (s.proc q).dispositions
  process : ∀ q ≠ pid, t.hasProcess q = true → s.hasProcess q = true
  fresh : s.nextUserPid ≤ pid
  nextPid : pid < t.nextUserPid

theorem Makes.trans (h : Makes pid s t) (h' : SameSets t u) : Makes pid s u where
  sets q hq := (h'.sets q).trans (h.sets q hq)
  process q hq hu := h.process q hq (h'.process q hu)
  fresh := h.fresh
  nextPid := Nat.lt_of_lt_of_le h.nextPid h'.nextPid

theorem Makes.setProc {p : Process} (h : Makes pid s t) : Makes pid s (t.setProc pid p) where
  sets q hq := by
    simp only [State.setProc, Function.update_of_ne hq]
    exact h.sets q hq
  process := h.process
  fresh := h.fresh
  nextPid := h.nextPid

theorem hasProcess_setTask {a : Task} {q : ℕ} (hq : q ≠ pid) : (s.setTask pid a).hasProcess q = s.hasProcess q := by
  simp only [State.hasProcess, State.setTask, Function.update_of_ne hq]

theorem Makes.setTask {a : Task} (h : Makes pid s t) : Makes pid s (t.setTask pid a) where
  sets := h.sets
  process q hq ht := h.process q hq ((hasProcess_setTask hq).symm.trans ht)
  fresh := h.fresh
  nextPid := h.nextPid

theorem abandon_sameSets (s : State) (pid : ℕ) : SameSets s (s.abandon pid) := by
  refine ⟨fun _ => rfl, fun q hq => ?_, Nat.le_refl _⟩
  by_cases hne : q = pid
  · subst hne
    simp [State.hasProcess, State.abandon, State.setTask] at hq
  · exact (hasProcess_setTask hne).symm.trans hq

theorem allocProcess_lt {mem : Process} {n : ℕ} (h : s.allocProcess mem n = some (t, some pid)) :
    pid < t.nextUserPid := by
  induction n generalizing s with
  | zero => simp [State.allocProcess] at h
  | succ n ih =>
    simp only [State.allocProcess] at h
    have hne : ¬ s.nextUserPid + 1 = s.nextUserPid := by omega
    simp only [hne, decide_false, Bool.false_eq_true, if_false, Bool.false_or] at h
    by_cases hmax : s.nextUserPid > maxPid
    · have hle : ¬ s.nextUserPid + 1 ≤ maxPid := by omega
      simp [hmax, hle] at h
    · simp only [hmax, if_false, decide_false, Bool.false_and, Bool.false_eq_true] at h
      split at h
      · exact ih h
      · simp only [Option.some.injEq, Prod.mk.injEq] at h
        obtain ⟨rfl, rfl⟩ := h
        exact Nat.lt_succ_self _

theorem allocProcess_makes {mem : Process} {n : ℕ} {got : Option ℕ} (h : s.allocProcess mem n = some (t, got)) :
    (got = none ∧ SameSets s t) ∨
    ∃ pid, got = some pid ∧ Makes pid s t ∧ (t.proc pid).dispositions = (0, ~~~0) := by
  obtain ⟨next, hnext, rfl, rfl⟩ | ⟨next, -, pid, hfresh, rfl, -, -, ht⟩ := allocProcess_spec h
  · exact .inl ⟨rfl, fun _ => rfl, fun _ h => h, hnext⟩
  · refine .inr ⟨pid, rfl, ⟨fun q hq => ?_, fun q _ hp => ?_, hfresh, allocProcess_lt h⟩, ?_⟩
    · rw [ht]
      simp only [Function.update_of_ne hq]
    · rw [ht] at hp
      exact hp
    · rw [ht]
      simp only [Function.update_self]
      rfl

theorem spawnIdentity_sameSets {caller : ℕ} {ok : Bool} (h : s.spawnIdentity caller pid = some (t, ok)) :
    SameSets s t := by
  simp only [State.spawnIdentity] at h
  split at h
  · cases h
    exact .setProc rfl
  · simp only [Option.bind_eq_bind, Option.bind_eq_some_iff] at h
    obtain ⟨u, hu, h⟩ := h
    split at h
    · cases h
      exact (syncConfirm_sameSets hu).trans (.setProc rfl)
    · cases h
      exact syncConfirm_sameSets hu

theorem spawnLaunch_makes {area : Fpage} {s₀ : State} (hm : Makes pid s₀ s)
    (h : s.spawnLaunch pid area = some (t, r)) :
    Makes pid s₀ t ∧ (t.proc pid).dispositions = (s.proc pid).dispositions ∧
      ∀ child, r = .ok child → child = pid := by
  simp only [State.spawnLaunch, Option.bind_eq_bind, Option.bind_eq_some_iff] at h
  obtain ⟨u, hu, ⟨v, ok⟩, hv, h⟩ := h
  have hsame := (syncConfirm_sameSets hu).trans (launchProcess_frame hv).sameSets
  have hmakes : Makes pid s₀ v := (hm.setTask (a := _)).trans hsame
  have hsets : (v.proc pid).dispositions = (s.proc pid).dispositions := hsame.sets pid
  split at h
  · cases h
    refine ⟨hmakes, hsets, ?_⟩
    rintro child hc
    cases hc
    rfl
  · cases h
    exact ⟨hmakes.trans (abandon_sameSets v pid), hsets, by rintro _ ⟨⟩⟩

theorem spawn_makes {caller : ℕ} {load : Load} {mem : Process} (h : s.spawn caller load mem = some (t, r)) :
    (SameSets s t ∧ ∀ child, r ≠ .ok child) ∨
    ∃ pid, Makes pid s t ∧ (t.proc pid).dispositions = (0, ~~~0) ∧ ∀ child, r = .ok child → child = pid := by
  simp only [State.spawn] at h
  split at h
  · cases h
    exact .inl ⟨.refl _, by rintro _ ⟨⟩⟩
  simp only [Option.bind_eq_bind, Option.bind_eq_some_iff] at h
  obtain ⟨⟨u, got⟩, hu, h⟩ := h
  obtain ⟨rfl, hsame⟩ | ⟨pid, rfl, hmakes, hsets⟩ := allocProcess_makes hu
  · cases h
    exact .inl ⟨hsame, by rintro _ ⟨⟩⟩
  · refine .inr ⟨pid, ?_⟩
    simp only [State.spawnInto, Option.bind_eq_bind, Option.bind_eq_some_iff] at h
    obtain ⟨⟨v, ok⟩, hv, h⟩ := h
    have hid := spawnIdentity_sameSets hv
    have hmakes' := hmakes.trans hid
    have hsets' : (v.proc pid).dispositions = (0, ~~~0) := (hid.sets pid).trans hsets
    have hgone := abandon_sameSets v pid
    split at h
    · cases h
      exact ⟨hmakes'.trans hgone, (hgone.sets pid).trans hsets', by rintro _ ⟨⟩⟩
    split at h
    · obtain ⟨hm, hl, hchild⟩ := spawnLaunch_makes hmakes' h
      exact ⟨hm, hl.trans hsets', hchild⟩
    all_goals
      cases h
      exact ⟨hmakes'.trans hgone, (hgone.sets pid).trans hsets', by rintro _ ⟨⟩⟩

/-- `uapi_fork` makes a process with the sets of its parent, or with every signal at its
    default when it fails early. -/
theorem fork_makes {env : ForkEnv} (hold : ∀ q, s.hasProcess q = true → q < s.nextUserPid)
    (h : s.fork pid env = some (t, r)) :
    (SameSets s t ∧ ∀ child, r ≠ .ok child) ∨
    s.hasProcess pid = true ∧ ∃ newpid, Makes newpid s t ∧ (∀ child, r = .ok child → child = newpid) ∧
      ((t.proc newpid).dispositions = (s.proc pid).dispositions ∨
        (t.proc newpid).dispositions = (0, ~~~0) ∧ ∀ child, r ≠ .ok child) := by
  simp only [State.fork] at h
  split at h
  · cases h
    exact .inl ⟨.refl _, by rintro _ ⟨⟩⟩
  split at h
  · cases h
  next hp =>
  have hp : s.hasProcess pid = true := by simpa using hp
  simp only [Option.bind_eq_bind, Option.bind_eq_some_iff] at h
  obtain ⟨⟨u, got⟩, hu, h⟩ := h
  obtain ⟨rfl, hsame⟩ | ⟨newpid, rfl, hmakes, hsets⟩ := allocProcess_makes hu
  · cases h
    exact .inl ⟨hsame, by rintro _ ⟨⟩⟩
  · have hne : pid ≠ newpid := by
      have := hmakes.fresh
      have := hold pid hp
      omega
    refine .inr ⟨hp, newpid, ?_⟩
    simp only [State.forkInto] at h
    split at h
    · cases h
      exact ⟨hmakes.setTask, by rintro _ ⟨⟩, .inr ⟨hsets, by rintro _ ⟨⟩⟩⟩
    have hrec : ∀ v : State, v.proc = Function.update u.proc newpid
        (State.forkRecord (u.proc pid) (u.proc newpid) pid) →
        (v.proc newpid).dispositions = (s.proc pid).dispositions := by
      intro v hv
      rw [hv, Function.update_self]
      exact hmakes.sets pid hne
    split at h
    · cases h
      exact ⟨hmakes.setTask.setProc, by rintro _ ⟨⟩, .inl (hrec _ rfl)⟩
    have hfiled : ∀ v : State, Makes newpid s v → ∀ ix, Makes newpid s { v with pidToChild := ix } :=
      fun v hv _ => ⟨hv.sets, hv.process, hv.fresh, hv.nextPid⟩
    split at h
    · cases h
      exact ⟨hfiled _ hmakes.setTask.setProc _, by rintro _ ⟨⟩, .inl (hrec _ rfl)⟩
    · simp only [Option.bind_eq_bind, Option.bind_eq_some_iff] at h
      obtain ⟨⟨v, ok⟩, hv, h⟩ := h
      have hsame := (launchProcess_frame hv).sameSets
      split at h
      · cases h
        refine ⟨(hfiled _ hmakes.setTask.setProc _).trans hsame, ?_, .inl ?_⟩
        · rintro child hc
          cases hc
          rfl
        · exact (hsame.sets newpid).trans (hrec _ rfl)
      · cases h

/-- A call that makes no process and is no `sigset`. -/
def Call.neutral : Call → Bool
  | .sigset .. | .spawn .. | .fork _ => false
  | _ => true

theorem exec_sameSets {load : Load} (h : s.exec pid load = some (t, r)) : SameSets s t := by
  obtain rfl | ⟨-, hp, u, hu, hend⟩ := exec_cases h
  · exact .refl t
  have hf := (taskDtor_frame hu).1
  have hconf : ∀ area, SameSets s (u.configure pid area) := fun area =>
    ⟨hf.sameSets.sets, fun q hq => (configure_hasProcess hp hf q).symm.trans hq, hf.sameSets.nextPid⟩
  obtain rfl | ⟨area, rfl | ⟨ok, hv⟩⟩ := hend
  · exact hf.sameSets
  · exact hconf area
  · exact (hconf area).trans (launchProcess_frame hv).sameSets

theorem wait_sameSets {sender : Tid} {id : WaitFor} {nohang : Bool} (h : s.wait sender id nohang = some (t, r)) :
    SameSets s t := by
  obtain rfl | ⟨dead, -, rfl⟩ | ⟨child, -, rfl⟩ | ⟨-, rfl⟩ := wait_cases h
  · exact .refl t
  · exact ⟨fun _ => rfl, fun _ h => h, Nat.le_refl _⟩
  · exact .setProc rfl
  · exact ⟨setProc_field Process.dispositions rfl, fun _ h => h, Nat.le_refl _⟩

theorem handle_sameSets {sender : Tid} {call : Call} (hn : call.neutral = true)
    (h : s.handle sender call = some (t, r)) : SameSets s t := by
  cases call with
  | sigset n orBits andBits ok | spawn load mem | fork env => cases hn
  | createThread => exact (createThread_frame h).sameSets
  | removeThread tid utcbAddr => exact (removeThread_frame h).sameSets
  | exec load => exact exec_sameSets h
  | kill pid sig earlyReplyOk replyOk =>
    obtain rfl | ⟨-, -, hsend⟩ := kill_cases h
    · exact .refl t
    · exact sigSend_sameSets hsend
  | exit status replyOk =>
    obtain ⟨-, hu⟩ | ⟨-, -, hz⟩ := exit_cases h
    · exact (taskDtor_frame hu).1.sameSets
    · have hrec : SameSets s (s.setRecord (pidof sender) 0 (toShort status) CLD_EXITED) := .setProc rfl
      exact hrec.trans (zombify_sameSets hz)
  | wait id nohang => exact wait_sameSets h
  | sigsuspend mask =>
    obtain rfl | ⟨_, _, _, _, rfl⟩ := sigsuspend_cases h
    · exact .refl t
    · exact .setProc rfl
  | setresugid mode rUid eUid sUid =>
    obtain rfl | ⟨_, _, _, rfl⟩ := setresugid_cases h
    · exact .refl t
    · exact .setProc rfl

structure SetsInv (s : State) : Prop where
  old : ∀ q, s.hasProcess q = true → q < s.nextUserPid
  apart : ∀ q, s.hasProcess q = true → Apart (s.proc q).dispositions

theorem SetsInv.same (h : SetsInv s) (hs : SameSets s t) : SetsInv t where
  old q hq := Nat.lt_of_lt_of_le (h.old q (hs.process q hq)) hs.nextPid
  apart q hq := by
    rw [hs.sets]
    exact h.apart q (hs.process q hq)

theorem SetsInv.makes (h : SetsInv s) (hm : Makes pid s t) (hnew : Apart (t.proc pid).dispositions) :
    SetsInv t where
  old q hq := by
    by_cases hne : q = pid
    · exact hne ▸ hm.nextPid
    · have := h.old q (hm.process q hne hq)
      have := hm.fresh
      have := hm.nextPid
      omega
  apart q hq := by
    by_cases hne : q = pid
    · exact hne ▸ hnew
    · rw [hm.sets q hne]
      exact h.apart q (hm.process q hne hq)

theorem adjusted_apart {sets : SigSet × SigSet} (h : Apart sets) (setName : ℕ) (orBits andBits : SigSet) :
    Apart (adjusted setName orBits andBits sets) := by
  simp only [adjusted]
  split
  · have hc := changedSets_apart h orBits andBits
    rw [Apart, changedSets_snd h] at hc
    exact hc
  · have hc := changedSets_apart (BitVec.and_comm _ _ ▸ h : sets.2 &&& sets.1 = 0) orBits andBits
    rw [Apart, changedSets_snd (BitVec.and_comm _ _ ▸ h), BitVec.and_comm] at hc
    exact hc
  · exact h

theorem Step.adjusts_apart {sets : SigSet × SigSet} (h : Apart sets) (q : ℕ) (step : Step) :
    Apart (step.adjusts q sets) := by
  simp only [Step.adjusts]
  split
  · split
    · exact adjusted_apart h _ _ _
    · exact h
  · exact h

theorem exec_sets {step : Step} (h : SetsInv s) (hs : exec s step = some t) :
    SetsInv t ∧ ∀ q, s.hasProcess q = true →
      (t.proc q).dispositions = step.adjusts q (s.proc q).dispositions := by
  have hold : SameSets s t → (∀ q sets, step.adjusts q sets = sets) → SetsInv t ∧
      ∀ q, s.hasProcess q = true → (t.proc q).dispositions = step.adjusts q (s.proc q).dispositions := by
    intro hsame hid
    refine ⟨h.same hsame, fun q _ => ?_⟩
    rw [hid, hsame.sets]
  have hnew : ∀ pid, Makes pid s t → Apart (t.proc pid).dispositions → (∀ q sets, step.adjusts q sets = sets) →
      SetsInv t ∧
      ∀ q, s.hasProcess q = true → (t.proc q).dispositions = step.adjusts q (s.proc q).dispositions := by
    intro pid hmakes hap hid
    refine ⟨h.makes hmakes hap, fun q hq => ?_⟩
    have hne : q ≠ pid := by
      have := h.old q hq
      have := hmakes.fresh
      omega
    rw [hid, hmakes.sets q hne]
  cases step with
  | confirm =>
    simp only [exec] at hs
    split at hs
    · exact hold (syncConfirm_sameSets hs) fun _ _ => rfl
    · cases hs
  | dropConfirm =>
    simp only [exec, Option.some.injEq] at hs
    subst hs
    exact hold ⟨fun _ => rfl, fun _ h => h, Nat.le_refl _⟩ fun _ _ => rfl
  | call sender call =>
    obtain ⟨⟨u, r⟩, hu, hut⟩ := Option.map_eq_some_iff.mp hs
    cases hut
    simp only [respond] at hu
    split at hu
    · cases hu
    split at hu
    · cases hu
    cases call with
    | sigset n orBits andBits ok =>
      have hp : s.hasProcess (pidof sender) = true := by
        by_contra hno
        simp [State.handle, State.sigset, hno] at hu
      obtain ⟨hsets, hproc, hnext⟩ := sigset_sets (h.apart _ hp) hu
      refine ⟨⟨fun q hq => ?_, fun q hq => ?_⟩, fun q _ => hsets q⟩
      · exact Nat.lt_of_lt_of_le (h.old q (hproc q hq)) hnext
      · rw [hsets]
        exact Step.adjusts_apart (h.apart q (hproc q hq)) q _
    | spawn load mem =>
      obtain ⟨hsame, -⟩ | ⟨pid, hmakes, hsets, -⟩ := spawn_makes hu
      · exact hold hsame fun _ _ => rfl
      · refine hnew pid hmakes ?_ fun _ _ => rfl
        rw [hsets]
        decide
    | fork env =>
      obtain ⟨hsame, -⟩ | ⟨hp, newpid, hmakes, -, hsets⟩ := fork_makes h.old hu
      · exact hold hsame fun _ _ => rfl
      · refine hnew newpid hmakes ?_ fun _ _ => rfl
        obtain hsets | ⟨hsets, -⟩ := hsets
        · rw [hsets]
          exact h.apart _ hp
        · rw [hsets]
          decide
    | _ => exact hold (handle_sameSets rfl hu) fun _ _ => rfl

/-- **Ignored and default signals**: in every reachable state no signal is in both sets of a
    process, and the sets change as `adjusted` says and in no other way. -/
theorem dispositions_disjoint {s₀ s : State} {steps : List Step} (hboot : Booted s₀)
    (h : Run exec free s₀ steps s) : Dispositions s := by
  have hstart : SetsInv s₀ := by
    refine ⟨fun q hq => ?_, fun q hq => ?_⟩ <;>
    · rw [hboot.process] at hq
      cases hq
  have hinv : SetsInv s := h.invariant (fun _ _ _ _ hs hi => (exec_sets hi hs).1) hstart
  exact
    { apart := hinv.apart
      sigSend := fun pid _ hp hd => sigBit_apart (hinv.apart pid hp) hd
      sigset := fun pid _ _ hp =>
        ⟨changedSets_apart (hinv.apart pid hp) _ _,
          changedSets_apart (BitVec.and_comm _ _ ▸ hinv.apart pid hp) _ _⟩
      step := fun _ _ hs => (exec_sets hinv hs).2 }

/-- Init ignores one signal, handles another, and both sets are as they should be. -/
theorem dispositions_disjoint_init :
    Booted bootState ∧ ∃ s, Run exec free bootState
      [.call rootTid (.spawn (.loaded ⟨0x100000, 19⟩) .blank),
        .call initTid (.sigset 0 (sigBit SIGTERM) (~~~0) true),
        .call initTid (.sigset 1 0 (~~~sigBit SIGCHLD) true)] s ∧
      (s.proc 1).dispositions = (sigBit SIGTERM, ~~~(sigBit SIGTERM ||| sigBit SIGCHLD)) ∧ Dispositions s := by
  obtain ⟨s, hs, he⟩ := Run.exists_of_evalRun exec free bootState
    [.call rootTid (.spawn (.loaded ⟨0x100000, 19⟩) .blank),
      .call initTid (.sigset 0 (sigBit SIGTERM) (~~~0) true),
      .call initTid (.sigset 1 0 (~~~sigBit SIGCHLD) true)]
    (fun s => (s.proc 1).dispositions) (sigBit SIGTERM, ~~~(sigBit SIGTERM ||| sigBit SIGCHLD)) (by decide +kernel)
  exact ⟨bootState_booted, s, hs, he, dispositions_disjoint bootState_booted hs⟩

end Sneks.Root
