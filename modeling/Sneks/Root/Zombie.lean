import Sneks.Root.Calls
import Mathlib.Data.List.Count
import Mathlib.Data.List.Nodup

/-!
# Zombies and the lists they are on

The invariant that ties root's process table to the log of deaths, the frame
relations for calls in which nobody dies, and what `zombify` does to the
invariant.
-/

namespace Sneks.Root

/-- Is this the exit broadcast of process number `inc`? -/
def Event.isExitOf (inc : ℕ) : Event → Bool
  | .exitBroadcast i .. => i = inc
  | .zombify _ => false

def Event.inc : Event → ℕ
  | .zombify i | .exitBroadcast i .. => i

namespace State

variable (s : State)

def Zombie (pid : ℕ) : Prop := s.hasProcess pid = true ∧ .zombify (s.proc pid).inc ∈ s.log

instance (pid : ℕ) : Decidable (s.Zombie pid) := inferInstanceAs (Decidable (_ ∧ _))

end State

/-- Each process dies at most once, its death is announced once, zombies and no others
    are on just one process's `dead_list`, and what a zombie's record says is what the
    announcement said. -/
structure DeathOnce (s : State) : Prop where
  zombified : ∀ inc, s.log.count (.zombify inc) ≤ 1
  announced : ∀ inc, s.log.countP (·.isExitOf inc) = s.log.count (.zombify inc)
  listed : ∀ pid, s.Zombie pid → ∃ parent, s.hasProcess parent = true ∧
    (s.proc parent).deadList.count pid = 1 ∧
    ∀ q, s.hasProcess q = true → pid ∈ (s.proc q).deadList → q = parent
  unlisted : ∀ q pid, s.hasProcess q = true → pid ∈ (s.proc q).deadList → s.Zombie pid
  record : ∀ pid, s.Zombie pid →
    .exitBroadcast (s.proc pid).inc pid (s.proc pid).signo (s.proc pid).status (s.proc pid).code ∈ s.log

-- The invariant

structure Core where
  ppid : ℕ
  signo : ℤ
  status : ℤ
  code : ℤ
  deadList : List ℕ
  inc : ℕ

def Process.core (p : Process) : Core := ⟨p.ppid, p.signo, p.status, p.code, p.deadList, p.inc⟩

structure Inv (s : State) : Prop where
  allocated : ∀ pid, s.hasProcess pid = true → s.allocated pid = true
  inc_lt : ∀ pid, s.hasProcess pid = true → (s.proc pid).inc < s.nextInc
  inc_inj : ∀ p q, s.hasProcess p = true → s.hasProcess q = true →
    (s.proc p).inc = (s.proc q).inc → p = q
  log_lt : ∀ e ∈ s.log, e.inc < s.nextInc
  zombified : ∀ inc, s.log.count (.zombify inc) ≤ 1
  announced : ∀ inc, s.log.countP (·.isExitOf inc) = s.log.count (.zombify inc)
  listed : ∀ pid, s.Zombie pid →
    s.hasProcess (s.proc pid).ppid = true ∧ pid ∈ (s.proc (s.proc pid).ppid).deadList
  members : ∀ q pid, s.hasProcess q = true → pid ∈ (s.proc q).deadList →
    s.Zombie pid ∧ (s.proc pid).ppid = q
  nodup : ∀ q, s.hasProcess q = true → (s.proc q).deadList.Nodup
  threads : ∀ pid, s.Zombie pid → (s.task pid).threads = []
  record : ∀ pid, s.Zombie pid →
    .exitBroadcast (s.proc pid).inc pid (s.proc pid).signo (s.proc pid).status (s.proc pid).code ∈ s.log
  confirm : ∀ c, s.confirm = some c →
    s.hasProcess c.self = true ∧ c.dead ∈ (s.proc c.self).deadList

variable {s t u : State} {pid parent : ℕ}

theorem Inv.deathOnce (h : Inv s) : DeathOnce s where
  zombified := h.zombified
  announced := h.announced
  listed pid hz := by
    obtain ⟨hp, hm⟩ := h.listed pid hz
    refine ⟨_, hp, List.count_eq_one_of_mem (h.nodup _ hp) hm, fun q hq hmem => ?_⟩
    exact (h.members q pid hq hmem).2.symm
  unlisted q pid hq hm := (h.members q pid hq hm).1
  record := h.record

-- Calls in which nobody dies

/-- `t` differs from `s` in nothing that the invariant reads; a process may gain
    threads only if it had one. -/
structure Calm (s t : State) : Prop where
  process : ∀ q, t.hasProcess q = s.hasProcess q
  core : ∀ q, (t.proc q).core = (s.proc q).core
  allocated : t.allocated = s.allocated
  log : t.log = s.log
  confirm : t.confirm = s.confirm
  nextInc : t.nextInc = s.nextInc
  threads : ∀ q, (s.task q).threads = [] → (t.task q).threads = []

structure SameWaits (s t : State) : Prop where
  waitTid : ∀ q, (t.proc q).waitTid = (s.proc q).waitTid
  waitAny : ∀ q, (t.proc q).waitAny = (s.proc q).waitAny
  waitanyHash : t.waitanyHash = s.waitanyHash

/-- Moreover nobody's wait is changed, and no signal comes to its default action that
    was not there before. -/
structure Still (s t : State) : Prop extends Calm s t, SameWaits s t where
  quiet : ∀ q sig, (t.proc q).disposition sig = .default → (s.proc q).disposition sig = .default

theorem Calm.refl (s : State) : Calm s s :=
  ⟨fun _ => rfl, fun _ => rfl, rfl, rfl, rfl, rfl, fun _ h => h⟩

theorem Calm.trans (h : Calm s t) (h' : Calm t u) : Calm s u where
  process q := (h'.process q).trans (h.process q)
  core q := (h'.core q).trans (h.core q)
  allocated := h'.allocated.trans h.allocated
  log := h'.log.trans h.log
  confirm := h'.confirm.trans h.confirm
  nextInc := h'.nextInc.trans h.nextInc
  threads q hq := h'.threads q (h.threads q hq)

theorem SameWaits.refl (s : State) : SameWaits s s := ⟨fun _ => rfl, fun _ => rfl, rfl⟩

theorem SameWaits.trans (h : SameWaits s t) (h' : SameWaits t u) : SameWaits s u where
  waitTid q := (h'.waitTid q).trans (h.waitTid q)
  waitAny q := (h'.waitAny q).trans (h.waitAny q)
  waitanyHash := h'.waitanyHash.trans h.waitanyHash

theorem SameWaits.waiter_eq (h : SameWaits s t) (pid parent : ℕ) :
    t.waiter pid parent = s.waiter pid parent := by
  simp only [State.waiter, h.waitTid, h.waitAny, h.waitanyHash]

theorem Still.refl (s : State) : Still s s := ⟨.refl s, .refl s, fun _ _ h => h⟩

theorem Still.trans (h : Still s t) (h' : Still t u) : Still s u where
  toCalm := h.toCalm.trans h'.toCalm
  toSameWaits := h.toSameWaits.trans h'.toSameWaits
  quiet q sig hq := h.quiet q sig (h'.quiet q sig hq)

theorem Calm.setProc (pid : ℕ) (p : Process) (hp : p.core = (s.proc pid).core) : Calm s (s.setProc pid p) where
  process _ := rfl
  core := setProc_field Process.core hp
  allocated := rfl
  log := rfl
  confirm := rfl
  nextInc := rfl
  threads _ h := h

theorem Still.setProc {p : Process} (hp : p.core = (s.proc pid).core)
    (hw : p.waitTid = (s.proc pid).waitTid) (ha : p.waitAny = (s.proc pid).waitAny)
    (hd : ∀ sig, p.disposition sig = .default → (s.proc pid).disposition sig = .default) :
    Still s (s.setProc pid p) := by
  refine ⟨.setProc _ _ hp, ⟨setProc_field _ hw, setProc_field _ ha, rfl⟩, fun q sig hq => ?_⟩
  by_cases hqp : q = pid
  · subst hqp
    simp only [State.setProc, Function.update_self] at hq
    exact hd sig hq
  · simpa only [State.setProc, Function.update_of_ne hqp] using hq

theorem SameButThreads.still (h : SameButThreads pid s t)
    (hth : (s.task pid).threads = [] → (t.task pid).threads = []) : Still s t where
  process := h.hasProcess_eq
  core q := by rw [h.proc_eq]
  allocated := h.allocated_eq
  log := h.log_eq
  confirm := h.confirm_eq
  nextInc := h.nextInc_eq
  threads q hq := by
    by_cases hp : q = pid
    · subst hp
      exact hth hq
    · rw [h.others q hp, hq]
  waitTid q := by rw [h.proc_eq]
  waitAny q := by rw [h.proc_eq]
  waitanyHash := by rw [h.eq]
  quiet q sig hq := by rwa [h.proc_eq] at hq

theorem Calm.zombie (h : Calm s t) (q : ℕ) : t.Zombie q ↔ s.Zombie q := by
  have hinc : (t.proc q).inc = (s.proc q).inc := congrArg Core.inc (h.core q)
  simp only [State.Zombie, h.process, h.log, hinc]

theorem Inv.calm (h : Inv s) (hc : Calm s t) : Inv t := by
  have hinc : ∀ q, (t.proc q).inc = (s.proc q).inc := fun q => congrArg Core.inc (hc.core q)
  have hdead : ∀ q, (t.proc q).deadList = (s.proc q).deadList :=
    fun q => congrArg Core.deadList (hc.core q)
  have hppid : ∀ q, (t.proc q).ppid = (s.proc q).ppid := fun q => congrArg Core.ppid (hc.core q)
  have hsigno : ∀ q, (t.proc q).signo = (s.proc q).signo := fun q => congrArg Core.signo (hc.core q)
  have hstatus : ∀ q, (t.proc q).status = (s.proc q).status :=
    fun q => congrArg Core.status (hc.core q)
  have hcode : ∀ q, (t.proc q).code = (s.proc q).code := fun q => congrArg Core.code (hc.core q)
  constructor
  case allocated => simpa only [hc.process, hc.allocated] using h.allocated
  case inc_lt => simpa only [hc.process, hinc, hc.nextInc] using h.inc_lt
  case inc_inj => simpa only [hc.process, hinc] using h.inc_inj
  case log_lt => simpa only [hc.log, hc.nextInc] using h.log_lt
  case zombified => simpa only [hc.log] using h.zombified
  case announced => simpa only [hc.log] using h.announced
  case listed => simpa only [hc.zombie, hc.process, hppid, hdead] using h.listed
  case members => simpa only [hc.zombie, hc.process, hppid, hdead] using h.members
  case nodup => simpa only [hc.process, hdead] using h.nodup
  case threads =>
    intro q hq
    exact hc.threads q (h.threads q ((hc.zombie q).mp hq))
  case record => simpa only [hc.zombie, hinc, hsigno, hstatus, hcode, hc.log] using h.record
  case confirm => simpa only [hc.confirm, hc.process, hdead] using h.confirm

-- Signals

theorem disposition_default_iff (p : Process) (sig : ℕ) :
    p.disposition sig = .default ↔ p.maskSet &&& sigBit sig = 0 ∧
      ~~~p.pendingSet &&& sigBit sig ≠ 0 ∧ p.dflSet &&& sigBit sig ≠ 0 := by
  simp only [Process.disposition]
  split_ifs <;> simp_all

theorem not_or_and_eq_zero {a b c : SigSet} (h : ~~~a &&& c = 0) : ~~~(a ||| b) &&& c = 0 := by
  rw [BitVec.not_or, BitVec.and_assoc, BitVec.and_comm (~~~b), ← BitVec.and_assoc, h]
  exact BitVec.zero_and

theorem addPending_still (sig : ℕ) : Still s (s.addPending pid sig) := by
  refine .setProc rfl rfl rfl fun sig' hd => ?_
  rw [disposition_default_iff] at hd ⊢
  exact ⟨hd.1, fun hz => hd.2.1 (not_or_and_eq_zero hz), hd.2.2⟩

theorem sigDeliver_still {sig : ℕ} {self : Bool} (h : s.sigDeliver pid sig self = some t) :
    Still s t := by
  obtain rfl | ⟨hth, hnone | ⟨u, tid, utcb, hu, rfl⟩⟩ := sigDeliver_cases h
  · exact addPending_still sig
  · exact (allocateThread_frame hnone).still fun hnil => absurd hnil hth
  · have hstill : Still s u := (allocateThread_frame hu).still fun hnil => absurd hnil hth
    refine .trans ?_ (addPending_still sig)
    exact hstill.trans (.setProc rfl rfl rfl fun _ hd => hd)

/-- What `sig_send` does before the call of `zombify`: nothing deadly, or the exit
    record of a process that takes the default action of a deadly signal. -/
theorem sigAct_spec {sig : ℕ} {self dies : Bool} (h : s.sigAct pid sig self = some (t, dies)) :
    (dies = false ∧ Still s t) ∨
    (dies = true ∧ deadly sig = true ∧ (s.proc pid).disposition sig = .default ∧
      t = s.setRecord pid sig 0 CLD_KILLED) := by
  refine (sigAct_cases h).imp (And.imp_right ?_) id
  rintro (rfl | ⟨-, rfl | hdeliver⟩)
  · exact .refl t
  · exact addPending_still sig
  · exact sigDeliver_still hdeliver

theorem sigAct_sigchld {self dies : Bool} (h : s.sigAct pid SIGCHLD self = some (t, dies)) :
    Still s t := by
  rcases sigAct_spec h with ⟨-, hs⟩ | ⟨-, hd, -⟩
  · exact hs
  · exact absurd hd (by decide)

theorem sigRemoveHelper_still (h : s.sigRemoveHelper pid = some t) : Still s t := by
  obtain ⟨tid, u, v, -, hu, hv, rfl⟩ := sigRemoveHelper_cases h
  obtain ⟨hframe, hthreads⟩ := freeThread_frame hu
  obtain ⟨hframe', htask⟩ := freeThreadno_frame pid hv
  have hnil : (s.task pid).threads = [] → (v.task pid).threads = [] := by
    intro hn
    rw [htask, hthreads, hn]
    rfl
  exact ((hframe.trans hframe').still hnil).trans (.setProc rfl rfl rfl fun _ hd => hd)

-- Death

/-- What `zombify` has done to `s` by the time `pid` is reaped or listed: the log has
    grown by `events`, `pid` has a parent that exists and no threads left. -/
structure LaidOut (pid : ℕ) (events : List Event) (s t : State) : Prop where
  process : ∀ q, t.hasProcess q = s.hasProcess q
  core : ∀ q, q ≠ pid → (t.proc q).core = (s.proc q).core
  self : (t.proc pid).core = { (s.proc pid).core with ppid := s.parentOf pid }
  parent : s.hasProcess (s.parentOf pid) = true
  allocated : t.allocated = s.allocated
  log : t.log = s.log ++ events
  confirm : t.confirm = s.confirm
  nextInc : t.nextInc = s.nextInc
  threads : ∀ q, (s.task q).threads = [] → (t.task q).threads = []
  gone : (t.task pid).threads = []
  quiet : ∀ q sig, (t.proc q).disposition sig = .default → (s.proc q).disposition sig = .default

theorem LaidOut.calm {events : List Event} (h : LaidOut pid events s t) (hc : Calm t u)
    (hq : ∀ q sig, (u.proc q).disposition sig = .default → (t.proc q).disposition sig = .default) :
    LaidOut pid events s u where
  process q := (hc.process q).trans (h.process q)
  core q hne := (hc.core q).trans (h.core q hne)
  self := (hc.core pid).trans h.self
  parent := h.parent
  allocated := hc.allocated.trans h.allocated
  log := hc.log.trans h.log
  confirm := hc.confirm.trans h.confirm
  nextInc := hc.nextInc.trans h.nextInc
  threads q hn := hc.threads q (h.threads q hn)
  gone := hc.threads pid h.gone
  quiet q sig hd := h.quiet q sig (hq q sig hd)

theorem LaidOut.of_still {events : List Event} (hs : Still s t) (h : LaidOut pid events t u) :
    LaidOut pid events s u := by
  have hcore := hs.core pid
  have hpar : t.parentOf pid = s.parentOf pid := by
    have hppid : (t.proc pid).ppid = (s.proc pid).ppid := congrArg Core.ppid hcore
    simp only [State.parentOf, hppid, hs.process]
  exact
    { process := fun q => (h.process q).trans (hs.process q)
      core := fun q hne => (h.core q hne).trans (hs.core q)
      self := by rw [h.self, hcore, hpar]
      parent := by rw [← hpar, ← hs.process, h.parent]
      allocated := h.allocated.trans hs.allocated
      log := by rw [h.log, hs.log]
      confirm := h.confirm.trans hs.confirm
      nextInc := h.nextInc.trans hs.nextInc
      threads := fun q hn => h.threads q (hs.threads q hn)
      gone := h.gone
      quiet := fun q sig hd => hs.quiet q sig (h.quiet q sig hd) }

theorem reparent_spec (h : s.reparent pid = some t) (hgone : (s.task pid).threads = []) :
    LaidOut pid [] s t ∧ SameWaits s t := by
  obtain ⟨hp, rfl⟩ | ⟨hp, hone, rfl⟩ := reparent_cases h
  · have hpar : t.parentOf pid = (t.proc pid).ppid := by simp [State.parentOf, hp]
    refine ⟨?_, .refl t⟩
    exact ⟨fun _ => rfl, fun _ _ => rfl, by rw [hpar]; rfl, by rw [hpar, hp], rfl,
      (List.append_nil _).symm, rfl, rfl, fun _ hn => hn, hgone, fun _ _ hd => hd⟩
  · have hpar : s.parentOf pid = 1 := by simp [State.parentOf, hp]
    refine ⟨⟨fun _ => rfl, fun q hq => ?_, ?_, by rw [hpar, hone], rfl,
      (List.append_nil _).symm, rfl, rfl, fun _ hn => hn, hgone, fun q sig hd => ?_⟩,
      ⟨setProc_field (·.waitTid) rfl, setProc_field (·.waitAny) rfl, rfl⟩⟩
    · simp only [State.setProc, Function.update_of_ne hq]
    · simp only [State.setProc, Function.update_self, hpar]
      rfl
    · exact (setProc_field (·.disposition sig) (by rfl) q).symm.trans hd

theorem layOut_spec (h : s.layOut pid = some t) :
    LaidOut pid [.zombify (s.proc pid).inc] s t ∧ SameWaits s t := by
  simp only [State.layOut, Option.bind_eq_bind, Option.bind_eq_some_iff] at h
  obtain ⟨u, hu, v, hv, w, hw, ⟨x, dies⟩, hx, h⟩ := h
  cases h
  have hhelper : Still (s.logZombify pid) u := by
    obtain ⟨-, rfl⟩ | hremove := dropHelper_cases hu
    · exact .refl _
    · exact sigRemoveHelper_still hremove
  obtain ⟨hframe, hgone⟩ := taskDtor_frame hv
  have hdtor : Still (s.logZombify pid) v := hhelper.trans (hframe.still fun _ => hgone)
  obtain ⟨hpar, hwaits⟩ := reparent_spec hw hgone
  have hchld := sigAct_sigchld hx
  have hlaid := (hpar.of_still hdtor).calm hchld.toCalm hchld.quiet
  have hsame := hdtor.toSameWaits.trans (hwaits.trans hchld.toSameWaits)
  refine ⟨?_, hsame.waitTid, hsame.waitAny, hsame.waitanyHash⟩
  have hlog : x.log = s.log ++ [.zombify (s.proc pid).inc] := by
    rw [hlaid.log, List.append_nil]
    rfl
  exact ⟨hlaid.process, hlaid.core, hlaid.self, hlaid.parent, hlaid.allocated, hlog,
    hlaid.confirm, hlaid.nextInc, hlaid.threads, hlaid.gone, hlaid.quiet⟩

theorem takeWaiter_calm (pid parent : ℕ) : Calm s (s.takeWaiter pid parent) ∧
    ∀ q sig, ((s.takeWaiter pid parent).proc q).disposition sig = (s.proc q).disposition sig := by
  simp only [State.takeWaiter]
  split
  · split
    · exact ⟨⟨fun _ => rfl, fun _ => rfl, rfl, rfl, rfl, rfl, fun _ h => h⟩, fun _ _ => rfl⟩
    · have hset : Calm { s with waitanyHash := s.otherWaiters parent } _ :=
        Calm.setProc parent { s.proc parent with waitAny := false } rfl
      refine ⟨⟨hset.process, hset.core, hset.allocated, hset.log, hset.confirm, hset.nextInc,
        hset.threads⟩, fun q sig => ?_⟩
      exact setProc_field (s := { s with waitanyHash := s.otherWaiters parent })
        (·.disposition sig) (by rfl) q
  · exact ⟨.refl s, fun _ _ => rfl⟩

theorem zombify_spec {replyOk : Bool} (h : s.zombify pid replyOk = some t) :
    ∃ u, LaidOut pid [.zombify (s.proc pid).inc, .exitBroadcast (s.proc pid).inc pid
        (s.proc pid).signo (s.proc pid).status (s.proc pid).code] s u ∧
      t = u.bury pid (s.parentOf pid) (s.waiter pid (s.parentOf pid)) replyOk := by
  simp only [State.zombify, Option.bind_eq_bind, Option.bind_eq_some_iff] at h
  obtain ⟨v, hv, h⟩ := h
  cases h
  obtain ⟨hlaid, hwaits⟩ := layOut_spec hv
  have hppid : (v.proc pid).ppid = s.parentOf pid := congrArg Core.ppid hlaid.self
  obtain ⟨hcalm, hquiet⟩ := takeWaiter_calm (s := v) pid (s.parentOf pid)
  have htaken := hlaid.calm hcalm fun q sig hd => by rwa [hquiet] at hd
  have hself := htaken.self
  refine ⟨_, ?_, by rw [hppid, hwaits.waiter_eq]⟩
  refine ⟨htaken.process, htaken.core, htaken.self, htaken.parent, htaken.allocated, ?_,
    htaken.confirm, htaken.nextInc, htaken.threads, htaken.gone, htaken.quiet⟩
  have hinc : ((v.takeWaiter pid (s.parentOf pid)).proc pid).inc = (s.proc pid).inc :=
    congrArg Core.inc hself
  have hsigno : ((v.takeWaiter pid (s.parentOf pid)).proc pid).signo = (s.proc pid).signo :=
    congrArg Core.signo hself
  have hstatus : ((v.takeWaiter pid (s.parentOf pid)).proc pid).status = (s.proc pid).status :=
    congrArg Core.status hself
  have hcode : ((v.takeWaiter pid (s.parentOf pid)).proc pid).code = (s.proc pid).code :=
    congrArg Core.code hself
  simp only [State.broadcastExit, htaken.log, hinc, hsigno, hstatus, hcode, List.append_assoc,
    List.cons_append, List.nil_append]

/-- The invariant while `pid` is dead but neither reaped nor listed. -/
structure Unburied (pid : ℕ) (s : State) : Prop where
  allocated : ∀ q, s.hasProcess q = true → s.allocated q = true
  inc_lt : ∀ q, s.hasProcess q = true → (s.proc q).inc < s.nextInc
  inc_inj : ∀ p q, s.hasProcess p = true → s.hasProcess q = true →
    (s.proc p).inc = (s.proc q).inc → p = q
  log_lt : ∀ e ∈ s.log, e.inc < s.nextInc
  zombified : ∀ inc, s.log.count (.zombify inc) ≤ 1
  announced : ∀ inc, s.log.countP (·.isExitOf inc) = s.log.count (.zombify inc)
  zombie : s.Zombie pid
  parent : s.hasProcess (s.proc pid).ppid = true
  listed : ∀ q, q ≠ pid → s.Zombie q →
    s.hasProcess (s.proc q).ppid = true ∧ q ∈ (s.proc (s.proc q).ppid).deadList
  members : ∀ q p, s.hasProcess q = true → p ∈ (s.proc q).deadList →
    p ≠ pid ∧ s.Zombie p ∧ (s.proc p).ppid = q
  nodup : ∀ q, s.hasProcess q = true → (s.proc q).deadList.Nodup
  threads : ∀ q, s.Zombie q → (s.task q).threads = []
  record : ∀ q, s.Zombie q →
    .exitBroadcast (s.proc q).inc q (s.proc q).signo (s.proc q).status (s.proc q).code ∈ s.log
  confirm : ∀ c, s.confirm = some c →
    s.hasProcess c.self = true ∧ c.dead ∈ (s.proc c.self).deadList

theorem Inv.unburied (h : Inv s) (hp : s.hasProcess pid = true) (halive : ¬ s.Zombie pid)
    (hu : LaidOut pid [.zombify (s.proc pid).inc, .exitBroadcast (s.proc pid).inc pid
      (s.proc pid).signo (s.proc pid).status (s.proc pid).code] s u) : Unburied pid u := by
  have hself := hu.self
  have hinc : ∀ q, (u.proc q).inc = (s.proc q).inc := by
    intro q
    by_cases hq : q = pid
    · subst hq
      exact congrArg Core.inc hself
    · exact congrArg Core.inc (hu.core q hq)
  have hdead : ∀ q, (u.proc q).deadList = (s.proc q).deadList := by
    intro q
    by_cases hq : q = pid
    · subst hq
      exact congrArg Core.deadList hself
    · exact congrArg Core.deadList (hu.core q hq)
  have hnew : .zombify (s.proc pid).inc ∉ s.log := fun hm => halive ⟨hp, hm⟩
  have hz : ∀ q, u.Zombie q ↔ q = pid ∨ s.Zombie q := by
    intro q
    simp only [State.Zombie, hu.process, hinc, hu.log, List.mem_append, List.mem_cons,
      List.not_mem_nil, or_false, Event.zombify.injEq, reduceCtorEq]
    constructor
    · rintro ⟨hq, hm | he⟩
      · exact .inr ⟨hq, hm⟩
      · exact .inl (h.inc_inj q pid hq hp he)
    · rintro (rfl | ⟨hq, hm⟩)
      · exact ⟨hp, .inr rfl⟩
      · exact ⟨hq, .inl hm⟩
  constructor
  case allocated => simpa only [hu.process, hu.allocated] using h.allocated
  case inc_lt => simpa only [hu.process, hinc, hu.nextInc] using h.inc_lt
  case inc_inj => simpa only [hu.process, hinc] using h.inc_inj
  case log_lt =>
    intro e he
    rw [hu.log, List.mem_append] at he
    rw [hu.nextInc]
    rcases he with he | he
    · exact h.log_lt e he
    · simp only [List.mem_cons, List.not_mem_nil, or_false] at he
      rcases he with rfl | rfl <;> exact h.inc_lt pid hp
  case zombified =>
    intro i
    rw [hu.log, List.count_append]
    by_cases hi : i = (s.proc pid).inc
    · subst hi
      rw [List.count_eq_zero_of_not_mem hnew]
      simp
    · have hz := h.zombified i
      have he : ((.zombify (s.proc pid).inc : Event) == .zombify i) = false := by
        simpa using Ne.symm hi
      simpa [List.count_cons, he] using hz
  case announced =>
    intro i
    rw [hu.log, List.countP_append, List.count_append, h.announced]
    by_cases hi : (s.proc pid).inc = i
    · simp [Event.isExitOf, hi]
    · simp [Event.isExitOf, hi]
  case zombie => exact (hz pid).mpr (.inl rfl)
  case parent =>
    have hppid : (u.proc pid).ppid = s.parentOf pid := congrArg Core.ppid hself
    rw [hppid, hu.process, hu.parent]
  case listed =>
    intro q hq hzq
    have hzq := ((hz q).mp hzq).resolve_left hq
    have hppid : (u.proc q).ppid = (s.proc q).ppid := congrArg Core.ppid (hu.core q hq)
    simpa only [hppid, hu.process, hdead] using h.listed q hzq
  case members =>
    intro q p hq hm
    rw [hu.process] at hq
    rw [hdead] at hm
    obtain ⟨hzp, hpar⟩ := h.members q p hq hm
    have hne : p ≠ pid := by
      rintro rfl
      exact halive hzp
    have hppid : (u.proc p).ppid = (s.proc p).ppid := congrArg Core.ppid (hu.core p hne)
    exact ⟨hne, (hz p).mpr (.inr hzp), hppid.trans hpar⟩
  case nodup => simpa only [hu.process, hdead] using h.nodup
  case threads =>
    intro q hzq
    rcases (hz q).mp hzq with rfl | hzq
    · exact hu.gone
    · exact hu.threads q (h.threads q hzq)
  case record =>
    intro q hzq
    rw [hu.log, List.mem_append]
    by_cases hq : q = pid
    · subst hq
      have hsigno : (u.proc q).signo = (s.proc q).signo := congrArg Core.signo hself
      have hstatus : (u.proc q).status = (s.proc q).status := congrArg Core.status hself
      have hcode : (u.proc q).code = (s.proc q).code := congrArg Core.code hself
      simp [hinc, hsigno, hstatus, hcode]
    · have hc := hu.core q hq
      have hsigno : (u.proc q).signo = (s.proc q).signo := congrArg Core.signo hc
      have hstatus : (u.proc q).status = (s.proc q).status := congrArg Core.status hc
      have hcode : (u.proc q).code = (s.proc q).code := congrArg Core.code hc
      rw [hinc, hsigno, hstatus, hcode]
      exact .inl (h.record q (((hz q).mp hzq).resolve_left hq))
  case confirm => simpa only [hu.confirm, hu.process, hdead] using h.confirm

theorem destroyProcess_hasProcess (q : ℕ) :
    (s.destroyProcess pid).hasProcess q = (s.hasProcess q && q ≠ pid) := by
  by_cases hq : q = pid
  · subst hq
    simp [State.destroyProcess, State.hasProcess, State.setTask]
  · simp [State.destroyProcess, State.hasProcess, State.setTask, hq]

theorem Unburied.reap (h : Unburied pid s) (hempty : (s.proc pid).deadList = []) :
    Inv (s.destroyProcess pid) := by
  have hproc : ∀ q, (s.destroyProcess pid).hasProcess q = true ↔ s.hasProcess q = true ∧ q ≠ pid := by
    intro q
    simp [destroyProcess_hasProcess]
  have hz : ∀ q, (s.destroyProcess pid).Zombie q ↔ s.Zombie q ∧ q ≠ pid := by
    intro q
    simp only [State.Zombie, hproc]
    exact ⟨fun ⟨⟨h1, h2⟩, h3⟩ => ⟨⟨h1, h3⟩, h2⟩, fun ⟨⟨h1, h3⟩, h2⟩ => ⟨⟨h1, h2⟩, h3⟩⟩
  -- whoever has a zombie on its list is not the one that is reaped
  have hkeep : ∀ q p, p ∈ (s.proc q).deadList → q ≠ pid := by
    rintro q p hm rfl
    rw [hempty] at hm
    cases hm
  constructor
  case allocated =>
    intro q hq
    rw [hproc] at hq
    simpa [State.destroyProcess, Function.update_of_ne hq.2] using h.allocated q hq.1
  case inc_lt => exact fun q hq => h.inc_lt q ((hproc q).mp hq).1
  case inc_inj => exact fun p q hp hq => h.inc_inj p q ((hproc p).mp hp).1 ((hproc q).mp hq).1
  case log_lt => exact h.log_lt
  case zombified => exact h.zombified
  case announced => exact h.announced
  case listed =>
    intro q hq
    rw [hz] at hq
    obtain ⟨hpar, hm⟩ := h.listed q hq.2 hq.1
    exact ⟨(hproc _).mpr ⟨hpar, hkeep _ _ hm⟩, hm⟩
  case members =>
    intro q p hq hm
    obtain ⟨hne, hzp, hpar⟩ := h.members q p ((hproc q).mp hq).1 hm
    exact ⟨(hz p).mpr ⟨hzp, hne⟩, hpar⟩
  case nodup => exact fun q hq => h.nodup q ((hproc q).mp hq).1
  case threads =>
    intro q hq
    rw [hz] at hq
    simpa [State.destroyProcess, State.setTask, Function.update_of_ne hq.2] using h.threads q hq.1
  case record => exact fun q hq => h.record q ((hz q).mp hq).1
  case confirm =>
    intro c hc
    obtain ⟨hself, hm⟩ := h.confirm c hc
    exact ⟨(hproc _).mpr ⟨hself, hkeep _ _ hm⟩, hm⟩

theorem Unburied.list (h : Unburied pid s) (hpar : (s.proc pid).ppid = parent) :
    Inv (s.addDead parent pid) := by
  have hinc : ∀ q, ((s.addDead parent pid).proc q).inc = (s.proc q).inc :=
    setProc_field (·.inc) rfl
  have hppid : ∀ q, ((s.addDead parent pid).proc q).ppid = (s.proc q).ppid :=
    setProc_field (·.ppid) rfl
  have hz : ∀ q, (s.addDead parent pid).Zombie q ↔ s.Zombie q := by
    intro q
    simp only [State.Zombie, hinc]
    rfl
  have hdead : ∀ q, ((s.addDead parent pid).proc q).deadList =
      if q = parent then (s.proc parent).deadList ++ [pid] else (s.proc q).deadList := by
    intro q
    split
    · next hq =>
      subst hq
      simp only [State.addDead, State.setProc, Function.update_self]
    · next hq => simp only [State.addDead, State.setProc, Function.update_of_ne hq]
  have hmono : ∀ q p, p ∈ (s.proc q).deadList → p ∈ ((s.addDead parent pid).proc q).deadList := by
    intro q p hm
    rw [hdead]
    split
    · next hq =>
      subst hq
      exact List.mem_append_left _ hm
    · exact hm
  have hin : pid ∈ ((s.addDead parent pid).proc parent).deadList := by simp [hdead]
  constructor
  case allocated => exact h.allocated
  case inc_lt =>
    intro q hq
    rw [hinc]
    exact h.inc_lt q hq
  case inc_inj =>
    intro p q hp hq
    rw [hinc, hinc]
    exact h.inc_inj p q hp hq
  case log_lt => exact h.log_lt
  case zombified => exact h.zombified
  case announced => exact h.announced
  case listed =>
    intro q hq
    rw [hz] at hq
    rw [hppid]
    by_cases hqp : q = pid
    · subst hqp
      exact ⟨h.parent, by rw [hpar]; exact hin⟩
    · obtain ⟨hp, hm⟩ := h.listed q hqp hq
      exact ⟨hp, hmono _ _ hm⟩
  case members =>
    intro q p hq hm
    rw [hz, hppid]
    rw [hdead] at hm
    split at hm
    · next hqp =>
      subst hqp
      rcases List.mem_append.mp hm with hm | hm
      · exact (h.members q p hq hm).2
      · rw [List.mem_singleton] at hm
        subst hm
        exact ⟨h.zombie, hpar⟩
    · exact (h.members q p hq hm).2
  case nodup =>
    intro q hq
    rw [hdead]
    split
    · next hqp =>
      subst hqp
      refine List.nodup_append.mpr ⟨h.nodup q hq, List.nodup_singleton _, ?_⟩
      rintro p hm p' hm' rfl
      rw [List.mem_singleton] at hm'
      exact (h.members q p hq hm).1 hm'
    · exact h.nodup q hq
  case threads => exact fun q hq => h.threads q ((hz q).mp hq)
  case record =>
    intro q hq
    have hsigno : ∀ q, ((s.addDead parent pid).proc q).signo = (s.proc q).signo :=
      setProc_field (·.signo) rfl
    have hstatus : ∀ q, ((s.addDead parent pid).proc q).status = (s.proc q).status :=
      setProc_field (·.status) rfl
    have hcode : ∀ q, ((s.addDead parent pid).proc q).code = (s.proc q).code :=
      setProc_field (·.code) rfl
    rw [hinc, hsigno, hstatus, hcode]
    exact h.record q ((hz q).mp hq)
  case confirm =>
    intro c hc
    obtain ⟨hself, hm⟩ := h.confirm c hc
    exact ⟨hself, hmono _ _ hm⟩

def State.reapsClean (s : State) (pid : ℕ) (replyOk : Bool) : Prop :=
  replyOk = true → (s.waiter pid (s.parentOf pid)).isSome = true → (s.proc pid).deadList = []

instance (s : State) (pid : ℕ) (replyOk : Bool) : Decidable (s.reapsClean pid replyOk) :=
  inferInstanceAs (Decidable (_ → _ → _))

theorem State.reapsClean_congr {replyOk : Bool} (hw : SameWaits s t)
    (hproc : ∀ q, t.hasProcess q = s.hasProcess q) (hppid : (t.proc pid).ppid = (s.proc pid).ppid)
    (hdead : (t.proc pid).deadList = (s.proc pid).deadList) (hs : s.reapsClean pid replyOk) :
    t.reapsClean pid replyOk := by
  have hpar : t.parentOf pid = s.parentOf pid := by simp only [State.parentOf, hppid, hproc]
  simpa only [State.reapsClean, hpar, hw.waiter_eq, hdead] using hs

theorem Inv.zombify {replyOk : Bool} (h : Inv s) (hp : s.hasProcess pid = true)
    (halive : ¬ s.Zombie pid) (hclean : s.reapsClean pid replyOk)
    (hs : s.zombify pid replyOk = some t) : Inv t := by
  obtain ⟨u, hu, rfl⟩ := zombify_spec hs
  have hun := h.unburied hp halive hu
  simp only [State.bury]
  split
  · next hw =>
    simp only [Bool.and_eq_true] at hw
    refine hun.reap ?_
    have hdead : (u.proc pid).deadList = (s.proc pid).deadList := congrArg Core.deadList hu.self
    rw [hdead]
    exact hclean hw.2 hw.1
  · exact hun.list (congrArg Core.ppid hu.self)

theorem zombify_quiet {replyOk : Bool} (h : s.zombify pid replyOk = some t) (q sig : ℕ)
    (hd : (t.proc q).disposition sig = .default) : (s.proc q).disposition sig = .default := by
  obtain ⟨u, hu, rfl⟩ := zombify_spec h
  refine hu.quiet q sig ?_
  simp only [State.bury] at hd
  split at hd
  · exact hd
  · exact (setProc_field (·.disposition sig) (by rfl) q).symm.trans hd

end Sneks.Root
