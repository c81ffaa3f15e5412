import Sneks.Root.Effects

/-!
# No wakeup is lost

A thread that waits for a child is told when the child dies, and the child is listed with the
dead only if nobody is told. So a registered waiter and a dead child that it would accept are
not there at the same time, but in three cases: the reply to a waiter fails and there are
others, the reply to the thread that waits for this child fails and its `wait_tid` stays, or a
process id is handed out anew while a thread of its former holder is still registered.
-/

namespace Sneks.Root
open Lib

/-- No thread of a process is registered as a waiter for any child, or for a child, that is on the
    process's list of the dead. -/
def NoLostWakeup (s : State) : Prop := ∀ parent dead tid, s.hasProcess parent = true →
  dead ∈ (s.proc parent).deadList → pidof tid = parent →
    tid ∉ s.waitanyHash ∧ (s.proc dead).waitTid ≠ some tid

def State.soleWaiter (s : State) (pid : ℕ) : Prop :=
  (s.proc pid).waitTid = none ∧ s.waitanyHash.countP (pidof · = s.parentOf pid) ≤ 1

/-- A process id of which a thread is registered comes with `PF_WAIT_ANY` set, if it is handed out. -/
def State.reusesFlagged (s : State) (mem : Process) : Prop :=
  ∀ r ∈ s.allocProcess mem maxPid, ∀ pid ∈ r.2, (∃ tid ∈ s.waitanyHash, pidof tid = pid) → mem.waitAny = true

instance (s : State) (pid : ℕ) : Decidable (s.soleWaiter pid) := inferInstanceAs (Decidable (_ ∧ _))

instance (s : State) (mem : Process) : Decidable (s.reusesFlagged mem) :=
  inferInstanceAs (Decidable (∀ r ∈ _, ∀ pid ∈ _, _ → _))

def failsAlone (s : State) : Step → Prop
  | .call _ (.spawn _ mem) => s.reusesFlagged mem
  | .call _ (.fork env) => s.reusesFlagged env.mem
  | .call sender call => ∀ d ∈ s.dies sender call, d.2 = false → s.soleWaiter d.1
  | .confirm | .dropConfirm => True

instance (s : State) : (step : Step) → Decidable (failsAlone s step)
  | .call _ (.spawn ..) | .call _ (.fork _) => inferInstanceAs (Decidable (s.reusesFlagged _))
  | .call _ .createThread | .call _ (.removeThread ..) | .call _ (.exec _) | .call _ (.kill ..) | .call _ (.exit ..)
  | .call _ (.wait ..) | .call _ (.sigset ..) | .call _ (.sigsuspend _) | .call _ (.setresugid ..) =>
    inferInstanceAs (Decidable (∀ d ∈ s.dies _ _, d.2 = false → s.soleWaiter d.1))
  | .confirm | .dropConfirm => instDecidableTrue

structure Awake (s : State) : Prop where
  flagged : ∀ tid ∈ s.waitanyHash, (s.proc (pidof tid)).waitAny = true
  any : ∀ tid ∈ s.waitanyHash, (s.proc (pidof tid)).deadList = []
  child : ∀ parent, s.hasProcess parent = true → ∀ dead ∈ (s.proc parent).deadList, (s.proc dead).waitTid = none

variable {s t u v : State} {pid : ℕ} {r : Result} {sender : Tid}

theorem Awake.noLostWakeup (h : Awake s) : NoLostWakeup s := by
  rintro _ dead tid hp hdead rfl
  constructor
  · intro htid
    rw [h.any tid htid] at hdead
    cases hdead
  · rw [h.child _ hp dead hdead]
    exact nofun

theorem Awake.congr (h : Awake s) (hw : SameWaits s t) (hdead : ∀ q, (t.proc q).deadList = (s.proc q).deadList)
    (hproc : ∀ q, t.hasProcess q = true → s.hasProcess q = true ∨ (s.proc q).deadList = []) : Awake t where
  flagged tid htid := by
    rw [hw.waitAny]
    exact h.flagged tid (hw.waitanyHash ▸ htid)
  any tid htid := by
    rw [hdead]
    exact h.any tid (hw.waitanyHash ▸ htid)
  child parent hp dead hm := by
    rw [hdead] at hm
    rw [hw.waitTid]
    rcases hproc parent hp with hp | hnil
    · exact h.child parent hp dead hm
    · rw [hnil] at hm
      cases hm

theorem Awake.tame (h : Awake s) (ht : Tame s t) : Awake t :=
  h.congr ht.toSameWaits ht.deadList fun q hq => .inl (ht.process q ▸ hq)

theorem takeWaiter_spec (s : State) (pid parent : ℕ) :
    (∀ tid ∈ (s.takeWaiter pid parent).waitanyHash, tid ∈ s.waitanyHash) ∧
    (∀ q, (∃ tid ∈ (s.takeWaiter pid parent).waitanyHash, pidof tid = q) →
      ((s.takeWaiter pid parent).proc q).waitAny = (s.proc q).waitAny) ∧
    ((s.proc pid).waitTid = none → (s.proc parent).waitAny = true →
      s.waitanyHash.countP (pidof · = parent) ≤ 1 →
      ∀ tid ∈ (s.takeWaiter pid parent).waitanyHash, pidof tid ≠ parent) := by
  have hothers : ∀ tid ∈ s.otherWaiters parent, tid ∈ s.waitanyHash := by
    intro tid htid
    simp only [State.otherWaiters] at htid
    split at htid
    · exact List.mem_of_mem_erase htid
    · exact htid
  simp only [State.takeWaiter]
  split
  · next htake =>
    refine ⟨fun tid htid => hothers tid ?_, fun q => ?_, fun hnone hany hone tid htid hpid => ?_⟩
    · split at htid <;> exact htid
    · rintro ⟨tid, htid, rfl⟩
      split at htid
      · next hmore => rw [if_pos hmore]
      · next hmore =>
        rw [if_neg hmore]
        -- the flag of `parent` is cleared, of which nobody is left
        have hne : pidof tid ≠ parent := by
          intro heq
          exact hmore (List.any_eq_true.mpr ⟨tid, htid, by simpa using heq⟩)
        simp only [State.setProc, Function.update_of_ne hne]
    · have hmem : tid ∈ s.otherWaiters parent := by
        split at htid <;> exact htid
      simp only [State.otherWaiters] at hmem
      split at hmem
      · next first hfirst =>
        have hfm := List.mem_of_find?_eq_some hfirst
        have hfp := List.find?_some hfirst
        have hcount := List.countP_erase (fun x => decide (pidof x = parent)) s.waitanyHash first
        rw [if_pos ⟨hfm, hfp⟩] at hcount
        have hpos : 0 < (s.waitanyHash.erase first).countP fun x => decide (pidof x = parent) :=
          List.countP_pos_iff.mpr ⟨tid, hmem, by simpa using hpid⟩
        omega
      · next hfirst =>
        have := List.find?_eq_none.mp hfirst tid hmem
        simp [hpid] at this
  · next htake =>
    refine ⟨fun _ htid => htid, fun _ _ => rfl, fun hnone hany => ?_⟩
    simp [hnone, hany] at htake

theorem Awake.died {replyOk : Bool} (h : Awake s) (hsole : replyOk = false → s.soleWaiter pid)
    (hd : Died pid ((s.waiter pid (s.parentOf pid)).isSome && replyOk) s t) : Awake t := by
  obtain ⟨hsub, hany, hlast⟩ := takeWaiter_spec s pid (s.parentOf pid)
  -- a process that is listed was not waited for, and nobody is left who waits for any child
  have hlisted : ((s.waiter pid (s.parentOf pid)).isSome && replyOk) = false →
      (s.proc pid).waitTid = none ∧ ∀ tid ∈ t.waitanyHash, pidof tid ≠ s.parentOf pid := by
    intro hreap
    have hnone : (s.proc pid).waitTid = none := by
      cases hr : replyOk with
      | false => exact (hsole hr).1
      | true =>
        rw [hr, Bool.and_true] at hreap
        cases hw : (s.proc pid).waitTid with
        | none => rfl
        | some tid => simp [State.waiter, hw] at hreap
    refine ⟨hnone, fun tid htid hpid => ?_⟩
    rw [hd.waitanyHash] at htid
    have hin := hsub tid htid
    have hflag : (s.proc (s.parentOf pid)).waitAny = true := hpid ▸ h.flagged tid hin
    refine hlast hnone hflag ?_ tid htid hpid
    cases hr : replyOk with
    | false => exact (hsole hr).2
    | true =>
      rw [hr, Bool.and_true] at hreap
      simp only [State.waiter, hnone, hflag, if_true, Option.isSome_eq_false_iff, Option.isNone_iff_eq_none,
        List.find?_eq_none] at hreap
      exact absurd (by simpa using hpid) (hreap tid hin)
  constructor
  case flagged =>
    intro tid htid
    rw [hd.waitanyHash] at htid
    rw [hd.waitAny, hany (pidof tid) ⟨tid, htid, rfl⟩]
    exact h.flagged tid (hsub tid htid)
  case any =>
    intro tid htid
    have hold := h.any tid (hsub tid (hd.waitanyHash ▸ htid))
    rw [hd.deadList]
    split
    · next hreap => exact absurd hreap.2 ((hlisted hreap.1).2 tid htid)
    · exact hold
  case child =>
    intro parent hp dead hm
    rw [hd.waitTid]
    have hp' : s.hasProcess parent = true := by
      rw [hd.process, Bool.and_eq_true] at hp
      exact hp.1
    rw [hd.deadList] at hm
    split at hm
    · next hreap =>
      rcases List.mem_append.mp hm with hm | hm
      · exact h.child parent hp' dead hm
      · rw [List.mem_singleton.mp hm]
        exact (hlisted hreap.1).1
    · exact h.child parent hp' dead hm

theorem Awake.syncConfirm (h : Awake s) (hs : s.syncConfirm = some t) : Awake t := by
  rcases syncConfirm_spec hs with ⟨-, rfl⟩ | ⟨c, -, -, rfl⟩
  · exact h
  have hdead : ∀ q, ((s.unlist c).proc q).deadList ⊆ (s.proc q).deadList := by
    intro q
    by_cases hq : q = c.self
    · subst hq
      simp only [State.unlist, State.setProc, Function.update_self]
      exact List.erase_subset
    · simp only [State.unlist, State.setProc, Function.update_of_ne hq]
      exact fun _ hx => hx
  have hwaits : SameWaits s ((s.unlist c).destroyProcess c.dead) :=
    ⟨unlist_field (·.waitTid) fun _ => rfl, unlist_field (·.waitAny) fun _ => rfl, rfl⟩
  constructor
  case flagged =>
    intro tid htid
    exact (hwaits.waitAny _).trans (h.flagged tid htid)
  case any =>
    intro tid htid
    exact List.eq_nil_of_subset_nil (h.any tid htid ▸ hdead (pidof tid))
  case child =>
    intro parent hp dead hm
    have hp' : (s.unlist c).hasProcess parent = true := by
      rw [destroyProcess_hasProcess, Bool.and_eq_true] at hp
      exact hp.1
    exact (hwaits.waitTid dead).trans (h.child parent hp' dead (hdead parent hm))

theorem Awake.allocProcess {mem : Process} {got : Option ℕ} (h : Awake s) (hinv : Inv s)
    (hok : s.reusesFlagged mem) (hs : s.allocProcess mem maxPid = some (t, got)) : Awake t := by
  have hflag := hok (t, got) hs
  rcases allocProcess_spec hs with ⟨next, -, rfl, rfl⟩ | ⟨next, -, pid, -, rfl, hfree, -, rfl⟩
  · exact h.congr ⟨fun _ => rfl, fun _ => rfl, rfl⟩ (fun _ => rfl) fun _ hq => .inl hq
  have hne : ∀ q, s.hasProcess q = true → q ≠ pid := by
    rintro q hq rfl
    rw [hinv.allocated q hq] at hfree
    cases hfree
  constructor
  case flagged =>
    intro tid htid
    change (Function.update s.proc pid (processCtor mem s.nextInc) (pidof tid)).waitAny = true
    by_cases hpid : pidof tid = pid
    · rw [hpid, Function.update_self]
      exact hflag pid rfl ⟨tid, htid, hpid⟩
    · rw [Function.update_of_ne hpid]
      exact h.flagged tid htid
  case any =>
    intro tid htid
    change (Function.update s.proc pid (processCtor mem s.nextInc) (pidof tid)).deadList = []
    by_cases hpid : pidof tid = pid
    · rw [hpid, Function.update_self]
      rfl
    · rw [Function.update_of_ne hpid]
      exact h.any tid htid
  case child =>
    intro parent hp dead hm
    simp only [Function.update_of_ne (hne parent hp)] at hm
    have hz := (hinv.members parent dead hp hm).1
    change (Function.update s.proc pid (processCtor mem s.nextInc) dead).waitTid = none
    rw [Function.update_of_ne (hne dead hz.1)]
    exact h.child parent hp dead hm

theorem Awake.setProc {p : Process} (h : Awake s) (hdead : p.deadList = (s.proc pid).deadList)
    (hw : p.waitTid = (s.proc pid).waitTid) (ha : p.waitAny = (s.proc pid).waitAny) :
    Awake (s.setProc pid p) :=
  h.congr ⟨setProc_field (·.waitTid) hw, setProc_field (·.waitAny) ha, rfl⟩
    (setProc_field (·.deadList) hdead) fun _ hq => .inl hq

theorem Awake.setTask {r : Task} (h : Awake s) (hempty : (s.proc pid).deadList = [] ∨ r.utcbArea = none) :
    Awake (s.setTask pid r) := by
  refine h.congr ⟨fun _ => rfl, fun _ => rfl, rfl⟩ (fun _ => rfl) fun q hq => ?_
  by_cases hqp : q = pid
  · subst hqp
    rcases hempty with hempty | hnone
    · exact .inr hempty
    · simp [State.hasProcess, State.setTask, hnone] at hq
  · simp only [State.hasProcess, State.setTask, Function.update_of_ne hqp] at hq
    exact .inl hq

theorem Awake.abandon (h : Awake s) (pid : ℕ) : Awake (s.abandon pid) := by
  have hset : Awake (s.setTask pid { s.task pid with utcbArea := none }) := h.setTask (.inr rfl)
  exact hset.congr ⟨fun _ => rfl, fun _ => rfl, rfl⟩ (fun _ => rfl) fun _ hq => .inl hq

theorem Awake.spawnIdentity {caller : ℕ} {ok : Bool} (h : Awake s)
    (hs : s.spawnIdentity caller pid = some (t, ok)) : Awake t := by
  simp only [State.spawnIdentity] at hs
  split at hs
  · cases hs
    exact h.setProc rfl rfl rfl
  · simp only [Option.bind_eq_bind, Option.bind_eq_some_iff] at hs
    obtain ⟨u, hsync, hs⟩ := hs
    have hu := h.syncConfirm hsync
    split at hs <;> cases hs
    · exact hu.setProc rfl rfl rfl
    · exact hu

theorem Awake.spawnLaunch {area : Fpage} (h : Awake s) (hempty : (s.proc pid).deadList = [])
    (hs : s.spawnLaunch pid area = some (t, r)) : Awake t := by
  simp only [State.spawnLaunch, Option.bind_eq_bind, Option.bind_eq_some_iff] at hs
  obtain ⟨u, hsync, ⟨v, ok⟩, hlaunch, hs⟩ := hs
  have hborn : Awake (s.configure pid area) := h.setTask (.inl hempty)
  have hv := (hborn.syncConfirm hsync).tame (launchProcess_frame hlaunch).tame
  cases ok with
  | true =>
    cases hs
    exact hv
  | false =>
    cases hs
    exact hv.abandon pid

theorem Awake.spawn {caller : ℕ} {load : Load} {mem : Process} (h : Awake s) (hinv : Inv s)
    (hclean : s.confirmsClean) (hok : s.reusesFlagged mem)
    (hs : s.spawn caller load mem = some (t, r)) : Awake t := by
  simp only [State.spawn] at hs
  split at hs
  · cases hs
    exact h
  simp only [Option.bind_eq_bind, Option.bind_eq_some_iff] at hs
  obtain ⟨⟨u, got⟩, halloc, hs⟩ := hs
  have hu := h.allocProcess hinv hok halloc
  obtain ⟨hinvu, hcleanu, hunborn⟩ := hinv.allocProcess halloc
  cases got with
  | none =>
    cases hs
    exact hu
  | some pid =>
    simp only [State.spawnInto, Option.bind_eq_bind, Option.bind_eq_some_iff] at hs
    obtain ⟨⟨v, ok⟩, hident, hs⟩ := hs
    have hv := hu.spawnIdentity hident
    obtain ⟨-, hunborn, -⟩ := hinvu.spawnIdentity (hunborn pid rfl) (hcleanu hclean) hident
    cases ok with
    | false =>
      cases hs
      exact hv.abandon pid
    | true =>
      cases load with
      | loaded area => exact hv.spawnLaunch hunborn.empty hs
      | _ =>
        cases hs
        exact hv.abandon pid

theorem Awake.fork {env : ForkEnv} (h : Awake s) (hinv : Inv s) (hok : s.reusesFlagged env.mem)
    (hs : s.fork pid env = some (t, r)) : Awake t := by
  simp only [State.fork] at hs
  split at hs
  · cases hs
    exact h
  split at hs
  · cases hs
  simp only [Option.bind_eq_bind, Option.bind_eq_some_iff] at hs
  obtain ⟨⟨u, got⟩, halloc, hs⟩ := hs
  have hu := h.allocProcess hinv hok halloc
  obtain ⟨-, -, hunborn⟩ := hinv.allocProcess halloc
  cases got with
  | none =>
    cases hs
    exact hu
  | some newpid =>
    simp only [State.forkInto] at hs
    have hborn := hu.setTask (r := ⟨(u.task pid).utcbArea,
      if env.bitmapOk then (u.task pid).utcbArea.map allocUtcbBitmap else none, []⟩)
      (.inl (hunborn newpid rfl).empty)
    split at hs
    · cases hs
      exact hborn
    have hrec : Awake ((u.setTask newpid _).setProc newpid
        (State.forkRecord (u.proc pid) (u.proc newpid) pid)) := hborn.setProc rfl rfl rfl
    split at hs
    · cases hs
      exact hrec
    have hfiled := hrec.congr (t := { (u.setTask newpid _).setProc newpid _ with
      pidToChild := u.pidToChild ++ [(pid, newpid)] })
      ⟨fun _ => rfl, fun _ => rfl, rfl⟩ (fun _ => rfl) fun _ hq => .inl hq
    split at hs
    · cases hs
      exact hfiled
    · simp only [Option.bind_eq_bind, Option.bind_eq_some_iff] at hs
      obtain ⟨⟨v, ok⟩, hlaunch, hs⟩ := hs
      split at hs <;> cases hs
      exact hfiled.tame (launchProcess_frame hlaunch).tame

theorem Awake.wait {id : WaitFor} {nohang : Bool} (h : Awake s) (hinv : Inv s)
    (hs : s.wait sender id nohang = some (t, r)) : Awake t := by
  rcases wait_cases hs with rfl | ⟨dead, -, rfl⟩ | ⟨child, hth, rfl⟩ | ⟨hnil, rfl⟩
  · exact h
  · exact h.congr ⟨fun _ => rfl, fun _ => rfl, rfl⟩ (fun _ => rfl) fun _ hq => .inl hq
  · set t := s.setProc child { s.proc child with waitTid := some sender }
    have hany : ∀ q, (t.proc q).waitAny = (s.proc q).waitAny := setProc_field (·.waitAny) rfl
    have hdead : ∀ q, (t.proc q).deadList = (s.proc q).deadList := setProc_field (·.deadList) rfl
    constructor
    case flagged =>
      intro tid htid
      exact (hany _).trans (h.flagged tid htid)
    case any =>
      intro tid htid
      exact (hdead _).trans (h.any tid htid)
    case child =>
      intro parent hp dead hm
      replace hm : dead ∈ (s.proc parent).deadList := hdead parent ▸ hm
      -- the child has threads, and so is on no list
      have hne : dead ≠ child := by
        rintro rfl
        exact hth (hinv.threads dead (hinv.members parent dead hp hm).1)
      simpa only [t, State.setProc, Function.update_of_ne hne] using h.child parent hp dead hm
  · have hdead : ∀ q, ((s.setProc (pidof sender) { s.proc (pidof sender) with waitAny := true }).proc q).deadList =
        (s.proc q).deadList := setProc_field (·.deadList) rfl
    constructor
    case flagged =>
      intro tid htid
      by_cases hpid : pidof tid = pidof sender
      · simp only [State.setProc, hpid, Function.update_self]
      · rcases List.mem_append.mp htid with htid | htid
        · simpa only [State.setProc, Function.update_of_ne hpid] using h.flagged tid htid
        · exact absurd (congrArg pidof (List.mem_singleton.mp htid)) hpid
    case any =>
      intro tid htid
      rcases List.mem_append.mp htid with htid | htid
      · exact (hdead _).trans (h.any tid htid)
      · rw [List.mem_singleton.mp htid]
        exact (hdead _).trans hnil
    case child =>
      intro parent hp dead hm
      replace hm : dead ∈ (s.proc parent).deadList := hdead parent ▸ hm
      exact (setProc_field (·.waitTid) (by rfl) dead).trans (h.child parent hp dead hm)

theorem State.soleWaiter_congr (ht : Tame s t) (h : s.soleWaiter pid) : t.soleWaiter pid := by
  refine ⟨(ht.waitTid pid).trans h.1, ?_⟩
  rw [ht.waitanyHash, ht.parentOf]
  exact h.2

theorem Awake.handle {call : Call} (h : Awake s) (hinv : Inv s) (hok : orderlyDeath s (.call sender call))
    (hfail : failsAlone s (.call sender call)) (hs : s.handle sender call = some (t, r)) : Awake t := by
  cases hcall : call.isFamily with
  | true =>
    cases call with
    | spawn load mem => exact h.spawn hinv hok hfail hs
    | fork env => exact h.fork hinv hfail hs
    | wait id nohang => exact h.wait hinv hs
    | _ => cases hcall
  | false =>
    rcases handle_cases hcall hok hs with htame | ⟨pid, replyOk, u, v, hdies, -, htame, hz, hrest⟩
    · exact h.tame htame
    have hsole : replyOk = false → s.soleWaiter pid := by
      intro hr
      have hd : ∀ d ∈ s.dies sender call, d.2 = false → s.soleWaiter d.1 := by
        cases call with
        | spawn _ _ | fork _ => cases hcall
        | _ => exact hfail
      exact hd (pid, replyOk) hdies hr
    have hv := (h.tame htame).died (fun hr => State.soleWaiter_congr htame (hsole hr)) (zombify_died hz)
    exact hv.tame hrest

theorem Awake.exec {step : Step} (h : Awake s) (hinv : Inv s) (hok : orderlyDeath s step)
    (hfail : failsAlone s step) (hs : exec s step = some t) : Awake t := by
  cases step with
  | call sender call =>
    obtain ⟨⟨u, r⟩, hr, rfl⟩ := Option.map_eq_some_iff.mp hs
    simp only [respond] at hr
    split at hr
    · cases hr
    split at hr
    · cases hr
    · exact h.handle hinv hok hfail hr
  | confirm =>
    simp only [Root.exec] at hs
    split at hs
    · exact h.syncConfirm hs
    · cases hs
  | dropConfirm =>
    cases hs
    exact h.congr ⟨fun _ => rfl, fun _ => rfl, rfl⟩ (fun _ => rfl) fun _ hq => .inl hq

/-- In every run in which replies fail only where one thread waits for any child, and ids are not
    handed out anew under a registered thread, no wakeup is lost. -/
theorem no_lost_wakeup {s₀ s : State} {steps : List Step} (hboot : Booted s₀) (hwaits : s₀.waitanyHash = [])
    (h : Run exec (fun s step => orderlyDeath s step ∧ failsAlone s step) s₀ steps s) : NoLostWakeup s := by
  have hstart : Inv s₀ ∧ Awake s₀ := by
    refine ⟨hboot.inv, ?_, ?_, ?_⟩
    · simp [hwaits]
    · simp [hwaits]
    · intro parent hp
      rw [hboot.process] at hp
      cases hp
  have hend : Inv s ∧ Awake s := by
    refine Run.invariant (I := fun s => Inv s ∧ Awake s) (fun _ _ _ hok hs hi => ?_) h hstart
    exact ⟨hi.1.exec hok.1 hs, hi.2.exec hi.1 hok.1 hok.2 hs⟩
  exact hend.2.noLostWakeup

def secondTid : Tid := ⟨602, 3⟩

def waitRun : List Step :=
  [.call rootTid (.spawn (.loaded ⟨0x100000, 19⟩) .blank),
    .call initTid (.fork ⟨.blank, true, true, none⟩),
    .call initTid .createThread,
    .call initTid (.wait .all false),
    .call secondTid (.wait .all false)]

/-- The child's death wakes one of the two threads. -/
theorem no_lost_wakeup_exit :
    Booted bootState ∧ bootState.waitanyHash = [] ∧
    ∃ s, Run exec (fun s step => orderlyDeath s step ∧ failsAlone s step) bootState
        (waitRun ++ [.call childTid (.exit 3 true)]) s ∧
      s.waitanyHash = [secondTid] ∧ s.hasProcess 2 = false ∧ NoLostWakeup s := by
  obtain ⟨s, hs, he⟩ := Run.exists_of_evalRun exec (fun s step => orderlyDeath s step ∧ failsAlone s step)
    bootState (waitRun ++ [.call childTid (.exit 3 true)])
    (fun s => (s.waitanyHash, s.hasProcess 2)) ([secondTid], false) (by decide +kernel)
  simp only [Prod.mk.injEq] at he
  exact ⟨bootState_booted, rfl, s, hs, he.1, he.2, no_lost_wakeup bootState_booted rfl hs⟩

/-- The reply to the first thread fails, and the second is not told. -/
theorem wakeup_lost :
    ¬ ∀ s₀ steps s, Booted s₀ → s₀.waitanyHash = [] → Run exec free s₀ steps s → NoLostWakeup s := by
  intro h
  obtain ⟨s, hs, he⟩ := Run.exists_of_evalRun exec free bootState
    (waitRun ++ [.call childTid (.exit 3 false)])
    (fun s => (s.waitanyHash, s.hasProcess 1, (s.proc 1).deadList)) ([secondTid], true, [2]) (by decide +kernel)
  simp only [Prod.mk.injEq] at he
  obtain ⟨hhash, hp, hdead⟩ := he
  refine (h _ _ _ bootState_booted rfl hs 1 2 secondTid hp ?_ (by decide)).1 ?_
  · simp [hdead]
  · simp [hhash]

end Sneks.Root
