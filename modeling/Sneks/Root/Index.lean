import Sneks.Root.Effects

/-!
# The index of children

`pid_to_child_hash` is to have one entry for each process, filed under its parent, so that
`has_children` and `waitid` find out whether there are children. Only `uapi_fork` adds to it,
and the key of an entry stays when `zombify` gives the process another parent. So the index
is right for as long as processes are spawned by system tasks alone, forks get past the index,
and nobody dies whose parent is gone; what system tasks spawn has no parent, and no entry.
-/

namespace Sneks.Root
open Lib

def State.IsParent (s : State) (pid : ℕ) : Prop := ∃ q, s.hasProcess q = true ∧ (s.proc q).ppid = pid

/-- `waitid(P_ALL, ...)` by `sender` returns `ECHILD`. -/
def State.SaysChildless (s : State) (sender : Tid) (nohang : Bool) : Prop :=
  ∃ t, s.wait sender .all nohang = some (t, .error .ECHILD)

/-- There is one entry for each process, filed under its parent, and no other; `has_children` and
    `waitid` answer accordingly. -/
structure ParentIndex (s : State) : Prop where
  entries : ∀ parent pid, s.pidToChild.count (parent, pid) =
    if s.hasProcess pid = true ∧ (s.proc pid).ppid = parent then 1 else 0
  children : ∀ pid, s.hasChildren pid = true ↔ s.IsParent pid
  echild : ∀ sender nohang, s.hasProcess (pidof sender) = true →
    (s.SaysChildless sender nohang ↔ ¬ s.IsParent (pidof sender))

def keepsIndex (s : State) : Step → Prop
  | .call sender (.spawn (.loaded _) _) => isSystask (pidof sender) = true
  | .call _ (.fork env) => env.bitmapOk = true ∧ env.hashOk = true
  | .call sender call => ∀ d ∈ s.dies sender call, s.hasProcess (s.proc d.1).ppid = true
  | .confirm | .dropConfirm => True

instance (s : State) (step : Step) : Decidable (keepsIndex s step) := by
  cases step with
  | call sender call =>
    cases call with
    | spawn load mem => cases load <;> (dsimp only [keepsIndex]; infer_instance)
    | _ => dsimp only [keepsIndex]; infer_instance
  | _ => exact instDecidableTrue

structure Filed (s : State) : Prop where
  count : ∀ parent pid, s.pidToChild.count (parent, pid) =
    if s.hasProcess pid = true ∧ (s.proc pid).ppid = parent ∧ parent ≠ 0 then 1 else 0
  next : 0 < s.nextUserPid

variable {s t u v : State} {pid : ℕ} {r : Result} {sender : Tid}

theorem Filed.mem_iff (h : Filed s) (parent pid : ℕ) : (parent, pid) ∈ s.pidToChild ↔
    s.hasProcess pid = true ∧ (s.proc pid).ppid = parent ∧ parent ≠ 0 := by
  rw [← List.count_pos_iff, h.count]
  split
  · next hc => exact iff_of_true Nat.one_pos hc
  · next hc => exact iff_of_false (Nat.lt_irrefl 0) hc

theorem Filed.hasChildren_iff (h : Filed s) (hpid : pid ≠ 0) : s.hasChildren pid = true ↔ s.IsParent pid := by
  simp only [State.hasChildren, List.any_eq_true, Bool.and_eq_true, decide_eq_true_eq, Prod.exists]
  constructor
  · rintro ⟨parent, q, hm, rfl, hq⟩
    exact ⟨q, ((h.mem_iff _ q).mp hm).1, hq⟩
  · rintro ⟨q, hq, hppid⟩
    exact ⟨pid, q, (h.mem_iff pid q).mpr ⟨hq, hppid, hpid⟩, rfl, hppid⟩

theorem Filed.saysChildless_iff (h : Filed s) (hinv : Inv s) (nohang : Bool)
    (hp : s.hasProcess (pidof sender) = true) :
    s.SaysChildless sender nohang ↔ ¬ s.IsParent (pidof sender) := by
  have hpos : pidof sender ≠ 0 := by
    intro hzero
    simp [State.hasProcess, hzero] at hp
  rw [← h.hasChildren_iff hpos]
  simp only [State.SaysChildless, State.wait, not_isSystask_of_hasProcess hp, hp, Bool.not_true,
    Bool.false_eq_true, if_false]
  split
  · next dead _ hlist =>
    -- a dead child is a child
    obtain ⟨hz, hppid⟩ := hinv.members (pidof sender) dead hp (by simp [hlist])
    have hchild : s.hasChildren (pidof sender) = true := (h.hasChildren_iff hpos).mpr ⟨dead, hz.1, hppid⟩
    simp [hppid, State.waitDead, hchild]
  · split
    · next hno => simpa using hno
    · next hno =>
      simp only [Bool.not_eq_true', Bool.not_eq_false] at hno
      split <;> simp [hno]

theorem Filed.parentIndex_iff (h : Filed s) (hinv : Inv s) :
    ParentIndex s ↔ ∀ q, s.hasProcess q = true → (s.proc q).ppid ≠ 0 := by
  constructor
  · intro hidx q hq hzero
    have hone := hidx.entries 0 q
    rw [h.count, if_neg (by simp), if_pos ⟨hq, hzero⟩] at hone
    cases hone
  · intro hall
    refine ⟨fun parent q => ?_, fun p => ?_, fun sender nohang hp => h.saysChildless_iff hinv nohang hp⟩
    · rw [h.count]
      refine if_congr ⟨fun hc => ⟨hc.1, hc.2.1⟩, fun hc => ⟨hc.1, hc.2, ?_⟩⟩ rfl rfl
      exact hc.2 ▸ hall q hc.1
    · by_cases hp : p = 0
      · subst hp
        refine iff_of_false (fun hc => ?_) fun ⟨q, hq, hzero⟩ => hall q hq hzero
        simp only [State.hasChildren, List.any_eq_true, Bool.and_eq_true, decide_eq_true_eq, Prod.exists] at hc
        obtain ⟨parent, q, hm, rfl, -⟩ := hc
        exact ((h.mem_iff _ q).mp hm).2.2 rfl
      · exact h.hasChildren_iff hp

theorem Filed.congr (h : Filed s) (hindex : t.pidToChild = s.pidToChild) (hnext : 0 < t.nextUserPid)
    (hq : ∀ q parent, parent ≠ 0 → ((t.hasProcess q = true ∧ (t.proc q).ppid = parent) ↔
      (s.hasProcess q = true ∧ (s.proc q).ppid = parent))) : Filed t := by
  refine ⟨fun parent q => ?_, hnext⟩
  rw [hindex, h.count]
  refine if_congr ⟨fun hc => ?_, fun hc => ?_⟩ rfl rfl
  · have hold := (hq q parent hc.2.2).mpr ⟨hc.1, hc.2.1⟩
    exact ⟨hold.1, hold.2, hc.2.2⟩
  · have hold := (hq q parent hc.2.2).mp ⟨hc.1, hc.2.1⟩
    exact ⟨hold.1, hold.2, hc.2.2⟩

theorem Filed.tame (h : Filed s) (ht : Tame s t) : Filed t :=
  h.congr ht.index (ht.nextPid ▸ h.next) fun q _ _ => by rw [ht.process, ht.ppid]

theorem Filed.remove (h : Filed s) (hindex : t.pidToChild = s.pidToChild.erase ((s.proc pid).ppid, pid))
    (hnext : t.nextUserPid = s.nextUserPid)
    (hproc : ∀ q, t.hasProcess q = (s.hasProcess q && decide (q ≠ pid)))
    (hppid : ∀ q, (t.proc q).ppid = (s.proc q).ppid) : Filed t := by
  refine ⟨fun parent q => ?_, hnext ▸ h.next⟩
  rw [hindex, List.count_erase, h.count, hproc, hppid]
  by_cases hq : q = pid
  · subst hq
    by_cases hpar : (s.proc q).ppid = parent
    · subst hpar
      simp only [beq_self_eq_true, if_true, ne_eq, not_true_eq_false, decide_false, Bool.and_false,
        Bool.false_eq_true, false_and, if_false]
      split <;> rfl
    · simp [hpar]
  · have hne : (((s.proc pid).ppid, pid) == (parent, q)) = false := by simp [Ne.symm hq]
    simp [hne, hq]

theorem Filed.died {reaped : Bool} (h : Filed s) (hpar : s.hasProcess (s.proc pid).ppid = true)
    (hd : Died pid reaped s t) : Filed t := by
  have hsame : s.parentOf pid = (s.proc pid).ppid := if_pos hpar
  have hppid : ∀ q, (t.proc q).ppid = (s.proc q).ppid := by
    intro q
    rw [hd.ppid]
    split
    · next hq => rw [hsame, hq]
    · rfl
  have hproc := hd.process
  have hindex := hd.index
  cases reaped with
  | true =>
    rw [if_pos rfl, hsame] at hindex
    refine h.remove hindex hd.nextPid (fun q => ?_) hppid
    rw [hproc, Bool.true_and, decide_not]
  | false =>
    refine h.congr hindex (hd.nextPid ▸ h.next) fun q _ _ => ?_
    rw [hproc, hppid, Bool.false_and, Bool.not_false, Bool.and_true]

theorem Filed.syncConfirm (h : Filed s) (hs : s.syncConfirm = some t) : Filed t := by
  rcases syncConfirm_spec hs with ⟨-, rfl⟩ | ⟨c, -, -, rfl⟩
  · exact h
  have hppid := unlist_field (s := s) (c := c) (·.ppid) fun _ => rfl
  have hindex : ((s.unlist c).destroyProcess c.dead).pidToChild =
      s.pidToChild.erase ((s.proc c.dead).ppid, c.dead) := by
    change s.pidToChild.erase (((s.unlist c).proc c.dead).ppid, c.dead) = _
    rw [hppid]
  exact h.remove hindex rfl (fun q => destroyProcess_hasProcess q) hppid

theorem Filed.setAbsent {p : Process} (h : Filed s) (hp : s.hasProcess pid = false) :
    Filed (s.setProc pid p) := by
  refine h.congr rfl h.next fun q parent _ => ?_
  by_cases hq : q = pid
  · subst hq
    have hno : (s.setProc q p).hasProcess q = false := hp
    simp [hp, hno]
  · simp only [State.setProc, Function.update_of_ne hq]
    rfl

theorem Filed.setTask {r : Task} (h : Filed s)
    (hok : (s.proc pid).ppid = 0 ∨ s.hasProcess pid = false ∧ r.utcbArea = none) : Filed (s.setTask pid r) := by
  refine h.congr rfl h.next fun q parent hparent => ?_
  by_cases hq : q = pid
  · subst hq
    rcases hok with hzero | ⟨hno, hnone⟩
    · have hne : ¬ (s.proc q).ppid = parent := by
        rw [hzero]
        exact Ne.symm hparent
      exact iff_of_false (fun hc => hne hc.2) fun hc => hne hc.2
    · have hno' : (s.setTask q r).hasProcess q = false := by
        simp [State.hasProcess, State.setTask, hnone]
      simp [hno, hno']
  · have hsame : (s.setTask pid r).hasProcess q = s.hasProcess q := by
      simp only [State.hasProcess, State.setTask, Function.update_of_ne hq]
    rw [hsame]
    rfl

theorem Filed.abandon (h : Filed s) (hok : (s.proc pid).ppid = 0 ∨ s.hasProcess pid = false) :
    Filed (s.abandon pid) := by
  have hset : Filed (s.setTask pid { s.task pid with utcbArea := none }) :=
    h.setTask (hok.imp_right fun hno => ⟨hno, rfl⟩)
  exact hset.congr rfl hset.next fun _ _ _ => Iff.rfl

theorem Filed.allocProcess {mem : Process} {n : ℕ} {got : Option ℕ} (h : Filed s) (hinv : Inv s)
    (hs : s.allocProcess mem n = some (t, got)) :
    Filed t ∧ t.task = s.task ∧ ∀ newpid ∈ got, 0 < newpid ∧ newpid ≤ maxPid := by
  have hpos := h.next
  rcases allocProcess_spec hs with ⟨next, hnext, rfl, rfl⟩ | ⟨next, hnext, pid, hpid, rfl, hfree, hle, rfl⟩
  · exact ⟨h.congr rfl (Nat.lt_of_lt_of_le hpos hnext) fun _ _ _ => Iff.rfl, rfl, nofun⟩
  have habsent : s.hasProcess pid = false := by
    rw [← Bool.not_eq_true]
    intro hp
    rw [hinv.allocated pid hp] at hfree
    cases hfree
  refine ⟨(h.setAbsent habsent).congr rfl (Nat.lt_of_lt_of_le hpos hnext) fun _ _ _ => Iff.rfl, rfl, ?_⟩
  rintro _ ⟨⟩
  exact ⟨Nat.lt_of_lt_of_le hpos hpid, hle⟩

theorem Filed.spawnIdentity {caller : ℕ} {ok : Bool} (h : Filed s) (hinv : Inv s) (hu : Unborn pid s)
    (hs : s.spawnIdentity caller pid = some (t, ok)) :
    Filed t ∧ (isSystask caller = true → (t.proc pid).ppid = 0) := by
  simp only [State.spawnIdentity] at hs
  split at hs
  · cases hs
    refine ⟨h.setAbsent hu.process, fun _ => ?_⟩
    simp only [State.setProc, Function.update_self]
  next hsys =>
  simp only [Option.bind_eq_bind, Option.bind_eq_some_iff] at hs
  obtain ⟨u, hsync, hs⟩ := hs
  have hfiled := h.syncConfirm hsync
  refine ⟨?_, fun hc => absurd hc hsys⟩
  split at hs <;> cases hs
  · exact hfiled.setAbsent (hu.syncConfirm hinv hsync).process
  · exact hfiled

theorem syncConfirm_ppid (hs : s.syncConfirm = some t) (q : ℕ) : (t.proc q).ppid = (s.proc q).ppid := by
  rcases syncConfirm_spec hs with ⟨-, rfl⟩ | ⟨c, -, -, rfl⟩
  · rfl
  · exact unlist_field (c := c) (·.ppid) (fun _ => rfl) q

theorem Filed.spawnLaunch {area : Fpage} (h : Filed s) (hzero : (s.proc pid).ppid = 0)
    (hs : s.spawnLaunch pid area = some (t, r)) : Filed t := by
  simp only [State.spawnLaunch, Option.bind_eq_bind, Option.bind_eq_some_iff] at hs
  obtain ⟨u, hsync, ⟨v, ok⟩, hlaunch, hs⟩ := hs
  have hborn : Filed (s.configure pid area) := h.setTask (.inl hzero)
  have htame := (launchProcess_frame hlaunch).tame
  have hv := (hborn.syncConfirm hsync).tame htame
  cases ok with
  | true =>
    cases hs
    exact hv
  | false =>
    cases hs
    refine hv.abandon (.inl ?_)
    rw [htame.ppid, syncConfirm_ppid hsync]
    exact hzero

theorem Filed.spawn {caller : ℕ} {load : Load} {mem : Process} (h : Filed s) (hinv : Inv s)
    (hclean : s.confirmsClean) (hok : ∀ area, load = .loaded area → isSystask caller = true)
    (hs : s.spawn caller load mem = some (t, r)) : Filed t := by
  simp only [State.spawn] at hs
  split at hs
  · cases hs
    exact h
  simp only [Option.bind_eq_bind, Option.bind_eq_some_iff] at hs
  obtain ⟨⟨u, got⟩, halloc, hs⟩ := hs
  obtain ⟨hu, -, -⟩ := h.allocProcess hinv halloc
  obtain ⟨hinvu, hcleanu, hunborn⟩ := hinv.allocProcess halloc
  cases got with
  | none =>
    cases hs
    exact hu
  | some pid =>
    simp only [State.spawnInto, Option.bind_eq_bind, Option.bind_eq_some_iff] at hs
    obtain ⟨⟨v, ok⟩, hident, hs⟩ := hs
    obtain ⟨hv, hzero⟩ := hu.spawnIdentity hinvu (hunborn pid rfl) hident
    obtain ⟨-, hunborn, -⟩ := hinvu.spawnIdentity (hunborn pid rfl) (hcleanu hclean) hident
    cases ok with
    | false =>
      cases hs
      exact hv.abandon (.inr hunborn.process)
    | true =>
      cases load with
      | loaded area => exact hv.spawnLaunch (hzero (hok area rfl)) hs
      | _ =>
        cases hs
        exact hv.abandon (.inr hunborn.process)

theorem Filed.file {newpid : ℕ} {a : Task} {p : Process} (h : Filed s) (hno : s.hasProcess newpid = false)
    (hnew : (s.setTask newpid a).hasProcess newpid = true) (hppid : p.ppid = pid) (hpid : pid ≠ 0) :
    Filed { (s.setTask newpid a).setProc newpid p with pidToChild := s.pidToChild ++ [(pid, newpid)] } := by
  refine ⟨fun parent q => ?_, h.next⟩
  change (s.pidToChild ++ [(pid, newpid)]).count (parent, q) =
    if (s.setTask newpid a).hasProcess q = true ∧ (Function.update s.proc newpid p q).ppid = parent ∧
      parent ≠ 0 then 1 else 0
  rw [List.count_append, h.count]
  by_cases hq : q = newpid
  · subst hq
    rw [Function.update_self, hppid, hnew, hno]
    by_cases hpar : pid = parent
    · subst hpar
      simp [hpid]
    · simp [hpar]
  · have hsame : (s.setTask newpid a).hasProcess q = s.hasProcess q := by
      simp only [State.hasProcess, State.setTask, Function.update_of_ne hq]
    rw [hsame, Function.update_of_ne hq]
    simp [Ne.symm hq]

theorem Filed.fork {env : ForkEnv} (h : Filed s) (hinv : Inv s) (hok : env.bitmapOk = true ∧ env.hashOk = true)
    (hs : s.fork pid env = some (t, r)) : Filed t := by
  simp only [State.fork] at hs
  split at hs
  · cases hs
    exact h
  split at hs
  · cases hs
  next hproc =>
  simp only [Option.bind_eq_bind, Option.bind_eq_some_iff] at hs
  obtain ⟨⟨u, got⟩, halloc, hs⟩ := hs
  obtain ⟨hu, htask, hrange⟩ := h.allocProcess hinv halloc
  obtain ⟨-, -, hunborn⟩ := hinv.allocProcess halloc
  cases got with
  | none =>
    cases hs
    exact hu
  | some newpid =>
    simp only [State.forkInto, hok.1, hok.2, Bool.not_true, Bool.false_eq_true, if_false, if_true] at hs
    simp only [State.hasProcess, Bool.not_eq_true', Bool.not_eq_false, Bool.and_eq_true,
      decide_eq_true_eq] at hproc
    have hnew : (u.setTask newpid ⟨(u.task pid).utcbArea, (u.task pid).utcbArea.map allocUtcbBitmap,
        []⟩).hasProcess newpid = true := by
      simp [State.hasProcess, State.setTask, htask, hproc, hrange newpid rfl]
    have hppid : (State.forkRecord (u.proc pid) (u.proc newpid) pid).ppid = pid := rfl
    have hfiled := hu.file (hunborn newpid rfl).process hnew hppid (Nat.pos_iff_ne_zero.mp hproc.1.1)
    split at hs
    · cases hs
      exact hfiled
    · simp only [Option.bind_eq_bind, Option.bind_eq_some_iff] at hs
      obtain ⟨⟨v, ok⟩, hlaunch, hs⟩ := hs
      split at hs <;> cases hs
      exact hfiled.tame (launchProcess_frame hlaunch).tame

theorem Filed.wait {id : WaitFor} {nohang : Bool} (h : Filed s)
    (hs : s.wait sender id nohang = some (t, r)) : Filed t := by
  have hset : ∀ {p : Process} (pid : ℕ), p.ppid = (s.proc pid).ppid → Filed (s.setProc pid p) := by
    intro p pid hp
    refine h.congr rfl h.next fun q parent _ => ?_
    rw [setProc_field (·.ppid) hp q]
    rfl
  rcases wait_cases hs with rfl | ⟨dead, -, rfl⟩ | ⟨child, -, rfl⟩ | ⟨-, rfl⟩
  · exact h
  · exact h.congr rfl h.next fun _ _ _ => Iff.rfl
  · exact hset child rfl
  · have hany := hset (pidof sender) (p := { s.proc (pidof sender) with waitAny := true }) rfl
    exact hany.congr rfl h.next fun _ _ _ => Iff.rfl

theorem Filed.handle {call : Call} (h : Filed s) (hinv : Inv s) (hok : orderlyDeath s (.call sender call))
    (hkeep : keepsIndex s (.call sender call)) (hs : s.handle sender call = some (t, r)) : Filed t := by
  cases hcall : call.isFamily with
  | true =>
    cases call with
    | spawn load mem =>
      refine h.spawn hinv hok ?_ hs
      rintro area rfl
      exact hkeep
    | fork env => exact h.fork hinv hkeep hs
    | wait id nohang => exact h.wait hs
    | _ => cases hcall
  | false =>
    rcases handle_cases hcall hok hs with htame | ⟨pid, replyOk, u, v, hdies, -, htame, hz, hrest⟩
    · exact h.tame htame
    have hpar : s.hasProcess (s.proc pid).ppid = true := by
      have hd : ∀ d ∈ s.dies sender call, s.hasProcess (s.proc d.1).ppid = true := by
        cases call with
        | spawn _ _ | fork _ => cases hcall
        | _ => exact hkeep
      exact hd (pid, replyOk) hdies
    have hv := (h.tame htame).died (by rw [htame.process, htame.ppid, hpar]) (zombify_died hz)
    exact hv.tame hrest

theorem Filed.exec {step : Step} (h : Filed s) (hinv : Inv s) (hok : orderlyDeath s step)
    (hkeep : keepsIndex s step) (hs : exec s step = some t) : Filed t := by
  cases step with
  | call sender call =>
    obtain ⟨⟨u, r⟩, hr, rfl⟩ := Option.map_eq_some_iff.mp hs
    simp only [respond] at hr
    split at hr
    · cases hr
    split at hr
    · cases hr
    · exact h.handle hinv hok hkeep hr
  | confirm =>
    simp only [Root.exec] at hs
    split at hs
    · exact h.syncConfirm hs
    · cases hs
  | dropConfirm =>
    cases hs
    exact h.congr rfl h.next fun _ _ _ => Iff.rfl

/-- In every run whose steps meet the condition, `has_children` and `waitid` are right for every
    process, and the index has all it should but for processes that have no parent. -/
theorem parent_index {s₀ s : State} {steps : List Step} (hboot : Booted s₀) (hindex : s₀.pidToChild = [])
    (hnext : 0 < s₀.nextUserPid)
    (h : Run exec (fun s step => orderlyDeath s step ∧ keepsIndex s step) s₀ steps s) :
    (ParentIndex s ↔ ∀ pid, s.hasProcess pid = true → (s.proc pid).ppid ≠ 0) ∧
    (∀ pid, s.hasProcess pid = true → (s.hasChildren pid = true ↔ s.IsParent pid)) ∧
    ∀ sender nohang, s.hasProcess (pidof sender) = true →
      (s.SaysChildless sender nohang ↔ ¬ s.IsParent (pidof sender)) := by
  have hstart : Inv s₀ ∧ Filed s₀ := by
    refine ⟨hboot.inv, fun parent pid => ?_, hnext⟩
    simp [hindex, hboot.process]
  obtain ⟨hinv, hfiled⟩ : Inv s ∧ Filed s := by
    refine Run.invariant (I := fun s => Inv s ∧ Filed s) (fun _ _ _ hok hs hi => ?_) h hstart
    exact ⟨hi.1.exec hok.1 hs, hi.2.exec hi.1 hok.1 hok.2 hs⟩
  refine ⟨hfiled.parentIndex_iff hinv, fun pid hp => hfiled.hasChildren_iff ?_, fun sender nohang hp =>
    hfiled.saysChildless_iff hinv nohang hp⟩
  rintro rfl
  simp [State.hasProcess] at hp

def forkRun : List Step :=
  [.call rootTid (.spawn (.loaded ⟨0x100000, 19⟩) .blank),
    .call initTid (.fork ⟨.blank, true, true, none⟩),
    .call childTid (.fork ⟨.blank, true, true, none⟩),
    .call childTid (.exit 0 false),
    .call initTid (.wait .all false)]

/-- The grandchild is left, under the id of its parent, and init has no children any more. -/
theorem parent_index_forks :
    Booted bootState ∧ bootState.pidToChild = [] ∧ 0 < bootState.nextUserPid ∧
    ∃ s, Run exec (fun s step => orderlyDeath s step ∧ keepsIndex s step) bootState (forkRun ++ [.confirm]) s ∧
      s.pidToChild = [(2, 3)] ∧ s.hasProcess 1 = true ∧ s.hasProcess 3 = true ∧ ¬ s.IsParent 1 := by
  obtain ⟨s, hs, he⟩ := Run.exists_of_evalRun exec (fun s step => orderlyDeath s step ∧ keepsIndex s step)
    bootState (forkRun ++ [.confirm])
    (fun s => (s.pidToChild, s.hasProcess 1, s.hasProcess 3, s.hasChildren 1)) ([(2, 3)], true, true, false)
    (by decide +kernel)
  simp only [Prod.mk.injEq] at he
  obtain ⟨hidx, hone, hthree, hno⟩ := he
  refine ⟨bootState_booted, rfl, by decide, s, hs, hidx, hone, hthree, ?_⟩
  rw [← (parent_index bootState_booted rfl (by decide) hs).2.1 1 hone, hno]
  exact Bool.false_ne_true

/-- Init spawns a process, and `has_children` does not know. -/
theorem parent_index_spawn :
    ¬ ∀ s₀ steps s, Booted s₀ → s₀.pidToChild = [] → 0 < s₀.nextUserPid → Run exec free s₀ steps s →
      ParentIndex s := by
  intro h
  obtain ⟨s, hs, he⟩ := Run.exists_of_evalRun exec free bootState
    [.call rootTid (.spawn (.loaded ⟨0x100000, 19⟩) .blank),
      .call initTid (.spawn (.loaded ⟨0x100000, 19⟩) .blank)]
    (fun s => (s.hasChildren 1, s.hasProcess 2, (s.proc 2).ppid)) (false, true, 1) (by decide +kernel)
  simp only [Prod.mk.injEq] at he
  obtain ⟨hno, hp, hppid⟩ := he
  have hyes := ((h _ _ _ bootState_booted rfl (by decide) hs).children 1).mpr ⟨2, hp, hppid⟩
  rw [hno] at hyes
  cases hyes

end Sneks.Root
