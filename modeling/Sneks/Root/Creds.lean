import Sneks.Root.Frames

/-!
# Identities never grow

The processes that a group of unprivileged processes can bring forth with
`setresugid`, `fork` and `spawn` hold no uid that their creator did not hold,
as long as `spawn` meets memory that already has a saved uid of the spawner's:
`uapi_spawn` sets the real and effective uids of the child and leaves the saved
one as `ra_alloc` found it.
-/

namespace Sneks.Root
open Lib

def Process.uids (p : Process) : List ℕ := [p.realUid, p.effUid, p.savedUid]

structure Group where
  state : State
  members : List ℕ
  /-- The uids of a member's creator at the time it was made. -/
  origin : ℕ → List ℕ

def Call.changesIdentity : Call → Bool
  | .setresugid .. | .fork _ | .spawn .. => true
  | _ => false

def Call.child : Call → Result → Option ℕ
  | .fork _, .ok pid | .spawn .., .ok pid => some pid
  | _, _ => none

namespace Group

variable (g : Group)

def survive (s : State) : Group := { g with state := s, members := g.members.filter (s.allocated ·) }

def adopt (creator : ℕ) (child : Option ℕ) : Group :=
  match child with
  | none => g
  | some pid =>
    { g with
      members := pid :: g.members
      origin := Function.update g.origin pid (g.state.proc creator).uids }

def exec : Step → Option Group
  | .call sender call =>
    if pidof sender ∉ g.members || !call.changesIdentity then none
    else (respond g.state sender call).map fun (s, r) =>
      (g.adopt (pidof sender) (call.child r)).survive s
  | step => (Root.exec g.state step).map g.survive

structure Start : Prop where
  exists_ : ∀ pid ∈ g.members, g.state.hasProcess pid ∧ g.state.allocated pid
  nonzero : ∀ pid ∈ g.members, 0 ∉ (g.state.proc pid).uids
  origin_eq : ∀ pid ∈ g.members, g.origin pid = (g.state.proc pid).uids

def Confined : Prop :=
  ∀ pid ∈ g.members, ∀ uid ∈ (g.state.proc pid).uids, uid ≠ 0 ∧ uid ∈ g.origin pid

def spawnsClean : Step → Prop
  | .call sender (.spawn (.loaded _) mem) => mem.savedUid ∈ (g.state.proc (pidof sender)).uids
  | _ => True

instance (step : Step) : Decidable (g.spawnsClean step) := by
  unfold spawnsClean; split <;> infer_instance

end Group

-- What the calls do to identities

variable {s t : State} {pid caller : ℕ} {r : Result}

theorem syncConfirm_uids (h : s.syncConfirm = some t) (q : ℕ) :
    (t.proc q).uids = (s.proc q).uids := by
  rcases syncConfirm_spec h with ⟨-, rfl⟩ | ⟨c, -, -, rfl⟩
  · rfl
  · exact setProc_field (s := { s with confirm := none }) Process.uids (by rfl) q

theorem allocProcess_uids {mem : Process} {n : ℕ} (h : s.allocProcess mem n = some (t, some pid)) :
    s.allocated pid = false ∧ pid ≤ maxPid ∧ (t.proc pid).uids = mem.uids ∧
      ∀ q ≠ pid, t.proc q = s.proc q := by
  rcases allocProcess_spec h with ⟨next, -, -, hr⟩ | ⟨next, -, pid', -, hr, hfree, hle, rfl⟩
  · cases hr
  · cases hr
    refine ⟨hfree, hle, ?_, fun q hq => ?_⟩
    · simp only [Function.update_self]
      rfl
    · simp only [Function.update_of_ne hq]

theorem spawnIdentity_uids {ok : Bool} (hsys : isSystask caller = false)
    (h : s.spawnIdentity caller pid = some (t, ok)) :
    (ok = true → (t.proc pid).uids =
      [(s.proc caller).realUid, (s.proc caller).effUid, (s.proc pid).savedUid]) ∧
    ∀ q ≠ pid, (t.proc q).uids = (s.proc q).uids := by
  simp only [State.spawnIdentity, hsys, Bool.false_eq_true, if_false, Option.bind_eq_bind,
    Option.bind_eq_some_iff] at h
  obtain ⟨u, hu, h⟩ := h
  have huids := syncConfirm_uids hu
  split at h
  · cases h
    constructor
    · intro _
      have hc := huids caller
      have hp := huids pid
      simp only [Process.uids, List.cons.injEq, and_true] at hc hp
      simp only [State.setProc, Function.update_self, Process.uids, hc.1, hc.2.1, hp.2.2]
    · intro q hq
      simp only [State.setProc, Function.update_of_ne hq]
      exact huids q
  · cases h
    exact ⟨by rintro ⟨⟩, fun q _ => huids q⟩

theorem spawnLaunch_uids {area : Fpage} (h : s.spawnLaunch pid area = some (t, r)) (q : ℕ) :
    (t.proc q).uids = (s.proc q).uids := by
  simp only [State.spawnLaunch, Option.bind_eq_bind, Option.bind_eq_some_iff] at h
  obtain ⟨u, hu, ⟨v, ok⟩, hv, h⟩ := h
  have hproc : (v.proc q).uids = (s.proc q).uids := by
    rw [(launchProcess_frame hv).proc_eq, syncConfirm_uids hu]
    rfl
  split at h
  · cases h
    exact hproc
  · cases h
    exact hproc

theorem spawnLaunch_child {area : Fpage} {child : ℕ} (h : s.spawnLaunch pid area = some (t, r))
    (hr : r = .ok child) : child = pid := by
  simp only [State.spawnLaunch, Option.bind_eq_bind, Option.bind_eq_some_iff] at h
  obtain ⟨u, -, ⟨v, ok⟩, -, h⟩ := h
  subst hr
  split at h
  · cases h
    rfl
  · cases h

theorem spawnInto_uids {load : Load} (hsys : isSystask caller = false)
    (h : s.spawnInto caller pid load = some (t, r)) :
    (∀ q ≠ pid, (t.proc q).uids = (s.proc q).uids) ∧
    ∀ child, r = .ok child → child = pid ∧ (∃ area, load = .loaded area) ∧
      (t.proc pid).uids =
        [(s.proc caller).realUid, (s.proc caller).effUid, (s.proc pid).savedUid] := by
  simp only [State.spawnInto, Option.bind_eq_bind, Option.bind_eq_some_iff] at h
  obtain ⟨⟨u, ok⟩, hu, h⟩ := h
  obtain ⟨hchild, hothers⟩ := spawnIdentity_uids hsys hu
  cases ok with
  | false =>
    cases h
    exact ⟨hothers, nofun⟩
  | true =>
    cases load with
    | loaded area =>
      have huids := spawnLaunch_uids h
      refine ⟨fun q hq => (huids q).trans (hothers q hq), fun child hr => ?_⟩
      exact ⟨spawnLaunch_child h hr, ⟨area, rfl⟩, (huids pid).trans (hchild rfl)⟩
    | _ =>
      cases h
      exact ⟨hothers, nofun⟩

theorem spawn_uids {load : Load} {mem : Process} (hsys : isSystask caller = false)
    (hc : s.allocated caller = true) (h : s.spawn caller load mem = some (t, r)) :
    (∀ q, s.allocated q = true → (t.proc q).uids = (s.proc q).uids) ∧
    ∀ child, r = .ok child → child ≤ maxPid ∧ (∃ area, load = .loaded area) ∧
      (t.proc child).uids =
        [(s.proc caller).realUid, (s.proc caller).effUid, mem.savedUid] := by
  simp only [State.spawn] at h
  split at h
  · cases h
    exact ⟨fun _ _ => rfl, nofun⟩
  · simp only [Option.bind_eq_bind, Option.bind_eq_some_iff] at h
    obtain ⟨⟨u, got⟩, hu, h⟩ := h
    cases got with
    | none =>
      cases h
      rcases allocProcess_spec hu with ⟨next, -, rfl, -⟩ | ⟨next, -, pid, -, hr, -⟩
      · exact ⟨fun _ _ => rfl, nofun⟩
      · cases hr
    | some pid =>
      obtain ⟨hfree, hle, hmem, hothers⟩ := allocProcess_uids hu
      obtain ⟨hrest, hchild⟩ := spawnInto_uids hsys h
      have hne : ∀ q, s.allocated q = true → q ≠ pid := by
        rintro q hq rfl
        simp [hfree] at hq
      refine ⟨fun q hq => ?_, fun child hr => ?_⟩
      · rw [hrest q (hne q hq), hothers q (hne q hq)]
      · obtain ⟨rfl, hload, huids⟩ := hchild child hr
        refine ⟨hle, hload, ?_⟩
        simp only [Process.uids, List.cons.injEq, and_true] at hmem
        rw [huids, hothers caller (hne caller hc), hmem.2.2]

theorem forkInto_uids {newpid : ℕ} {env : ForkEnv}
    (h : s.forkInto pid newpid env = some (t, r)) :
    (∀ q ≠ newpid, t.proc q = s.proc q) ∧
    ∀ child, r = .ok child → child = newpid ∧ (t.proc newpid).uids = (s.proc pid).uids := by
  simp only [State.forkInto] at h
  split at h
  · cases h
    exact ⟨fun _ _ => rfl, by rintro _ ⟨⟩⟩
  split at h
  · cases h
    exact ⟨fun q hq => by simp only [State.setProc, Function.update_of_ne hq]; rfl, by rintro _ ⟨⟩⟩
  split at h
  · cases h
    exact ⟨fun q hq => by simp only [State.setProc, Function.update_of_ne hq]; rfl, by rintro _ ⟨⟩⟩
  · simp only [Option.bind_eq_bind, Option.bind_eq_some_iff] at h
    obtain ⟨⟨v, ok⟩, hv, h⟩ := h
    have hproc := (launchProcess_frame hv).proc_eq
    split at h
    · cases h
      refine ⟨fun q hq => ?_, fun child hr => ?_⟩
      · rw [hproc]
        simp only [State.setProc, Function.update_of_ne hq]
        rfl
      · cases hr
        rw [hproc]
        simp only [State.setProc, Function.update_self, true_and]
        rfl
    · cases h

theorem fork_uids {env : ForkEnv} (hc : s.allocated pid = true)
    (h : s.fork pid env = some (t, r)) :
    (∀ q, s.allocated q = true → (t.proc q).uids = (s.proc q).uids) ∧
    ∀ child, r = .ok child → child ≤ maxPid ∧ (t.proc child).uids = (s.proc pid).uids := by
  simp only [State.fork] at h
  split at h
  · cases h
    exact ⟨fun _ _ => rfl, by rintro _ ⟨⟩⟩
  split at h
  · cases h
  simp only [Option.bind_eq_bind, Option.bind_eq_some_iff] at h
  obtain ⟨⟨u, got⟩, hu, h⟩ := h
  cases got with
  | none =>
    cases h
    rcases allocProcess_spec hu with ⟨next, -, rfl, -⟩ | ⟨next, -, pid, -, hr, -⟩
    · exact ⟨fun _ _ => rfl, by rintro _ ⟨⟩⟩
    · cases hr
  | some newpid =>
    obtain ⟨hfree, hle, -, hothers⟩ := allocProcess_uids hu
    have hne : ∀ q, s.allocated q = true → q ≠ newpid := by
      rintro q hq rfl
      simp [hfree] at hq
    obtain ⟨hrest, hchild⟩ := forkInto_uids h
    refine ⟨fun q hq => ?_, fun child hr => ?_⟩
    · rw [hrest q (hne q hq), hothers q (hne q hq)]
    · obtain ⟨rfl, huids⟩ := hchild child hr
      exact ⟨hle, by rw [huids, hothers pid (hne pid hc)]⟩

theorem assignUids_subset {p : Process} {rUid eUid sUid : ℕ}
    (hr : rUid = State.noUid ∨ rUid ∈ p.uids) (he : eUid = State.noUid ∨ eUid ∈ p.uids)
    (hs : sUid = State.noUid ∨ sUid ∈ p.uids) :
    (State.assignUids p rUid eUid sUid).uids ⊆ p.uids := by
  have hpick : ∀ {new old : ℕ}, new = State.noUid ∨ new ∈ p.uids → old ∈ p.uids →
      (if new ≠ State.noUid then new else old) ∈ p.uids := by
    intro new old hnew hold
    split
    · next hn => exact hnew.resolve_left hn
    · exact hold
  intro uid huid
  simp only [Process.uids, State.assignUids, List.mem_cons, List.not_mem_nil, or_false] at huid
  rcases huid with rfl | rfl | rfl
  · exact hpick hr (by simp [Process.uids])
  · exact hpick he (by simp [Process.uids])
  · exact hpick hs (by simp [Process.uids])

theorem setresugid_uids {mode : ℤ} {rUid eUid sUid : ℕ} (hroot : 0 ∉ (s.proc pid).uids)
    (h : s.setresugid pid mode rUid eUid sUid = some (t, r)) :
    t = s ∨ ∃ p, t = s.setProc pid p ∧ p.uids ⊆ (s.proc pid).uids := by
  have heff : (s.proc pid).effUid ≠ 0 := by
    intro he
    exact hroot (by simp [Process.uids, he])
  simp only [State.setresugid, heff, if_false] at h
  split at h
  · cases h
    exact .inl rfl
  split at h
  · cases h
    exact .inl rfl
  split at h
  · -- one uid, checked against the effective and the saved one
    split at h
    · next huid =>
      split at h
      · next hs =>
        cases h
        refine .inr ⟨_, rfl, assignUids_subset (.inl rfl) (.inr ?_) (.inl hs)⟩
        rcases huid with rfl | rfl <;> simp [Process.uids]
      · cases h
    · cases h
      exact .inl rfl
  split at h
  · cases h
    exact .inl rfl
  split at h
  · cases h
    exact .inl rfl
  · next hdeny =>
    cases h
    have hcand : ∀ c ∈ [rUid, eUid, sUid], c = State.noUid ∨ c ∈ (s.proc pid).uids := by
      intro c hc
      by_contra hno
      simp only [not_or, Process.uids, List.mem_cons, List.not_mem_nil, or_false] at hno
      exact hdeny ⟨heff, c, hc, hno.1, hno.2.1, hno.2.2.1, hno.2.2.2⟩
    exact .inr ⟨_, rfl, assignUids_subset (hcand _ (by simp)) (hcand _ (by simp))
      (hcand _ (by simp))⟩

namespace Group

variable {g g' : Group}

structure Inv (g : Group) : Prop where
  alive : ∀ pid ∈ g.members, g.state.allocated pid = true ∧ pid ≤ maxPid
  confined : g.Confined

theorem Start.inv (h : g.Start) : g.Inv where
  alive pid hp := by
    obtain ⟨hproc, halloc⟩ := h.exists_ pid hp
    simp only [State.hasProcess, Bool.and_eq_true, decide_eq_true_eq] at hproc
    exact ⟨halloc, hproc.1.2⟩
  confined pid hp uid huid := by
    refine ⟨?_, by rwa [h.origin_eq pid hp]⟩
    rintro rfl
    exact h.nonzero pid hp huid

theorem Inv.adopt_survive {creator : ℕ} {child : Option ℕ} (h : g.Inv)
    (hcreator : creator ∈ g.members)
    (hold : ∀ pid ∈ g.members, (t.proc pid).uids ⊆ (g.state.proc pid).uids)
    (hnew : ∀ pid, child = some pid → pid ≤ maxPid ∧
      (t.proc pid).uids ⊆ (g.state.proc creator).uids) :
    ((g.adopt creator child).survive t).Inv := by
  have hmem : ∀ pid, pid ∈ ((g.adopt creator child).survive t).members →
      t.allocated pid = true ∧ (child = some pid ∨ child ≠ some pid ∧ pid ∈ g.members) := by
    intro pid hp
    simp only [survive, adopt, List.mem_filter] at hp
    refine ⟨hp.2, ?_⟩
    by_cases hc : child = some pid
    · exact .inl hc
    · refine .inr ⟨hc, ?_⟩
      cases child with
      | none => exact hp.1
      | some c => simpa [show pid ≠ c by rintro rfl; exact hc rfl] using hp.1
  constructor
  · intro pid hp
    obtain ⟨halloc, hc | ⟨-, hold'⟩⟩ := hmem pid hp
    · exact ⟨halloc, (hnew pid hc).1⟩
    · exact ⟨halloc, (h.alive pid hold').2⟩
  · intro pid hp uid huid
    change uid ∈ (t.proc pid).uids at huid
    obtain ⟨-, hc | ⟨hc, hold'⟩⟩ := hmem pid hp
    · have huid' := (hnew pid hc).2 huid
      refine ⟨(h.confined creator hcreator uid huid').1, ?_⟩
      subst hc
      simpa [survive, adopt] using huid'
    · have huid' := h.confined pid hold' uid (hold pid hold' huid)
      refine ⟨huid'.1, ?_⟩
      cases child with
      | none => exact huid'.2
      | some c =>
        have hne : pid ≠ c := by rintro rfl; exact hc rfl
        simpa [survive, adopt, Function.update_of_ne hne] using huid'.2

theorem Inv.survive (h : g.Inv) (hold : ∀ pid, (t.proc pid).uids = (g.state.proc pid).uids) :
    (g.survive t).Inv := by
  constructor
  · intro pid hp
    simp only [Group.survive, List.mem_filter] at hp
    exact ⟨hp.2, (h.alive pid hp.1).2⟩
  · intro pid hp uid huid
    simp only [Group.survive, List.mem_filter] at hp
    change uid ∈ (t.proc pid).uids at huid
    rw [hold] at huid
    exact h.confined pid hp.1 uid huid

theorem not_systask (h : pid ≤ maxPid) : isSystask pid = false := by
  have hlt : pid < minSysid := by
    simp only [maxPid, minSysid] at h ⊢
    omega
  simpa [isSystask] using hlt

theorem Inv.respond {sender : Tid} {call : Call} (h : g.Inv) (hmem : pidof sender ∈ g.members)
    (hcall : call.changesIdentity = true) (hok : g.spawnsClean (.call sender call))
    (hr : respond g.state sender call = some (t, r)) :
    ((g.adopt (pidof sender) (call.child r)).survive t).Inv := by
  obtain ⟨halloc, hle⟩ := h.alive _ hmem
  simp only [Root.respond] at hr
  split at hr
  · cases hr
  split at hr
  · cases hr
  cases call with
  | setresugid mode rUid eUid sUid =>
    have hroot : 0 ∉ (g.state.proc (pidof sender)).uids :=
      fun hz => (h.confined _ hmem 0 hz).1 rfl
    refine h.adopt_survive hmem (fun pid _ => ?_) (by simp [Call.child])
    rcases setresugid_uids hroot hr with rfl | ⟨p, rfl, hp⟩
    · exact List.Subset.refl _
    · by_cases hpid : pid = pidof sender
      · subst hpid
        simpa only [State.setProc, Function.update_self] using hp
      · simp only [State.setProc, Function.update_of_ne hpid]
        exact List.Subset.refl _
  | fork env =>
    obtain ⟨hothers, hchild⟩ := fork_uids halloc hr
    refine h.adopt_survive hmem (fun pid hp => ?_) (fun pid hp => ?_)
    · rw [hothers pid (h.alive pid hp).1]
      exact List.Subset.refl _
    · cases r with
      | error e => cases hp
      | ok c =>
        cases hp
        obtain ⟨hc, huids⟩ := hchild pid rfl
        exact ⟨hc, by rw [huids]; exact List.Subset.refl _⟩
  | spawn load mem =>
    obtain ⟨hothers, hchild⟩ := spawn_uids (not_systask hle) halloc hr
    refine h.adopt_survive hmem (fun pid hp => ?_) (fun pid hp => ?_)
    · rw [hothers pid (h.alive pid hp).1]
      exact List.Subset.refl _
    · cases r with
      | error e => cases hp
      | ok c =>
        cases hp
        obtain ⟨hc, ⟨area, rfl⟩, huids⟩ := hchild pid rfl
        refine ⟨hc, ?_⟩
        -- two of the three are the spawner's, the condition speaks of the third
        rw [huids]
        simp only [spawnsClean] at hok
        simpa [Process.uids] using hok
  | _ => cases hcall

theorem Inv.exec {step : Step} (h : g.Inv) (hok : g.spawnsClean step)
    (hs : g.exec step = some g') : g'.Inv := by
  cases step with
  | call sender call =>
    simp only [Group.exec] at hs
    split at hs
    · cases hs
    · next hguard =>
      simp only [Bool.or_eq_true, decide_eq_true_eq, not_or, not_not, Bool.not_eq_true',
        Bool.not_eq_false] at hguard
      obtain ⟨⟨t, r⟩, hr, rfl⟩ := Option.map_eq_some_iff.mp hs
      exact h.respond hguard.1 hguard.2 hok hr
  | confirm =>
    simp only [Group.exec] at hs
    obtain ⟨t, ht, rfl⟩ := Option.map_eq_some_iff.mp hs
    simp only [Root.exec] at ht
    split at ht
    · exact h.survive (syncConfirm_uids ht)
    · cases ht
  | dropConfirm =>
    simp only [Group.exec, Root.exec, Option.map_some, Option.some.injEq] at hs
    subst hs
    exact h.survive fun _ => rfl

end Group

/-- From any state, the processes that an unprivileged group brings forth hold no uid
    but their creators', if every spawn finds such a saved uid in memory. -/
theorem uids_confined {g g' : Group} {steps : List Step} (hstart : g.Start)
    (h : Run Group.exec Group.spawnsClean g steps g') : g'.Confined := by
  have hinv : g'.Inv :=
    h.invariant (fun _ _ _ hok hs hi => Group.Inv.exec hi hok hs) hstart.inv
  exact hinv.confined

def loginTid : Tid := ⟨600, 5⟩

def loginState : State where
  task pid := if pid = 2 then ⟨some ⟨0x100000, 19⟩, some (0 < ·), [loginTid]⟩ else ⟨none, none, []⟩
  proc pid :=
    if pid = 2 then { Process.blank with realUid := 1000, effUid := 1000, savedUid := 1000 } else Process.blank
  allocated := (· = 2)
  nextUserPid := 3
  tnoFreeMaps _ bit := 512 ≤ bit && bit ≠ 600
  tnoFreeCounts _ := 1000
  utcbLoc _ := 0x100000
  pidToChild := []
  waitanyHash := []
  confirm := none
  vmTid := ⟨700, 10⟩
  nextInc := 2
  log := []

def loginGroup : Group where
  state := loginState
  members := [2]
  origin _ := [1000, 1000, 1000]

theorem loginGroup_start : loginGroup.Start where
  exists_ := by decide
  nonzero := by decide
  origin_eq := by decide

/-- A process of user 1000 spawns into memory left behind by another one of its own. -/
theorem uids_confined_login :
    loginGroup.Start ∧ ∃ g, Run Group.exec Group.spawnsClean loginGroup
      [.call loginTid (.spawn (.loaded ⟨0x100000, 19⟩) { Process.blank with savedUid := 1000 })] g ∧
      g.members = [3, 2] ∧ g.Confined := by
  obtain ⟨g, hg, hm⟩ := Run.exists_of_evalRun Group.exec Group.spawnsClean loginGroup
    [.call loginTid (.spawn (.loaded ⟨0x100000, 19⟩) { Process.blank with savedUid := 1000 })]
    (·.members) [3, 2] (by decide +kernel)
  exact ⟨loginGroup_start, g, hg, hm, uids_confined loginGroup_start hg⟩

def escalation : List Step :=
  [.call loginTid (.spawn (.loaded ⟨0x100000, 19⟩) Process.blank),
    .call ⟨512, 7⟩ (.setresugid 1 0 State.noUid State.noUid)]

/-- A process that user 1000 spawns may become root. -/
theorem uids_not_confined :
    ¬ ∀ g steps g', Group.Start g → Run Group.exec free g steps g' → Group.Confined g' := by
  intro h
  obtain ⟨g, hg, hm⟩ := Run.exists_of_evalRun Group.exec free loginGroup escalation
    (fun g => (g.members, (g.state.proc 3).effUid)) ([3, 2], 0) (by decide +kernel)
  simp only [Prod.mk.injEq] at hm
  have hconf := h _ _ _ loginGroup_start hg 3 (by simp [hm.1]) 0 (by simp [Process.uids, hm.2])
  exact hconf.1 rfl

end Sneks.Root
