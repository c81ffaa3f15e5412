import Sneks.Root.Frames
import Mathlib.Tactic.SplitIfs

/-!
# What signals and calls come down to

A step of signal delivery or of death, and a call that returns, has either changed nothing, or is one
operation on threads, on signals or on a process record. `spawn` and `fork` are not here: their parts come
one after another.
-/

namespace Sneks.Root

variable {s t u : State} {pid : ℕ} {sender : Tid} {r : Result}

-- Signals

theorem sigDeliver_cases {sig : ℕ} {self : Bool} (h : s.sigDeliver pid sig self = some t) :
    t = s.addPending pid sig ∨ (s.task pid).threads ≠ [] ∧ (s.allocateThread pid = some (t, none) ∨
      ∃ u tid utcb, s.allocateThread pid = some (u, some (tid, utcb)) ∧
        t = (u.setProc pid { u.proc pid with sighelperTid := some tid, sighelperUtcb := utcb }).addPending pid sig) := by
  simp only [State.sigDeliver] at h
  split at h
  · cases h
    exact .inl rfl
  split at h
  · cases h
  next hth =>
  simp only [Option.bind_eq_bind, Option.bind_eq_some_iff] at h
  obtain ⟨⟨u, got⟩, hu, h⟩ := h
  cases got with
  | none =>
    cases h
    exact .inr ⟨hth, .inl hu⟩
  | some got =>
    cases h
    exact .inr ⟨hth, .inr ⟨u, got.1, got.2, hu, rfl⟩⟩

/-- `sig_send` up to the call of `zombify` does nothing deadly, or it makes the exit record of a process that
takes the default action of a deadly signal. -/
theorem sigAct_cases {sig : ℕ} {self dies : Bool} (h : s.sigAct pid sig self = some (t, dies)) :
    dies = false ∧ (t = s ∨ (s.proc pid).disposition sig ≠ .default ∧
      (t = s.addPending pid sig ∨ s.sigDeliver pid sig self = some t)) ∨
    dies = true ∧ deadly sig = true ∧ (s.proc pid).disposition sig = .default ∧ t = s.setRecord pid sig 0 CLD_KILLED := by
  simp only [State.sigAct] at h
  split at h
  · cases h
  split at h
  · next hdisp =>
    cases h
    exact .inl ⟨rfl, .inr ⟨by rw [hdisp]; nofun, .inl rfl⟩⟩
  · cases h
    exact .inl ⟨rfl, .inl rfl⟩
  · next hdfl =>
    split at h
    · cases h
    simp only [State.sigDefault] at h
    split at h
    · next hdeadly =>
      cases h
      exact .inr ⟨rfl, hdeadly, hdfl, rfl⟩
    split at h
    · cases h
    · cases h
      exact .inl ⟨rfl, .inl rfl⟩
  · cases h
    exact .inl ⟨rfl, .inl rfl⟩
  · next hdisp =>
    obtain ⟨u, hu, he⟩ := Option.map_eq_some_iff.mp h
    cases he
    exact .inl ⟨rfl, .inr ⟨by rw [hdisp]; nofun, .inr hu⟩⟩

theorem sigRemoveHelper_cases (h : s.sigRemoveHelper pid = some t) :
    ∃ tid u v, (s.proc pid).sighelperTid = some tid ∧ s.freeThread pid tid (s.proc pid).sighelperUtcb = some u ∧
      u.freeThreadno tid = some v ∧ t = v.setProc pid { v.proc pid with sighelperTid := none } := by
  simp only [State.sigRemoveHelper] at h
  split at h
  · cases h
  next tid htid =>
  simp only [Option.bind_eq_bind, Option.bind_eq_some_iff] at h
  obtain ⟨u, hu, v, hv, h⟩ := h
  cases h
  exact ⟨tid, u, v, htid, hu, hv, rfl⟩

theorem dropHelper_cases (h : s.dropHelper pid = some t) :
    (s.proc pid).sighelperTid = none ∧ t = s ∨ s.sigRemoveHelper pid = some t := by
  simp only [State.dropHelper] at h
  split at h
  · exact .inr h
  · next hno =>
    cases h
    exact .inl ⟨by simpa using hno, rfl⟩

theorem reparent_cases (h : s.reparent pid = some t) :
    s.hasProcess (s.proc pid).ppid = true ∧ t = s ∨
    s.hasProcess (s.proc pid).ppid = false ∧ s.hasProcess 1 = true ∧ t = s.setProc pid { s.proc pid with ppid := 1 } := by
  simp only [State.reparent] at h
  split at h
  · next hp =>
    cases h
    exact .inl ⟨hp, rfl⟩
  next hp =>
  split at h
  · cases h
  next hone =>
  cases h
  simp only [Bool.not_eq_true', not_or, Bool.not_eq_false] at hone
  exact .inr ⟨by simpa using hp, hone.2, rfl⟩

theorem createThread_cases (h : s.createThread pid = some (t, r)) : t = s ∨ ∃ got, s.allocateThread pid = some (t, got) := by
  simp only [State.createThread] at h
  split at h
  · cases h
    exact .inl rfl
  simp only [Option.bind_eq_bind, Option.bind_eq_some_iff] at h
  obtain ⟨⟨u, got⟩, hu, h⟩ := h
  cases got with
  | none =>
    cases h
    exact .inr ⟨none, hu⟩
  | some got =>
    simp only at h
    split at h <;> cases h
    exact .inr ⟨some got, hu⟩

theorem createThread_frame (h : s.createThread pid = some (t, r)) : SameButThreads pid s t := by
  obtain rfl | ⟨got, h⟩ := createThread_cases h
  · exact .refl pid t
  · exact allocateThread_frame h

theorem removeThread_cases {tid : Tid} {utcbAddr : ℕ} (h : s.removeThread pid tid utcbAddr = some (t, r)) :
    t = s ∨ tid ∈ (s.task pid).threads ∧ ∃ u, s.freeThread pid tid utcbAddr = some u ∧ u.freeThreadno tid = some t := by
  simp only [State.removeThread] at h
  split at h
  · cases h
    exact .inl rfl
  split at h
  · cases h
    exact .inl rfl
  next hm =>
  simp only [Option.bind_eq_bind, Option.bind_eq_some_iff] at h
  obtain ⟨u, hu, v, hv, h⟩ := h
  cases h
  exact .inr ⟨not_not.mp hm, u, hu, hv⟩

theorem removeThread_frame {tid : Tid} {utcbAddr : ℕ} (h : s.removeThread pid tid utcbAddr = some (t, r)) :
    SameButThreads pid s t := by
  obtain rfl | ⟨-, u, hu, ht⟩ := removeThread_cases h
  · exact .refl pid t
  · exact (freeThread_frame hu).1.trans (freeThreadno_frame _ ht).1

theorem exec_cases {load : Load} (h : s.exec pid load = some (t, r)) :
    t = s ∨ (∀ e, load ≠ .rejected e) ∧ s.hasProcess pid = true ∧ ∃ u, s.taskDtor pid = some u ∧
      (t = u ∨ ∃ area, t = u.configure pid area ∨ ∃ ok, (u.configure pid area).launchProcess pid = some (t, ok)) := by
  simp only [State.exec] at h
  split at h
  · cases h
    exact .inl rfl
  split at h
  · cases h
  next hproc =>
  have hp : s.hasProcess pid = true := by simpa using hproc
  cases load with
  | rejected e =>
    cases h
    exact .inl rfl
  | failed e =>
    simp only [Option.bind_eq_bind, Option.bind_eq_some_iff] at h
    obtain ⟨u, hu, h⟩ := h
    cases h
    exact .inr ⟨nofun, hp, _, hu, .inl rfl⟩
  | unlaunched area e =>
    simp only [Option.bind_eq_bind, Option.bind_eq_some_iff] at h
    obtain ⟨u, hu, h⟩ := h
    cases h
    exact .inr ⟨nofun, hp, _, hu, .inr ⟨area, .inl rfl⟩⟩
  | loaded area =>
    simp only [Option.bind_eq_bind, Option.bind_eq_some_iff] at h
    obtain ⟨u, hu, ⟨v, ok⟩, hv, h⟩ := h
    cases h
    exact .inr ⟨nofun, hp, u, hu, .inr ⟨area, .inr ⟨ok, hv⟩⟩⟩

theorem configure_hasProcess {area : Fpage} (hp : s.hasProcess pid = true) (h : SameButThreads pid s u) (q : ℕ) :
    (u.configure pid area).hasProcess q = s.hasProcess q := by
  by_cases hq : q = pid
  · subst hq
    simp only [State.hasProcess, State.configure, State.setTask, Function.update_self, Bool.and_eq_true] at hp ⊢
    simp [hp]
  · rw [← h.hasProcess_eq]
    simp only [State.hasProcess, State.configure, State.setTask, Function.update_of_ne hq]

theorem hasProcess_of_killError {senderPid : ℕ} {pid sig : ℤ} {earlyReplyOk : Bool}
    (h : s.killError senderPid pid sig earlyReplyOk = none) : s.hasProcess pid.toNat = true := by
  simp only [State.killError] at h
  split at h
  · cases h
  · next hno =>
    simp only [Bool.not_eq_true', not_or, Bool.not_eq_false] at hno
    exact hno.2

theorem kill_cases {senderPid : ℕ} {pid sig : ℤ} {earlyReplyOk replyOk : Bool}
    (h : s.kill senderPid pid sig earlyReplyOk replyOk = some (t, r)) :
    t = s ∨ s.killError senderPid pid sig earlyReplyOk = none ∧ sig ≠ 0 ∧
      s.sigSend pid.toNat sig.toNat (pid = senderPid) replyOk = some t := by
  simp only [State.kill] at h
  split at h
  · cases h
    exact .inl rfl
  next herr =>
  split at h
  · cases h
    exact .inl rfl
  next hsig =>
  simp only [Option.bind_eq_bind, Option.bind_eq_some_iff] at h
  obtain ⟨u, hu, h⟩ := h
  cases h
  exact .inr ⟨herr, hsig, hu⟩

theorem exit_cases {status : ℤ} {replyOk : Bool} (h : s.exit pid status replyOk = some (t, r)) :
    isSystask pid = true ∧ s.taskDtor pid = some t ∨ isSystask pid = false ∧ s.hasProcess pid = true ∧
      (s.setRecord pid 0 (toShort status) CLD_EXITED).zombify pid replyOk = some t := by
  simp only [State.exit] at h
  split at h
  · next hsys =>
    simp only [Option.bind_eq_bind, Option.bind_eq_some_iff] at h
    obtain ⟨u, hu, h⟩ := h
    cases h
    exact .inl ⟨hsys, hu⟩
  next hsys =>
  split at h
  · cases h
  next hproc =>
  simp only [Option.bind_eq_bind, Option.bind_eq_some_iff] at h
  obtain ⟨u, hu, h⟩ := h
  cases h
  exact .inr ⟨by simpa using hsys, by simpa using hproc, hu⟩

def State.Reaps (s : State) (sender : Tid) (id : WaitFor) (dead : ℕ) : Prop :=
  s.hasProcess (pidof sender) = true ∧ (dead ∈ (s.proc (pidof sender)).deadList ∨
    id = .pid dead ∧ s.hasProcess dead = true ∧ (s.proc dead).ppid = pidof sender ∧ (s.task dead).threads = [])

theorem wait_cases {id : WaitFor} {nohang : Bool} (h : s.wait sender id nohang = some (t, r)) :
    t = s ∨ (∃ dead, s.Reaps sender id dead ∧ t = { s with confirm := some ⟨dead, pidof sender⟩ }) ∨
    (∃ child, (s.task child).threads ≠ [] ∧ t = s.setProc child { s.proc child with waitTid := some sender }) ∨
    (s.proc (pidof sender)).deadList = [] ∧
      t = { s.setProc (pidof sender) { s.proc (pidof sender) with waitAny := true } with
        waitanyHash := s.waitanyHash ++ [sender] } := by
  simp only [State.wait] at h
  split at h
  · cases h
    exact .inl rfl
  split at h
  · cases h
  next hcaller =>
  have hp : s.hasProcess (pidof sender) = true := by simpa using hcaller
  split at h
  · next child =>
    split at h
    · cases h
      exact .inl rfl
    next hchild =>
    simp only [Bool.not_eq_true', not_or, Bool.not_eq_false, not_not] at hchild
    split at h
    · next hth =>
      cases h
      exact .inr (.inl ⟨child, ⟨hp, .inr ⟨rfl, hchild.1, hchild.2, hth⟩⟩, rfl⟩)
    next hth =>
    split at h
    · cases h
      exact .inl rfl
    · cases h
      exact .inr (.inr (.inl ⟨child, hth, rfl⟩))
  · split at h
    · next dead _ hlist =>
      split at h
      · cases h
        exact .inr (.inl ⟨dead, ⟨hp, .inl (by rw [hlist]; exact List.mem_cons_self)⟩, rfl⟩)
      · cases h
    next hnil =>
    split at h
    · cases h
      exact .inl rfl
    split at h
    · cases h
      exact .inl rfl
    · cases h
      exact .inr (.inr (.inr ⟨hnil, rfl⟩))
  · cases h
    exact .inl rfl

theorem readPending_cases {p p' : Process} {conceal : Bool} {andBits sigs : SigSet}
    (h : State.readPending p conceal andBits = some (p', sigs)) :
    ∃ pending saved mask, p' = { p with pendingSet := pending, savedMask := saved, maskSet := mask } := by
  simp only [State.readPending] at h
  split_ifs at h <;> cases h <;> exact ⟨_, _, _, rfl⟩

theorem setMask_cases {orBits andBits : SigSet} {replyOk : Bool} (h : s.setMask pid orBits andBits replyOk = some t) :
    (State.sigList (State.released (s.proc pid) andBits &&& ~~~(s.proc pid).ignSet)).foldlM
      (fun s sig => s.sigSend pid sig true replyOk) (s.setProc pid (State.remask (s.proc pid) orBits andBits)) = some t := by
  simp only [State.setMask] at h
  split at h
  · cases h
  · exact h

theorem sigset_cases {setName : ℕ} {orBits andBits : SigSet} {replyOk : Bool}
    (h : s.sigset sender setName orBits andBits replyOk = some (t, r)) :
    s.hasProcess (pidof sender) = true ∧ (t = s ∨ s.sigRemoveHelper (pidof sender) = some t ∨
      (∃ ign dfl, t = s.setProc (pidof sender) { s.proc (pidof sender) with ignSet := ign, dflSet := dfl }) ∨
      setName = 2 ∧ s.setMask (pidof sender) orBits andBits replyOk = some t ∨
      ∃ pending saved mask, t = s.setProc (pidof sender)
        { s.proc (pidof sender) with pendingSet := pending, savedMask := saved, maskSet := mask }) := by
  simp only [State.sigset] at h
  split at h
  · cases h
  next hproc =>
  refine ⟨by simpa using hproc, ?_⟩
  split at h
  · simp only [Option.bind_eq_bind, Option.bind_eq_some_iff] at h
    obtain ⟨u, hu, h⟩ := h
    cases h
    exact .inr (.inl hu)
  split at h
  · split at h <;> cases h
    exact .inr (.inr (.inl ⟨_, _, rfl⟩))
  · split at h <;> cases h
    exact .inr (.inr (.inl ⟨_, _, rfl⟩))
  · simp only [Option.bind_eq_bind, Option.bind_eq_some_iff] at h
    obtain ⟨u, hu, h⟩ := h
    cases h
    exact .inr (.inr (.inr (.inl ⟨rfl, hu⟩)))
  · simp only [Option.bind_eq_bind, Option.bind_eq_some_iff] at h
    obtain ⟨⟨p, sigs⟩, hread, h⟩ := h
    cases h
    obtain ⟨pending, saved, mask, rfl⟩ := readPending_cases hread
    exact .inr (.inr (.inr (.inr ⟨pending, saved, mask, rfl⟩)))
  · simp only [Option.bind_eq_bind, Option.bind_eq_some_iff] at h
    obtain ⟨⟨p, sigs⟩, hread, h⟩ := h
    cases h
    obtain ⟨pending, saved, mask, rfl⟩ := readPending_cases hread
    exact .inr (.inr (.inr (.inr ⟨pending, saved, mask, rfl⟩)))
  · cases h
    exact .inl rfl

theorem sigsuspend_cases {mask : SigSet} (h : s.sigsuspend pid mask = some (t, r)) :
    t = s ∨ ∃ pending savedSet mask saved, t = s.setProc pid { s.proc pid with
      pendingSet := pending, savedMaskSet := savedSet, maskSet := mask, savedMask := saved } := by
  simp only [State.sigsuspend] at h
  split_ifs at h <;> cases h
  · exact .inl rfl
  · exact .inl rfl
  · exact .inr ⟨_, _, _, _, rfl⟩
  · exact .inr ⟨_, _, _, _, rfl⟩

theorem setresugid_cases {mode : ℤ} {rUid eUid sUid : ℕ} (h : s.setresugid pid mode rUid eUid sUid = some (t, r)) :
    t = s ∨ ∃ rUid eUid sUid, t = s.setProc pid (State.assignUids (s.proc pid) rUid eUid sUid) := by
  simp only [State.setresugid] at h
  split_ifs at h <;> cases h <;> first | exact .inl rfl | exact .inr ⟨_, _, _, rfl⟩

end Sneks.Root
