import Sneks.Root.Death

/-!
# What calls do to families and waits

For the parent of each process, the lists of the dead, the child multimap and the threads
that wait, a call other than `spawn`, `fork` and `wait` does nothing, or is one `zombify`.
-/

namespace Sneks.Root

variable {s t u v : State} {pid : ℕ} {r : Result}

/-- `t` differs from `s` in nothing that families and waits are about. -/
structure Tame (s t : State) : Prop extends SameWaits s t where
  process : ∀ q, t.hasProcess q = s.hasProcess q
  ppid : ∀ q, (t.proc q).ppid = (s.proc q).ppid
  deadList : ∀ q, (t.proc q).deadList = (s.proc q).deadList
  index : t.pidToChild = s.pidToChild
  nextPid : t.nextUserPid = s.nextUserPid

theorem Tame.refl (s : State) : Tame s s :=
  ⟨.refl s, fun _ => rfl, fun _ => rfl, fun _ => rfl, rfl, rfl⟩

theorem Tame.trans (h : Tame s t) (h' : Tame t u) : Tame s u where
  toSameWaits := h.toSameWaits.trans h'.toSameWaits
  process q := (h'.process q).trans (h.process q)
  ppid q := (h'.ppid q).trans (h.ppid q)
  deadList q := (h'.deadList q).trans (h.deadList q)
  index := h'.index.trans h.index
  nextPid := h'.nextPid.trans h.nextPid

theorem Tame.setProc {p : Process} (hppid : p.ppid = (s.proc pid).ppid)
    (hdead : p.deadList = (s.proc pid).deadList) (hw : p.waitTid = (s.proc pid).waitTid)
    (ha : p.waitAny = (s.proc pid).waitAny) : Tame s (s.setProc pid p) where
  waitTid := setProc_field (·.waitTid) hw
  waitAny := setProc_field (·.waitAny) ha
  waitanyHash := rfl
  process _ := rfl
  ppid := setProc_field (·.ppid) hppid
  deadList := setProc_field (·.deadList) hdead
  index := rfl
  nextPid := rfl

theorem SameButThreads.tame (h : SameButThreads pid s t) : Tame s t where
  waitTid q := by rw [h.proc_eq]
  waitAny q := by rw [h.proc_eq]
  waitanyHash := by rw [h.eq]
  process := h.hasProcess_eq
  ppid q := by rw [h.proc_eq]
  deadList q := by rw [h.proc_eq]
  index := by rw [h.eq]
  nextPid := by rw [h.eq]

theorem Tame.parentOf (h : Tame s t) (q : ℕ) : t.parentOf q = s.parentOf q := by
  simp only [State.parentOf, h.ppid, h.process]

theorem setRecord_tame (s : State) (pid : ℕ) (signo status code : ℤ) :
    Tame s (s.setRecord pid signo status code) := .setProc rfl rfl rfl rfl

theorem addPending_tame (sig : ℕ) : Tame s (s.addPending pid sig) := .setProc rfl rfl rfl rfl

theorem sigDeliver_tame {sig : ℕ} {self : Bool} (h : s.sigDeliver pid sig self = some t) : Tame s t := by
  obtain rfl | ⟨-, hnone | ⟨u, tid, utcb, hu, rfl⟩⟩ := sigDeliver_cases h
  · exact addPending_tame sig
  · exact (allocateThread_frame hnone).tame
  · refine .trans ?_ (addPending_tame sig)
    exact (allocateThread_frame hu).tame.trans (.setProc rfl rfl rfl rfl)

theorem sigAct_tame {sig : ℕ} {self dies : Bool} (h : s.sigAct pid sig self = some (t, dies)) : Tame s t := by
  obtain ⟨-, rfl | ⟨-, rfl | hdeliver⟩⟩ | ⟨-, -, -, rfl⟩ := sigAct_cases h
  · exact .refl t
  · exact addPending_tame sig
  · exact sigDeliver_tame hdeliver
  · exact setRecord_tame ..

theorem sigRemoveHelper_tame (h : s.sigRemoveHelper pid = some t) : Tame s t := by
  obtain ⟨tid, u, v, -, hu, hv, rfl⟩ := sigRemoveHelper_cases h
  exact ((freeThread_frame hu).1.trans (freeThreadno_frame pid hv).1).tame.trans (.setProc rfl rfl rfl rfl)

theorem sigSend_tame {sig : ℕ} {self replyOk : Bool} (h : s.sigSend pid sig self replyOk = some t)
    (hf : (s.proc pid).fatal sig = false) : Tame s t := by
  simp only [State.sigSend, Option.bind_eq_bind, Option.bind_eq_some_iff] at h
  obtain ⟨⟨u, dies⟩, hu, h⟩ := h
  have htame := sigAct_tame hu
  rcases sigAct_spec hu with ⟨rfl, -⟩ | ⟨rfl, hdeadly, hdfl, -⟩
  · cases h
    exact htame
  · simp [Process.fatal, hdeadly, hdfl] at hf

theorem sigSend_fatal {sig : ℕ} {self replyOk : Bool} (h : s.sigSend pid sig self replyOk = some t)
    (hf : (s.proc pid).fatal sig = true) : ∃ u, Tame s u ∧ u.zombify pid replyOk = some t := by
  simp only [State.sigSend, Option.bind_eq_bind, Option.bind_eq_some_iff] at h
  obtain ⟨⟨u, dies⟩, hu, h⟩ := h
  have htame := sigAct_tame hu
  rcases sigAct_spec hu with ⟨rfl, hstill⟩ | ⟨rfl, -, -, -⟩
  · -- the default action of a deadly signal is to die
    exfalso
    simp only [Process.fatal, Bool.and_eq_true, decide_eq_true_eq] at hf
    simp only [State.sigAct, hf.2, State.sigDefault, hf.1, if_true] at hu
    split at hu
    · cases hu
    · split at hu <;> cases hu
  · exact ⟨u, htame, h⟩

theorem sigLoop_tame {sigs : List ℕ} {replyOk : Bool} (hf : ∀ sig ∈ sigs, (s.proc pid).fatal sig = false)
    (hs : sigs.foldlM (fun s sig => s.sigSend pid sig true replyOk) s = some t) : Tame s t := by
  induction sigs generalizing s with
  | nil =>
    simp only [List.foldlM_nil, Option.pure_def, Option.some.injEq] at hs
    exact hs ▸ .refl s
  | cons sig sigs ih =>
    simp only [List.foldlM_cons, Option.bind_eq_bind, Option.bind_eq_some_iff] at hs
    obtain ⟨u, hu, hs⟩ := hs
    refine (sigSend_tame hu (hf sig (by simp))).trans (ih (fun sig' hm => ?_) hs)
    rw [← Bool.not_eq_true]
    intro hfat
    have hno := hf sig' (by simp [hm])
    rw [sigSend_quiet hu pid sig' hfat] at hno
    cases hno

theorem sigLoop_cases {sigs : List ℕ} {replyOk : Bool} (hone : (sigs.filter (s.proc pid).fatal).length ≤ 1)
    (hs : sigs.foldlM (fun s sig => s.sigSend pid sig true replyOk) s = some t) :
    Tame s t ∨ sigs.filter (s.proc pid).fatal ≠ [] ∧
      ∃ u v, Tame s u ∧ u.zombify pid replyOk = some v ∧ Tame v t := by
  induction sigs generalizing s with
  | nil =>
    simp only [List.foldlM_nil, Option.pure_def, Option.some.injEq] at hs
    exact .inl (hs ▸ .refl s)
  | cons sig sigs ih =>
    simp only [List.foldlM_cons, Option.bind_eq_bind, Option.bind_eq_some_iff] at hs
    obtain ⟨u, hu, hs⟩ := hs
    cases hf : (s.proc pid).fatal sig with
    | true =>
      -- what is left of the list is harmless
      simp only [List.filter_cons, hf, if_true, List.length_cons] at hone ⊢
      have hnil : sigs.filter (s.proc pid).fatal = [] := List.length_eq_zero_iff.mp (by omega)
      obtain ⟨u', htame, hz⟩ := sigSend_fatal hu hf
      refine .inr ⟨by simp, u', u, htame, hz, sigLoop_tame (fun sig' hm => ?_) hs⟩
      rw [← Bool.not_eq_true]
      intro hfat
      have hmem := List.mem_filter.mpr ⟨hm, sigSend_quiet hu pid sig' hfat⟩
      rw [hnil] at hmem
      cases hmem
    | false =>
      simp only [List.filter_cons, hf, Bool.false_eq_true, if_false] at hone ⊢
      have htame := sigSend_tame hu hf
      have hsub : (sigs.filter (u.proc pid).fatal).Sublist (sigs.filter (s.proc pid).fatal) :=
        List.monotone_filter_right _ fun sig' => sigSend_quiet hu pid sig'
      rcases ih (Nat.le_trans hsub.length_le hone) hs with htame' | ⟨hne, u', v, htame', hz, hrest⟩
      · exact .inl (htame.trans htame')
      · refine .inr ⟨fun hnil => hne ?_, u', v, htame.trans htame', hz, hrest⟩
        rw [hnil] at hsub
        exact List.sublist_nil.mp hsub

theorem exec_tame {load : Load} (hs : s.exec pid load = some (t, r)) : Tame s t := by
  obtain rfl | ⟨-, hp, u, hu, hend⟩ := exec_cases hs
  · exact .refl t
  have hf := (taskDtor_frame hu).1
  -- a new UTCB area in the place of the old one
  have hconf : ∀ area, Tame s (u.configure pid area) := fun area =>
    ⟨⟨hf.tame.waitTid, hf.tame.waitAny, hf.tame.waitanyHash⟩, configure_hasProcess hp hf, hf.tame.ppid, hf.tame.deadList,
      hf.tame.index, hf.tame.nextPid⟩
  obtain rfl | ⟨area, rfl | ⟨ok, hv⟩⟩ := hend
  · exact hf.tame
  · exact hconf area
  · exact (hconf area).trans (launchProcess_frame hv).tame

theorem setresugid_tame {mode : ℤ} {rUid eUid sUid : ℕ}
    (hs : s.setresugid pid mode rUid eUid sUid = some (t, r)) : Tame s t := by
  obtain rfl | ⟨_, _, _, rfl⟩ := setresugid_cases hs
  · exact .refl t
  · exact .setProc rfl rfl rfl rfl

theorem sigsuspend_tame {mask : SigSet} (hs : s.sigsuspend pid mask = some (t, r)) : Tame s t := by
  obtain rfl | ⟨_, _, _, _, rfl⟩ := sigsuspend_cases hs
  · exact .refl t
  · exact .setProc rfl rfl rfl rfl

def State.dies (s : State) (sender : Tid) : Call → Option (ℕ × Bool)
  | .kill pid sig earlyReplyOk replyOk =>
    if s.killError (pidof sender) pid sig earlyReplyOk = none ∧ sig ≠ 0 ∧ (s.proc pid.toNat).fatal sig.toNat then
      some (pid.toNat, replyOk)
    else none
  | .exit _ replyOk => if isSystask (pidof sender) then none else some (pidof sender, replyOk)
  | .sigset 2 orBits andBits replyOk =>
    if State.fatalReleased (s.proc (pidof sender)) orBits andBits = [] then none else some (pidof sender, replyOk)
  | _ => none

def Call.isFamily : Call → Bool
  | .spawn .. | .fork _ | .wait .. => true
  | _ => false

theorem handle_cases {sender : Tid} {call : Call} (hcall : call.isFamily = false)
    (hok : orderlyDeath s (.call sender call)) (hs : s.handle sender call = some (t, r)) :
    Tame s t ∨ ∃ pid replyOk u v, s.dies sender call = some (pid, replyOk) ∧ s.hasProcess pid = true ∧
      Tame s u ∧ u.zombify pid replyOk = some v ∧ Tame v t := by
  cases call with
  | spawn load mem | fork env | wait id nohang => cases hcall
  | createThread => exact .inl (createThread_frame hs).tame
  | removeThread tid utcbAddr => exact .inl (removeThread_frame hs).tame
  | exec load => exact .inl (exec_tame hs)
  | sigsuspend mask => exact .inl (sigsuspend_tame hs)
  | setresugid mode rUid eUid sUid => exact .inl (setresugid_tame hs)
  | kill pid sig earlyReplyOk replyOk =>
    obtain rfl | ⟨herr, hsig, hsend⟩ := kill_cases hs
    · exact .inl (.refl t)
    cases hf : (s.proc pid.toNat).fatal sig.toNat with
    | false => exact .inl (sigSend_tame hsend hf)
    | true =>
      obtain ⟨u, htame, hz⟩ := sigSend_fatal hsend hf
      exact .inr ⟨pid.toNat, replyOk, u, t, if_pos ⟨herr, hsig, hf⟩, hasProcess_of_killError herr, htame, hz, .refl t⟩
  | exit status replyOk =>
    obtain ⟨-, hu⟩ | ⟨hsys, hp, hz⟩ := exit_cases hs
    · exact .inl (taskDtor_frame hu).1.tame
    · exact .inr ⟨pidof sender, replyOk, _, t, if_neg (by rw [hsys]; exact Bool.false_ne_true), hp, setRecord_tame .., hz, .refl t⟩
  | sigset setName orBits andBits replyOk =>
    obtain ⟨hp, rfl | hremove | ⟨_, _, rfl⟩ | ⟨rfl, hmask⟩ | ⟨_, _, _, rfl⟩⟩ := sigset_cases hs
    · exact .inl (.refl t)
    · exact .inl (sigRemoveHelper_tame hremove)
    · exact .inl (.setProc rfl rfl rfl rfl)
    · have hremask : Tame s (s.setProc (pidof sender) (State.remask (s.proc (pidof sender)) orBits andBits)) :=
        .setProc rfl rfl rfl rfl
      have hself : (s.setProc (pidof sender)
          (State.remask (s.proc (pidof sender)) orBits andBits)).proc (pidof sender) =
          State.remask (s.proc (pidof sender)) orBits andBits := Function.update_self ..
      rcases sigLoop_cases (by rw [hself]; exact hok.1) (setMask_cases hmask) with htame | ⟨hne, u, v, htame, hz, hrest⟩
      · exact .inl (hremask.trans htame)
      · rw [hself] at hne
        exact .inr ⟨_, replyOk, u, v, if_neg hne, hp, hremask.trans htame, hz, hrest⟩
    · exact .inl (.setProc rfl rfl rfl rfl)

/-- What the death of `pid` does: it is reaped or listed with its parent, which exists. -/
structure Died (pid : ℕ) (reaped : Bool) (s t : State) : Prop where
  parent : s.hasProcess (s.parentOf pid) = true
  process : ∀ q, t.hasProcess q = (s.hasProcess q && !(reaped && decide (q = pid)))
  ppid : ∀ q, (t.proc q).ppid = if q = pid then s.parentOf pid else (s.proc q).ppid
  deadList : ∀ q, (t.proc q).deadList =
    if reaped = false ∧ q = s.parentOf pid then (s.proc q).deadList ++ [pid] else (s.proc q).deadList
  index : t.pidToChild = if reaped then s.pidToChild.erase (s.parentOf pid, pid) else s.pidToChild
  nextPid : t.nextUserPid = s.nextUserPid
  waitTid : ∀ q, (t.proc q).waitTid = (s.proc q).waitTid
  waitAny : ∀ q, (t.proc q).waitAny = ((s.takeWaiter pid (s.parentOf pid)).proc q).waitAny
  waitanyHash : t.waitanyHash = (s.takeWaiter pid (s.parentOf pid)).waitanyHash

theorem layOut_index (h : s.layOut pid = some t) :
    t.pidToChild = s.pidToChild ∧ t.nextUserPid = s.nextUserPid := by
  simp only [State.layOut, Option.bind_eq_bind, Option.bind_eq_some_iff] at h
  obtain ⟨u, hu, v, hv, w, hw, ⟨x, dies⟩, hx, h⟩ := h
  cases h
  have hhelper : u.pidToChild = s.pidToChild ∧ u.nextUserPid = s.nextUserPid := by
    obtain ⟨-, rfl⟩ | hremove := dropHelper_cases hu
    · exact ⟨rfl, rfl⟩
    · have htame := sigRemoveHelper_tame hremove
      exact ⟨htame.index, htame.nextPid⟩
  have hreparent : w.pidToChild = v.pidToChild ∧ w.nextUserPid = v.nextUserPid := by
    obtain ⟨-, rfl⟩ | ⟨-, -, rfl⟩ := reparent_cases hw
    · exact ⟨rfl, rfl⟩
    · exact ⟨rfl, rfl⟩
  have hdtor := (taskDtor_frame hv).1.tame
  have hact := sigAct_tame hx
  rw [hact.index, hact.nextPid, hreparent.1, hreparent.2, hdtor.index, hdtor.nextPid]
  exact hhelper

theorem takeWaiter_congr (h : SameWaits s t) (pid parent : ℕ) :
    (t.takeWaiter pid parent).waitanyHash = (s.takeWaiter pid parent).waitanyHash ∧
      ∀ q, ((t.takeWaiter pid parent).proc q).waitAny = ((s.takeWaiter pid parent).proc q).waitAny := by
  have hothers : t.otherWaiters parent = s.otherWaiters parent := by
    simp only [State.otherWaiters, h.waitanyHash]
  simp only [State.takeWaiter, h.waitTid, h.waitAny, hothers]
  split
  · split
    · exact ⟨rfl, h.waitAny⟩
    · refine ⟨rfl, fun q => ?_⟩
      by_cases hq : q = parent
      · subst hq
        simp only [State.setProc, Function.update_self]
      · simpa only [State.setProc, Function.update_of_ne hq] using h.waitAny q
  · exact ⟨h.waitanyHash, h.waitAny⟩

theorem takeWaiter_waitTid (pid parent q : ℕ) :
    ((s.takeWaiter pid parent).proc q).waitTid = (s.proc q).waitTid := by
  simp only [State.takeWaiter]
  split
  · split
    · rfl
    · exact setProc_field (s := { s with waitanyHash := s.otherWaiters parent }) (·.waitTid) (by rfl) q
  · rfl

theorem takeWaiter_index (pid parent : ℕ) : (s.takeWaiter pid parent).pidToChild = s.pidToChild ∧
    (s.takeWaiter pid parent).nextUserPid = s.nextUserPid := by
  simp only [State.takeWaiter]
  split
  · split <;> exact ⟨rfl, rfl⟩
  · exact ⟨rfl, rfl⟩

theorem zombify_died {replyOk : Bool} (h : s.zombify pid replyOk = some t) :
    Died pid ((s.waiter pid (s.parentOf pid)).isSome && replyOk) s t := by
  simp only [State.zombify, Option.bind_eq_bind, Option.bind_eq_some_iff] at h
  obtain ⟨v, hv, h⟩ := h
  cases h
  obtain ⟨hlaid, hwaits⟩ := layOut_spec hv
  have hindex := layOut_index hv
  have hpar : (v.proc pid).ppid = s.parentOf pid := congrArg Core.ppid hlaid.self
  rw [hpar, hwaits.waiter_eq]
  obtain ⟨hcalm, -⟩ := takeWaiter_calm (s := v) pid (s.parentOf pid)
  obtain ⟨hhash, hany⟩ := takeWaiter_congr hwaits pid (s.parentOf pid)
  set w := (v.takeWaiter pid (s.parentOf pid)).broadcastExit pid with hw
  have hprocess : ∀ q, w.hasProcess q = s.hasProcess q := fun q => (hcalm.process q).trans (hlaid.process q)
  have hcore : ∀ q, (w.proc q).core = (v.proc q).core := hcalm.core
  have hppid : ∀ q, (w.proc q).ppid = if q = pid then s.parentOf pid else (s.proc q).ppid := by
    intro q
    refine (congrArg Core.ppid (hcore q)).trans ?_
    by_cases hq : q = pid
    · subst hq
      rw [if_pos rfl]
      exact hpar
    · rw [if_neg hq]
      exact congrArg Core.ppid (hlaid.core q hq)
  have hdead : ∀ q, (w.proc q).deadList = (s.proc q).deadList := by
    intro q
    refine (congrArg Core.deadList (hcore q)).trans ?_
    by_cases hq : q = pid
    · subst hq
      exact congrArg Core.deadList hlaid.self
    · exact congrArg Core.deadList (hlaid.core q hq)
  have hwidx : w.pidToChild = s.pidToChild := (takeWaiter_index pid _).1.trans hindex.1
  have hwnext : w.nextUserPid = s.nextUserPid := (takeWaiter_index pid _).2.trans hindex.2
  have hwtid : ∀ q, (w.proc q).waitTid = (s.proc q).waitTid :=
    fun q => (takeWaiter_waitTid pid _ q).trans (hwaits.waitTid q)
  simp only [State.bury]
  split
  · next hreap =>
    rw [hreap]
    refine ⟨hlaid.parent, fun q => ?_, hppid, fun q => ?_, ?_, hwnext, hwtid, hany, hhash⟩
    · rw [destroyProcess_hasProcess, hprocess]
      simp
    · rw [if_neg (by simp)]
      exact hdead q
    · rw [if_pos rfl, ← hwidx]
      simp only [State.destroyProcess]
      rw [hppid, if_pos rfl]
  · next hreap =>
    simp only [Bool.not_eq_true] at hreap
    rw [hreap]
    refine ⟨hlaid.parent, fun q => ?_, fun q => ?_, fun q => ?_, hwidx, hwnext, fun q => ?_,
      fun q => ?_, hhash⟩
    · rw [Bool.false_and, Bool.not_false, Bool.and_true]
      exact hprocess q
    · rw [← hppid]
      exact setProc_field (·.ppid) (by rfl) q
    · simp only [State.addDead, true_and]
      by_cases hq : q = s.parentOf pid
      · subst hq
        simp only [State.setProc, Function.update_self, if_true, hdead]
      · simp only [State.setProc, Function.update_of_ne hq, if_neg hq, hdead]
    · exact (setProc_field (·.waitTid) (by rfl) q).trans (hwtid q)
    · exact (setProc_field (·.waitAny) (by rfl) q).trans (hany q)

end Sneks.Root
