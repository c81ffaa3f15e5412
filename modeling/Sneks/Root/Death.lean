import Sneks.Root.Zombie

/-!
# Process death happens once

In every run in which no deadly signal strikes a process that is dead already,
nobody is reaped with unreaped zombies of its own, and nobody waits by PID for a
child that has lost its threads without dying, every process dies at most once
and is on the right list while it is a zombie.
-/

namespace Sneks.Root
open Lib

variable {s t u : State} {pid : ℕ} {r : Result}

-- The condition

/-- Would `sig_send` of `sig` call `zombify`? -/
def Process.fatal (p : Process) (sig : ℕ) : Bool := deadly sig && p.disposition sig = .default

def State.fatalReleased (p : Process) (orBits andBits : SigSet) : List ℕ :=
  (State.sigList (State.released p andBits &&& ~~~p.ignSet)).filter
    (State.remask p orBits andBits).fatal

def State.confirmsClean (s : State) : Prop :=
  ∀ c ∈ s.confirm, (s.proc c.dead).deadList = []

instance (s : State) : Decidable s.confirmsClean := inferInstanceAs (Decidable (∀ c ∈ _, _))

def orderlyDeath (s : State) : Step → Prop
  | .call sender (.kill pid sig earlyReplyOk replyOk) =>
    s.killError (pidof sender) pid sig earlyReplyOk = none → sig ≠ 0 →
      (s.proc pid.toNat).fatal sig.toNat = true →
      ¬ s.Zombie pid.toNat ∧ s.reapsClean pid.toNat replyOk
  | .call sender (.exit _ replyOk) => s.reapsClean (pidof sender) replyOk
  | .call sender (.sigset 2 orBits andBits replyOk) =>
    (State.fatalReleased (s.proc (pidof sender)) orBits andBits).length ≤ 1 ∧
      (State.fatalReleased (s.proc (pidof sender)) orBits andBits ≠ [] →
        s.reapsClean (pidof sender) replyOk)
  | .call sender (.wait (.pid child) _) =>
    s.hasProcess child = true → (s.proc child).ppid = pidof sender →
      (s.task child).threads = [] → s.Zombie child
  | .call _ (.spawn ..) => s.confirmsClean
  | .confirm => s.confirmsClean
  | _ => True

instance (s : State) (step : Step) : Decidable (orderlyDeath s step) := by
  unfold orderlyDeath; split <;> infer_instance

-- Steps that kill or reap

theorem Still.reapsClean {replyOk : Bool} (h : Still s t) (hs : s.reapsClean pid replyOk) :
    t.reapsClean pid replyOk :=
  State.reapsClean_congr h.toSameWaits h.process (congrArg Core.ppid (h.core pid))
    (congrArg Core.deadList (h.core pid)) hs

theorem Inv.setLiving {p : Process} (h : Inv s) (halive : ¬ s.Zombie pid)
    (hdead : p.deadList = (s.proc pid).deadList) (hinc : p.inc = (s.proc pid).inc) :
    Inv (s.setProc pid p) := by
  have hincs : ∀ q, ((s.setProc pid p).proc q).inc = (s.proc q).inc := setProc_field (·.inc) hinc
  have hdeads : ∀ q, ((s.setProc pid p).proc q).deadList = (s.proc q).deadList :=
    setProc_field (·.deadList) hdead
  have hz : ∀ q, (s.setProc pid p).Zombie q ↔ s.Zombie q := by
    intro q
    simp only [State.Zombie, hincs]
    rfl
  -- a zombie is not the process that changes
  have hsame : ∀ q, s.Zombie q → (s.setProc pid p).proc q = s.proc q := by
    intro q hq
    have hne : q ≠ pid := by
      rintro rfl
      exact halive hq
    simp only [State.setProc, Function.update_of_ne hne]
  constructor
  case allocated => exact h.allocated
  case inc_lt =>
    intro q hq
    rw [hincs]
    exact h.inc_lt q hq
  case inc_inj =>
    intro p q hp hq
    rw [hincs, hincs]
    exact h.inc_inj p q hp hq
  case log_lt => exact h.log_lt
  case zombified => exact h.zombified
  case announced => exact h.announced
  case listed =>
    intro q hq
    rw [hz] at hq
    rw [hsame q hq, hdeads]
    exact h.listed q hq
  case members =>
    intro q p hq hm
    rw [hdeads] at hm
    obtain ⟨hzp, hpar⟩ := h.members q p hq hm
    exact ⟨(hz p).mpr hzp, by rw [hsame p hzp, hpar]⟩
  case nodup =>
    intro q hq
    rw [hdeads]
    exact h.nodup q hq
  case threads => exact fun q hq => h.threads q ((hz q).mp hq)
  case record =>
    intro q hq
    rw [hz] at hq
    rw [hsame q hq]
    exact h.record q hq
  case confirm =>
    intro c hc
    rw [hdeads]
    exact h.confirm c hc

theorem Inv.die {replyOk : Bool} {signo status code : ℤ} (h : Inv s)
    (hp : s.hasProcess pid = true) (halive : ¬ s.Zombie pid) (hclean : s.reapsClean pid replyOk)
    (hs : (s.setRecord pid signo status code).zombify pid replyOk = some t) : Inv t := by
  have hinv : Inv (s.setRecord pid signo status code) := h.setLiving halive rfl rfl
  refine hinv.zombify hp ?_ ?_ hs
  · simpa [State.Zombie, State.setRecord, State.setProc, State.hasProcess] using halive
  · have hwaits : SameWaits s (s.setRecord pid signo status code) :=
      ⟨setProc_field (·.waitTid) (by rfl), setProc_field (·.waitAny) (by rfl), rfl⟩
    refine State.reapsClean_congr (s := s) hwaits (fun _ => rfl) ?_ ?_ hclean
    · exact setProc_field (·.ppid) (by rfl) pid
    · exact setProc_field (·.deadList) (by rfl) pid

theorem sigSend_still {sig : ℕ} {self replyOk : Bool} (h : s.sigSend pid sig self replyOk = some t)
    (hf : (s.proc pid).fatal sig = false) : Still s t := by
  simp only [State.sigSend, Option.bind_eq_bind, Option.bind_eq_some_iff] at h
  obtain ⟨⟨u, dies⟩, hu, h⟩ := h
  rcases sigAct_spec hu with ⟨rfl, hstill⟩ | ⟨rfl, hdeadly, hdfl, -⟩
  · cases h
    exact hstill
  · simp [Process.fatal, hdeadly, hdfl] at hf

theorem Inv.sigSend {sig : ℕ} {self replyOk : Bool} (h : Inv s) (hp : s.hasProcess pid = true)
    (hok : (s.proc pid).fatal sig = true → ¬ s.Zombie pid ∧ s.reapsClean pid replyOk)
    (hs : s.sigSend pid sig self replyOk = some t) : Inv t := by
  simp only [State.sigSend, Option.bind_eq_bind, Option.bind_eq_some_iff] at hs
  obtain ⟨⟨u, dies⟩, hu, hs⟩ := hs
  rcases sigAct_spec hu with ⟨rfl, hstill⟩ | ⟨rfl, hdeadly, hdfl, rfl⟩
  · cases hs
    exact h.calm hstill.toCalm
  · obtain ⟨halive, hclean⟩ := hok (by simp [Process.fatal, hdeadly, hdfl])
    exact h.die hp halive hclean hs

theorem sigSend_quiet {sig : ℕ} {self replyOk : Bool} (h : s.sigSend pid sig self replyOk = some t)
    (q sig' : ℕ) (hd : (t.proc q).fatal sig' = true) : (s.proc q).fatal sig' = true := by
  simp only [State.sigSend, Option.bind_eq_bind, Option.bind_eq_some_iff] at h
  obtain ⟨⟨u, dies⟩, hu, h⟩ := h
  simp only [Process.fatal, Bool.and_eq_true, decide_eq_true_eq] at hd ⊢
  refine ⟨hd.1, ?_⟩
  rcases sigAct_spec hu with ⟨rfl, hstill⟩ | ⟨rfl, -, -, rfl⟩
  · cases h
    exact hstill.quiet q sig' hd.2
  · have hdfl := zombify_quiet h q sig' hd.2
    exact (setProc_field (·.disposition sig') (by rfl) q).symm.trans hdfl

theorem Inv.sigLoop_calm {sigs : List ℕ} {replyOk : Bool} (h : Inv s)
    (hf : ∀ sig ∈ sigs, (s.proc pid).fatal sig = false)
    (hs : sigs.foldlM (fun s sig => s.sigSend pid sig true replyOk) s = some t) : Inv t := by
  induction sigs generalizing s with
  | nil =>
    simp only [List.foldlM_nil, Option.pure_def, Option.some.injEq] at hs
    exact hs ▸ h
  | cons sig sigs ih =>
    simp only [List.foldlM_cons, Option.bind_eq_bind, Option.bind_eq_some_iff] at hs
    obtain ⟨u, hu, hs⟩ := hs
    have hstill := sigSend_still hu (hf sig (by simp))
    refine ih (h.calm hstill.toCalm) (fun sig' hm => ?_) hs
    have hf' := hf sig' (by simp [hm])
    cases hfat : (u.proc pid).fatal sig' with
    | false => rfl
    | true => exact absurd (sigSend_quiet hu pid sig' hfat) (by simp [hf'])

theorem Inv.sigLoop {sigs : List ℕ} {replyOk : Bool} (h : Inv s) (hp : s.hasProcess pid = true)
    (halive : ¬ s.Zombie pid) (hone : (sigs.filter (s.proc pid).fatal).length ≤ 1)
    (hclean : sigs.filter (s.proc pid).fatal ≠ [] → s.reapsClean pid replyOk)
    (hs : sigs.foldlM (fun s sig => s.sigSend pid sig true replyOk) s = some t) : Inv t := by
  induction sigs generalizing s with
  | nil =>
    simp only [List.foldlM_nil, Option.pure_def, Option.some.injEq] at hs
    exact hs ▸ h
  | cons sig sigs ih =>
    simp only [List.foldlM_cons, Option.bind_eq_bind, Option.bind_eq_some_iff] at hs
    obtain ⟨u, hu, hs⟩ := hs
    cases hf : (s.proc pid).fatal sig with
    | true =>
      -- the fatal one: what is left of the list is harmless
      simp only [List.filter_cons, hf, if_true] at hone hclean
      have hinv := h.sigSend hp (fun _ => ⟨halive, hclean (by simp)⟩) hu
      refine hinv.sigLoop_calm (fun sig' hm => ?_) hs
      cases hfat : (u.proc pid).fatal sig' with
      | false => rfl
      | true =>
        have hnil : sigs.filter (s.proc pid).fatal = [] := by
          rw [← List.length_eq_zero_iff]
          simpa using hone
        exact absurd (List.mem_filter.mpr ⟨hm, sigSend_quiet hu pid sig' hfat⟩) (by simp [hnil])
    | false =>
      have hstill := sigSend_still hu hf
      simp only [List.filter_cons, hf, Bool.false_eq_true, if_false] at hone hclean
      have hsub : (sigs.filter (u.proc pid).fatal).Sublist (sigs.filter (s.proc pid).fatal) :=
        List.monotone_filter_right _ fun sig' => sigSend_quiet hu pid sig'
      refine ih (h.calm hstill.toCalm) (by rw [hstill.process, hp]) ?_
        (Nat.le_trans hsub.length_le hone) (fun hne => hstill.reapsClean (hclean ?_)) hs
      · rwa [hstill.zombie]
      · intro hnil
        rw [hnil] at hsub
        exact hne (List.sublist_nil.mp hsub)

/-- The state with `dead` taken off the list of `self`, and no confirm handler left. -/
def State.unlist (s : State) (c : Confirm) : State :=
  ({ s with confirm := none } : State).setProc c.self
    { s.proc c.self with deadList := (s.proc c.self).deadList.erase c.dead }

theorem unlist_field {α : Type*} (f : Process → α) {c : Confirm}
    (hf : ∀ l, f { s.proc c.self with deadList := l } = f (s.proc c.self)) (q : ℕ) :
    f ((s.unlist c).proc q) = f (s.proc q) :=
  setProc_field (s := { s with confirm := none }) f (hf _) q

theorem Inv.unlist {c : Confirm} (h : Inv s) (hc : s.confirm = some c) :
    Unburied c.dead (s.unlist c) := by
  obtain ⟨hself, hmem⟩ := h.confirm c hc
  obtain ⟨hzdead, hpdead⟩ := h.members _ _ hself hmem
  have hinc := unlist_field (s := s) (c := c) (·.inc) fun _ => rfl
  have hppid := unlist_field (s := s) (c := c) (·.ppid) fun _ => rfl
  have hdead : ∀ q, ((s.unlist c).proc q).deadList =
      if q = c.self then (s.proc q).deadList.erase c.dead else (s.proc q).deadList := by
    intro q
    split
    · next hq =>
      subst hq
      simp only [State.unlist, State.setProc, Function.update_self]
    · next hq => simp only [State.unlist, State.setProc, Function.update_of_ne hq]
  have hsub : ∀ q p, p ∈ ((s.unlist c).proc q).deadList → p ∈ (s.proc q).deadList := by
    intro q p hm
    rw [hdead] at hm
    split at hm
    · exact List.mem_of_mem_erase hm
    · exact hm
  have hz : ∀ q, (s.unlist c).Zombie q ↔ s.Zombie q := by
    intro q
    simp only [State.Zombie, hinc]
    rfl
  constructor
  case allocated => exact h.allocated
  case inc_lt =>
    intro q hq
    rw [hinc]
    exact h.inc_lt q hq
  case inc_inj =>
    intro p q hp hq
    rw [hinc, hinc]
    exact h.inc_inj p q hp hq
  case log_lt => exact h.log_lt
  case zombified => exact h.zombified
  case announced => exact h.announced
  case zombie => exact (hz _).mpr hzdead
  case parent =>
    rw [hppid, hpdead]
    exact hself
  case listed =>
    intro q hne hq
    obtain ⟨hp, hm⟩ := h.listed q ((hz q).mp hq)
    rw [hppid]
    refine ⟨hp, ?_⟩
    rw [hdead]
    split
    · exact (List.mem_erase_of_ne hne).mpr hm
    · exact hm
  case members =>
    intro q p hq hm
    obtain ⟨hzp, hpar⟩ := h.members q p hq (hsub q p hm)
    refine ⟨?_, (hz p).mpr hzp, (hppid p).trans hpar⟩
    rintro rfl
    -- it is on one list only, and has just been taken off that one
    have hq' : q = c.self := hpar.symm.trans hpdead
    rw [hdead, if_pos hq'] at hm
    exact (h.nodup q hq).not_mem_erase hm
  case nodup =>
    intro q hq
    rw [hdead]
    split
    · exact (h.nodup q hq).erase _
    · exact h.nodup q hq
  case threads => exact fun q hq => h.threads q ((hz q).mp hq)
  case record =>
    intro q hq
    have hsigno := unlist_field (s := s) (c := c) (·.signo) (fun _ => rfl) q
    have hstatus := unlist_field (s := s) (c := c) (·.status) (fun _ => rfl) q
    have hcode := unlist_field (s := s) (c := c) (·.code) (fun _ => rfl) q
    rw [hinc, hsigno, hstatus, hcode]
    exact h.record q ((hz q).mp hq)
  case confirm => rintro _ ⟨⟩

theorem Inv.syncConfirm (h : Inv s) (hclean : s.confirmsClean) (hs : s.syncConfirm = some t) :
    Inv t := by
  rcases syncConfirm_spec hs with ⟨-, rfl⟩ | ⟨c, hc, hmem, rfl⟩
  · exact h
  · refine (h.unlist hc).reap ?_
    have hnil := hclean c hc
    by_cases hself : c.dead = c.self
    · rw [← hself, hnil] at hmem
      cases hmem
    · simpa only [State.unlist, State.setProc, Function.update_of_ne hself] using hnil

-- Births

structure Unborn (pid : ℕ) (s : State) : Prop where
  allocated : s.allocated pid = true
  process : s.hasProcess pid = false
  empty : (s.proc pid).deadList = []
  inc_lt : (s.proc pid).inc < s.nextInc
  inc_ne : ∀ q, s.hasProcess q = true → (s.proc q).inc ≠ (s.proc pid).inc
  unlogged : .zombify (s.proc pid).inc ∉ s.log

theorem Inv.setAbsent {p : Process} (h : Inv s) (hp : s.hasProcess pid = false) :
    Inv (s.setProc pid p) := by
  have hsame : ∀ q, s.hasProcess q = true → (s.setProc pid p).proc q = s.proc q := by
    intro q hq
    have hne : q ≠ pid := by
      rintro rfl
      simp [hp] at hq
    simp only [State.setProc, Function.update_of_ne hne]
  have hz : ∀ q, (s.setProc pid p).Zombie q ↔ s.Zombie q := by
    intro q
    change s.hasProcess q = true ∧ _ ↔ s.hasProcess q = true ∧ _
    exact and_congr_right fun hq => by rw [hsame q hq]; rfl
  constructor
  case allocated => exact h.allocated
  case inc_lt =>
    intro q hq
    rw [hsame q hq]
    exact h.inc_lt q hq
  case inc_inj =>
    intro p q hp hq
    rw [hsame p hp, hsame q hq]
    exact h.inc_inj p q hp hq
  case log_lt => exact h.log_lt
  case zombified => exact h.zombified
  case announced => exact h.announced
  case listed =>
    intro q hq
    rw [hz] at hq
    obtain ⟨hpar, hm⟩ := h.listed q hq
    rw [hsame q hq.1, hsame _ hpar]
    exact ⟨hpar, hm⟩
  case members =>
    intro q p hq hm
    rw [hsame q hq] at hm
    obtain ⟨hzp, hpar⟩ := h.members q p hq hm
    exact ⟨(hz p).mpr hzp, by rw [hsame p hzp.1, hpar]⟩
  case nodup =>
    intro q hq
    rw [hsame q hq]
    exact h.nodup q hq
  case threads => exact fun q hq => h.threads q ((hz q).mp hq)
  case record =>
    intro q hq
    rw [hz] at hq
    rw [hsame q hq.1]
    exact h.record q hq
  case confirm =>
    intro c hc
    obtain ⟨hself, hm⟩ := h.confirm c hc
    rw [hsame _ hself]
    exact ⟨hself, hm⟩

theorem Inv.allocProcess {mem : Process} {n : ℕ} {got : Option ℕ} (h : Inv s)
    (hs : s.allocProcess mem n = some (t, got)) :
    Inv t ∧ (s.confirmsClean → t.confirmsClean) ∧ ∀ pid, got = some pid → Unborn pid t := by
  rcases allocProcess_spec hs with ⟨next, -, rfl, rfl⟩ | ⟨next, -, pid, -, rfl, hfree, -, rfl⟩
  · exact ⟨h.calm ⟨fun _ => rfl, fun _ => rfl, rfl, rfl, rfl, rfl, fun _ hn => hn⟩, id, nofun⟩
  · have habsent : s.hasProcess pid = false := by
      cases hp : s.hasProcess pid with
      | false => rfl
      | true => simp [h.allocated pid hp] at hfree
    have hset := h.setAbsent (p := processCtor mem s.nextInc) habsent
    have hinc : ∀ q, s.hasProcess q = true →
        (Function.update s.proc pid (processCtor mem s.nextInc) q).inc < s.nextInc := hset.inc_lt
    refine ⟨?_, fun hclean c hc => ?_, ?_⟩
    · exact
        { allocated := by
            intro q hq
            have hne : q ≠ pid := by
              rintro rfl
              exact absurd (habsent.symm.trans hq) (by simp)
            simpa only [Function.update_of_ne hne] using h.allocated q hq
          inc_lt := fun q hq => Nat.lt_succ_of_lt (hset.inc_lt q hq)
          inc_inj := hset.inc_inj
          log_lt := fun e he => Nat.lt_succ_of_lt (hset.log_lt e he)
          zombified := hset.zombified
          announced := hset.announced
          listed := hset.listed
          members := hset.members
          nodup := hset.nodup
          threads := hset.threads
          record := hset.record
          confirm := hset.confirm }
    · change (Function.update s.proc pid (processCtor mem s.nextInc) c.dead).deadList = []
      by_cases hd : c.dead = pid
      · rw [hd, Function.update_self]
        rfl
      · rw [Function.update_of_ne hd]
        exact hclean c hc
    · rintro _ ⟨⟩
      have hdead : (Function.update s.proc pid (processCtor mem s.nextInc) pid).deadList = [] := by
        rw [Function.update_self]
        rfl
      have hnew : (Function.update s.proc pid (processCtor mem s.nextInc) pid).inc = s.nextInc := by
        rw [Function.update_self]
        rfl
      refine ⟨Function.update_self .., habsent, hdead, ?_, fun q hq => ?_, ?_⟩
      · rw [hnew]
        exact Nat.lt_succ_self _
      · rw [hnew]
        exact Nat.ne_of_lt (hinc q hq)
      · rw [hnew]
        exact fun hm => Nat.lt_irrefl _ (h.log_lt _ hm)

theorem Inv.appear {r : Task} (h : Inv s) (hu : Unborn pid s) (hr : r.threads = []) :
    Inv (s.setTask pid r) ∧ ¬ (s.setTask pid r).Zombie pid := by
  have hother : ∀ q, q ≠ pid → (s.setTask pid r).hasProcess q = s.hasProcess q := by
    intro q hq
    simp only [State.hasProcess, State.setTask, Function.update_of_ne hq]
  have halive : ¬ (s.setTask pid r).Zombie pid := fun hz => hu.unlogged hz.2
  have hz : ∀ q, (s.setTask pid r).Zombie q ↔ s.Zombie q := by
    intro q
    by_cases hq : q = pid
    · subst hq
      exact iff_of_false halive fun hz => absurd (hu.process.symm.trans hz.1) (by simp)
    · change (s.setTask pid r).hasProcess q = true ∧ _ ↔ s.hasProcess q = true ∧ _
      rw [hother q hq]
      rfl
  have hup : ∀ q, s.hasProcess q = true → (s.setTask pid r).hasProcess q = true := by
    intro q hq
    by_cases hqp : q = pid
    · subst hqp
      simp [hu.process] at hq
    · rwa [hother q hqp]
  refine ⟨?_, halive⟩
  constructor
  case allocated =>
    intro q hq
    by_cases hqp : q = pid
    · subst hqp
      exact hu.allocated
    · exact h.allocated q (by rwa [hother q hqp] at hq)
  case inc_lt =>
    intro q hq
    by_cases hqp : q = pid
    · subst hqp
      exact hu.inc_lt
    · exact h.inc_lt q (by rwa [hother q hqp] at hq)
  case inc_inj =>
    intro p q hp hq he
    by_cases hpp : p = pid
    · by_cases hqp : q = pid
      · rw [hpp, hqp]
      · rw [hother q hqp] at hq
        subst hpp
        exact absurd he.symm (hu.inc_ne q hq)
    · rw [hother p hpp] at hp
      by_cases hqp : q = pid
      · subst hqp
        exact absurd he (hu.inc_ne p hp)
      · exact h.inc_inj p q hp (by rwa [hother q hqp] at hq) he
  case log_lt => exact h.log_lt
  case zombified => exact h.zombified
  case announced => exact h.announced
  case listed =>
    intro q hq
    obtain ⟨hp, hm⟩ := h.listed q ((hz q).mp hq)
    exact ⟨hup _ hp, hm⟩
  case members =>
    intro q p hq hm
    have hqp : q ≠ pid := by
      rintro rfl
      have hm' : p ∈ (s.proc q).deadList := hm
      rw [hu.empty] at hm'
      cases hm'
    obtain ⟨hzp, hpar⟩ := h.members q p (by rwa [hother q hqp] at hq) hm
    exact ⟨(hz p).mpr hzp, hpar⟩
  case nodup =>
    intro q hq
    by_cases hqp : q = pid
    · subst hqp
      change (s.proc q).deadList.Nodup
      rw [hu.empty]
      exact List.nodup_nil
    · exact h.nodup q (by rwa [hother q hqp] at hq)
  case threads =>
    intro q hq
    by_cases hqp : q = pid
    · subst hqp
      simpa only [State.setTask, Function.update_self] using hr
    · simpa only [State.setTask, Function.update_of_ne hqp] using h.threads q ((hz q).mp hq)
  case record => exact fun q hq => h.record q ((hz q).mp hq)
  case confirm =>
    intro c hc
    obtain ⟨hself, hm⟩ := h.confirm c hc
    exact ⟨hup _ hself, hm⟩

def State.Childless (s : State) (pid : ℕ) : Prop := ¬ s.Zombie pid ∧ (s.proc pid).deadList = []

theorem Inv.abandon (h : Inv s) (hc : s.Childless pid) : Inv (s.abandon pid) := by
  have hproc : ∀ q, (s.abandon pid).hasProcess q = true ↔ s.hasProcess q = true ∧ q ≠ pid := by
    intro q
    by_cases hq : q = pid
    · subst hq
      simp [State.abandon, State.hasProcess, State.setTask]
    · simp [State.abandon, State.hasProcess, State.setTask, hq]
  have hz : ∀ q, (s.abandon pid).Zombie q ↔ s.Zombie q := by
    intro q
    simp only [State.Zombie, hproc]
    refine ⟨fun hq => ⟨hq.1.1, hq.2⟩, fun hq => ⟨⟨hq.1, ?_⟩, hq.2⟩⟩
    rintro rfl
    exact hc.1 hq
  have hkeep : ∀ q p, p ∈ (s.proc q).deadList → q ≠ pid := by
    rintro q p hm rfl
    rw [hc.2] at hm
    cases hm
  constructor
  case allocated =>
    intro q hq
    rw [hproc] at hq
    simpa [State.abandon, Function.update_of_ne hq.2] using h.allocated q hq.1
  case inc_lt => exact fun q hq => h.inc_lt q ((hproc q).mp hq).1
  case inc_inj => exact fun p q hp hq => h.inc_inj p q ((hproc p).mp hp).1 ((hproc q).mp hq).1
  case log_lt => exact h.log_lt
  case zombified => exact h.zombified
  case announced => exact h.announced
  case listed =>
    intro q hq
    obtain ⟨hpar, hm⟩ := h.listed q ((hz q).mp hq)
    exact ⟨(hproc _).mpr ⟨hpar, hkeep _ _ hm⟩, hm⟩
  case members =>
    intro q p hq hm
    obtain ⟨hzp, hpar⟩ := h.members q p ((hproc q).mp hq).1 hm
    exact ⟨(hz p).mpr hzp, hpar⟩
  case nodup => exact fun q hq => h.nodup q ((hproc q).mp hq).1
  case threads =>
    intro q hq
    have hne : q ≠ pid := by
      rintro rfl
      exact hc.1 ((hz q).mp hq)
    simpa [State.abandon, State.setTask, Function.update_of_ne hne] using h.threads q ((hz q).mp hq)
  case record => exact fun q hq => h.record q ((hz q).mp hq)
  case confirm =>
    intro c hc
    obtain ⟨hself, hm⟩ := h.confirm c hc
    exact ⟨(hproc _).mpr ⟨hself, hkeep _ _ hm⟩, hm⟩

theorem syncConfirm_others (h : Inv s) (hs : s.syncConfirm = some t) :
    (∀ q, t.hasProcess q = true → s.hasProcess q = true) ∧
    (∀ q, s.hasProcess q = false → t.allocated q = s.allocated q) ∧
    (∀ q, (t.proc q).inc = (s.proc q).inc) ∧
    (∀ q, (s.proc q).deadList = [] → (t.proc q).deadList = []) ∧
    t.log = s.log ∧ t.nextInc = s.nextInc := by
  rcases syncConfirm_spec hs with ⟨-, rfl⟩ | ⟨c, hc, hmem, rfl⟩
  · exact ⟨fun _ hq => hq, fun _ _ => rfl, fun _ => rfl, fun _ hq => hq, rfl, rfl⟩
  · have hzdead := (h.members _ _ (h.confirm c hc).1 hmem).1
    refine ⟨fun q hq => ?_, fun q hq => ?_, unlist_field (·.inc) fun _ => rfl, fun q hq => ?_, rfl, rfl⟩
    · rw [destroyProcess_hasProcess, Bool.and_eq_true] at hq
      exact hq.1
    · have hne : q ≠ c.dead := by
        rintro rfl
        simp [hzdead.1] at hq
      simp only [State.destroyProcess, State.setProc, State.setTask, Function.update_of_ne hne]
    · change ((s.unlist c).proc q).deadList = []
      by_cases hqs : q = c.self
      · subst hqs
        simp only [State.unlist, State.setProc, Function.update_self, hq, List.erase_nil]
      · simpa only [State.unlist, State.setProc, Function.update_of_ne hqs] using hq

theorem Unborn.syncConfirm (hu : Unborn pid s) (h : Inv s) (hs : s.syncConfirm = some t) :
    Unborn pid t := by
  obtain ⟨hproc, halloc, hinc, hdead, hlog, hnext⟩ := syncConfirm_others h hs
  refine ⟨?_, ?_, hdead pid hu.empty, ?_, fun q hq => ?_, ?_⟩
  · rw [halloc pid hu.process, hu.allocated]
  · cases hp : t.hasProcess pid with
    | false => rfl
    | true => exact absurd (hu.process.symm.trans (hproc pid hp)) (by simp)
  · rw [hinc, hnext]
    exact hu.inc_lt
  · rw [hinc, hinc]
    exact hu.inc_ne q (hproc q hq)
  · rw [hinc, hlog]
    exact hu.unlogged

theorem State.Childless.syncConfirm (hc : s.Childless pid) (h : Inv s)
    (hs : s.syncConfirm = some t) : t.Childless pid := by
  obtain ⟨hproc, -, hinc, hdead, hlog, -⟩ := syncConfirm_others h hs
  refine ⟨fun hz => hc.1 ⟨hproc pid hz.1, ?_⟩, hdead pid hc.2⟩
  have hm := hz.2
  rwa [hinc, hlog] at hm

theorem Inv.threadsOf (h : Inv s) (halive : ¬ s.Zombie pid) (hf : SameButThreads pid s t) :
    Inv t := by
  have hz : ∀ q, t.Zombie q ↔ s.Zombie q := by
    intro q
    simp only [State.Zombie, hf.hasProcess_eq, hf.proc_eq, hf.log_eq]
  constructor
  case allocated => simpa only [hf.hasProcess_eq, hf.allocated_eq] using h.allocated
  case inc_lt => simpa only [hf.hasProcess_eq, hf.proc_eq, hf.nextInc_eq] using h.inc_lt
  case inc_inj => simpa only [hf.hasProcess_eq, hf.proc_eq] using h.inc_inj
  case log_lt => simpa only [hf.log_eq, hf.nextInc_eq] using h.log_lt
  case zombified => simpa only [hf.log_eq] using h.zombified
  case announced => simpa only [hf.log_eq] using h.announced
  case listed => simpa only [hz, hf.hasProcess_eq, hf.proc_eq] using h.listed
  case members => simpa only [hz, hf.hasProcess_eq, hf.proc_eq] using h.members
  case nodup => simpa only [hf.hasProcess_eq, hf.proc_eq] using h.nodup
  case threads =>
    intro q hq
    rw [hz] at hq
    have hne : q ≠ pid := by
      rintro rfl
      exact halive hq
    rw [hf.others q hne]
    exact h.threads q hq
  case record => simpa only [hz, hf.proc_eq, hf.log_eq] using h.record
  case confirm => simpa only [hf.confirm_eq, hf.hasProcess_eq, hf.proc_eq] using h.confirm

theorem syncConfirm_confirm (hs : s.syncConfirm = some t) : t.confirm = none := by
  rcases syncConfirm_spec hs with ⟨hc, rfl⟩ | ⟨c, -, -, rfl⟩
  · exact hc
  · rfl

theorem Unborn.setProc {p : Process} (hu : Unborn pid s)
    (hdead : p.deadList = (s.proc pid).deadList) (hinc : p.inc = (s.proc pid).inc) :
    Unborn pid (s.setProc pid p) := by
  have hincs : ∀ q, ((s.setProc pid p).proc q).inc = (s.proc q).inc := setProc_field (·.inc) hinc
  refine ⟨hu.allocated, hu.process, ?_, ?_, fun q hq => ?_, ?_⟩
  · exact (setProc_field (·.deadList) hdead pid).trans hu.empty
  · rw [hincs]
    exact hu.inc_lt
  · rw [hincs, hincs]
    exact hu.inc_ne q hq
  · rw [hincs]
    exact hu.unlogged

theorem Inv.spawnIdentity {caller : ℕ} {ok : Bool} (h : Inv s) (hu : Unborn pid s)
    (hclean : s.confirmsClean) (hs : s.spawnIdentity caller pid = some (t, ok)) :
    Inv t ∧ Unborn pid t ∧ t.confirmsClean := by
  simp only [State.spawnIdentity] at hs
  split at hs
  · cases hs
    refine ⟨h.setAbsent hu.process, hu.setProc rfl rfl, fun c hc => ?_⟩
    exact (setProc_field (·.deadList) (by rfl) c.dead).trans (hclean c hc)
  · simp only [Option.bind_eq_bind, Option.bind_eq_some_iff] at hs
    obtain ⟨u, hsync, hs⟩ := hs
    have hinv := h.syncConfirm hclean hsync
    have hunborn := hu.syncConfirm h hsync
    have hnone := syncConfirm_confirm hsync
    split at hs
    · cases hs
      refine ⟨hinv.setAbsent hunborn.process, hunborn.setProc rfl rfl, fun c hc => ?_⟩
      exact absurd (hnone.symm.trans hc) (by simp)
    · cases hs
      exact ⟨hinv, hunborn, fun c hc => absurd (hnone.symm.trans hc) (by simp)⟩

theorem Unborn.childless (hu : Unborn pid s) : s.Childless pid :=
  ⟨fun hz => absurd (hu.process.symm.trans hz.1) (by simp), hu.empty⟩

theorem Inv.spawnLaunch {area : Fpage} (h : Inv s) (hu : Unborn pid s) (hclean : s.confirmsClean)
    (hs : s.spawnLaunch pid area = some (t, r)) : Inv t := by
  simp only [State.spawnLaunch, Option.bind_eq_bind, Option.bind_eq_some_iff] at hs
  obtain ⟨u, hsync, ⟨v, ok⟩, hlaunch, hs⟩ := hs
  obtain ⟨hborn, halive⟩ := h.appear (r := ⟨some area, some (allocUtcbBitmap area), []⟩) hu rfl
  have hchildless : (s.configure pid area).Childless pid := ⟨halive, hu.empty⟩
  have hu := hborn.syncConfirm hclean hsync
  have hchildless := hchildless.syncConfirm hborn hsync
  have hframe := launchProcess_frame hlaunch
  have hinv := hu.threadsOf hchildless.1 hframe
  cases ok with
  | true =>
    cases hs
    exact hinv
  | false =>
    cases hs
    refine hinv.abandon ⟨fun hz => hchildless.1 ?_, by rw [hframe.proc_eq]; exact hchildless.2⟩
    simpa only [State.Zombie, hframe.hasProcess_eq, hframe.proc_eq, hframe.log_eq] using hz

theorem Inv.spawn {caller : ℕ} {load : Load} {mem : Process} (h : Inv s) (hclean : s.confirmsClean)
    (hs : s.spawn caller load mem = some (t, r)) : Inv t := by
  simp only [State.spawn] at hs
  split at hs
  · cases hs
    exact h
  · simp only [Option.bind_eq_bind, Option.bind_eq_some_iff] at hs
    obtain ⟨⟨u, got⟩, halloc, hs⟩ := hs
    obtain ⟨hinv, hcleanu, hunborn⟩ := h.allocProcess halloc
    cases got with
    | none =>
      cases hs
      exact hinv
    | some pid =>
      simp only [State.spawnInto, Option.bind_eq_bind, Option.bind_eq_some_iff] at hs
      obtain ⟨⟨v, ok⟩, hident, hs⟩ := hs
      obtain ⟨hinv, hunborn, hclean⟩ := hinv.spawnIdentity (hunborn pid rfl) (hcleanu hclean) hident
      cases ok with
      | false =>
        cases hs
        exact hinv.abandon hunborn.childless
      | true =>
        cases load with
        | loaded area => exact hinv.spawnLaunch hunborn hclean hs
        | _ =>
          cases hs
          exact hinv.abandon hunborn.childless

theorem Inv.fork {env : ForkEnv} (h : Inv s) (hs : s.fork pid env = some (t, r)) : Inv t := by
  simp only [State.fork] at hs
  split at hs
  · cases hs
    exact h
  split at hs
  · cases hs
  simp only [Option.bind_eq_bind, Option.bind_eq_some_iff] at hs
  obtain ⟨⟨u, got⟩, halloc, hs⟩ := hs
  obtain ⟨hinv, -, hunborn⟩ := h.allocProcess halloc
  cases got with
  | none =>
    cases hs
    exact hinv
  | some newpid =>
    simp only [State.forkInto] at hs
    obtain ⟨hborn, halive⟩ := hinv.appear (hunborn newpid rfl) (r := ⟨(u.task pid).utcbArea,
      if env.bitmapOk then (u.task pid).utcbArea.map allocUtcbBitmap else none, []⟩) rfl
    split at hs
    · cases hs
      exact hborn
    have hrec := hborn.setLiving halive (p := State.forkRecord (u.proc pid) (u.proc newpid) pid) rfl rfl
    split at hs
    · cases hs
      exact hrec
    -- the child multimap is nothing to the invariant
    have hfiled := hrec.calm (t := { (u.setTask newpid _).setProc newpid _ with
      pidToChild := u.pidToChild ++ [(pid, newpid)] })
      ⟨fun _ => rfl, fun _ => rfl, rfl, rfl, rfl, rfl, fun _ hn => hn⟩
    split at hs
    · cases hs
      exact hfiled
    · simp only [Option.bind_eq_bind, Option.bind_eq_some_iff] at hs
      obtain ⟨⟨v, ok⟩, hlaunch, hs⟩ := hs
      have hinv := hfiled.threadsOf ?_ (launchProcess_frame hlaunch)
      · split at hs
        · cases hs
          exact hinv
        · cases hs
      · intro hz
        refine halive ⟨hz.1, ?_⟩
        have hm := hz.2
        rwa [setProc_field (·.inc) (by rfl) newpid] at hm

theorem Inv.alive {sender : Tid} (h : Inv s) (hm : sender ∈ (s.task pid).threads) :
    ¬ s.Zombie pid := fun hz => List.ne_nil_of_mem hm (h.threads pid hz)

theorem exec_calm {load : Load} (hth : (s.task pid).threads ≠ [])
    (hs : s.exec pid load = some (t, r)) : Calm s t := by
  obtain rfl | ⟨-, hp, u, hu, hend⟩ := exec_cases hs
  · exact .refl t
  obtain ⟨hf, hgone⟩ := taskDtor_frame hu
  -- a new UTCB area in the place of the old one
  have hconf : ∀ area, Calm s (u.configure pid area) := by
    intro area
    refine ⟨configure_hasProcess hp hf, fun q => by rw [← hf.proc_eq]; rfl, hf.allocated_eq, hf.log_eq, hf.confirm_eq,
      hf.nextInc_eq, fun q hn => ?_⟩
    have hne : q ≠ pid := by
      rintro rfl
      exact hth hn
    simpa only [State.configure, State.setTask, Function.update_of_ne hne, hf.others q hne] using hn
  obtain rfl | ⟨area, rfl | ⟨ok, hv⟩⟩ := hend
  · exact (hf.still fun _ => hgone).toCalm
  · exact hconf area
  · have hc := hconf area
    have hf := launchProcess_frame hv
    refine ⟨fun q => (hf.hasProcess_eq q).trans (hc.process q), fun q => by rw [hf.proc_eq]; exact hc.core q,
      hf.allocated_eq.trans hc.allocated, hf.log_eq.trans hc.log, hf.confirm_eq.trans hc.confirm,
      hf.nextInc_eq.trans hc.nextInc, fun q hn => ?_⟩
    have hne : q ≠ pid := by
      rintro rfl
      exact hth hn
    rw [hf.others q hne]
    exact hc.threads q hn

theorem createThread_calm (hth : (s.task pid).threads ≠ [])
    (hs : s.createThread pid = some (t, r)) : Calm s t :=
  ((createThread_frame hs).still fun hn => absurd hn hth).toCalm

theorem removeThread_calm {tid : Tid} {utcbAddr : ℕ} (hth : (s.task pid).threads ≠ [])
    (hs : s.removeThread pid tid utcbAddr = some (t, r)) : Calm s t :=
  ((removeThread_frame hs).still fun hn => absurd hn hth).toCalm

theorem setresugid_calm {mode : ℤ} {rUid eUid sUid : ℕ}
    (hs : s.setresugid pid mode rUid eUid sUid = some (t, r)) : Calm s t := by
  obtain rfl | ⟨_, _, _, rfl⟩ := setresugid_cases hs
  · exact .refl t
  · exact .setProc _ _ rfl

theorem sigsuspend_calm {mask : SigSet} (hs : s.sigsuspend pid mask = some (t, r)) : Calm s t := by
  obtain rfl | ⟨_, _, _, _, rfl⟩ := sigsuspend_cases hs
  · exact .refl t
  · exact .setProc _ _ rfl

theorem Inv.sigset {sender : Tid} {setName : ℕ} {orBits andBits : SigSet} {replyOk : Bool}
    (h : Inv s) (hm : sender ∈ (s.task (pidof sender)).threads)
    (hok : orderlyDeath s (.call sender (.sigset setName orBits andBits replyOk)))
    (hs : s.sigset sender setName orBits andBits replyOk = some (t, r)) : Inv t := by
  obtain ⟨hp, rfl | hremove | ⟨_, _, rfl⟩ | ⟨rfl, hmask⟩ | ⟨_, _, _, rfl⟩⟩ := sigset_cases hs
  · exact h
  · exact h.calm (sigRemoveHelper_still hremove).toCalm
  · exact h.calm (.setProc _ _ rfl)
  · have hcalm : Calm s (s.setProc (pidof sender)
        (State.remask (s.proc (pidof sender)) orBits andBits)) := .setProc _ _ rfl
    have hself : (s.setProc (pidof sender)
        (State.remask (s.proc (pidof sender)) orBits andBits)).proc (pidof sender) =
        State.remask (s.proc (pidof sender)) orBits andBits := Function.update_self ..
    refine (h.calm hcalm).sigLoop hp ?_ ?_ ?_ (setMask_cases hmask)
    · rw [hcalm.zombie]
      exact h.alive hm
    · rw [hself]
      exact hok.1
    · rw [hself]
      intro hne
      refine State.reapsClean_congr (s := s) ⟨setProc_field (·.waitTid) rfl,
        setProc_field (·.waitAny) rfl, rfl⟩ (fun _ => rfl) ?_ ?_ (hok.2 hne)
      · exact setProc_field (·.ppid) (by rfl) _
      · exact setProc_field (·.deadList) (by rfl) _
  · exact h.calm (.setProc _ _ rfl)

theorem Inv.kill {sender : Tid} {pid sig : ℤ} {earlyReplyOk replyOk : Bool} (h : Inv s)
    (hok : orderlyDeath s (.call sender (.kill pid sig earlyReplyOk replyOk)))
    (hs : s.kill (pidof sender) pid sig earlyReplyOk replyOk = some (t, r)) : Inv t := by
  obtain rfl | ⟨herr, hsig, hsend⟩ := kill_cases hs
  · exact h
  · exact h.sigSend (hasProcess_of_killError herr) (hok herr hsig) hsend

theorem Inv.exit {status : ℤ} {replyOk : Bool} (h : Inv s) (halive : ¬ s.Zombie pid)
    (hclean : s.reapsClean pid replyOk) (hs : s.exit pid status replyOk = some (t, r)) : Inv t := by
  obtain ⟨-, hu⟩ | ⟨-, hp, hz⟩ := exit_cases hs
  · obtain ⟨hf, hgone⟩ := taskDtor_frame hu
    exact h.calm (hf.still fun _ => hgone).toCalm
  · exact h.die hp halive hclean hz

theorem Inv.waitDead {self dead : ℕ} (h : Inv s) (hself : s.hasProcess self = true)
    (hm : dead ∈ (s.proc self).deadList) : Inv (s.waitDead self dead).1 := by
  refine ⟨h.allocated, h.inc_lt, h.inc_inj, h.log_lt, h.zombified, h.announced, h.listed, h.members,
    h.nodup, h.threads, h.record, ?_⟩
  rintro c ⟨⟩
  exact ⟨hself, hm⟩

theorem Inv.wait {sender : Tid} {id : WaitFor} {nohang : Bool} (h : Inv s)
    (hok : orderlyDeath s (.call sender (.wait id nohang)))
    (hs : s.wait sender id nohang = some (t, r)) : Inv t := by
  obtain rfl | ⟨dead, ⟨hp, hdead⟩, rfl⟩ | ⟨child, -, rfl⟩ | ⟨-, rfl⟩ := wait_cases hs
  · exact h
  · obtain hlisted | ⟨rfl, hchild, hppid, hth⟩ := hdead
    · exact h.waitDead hp hlisted
    · have hm := (h.listed dead (hok hchild hppid hth)).2
      rw [hppid] at hm
      exact h.waitDead hp hm
  · exact h.calm (.setProc _ _ rfl)
  · have hset : Calm s (s.setProc (pidof sender) { s.proc (pidof sender) with waitAny := true }) := .setProc _ _ rfl
    exact h.calm ⟨hset.process, hset.core, rfl, rfl, rfl, rfl, hset.threads⟩

theorem Inv.handle {sender : Tid} {call : Call} (h : Inv s)
    (hm : sender ∈ (s.task (pidof sender)).threads) (hok : orderlyDeath s (.call sender call))
    (hs : s.handle sender call = some (t, r)) : Inv t := by
  have hth := List.ne_nil_of_mem hm
  cases call with
  | createThread => exact h.calm (createThread_calm hth hs)
  | removeThread tid utcbAddr => exact h.calm (removeThread_calm hth hs)
  | spawn load mem => exact h.spawn hok hs
  | exec load => exact h.calm (exec_calm hth hs)
  | kill pid sig earlyReplyOk replyOk => exact h.kill hok hs
  | exit status replyOk => exact h.exit (h.alive hm) hok hs
  | wait id nohang => exact h.wait hok hs
  | fork env => exact h.fork hs
  | sigset setName orBits andBits replyOk => exact h.sigset hm hok hs
  | sigsuspend mask => exact h.calm (sigsuspend_calm hs)
  | setresugid mode rUid eUid sUid => exact h.calm (setresugid_calm hs)

theorem Inv.exec {step : Step} (h : Inv s) (hok : orderlyDeath s step)
    (hs : exec s step = some t) : Inv t := by
  cases step with
  | call sender call =>
    obtain ⟨⟨u, r⟩, hr, rfl⟩ := Option.map_eq_some_iff.mp hs
    simp only [respond] at hr
    split at hr
    · cases hr
    next hm =>
    split at hr
    · cases hr
    · exact h.handle (not_not.mp hm) hok hr
  | confirm =>
    simp only [Root.exec] at hs
    split at hs
    · exact h.syncConfirm hok hs
    · cases hs
  | dropConfirm =>
    cases hs
    exact ⟨h.allocated, h.inc_lt, h.inc_inj, h.log_lt, h.zombified, h.announced, h.listed,
      h.members, h.nodup, h.threads, h.record, nofun⟩

structure Booted (s : State) : Prop where
  process : ∀ pid, s.hasProcess pid = false
  confirm : s.confirm = none
  log : s.log = []

theorem Booted.inv (h : Booted s) : Inv s := by
  have hno : ∀ pid, ¬ s.hasProcess pid = true := fun pid => by simp [h.process pid]
  constructor
  case allocated => exact fun pid hp => absurd hp (hno pid)
  case inc_lt => exact fun pid hp => absurd hp (hno pid)
  case inc_inj => exact fun pid _ hp => absurd hp (hno pid)
  case log_lt => simp [h.log]
  case zombified => simp [h.log]
  case announced => simp [h.log]
  case listed => exact fun pid hz => absurd hz.1 (hno pid)
  case members => exact fun q _ hq => absurd hq (hno q)
  case nodup => exact fun q hq => absurd hq (hno q)
  case threads => exact fun pid hz => absurd hz.1 (hno pid)
  case record => exact fun pid hz => absurd hz.1 (hno pid)
  case confirm => simp [h.confirm]

/-- In every run of root's UAPI whose steps are orderly, process death happens once. -/
theorem death_once {s₀ s : State} {steps : List Step} (hboot : Booted s₀)
    (h : Run exec orderlyDeath s₀ steps s) : DeathOnce s := by
  have hinv : Inv s := h.invariant (fun _ _ _ hok hs hi => Inv.exec hi hok hs) hboot.inv
  exact hinv.deathOnce

def rootTid : Tid := ⟨520, 2⟩

def bootState : State where
  task pid := if pid = minSysid then ⟨some ⟨0x100000, 19⟩, some (0 < ·), [rootTid]⟩ else ⟨none, none, []⟩
  proc _ := .blank
  allocated _ := false
  nextUserPid := 1
  tnoFreeMaps _ bit := 600 ≤ bit
  tnoFreeCounts _ := 1000
  utcbLoc _ := 0x100000
  pidToChild := []
  waitanyHash := []
  confirm := none
  vmTid := ⟨700, 10⟩
  nextInc := 0
  log := []

theorem bootState_booted : Booted bootState where
  process pid := by
    simp only [State.hasProcess, bootState, Bool.and_eq_false_iff, decide_eq_false_iff_not]
    by_cases hp : pid = minSysid
    · exact .inl (.inr (by rw [hp]; decide))
    · exact .inr (by simp [hp])
  confirm := rfl
  log := rfl

def initTid : Tid := ⟨600, 3⟩
def childTid : Tid := ⟨601, 5⟩

def exitRun : List Step :=
  [.call rootTid (.spawn (.loaded ⟨0x100000, 19⟩) .blank),
    .call initTid (.fork ⟨.blank, true, true, none⟩),
    .call childTid (.exit 3 false)]

/-- The child is a zombie on init's list, and is reaped after a `wait`. -/
theorem death_once_exit :
    Booted bootState ∧ ∃ s, Run exec orderlyDeath bootState
      (exitRun ++ [.call initTid (.wait .all false), .confirm]) s ∧
      s.log = [.zombify 1, .exitBroadcast 1 2 0 3 1] ∧ s.hasProcess 2 = false ∧ DeathOnce s := by
  obtain ⟨s, hs, he⟩ := Run.exists_of_evalRun exec orderlyDeath
    bootState (exitRun ++ [.call initTid (.wait .all false), .confirm])
    (fun s => (s.log, s.hasProcess 2)) ([.zombify 1, .exitBroadcast 1 2 0 3 1], false)
    (by decide +kernel)
  simp only [Prod.mk.injEq] at he
  exact ⟨bootState_booted, s, hs, he.1, he.2, death_once bootState_booted hs⟩

/-- Init kills its zombie child, which dies again. -/
theorem death_twice :
    ¬ ∀ s₀ steps s, Booted s₀ → Run exec free s₀ steps s → DeathOnce s := by
  intro h
  obtain ⟨s, hs, he⟩ := Run.exists_of_evalRun exec free bootState
    (exitRun ++ [.call initTid (.kill 2 SIGKILL true false)])
    (fun s => s.log.count (.zombify 1)) 2 (by decide +kernel)
  have hone := (h _ _ _ bootState_booted hs).zombified 1
  omega

end Sneks.Root
