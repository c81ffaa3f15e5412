import Sneks.Root.Uapi

/-!
# What the helpers leave alone

Allocating and freeing threads touches the thread number bitmaps and the task
they belong to; `alloc_process` touches the slot it hands out.
-/

namespace Sneks.Root

variable {s t u : State} {pid : ℕ}

theorem isSystask_eq_false (h : pid ≤ maxPid) : isSystask pid = false := by
  have hlt : maxPid < minSysid := by decide
  simp only [isSystask, decide_eq_false_iff_not]
  omega

theorem not_isSystask_of_hasProcess (hp : s.hasProcess pid = true) : isSystask pid = false := by
  simp only [State.hasProcess, Bool.and_eq_true, decide_eq_true_eq] at hp
  exact isSystask_eq_false hp.1.2

theorem setProc_field {α : Type*} (f : Process → α) {p : Process} (hf : f p = f (s.proc pid))
    (q : ℕ) : f ((s.setProc pid p).proc q) = f (s.proc q) := by
  by_cases hq : q = pid
  · subst hq
    simpa only [State.setProc, Function.update_self] using hf
  · simp only [State.setProc, Function.update_of_ne hq]

/-- `t` differs from `s` in the thread number bitmaps and in the threads of `pid`. -/
structure SameButThreads (pid : ℕ) (s t : State) : Prop where
  eq : t = { s with
    task := t.task, tnoFreeMaps := t.tnoFreeMaps, tnoFreeCounts := t.tnoFreeCounts, utcbLoc := t.utcbLoc }
  others : ∀ q, q ≠ pid → t.task q = s.task q
  area : (t.task pid).utcbArea = (s.task pid).utcbArea

namespace SameButThreads

theorem refl (pid : ℕ) (s : State) : SameButThreads pid s s := ⟨rfl, fun _ _ => rfl, rfl⟩

theorem trans (h : SameButThreads pid s t) (h' : SameButThreads pid t u) :
    SameButThreads pid s u := by
  refine ⟨?_, fun q hq => (h'.others q hq).trans (h.others q hq), h'.area.trans h.area⟩
  rw [h'.eq, h.eq]

theorem proc_eq (h : SameButThreads pid s t) : t.proc = s.proc := by rw [h.eq]

theorem allocated_eq (h : SameButThreads pid s t) : t.allocated = s.allocated := by rw [h.eq]

theorem log_eq (h : SameButThreads pid s t) : t.log = s.log := by rw [h.eq]

theorem confirm_eq (h : SameButThreads pid s t) : t.confirm = s.confirm := by rw [h.eq]

theorem nextInc_eq (h : SameButThreads pid s t) : t.nextInc = s.nextInc := by rw [h.eq]

theorem area_eq (h : SameButThreads pid s t) (q : ℕ) :
    (t.task q).utcbArea = (s.task q).utcbArea := by
  by_cases hq : q = pid
  · subst hq
    exact h.area
  · rw [h.others q hq]

theorem hasProcess_eq (h : SameButThreads pid s t) (q : ℕ) : t.hasProcess q = s.hasProcess q := by
  simp only [State.hasProcess, h.area_eq]

end SameButThreads

theorem setTno_frame (map bit : ℕ) (free : Bool) (count : ℕ) :
    SameButThreads pid s (s.setTno map bit free count) := ⟨rfl, fun _ _ => rfl, rfl⟩

theorem placeUtcb_frame (tid : Tid) (utcb : ℕ) : SameButThreads pid s (s.placeUtcb tid utcb) :=
  ⟨rfl, fun _ _ => rfl, rfl⟩

theorem setTask_frame {r : Task} (h : r.utcbArea = (s.task pid).utcbArea) :
    SameButThreads pid s (s.setTask pid r) := by
  refine ⟨rfl, fun q hq => ?_, ?_⟩
  · simp only [State.setTask, Function.update_of_ne hq]
  · simpa only [State.setTask, Function.update_self] using h

theorem freeThreadno_frame (pid : ℕ) {tid : Tid} (h : s.freeThreadno tid = some t) :
    SameButThreads pid s t ∧ t.task = s.task := by
  simp only [State.freeThreadno] at h
  split at h
  · cases h
  · split at h
    · cases h
      exact ⟨setTno_frame _ _ _ _, rfl⟩
    · cases h

theorem freeThreadnos_frame (pid : ℕ) {tids : List Tid} (h : s.freeThreadnos tids = some t) :
    SameButThreads pid s t ∧ t.task = s.task := by
  simp only [State.freeThreadnos] at h
  induction tids generalizing s with
  | nil =>
    simp only [List.foldlM_nil, Option.pure_def, Option.some.injEq] at h
    subst h
    exact ⟨.refl _ _, rfl⟩
  | cons tid tids ih =>
    simp only [List.foldlM_cons, Option.bind_eq_bind, Option.bind_eq_some_iff] at h
    obtain ⟨u, hu, ht⟩ := h
    have h1 := freeThreadno_frame pid hu
    have h2 := ih ht
    exact ⟨h1.1.trans h2.1, h2.2.trans h1.2⟩

theorem taskDtor_frame (h : s.taskDtor pid = some t) :
    SameButThreads pid s t ∧ (t.task pid).threads = [] := by
  simp only [State.taskDtor, Option.bind_eq_bind, Option.bind_eq_some_iff] at h
  obtain ⟨u, hu, h⟩ := h
  have hf := freeThreadnos_frame pid hu
  split at h
  · cases h
  · cases h
    refine ⟨hf.1.trans (setTask_frame (by rw [hf.2])), ?_⟩
    simp only [State.setTask, Function.update_self]

theorem freeThread_frame {tid : Tid} {utcb : ℕ} (h : s.freeThread pid tid utcb = some t) :
    SameButThreads pid s t ∧
      (t.task pid).threads = tidlistRemoveFrom (s.task pid).threads tid := by
  simp only [State.freeThread] at h
  split at h
  · split at h
    · cases h
    · split at h
      · cases h
      · cases h
        exact ⟨setTask_frame rfl, by simp only [State.setTask, Function.update_self]⟩
  · cases h

theorem allocateThread_frame {r : Option (Tid × ℕ)} (h : s.allocateThread pid = some (t, r)) :
    SameButThreads pid s t := by
  simp only [State.allocateThread] at h
  split at h
  · cases h
    exact .refl _ _
  split at h
  · cases h
    exact .refl _ _
  split at h
  · cases h
  split at h
  · split at h
    · cases h
      exact .refl _ _
    · cases h
      refine .trans ?_ (placeUtcb_frame _ _)
      exact (setTno_frame _ _ _ _).trans (setTask_frame rfl)
  · cases h

theorem launchProcess_frame {ok : Bool} (h : s.launchProcess pid = some (t, ok)) :
    SameButThreads pid s t := by
  simp only [State.launchProcess, Option.bind_eq_bind, Option.bind_eq_some_iff] at h
  obtain ⟨⟨u, r⟩, hu, h⟩ := h
  cases h
  exact allocateThread_frame hu

theorem allocProcess_spec {mem : Process} {n : ℕ} {r : Option ℕ}
    (h : s.allocProcess mem n = some (t, r)) :
    (∃ next ≥ s.nextUserPid, t = { s with nextUserPid := next } ∧ r = none) ∨
    ∃ next ≥ s.nextUserPid, ∃ pid ≥ s.nextUserPid, r = some pid ∧ s.allocated pid = false ∧ pid ≤ maxPid ∧
      t = { s with
        nextUserPid := next
        allocated := Function.update s.allocated pid true
        proc := Function.update s.proc pid (processCtor mem s.nextInc)
        nextInc := s.nextInc + 1 } := by
  induction n generalizing s with
  | zero =>
    simp only [State.allocProcess, Option.some.injEq, Prod.mk.injEq] at h
    exact .inl ⟨s.nextUserPid, Nat.le_refl _, h.1.symm, h.2.symm⟩
  | succ n ih =>
    simp only [State.allocProcess] at h
    -- the counter never equals its value before the increment
    have hne : ¬ s.nextUserPid + 1 = s.nextUserPid := by omega
    simp only [hne, decide_false, Bool.false_eq_true, if_false, Bool.false_or] at h
    by_cases hmax : s.nextUserPid > maxPid
    · have hle : ¬ s.nextUserPid + 1 ≤ maxPid := by omega
      simp [hmax, hle] at h
    · simp only [hmax, if_false, decide_false, Bool.false_and, Bool.false_eq_true] at h
      split at h
      · rcases ih h with ⟨next, hnext, rfl, hr⟩ | ⟨next, hnext, pid, hpid, hr, hfree, hle, rfl⟩
        · exact .inl ⟨next, Nat.le_of_succ_le hnext, rfl, hr⟩
        · exact .inr ⟨next, Nat.le_of_succ_le hnext, pid, Nat.le_of_succ_le hpid, hr, hfree, hle, rfl⟩
      · next hfree =>
        simp only [Option.some.injEq, Prod.mk.injEq] at h
        exact .inr ⟨_, Nat.le_succ _, _, Nat.le_refl _, h.2.symm, by simpa using hfree, by omega, h.1.symm⟩

theorem syncConfirm_spec (h : s.syncConfirm = some t) :
    (s.confirm = none ∧ t = s) ∨
    ∃ c, s.confirm = some c ∧ c.dead ∈ (s.proc c.self).deadList ∧
      t = (({ s with confirm := none } : State).setProc c.self { s.proc c.self with
        deadList := (s.proc c.self).deadList.erase c.dead }).destroyProcess c.dead := by
  simp only [State.syncConfirm] at h
  split at h
  · next hc =>
    cases h
    exact .inl ⟨hc, rfl⟩
  · next c hc =>
    simp only [State.callDestroyProcess] at h
    split at h
    · next hmem =>
      cases h
      exact .inr ⟨c, hc, hmem, rfl⟩
    · cases h

end Sneks.Root
