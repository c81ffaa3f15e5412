import Sneks.Thrd.Mtx.Claims

/-!
# The assertions of mutexes

A thread that the serializer has woken up asserts in `mtx_lock` that the mutex's word names it. In
`mtx_unlock` a thread that could not free the mutex by itself asserts that the word is its own with both
flags. The serializer wakes up the next thread before it stores that thread's word.
-/

set_option linter.unusedSectionVars false

namespace Sneks.Thrd
open Lib

variable {μ : Type*} [DecidableEq μ]

/-- A thread is `checking` from where the serializer's reply gets to it. -/
structure Asserting (μ : Type*) where
  mtx : MtxState μ
  checking : LocalId → Option μ
  aborted : Bool

inductive AssertStep (μ : Type*)
  | op (step : MtxStep μ)
  /-- The assertion in `mtx_lock`. -/
  | check (t : LocalId)

def MtxStep.thread : MtxStep μ → Option LocalId
  | .lock t _ | .trylock t _ | .unlock t _ | .run t => some t
  | .receive _ _ | .serve => none

namespace Asserting

def init : Asserting μ := ⟨.init, fun _ => none, false⟩

variable (s : Asserting μ)

def busy (step : MtxStep μ) : Bool := step.thread.any fun t => (s.checking t).isSome

def asserts : MtxStep μ → Bool
  | .unlock t m => s.mtx.word m = t.raw ||| LOCKED || s.mtx.word m = t.raw ||| LOCKED ||| CONFLICT
  | _ => true

/-- A thread that has waited for the mutex returns from `L4_Lcall`. -/
def returned (mtx : MtxState μ) (t : LocalId) : Option μ :=
  match s.mtx.pc t, mtx.pc t with
  | .lockWait m, .idle => some m
  | _, _ => s.checking t

def abort : Asserting μ := { s with aborted := true }

def exec : AssertStep μ → Option (Asserting μ)
  | .op step =>
    if s.aborted || s.busy step then none
    else (s.mtx.exec step).map fun mtx => if s.asserts step then ⟨mtx, s.returned mtx, false⟩ else s.abort
  | .check t =>
    if s.aborted then none
    else (s.checking t).map fun m =>
      if s.mtx.word m &&& ~~~0x3f#32 = t.raw then { s with checking := Function.update s.checking t none } else s.abort

def Outside (m : μ) : Prop := s.mtx.ser.window.map (·.1) ≠ some m

/-- `mtx_lock` does not make its assertion in the serializer's window. -/
def Settled : AssertStep μ → Prop
  | .op _ => True
  | .check t => ∀ m ∈ s.checking t, s.Outside m

instance (step : AssertStep μ) : Decidable (s.Settled step) :=
  match step with
  | .op _ => inferInstanceAs (Decidable True)
  | .check _ => inferInstanceAs (Decidable (∀ m ∈ _, _ ≠ _))

end Asserting

-- What a step does to a thread

namespace MtxState

structure Still (t : LocalId) (s s' : MtxState μ) : Prop where
  holders : ∀ m, t ∈ s'.holders m ↔ t ∈ s.holders m
  idle : s.pc t = .idle → s'.pc t = .idle
  waits : ∀ m, s.pc t = .lockWait m → s'.pc t = .lockWait m

variable {s s' : MtxState μ} {m : μ} {t u : LocalId}

namespace Still

theorem refl (s : MtxState μ) (t : LocalId) : Still t s s := ⟨fun _ => Iff.rfl, id, fun _ => id⟩

theorem setWord (h : Still t s s') (m : μ) (w : BitVec 32) : Still t s (s'.setWord m w) := ⟨h.holders, h.idle, h.waits⟩

theorem setPc (h : Still t s s') (hu : t ≠ u) (p : MtxPc μ) : Still t s (s'.setPc u p) := by
  have hpc : (s'.setPc u p).pc t = s'.pc t := setPc_pc.trans (if_neg hu)
  exact ⟨h.holders, fun ht => hpc.trans (h.idle ht), fun m ht => hpc.trans (h.waits m ht)⟩

theorem hold (h : Still t s s') (hu : t ≠ u) (m : μ) : Still t s (s'.hold u m) := by
  refine ⟨fun m' => ?_, h.idle, h.waits⟩
  rw [hold_holders, ← h.holders]
  split
  · next hm => rw [hm, List.mem_cons, or_iff_right hu]
  · rfl

theorem unhold (h : Still t s s') (hu : t ≠ u) (m : μ) : Still t s (s'.unhold u m) := by
  refine ⟨fun m' => ?_, h.idle, h.waits⟩
  rw [unhold_holders, ← h.holders]
  split
  · next hm => rw [hm, List.mem_erase_of_ne hu]
  · rfl

theorem congr (h : Still t s s') {s'' : MtxState μ} (hholders : s''.holders = s'.holders) (hpc : s''.pc = s'.pc) : Still t s s'' := by
  constructor
  · rw [hholders]
    exact h.holders
  · rw [hpc]
    exact h.idle
  · rw [hpc]
    exact h.waits

end Still

def Woken (t : LocalId) (m : μ) (s s' : MtxState μ) : Prop :=
  s.pc t = .lockWait m ∧ s'.pc t = .idle ∧ s'.holders = (s.hold t m).holders

theorem serUnlockOp_holders {xcpu : Bool} : (s.serUnlockOp u m xcpu).holders = s.holders := by
  unfold serUnlockOp
  dsimp only
  split
  · rfl
  · split <;> rfl

theorem serUnlockOp_pc {xcpu : Bool} : (s.serUnlockOp u m xcpu).pc = s.pc := by
  unfold serUnlockOp
  dsimp only
  split
  · rfl
  · split <;> rfl

theorem still_wake (s : MtxState μ) (t u : LocalId) : Still t s (s.wake u) ∨ ∃ m, Woken t m s (s.wake u) := by
  by_cases hu : t = u
  · subst hu
    unfold wake
    split
    · next m hpc => exact .inr ⟨m, hpc, setPc_pc.trans (if_pos rfl), rfl⟩
    · next m hpc =>
      left
      exact ⟨fun _ => Iff.rfl, fun _ => setPc_pc.trans (if_pos rfl), fun m ht => nomatch ht.symm.trans hpc⟩
    · exact .inl (.refl s t)
  · left
    unfold wake
    split
    · exact ((Still.refl s t).hold hu _).setPc hu _
    · exact (Still.refl s t).setPc hu _
    · exact .refl s t

theorem still_sent (hidle : s.pc u ≠ .idle) (hwait : ∀ m, s.pc u ≠ .lockWait m) (p : MtxPc μ) : Still t s (s.setPc u p) := by
  by_cases hu : t = u
  · subst hu
    exact ⟨fun _ => Iff.rfl, fun ht => absurd ht hidle, fun m ht => absurd ht (hwait m)⟩
  · exact (Still.refl s t).setPc hu p

theorem still_serve (hs : s.serve = some s') : Still t s s' ∨ ∃ m, Woken t m s s' := by
  have hsame {s'' : MtxState μ} (hholders : s''.holders = s.holders) (hpc : s''.pc = s.pc) : Still t s s'' :=
    (Still.refl s t).congr hholders hpc
  have hwake (u : LocalId) (ser : Serializer μ) : Still t s ((s.wake u).setSer ser) ∨ ∃ m, Woken t m s ((s.wake u).setSer ser) :=
    (still_wake s t u).imp (·.congr rfl rfl) id
  unfold serve at hs
  split at hs
  · cases hs
  · cases hs
    exact .inl (hsame rfl rfl)
  · split at hs
    · split at hs <;> cases hs <;> exact .inl (hsame rfl rfl)
    · cases hs
      exact .inl (hsame rfl rfl)
  · split at hs
    · split at hs <;> cases hs <;> exact .inl (hsame rfl rfl)
    · cases hs
      exact .inl (hsame rfl rfl)
  · cases hs
    exact .inl (hsame serUnlockOp_holders serUnlockOp_pc)
  · cases hs
    exact hwake _ _
  · cases hs
    exact .inl (hsame rfl rfl)
  · cases hs
    exact hwake _ _

inductive Acts (t : LocalId) (s : MtxState μ) : MtxState μ → Prop
  | refl : Acts t s s
  | setPc {s' : MtxState μ} : Acts t s s' → (p : MtxPc μ) → Acts t s (s'.setPc t p)
  | setWord {s' : MtxState μ} : Acts t s s' → (m : μ) → (w : BitVec 32) → Acts t s (s'.setWord m w)
  | hold {s' : MtxState μ} {m : μ} : Acts t s s' → s.word m = 0#32 → Acts t s (s'.hold t m)
  | unhold {s' : MtxState μ} : Acts t s s' → (m : μ) → Acts t s (s'.unhold t m)

namespace Acts

theorem still (h : Acts u s s') (hu : t ≠ u) : Still t s s' := by
  induction h with
  | refl => exact .refl s t
  | setPc _ p ih => exact ih.setPc hu p
  | setWord _ m w ih => exact ih.setWord m w
  | hold _ _ ih => exact ih.hold hu _
  | unhold _ m ih => exact ih.unhold hu m

theorem ser (h : Acts t s s') : s'.ser = s.ser := by
  induction h with
  | refl => rfl
  | setPc _ _ ih | setWord _ _ _ ih | hold _ _ ih | unhold _ _ ih => exact ih

theorem held (h : Acts t s s') (hm : s.word m ≠ 0#32) (ht : t ∈ s'.holders m) : t ∈ s.holders m := by
  induction h with
  | refl => exact ht
  | setPc _ _ ih | setWord _ _ _ ih => exact ih ht
  | hold _ hfree ih =>
    have hne : m ≠ _ := fun heq => hm (heq ▸ hfree)
    rw [hold_holders, if_neg hne] at ht
    exact ih ht
  | unhold _ m' ih =>
    rw [unhold_holders] at ht
    split at ht
    · next heq => exact ih (heq ▸ List.mem_of_mem_erase ht)
    · exact ih ht

end Acts

theorem acts_lock (hs : s.lock t m = some s') : Acts t s s' := by
  unfold lock at hs
  split at hs <;> cases hs
  exact .setPc .refl _

theorem acts_trylock (hs : s.trylock t m = some s') : Acts t s s' := by
  unfold trylock at hs
  split at hs
  · split at hs
    · next hfree =>
      cases hs
      exact .hold (.setWord .refl m _) hfree
    · cases hs
      exact .refl
  · cases hs

theorem acts_unlock (hs : s.unlock t m = some s') : Acts t s s' := by
  unfold unlock at hs
  split at hs
  · split at hs
    · split at hs <;> cases hs
      · exact .unhold (.setWord .refl m _) m
      · exact .setPc (.unhold .refl m) _
    · cases hs
  · cases hs

theorem acts_run (hs : s.run t = some s') : Acts t s s' := by
  unfold run at hs
  split at hs
  · split at hs
    · split at hs
      · next hfree =>
        cases hs
        exact .setPc (.hold (.setWord .refl _ _) hfree) _
      · cases hs
        exact .setPc .refl _
    · cases hs
      exact .setPc .refl _
  · split at hs
    · split at hs <;> cases hs
      · exact .setPc (.setWord .refl _ _) _
      · exact .setPc .refl _
    · cases hs
      exact .setPc .refl _
  · cases hs

theorem acts_exec {step : MtxStep μ} (hs : s.exec step = some s') (ht : step.thread = some t) : Acts t s s' := by
  cases step with
  | lock u m =>
    obtain rfl : u = t := Option.some.inj ht
    exact acts_lock hs
  | trylock u m =>
    obtain rfl : u = t := Option.some.inj ht
    exact acts_trylock hs
  | unlock u m =>
    obtain rfl : u = t := Option.some.inj ht
    exact acts_unlock hs
  | run u =>
    obtain rfl : u = t := Option.some.inj ht
    exact acts_run hs
  | receive | serve => cases ht

theorem still_receive {xcpu : Bool} (hs : s.receive u xcpu = some s') : Still t s s' := by
  unfold receive at hs
  split at hs
  · next hpc =>
    cases hs
    exact (still_sent (by simp [hpc]) (by simp [hpc]) _).congr rfl rfl
  · next hpc =>
    cases hs
    exact (still_sent (by simp [hpc]) (by simp [hpc]) _).congr rfl rfl
  · cases hs

theorem still_exec {step : MtxStep μ} (hs : s.exec step = some s') (ht : step.thread ≠ some t) :
    Still t s s' ∨ ∃ m, Woken t m s s' := by
  cases hthread : step.thread with
  | some u => exact .inl ((acts_exec hs hthread).still fun heq => ht (heq ▸ hthread))
  | none =>
    cases step with
    | lock | trylock | unlock | run => cases hthread
    | receive => exact .inl (still_receive hs)
    | serve => exact still_serve hs

theorem thread_pc {step : MtxStep μ} (hs : s.exec step = some s') (ht : step.thread = some t) : s.pc t ≠ .lockWait m := by
  intro hpc
  cases step with
  | lock u m' =>
    obtain rfl : u = t := Option.some.inj ht
    simp [exec, lock, hpc] at hs
  | trylock u m' =>
    obtain rfl : u = t := Option.some.inj ht
    simp [exec, trylock, hpc] at hs
  | unlock u m' =>
    obtain rfl : u = t := Option.some.inj ht
    simp [exec, unlock, hpc] at hs
  | run u =>
    obtain rfl : u = t := Option.some.inj ht
    simp [exec, run, hpc] at hs
  | receive | serve => cases ht

theorem serUnlockOp_window {xcpu : Bool} {m' : μ} (hm : (s.serUnlockOp u m' xcpu).ser.window.map (·.1) = some m) : m' = m := by
  unfold serUnlockOp at hm
  dsimp only at hm
  split at hm
  · cases hm
  · split at hm
    · exact Option.some.inj hm
    · dsimp only [setSer] at hm
      split at hm <;> exact Option.some.inj hm

theorem window_opens {step : MtxStep μ} (hs : s.exec step = some s') (hm : s'.ser.window.map (·.1) = some m) :
    s.ser.window.map (·.1) = some m ∨ (∃ t xcpu, s.ser = .unlockLoad t m xcpu) ∧ s'.holders = s.holders := by
  cases hthread : step.thread with
  | some t => exact .inl ((acts_exec hs hthread).ser ▸ hm)
  | none =>
    cases step with
    | lock | trylock | unlock | run => cases hthread
    | receive u xcpu =>
      simp only [exec, receive] at hs
      split at hs <;> cases hs <;> cases hm
    | serve =>
      simp only [exec, serve] at hs
      split at hs
      · cases hs
      · cases hs
        cases hm
      · split at hs
        · split at hs <;> cases hs <;> cases hm
        · cases hs
          cases hm
      · split at hs
        · split at hs <;> cases hs <;> cases hm
        · cases hs
          cases hm
      · next t m' xcpu hser =>
        cases hs
        obtain rfl := serUnlockOp_window hm
        exact .inr ⟨⟨t, xcpu, hser⟩, serUnlockOp_holders⟩
      · next hser =>
        cases hs
        left
        rw [hser]
        exact hm
      · cases hs
        cases hm
      · cases hs
        cases hm

end MtxState

-- The assertions

namespace Asserting

variable {s s' : Asserting μ} {m : μ} {t : LocalId}

/-- A thread that is at the assertion holds the mutex. In the serializer's window the one that holds it is
at the assertion. -/
structure Tracked (s : Asserting μ) : Prop where
  inv : s.mtx.Inv
  holds : ∀ t, ∀ m ∈ s.checking t, t ∈ s.mtx.holders m
  idle : ∀ t, (s.checking t).isSome → s.mtx.pc t = .idle
  window : ∀ m, ¬ s.Outside m → ∀ t ∈ s.mtx.holders m, s.checking t = some m
  runs : s.aborted = false

theorem tracked_init : (init : Asserting μ).Tracked :=
  ⟨MtxState.inv_init, (fun _ _ hm => nomatch hm), (fun _ h => nomatch h), (fun _ _ _ h => nomatch h), rfl⟩

theorem Tracked.word (h : s.Tracked) (ht : t ∈ s.mtx.holders m) (hm : s.Outside m) : ∃ c, s.mtx.word m = t.word c := by
  obtain ⟨c, hc⟩ := (h.inv.named m).claim t (.inl ht)
  refine ⟨c, ?_⟩
  rw [← hc, MtxState.settled_of_window]
  intro w hw heq
  exact hm (by rw [hw, Option.map_some, heq])

theorem Tracked.word_ne_zero (h : s.Tracked) (hm : ¬ s.Outside m) : s.mtx.word m ≠ 0#32 := by
  intro hzero
  have hwindow := h.inv.window_ne fun u hu => u.word_ne_zero true (hu.symm.trans hzero)
  obtain ⟨w, hw, hwm⟩ := Option.map_eq_some_iff.mp (not_not.mp hm)
  exact hwindow w hw hwm

theorem Tracked.asserts {step : MtxStep μ} (h : s.Tracked) (hbusy : s.busy step = false) {mtx : MtxState μ}
    (hs : s.mtx.exec step = some mtx) : s.asserts step = true := by
  cases step with
  | unlock t m =>
    have ht : t ∈ s.mtx.holders m := by
      simp only [MtxState.exec, MtxState.unlock] at hs
      split at hs
      · split at hs
        · assumption
        · cases hs
      · cases hs
    have hm : s.Outside m := by
      by_contra hm
      simp [busy, MtxStep.thread, h.window m hm t ht] at hbusy
    obtain ⟨c, hc⟩ := h.word ht hm
    rw [Asserting.asserts, hc]
    cases c
    · simp [t.locked_eq]
    · simp [LocalId.word]
  | lock | trylock | run | receive | serve => rfl

theorem returned_eq {mtx : MtxState μ} (h : ∀ m, s.mtx.pc t = .lockWait m → mtx.pc t ≠ .idle) : s.returned mtx t = s.checking t := by
  unfold returned
  split
  · next m hpc hidle => exact absurd hidle (h m hpc)
  · rfl

theorem thread_cases {step : MtxStep μ} (hbusy : s.busy step = false) {mtx : MtxState μ}
    (hs : s.mtx.exec step = some mtx) (t : LocalId) :
    (step.thread = some t ∧ s.checking t = none ∧ s.returned mtx t = none) ∨
      (MtxState.Still t s.mtx mtx ∧ s.returned mtx t = s.checking t) ∨
        ∃ m, MtxState.Woken t m s.mtx mtx ∧ s.returned mtx t = some m := by
  by_cases ht : step.thread = some t
  · have hnone : s.checking t = none := by simpa [busy, ht] using hbusy
    refine .inl ⟨ht, hnone, ?_⟩
    rw [returned_eq fun m hpc => absurd hpc (MtxState.thread_pc hs ht), hnone]
  · obtain hstill | ⟨m, hwoken⟩ := MtxState.still_exec hs ht
    · refine .inr (.inl ⟨hstill, returned_eq fun m hpc hidle => ?_⟩)
      cases hidle.symm.trans (hstill.waits m hpc)
    · refine .inr (.inr ⟨m, hwoken, ?_⟩)
      rw [returned, hwoken.1, hwoken.2.1]

theorem Tracked.window_op (h : s.Tracked) {step : MtxStep μ} (hbusy : s.busy step = false) {mtx : MtxState μ}
    (hs : s.mtx.exec step = some mtx) (hm : mtx.ser.window.map (·.1) = some m) (ht : t ∈ mtx.holders m) :
    s.returned mtx t = some m := by
  obtain hwindow | ⟨⟨u, xcpu, hser⟩, hholders⟩ := MtxState.window_opens hs hm
  · have hold : t ∈ s.mtx.holders m → s.checking t = some m := h.window m (not_not.mpr hwindow) t
    obtain ⟨hthread, hnone, -⟩ | ⟨hstill, hreturned⟩ | ⟨m', ⟨hpc, -, hholders⟩, hreturned⟩ := thread_cases hbusy hs t
    · have hmem := (MtxState.acts_exec hs hthread).held (h.word_ne_zero (not_not.mpr hwindow)) ht
      cases hnone.symm.trans (hold hmem)
    · rw [hreturned]
      exact hold ((hstill.holders m).mp ht)
    · by_cases heq : m = m'
      · rw [hreturned, heq]
      · rw [hholders, MtxState.hold_holders, if_neg heq] at ht
        -- a thread that is at the assertion does not wait
        cases hpc.symm.trans (h.idle t (hold ht ▸ rfl))
  · rw [hholders, (h.inv.named m).unheld u (.inr (.inr ⟨xcpu, hser⟩))] at ht
    cases ht

theorem Tracked.op {step : MtxStep μ} (h : s.Tracked) (hs : s.exec (.op step) = some s') : s'.Tracked := by
  simp only [exec, h.runs, Bool.false_or] at hs
  split at hs
  · cases hs
  · next hbusy =>
    have hbusy : s.busy step = false := Bool.not_eq_true _ ▸ hbusy
    obtain ⟨mtx, hmtx, rfl⟩ := Option.map_eq_some_iff.mp hs
    rw [if_pos (h.asserts hbusy hmtx)]
    refine ⟨h.inv.exec hmtx, fun t m hm => ?_, fun t hsome => ?_, fun m hm t ht => ?_, rfl⟩
    · have hm : s.returned mtx t = some m := hm
      obtain ⟨-, -, hnone⟩ | ⟨hstill, hreturned⟩ | ⟨m', ⟨-, -, hholders⟩, hreturned⟩ := thread_cases hbusy hmtx t
      · cases hnone.symm.trans hm
      · exact (hstill.holders m).mpr (h.holds t m (hreturned ▸ hm))
      · obtain rfl : m' = m := Option.some.inj (hreturned.symm.trans hm)
        show t ∈ mtx.holders m'
        rw [hholders, MtxState.hold_holders, if_pos rfl]
        exact List.mem_cons_self
    · have hsome : (s.returned mtx t).isSome := hsome
      obtain ⟨-, -, hnone⟩ | ⟨hstill, hreturned⟩ | ⟨m', ⟨-, hidle, -⟩, -⟩ := thread_cases hbusy hmtx t
      · rw [hnone] at hsome
        cases hsome
      · exact hstill.idle (h.idle t (hreturned ▸ hsome))
      · exact hidle
    · exact h.window_op hbusy hmtx (not_not.mp hm) ht

theorem Tracked.check (h : s.Tracked) (hok : s.Settled (.check t)) (hs : s.exec (.check t) = some s') : s'.Tracked := by
  simp only [exec, h.runs] at hs
  obtain ⟨m, hm, rfl⟩ := Option.map_eq_some_iff.mp hs
  obtain ⟨c, hc⟩ := h.word (h.holds t m hm) (hok m hm)
  rw [hc, t.word_owner, if_pos rfl]
  refine ⟨h.inv, fun u m' hm' => ?_, fun u hsome => ?_, fun m' hm' u hu => ?_, rfl⟩ <;> dsimp only at *
  · rw [Function.update_apply] at hm'
    split at hm'
    · cases hm'
    · exact h.holds u m' hm'
  · rw [Function.update_apply] at hsome
    split at hsome
    · cases hsome
    · exact h.idle u hsome
  · have hu := h.window m' hm' u hu
    rw [Function.update_apply]
    split
    · next heq =>
      subst heq
      obtain rfl : m = m' := Option.some.inj (hm.symm.trans hu)
      exact absurd (hok m hm) hm'
    · exact hu

/-- **The assertions of mutexes**: none fails in a run in which no thread that got a mutex from the serializer
makes its assertion before the serializer has exchanged the word. -/
theorem never_aborts {steps : List (AssertStep μ)} (hrun : Run exec Settled init steps s) : s.aborted = false := by
  refine (hrun.invariant (I := Tracked) (fun s step s' hok hs h => ?_) tracked_init).runs
  cases step with
  | op step => exact h.op hs
  | check t => exact h.check hok hs

def handover : List (AssertStep Unit) :=
  MtxState.contended.map .op ++ [.op (.receive MtxState.tidOne false), .op .serve, .op .serve]

/-- The word is exchanged, and the second thread makes both assertions. -/
theorem never_aborts_handover : ∃ s : Asserting Unit, s.mtx.pc MtxState.tidTwo = .unlockCall () ∧ s.aborted = false := by
  obtain ⟨s, hrun, hs⟩ := Run.exists_of_evalRun exec Settled init
    (handover ++ [.op .serve, .check MtxState.tidTwo, .op (.unlock MtxState.tidTwo ())]) (·.mtx.pc MtxState.tidTwo) (.unlockCall ()) rfl
  exact ⟨s, hs, never_aborts hrun⟩

/-- The second thread makes its assertion before the word is exchanged. -/
theorem handover_aborts : ¬ ∀ (steps : List (AssertStep Unit)) (s : Asserting Unit), Run exec free init steps s → s.aborted = false := by
  intro hall
  obtain ⟨s, hrun, hs⟩ := Run.exists_of_evalRun exec free init (handover ++ [.check MtxState.tidTwo]) (·.aborted) true rfl
  cases hs.symm.trans (hall _ s hrun)

end Asserting

end Sneks.Thrd
