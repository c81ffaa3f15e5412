import Sneks.Thrd.Mtx.Defs

/-!
# A thread that exits and those that join it

`thrd_exit` and `thrd_join` (`lib/thrd.c`), for one thread made by `thrd_create` and any number of
threads that join it, as often as they like. A step is one atomic operation on the record in the thread's
stack, one system call or one message. `e_free` puts the stack off until all that were between `e_begin`
and `e_end` have left. Destructors of `tss_t` keys are left out.
-/

namespace Sneks.Thrd
open Lib

-- The program

/-- What `L4_ErrorCode` tells of a receive that has failed. -/
inductive RecvError
  /-- 5: there is no such partner. -/
  | nonExisting
  /-- 7 and 15. -/
  | canceled | aborted
  | other
  deriving DecidableEq

/-- Where a thread is in `thrd_join`. -/
inductive JoinPc
  | idle
  | begun
  | found
  | loaded (jOld : BitVec 32)
  | receiving
  | received (res : ℤ)
  /-- The receive has failed in some other way. -/
  | unreceived
  /-- "Sloppy seconds". -/
  | second
  | waiting
  | active
  | activeRead (res : ℤ)
  | freeing (res : ℤ)
  | freed (res : ℤ)
  /-- At the label `gone`. -/
  | leaving

/-- Where the thread is: before `thrd_exit`, in it, or removed. -/
inductive ExitPc
  | running
  | exiting
  | loaded (joiner : BitVec 32)
  | sending (joiner : BitVec 32)
  | expired
  | asleep
  | gone
  deriving DecidableEq

/-- The fields `retval` and `j` of `struct thrd`, and where the threads are. `inside` are those between
`e_begin` and `e_end`, `limbo` those that `e_free` still waits for. The rest only records: `exited` the
argument of `thrd_exit`, `returned` what each join gave, `fault` a use of the record after its memory was
reused, `tripped` a failed assertion. -/
structure Joins where
  thread : ExitPc
  retval : ℤ
  j : BitVec 32
  pc : LocalId → JoinPc
  inside : List LocalId
  limbo : Option (List LocalId)
  reclaimed : Bool
  frees : ℕ
  fault : Bool
  tripped : Bool
  timedOut : Bool
  exited : Option ℤ
  returned : List (LocalId × Option ℤ)

inductive JoinStep
  /-- `thrd_exit` is called. -/
  | exit (retval : ℤ)
  /-- The thread goes on. -/
  | run
  /-- Its message is not received in time. -/
  | timeOut
  | deliver (i : LocalId)
  /-- `thrd_join` is called. -/
  | call (i : LocalId)
  /-- The joiner goes on. -/
  | join (i : LocalId)
  | fail (i : LocalId) (e : RecvError)
  /-- The memory of the stack goes to something else. -/
  | reclaim

namespace Joins
variable (s : Joins)

/-- `thrd_create`. -/
def created : Joins :=
  ⟨.running, 0, 0, fun _ => .idle, [], none, false, 0, false, false, false, none, []⟩

/-- The record is used. -/
def touch : Joins := { s with fault := s.fault || s.reclaimed }

def goto (i : LocalId) (p : JoinPc) : Joins := { s with pc := Function.update s.pc i p }

/-- The assertion of `thrd_exit`, and the message to a joiner. -/
def address (joiner : BitVec 32) : Joins :=
  { s with thread := .sending joiner, tripped := s.tripped || decide (joiner = 1 ∨ joiner &&& 0x3f ≠ 0) }

/-- `e_end` and the return. -/
def finish (i : LocalId) (r : Option ℤ) : Joins :=
  { s.goto i .idle with
    inside := s.inside.filter (· ≠ i)
    limbo := s.limbo.map fun l => l.filter (· ≠ i)
    returned := s.returned ++ [(i, r)] }

/-- The next operation of `thrd_join`. -/
def join (i : LocalId) : Option Joins :=
  match s.pc i with
  | .begun => some (s.goto i (if s.thread = .gone then .leaving else .found))
  | .found => some (s.touch.goto i (.loaded s.j))
  | .loaded jOld =>
    if jOld = 0 ∧ s.j = 0 then some { s.touch.goto i .receiving with j := i.raw }
    -- a failed exchange loads the word again
    else some (s.touch.goto i (if (if jOld = 0 then s.j else jOld) ≠ 1 then .second else .active))
  | .received res => some { s.goto i (.freeing res) with thread := .gone }
  | .unreceived => some (s.touch.goto i (.freeing s.retval))
  | .second => some (s.touch.goto i .waiting)
  | .active => some (s.touch.goto i (.activeRead s.retval))
  | .activeRead res =>
    if s.thread = .gone then some (s.goto i .leaving) else some { s.goto i (.freeing res) with thread := .gone }
  | .freeing res => some { s.touch.goto i (.freed res) with frees := s.frees + 1, limbo := some s.inside }
  | .freed res => some (s.finish i (some res))
  | .leaving => some (s.finish i none)
  | .idle | .receiving | .waiting => none

def exec : JoinStep → Option Joins
  | .exit v =>
    if s.thread = .running then some { s.touch with thread := .exiting, retval := v, exited := some v } else none
  | .run =>
    match s.thread with
    | .exiting => some { s.touch with thread := .loaded s.j }
    | .loaded joiner =>
      if joiner ≠ 0 then some (s.address joiner)
      else if s.j = 0 then some { s.touch with j := 1, thread := .asleep }
      else some (s.touch.address s.j)
    | .expired => some { s with thread := .gone }
    | _ => none
  | .timeOut =>
    match s.thread with
    | .sending _ => some { s with thread := .expired, timedOut := true }
    | _ => none
  | .deliver i =>
    match s.thread, s.pc i with
    | .sending joiner, .receiving =>
      if joiner = i.raw then some { s.goto i (.received s.retval) with thread := .asleep } else none
    | _, _ => none
  | .call i =>
    match s.pc i with
    | .idle => some { s.goto i .begun with inside := i :: s.inside }
    | _ => none
  | .join i => s.join i
  | .fail i e =>
    match s.pc i with
    | .receiving =>
      match e with
      | .nonExisting => some (s.goto i .leaving)
      | .canceled | .aborted => some s
      | .other => some (s.goto i .unreceived)
    | .waiting => if e = .nonExisting then some (s.goto i .leaving) else some s
    | _ => none
  | .reclaim => if s.limbo = some [] then some { s with reclaimed := true } else none

/-- The kernel gives no error but these to a receive without a time limit, and the one for a partner that
does not exist only then. -/
def kernel : JoinStep → Prop
  | .fail _ e => e ≠ .other ∧ (e = .nonExisting → s.thread = .gone)
  | _ => True

instance (step : JoinStep) : Decidable (s.kernel step) :=
  match step with
  | .fail _ _ => inferInstanceAs (Decidable (_ ∧ _))
  | .exit _ | .run | .timeOut | .deliver _ | .call _ | .join _ | .reclaim => instDecidableTrue

end Joins

-- The invariant

/-- The joiner may use the record yet. -/
def JoinPc.Reads : JoinPc → Prop
  | .idle | .begun | .waiting | .freed _ | .leaving => False
  | _ => True

/-- The joiner is going to return success. -/
def JoinPc.Wins : JoinPc → Prop
  | .freeing _ | .freed _ => True
  | _ => False

/-- It is in `thrd_join`, and it has not got the thread. -/
def JoinPc.Tries : JoinPc → Prop
  | .idle | .freeing _ | .freed _ => False
  | _ => True

namespace Joins
variable {s s' : Joins} {i k : LocalId} {p q : JoinPc}

/-- What holds where a joiner is. -/
def At (s : Joins) (i : LocalId) : JoinPc → Prop
  | .idle | .begun | .found | .second | .waiting => True
  | .loaded jOld => jOld = 0 ∨ jOld = s.j
  | .receiving => s.j = i.raw ∧ s.thread ≠ .asleep
  | .received res => s.j = i.raw ∧ s.thread = .asleep ∧ s.exited = some res
  | .unreceived => False
  | .active => s.j = 1
  | .activeRead res => s.j = 1 ∧ s.exited = some res
  | .freeing res => s.thread = .gone ∧ s.exited = some res ∧ s.limbo = none
  | .freed res => s.thread = .gone ∧ s.exited = some res ∧ s.limbo ≠ none
  | .leaving => s.thread = .gone

/-- What holds where the thread is. -/
def Runs (s : Joins) : ExitPc → Prop
  | .running | .exiting => s.j ≠ 1
  | .loaded joiner => s.j ≠ 1 ∧ (joiner = 0 ∨ joiner = s.j)
  | .sending joiner => joiner = s.j ∧ s.j ≠ 0 ∧ s.j ≠ 1
  | .expired => s.timedOut = true ∧ s.j ≠ 0 ∧ s.j ≠ 1
  | .asleep | .gone => s.j ≠ 0

/-- How many joins have succeeded. -/
def successes (s : Joins) : ℕ := s.returned.countP (·.2.isSome)

structure Inv (s : Joins) : Prop where
  word : s.j = 0 ∨ s.j = 1 ∨ ∃ i : LocalId, s.j = i.raw
  thread : s.Runs s.thread
  exited : s.thread ≠ .running → s.exited = some s.retval
  at_pc : ∀ i, s.At i (s.pc i)
  wins : ∀ i k, (s.pc i).Wins → (s.pc k).Wins → i = k
  inside : ∀ i, i ∈ s.inside ↔ s.pc i ≠ .idle
  limbo : ∀ l, s.limbo = some l → ∀ i, (s.pc i).Reads → i ∈ l
  gone : s.limbo ≠ none → s.thread = .gone
  reclaimed : s.reclaimed = true → s.limbo = some []
  fault : s.fault = false
  tripped : s.tripped = false
  frees : s.frees = if s.limbo = none then 0 else 1
  success : ∀ x ∈ s.returned, ∀ v, x.2 = some v → s.exited = some v ∧ s.limbo ≠ none ∧ ∀ i, ¬ (s.pc i).Wins
  once : s.successes ≤ 1
  returned : s.returned ≠ [] → s.thread = .gone
  settled : s.thread = .gone → s.timedOut = false → (∃ i, (s.pc i).Wins) ∨ s.successes = 1

end Joins

theorem JoinPc.Tries.ne_idle {p : JoinPc} (hp : p.Tries) : p ≠ .idle := by
  rintro rfl
  exact hp

theorem JoinPc.Tries.not_wins {p : JoinPc} (hp : p.Tries) : ¬ p.Wins := by
  cases p <;> first | exact id | exact hp.elim

theorem LocalId.raw_ne_one (i : LocalId) : i.raw ≠ 1 := by
  intro h
  have hflags := i.flags
  rw [h] at hflags
  exact absurd hflags (by decide)

theorem LocalId.raw_inj {i k : LocalId} (h : i.raw = k.raw) : i = k := by
  cases i
  cases k
  cases h
  rfl

namespace Joins
variable {s s' : Joins} {i k : LocalId} {p q : JoinPc}

theorem Inv.created : created.Inv where
  word := .inl rfl
  thread h := absurd h (by decide)
  exited h := absurd rfl h
  at_pc _ := trivial
  wins _ _ h := h.elim
  inside i := by simp [Joins.created]
  limbo := by rintro _ ⟨⟩
  gone h := absurd rfl h
  reclaimed := by rintro ⟨⟩
  fault := rfl
  tripped := rfl
  frees := rfl
  success := by rintro _ ⟨⟩
  once := Nat.zero_le 1
  returned h := absurd rfl h
  settled := by rintro ⟨⟩

@[simp] theorem goto_self (s : Joins) (i : LocalId) (p : JoinPc) : (s.goto i p).pc i = p := Function.update_self ..

theorem goto_of_ne (h : k ≠ i) : (s.goto i p).pc k = s.pc k := Function.update_of_ne h ..

theorem forall_goto (P : LocalId → JoinPc → Prop) :
    (∀ k, P k ((s.goto i p).pc k)) ↔ P i p ∧ ∀ k, k ≠ i → P k (s.pc k) :=
  Function.forall_update_iff s.pc P

theorem touch_eq (h : s.reclaimed = false) : s.touch = s := by
  cases s
  cases h
  simp [touch]

theorem wins_goto (hp : ¬ (s.pc i).Wins) (hq : ¬ q.Wins) : ∀ k, ((s.goto i q).pc k).Wins ↔ (s.pc k).Wins :=
  (forall_goto fun k p => p.Wins ↔ (s.pc k).Wins).mpr ⟨iff_of_false hq hp, fun _ _ => Iff.rfl⟩

namespace Inv

/-- The record is there for those that may use it. -/
theorem reads (h : s.Inv) (hp : s.pc i = p) (hr : p.Reads) : s.touch = s := by
  subst hp
  refine touch_eq (Bool.eq_false_iff.mpr fun hrec => ?_)
  exact absurd (h.limbo [] (h.reclaimed hrec) i hr) List.not_mem_nil

theorem runs (h : s.Inv) {t : ExitPc} (hs : s.thread = t) : s.Runs t := hs ▸ h.thread

theorem at_eq (h : s.Inv) (hp : s.pc i = p) : s.At i p := hp ▸ h.at_pc i

theorem limbo_none (h : s.Inv) (hg : s.thread ≠ .gone) : s.limbo = none := by
  by_contra hno
  exact hg (h.gone hno)

/-- The record is there until the thread is removed. -/
theorem lives (h : s.Inv) (hg : s.thread ≠ .gone) : s.touch = s := by
  refine touch_eq (Bool.eq_false_iff.mpr fun hrec => ?_)
  cases (h.limbo_none hg).symm.trans (h.reclaimed hrec)

/-- Until then no join succeeds. -/
theorem no_wins (h : s.Inv) (hg : s.thread ≠ .gone) : ¬ (s.pc i).Wins := by
  intro hw
  have hat := h.at_pc i
  cases hp : s.pc i <;> rw [hp] at hat hw <;> first | exact hg hat.1 | exact hw

theorem inside_goto (h : s.Inv) (hp : s.pc i ≠ .idle) (hq : q ≠ .idle) (k : LocalId) :
    k ∈ s.inside ↔ (s.goto i q).pc k ≠ .idle :=
  (forall_goto fun k p => k ∈ s.inside ↔ p ≠ .idle).mpr
    ⟨(h.inside i).trans (iff_of_true hp hq), fun k _ => h.inside k⟩ k

/-- A joiner goes on by itself. -/
theorem goto (h : s.Inv) (hp : s.pc i = p) (htp : p.Tries) (htq : q.Tries) (hat : s.At i q)
    (hreads : q.Reads → p.Reads ∨ s.thread ≠ .gone) : (s.goto i q).Inv := by
  subst hp
  have hwins := wins_goto htp.not_wins htq.not_wins
  refine { h with at_pc := (forall_goto _).mpr ⟨hat, fun k _ => h.at_pc k⟩, wins := fun k l => ?_,
                  inside := h.inside_goto htp.ne_idle htq.ne_idle,
                  limbo := fun l hl => (forall_goto fun k p => p.Reads → k ∈ l).mpr ⟨fun hr => ?_, fun k _ => h.limbo l hl k⟩,
                  success := fun x hx v hv => ?_, settled := fun hg ht => ?_ }
  · rw [hwins, hwins]
    exact h.wins k l
  · obtain hr | hg := hreads hr
    · exact h.limbo l hl i hr
    · cases (h.limbo_none hg).symm.trans hl
  · obtain ⟨he, hl, hno⟩ := h.success x hx v hv
    exact ⟨he, hl, fun k => (hwins k).not.mpr (hno k)⟩
  · exact (h.settled hg ht).imp_left fun he => he.imp fun k => (hwins k).mpr

theorem returned_nil (h : s.Inv) (hg : s.thread ≠ .gone) : s.returned = [] := by
  by_contra hno
  exact hg (h.returned hno)

theorem not_returned (h : s.Inv) (hg : s.thread ≠ .gone) {x : LocalId × Option ℤ} : x ∉ s.returned := by
  rw [h.returned_nil hg]
  exact List.not_mem_nil

/-- The thread goes on by itself. -/
theorem move (h : s.Inv) {t : ExitPc} (b : Bool) (hrun : s.thread ≠ .running) (hsleep : s.thread ≠ .asleep)
    (hgone : s.thread ≠ .gone) (hsleep' : t ≠ .asleep) (hgone' : t ≠ .gone)
    (hruns : Runs { s with timedOut := b } t) : ({ s with thread := t, timedOut := b } : Joins).Inv := by
  refine { h with thread := hruns, exited := fun _ => h.exited hrun, at_pc := fun k => ?_, gone := fun hl => ?_,
                  returned := fun hr => absurd (h.returned_nil hgone) hr, settled := fun hg => absurd hg hgone' }
  · have hat := h.at_pc k
    show At _ k (s.pc k)
    cases hp : s.pc k <;> rw [hp] at hat <;> simp only [At] at hat ⊢ <;> first | exact hat | skip
    case receiving => exact ⟨hat.1, hsleep'⟩
    case received => exact absurd hat.2.1 hsleep
    case freeing => exact absurd hat.1 hgone
    case freed => exact absurd hat.1 hgone
    case leaving => exact absurd hat hgone
  · exact absurd (h.limbo_none hgone) hl

/-- The word is set, which it is once. -/
theorem claim (h : s.Inv) (hj : s.j = 0) {w : BitVec 32} {t : ExitPc} (hw : w = 1 ∨ ∃ i : LocalId, w = i.raw)
    (hruns : Runs { s with j := w } t) (hexited : t ≠ .running → s.exited = some s.retval) (hgone : s.thread ≠ .gone)
    (hgone' : t ≠ .gone) : ({ s with j := w, thread := t } : Joins).Inv := by
  refine { h with word := .inr hw, thread := hruns, exited := hexited, at_pc := fun k => ?_, gone := fun hl => ?_,
                  returned := fun hr => absurd (h.returned_nil hgone) hr, settled := fun hg => absurd hg hgone' }
  · have hat := h.at_pc k
    show At _ k (s.pc k)
    cases hp : s.pc k <;> rw [hp] at hat <;> simp only [At] at hat ⊢
    case loaded => exact .inl (hat.elim id fun h0 => h0.trans hj)
    case receiving => exact absurd (hat.1.symm.trans hj) k.ne_nil
    case received => exact absurd (hat.1.symm.trans hj) k.ne_nil
    case active => exact absurd (hat.symm.trans hj) (by decide)
    case activeRead => exact absurd (hat.1.symm.trans hj) (by decide)
    case freeing => exact absurd hat.1 hgone
    case freed => exact absurd hat.1 hgone
    case leaving => exact absurd hat hgone
  · exact absurd (h.limbo_none hgone) hl

/-- The thread is removed while nobody has its message. -/
theorem at_gone (h : s.Inv) (hgone : s.thread ≠ .gone) (hno : ∀ res, s.pc k ≠ .received res) :
    At { s with thread := .gone } k (s.pc k) := by
  have hat := h.at_pc k
  cases hp : s.pc k <;> rw [hp] at hat <;> simp only [At] at hat ⊢ <;> first | exact hat | skip
  case receiving => exact ⟨hat.1, by simp⟩
  case received res => exact absurd hp (hno res)
  case freeing => exact absurd hat.1 hgone
  case freed => exact absurd hat.1 hgone

/-- A joiner removes the thread. -/
theorem destroy (h : s.Inv) {res : ℤ} (hp : (s.pc i).Reads) (hrun : s.thread ≠ .running) (hgone : s.thread ≠ .gone)
    (hexited : s.exited = some res) (hj : s.j ≠ 0) (hothers : ∀ k, k ≠ i → s.j ≠ k.raw) :
    ({ s.goto i (.freeing res) with thread := .gone } : Joins).Inv := by
  have hwin : ∀ k, ((s.goto i (.freeing res)).pc k).Wins → k = i :=
    (forall_goto fun k p => p.Wins → k = i).mpr ⟨fun _ => rfl, fun k _ hk => absurd hk (h.no_wins hgone)⟩
  refine { h with thread := hj, exited := fun _ => h.exited hrun, at_pc := (forall_goto _).mpr ⟨?_, fun k hne => ?_⟩,
                  wins := fun k l hk hl => (hwin k hk).trans (hwin l hl).symm,
                  inside := h.inside_goto ?_ (by simp),
                  limbo := fun l hl => ?_, gone := fun _ => rfl, success := fun _ hx => absurd hx (h.not_returned hgone),
                  returned := fun _ => rfl, settled := fun _ _ => .inl ⟨i, ?_⟩ }
  · exact ⟨rfl, hexited, h.limbo_none hgone⟩
  · refine h.at_gone hgone fun res hr => hothers k hne ?_
    have hat := h.at_pc k
    rw [hr] at hat
    exact hat.1
  · intro hi
    rw [hi] at hp
    exact hp
  · cases (h.limbo_none hgone).symm.trans hl
  · show ((s.goto i _).pc i).Wins
    rw [goto_self]
    trivial

/-- The kernel removes the thread for `thrd_exit`. -/
theorem expire (h : s.Inv) (hs : s.thread = .expired) : ({ s with thread := .gone } : Joins).Inv := by
  have hgone : s.thread ≠ .gone := by simp [hs]
  obtain ⟨hlate, hj, -⟩ := h.runs hs
  refine { h with thread := hj, exited := fun _ => h.exited (by simp [hs]), at_pc := fun k => h.at_gone hgone fun res hr => ?_,
                  gone := fun _ => rfl, returned := fun _ => rfl, settled := fun _ ht => ?_ }
  · have hat := h.at_pc k
    rw [hr, At, hs] at hat
    cases hat.2.1
  · cases hlate.symm.trans ht

/-- The joiner frees the stack. -/
theorem free (h : s.Inv) {res : ℤ} (hp : s.pc i = .freeing res) :
    ({ s.goto i (.freed res) with frees := s.frees + 1, limbo := some s.inside } : Joins).Inv := by
  obtain ⟨hg, he, hl⟩ := h.at_eq hp
  have hwin : (s.pc i).Wins := hp ▸ trivial
  have hwins : ∀ k, ((s.goto i (.freed res)).pc k).Wins → k = i :=
    (forall_goto fun k p => p.Wins → k = i).mpr ⟨fun _ => rfl, fun k _ hk => h.wins k i hk hwin⟩
  refine { h with at_pc := (forall_goto _).mpr ⟨⟨hg, he, by simp⟩, fun k hne => ?_⟩,
                  wins := fun k l hk hl => (hwins k hk).trans (hwins l hl).symm,
                  inside := h.inside_goto (by simp [hp]) (by simp),
                  limbo := ?_, gone := fun _ => hg, reclaimed := fun hr => ?_, frees := ?_,
                  success := fun x hx v hv => ?_, settled := fun _ _ => .inl ⟨i, ?_⟩ }
  · have hat := h.at_pc k
    have hno : ¬ (s.pc k).Wins := fun hk => hne (h.wins k i hk hwin)
    cases hk : s.pc k <;> rw [hk] at hat hno <;> first | exact hat | exact absurd trivial hno
  · rintro _ ⟨⟩
    refine (forall_goto fun k p => p.Reads → k ∈ s.inside).mpr ⟨False.elim, fun k _ hk => (h.inside k).mpr fun hi => ?_⟩
    rw [hi] at hk
    exact hk
  · cases hl.symm.trans (h.reclaimed hr)
  · show s.frees + 1 = 1
    rw [h.frees, if_pos hl]
  · exact absurd hl (h.success x hx v hv).2.1
  · show ((s.goto i _).pc i).Wins
    rw [goto_self]
    trivial

/-- A join returns. -/
theorem leave (h : s.Inv) {r : Option ℤ} (hp : s.pc i ≠ .idle) (hg : s.thread = .gone)
    (hr : ∀ v, r = some v → s.exited = some v ∧ s.limbo ≠ none) (hw : (s.pc i).Wins ↔ r.isSome) : (s.finish i r).Inv := by
  have hback : ∀ k, ((s.finish i r).pc k).Wins → (s.pc k).Wins ∧ k ≠ i :=
    (forall_goto fun k p => p.Wins → (s.pc k).Wins ∧ k ≠ i).mpr ⟨False.elim, fun k hne hk => ⟨hk, hne⟩⟩
  have hnone : (s.limbo.map fun l => l.filter (· ≠ i)) = none ↔ s.limbo = none := Option.map_eq_none_iff
  have hcount : (s.finish i r).successes = s.successes + if r.isSome then 1 else 0 := by
    rw [successes, finish, List.countP_append, List.countP_singleton, successes]
  -- a join that succeeds is the first one
  have hfirst : r.isSome → s.successes = 0 := by
    intro hsome
    refine List.countP_eq_zero.mpr fun x hx hv => ?_
    obtain ⟨v, hv⟩ := Option.isSome_iff_exists.mp hv
    exact (h.success x hx v hv).2.2 i (hw.mpr hsome)
  refine { h with at_pc := (forall_goto _).mpr ⟨trivial, fun k _ => ?_⟩, wins := fun k l hk hl => ?_,
                  inside := (forall_goto fun k p => k ∈ s.inside.filter (· ≠ i) ↔ p ≠ .idle).mpr ⟨by simp, fun k hne => ?_⟩,
                  limbo := fun l hl => ?_, gone := fun _ => hg, reclaimed := fun hrec => ?_, frees := ?_,
                  success := fun x hx v hv => ?_, once := ?_, returned := fun _ => hg, settled := fun _ ht => ?_ }
  · have hat := h.at_pc k
    cases hk : s.pc k <;> rw [hk] at hat <;> first | exact hat | skip
    case freeing => exact ⟨hat.1, hat.2.1, hnone.mpr hat.2.2⟩
    case freed => exact ⟨hat.1, hat.2.1, hnone.not.mpr hat.2.2⟩
  · exact h.wins k l (hback k hk).1 (hback l hl).1
  · simpa [hne] using h.inside k
  · obtain ⟨l, hl', rfl⟩ := Option.map_eq_some_iff.mp hl
    refine (forall_goto fun k p => p.Reads → k ∈ l.filter (· ≠ i)).mpr ⟨False.elim, fun k hne hk => ?_⟩
    exact List.mem_filter.mpr ⟨h.limbo l hl' k hk, by simpa using hne⟩
  · show s.limbo.map _ = some []
    rw [h.reclaimed hrec]
    rfl
  · show s.frees = if s.limbo.map _ = none then 0 else 1
    simp only [hnone]
    exact h.frees
  · obtain hx | hx := List.mem_append.mp hx
    · obtain ⟨he, hl, hno⟩ := h.success x hx v hv
      exact ⟨he, hnone.not.mpr hl, fun k hk => hno k (hback k hk).1⟩
    · cases List.mem_singleton.mp hx
      obtain ⟨he, hl⟩ := hr v hv
      refine ⟨he, hnone.not.mpr hl, fun k hk => (hback k hk).2 (h.wins k i (hback k hk).1 (hw.mpr ?_))⟩
      simp [show r = some v from hv]
  · rw [hcount]
    split
    · next hsome => rw [hfirst hsome]
    · exact h.once
  · rw [hcount]
    split
    · next hsome => exact .inr (by rw [hfirst hsome])
    · next hsome =>
      refine (h.settled hg ht).imp_left fun hwin => ?_
      obtain ⟨k, hk⟩ := hwin
      refine ⟨k, ?_⟩
      show ((s.goto i .idle).pc k).Wins
      rwa [goto_of_ne]
      rintro rfl
      exact hsome (hw.mp hk)

/-- `thrd_exit` stores the value before it looks for a joiner. -/
theorem exit (h : s.Inv) (hs : s.thread = .running) (v : ℤ) :
    ({ s.touch with thread := .exiting, retval := v, exited := some v } : Joins).Inv := by
  have hgone : s.thread ≠ .gone := by simp [hs]
  have hword : s.j ≠ 1 := h.runs hs
  rw [h.lives hgone]
  refine { h with thread := hword, exited := fun _ => rfl, at_pc := fun k => ?_, gone := fun hl => ?_,
                  success := fun _ hx => absurd hx (h.not_returned hgone), returned := fun hr => absurd (h.returned_nil hgone) hr,
                  settled := fun hg => absurd hg (by simp) }
  · have hat := h.at_pc k
    show At _ k (s.pc k)
    cases hp : s.pc k <;> rw [hp] at hat <;> simp only [At, hs, reduceCtorEq] at hat ⊢ <;> first | exact hat | skip
    case receiving => exact ⟨hat.1, by simp⟩
    case received => exact hat.2.1.elim
    case activeRead => exact absurd hat.1 hword
    case freeing => exact hat.1.elim
    case freed => exact hat.1.elim
  · exact absurd (h.limbo_none hgone) hl

/-- The message of the thread is received. -/
theorem deliver (h : s.Inv) (hs : s.thread = .sending i.raw) (hp : s.pc i = .receiving) :
    ({ s.goto i (.received s.retval) with thread := .asleep } : Joins).Inv := by
  have hgone : s.thread ≠ .gone := by simp [hs]
  obtain ⟨hj, hword, -⟩ := h.runs hs
  have hexited := h.exited (by simp [hs])
  have hwins : ∀ k, ¬ ((s.goto i (.received s.retval)).pc k).Wins :=
    (forall_goto fun k p => ¬ p.Wins).mpr ⟨id, fun k _ => h.no_wins hgone⟩
  refine { h with thread := hword, exited := fun _ => hexited, at_pc := (forall_goto _).mpr ⟨⟨hj.symm, rfl, hexited⟩, fun k hne => ?_⟩,
                  wins := fun k l hk => absurd hk (hwins k), inside := h.inside_goto (by simp [hp]) (by simp),
                  limbo := fun l hl => ?_, gone := fun hl => absurd (h.limbo_none hgone) hl, success := fun x hx v hv => ?_,
                  returned := fun hr => absurd (h.returned_nil hgone) hr, settled := fun hg => absurd hg (by simp) }
  · have hat := h.at_pc k
    cases hk : s.pc k <;> rw [hk] at hat <;> simp only [At, hs, reduceCtorEq] at hat ⊢ <;> first | exact hat | skip
    case receiving => exact absurd (LocalId.raw_inj (hat.1.symm.trans hj.symm)) hne
    case received => exact hat.2.1.elim
  · cases (h.limbo_none hgone).symm.trans hl
  · obtain ⟨he, hl, -⟩ := h.success x hx v hv
    exact ⟨he, hl, hwins⟩

/-- `thrd_join` begins. -/
theorem call (h : s.Inv) (hp : s.pc i = .idle) : ({ s.goto i .begun with inside := i :: s.inside } : Joins).Inv := by
  have hwins : ∀ k, ((s.goto i .begun).pc k).Wins ↔ (s.pc k).Wins := wins_goto (by simp [hp, JoinPc.Wins]) id
  refine { h with at_pc := (forall_goto _).mpr ⟨trivial, fun k _ => h.at_pc k⟩, wins := fun k l hk hl => ?_,
                  inside := (forall_goto fun k p => k ∈ i :: s.inside ↔ p ≠ .idle).mpr ⟨by simp, fun k hne => ?_⟩,
                  limbo := fun l hl => ?_, success := fun x hx v hv => ?_, settled := fun hg ht => ?_ }
  · exact h.wins k l ((hwins k).mp hk) ((hwins l).mp hl)
  · simpa [hne] using h.inside k
  · exact (forall_goto fun k p => p.Reads → k ∈ l).mpr ⟨False.elim, fun k _ => h.limbo l hl k⟩
  · obtain ⟨he, hl, hno⟩ := h.success x hx v hv
    exact ⟨he, hl, fun k => (hwins k).not.mpr (hno k)⟩
  · exact (h.settled hg ht).imp_left fun he => he.imp fun k => (hwins k).mpr

/-- The first joiner gets the word. -/
theorem first (h : s.Inv) (hp : s.pc i = .loaded 0) (hj : s.j = 0) :
    ({ s.goto i .receiving with j := i.raw } : Joins).Inv := by
  have hrun := h.thread
  obtain ⟨hruns, hsleep, hgone⟩ : Runs { s with j := i.raw } s.thread ∧ s.thread ≠ .asleep ∧ s.thread ≠ .gone := by
    cases ht : s.thread <;> rw [ht] at hrun <;> simp only [Runs, hj] at hrun ⊢
    case running => exact ⟨i.raw_ne_one, by simp, by simp⟩
    case exiting => exact ⟨i.raw_ne_one, by simp, by simp⟩
    case loaded joiner => exact ⟨⟨i.raw_ne_one, .inl (hrun.2.elim id id)⟩, by simp, by simp⟩
    all_goals simp at hrun
  have hset : ({ s with j := i.raw } : Joins).Inv := h.claim hj (.inr ⟨i, rfl⟩) hruns h.exited hgone hgone
  exact hset.goto hp trivial trivial ⟨rfl, hsleep⟩ fun _ => .inl trivial

theorem join (h : s.Inv) (hs : s.join i = some s') : s'.Inv := by
  unfold Joins.join at hs
  cases hp : s.pc i <;> rw [hp] at hs <;> have hat := h.at_eq hp
  case begun =>
    simp only [Option.some.injEq] at hs
    subst hs
    split
    · next hg => exact h.goto hp trivial trivial hg False.elim
    · next hg => exact h.goto hp trivial trivial trivial fun _ => .inr hg
  case found =>
    cases hs
    rw [h.reads hp trivial]
    exact h.goto hp trivial trivial (.inr rfl) fun _ => .inl trivial
  case loaded jOld =>
    simp only [h.reads hp trivial] at hs
    split at hs
    · next hzero =>
      cases hs
      exact h.first (hp.trans (by rw [hzero.1])) hzero.2
    · cases hs
      by_cases hone : (if jOld = 0 then s.j else jOld) = 1
      · rw [if_neg (not_not.mpr hone)]
        refine h.goto hp trivial trivial ?_ fun _ => .inl trivial
        split at hone
        · exact hone
        · next hne => exact (hat.resolve_left hne).symm.trans hone
      · rw [if_pos hone]
        exact h.goto hp trivial trivial trivial fun _ => .inl trivial
  case received res =>
    cases hs
    obtain ⟨hj, hsleep, hexited⟩ := hat
    refine h.destroy (hp ▸ trivial) (by simp [hsleep]) (by simp [hsleep]) hexited (hj ▸ i.ne_nil) fun k hne hk => ?_
    exact hne (LocalId.raw_inj (hk.symm.trans hj))
  case unreceived => exact hat.elim
  case second =>
    cases hs
    rw [h.reads hp trivial]
    exact h.goto hp trivial trivial trivial False.elim
  case active =>
    cases hs
    rw [h.reads hp trivial]
    refine h.goto hp trivial trivial ⟨hat, h.exited fun hrun => ?_⟩ fun _ => .inl trivial
    exact h.runs hrun hat
  case activeRead res =>
    obtain ⟨hj, hexited⟩ := hat
    simp only at hs
    split at hs
    · next hg =>
      cases hs
      exact h.goto hp trivial trivial hg False.elim
    · next hg =>
      cases hs
      refine h.destroy (hp ▸ trivial) (fun hrun => h.runs hrun hj) hg hexited (by simp [hj]) fun k _ hk => ?_
      exact k.raw_ne_one (hk.symm.trans hj)
  case freeing res =>
    cases hs
    rw [h.reads hp trivial]
    exact h.free hp
  case freed res =>
    cases hs
    obtain ⟨hg, hexited, hl⟩ := hat
    refine h.leave (by simp [hp]) hg (fun v hv => ?_) (iff_of_true (hp ▸ trivial) rfl)
    cases hv
    exact ⟨hexited, hl⟩
  case leaving =>
    cases hs
    exact h.leave (by simp [hp]) hat (by simp) (iff_of_false (by simp [hp, JoinPc.Wins]) (by simp))
  all_goals cases hs

/-- The assertion of `thrd_exit` does not fail. -/
theorem address (h : s.Inv) {joiner : BitVec 32} (ht : s.thread = .loaded joiner) (hj : s.j ≠ 0) : (s.address s.j).Inv := by
  obtain ⟨hone, -⟩ := h.runs ht
  have hpass : ¬ (s.j = 1 ∨ s.j &&& 0x3f ≠ 0) := by
    obtain hw | hw | ⟨i, hw⟩ := h.word
    · exact absurd hw hj
    · exact absurd hw hone
    · rw [hw] at hone ⊢
      exact not_or.mpr ⟨hone, not_not.mpr i.flags⟩
  have heq : s.address s.j = { s with thread := .sending s.j } := by
    rw [Joins.address, h.tripped, decide_eq_false hpass, Bool.or_false]
  rw [heq]
  exact h.move _ (by simp [ht]) (by simp [ht]) (by simp [ht]) (by simp) (by simp) ⟨rfl, hj, hone⟩

/-- `thrd_exit` goes on. -/
theorem run (h : s.Inv) (hs : s.exec .run = some s') : s'.Inv := by
  unfold Joins.exec at hs
  cases ht : s.thread <;> simp only [ht] at hs <;> have hruns := h.runs ht
  case exiting =>
    cases hs
    rw [h.lives (by simp [ht])]
    exact h.move _ (by simp [ht]) (by simp [ht]) (by simp [ht]) (by simp) (by simp) ⟨hruns, .inr rfl⟩
  case loaded joiner =>
    have hgone : s.thread ≠ .gone := by simp [ht]
    rw [h.lives hgone] at hs
    split at hs
    · next hne =>
      cases hs
      obtain rfl := hruns.2.resolve_left hne
      exact h.address ht hne
    · split at hs
      · next hzero =>
        cases hs
        exact h.claim hzero (.inl rfl) (by simp [Runs]) (fun _ => h.exited (by simp [ht])) hgone (by simp)
      · next hj =>
        cases hs
        exact h.address ht hj
  case expired =>
    cases hs
    exact h.expire ht
  all_goals cases hs

theorem exec (h : s.Inv) {step : JoinStep} (hk : s.kernel step) (hs : s.exec step = some s') : s'.Inv := by
  cases step with
  | exit v =>
    simp only [Joins.exec] at hs
    split at hs
    · next ht =>
      cases hs
      exact h.exit ht v
    · cases hs
  | run => exact h.run hs
  | timeOut =>
    simp only [Joins.exec] at hs
    split at hs
    · next ht =>
      cases hs
      exact h.move true (by simp [ht]) (by simp [ht]) (by simp [ht]) (by simp) (by simp) ⟨rfl, (h.runs ht).2⟩
    · cases hs
  | deliver i =>
    simp only [Joins.exec] at hs
    split at hs
    · next ht hp =>
      split at hs
      · next hi =>
        cases hs
        exact h.deliver (hi ▸ ht) hp
      · cases hs
    · cases hs
  | call i =>
    simp only [Joins.exec] at hs
    split at hs
    · next hp =>
      cases hs
      exact h.call hp
    · cases hs
  | join i => exact h.join hs
  | fail i e =>
    obtain ⟨hother, hnone⟩ := hk
    simp only [Joins.exec] at hs
    split at hs
    · next hp =>
      cases e with
      | nonExisting =>
        cases hs
        exact h.goto hp trivial trivial (hnone rfl) False.elim
      | canceled | aborted =>
        cases hs
        exact h
      | other => exact absurd rfl hother
    · next hp =>
      split at hs
      · next he =>
        cases hs
        exact h.goto hp trivial trivial (hnone he) False.elim
      · cases hs
        exact h
    · cases hs
  | reclaim =>
    simp only [Joins.exec] at hs
    split at hs
    · next hl =>
      cases hs
      exact { h with reclaimed := fun _ => hl }
    · cases hs

end Inv

def joinerA : LocalId := ⟨0x40, by decide, by decide⟩

def joinerB : LocalId := ⟨0x80, by decide, by decide⟩

/-- Two threads join one that exits with 7: the second one while the first has its message. -/
def twoJoins : List JoinStep :=
  [.call joinerA, .join joinerA, .join joinerA, .join joinerA, .exit 7, .run, .run, .deliver joinerA, .call joinerB,
   .join joinerB, .join joinerB, .join joinerB, .join joinerB, .join joinerA, .join joinerA, .fail joinerB .nonExisting,
   .join joinerB, .join joinerA, .reclaim]

/-- However the steps interleave, the record is used only while its memory is the thread's, no assertion
fails, the stack is freed at most once and not while the thread is there, and one join at most succeeds,
with what the thread exited with. -/
theorem joins_sound {steps : List JoinStep} (h : Run exec kernel created steps s) :
    s.fault = false ∧ s.tripped = false ∧ s.frees ≤ 1 ∧ (s.frees = 1 → s.thread = .gone) ∧ s.successes ≤ 1 ∧
      ∀ x ∈ s.returned, ∀ v, x.2 = some v → s.exited = some v := by
  have hinv := h.invariant (fun _ _ _ hk hs hinv => hinv.exec hk hs) Inv.created
  refine ⟨hinv.fault, hinv.tripped, ?_, fun hf => hinv.gone fun hl => ?_, hinv.once, fun x hx v hv => (hinv.success x hx v hv).1⟩
  · rw [hinv.frees]
    split <;> simp
  · rw [hinv.frees, if_pos hl] at hf
    cases hf

theorem joins_sound_twoJoins : ∃ s, Run exec kernel created twoJoins s ∧
    (s.fault = false ∧ s.frees ≤ 1 ∧ s.successes ≤ 1) ∧ s.returned = [(joinerB, none), (joinerA, some 7)] ∧ s.reclaimed = true := by
  obtain ⟨s, hrun, hs⟩ := Run.exists_of_evalRun exec kernel created twoJoins (fun s => (s.returned, s.reclaimed))
    ([(joinerB, none), (joinerA, some 7)], true) (by decide)
  obtain ⟨hfault, -, hfrees, -, honce, -⟩ := joins_sound hrun
  exact ⟨s, hrun, ⟨hfault, hfrees, honce⟩, congrArg Prod.fst hs, congrArg Prod.snd hs⟩

/-- Where the exit is not too late for its joiner and all joins have returned, one of them has succeeded,
and the stack is freed. -/
theorem joins_settle {steps : List JoinStep} (h : Run exec kernel created steps s) (hdone : s.inside = [])
    (hjoined : s.returned ≠ []) (hintime : s.timedOut = false) : s.successes = 1 ∧ s.frees = 1 := by
  have hinv := h.invariant (fun _ _ _ hk hs hinv => hinv.exec hk hs) Inv.created
  have hone : s.successes = 1 := by
    refine (hinv.settled (hinv.returned hjoined) hintime).resolve_left fun hwin => ?_
    obtain ⟨i, hi⟩ := hwin
    have hin : i ∈ s.inside := (hinv.inside i).mpr fun hidle => by rw [hidle] at hi; exact hi
    rw [hdone] at hin
    cases hin
  refine ⟨hone, ?_⟩
  obtain ⟨x, hx, hv⟩ := List.countP_pos_iff.mp (hone ▸ Nat.one_pos)
  obtain ⟨v, hv⟩ := Option.isSome_iff_exists.mp hv
  rw [hinv.frees, if_neg (hinv.success x hx v hv).2.1]

theorem joins_settle_twoJoins : ∃ s, Run exec kernel created twoJoins s ∧ s.successes = 1 ∧ s.frees = 1 := by
  obtain ⟨s, hrun, hs⟩ := Run.exists_of_evalRun exec kernel created twoJoins (fun s => (s.inside, s.timedOut, s.returned))
    ([], false, [(joinerB, none), (joinerA, some 7)]) (by decide)
  simp only [Prod.mk.injEq] at hs
  obtain ⟨hin, hlate, hret⟩ := hs
  exact ⟨s, hrun, joins_settle hrun hin (by simp [hret]) hlate⟩

end Joins

end Sneks.Thrd
