import Mathlib.Data.List.Nodup
import Mathlib.Logic.Function.Basic
import Sneks.Lib.Run

/-!
# Condition variables

`cnd_wait`, `cnd_signal` and `cnd_broadcast` (`lib/cnd.c`). A condition variable is a stack of the
threads that wait. There is one `thrd_wait` for each thread, which it uses again whenever it waits,
also for a mutex. A step is one atomic operation, one load of `cnd.next`, or one message.

IPC does not fail. What the mutex does is left out, but for what it writes to a `thrd_wait`.
-/

set_option linter.unusedSectionVars false

namespace Sneks.Thrd
open Lib

/-- A word of a condition variable or of `cnd.next`: `NULL`, a thread's `thrd_wait`, `EX`, or
something else. -/
inductive CndWord (τ : Type*)
  | null
  | node (t : τ)
  | ex
  | other (n : ℕ)
  deriving DecidableEq

/-- Where a thread is. `all` tells `cnd_broadcast` from `cnd_signal`. -/
inductive CndPc (τ κ : Type*)
  | idle
  /-- At the condition of the loop of `cnd_wait`. -/
  | pushing (c : κ)
  /-- It waits for the message. -/
  | waiting (c : κ)
  /-- On its way out of `cnd_wait`. -/
  | woken
  /-- At the start of `dequeue`. -/
  | dequeue (c : κ) (all : Bool)
  /-- It has loaded the head. -/
  | dequeueHead (c : κ) (old : CndWord τ) (all : Bool)
  /-- It has loaded what follows the head. -/
  | dequeueNext (c : κ) (w : τ) (next : CndWord τ) (all : Bool)
  /-- In `poke`. -/
  | poke (c : κ) (w : τ) (all : Bool)

/-- `enqueued` names the threads that were put on a stack and not taken off since. -/
structure CndState (τ κ : Type*) where
  cond : κ → CndWord τ
  next : τ → CndWord τ
  pc : τ → CndPc τ κ
  enqueued : κ → List τ

inductive CndStep (τ κ : Type*)
  | wait (t : τ) (c : κ)
  | signal (t : τ) (c : κ)
  | broadcast (t : τ) (c : κ)
  /-- The thread goes on in its call. -/
  | run (t : τ)
  /-- A mutex uses the thread's `thrd_wait`. -/
  | mtx (t : τ) (link : CndWord τ)

namespace CndState

variable {τ κ : Type*} [DecidableEq τ] [DecidableEq κ]

def init : CndState τ κ where
  cond _ := .null
  next _ := .null
  pc _ := .idle
  enqueued _ := []

variable (s : CndState τ κ)

def setPc (t : τ) (p : CndPc τ κ) : CndState τ κ := { s with pc := Function.update s.pc t p }

def setNext (t : τ) (w : CndWord τ) : CndState τ κ := { s with next := Function.update s.next t w }

def setCond (c : κ) (w : CndWord τ) (enqueued : List τ) : CndState τ κ :=
  { s with cond := Function.update s.cond c w, enqueued := Function.update s.enqueued c enqueued }

def wait (t : τ) (c : κ) : Option (CndState τ κ) :=
  match s.pc t with
  | .idle => some ((s.setNext t (s.cond c)).setPc t (.pushing c))
  | _ => none

def push (t : τ) (c : κ) : CndState τ κ :=
  if s.next t = .ex then s.setPc t .idle
  else if s.cond c = s.next t then (s.setCond c (.node t) (t :: s.enqueued c)).setPc t (.waiting c)
  else s.setNext t (s.cond c)

def signal (t : τ) (c : κ) (all : Bool) : Option (CndState τ κ) :=
  match s.pc t with
  | .idle => some (s.setPc t (.dequeue c all))
  | _ => none

def dequeueHead (t : τ) (c : κ) (all : Bool) : CndWord τ → Option (CndState τ κ)
  | .ex | .null => some (s.setPc t .idle)
  | .node w => some (s.setPc t (.dequeueNext c w (s.next w) all))
  | .other _ => none

def dequeueNext (t : τ) (c : κ) (w : τ) (next : CndWord τ) (all : Bool) : CndState τ κ :=
  if s.cond c = .node w then (s.setCond c next ((s.enqueued c).erase w)).setPc t (.poke c w all)
  else s.setPc t (.dequeueHead c (s.cond c) all)

def poke (t : τ) (c : κ) (w : τ) (all : Bool) : Option (CndState τ κ) :=
  match s.pc w with
  | .waiting _ => some ((s.setPc w .woken).setPc t (if all then .dequeue c true else .idle))
  | _ => none

def run (t : τ) : Option (CndState τ κ) :=
  match s.pc t with
  | .pushing c => some (s.push t c)
  | .woken => some (s.setPc t .idle)
  | .dequeue c all => some (s.setPc t (.dequeueHead c (s.cond c) all))
  | .dequeueHead c old all => s.dequeueHead t c all old
  | .dequeueNext c w next all => some (s.dequeueNext t c w next all)
  | .poke c w all => s.poke t c w all
  | _ => none

def mtx (t : τ) (link : CndWord τ) : Option (CndState τ κ) :=
  match s.pc t with
  | .idle | .woken => some (s.setNext t link)
  | _ => none

def exec : CndStep τ κ → Option (CndState τ κ)
  | .wait t c => s.wait t c
  | .signal t c => s.signal t c false
  | .broadcast t c => s.signal t c true
  | .run t => s.run t
  | .mtx t link => s.mtx t link

-- Stacks

/-- From `head` on the links lead over the threads of the list, and end. -/
def Chain (next : τ → CndWord τ) (head : CndWord τ) : List τ → Prop
  | [] => head = .null
  | t :: l => head = .node t ∧ Chain next (next t) l

/-- The threads on a stack are those that are enqueued, and they wait. A thread that waits is on the
stack or about to be woken up, once. -/
structure Kept : Prop where
  stack : ∀ c, Chain s.next (s.cond c) (s.enqueued c)
  waiting : ∀ c, ∀ t ∈ s.enqueued c, s.pc t = .waiting c
  woken : ∀ t c, s.pc t = .waiting c → t ∈ s.enqueued c ∨ ∃ u c' all, s.pc u = .poke c' t all
  poked : ∀ u c w all, s.pc u = .poke c w all → (∃ c', s.pc w = .waiting c') ∧ ∀ c', w ∉ s.enqueued c'

def Fresh : CndStep τ κ → Prop
  | .run t => ∀ c, s.pc t = .pushing c → s.cond c = s.next t →
      ∀ u next all, s.pc u = .dequeueNext c t next all → next = s.next t
  | _ => True

structure Inv : Prop extends s.Kept where
  nodup : ∀ c, (s.enqueued c).Nodup
  fresh : ∀ u c t next all, s.pc u = .dequeueNext c t next all → t ∈ s.enqueued c → next = s.next t
  once : ∀ u v c c' w all all', s.pc u = .poke c w all → s.pc v = .poke c' w all' → u = v

variable {s} {s' : CndState τ κ} {t u w : τ} {c c' : κ} {p : CndPc τ κ} {all : Bool}

theorem Chain.congr {next next' : τ → CndWord τ} {head : CndWord τ} {l : List τ} (h : Chain next head l)
    (hl : ∀ t ∈ l, next' t = next t) : Chain next' head l := by
  induction l generalizing head with
  | nil => exact h
  | cons t l ih =>
    refine ⟨h.1, ?_⟩
    rw [hl t List.mem_cons_self]
    exact ih h.2 fun u hu => hl u (List.mem_cons_of_mem _ hu)

theorem setPc_pc : (s.setPc t p).pc u = if u = t then p else s.pc u := Function.update_apply ..

theorem setNext_next {link : CndWord τ} : (s.setNext t link).next u = if u = t then link else s.next u :=
  Function.update_apply ..

theorem setCond_cond {w : CndWord τ} {l : List τ} : (s.setCond c w l).cond c' = if c' = c then w else s.cond c' :=
  Function.update_apply ..

theorem setCond_enqueued {w : CndWord τ} {l : List τ} :
    (s.setCond c w l).enqueued c' = if c' = c then l else s.enqueued c' :=
  Function.update_apply ..

namespace Inv

theorem not_mem (h : s.Inv) (ht : ∀ c, s.pc t ≠ .waiting c) : t ∉ s.enqueued c := fun hmem =>
  ht c (h.waiting c t hmem)

theorem ne_of_mem (h : s.Inv) (ht : ∀ c, s.pc t ≠ .waiting c) (hu : u ∈ s.enqueued c) : u ≠ t := by
  rintro rfl
  exact h.not_mem ht hu

theorem setPc (h : s.Inv) (ht : ∀ c, s.pc t ≠ .waiting c) (ht' : ∀ c w all, s.pc t ≠ .poke c w all)
    (hp : ∀ c, p ≠ .waiting c) (hp' : ∀ c w all, p ≠ .poke c w all)
    (hfresh : ∀ c w next all, p = .dequeueNext c w next all → w ∈ s.enqueued c → next = s.next w) :
    (s.setPc t p).Inv where
  stack := h.stack
  waiting c u hu := by
    rw [setPc_pc, if_neg]
    · exact h.waiting c u hu
    · exact h.ne_of_mem ht hu
  woken u c hu := by
    rw [setPc_pc] at hu
    split at hu
    · exact absurd hu (hp c)
    · obtain hmem | ⟨v, c', all, hv⟩ := h.woken u c hu
      · exact .inl hmem
      · refine .inr ⟨v, c', all, setPc_pc.trans ((if_neg ?_).trans hv)⟩
        rintro rfl
        exact ht' c' u all hv
  poked u c w all hu := by
    rw [setPc_pc] at hu
    split at hu
    · exact absurd hu (hp' c w all)
    · obtain ⟨⟨c', hw⟩, hnot⟩ := h.poked u c w all hu
      refine ⟨⟨c', setPc_pc.trans ((if_neg ?_).trans hw)⟩, hnot⟩
      rintro rfl
      exact ht c' hw
  nodup := h.nodup
  fresh u c w next all hu hw := by
    rw [setPc_pc] at hu
    split at hu
    · exact hfresh c w next all hu hw
    · exact h.fresh u c w next all hu hw
  once u v c c' w all all' hu hv := by
    rw [setPc_pc] at hu hv
    split at hu
    · exact absurd hu (hp' c w all)
    · split at hv
      · exact absurd hv (hp' c' w all')
      · exact h.once u v c c' w all all' hu hv

theorem setNext (h : s.Inv) (ht : ∀ c, s.pc t ≠ .waiting c) (link : CndWord τ) : (s.setNext t link).Inv where
  stack c := (h.stack c).congr fun u hu => setNext_next.trans (if_neg (h.ne_of_mem ht hu))
  waiting := h.waiting
  woken := h.woken
  poked := h.poked
  nodup := h.nodup
  fresh u c w next all hu hw := by
    rw [setNext_next, if_neg]
    · exact h.fresh u c w next all hu hw
    · exact h.ne_of_mem ht hw
  once := h.once

theorem push (h : s.Inv) (hpc : s.pc t = .pushing c) (hcond : s.cond c = s.next t) (hok : s.Fresh (.run t)) :
    ((s.setCond c (.node t) (t :: s.enqueued c)).setPc t (.waiting c)).Inv := by
  have ht : ∀ c, s.pc t ≠ .waiting c := fun c' => by
    rw [hpc]
    simp
  have henq (c' : κ) (u : τ) : u ∈ (s.setCond c (.node t) (t :: s.enqueued c)).enqueued c' ↔
      u ∈ s.enqueued c' ∨ c' = c ∧ u = t := by
    rw [setCond_enqueued]
    split
    · next hc =>
      subst hc
      simp [or_comm]
    · next hc => simp [hc]
  have hself : ((s.setCond c (.node t) (t :: s.enqueued c)).setPc t (.waiting c)).pc t = .waiting c :=
    setPc_pc.trans (if_pos rfl)
  -- the other threads are where they were
  have hpcs {u : τ} (hu : u ≠ t) :
      ((s.setCond c (.node t) (t :: s.enqueued c)).setPc t (.waiting c)).pc u = s.pc u := setPc_pc.trans (if_neg hu)
  have hne {u : τ} {p : CndPc τ κ} (hp : p ≠ .waiting c)
      (hu : ((s.setCond c (.node t) (t :: s.enqueued c)).setPc t (.waiting c)).pc u = p) : u ≠ t := by
    rintro rfl
    exact hp (hu.symm.trans hself)
  refine ⟨⟨fun c' => ?_, fun c' u hu => ?_, fun u c' hu => ?_, fun u c' w all hu => ?_⟩, fun c' => ?_,
    fun u c' w next all hu hw => ?_, fun u v c' c'' w all all' hu hv => ?_⟩
  · show Chain s.next ((s.setCond c (.node t) (t :: s.enqueued c)).cond c')
      ((s.setCond c (.node t) (t :: s.enqueued c)).enqueued c')
    rw [setCond_cond, setCond_enqueued]
    split
    · exact ⟨rfl, hcond ▸ h.stack c⟩
    · exact h.stack c'
  · obtain hu | ⟨rfl, rfl⟩ := (henq c' u).mp hu
    · rw [hpcs (h.ne_of_mem ht hu)]
      exact h.waiting c' u hu
    · exact hself
  · by_cases hut : u = t
    · subst hut
      exact .inl ((henq c' u).mpr (.inr ⟨(CndPc.waiting.inj (hself.symm.trans hu)).symm, rfl⟩))
    · rw [hpcs hut] at hu
      obtain hmem | ⟨v, c'', all, hv⟩ := h.woken u c' hu
      · exact .inl ((henq c' u).mpr (.inl hmem))
      · refine .inr ⟨v, c'', all, (hpcs ?_).trans hv⟩
        rintro rfl
        exact nomatch hpc.symm.trans hv
  · have hut := hne (by simp) hu
    rw [hpcs hut] at hu
    obtain ⟨⟨c'', hw⟩, hnot⟩ := h.poked u c' w all hu
    have hwt : w ≠ t := by
      rintro rfl
      exact ht c'' hw
    refine ⟨⟨c'', (hpcs hwt).trans hw⟩, fun d hmem => ?_⟩
    exact ((henq d w).mp hmem).elim (hnot d) fun hnew => hwt hnew.2
  · show ((s.setCond c (.node t) (t :: s.enqueued c)).enqueued c').Nodup
    rw [setCond_enqueued]
    split
    · exact List.nodup_cons.mpr ⟨h.not_mem ht, h.nodup c⟩
    · exact h.nodup c'
  · rw [hpcs (hne (by simp) hu)] at hu
    obtain hw | ⟨rfl, rfl⟩ := (henq c' w).mp hw
    · exact h.fresh u c' w next all hu hw
    · exact hok c' hpc hcond u next all hu
  · rw [hpcs (hne (by simp) hu)] at hu
    rw [hpcs (hne (by simp) hv)] at hv
    exact h.once u v c' c'' w all all' hu hv

theorem dequeueNext (h : s.Inv) {next : CndWord τ} (hpc : s.pc t = .dequeueNext c w next all) (hcond : s.cond c = .node w) :
    ((s.setCond c next ((s.enqueued c).erase w)).setPc t (.poke c w all)).Inv := by
  obtain ⟨l, hl, hchain⟩ : ∃ l, s.enqueued c = w :: l ∧ Chain s.next (s.next w) l := by
    have hstack := h.stack c
    rw [hcond] at hstack
    cases hl : s.enqueued c with
    | nil =>
      rw [hl] at hstack
      cases hstack
    | cons u l =>
      rw [hl] at hstack
      obtain ⟨hu, hchain⟩ := hstack
      cases hu
      exact ⟨l, rfl, hchain⟩
  have hmem : w ∈ s.enqueued c := hl ▸ List.mem_cons_self
  have hw := h.waiting c w hmem
  obtain rfl := h.fresh t c w next all hpc hmem
  have ht : ∀ c, s.pc t ≠ .waiting c := fun c' => by
    rw [hpc]
    simp
  have hwt : w ≠ t := by
    rintro rfl
    exact ht c hw
  have henq (c' : κ) (u : τ) :
      u ∈ (s.setCond c (s.next w) ((s.enqueued c).erase w)).enqueued c' ↔ u ∈ s.enqueued c' ∧ u ≠ w := by
    rw [setCond_enqueued]
    split
    · next hc =>
      subst hc
      rw [(h.nodup c').mem_erase_iff, and_comm]
    · next hc =>
      refine (and_iff_left_of_imp fun hu => ?_).symm
      rintro rfl
      exact hc (CndPc.waiting.inj ((h.waiting c' u hu).symm.trans hw))
  have hself : ((s.setCond c (s.next w) ((s.enqueued c).erase w)).setPc t (.poke c w all)).pc t = .poke c w all :=
    setPc_pc.trans (if_pos rfl)
  have hpcs {u : τ} (hu : u ≠ t) :
      ((s.setCond c (s.next w) ((s.enqueued c).erase w)).setPc t (.poke c w all)).pc u = s.pc u :=
    setPc_pc.trans (if_neg hu)
  refine ⟨⟨fun c' => ?_, fun c' u hu => ?_, fun u c' hu => ?_, fun u c' v all' hu => ?_⟩, fun c' => ?_,
    fun u c' v next all' hu hv => ?_, fun u v c' c'' x all' all'' hu hv => ?_⟩
  · show Chain s.next ((s.setCond c (s.next w) ((s.enqueued c).erase w)).cond c')
      ((s.setCond c (s.next w) ((s.enqueued c).erase w)).enqueued c')
    rw [setCond_cond, setCond_enqueued]
    split
    · rw [hl, List.erase_cons_head]
      exact hchain
    · exact h.stack c'
  · obtain ⟨hu, -⟩ := (henq c' u).mp hu
    rw [hpcs (h.ne_of_mem ht hu)]
    exact h.waiting c' u hu
  · have hut : u ≠ t := by
      rintro rfl
      exact nomatch hself.symm.trans hu
    rw [hpcs hut] at hu
    by_cases huw : u = w
    · subst huw
      exact .inr ⟨t, c, all, hself⟩
    · obtain hmem | ⟨v, c'', all', hv⟩ := h.woken u c' hu
      · exact .inl ((henq c' u).mpr ⟨hmem, huw⟩)
      · refine .inr ⟨v, c'', all', (hpcs ?_).trans hv⟩
        rintro rfl
        exact nomatch hpc.symm.trans hv
  · by_cases hut : u = t
    · subst hut
      cases hself.symm.trans hu
      exact ⟨⟨c, (hpcs hwt).trans hw⟩, fun c'' hmem => ((henq c'' w).mp hmem).2 rfl⟩
    · rw [hpcs hut] at hu
      obtain ⟨⟨c'', hv⟩, hnot⟩ := h.poked u c' v all' hu
      refine ⟨⟨c'', (hpcs ?_).trans hv⟩, fun d hmem => hnot d ((henq d v).mp hmem).1⟩
      rintro rfl
      exact ht c'' hv
  · show ((s.setCond c (s.next w) ((s.enqueued c).erase w)).enqueued c').Nodup
    rw [setCond_enqueued]
    split
    · exact (h.nodup c).erase w
    · exact h.nodup c'
  · have hut : u ≠ t := by
      rintro rfl
      exact nomatch hself.symm.trans hu
    rw [hpcs hut] at hu
    exact h.fresh u c' v next all' hu ((henq c' v).mp hv).1
  · -- what is on a stack nobody is about to wake up
    have hother {u : τ} {c' : κ} {all' : Bool} (hut : u ≠ t)
        (hu : ((s.setCond c (s.next w) ((s.enqueued c).erase w)).setPc t (.poke c w all)).pc u = .poke c' w all') :
        False := by
      rw [hpcs hut] at hu
      exact (h.poked u c' w all' hu).2 c hmem
    by_cases hut : u = t
    · subst hut
      cases hself.symm.trans hu
      by_contra hvt
      exact hother (Ne.symm hvt) hv
    · by_cases hvt : v = t
      · subst hvt
        cases hself.symm.trans hv
        exact absurd hu (hother hut)
      · rw [hpcs hut] at hu
        rw [hpcs hvt] at hv
        exact h.once u v c' c'' x all' all'' hu hv

theorem poke (h : s.Inv) (hpc : s.pc t = .poke c w all) (hw : s.pc w = .waiting c')
    (hp : ∀ c, p ≠ .waiting c) (hp' : ∀ c w all, p ≠ .poke c w all) (hp'' : ∀ c w next all, p ≠ .dequeueNext c w next all) :
    ((s.setPc w .woken).setPc t p).Inv := by
  have hnot := (h.poked t c w all hpc).2
  have ht : ∀ c, s.pc t ≠ .waiting c := fun c' => by
    rw [hpc]
    simp
  have hself : ((s.setPc w .woken).setPc t p).pc t = p := setPc_pc.trans (if_pos rfl)
  have hpcs {u : τ} (hu : u ≠ t) (hu' : u ≠ w) : ((s.setPc w .woken).setPc t p).pc u = s.pc u :=
    (setPc_pc.trans (if_neg hu)).trans (setPc_pc.trans (if_neg hu'))
  have hne {u : τ} {q : CndPc τ κ} (hu : ((s.setPc w .woken).setPc t p).pc u = q) (hq : q ≠ p) (hq' : q ≠ .woken) :
      u ≠ t ∧ u ≠ w := by
    have hut : u ≠ t := by
      rintro rfl
      exact hq (hu.symm.trans hself)
    refine ⟨hut, ?_⟩
    rintro rfl
    exact hq' (hu.symm.trans ((setPc_pc.trans (if_neg hut)).trans (setPc_pc.trans (if_pos rfl))))
  refine ⟨⟨h.stack, fun c'' u hu => ?_, fun u c'' hu => ?_, fun u c'' v all' hu => ?_⟩, h.nodup,
    fun u c'' v next all' hu hv => ?_, fun u v c'' d x all' all'' hu hv => ?_⟩
  · have huw : u ≠ w := by
      rintro rfl
      exact hnot c'' hu
    rw [hpcs (h.ne_of_mem ht hu) huw]
    exact h.waiting c'' u hu
  · obtain ⟨hut, huw⟩ := hne hu (hp c'').symm (by simp)
    rw [hpcs hut huw] at hu
    obtain hmem | ⟨v, d, all', hv⟩ := h.woken u c'' hu
    · exact .inl hmem
    · refine .inr ⟨v, d, all', (hpcs ?_ ?_).trans hv⟩
      · rintro rfl
        cases hpc.symm.trans hv
        exact huw rfl
      · rintro rfl
        exact nomatch hw.symm.trans hv
  · obtain ⟨hut, huw⟩ := hne hu (hp' c'' v all').symm (by simp)
    rw [hpcs hut huw] at hu
    obtain ⟨⟨d, hv⟩, hnot'⟩ := h.poked u c'' v all' hu
    refine ⟨⟨d, (hpcs ?_ ?_).trans hv⟩, hnot'⟩
    · rintro rfl
      exact ht d hv
    · rintro rfl
      exact hut (h.once u t c'' c v all' all hu hpc)
  · obtain ⟨hut, huw⟩ := hne hu (hp'' c'' v next all').symm (by simp)
    rw [hpcs hut huw] at hu
    exact h.fresh u c'' v next all' hu hv
  · obtain ⟨hut, huw⟩ := hne hu (hp' c'' x all').symm (by simp)
    obtain ⟨hvt, hvw⟩ := hne hv (hp' d x all'').symm (by simp)
    rw [hpcs hut huw] at hu
    rw [hpcs hvt hvw] at hv
    exact h.once u v c'' d x all' all'' hu hv

end Inv

theorem inv_init : (init : CndState τ κ).Inv where
  stack _ := rfl
  waiting _ _ hu := nomatch hu
  woken _ _ hu := nomatch hu
  poked _ _ _ _ hu := nomatch hu
  nodup _ := List.nodup_nil
  fresh _ _ _ _ _ hu := nomatch hu
  once _ _ _ _ _ _ _ hu := nomatch hu

theorem Inv.run (h : s.Inv) (hok : s.Fresh (.run t)) (hs : s.run t = some s') : s'.Inv := by
  unfold CndState.run at hs
  split at hs
  · next c hpc =>
    cases hs
    unfold CndState.push
    split
    · exact h.setPc (by simp [hpc]) (by simp [hpc]) (by simp) (by simp) (by simp)
    · split
      · next hcond => exact h.push hpc hcond hok
      · exact h.setNext (by simp [hpc]) _
  · next hpc =>
    cases hs
    exact h.setPc (by simp [hpc]) (by simp [hpc]) (by simp) (by simp) (by simp)
  · next c all hpc =>
    cases hs
    exact h.setPc (by simp [hpc]) (by simp [hpc]) (by simp) (by simp) (by simp)
  · next c old all hpc =>
    unfold CndState.dequeueHead at hs
    split at hs
    · cases hs
      exact h.setPc (by simp [hpc]) (by simp [hpc]) (by simp) (by simp) (by simp)
    · cases hs
      exact h.setPc (by simp [hpc]) (by simp [hpc]) (by simp) (by simp) (by simp)
    · next w =>
      cases hs
      refine h.setPc (by simp [hpc]) (by simp [hpc]) (by simp) (by simp) fun _ _ _ _ heq _ => ?_
      cases heq
      rfl
    · cases hs
  · next c w next all hpc =>
    cases hs
    unfold CndState.dequeueNext
    split
    · next hcond => exact h.dequeueNext hpc hcond
    · exact h.setPc (by simp [hpc]) (by simp [hpc]) (by simp) (by simp) (by simp)
  · next c w all hpc =>
    unfold CndState.poke at hs
    split at hs
    · next c' hw =>
      cases hs
      exact h.poke hpc hw (by split <;> simp) (by split <;> simp) (by split <;> simp)
    · cases hs
  · cases hs

theorem Inv.wait (h : s.Inv) (hs : s.wait t c = some s') : s'.Inv := by
  unfold CndState.wait at hs
  split at hs
  · next hpc =>
    cases hs
    have hpc' : (s.setNext t (s.cond c)).pc t = .idle := hpc
    exact (h.setNext (by simp [hpc]) _).setPc (by simp [hpc']) (by simp [hpc']) (by simp) (by simp) (by simp)
  · cases hs

theorem Inv.signal (h : s.Inv) (hs : s.signal t c all = some s') : s'.Inv := by
  unfold CndState.signal at hs
  split at hs
  · next hpc =>
    cases hs
    exact h.setPc (by simp [hpc]) (by simp [hpc]) (by simp) (by simp) (by simp)
  · cases hs

theorem Inv.mtx (h : s.Inv) {link : CndWord τ} (hs : s.mtx t link = some s') : s'.Inv := by
  unfold CndState.mtx at hs
  split at hs
  · next hpc =>
    cases hs
    exact h.setNext (by simp [hpc]) link
  · next hpc =>
    cases hs
    exact h.setNext (by simp [hpc]) link
  · cases hs

theorem Inv.exec {step : CndStep τ κ} (h : s.Inv) (hok : s.Fresh step) (hs : s.exec step = some s') : s'.Inv := by
  cases step with
  | wait t c => exact h.wait hs
  | signal t c => exact h.signal hs
  | broadcast t c => exact h.signal hs
  | run t => exact h.run hok hs
  | mtx t link => exact h.mtx hs

/-- **Condition variables**: in a run in which no thread is put on a stack while a signaler has it
for the head with another link, a stack holds the threads that are enqueued and wait, and each
thread that waits is on it or about to be woken up. -/
theorem cnd {steps : List (CndStep τ κ)} (hrun : Run exec Fresh init steps s) : s.Kept :=
  (hrun.invariant (I := Inv) (fun _ _ _ hok hs h => h.exec hok hs) inv_init).toKept

theorem cnd_taken_off : ∃ s : CndState ℕ Unit, s.pc 1 = .poke () 0 false ∧ s.Kept := by
  have hrun : ∃ s : CndState ℕ Unit, s.pc 1 = .poke () 0 false ∧
      Run exec Fresh init [.wait 0 (), .run 0, .signal 1 (), .run 1, .run 1, .run 1] s := by
    refine ⟨_, ?_, .cons trivial rfl (.cons ?_ rfl (.cons trivial rfl (.cons ?_ rfl (.cons ?_ rfl (.cons ?_ rfl (.nil _))))))⟩
    · rfl
    · intro c _ _ u next all hu
      rw [setPc_pc] at hu
      split at hu <;> cases hu
    all_goals exact fun c hc => nomatch hc
  obtain ⟨s, hs, hrun⟩ := hrun
  exact ⟨s, hs, cnd hrun⟩

/-- Two threads wait, and signaler 3 loads the second one and its link to the first. Signaler 4 wakes
up both. A third thread and the second one wait, and signaler 3 takes the second one off. -/
def reused : List (CndStep ℕ Unit) :=
  [.wait 0 (), .run 0, .wait 1 (), .run 1, .signal 3 (), .run 3, .run 3,
    .signal 4 (), .run 4, .run 4, .run 4, .run 4, .signal 4 (), .run 4, .run 4, .run 4, .run 4,
    .run 0, .run 1, .wait 2 (), .run 2, .wait 1 (), .run 1, .run 3]

/-- The first thread is on the stack and does not wait. The third one waits and is not on it. -/
theorem reused_lost : ∃ s : CndState ℕ Unit, Run exec free init reused s ∧
    s.cond () = .node 0 ∧ s.pc 0 = .idle ∧ s.enqueued () = [2] ∧ ¬ s.Kept := by
  obtain ⟨s, hrun, hs⟩ := Run.exists_of_evalRun exec free init reused
    (fun s => (s.cond (), s.pc 0, s.enqueued ())) (.node 0, .idle, [2]) rfl
  obtain ⟨hcond, hs⟩ := Prod.mk.inj hs
  obtain ⟨hpc, henqueued⟩ := Prod.mk.inj hs
  refine ⟨s, hrun, hcond, hpc, henqueued, fun h => ?_⟩
  have hstack := h.stack ()
  rw [hcond, henqueued] at hstack
  exact absurd (CndWord.node.inj hstack.1) (by decide)

end CndState

end Sneks.Thrd
