import Mathlib.Data.List.Nodup
import Mathlib.Logic.Function.Basic
import Sneks.Lib.Run

/-!
# Mutexes

`mtx_lock`, `mtx_trylock` and `mtx_unlock` (`lib/mtx.c`), and the serializer thread that they call
where a mutex is contended. A step is one atomic operation or one message. The mutexes are made by
`mtx_init` and not destroyed, the serializer has been started, and IPC does not fail.

A thread holds a mutex from where it gets it until `mtx_unlock` has tried to free it by itself.
-/

namespace Sneks.Thrd
open Lib

-- The state word

def LOCKED : BitVec 32 := 1#32

def CONFLICT : BitVec 32 := 2#32

structure LocalId where
  raw : BitVec 32
  flags : raw &&& 0x3f#32 = 0#32
  ne_nil : raw ≠ 0#32
  deriving DecidableEq

namespace LocalId

def word (t : LocalId) (conflict : Bool) : BitVec 32 := t.raw ||| LOCKED ||| bif conflict then CONFLICT else 0#32

variable {t u : LocalId} {c d : Bool}

theorem word_eq (t : LocalId) (c : Bool) : t.word c = t.raw ||| bif c then 3#32 else 1#32 := by
  cases c
  · exact BitVec.or_zero
  · exact BitVec.or_assoc _ _ _

theorem raw_and (t : LocalId) {w : BitVec 32} (hw : 0x3f#32 &&& w = w) : t.raw &&& w = 0#32 := by
  rw [← hw, ← BitVec.and_assoc, t.flags, BitVec.zero_and]

theorem word_owner (t : LocalId) (c : Bool) : t.word c &&& ~~~0x3f#32 = t.raw := by
  have hraw : t.raw &&& ~~~0x3f#32 = t.raw := by
    have hall : t.raw &&& (0x3f#32 ||| ~~~0x3f#32) = t.raw := BitVec.and_allOnes
    rwa [BitVec.and_or_distrib_left, t.flags, BitVec.zero_or] at hall
  rw [word_eq, BitVec.and_or_distrib_right, hraw]
  cases c <;> exact BitVec.or_zero

theorem word_and_conflict (t : LocalId) (c : Bool) : t.word c &&& CONFLICT = bif c then CONFLICT else 0#32 := by
  rw [word_eq, BitVec.and_or_distrib_right, t.raw_and (by decide), BitVec.zero_or]
  cases c <;> rfl

theorem word_and_locked (t : LocalId) (c : Bool) : t.word c &&& LOCKED = LOCKED := by
  rw [word_eq, BitVec.and_or_distrib_right, t.raw_and (by decide), BitVec.zero_or]
  cases c <;> rfl

@[simp] theorem word_ne_zero (t : LocalId) (c : Bool) : t.word c ≠ 0#32 := by
  intro h
  have hlocked := t.word_and_locked c
  rw [h] at hlocked
  exact absurd hlocked (by decide)

theorem word_inj : t.word c = u.word d ↔ t = u ∧ c = d := by
  refine ⟨fun h => ⟨?_, ?_⟩, fun ⟨ht, hc⟩ => by rw [ht, hc]⟩
  · have hraw : t.raw = u.raw := by rw [← t.word_owner c, h, u.word_owner]
    cases t
    cases u
    cases hraw
    rfl
  · have hconflict := t.word_and_conflict c
    rw [h, u.word_and_conflict] at hconflict
    revert hconflict
    cases c <;> cases d <;> decide

theorem locked_eq (t : LocalId) : t.raw ||| LOCKED = t.word false := BitVec.or_zero.symm

theorem handed_eq (t : LocalId) : t.raw ||| CONFLICT ||| LOCKED = t.word true := by
  rw [word, BitVec.or_assoc, BitVec.or_assoc]
  rfl

theorem word_or_conflict (t : LocalId) (c : Bool) : t.word c ||| CONFLICT = t.word true := by
  rw [word_eq, word_eq, BitVec.or_assoc]
  cases c <;> rfl

theorem not_word_and_conflict (t : LocalId) (c : Bool) : ~~~(t.word c) &&& CONFLICT ≠ 0#32 ↔ c = false := by
  have hnot : ~~~t.raw &&& CONFLICT = CONFLICT := by
    have hall : CONFLICT &&& (t.raw ||| ~~~t.raw) = CONFLICT := by
      rw [BitVec.or_not_self, BitVec.and_allOnes]
    rwa [BitVec.and_or_distrib_left, BitVec.and_comm, t.raw_and (by decide), BitVec.zero_or, BitVec.and_comm] at hall
  rw [word_eq, BitVec.not_or, BitVec.and_assoc, BitVec.and_comm (~~~_) CONFLICT, ← BitVec.and_assoc, hnot]
  cases c <;> decide

end LocalId

-- Threads and the serializer

inductive MtxPc (μ : Type*)
  | idle
  /-- At the top of the loop of `mtx_lock`. -/
  | lockTry (m : μ) (prev : BitVec 32)
  /-- At the condition of the loop. -/
  | lockMark (m : μ) (prev : BitVec 32)
  /-- Its message is on the way. -/
  | lockCall (m : μ)
  /-- It waits for the reply. -/
  | lockWait (m : μ)
  | unlockCall (m : μ)
  | unlockWait (m : μ)

inductive Serializer (μ : Type*)
  | ready
  | lockLoad (sender : LocalId) (m : μ)
  | lockTry (sender : LocalId) (m : μ) (prev : BitVec 32)
  | lockMark (sender : LocalId) (m : μ) (prev : BitVec 32)
  | unlockLoad (sender : LocalId) (m : μ) (xcpu : Bool)
  /-- At `L4_Reply`. -/
  | reply (m : μ) (prev next : BitVec 32) (later sender : LocalId)
  | exchange (m : μ) (prev next : BitVec 32) (sender : LocalId)
  | answer (sender : LocalId)

/-- The words and queues of the mutexes, with the threads that hold them. A `thrd_wait` is named by
its thread. -/
structure MtxState (μ : Type*) where
  word : μ → BitVec 32
  waits : μ → List LocalId
  holders : μ → List LocalId
  pc : LocalId → MtxPc μ
  ser : Serializer μ

inductive MtxStep (μ : Type*)
  | lock (t : LocalId) (m : μ)
  | trylock (t : LocalId) (m : μ)
  | unlock (t : LocalId) (m : μ)
  /-- The thread goes on in `mtx_lock`. -/
  | run (t : LocalId)
  /-- The serializer takes the thread's message. -/
  | receive (t : LocalId) (xcpu : Bool)
  /-- The serializer goes on. -/
  | serve

namespace MtxState

variable {μ : Type*} [DecidableEq μ]

def init : MtxState μ where
  word _ := 0#32
  waits _ := []
  holders _ := []
  pc _ := .idle
  ser := .ready

variable (s : MtxState μ)

def setWord (m : μ) (w : BitVec 32) : MtxState μ := { s with word := Function.update s.word m w }

def setPc (t : LocalId) (p : MtxPc μ) : MtxState μ := { s with pc := Function.update s.pc t p }

def setSer (ser : Serializer μ) : MtxState μ := { s with ser := ser }

def hold (t : LocalId) (m : μ) : MtxState μ := { s with holders := Function.update s.holders m (t :: s.holders m) }

def unhold (t : LocalId) (m : μ) : MtxState μ := { s with holders := Function.update s.holders m ((s.holders m).erase t) }

def enqueue (t : LocalId) (m : μ) : MtxState μ := { s with waits := Function.update s.waits m (s.waits m ++ [t]) }

def wake (t : LocalId) : MtxState μ :=
  match s.pc t with
  | .lockWait m => (s.hold t m).setPc t .idle
  | .unlockWait _ => s.setPc t .idle
  | _ => s

def lock (t : LocalId) (m : μ) : Option (MtxState μ) :=
  match s.pc t with
  | .idle => some (s.setPc t (.lockTry m (s.word m)))
  | _ => none

def run (t : LocalId) : Option (MtxState μ) :=
  match s.pc t with
  | .lockTry m prev =>
    if prev = 0#32 then
      if s.word m = 0#32 then some (((s.setWord m (t.raw ||| LOCKED)).hold t m).setPc t .idle)
      else some (s.setPc t (.lockMark m (s.word m)))
    else some (s.setPc t (.lockMark m prev))
  | .lockMark m prev =>
    if ~~~prev &&& CONFLICT ≠ 0#32 then
      if s.word m = prev then some ((s.setWord m (prev ||| CONFLICT)).setPc t (.lockCall m))
      else some (s.setPc t (.lockTry m (s.word m)))
    else some (s.setPc t (.lockCall m))
  | _ => none

def trylock (t : LocalId) (m : μ) : Option (MtxState μ) :=
  match s.pc t with
  | .idle => if s.word m = 0#32 then some ((s.setWord m (t.raw ||| LOCKED)).hold t m) else some s
  | _ => none

/-- A thread unlocks what it holds: `mtx_unlock` up to its message. -/
def unlock (t : LocalId) (m : μ) : Option (MtxState μ) :=
  match s.pc t with
  | .idle =>
    if t ∈ s.holders m then
      if s.word m = t.raw ||| LOCKED then some ((s.setWord m 0#32).unhold t m)
      else some ((s.unhold t m).setPc t (.unlockCall m))
    else none
  | _ => none

def receive (t : LocalId) (xcpu : Bool) : Option (MtxState μ) :=
  match s.ser, s.pc t with
  | .ready, .lockCall m => some ((s.setPc t (.lockWait m)).setSer (.lockLoad t m))
  | .ready, .unlockCall m => some ((s.setPc t (.unlockWait m)).setSer (.unlockLoad t m xcpu))
  | _, _ => none

def serUnlockOp (sender : LocalId) (m : μ) (xcpu : Bool) : MtxState μ :=
  let prev := s.word m
  if prev &&& ~~~0x3f#32 ≠ sender.raw then s.setSer .ready
  else
    match s.waits m with
    | [] => s.setSer (.exchange m prev 0#32 sender)
    | w :: waits =>
      let next := w.raw ||| CONFLICT ||| LOCKED
      { s with waits := Function.update s.waits m waits }.setSer
        (if !waits.isEmpty || xcpu then .reply m prev next sender w else .reply m prev next w sender)

def serve : Option (MtxState μ) :=
  match s.ser with
  | .ready => none
  | .lockLoad t m => some (s.setSer (.lockTry t m (s.word m)))
  | .lockTry t m prev =>
    if prev = 0#32 then
      if s.word m = 0#32 then some ((s.setWord m (t.raw ||| LOCKED)).setSer (.answer t))
      else some (s.setSer (.lockMark t m (s.word m)))
    else some (s.setSer (.lockMark t m prev))
  | .lockMark t m prev =>
    if ~~~prev &&& CONFLICT ≠ 0#32 then
      if s.word m = prev then some (((s.setWord m (prev ||| CONFLICT)).enqueue t m).setSer .ready)
      else some (s.setSer (.lockTry t m (s.word m)))
    else some ((s.enqueue t m).setSer .ready)
  | .unlockLoad t m xcpu => some (s.serUnlockOp t m xcpu)
  | .reply m prev next later sender => some ((s.wake later).setSer (.exchange m prev next sender))
  | .exchange m _ next sender => some ((s.setWord m next).setSer (.answer sender))
  | .answer sender => some ((s.wake sender).setSer .ready)

def exec : MtxStep μ → Option (MtxState μ)
  | .lock t m => s.lock t m
  | .trylock t m => s.trylock t m
  | .unlock t m => s.unlock t m
  | .run t => s.run t
  | .receive t xcpu => s.receive t xcpu
  | .serve => s.serve

-- Who has a claim to a mutex

end MtxState

namespace Serializer

variable {μ : Type*}

def window : Serializer μ → Option (μ × BitVec 32 × BitVec 32)
  | .reply m prev next _ _ | .exchange m prev next _ => some (m, prev, next)
  | _ => none

def addressed : Serializer μ → List LocalId
  | .reply _ _ _ later sender => [later, sender]
  | .exchange _ _ _ sender | .answer sender => [sender]
  | _ => []

def handled : Serializer μ → List LocalId
  | .lockLoad t _ | .lockTry t _ _ | .lockMark t _ _ | .unlockLoad t _ _ => [t]
  | ser => ser.addressed

theorem addressed_subset (ser : Serializer μ) {t : LocalId} (ht : t ∈ ser.addressed) : t ∈ ser.handled := by
  cases ser <;> first | exact ht | cases ht

end Serializer

namespace MtxState

variable {μ : Type*} [DecidableEq μ] (s : MtxState μ) (m : μ) (t : LocalId)

def settled : BitVec 32 :=
  match s.ser.window with
  | some (m', _, next) => if m' = m then next else s.word m
  | none => s.word m

def Handed : Prop := s.pc t = .lockWait m ∧ t ∈ s.ser.addressed

def Releasing : Prop := s.pc t = .unlockCall m ∨ ∃ xcpu, s.ser = .unlockLoad t m xcpu

def Claim : Prop := t ∈ s.holders m ∨ s.Handed m t ∨ s.Releasing m t

/-- At most one thread holds a mutex. Where threads wait in the queue it is not free: a thread holds
it, is handed it, or is about to hand it on. -/
structure Kept : Prop where
  one : ∀ m, (s.holders m).length ≤ 1
  waited : ∀ m, s.waits m ≠ [] → s.word m ≠ 0#32 ∧ ∃ t, s.Claim m t

def Serving : Prop :=
  match s.ser with
  | .ready => True
  | .lockLoad t m => s.pc t = .lockWait m
  | .lockTry t m prev => s.pc t = .lockWait m ∧ (~~~prev &&& CONFLICT = 0#32 → ∃ u : LocalId, s.word m = u.word true)
  | .lockMark t m prev =>
    s.pc t = .lockWait m ∧ prev ≠ 0#32 ∧ (~~~prev &&& CONFLICT = 0#32 → ∃ u : LocalId, s.word m = u.word true)
  | .unlockLoad t m _ => s.pc t = .unlockWait m
  | .reply m prev next later sender =>
    (∃ u : LocalId, prev = u.word true) ∧ s.word m = prev ∧
      (s.pc later = .lockWait m ∧ next = later.word true ∧ s.pc sender = .unlockWait m ∨
        s.pc sender = .lockWait m ∧ next = sender.word true ∧ s.pc later = .unlockWait m)
  | .exchange m prev next sender =>
    (∃ u : LocalId, prev = u.word true) ∧ s.word m = prev ∧ (next = 0#32 ∨ ∃ u : LocalId, next = u.word true) ∧
      (s.pc sender = .unlockWait m ∨ s.pc sender = .lockWait m ∧ next = sender.word true)
  | .answer t => ∃ m, s.pc t = .lockWait m ∨ s.pc t = .unlockWait m

/-- A word names the one thread that has a claim to the mutex. `CONFLICT` is in it where a message
is needed. -/
structure Named : Prop where
  claim : ∀ t, s.Claim m t → ∃ c, s.settled m = t.word c
  owner : s.settled m ≠ 0#32 → ∃ t, s.Claim m t
  nodup : (s.holders m).Nodup
  unheld : ∀ t, s.Handed m t ∨ s.Releasing m t → s.holders m = []
  releasing : ∀ t, s.Releasing m t → s.settled m = t.word true
  queue : s.waits m ≠ [] → ∃ t : LocalId, s.settled m = t.word true

structure Inv : Prop where
  named : ∀ m, s.Named m
  loop : ∀ t m prev, s.pc t = .lockMark m prev → prev ≠ 0#32
  waiting : ∀ m, ∀ t ∈ s.waits m, s.pc t = .lockWait m ∧ t ∉ s.ser.handled
  waits_nodup : ∀ m, (s.waits m).Nodup
  serving : s.Serving

end MtxState

end Sneks.Thrd
