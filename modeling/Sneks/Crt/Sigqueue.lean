import Sneks.Crt.Select
import Sneks.Lib.Run
import Sneks.Lib.Stacked
import Sneks.Root.Pending
import Mathlib.Algebra.BigOperators.Group.Multiset.Basic
import Mathlib.Data.Finset.Image
import Mathlib.Order.Interval.Finset.Nat

/-!
# The queue of signals

A process keeps the signals that it cannot handle at once in a queue (`queue_signals` and
`next_signal` of `user/crt/sigaction.c`). The reliable signals, up to 32, are a mask in the high half
of `sigq_status`. The realtime signals are stacked as masks in a ring of 16 subqueues, from a head to
a tail that are in the low byte.

`next_signal` makes the number of a realtime signal from the bit's number and `SIGRTMIN`, which is 32.
But the lowest bit of a subqueue is signal 33, so each realtime signal comes out under the number
before its own.
-/

namespace Sneks.Crt
open Lib Root

def SIGSYS : ℕ := 31

def SIGRTMIN : ℕ := SIGSYS + 1

structure SignalQueue where
  sigq : Fin 16 → BitVec 32
  status : BitVec 64

namespace SignalQueue

def fresh : SignalQueue := ⟨fun _ => 0, 0⟩

def reliable (status : BitVec 64) : BitVec 32 := (status >>> 32).setWidth 32

def headptr (status : BitVec 64) : Fin 16 := Fin.ofNat 16 (status &&& 15#64).toNat

def tailptr (status : BitVec 64) : Fin 16 := Fin.ofNat 16 (status >>> 4 &&& 15#64).toNat

def pointers (headptr tailptr : Fin 16) : BitVec 64 := BitVec.ofNat 64 (headptr.val ||| tailptr.val <<< 4)

variable (q : SignalQueue)

def findSubqueue (sigq : Fin 16 → BitVec 32) (tailptr headptr : Fin 16) : Option (Fin 16) :=
  if sigq headptr ≠ 0 then some headptr
  else if headptr = tailptr then none
  else findSubqueue sigq tailptr (headptr + 1)
termination_by (tailptr - headptr).val
decreasing_by exact sub_succ_lt (by assumption)

/-- `next_signal`. Nothing comes between, so each exchange succeeds. -/
def nextSignal : SignalQueue × ℕ :=
  let got := ffsl (reliable q.status)
  if 0 < got then ({ q with status := q.status &&& ~~~(1#64 <<< (got + 31)) }, got)
  else match findSubqueue q.sigq (tailptr q.status) (headptr q.status) with
    | none => (q, 0)
    | some head =>
      let sigs := q.sigq head
      let got := ffsl sigs
      ({ sigq := Function.update q.sigq head (sigs &&& ~~~(1#32 <<< (got - 1)))
         status := pointers head (tailptr q.status) }, got + SIGRTMIN - 1)

def deposit (headptr : Fin 16) (sigq : Fin 16 → BitVec 32) (tailptr : Fin 16) (rtsigs : BitVec 32) :
    (Fin 16 → BitVec 32) × Option (Fin 16) :=
  let rest := rtsigs &&& sigq tailptr
  let sigq := Function.update sigq tailptr (sigq tailptr ||| rtsigs)
  if rest = 0 then (sigq, some tailptr)
  else if tailptr + 1 = headptr then (sigq, none)
  else deposit headptr sigq (tailptr + 1) rest
termination_by (headptr - 1 - tailptr).val
decreasing_by
  rename_i h
  exact sub_succ_lt fun he => h (by rw [he, sub_add_cancel])

def queueSignals (sigs : SigSet) : SignalQueue × Except Errno Unit :=
  let newst := (q.status >>> 32 ||| (sigs &&& 0xffffffff#64)) <<< 32
  let head := headptr q.status
  match deposit head q.sigq (tailptr q.status) ((sigs >>> 32).setWidth 32) with
  | (sigq, none) => ({ q with sigq := sigq }, .error .EAGAIN)
  | (sigq, some tail) => ({ sigq := sigq, status := newst ||| pointers head tail }, .ok ())


-- The status

theorem low_bits (status x : BitVec 64) (h : ∀ i < 8, x.getLsbD i = status.getLsbD i) :
    headptr x = headptr status ∧ tailptr x = tailptr status := by
  have hmask : ∀ i, (15#64).getLsbD i = decide (i < 4) := by
    intro i
    rw [BitVec.getLsbD_ofNat, show 15 = 2 ^ 4 - 1 from rfl, Nat.testBit_two_pow_sub_one]
    by_cases hi : i < 4 <;> simp [hi]
    omega
  have hhead : x &&& 15#64 = status &&& 15#64 := by
    refine BitVec.eq_of_getLsbD_eq fun i _ => ?_
    rw [BitVec.getLsbD_and, BitVec.getLsbD_and, hmask]
    by_cases hi : i < 4
    · rw [h i (by omega)]
    · simp [hi]
  have htail : x >>> 4 &&& 15#64 = status >>> 4 &&& 15#64 := by
    refine BitVec.eq_of_getLsbD_eq fun i _ => ?_
    rw [BitVec.getLsbD_and, BitVec.getLsbD_and, BitVec.getLsbD_ushiftRight, BitVec.getLsbD_ushiftRight, hmask]
    by_cases hi : i < 4
    · rw [h (4 + i) (by omega)]
    · simp [hi]
  exact ⟨by rw [headptr, headptr, hhead], by rw [tailptr, tailptr, htail]⟩

theorem pointers_bits : ∀ head tail : Fin 16, headptr (pointers head tail) = head ∧ tailptr (pointers head tail) = tail ∧
    reliable (pointers head tail) = 0 := by decide +kernel

theorem status_fields (x : BitVec 64) (head tail : Fin 16) :
    headptr (x <<< 32 ||| pointers head tail) = head ∧ tailptr (x <<< 32 ||| pointers head tail) = tail ∧
      reliable (x <<< 32 ||| pointers head tail) = x.setWidth 32 := by
  obtain ⟨hhead, htail, hrel⟩ := pointers_bits head tail
  obtain ⟨hhead', htail'⟩ := low_bits (pointers head tail) (x <<< 32 ||| pointers head tail) fun i hi => by
    rw [BitVec.getLsbD_or, BitVec.getLsbD_shiftLeft, decide_eq_true (show i < 32 by omega)]
    simp
  refine ⟨hhead'.trans hhead, htail'.trans htail, BitVec.eq_of_getLsbD_eq fun i hi => ?_⟩
  have hzero := congrArg (BitVec.getLsbD · i) hrel
  simp only [reliable, BitVec.getLsbD_setWidth, BitVec.getLsbD_ushiftRight] at hzero ⊢
  rw [BitVec.getLsbD_or, BitVec.getLsbD_shiftLeft]
  simp_all
  omega

theorem status_clear (status : BitVec 64) {got : ℕ} (hpos : 0 < got) (hle : got ≤ 32) :
    headptr (status &&& ~~~(1#64 <<< (got + 31))) = headptr status ∧
      tailptr (status &&& ~~~(1#64 <<< (got + 31))) = tailptr status ∧
      reliable (status &&& ~~~(1#64 <<< (got + 31))) = reliable status &&& ~~~(1#32 <<< (got - 1)) := by
  have hbit : ∀ i, (~~~(1#64 <<< (got + 31))).getLsbD i = (decide (i < 64) && decide (i ≠ got + 31)) := by
    intro i
    rw [BitVec.getLsbD_not, ← BitVec.twoPow_eq, BitVec.getLsbD_twoPow]
    grind
  obtain ⟨hhead, htail⟩ := low_bits status (status &&& ~~~(1#64 <<< (got + 31))) fun i hi => by
    rw [BitVec.getLsbD_and, hbit]
    simp [show i < 64 by omega, show i ≠ got + 31 by omega]
  refine ⟨hhead, htail, BitVec.eq_of_getLsbD_eq fun i hi => ?_⟩
  simp only [reliable, BitVec.getLsbD_setWidth, BitVec.getLsbD_ushiftRight, BitVec.getLsbD_and, hbit]
  rw [BitVec.getLsbD_not, ← BitVec.twoPow_eq, BitVec.getLsbD_twoPow]
  grind

-- `ffsl`

theorem ffsl_zero : ffsl 0 = 0 := by decide

theorem ffsl_spec {x : BitVec 32} (h : x ≠ 0) : 0 < ffsl x ∧ ffsl x ≤ 32 ∧ x.getLsbD (ffsl x - 1) = true := by
  obtain ⟨-, hnone⟩ | ⟨b, hb, hffsl, hbit, -⟩ := ffsl_cases x
  · exact absurd (BitVec.eq_of_getLsbD_eq fun i hi => (hnone i hi).trans BitVec.getLsbD_zero.symm) h
  · rw [hffsl]
    exact ⟨Nat.succ_pos b, hb, hbit⟩

-- What is queued

/-- The signals of 32 bits, the lowest of which is `base + 1`. -/
def signals (base : ℕ) (x : BitVec 32) : Finset ℕ :=
  {sig ∈ Finset.Ioc base (base + 32) | x.getLsbD (sig - base - 1) = true}

end SignalQueue

@[ext] structure Waiting where
  reliable : Finset ℕ
  realtime : Multiset ℕ
  deriving DecidableEq

namespace Waiting

def empty : Waiting := ⟨∅, 0⟩

variable (p : Waiting)

def add (sigs : SigSet) : Waiting where
  reliable := p.reliable ∪ {sig ∈ Finset.Ioc 0 32 | sigs.has sig = true}
  realtime := p.realtime + Finset.val {sig ∈ Finset.Ioc 32 64 | sigs.has sig = true}

def take (sig : ℕ) : Option Waiting :=
  if sig ∈ p.reliable then some { p with reliable := p.reliable.erase sig }
  else if sig ∈ p.realtime then some { p with realtime := p.realtime.erase sig }
  else none

end Waiting

/-- A call of `queue_signals` that returns 0, and a call of `next_signal` with what it returns. -/
inductive QueueCall
  | queued (sigs : SigSet)
  | fetched (got : ℕ)

/-- The number that `next_signal` gives a signal: a realtime signal has the one before its own. -/
def QueueCall.reported : QueueCall → QueueCall
  | .queued sigs => .queued sigs
  | .fetched sig => .fetched (if 32 < sig then sig - 1 else sig)

def Waiting.exec (p : Waiting) : QueueCall → Option Waiting
  | .queued sigs => some (p.add sigs)
  | .fetched 0 => if p = .empty then some p else none
  | .fetched got => p.take got

namespace SignalQueue

variable (q : SignalQueue)

def exec (q : SignalQueue) : QueueCall → Option SignalQueue
  | .queued sigs =>
    match q.queueSignals sigs with
    | (q, .ok ()) => some q
    | (_, .error _) => none
  | .fetched got => if q.nextSignal.2 = got then some q.nextSignal.1 else none

def waiting : Waiting where
  reliable := signals 0 (reliable q.status)
  realtime := stacked fun i => signals 32 (q.sigq i)

/-- Where `next_signal` comes to the realtime signals, there are none. -/
def noRealtime (q : SignalQueue) : QueueCall → Prop
  | .queued _ => True
  | .fetched _ => reliable q.status ≠ 0 ∨ ∀ i, q.sigq i = 0

instance (q : SignalQueue) (call : QueueCall) : Decidable (noRealtime q call) := by
  unfold noRealtime; split <;> infer_instance

def Within : Prop := ∀ i, ¬ Between (headptr q.status) (tailptr q.status) i → q.sigq i = 0

theorem mem_signals {base sig : ℕ} {x : BitVec 32} :
    sig ∈ signals base x ↔ base < sig ∧ x.getLsbD (sig - base - 1) = true := by
  rw [signals, Finset.mem_filter, Finset.mem_Ioc]
  refine ⟨fun h => ⟨h.1.1, h.2⟩, fun ⟨hlt, hbit⟩ => ⟨⟨hlt, ?_⟩, hbit⟩⟩
  have := BitVec.lt_of_getLsbD hbit
  omega

theorem signals_or (base : ℕ) (x y : BitVec 32) : signals base (x ||| y) = signals base x ∪ signals base y := by
  ext sig
  simp only [Finset.mem_union, mem_signals, BitVec.getLsbD_or, Bool.or_eq_true]
  tauto

theorem signals_and (base : ℕ) (x y : BitVec 32) : signals base (x &&& y) = signals base x ∩ signals base y := by
  ext sig
  simp only [Finset.mem_inter, mem_signals, BitVec.getLsbD_and, Bool.and_eq_true]
  tauto

theorem signals_eq_empty {base : ℕ} {x : BitVec 32} : signals base x = ∅ ↔ x = 0 := by
  refine ⟨fun h => BitVec.eq_of_getLsbD_eq fun i _ => ?_, fun h => ?_⟩
  · have hnot : base + i + 1 ∉ signals base x := h ▸ Finset.notMem_empty _
    rw [mem_signals, show base + i + 1 - base - 1 = i by omega] at hnot
    simpa [show base < base + i + 1 by omega] using hnot
  · ext sig
    simp [mem_signals, h]

theorem signals_clear (base : ℕ) (x : BitVec 32) {got : ℕ} (hpos : 0 < got) (hle : got ≤ 32) :
    signals base (x &&& ~~~(1#32 <<< (got - 1))) = (signals base x).erase (base + got) := by
  ext sig
  rw [Finset.mem_erase, mem_signals, mem_signals, BitVec.getLsbD_and, BitVec.getLsbD_not, ← BitVec.twoPow_eq,
    BitVec.getLsbD_twoPow]
  grind [BitVec.lt_of_getLsbD]

theorem reliableSignals (sigs : SigSet) :
    signals 0 (sigs.setWidth 32) = {sig ∈ Finset.Ioc 0 32 | sigs.has sig = true} := by
  ext sig
  simp only [mem_signals, Finset.mem_filter, Finset.mem_Ioc, SigSet.has, BitVec.getLsbD_setWidth, Bool.and_eq_true,
    decide_eq_true_eq]
  rw [Nat.sub_zero]
  grind

theorem realtimeSignals (sigs : SigSet) :
    signals 32 ((sigs >>> 32).setWidth 32) = {sig ∈ Finset.Ioc 32 64 | sigs.has sig = true} := by
  ext sig
  simp only [mem_signals, Finset.mem_filter, Finset.mem_Ioc, SigSet.has, BitVec.getLsbD_setWidth,
    BitVec.getLsbD_ushiftRight, Bool.and_eq_true, decide_eq_true_eq]
  constructor
  · rintro ⟨hlt, hle, hbit⟩
    rw [show 32 + (sig - 32 - 1) = sig - 1 by omega] at hbit
    exact ⟨⟨hlt, by omega⟩, by omega, hbit⟩
  · rintro ⟨⟨hlt, hle⟩, -, hbit⟩
    rw [show 32 + (sig - 32 - 1) = sig - 1 by omega]
    exact ⟨hlt, by omega, hbit⟩

-- What the calls do

variable {q : SignalQueue} {sigq sigq' : Fin 16 → BitVec 32} {head tail tail' : Fin 16}

theorem findSubqueue_some {i : Fin 16} (h : findSubqueue sigq tail head = some i) :
    sigq i ≠ 0 ∧ Between head tail i ∧ ∀ j, Between head tail j → ¬ Between i tail j → sigq j = 0 := by
  fun_induction findSubqueue sigq tail head with
  | case1 head hne =>
    cases h
    exact ⟨hne, between_left _ _, fun j hj hnot => absurd hj hnot⟩
  | case2 => cases h
  | case3 head hz hne ih =>
    obtain ⟨hi, hbetween, hbefore⟩ := ih h
    refine ⟨hi, (between_left_iff hne).mpr (.inr hbetween), fun j hj hnot => ?_⟩
    obtain rfl | hj := (between_left_iff hne).mp hj
    · exact Decidable.not_not.mp hz
    · exact hbefore j hj hnot

theorem findSubqueue_none (h : findSubqueue sigq tail head = none) {i : Fin 16} (hi : Between head tail i) :
    sigq i = 0 := by
  fun_induction findSubqueue sigq tail head with
  | case1 => cases h
  | case2 hz =>
    rw [between_self.mp hi]
    exact Decidable.not_not.mp hz
  | case3 head hz hne ih =>
    obtain rfl | hi := (between_left_iff hne).mp hi
    · exact Decidable.not_not.mp hz
    · exact ih h hi

theorem stacked_signals (sigq : Fin 16 → BitVec 32) (i : Fin 16) (x : BitVec 32) :
    (stacked fun j => signals 32 (Function.update sigq i x j)) =
      stacked (Function.update (fun j => signals 32 (sigq j)) i (signals 32 x)) :=
  congrArg stacked (Function.comp_update (signals 32) sigq i x)

/-- **The deposit**: what is over at a subqueue is what it has already. -/
theorem deposit_stacked {rtsigs : BitVec 32} (h : deposit head sigq tail rtsigs = (sigq', some tail')) :
    (stacked fun i => signals 32 (sigq' i)) = (stacked fun i => signals 32 (sigq i)) + (signals 32 rtsigs).val := by
  have level : ∀ (sigq : Fin 16 → BitVec 32) (i : Fin 16) (x : BitVec 32),
      (stacked fun j => signals 32 (Function.update sigq i (sigq i ||| x) j)) + (signals 32 (x &&& sigq i)).val =
        (stacked fun j => signals 32 (sigq j)) + (signals 32 x).val := by
    intro sigq i x
    have hunion := stacked_union (fun j => signals 32 (sigq j)) i (signals 32 x)
    rwa [← signals_or, ← signals_and, ← stacked_signals, BitVec.and_comm] at hunion
  fun_induction deposit head sigq tail rtsigs with
  | case1 sigq tail rtsigs rest sigq₁ hrest =>
    have hlevel := level sigq tail rtsigs
    rw [show rtsigs &&& sigq tail = 0 from hrest, signals_eq_empty.mpr rfl, Finset.empty_val, add_zero] at hlevel
    rw [← (Prod.mk.inj h).1]
    exact hlevel
  | case2 => cases (Prod.mk.inj h).2
  | case3 sigq tail rtsigs rest sigq₁ hrest hroom ih =>
    rw [ih h]
    exact level sigq tail rtsigs

theorem deposit_within {rtsigs : BitVec 32} (h : deposit head sigq tail rtsigs = (sigq', some tail'))
    (hin : ∀ i, ¬ Between head tail i → sigq i = 0) : ∀ i, ¬ Between head tail' i → sigq' i = 0 := by
  fun_induction deposit head sigq tail rtsigs with
  | case1 sigq tail rtsigs rest sigq₁ hrest =>
    obtain ⟨hsigq, htail⟩ := Prod.mk.inj h
    intro i hi
    rw [← Option.some.inj htail] at hi
    have hne : i ≠ tail := fun he => hi (he ▸ between_right head tail)
    rw [← hsigq]
    exact (Function.update_of_ne hne (sigq tail ||| rtsigs) sigq).trans (hin i hi)
  | case2 => cases (Prod.mk.inj h).2
  | case3 sigq tail rtsigs rest sigq₁ hrest hroom ih =>
    refine ih h fun i hi => ?_
    rw [between_right_iff hroom] at hi
    have hne : i ≠ tail := fun he => hi (.inl (he ▸ between_right head tail))
    exact (Function.update_of_ne hne _ _).trans (hin i fun hb => hi (.inl hb))

theorem setWidth_low (sigs : SigSet) : (sigs &&& 0xffffffff#64).setWidth 32 = sigs.setWidth 32 := by
  refine BitVec.eq_of_getLsbD_eq fun i hi => ?_
  have hones : (0xffffffff#64).getLsbD i = true := by
    rw [BitVec.getLsbD_ofNat, show 0xffffffff = 2 ^ 32 - 1 from rfl, Nat.testBit_two_pow_sub_one]
    simp [hi]
    omega
  rw [BitVec.getLsbD_setWidth, BitVec.getLsbD_setWidth, BitVec.getLsbD_and, hones, Bool.and_true]

theorem queueSignals_waiting {q' : SignalQueue} {sigs : SigSet} (h : q.queueSignals sigs = (q', .ok ())) :
    q'.waiting = q.waiting.add sigs := by
  simp only [queueSignals] at h
  split at h
  · cases (Prod.mk.inj h).2
  next sigq tail hdep =>
  cases h
  have hrel := (status_fields (q.status >>> 32 ||| (sigs &&& 0xffffffff#64)) (headptr q.status) tail).2.2
  rw [BitVec.setWidth_or, setWidth_low] at hrel
  rw [waiting, waiting, Waiting.add]
  congr 1
  · rw [hrel, signals_or, ← reliableSignals, reliable]
  · rw [deposit_stacked hdep, realtimeSignals]

theorem queueSignals_within {q' : SignalQueue} {sigs : SigSet} (hin : q.Within)
    (h : q.queueSignals sigs = (q', .ok ())) : q'.Within := by
  simp only [queueSignals] at h
  split at h
  · cases (Prod.mk.inj h).2
  next sigq tail hdep =>
  cases h
  obtain ⟨hhead, htail, -⟩ := status_fields (q.status >>> 32 ||| (sigs &&& 0xffffffff#64)) (headptr q.status) tail
  intro i hi
  rw [hhead, htail] at hi
  exact deposit_within hdep hin i hi

theorem nextSignal_reliable (hin : q.Within) (hrel : reliable q.status ≠ 0) : q.nextSignal.1.Within ∧
    q.nextSignal.2 ∈ q.waiting.reliable ∧
    q.nextSignal.1.waiting = { q.waiting with reliable := q.waiting.reliable.erase q.nextSignal.2 } := by
  obtain ⟨hpos, hle, hbit⟩ := ffsl_spec hrel
  obtain ⟨hhead, htail, hrel'⟩ := status_clear q.status hpos hle
  have heq : q.nextSignal = ({ q with status := q.status &&& ~~~(1#64 <<< (ffsl (reliable q.status) + 31)) },
      ffsl (reliable q.status)) := by
    simp only [nextSignal, if_pos hpos]
  rw [heq]
  refine ⟨fun i hi => hin i (by rwa [hhead, htail] at hi), ?_, ?_⟩
  · exact mem_signals.mpr ⟨hpos, by rwa [Nat.sub_zero]⟩
  · rw [waiting, waiting]
    congr 1
    rw [hrel', signals_clear 0 _ hpos hle, Nat.zero_add]

theorem nextSignal_realtime (hin : q.Within) (hrel : reliable q.status = 0) {i : Fin 16}
    (hfind : findSubqueue q.sigq (tailptr q.status) (headptr q.status) = some i) : q.nextSignal.1.Within ∧
    ∃ sig ∈ q.waiting.realtime, q.nextSignal.2 + 1 = sig ∧ 32 < sig ∧
      q.nextSignal.1.waiting = { q.waiting with realtime := q.waiting.realtime.erase sig } := by
  have hno : ¬ 0 < ffsl (reliable q.status) := by rw [hrel, ffsl_zero]; exact Nat.lt_irrefl 0
  obtain ⟨hne, hi, hbefore⟩ := findSubqueue_some hfind
  obtain ⟨hpos, hle, hbit⟩ := ffsl_spec hne
  obtain ⟨hhead, htail, hrel'⟩ := pointers_bits i (tailptr q.status)
  have heq : q.nextSignal = (⟨Function.update q.sigq i (q.sigq i &&& ~~~(1#32 <<< (ffsl (q.sigq i) - 1))),
      pointers i (tailptr q.status)⟩, ffsl (q.sigq i) + SIGRTMIN - 1) := by
    simp only [nextSignal, if_neg hno, hfind]
  have hmem : 32 + ffsl (q.sigq i) ∈ signals 32 (q.sigq i) :=
    mem_signals.mpr ⟨by omega, by rwa [show 32 + ffsl (q.sigq i) - 32 - 1 = ffsl (q.sigq i) - 1 by omega]⟩
  rw [heq]
  refine ⟨fun j hj => ?_, 32 + ffsl (q.sigq i), mem_stacked.mpr ⟨i, hmem⟩, ?_, by omega, ?_⟩
  · -- the subqueues that are left behind are empty
    rw [hhead, htail] at hj
    have hji : j ≠ i := fun he => hj (he ▸ between_left _ _)
    refine (Function.update_of_ne hji _ _).trans ?_
    by_cases hold : Between (headptr q.status) (tailptr q.status) j
    · exact hbefore j hold hj
    · exact hin j hold
  · simp only [SIGRTMIN, SIGSYS]
    omega
  · rw [waiting, waiting]
    congr 1
    · rw [hrel', hrel]
    · rw [stacked_signals, signals_clear 32 _ hpos hle]
      exact stacked_erase hmem

theorem nextSignal_cases (hin : q.Within) :
    q.nextSignal.1.Within ∧
    ((q.nextSignal.2 ∈ q.waiting.reliable ∧ reliable q.status ≠ 0 ∧
        q.nextSignal.1.waiting = { q.waiting with reliable := q.waiting.reliable.erase q.nextSignal.2 }) ∨
      (∃ sig ∈ q.waiting.realtime, q.nextSignal.2 + 1 = sig ∧ 32 < sig ∧ reliable q.status = 0 ∧
        q.nextSignal.1.waiting = { q.waiting with realtime := q.waiting.realtime.erase sig }) ∨
      (q.nextSignal = (q, 0) ∧ reliable q.status = 0 ∧ ∀ i, q.sigq i = 0)) := by
  by_cases hrel : reliable q.status = 0
  · cases hfind : findSubqueue q.sigq (tailptr q.status) (headptr q.status) with
    | none =>
      have hno : ¬ 0 < ffsl (reliable q.status) := by rw [hrel, ffsl_zero]; exact Nat.lt_irrefl 0
      have heq : q.nextSignal = (q, 0) := by simp only [nextSignal, if_neg hno, hfind]
      rw [heq]
      refine ⟨hin, .inr (.inr ⟨rfl, hrel, fun i => ?_⟩)⟩
      by_cases hi : Between (headptr q.status) (tailptr q.status) i
      · exact findSubqueue_none hfind hi
      · exact hin i hi
    | some i =>
      obtain ⟨hwithin, sig, hmem, hsig, hlt, hwait⟩ := nextSignal_realtime hin hrel hfind
      exact ⟨hwithin, .inr (.inl ⟨sig, hmem, hsig, hlt, hrel, hwait⟩)⟩
  · obtain ⟨hwithin, hmem, hwait⟩ := nextSignal_reliable hin hrel
    exact ⟨hwithin, .inl ⟨hmem, hrel, hwait⟩⟩

-- Runs

variable {q₀ : SignalQueue} {calls : List QueueCall}

theorem exec_queued {q' : SignalQueue} {sigs : SigSet} (h : exec q (.queued sigs) = some q') :
    q.queueSignals sigs = (q', .ok ()) := by
  simp only [exec] at h
  split at h <;> cases h
  assumption

theorem exec_fetched {q' : SignalQueue} {got : ℕ} (h : exec q (.fetched got) = some q') :
    q.nextSignal = (q', got) := by
  obtain ⟨hgot, he⟩ := Option.ite_none_right_eq_some.mp h
  cases he
  exact Prod.ext rfl hgot

theorem fresh_within : fresh.Within := fun _ _ => rfl

theorem waiting_eq_empty : q.waiting = .empty ↔ reliable q.status = 0 ∧ ∀ i, q.sigq i = 0 := by
  simp only [waiting, Waiting.empty, Waiting.mk.injEq, signals_eq_empty, stacked_eq_zero]

theorem fresh_waiting : fresh.waiting = .empty := waiting_eq_empty.mpr ⟨rfl, fun _ => rfl⟩

theorem zero_notMem_signals {base : ℕ} {x : BitVec 32} : 0 ∉ signals base x := by
  simp [mem_signals]

end SignalQueue

namespace Waiting

variable {p p' : Waiting} {got : ℕ}

theorem exec_of_pos (hpos : 0 < got) : p.exec (.fetched got) = p.take got := by
  cases got with
  | zero => cases hpos
  | succ n => rfl

theorem exec_reliable (hpos : 0 < got) (hmem : got ∈ p.reliable) :
    p.exec (.fetched got) = some { p with reliable := p.reliable.erase got } := by
  rw [exec_of_pos hpos, take, if_pos hmem]

theorem exec_realtime (hpos : 0 < got) (hno : got ∉ p.reliable) (hmem : got ∈ p.realtime) :
    p.exec (.fetched got) = some { p with realtime := p.realtime.erase got } := by
  rw [exec_of_pos hpos, take, if_neg hno, if_pos hmem]

end Waiting

namespace SignalQueue

variable {q q₀ : SignalQueue} {calls : List QueueCall}

/-- **A call does to the queue what it is to do**, but for the number of a realtime signal. -/
theorem exec_waiting {q' : SignalQueue} {call : QueueCall} (hin : q.Within) (h : exec q call = some q') :
    q'.Within ∧ ∃ call' : QueueCall, call'.reported = call ∧ Waiting.exec q.waiting call' = some q'.waiting ∧
      (noRealtime q call → call' = call) := by
  cases call with
  | queued sigs =>
    have hwait := queueSignals_waiting (exec_queued h)
    exact ⟨queueSignals_within hin (exec_queued h), .queued sigs, rfl, congrArg some hwait.symm, fun _ => rfl⟩
  | fetched got =>
    obtain ⟨hin', hcases⟩ := nextSignal_cases hin
    rw [exec_fetched h] at hin' hcases
    refine ⟨hin', ?_⟩
    obtain ⟨hmem, hrel, hwait⟩ | ⟨sig, hmem, hgot, hsig, hrel, hwait⟩ | ⟨heq, hempty⟩ := hcases
    · have hpos : 0 < got := Nat.pos_of_ne_zero fun he => zero_notMem_signals (he ▸ hmem)
      have hle : got ≤ 32 := (Finset.mem_Ioc.mp (Finset.mem_filter.mp hmem).1).2
      refine ⟨.fetched got, ?_, ?_, fun _ => rfl⟩
      · rw [QueueCall.reported, if_neg (Nat.not_lt.mpr hle)]
      · rw [Waiting.exec_reliable hpos hmem, hwait]
    · have hnone : q.waiting.reliable = ∅ := signals_eq_empty.mpr hrel
      refine ⟨.fetched sig, ?_, ?_, fun hok => ?_⟩
      · rw [QueueCall.reported, if_pos hsig, ← hgot, Nat.add_sub_cancel]
      · rw [Waiting.exec_realtime (Nat.lt_of_le_of_lt (Nat.zero_le _) hsig) (hnone ▸ Finset.notMem_empty _) hmem, hwait]
      · -- there is a realtime signal
        obtain ⟨i, hi⟩ := (mem_stacked (f := fun i => signals 32 (q.sigq i))).mp hmem
        obtain hok | hok := hok
        · exact absurd hrel hok
        · rw [signals_eq_empty.mpr (hok i)] at hi
          cases hi
    · cases heq
      exact ⟨.fetched 0, rfl, if_pos (waiting_eq_empty.mpr hempty), fun _ => rfl⟩

theorem run_reported (h : Run exec free q₀ calls q) (hin : q₀.Within) :
    ∃ calls' : List QueueCall, calls'.map QueueCall.reported = calls ∧ Run Waiting.exec free q₀.waiting calls' q.waiting := by
  induction h with
  | nil q => exact ⟨[], rfl, .nil _⟩
  | cons _ hs _ ih =>
    obtain ⟨hin', call', hrep, hexec, -⟩ := exec_waiting hin hs
    obtain ⟨calls', hcalls, hrun⟩ := ih hin'
    exact ⟨call' :: calls', by rw [List.map_cons, hrep, hcalls], .cons trivial hexec hrun⟩

theorem run_reported_realtime : ∃ (q : SignalQueue) (calls : List QueueCall),
    calls.map QueueCall.reported = [.queued (sigBit 40), .fetched 39] ∧ Run Waiting.exec free fresh.waiting calls q.waiting := by
  obtain ⟨q, hq, -⟩ := Run.exists_of_evalRun exec free fresh [.queued (sigBit 40), .fetched 39] (fun _ => ()) () (by decide +kernel)
  exact ⟨q, run_reported hq fresh_within⟩

theorem run_waiting (h : Run exec noRealtime q₀ calls q) (hin : q₀.Within) :
    Run Waiting.exec free q₀.waiting calls q.waiting := by
  induction h with
  | nil q => exact .nil _
  | cons hok hs _ ih =>
    obtain ⟨hin', call', -, hexec, hsame⟩ := exec_waiting hin hs
    rw [hsame hok] at hexec
    exact .cons trivial hexec (ih hin')

theorem exec_sum {q' : SignalQueue} {p p' : Waiting} {call : QueueCall} (hin : q.Within) (h : exec q call = some q')
    (hp : p.exec call = some p') (hrel : p.reliable = q.waiting.reliable) :
    p'.reliable = q'.waiting.reliable ∧
      p.realtime.sum + q'.waiting.realtime.sum ≤ p'.realtime.sum + q.waiting.realtime.sum ∧
      (p.realtime.sum + q'.waiting.realtime.sum = p'.realtime.sum + q.waiting.realtime.sum → noRealtime q call) := by
  cases call with
  | queued sigs =>
    cases hp
    rw [queueSignals_waiting (exec_queued h)]
    simp only [Waiting.add, Multiset.sum_add, hrel]
    exact ⟨trivial, by omega, fun _ => trivial⟩
  | fetched got =>
    have hcases := (nextSignal_cases hin).2
    rw [exec_fetched h] at hcases
    obtain ⟨hmem, hne, hwait⟩ | ⟨sig, hmem, hgot, hsig, hzero, hwait⟩ | ⟨heq, hempty⟩ := hcases
    · have hpos : 0 < got := Nat.pos_of_ne_zero fun he => zero_notMem_signals (he ▸ hmem)
      rw [Waiting.exec_reliable hpos (hrel ▸ hmem)] at hp
      cases hp
      rw [hwait, hrel]
      exact ⟨rfl, Nat.le_refl _, fun _ => .inl hne⟩
    · have hnone : q.waiting.reliable = ∅ := signals_eq_empty.mpr hzero
      have hpos : 0 < got := by omega
      rw [Waiting.exec_of_pos hpos, Waiting.take, hrel, hnone, if_neg (Finset.notMem_empty _)] at hp
      obtain ⟨hgotmem, he⟩ := Option.ite_none_right_eq_some.mp hp
      cases he
      -- what is in the queue is less by `sig`, and what is to be there by `sig - 1`
      have hqsum := Multiset.sum_erase hmem
      have hpsum := Multiset.sum_erase hgotmem
      rw [hwait]
      simp only at *
      exact ⟨hnone.symm, by omega, fun he => by omega⟩
    · cases heq
      obtain ⟨-, he⟩ := Option.ite_none_right_eq_some.mp hp
      cases he
      exact ⟨hrel, Nat.le_refl _, fun _ => .inr hempty.2⟩

theorem run_sum {p p' : Waiting} (h : Run exec free q₀ calls q) (hin : q₀.Within)
    (hp : Run Waiting.exec free p calls p') (hrel : p.reliable = q₀.waiting.reliable) :
    p.realtime.sum + q.waiting.realtime.sum ≤ p'.realtime.sum + q₀.waiting.realtime.sum ∧
      (p.realtime.sum + q.waiting.realtime.sum = p'.realtime.sum + q₀.waiting.realtime.sum →
        Run exec noRealtime q₀ calls q) := by
  induction h generalizing p with
  | nil q =>
    cases hp
    exact ⟨Nat.le_refl _, fun _ => .nil _⟩
  | @cons q₀ q₁ q call calls _ hs _ ih =>
    obtain _ | ⟨-, hp₁, hp⟩ := hp
    obtain ⟨hrel₁, hle₁, hok₁⟩ := exec_sum hin hs hp₁ hrel
    obtain ⟨hle, hok⟩ := ih (exec_waiting hin hs).1 hp hrel₁
    exact ⟨by omega, fun he => .cons (hok₁ (by omega)) hs (hok (by omega))⟩

/-- **The signals returned are the ones queued just if no realtime signal is fetched.** -/
theorem fidelity_iff (h : Run exec free fresh calls q) :
    Run Waiting.exec free .empty calls q.waiting ↔ Run exec noRealtime fresh calls q := by
  refine ⟨fun hp => ?_, fun hok => fresh_waiting ▸ run_waiting hok fresh_within⟩
  have hrel : Waiting.empty.reliable = fresh.waiting.reliable := by rw [fresh_waiting]
  refine (run_sum h fresh_within hp hrel).2 ?_
  rw [fresh_waiting, Nat.add_comm]

/-- A signal that is queued twice while it is pending is returned once. -/
theorem fidelity_iff_once :
    ∃ q, Run exec free fresh [.queued (sigBit 2 ||| sigBit 40), .queued (sigBit 2), .fetched 2] q ∧
      Run Waiting.exec free .empty [.queued (sigBit 2 ||| sigBit 40), .queued (sigBit 2), .fetched 2] q.waiting := by
  obtain ⟨q, hq, -⟩ := Run.exists_of_evalRun exec noRealtime fresh
    [.queued (sigBit 2 ||| sigBit 40), .queued (sigBit 2), .fetched 2] (fun q => q.status) 0 (by decide +kernel)
  have hfree : Run exec free fresh _ q := hq.mono fun _ _ _ => trivial
  exact ⟨q, hfree, (fidelity_iff hfree).mpr hq⟩

/-- Signal 33 is returned as 32. -/
theorem fidelity_not :
    ¬ ∀ calls q, Run exec free fresh calls q → Run Waiting.exec free .empty calls q.waiting := by
  intro h
  obtain ⟨q, hq, -⟩ := Run.exists_of_evalRun exec free fresh [.queued (sigBit 33), .fetched 32] (fun _ => ()) ()
    (by decide +kernel)
  obtain _ | ⟨-, h₁, hrest⟩ := h _ q hq
  obtain _ | ⟨-, h₂, -⟩ := hrest
  cases h₁
  have hnone : (Waiting.empty.add (sigBit 33)).exec (.fetched 32) = none := by decide +kernel
  rw [hnone] at h₂
  cases h₂

end SignalQueue
end Sneks.Crt
