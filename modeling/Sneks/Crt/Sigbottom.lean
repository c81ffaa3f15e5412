import Sneks.Crt.Sigaction
import Sneks.Crt.Sigqueue

/-!
# Taking pending signals from root

`__sig_bottom` of `user/crt/sigaction.c` fetches the pending signals from root. One of those that are
not blocked goes to a handler at once, unless another call is at work, and the others are queued. The
one is chosen by its bit, counted from 0, while 0 also stands for none: signal 1 is chosen and then
forgotten.

A call that comes while another is at work queues everything, and then fails an assertion.
-/

namespace Sneks.Crt
open Lib Root

structure Signals where
  crt : Runtime
  queue : SignalQueue
  blockSet : SigSet
  recvBreakFlag : Bool
  /-- The counter of calls of `__sig_bottom`. -/
  nCalls : ℕ

structure Bottom where
  signals : Signals
  /-- What `queue_signals` returned, if it was called. -/
  queued : Except Errno Unit
  /-- The parameter that a handler is invoked with. -/
  param : Option (BitVec 32)
  /-- Is it to be called again? -/
  again : Bool
  /-- A failed assertion, or `abort()`. -/
  aborted : Bool

/-- The signal number that `__sig_invoke` finds in its parameter. -/
def paramSig (param : BitVec 32) : ℕ := (param &&& 0xff#32).toNat

/-- The parameter of `__sig_invoke`: a signal, and `recv_break_ok`. -/
def sigParam (sig : ℕ) (recvBreakOk : Bool) : BitVec 32 :=
  BitVec.ofNat 32 sig ||| (if recvBreakOk then 1#32 else 0#32) <<< 8

namespace Signals

variable (c : Signals)

def choose (call : ℕ) (pending : SigSet) : ℕ × SigSet :=
  if call = 0 ∧ pending &&& ~~~c.blockSet ≠ 0 then
    let sig := ffsll (pending &&& ~~~c.blockSet) - 1
    (sig, pending &&& ~~~(1#64 <<< sig))
  else (0, pending)

/-- The end of the call, where `others` calls came while it ran. -/
def finish (call others : ℕ) (queued : Except Errno Unit) (param : Option (BitVec 32)) : Bottom where
  signals := if call = 0 then { c with nCalls := 0 } else c
  queued := queued
  param := param
  again := call = 0 && 1 < c.nCalls + others
  aborted := call ≠ 0

/-- `__sig_bottom`. `exchanged` tells whether both calls of `L4_ExchangeRegisters` go well, which are
    made unless the thread is the main one. -/
def sigBottom (fetched : Except Errno SigSet) (inMain exchanged : Bool) (others : ℕ) : Bottom :=
  let recvBreakOk := c.recvBreakFlag
  match fetched with
  | .error _ => c.finish 0 others (.ok ()) none
  | .ok pending =>
    if pending &&& c.crt.ignSet ≠ 0 ∨ pending &&& c.crt.dflSet ≠ 0 then
      ⟨{ c with recvBreakFlag := false }, .ok (), none, false, true⟩
    else
      let call := c.nCalls
      let (sig, pending) := c.choose call pending
      let (queue, queued) := if pending ≠ 0 then c.queue.queueSignals pending else (c.queue, .ok ())
      let c := { c with queue := queue, nCalls := call + 1 }
      if sig = 0 then c.finish call others queued none
      else
        let c := { c with recvBreakFlag := false }
        if !inMain && !exchanged then ⟨c, queued, none, false, true⟩
        else c.finish call others queued (some (sigParam (sig + 1) recvBreakOk))

end Signals

def PutIn (q q' : SignalQueue) (sig : ℕ) : Prop :=
  sig ∈ q'.waiting.reliable ∨ q'.waiting.realtime.count sig = q.waiting.realtime.count sig + 1

def Kept (c : Signals) (pending : SigSet) (b : Bottom) : Prop :=
  ∀ sig, 1 ≤ sig → sig ≤ 64 → pending.has sig = true →
    b.param.map paramSig = some sig ∨ PutIn c.queue b.signals.queue sig

variable {c : Signals} {pending : SigSet} {sig : ℕ}

theorem paramSig_sigParam : ∀ sig ≤ 64, ∀ ok, paramSig (sigParam sig ok) = sig := by decide +kernel

theorem has_of_and {set other : SigSet} (h : (set &&& other).has sig = true) : set.has sig = true := by
  obtain ⟨hpos, h64, hbit⟩ := SigSet.has_iff.mp h
  rw [BitVec.getLsbD_and, Bool.and_eq_true] at hbit
  exact SigSet.has_iff.mpr ⟨hpos, h64, hbit.1⟩

theorem Waiting.add_zero (p : Waiting) : p.add 0 = p := by
  have hno : ∀ sig, SigSet.has 0#64 sig = false := fun sig => by simp [SigSet.has]
  simp [Waiting.add, hno]

theorem putIn_iff {q q' : SignalQueue} {sigs : SigSet} (h : q'.waiting = q.waiting.add sigs) (h64 : sig ≤ 64) :
    PutIn q q' sig ↔ sigs.has sig = true ∨ sig ∈ q.waiting.reliable := by
  have hpos : sigs.has sig = true → 0 < sig := fun hhas => (SigSet.has_iff.mp hhas).1
  have hle : sig ∈ q.waiting.reliable → sig ≤ 32 := fun hmem => (Finset.mem_Ioc.mp (Finset.mem_filter.mp hmem).1).2
  simp only [PutIn, h, Waiting.add, Finset.mem_union, Finset.mem_filter, Finset.mem_Ioc, Multiset.count_add]
  by_cases h32 : sig ≤ 32
  · -- a realtime signal is not counted here
    have hout : ∀ t : SigSet, Multiset.count sig (Finset.val {sig ∈ Finset.Ioc 32 64 | t.has sig = true}) = 0 := by
      intro t
      refine Multiset.count_eq_zero_of_notMem fun hmem => ?_
      have := (Finset.mem_Ioc.mp (Finset.mem_filter.mp (Finset.mem_val.mp hmem)).1).1
      omega
    rw [hout]
    constructor
    · rintro ((hmem | ⟨-, hhas⟩) | hcount)
      · exact .inr hmem
      · exact .inl hhas
      · omega
    · rintro (hhas | hmem)
      · exact .inl (.inr ⟨⟨hpos hhas, h32⟩, hhas⟩)
      · exact .inl (.inl hmem)
  · have hcount : Multiset.count sig (Finset.val {sig ∈ Finset.Ioc 32 64 | sigs.has sig = true}) =
        if sigs.has sig = true then 1 else 0 := by
      rw [Multiset.count_eq_of_nodup (Finset.nodup _)]
      refine if_congr ?_ rfl rfl
      rw [Finset.mem_val, Finset.mem_filter, Finset.mem_Ioc]
      exact and_iff_right ⟨Nat.lt_of_not_le h32, h64⟩
    rw [hcount]
    split <;> grind

namespace Signals

theorem choose_cases (c : Signals) (pending : SigSet) :
    c.choose c.nCalls pending = (0, pending) ∧ (c.nCalls ≠ 0 ∨ pending &&& ~~~c.blockSet = 0) ∨
    c.nCalls = 0 ∧ ∃ sig, (pending &&& ~~~c.blockSet).has sig = true ∧
      ((pending &&& ~~~c.blockSet).has 1 = true → sig = 1) ∧
      c.choose c.nCalls pending = (sig - 1, pending &&& ~~~sigBit sig) := by
  simp only [choose]
  split
  · next h =>
    refine .inr ⟨h.1, ffsll (pending &&& ~~~c.blockSet), (ffsll_has h.2).2, fun hone => ?_, rfl⟩
    have hbit : (pending &&& ~~~c.blockSet).getLsbD 0 = true := (SigSet.has_iff.mp hone).2.2
    have hfirst : bitmapFfs ((pending &&& ~~~c.blockSet).getLsbD ·) 0 64 = 0 := by rw [bitmapFfs, if_pos hbit]
    rw [ffsll, hfirst]
    rfl
  · next h =>
    refine .inl ⟨rfl, ?_⟩
    rw [not_and_or, not_not] at h
    exact h

theorem sigBottom_spec {inMain exchanged : Bool} (others : ℕ) (hign : pending &&& c.crt.ignSet = 0)
    (hdfl : pending &&& c.crt.dflSet = 0) (hex : inMain = true ∨ exchanged = true) :
    (c.sigBottom (.ok pending) inMain exchanged others).param =
        (if (c.choose c.nCalls pending).1 = 0 then none
        else some (sigParam ((c.choose c.nCalls pending).1 + 1) c.recvBreakFlag)) ∧
      ((c.sigBottom (.ok pending) inMain exchanged others).signals.queue,
          (c.sigBottom (.ok pending) inMain exchanged others).queued) =
        (if (c.choose c.nCalls pending).2 ≠ 0 then c.queue.queueSignals (c.choose c.nCalls pending).2
        else (c.queue, .ok ())) ∧
      ((c.sigBottom (.ok pending) inMain exchanged others).aborted = true ↔ c.nCalls ≠ 0) := by
  have hasserts : ¬ (pending &&& c.crt.ignSet ≠ 0 ∨ pending &&& c.crt.dflSet ≠ 0) := by
    rintro (h | h)
    · exact h hign
    · exact h hdfl
  have hnot : (!inMain && !exchanged) = false := by obtain rfl | rfl := hex <;> simp
  simp only [sigBottom, if_neg hasserts]
  obtain ⟨hchoose, -⟩ | ⟨hcalls, sig, -, -, hchoose⟩ := choose_cases c pending
  · rw [hchoose]
    simp only [if_true, finish]
    exact ⟨trivial, by split <;> rfl, decide_eq_true_iff⟩
  · rw [hchoose]
    by_cases hsig : sig - 1 = 0
    · simp only [hsig, if_true, finish, hcalls]
      exact ⟨trivial, trivial, decide_eq_true_iff⟩
    · simp only [if_neg hsig, hnot, Bool.false_eq_true, if_false, finish, hcalls, if_true]
      exact ⟨trivial, trivial, decide_eq_true_iff⟩

end Signals

/-- **No signal fetched is lost**, just if signal 1 is not the one that is to be handled directly, or
was in the queue before. A call that is not the first ends in a failed assertion. -/
theorem sigBottom_kept_iff {inMain exchanged : Bool} {others : ℕ} (hign : pending &&& c.crt.ignSet = 0)
    (hdfl : pending &&& c.crt.dflSet = 0) (hex : inMain = true ∨ exchanged = true)
    (hqueued : (c.sigBottom (.ok pending) inMain exchanged others).queued = .ok ()) :
    (Kept c pending (c.sigBottom (.ok pending) inMain exchanged others) ↔
      c.nCalls ≠ 0 ∨ (pending &&& ~~~c.blockSet).has 1 = false ∨ 1 ∈ c.queue.waiting.reliable) ∧
    ((c.sigBottom (.ok pending) inMain exchanged others).aborted = true ↔ c.nCalls ≠ 0) := by
  obtain ⟨hparam, hqueue, haborted⟩ := Signals.sigBottom_spec others hign hdfl hex
  refine ⟨?_, haborted⟩
  generalize c.sigBottom (.ok pending) inMain exchanged others = b at *
  have hwait : b.signals.queue.waiting = c.queue.waiting.add (c.choose c.nCalls pending).2 := by
    rw [hqueued] at hqueue
    split at hqueue
    · exact SignalQueue.queueSignals_waiting hqueue.symm
    · next hz =>
      rw [(Prod.mk.inj hqueue).1, Decidable.not_not.mp hz, Waiting.add_zero]
  have hkept : Kept c pending b ↔ ∀ sig, 1 ≤ sig → sig ≤ 64 → pending.has sig = true →
      b.param.map paramSig = some sig ∨ (c.choose c.nCalls pending).2.has sig = true ∨ sig ∈ c.queue.waiting.reliable :=
    forall_congr' fun sig => forall_congr' fun _ => forall_congr' fun h64 => forall_congr' fun _ =>
      or_congr_right (putIn_iff hwait h64)
  rw [hkept]
  obtain ⟨hchoose, hwhy⟩ | ⟨hcalls, low, hlow, hone, hchoose⟩ := Signals.choose_cases c pending
  · rw [hchoose]
    refine iff_of_true (fun sig _ _ hhas => .inr (.inl hhas)) (hwhy.imp_right fun hz => .inl ?_)
    rw [hz]
    decide
  · obtain ⟨hlow0, hlow64, -⟩ := SigSet.has_iff.mp hlow
    rw [hchoose] at hparam ⊢
    have hrest : ∀ sig, 1 ≤ sig → pending.has sig = true → sig ≠ low → (pending &&& ~~~sigBit low).has sig = true := by
      intro sig hpos hhas hne
      have hbit := (SigSet.has_iff.mp hhas).2.2
      have h64 := (SigSet.has_iff.mp hhas).2.1
      refine SigSet.has_iff.mpr ⟨hpos, h64, ?_⟩
      rw [BitVec.getLsbD_and, hbit, BitVec.getLsbD_not, sigBit_getLsbD]
      simp
      omega
    by_cases hlow1 : low = 1
    · -- signal 1 is taken for none
      subst hlow1
      have hnot1 : (pending &&& ~~~sigBit 1).has 1 = false := by
        rw [SigSet.has, BitVec.getLsbD_and, BitVec.getLsbD_not, sigBit_getLsbD]
        simp
      rw [hparam, if_pos rfl, hlow]
      constructor
      · intro h
        have h1 := h 1 (Nat.le_refl _) (by omega) (has_of_and hlow)
        rw [hnot1] at h1
        exact .inr (.inr (by simpa using h1))
      · intro h sig hpos h64 hhas
        by_cases hsig : sig = 1
        · subst hsig
          exact .inr (.inr (by simpa [hcalls] using h))
        · exact .inr (.inl (hrest sig hpos hhas hsig))
    · have hnot1 : (pending &&& ~~~c.blockSet).has 1 = false :=
        Bool.eq_false_of_not_eq_true fun h => hlow1 (hone h)
      refine iff_of_true (fun sig hpos h64 hhas => ?_) (.inr (.inl hnot1))
      by_cases hsig : sig = low
      · left
        rw [hparam, if_neg (by omega), hsig, Option.map_some, show low - 1 + 1 = low by omega,
          paramSig_sigParam low hlow64]
      · exact .inr (.inl (hrest sig hpos hhas hsig))

def handling : Signals := ⟨{ Runtime.fresh with dflSet := 0 }, .fresh, 0, false, 0⟩

/-- Of three signals one is handled and two are queued. -/
theorem sigBottom_kept_three :
    let b := handling.sigBottom (.ok (sigBit 15 ||| sigBit 17 ||| sigBit 64)) false true 0
    b.param.map paramSig = some 15 ∧ b.queued = .ok () ∧
      Kept handling (sigBit 15 ||| sigBit 17 ||| sigBit 64) b := by
  have hqueued : (handling.sigBottom (.ok (sigBit 15 ||| sigBit 17 ||| sigBit 64)) false true 0).queued = .ok () := by
    decide +kernel
  exact ⟨by decide +kernel, hqueued, (sigBottom_kept_iff (by decide) (by decide) (.inr rfl) hqueued).1.mpr
    (.inr (.inl (by decide)))⟩

/-- Signal 1 is lost. -/
theorem sigBottom_not_kept :
    ¬ ∀ (c : Signals) (pending : SigSet) (inMain exchanged : Bool) (others : ℕ), pending &&& c.crt.ignSet = 0 →
      pending &&& c.crt.dflSet = 0 → inMain = true ∨ exchanged = true →
      (c.sigBottom (.ok pending) inMain exchanged others).queued = .ok () →
      Kept c pending (c.sigBottom (.ok pending) inMain exchanged others) := by
  intro h
  have hkept := h handling (sigBit 1) true true 0 (by decide) (by decide) (.inl rfl) (by decide +kernel) 1
    (Nat.le_refl _) (by omega) (by decide)
  obtain hparam | hmem | hcount := hkept
  · have hnone : (handling.sigBottom (.ok (sigBit 1)) true true 0).param = none := by decide +kernel
    rw [hnone] at hparam
    cases hparam
  · revert hmem
    decide +kernel
  · revert hcount
    decide +kernel

end Sneks.Crt
