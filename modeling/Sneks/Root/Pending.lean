import Sneks.Root.Dispositions
import Sneks.Root.Threads

/-!
# Taking pending signals

`sigsuspend` takes a signal off the pending set at once where one is let through by its mask, and
`sigset` takes one for a thread that sleeps in `sigsuspend` (`root/sig.c`). The first makes the
signal's bit as an `int`, and the second finds it again with `ffsl`, which has 32 bits.
-/

namespace Sneks.Root

def SigSet.has (set : SigSet) (sig : ℕ) : Bool := 0 < sig && set.getLsbD (sig - 1)

namespace State

/-- `sigsuspend` returns at most one signal, which was pending, and takes off that one. -/
def Suspends (s : State) (pid : ℕ) (mask : SigSet) : Prop :=
  ∃ t r, s.sigsuspend pid mask = some (t, r) ∧ ∀ sig, r = .ok sig → 0 < sig →
    (s.proc pid).pendingSet.has sig = true ∧ mask.has sig = false ∧
      (t.proc pid).pendingSet = (s.proc pid).pendingSet &&& ~~~sigBit sig

end State

/-- What a thread in `sigsuspend` is to get from its pending set: one signal that is not masked, with
the mask restored, or nothing. The signal stays where `andBits` has it. -/
def FetchesOne (p p' : Process) (andBits : SigSet) (r : ℕ) : Prop :=
  if p.pendingSet &&& ~~~p.maskSet = 0 then
    r = 0 ∧ p'.pendingSet = p.pendingSet ∧ p'.maskSet = p.maskSet ∧ p'.savedMask = true
  else ∃ sig, r = (sigBit sig).toNat ∧ p.pendingSet.has sig = true ∧ p.maskSet.has sig = false ∧
    p'.pendingSet = (p.pendingSet &&& ~~~sigBit sig) ||| (p.pendingSet &&& sigBit sig &&& andBits) ∧
    p'.maskSet = p.savedMaskSet ∧ p'.savedMask = false

def Process.seen (p : Process) (setName : ℕ) : SigSet :=
  if setName = 4 then p.pendingSet &&& ~~~p.maskSet else p.pendingSet

/-- The signal that `sigsuspend` finds can be taken off with an `int`. -/
def Takable (pending mask : SigSet) : Prop :=
  let sig := ffsll (pending &&& ~~~mask)
  sig ≤ 31 ∨ (sig = 32 ∧ ∀ other, 32 < other → pending.has other = false) ∨
    (sig = 64 ∧ ∀ other, 32 ≤ other → other < 64 → pending.has other = false)

def Fetchable (p : Process) (setName : ℕ) : Prop :=
  p.seen setName = 0 ∨ ffsll (p.seen setName) ≤ 32 ∧ p.maskSet.has (ffsll (p.seen setName)) = false

variable {set pending mask : SigSet} {sig i k : ℕ}

theorem bitmapFfs_none {bits : ℕ → Bool} {first n : ℕ} (h : bitmapFfs bits first n = first + n) :
    ∀ i, first ≤ i → i < first + n → bits i = false := by
  induction n generalizing first with
  | zero => exact fun i hle hlt => absurd hlt (by omega)
  | succ n ih =>
    rw [bitmapFfs] at h
    split at h
    · omega
    · next hbit =>
      intro i hle hlt
      obtain rfl | hne := Nat.eq_or_lt_of_le hle
      · exact Bool.eq_false_of_not_eq_true hbit
      · exact ih (h.trans (by omega)) i hne (by omega)

theorem SigSet.has_iff : set.has sig = true ↔ 0 < sig ∧ sig ≤ 64 ∧ set.getLsbD (sig - 1) = true := by
  rw [SigSet.has, Bool.and_eq_true, decide_eq_true_eq]
  refine and_congr_right fun hpos => ⟨fun h => ⟨?_, h⟩, And.right⟩
  have hlt := BitVec.lt_of_getLsbD h
  omega

theorem sigBit_getLsbD (sig i : ℕ) : (sigBit sig).getLsbD i = (decide (sig - 1 < 64) && decide (sig - 1 = i)) := by
  rw [sigBit, ← BitVec.twoPow_eq, BitVec.getLsbD_twoPow]

theorem ffsll_has (h : set ≠ 0) : ffsll set ≤ 64 ∧ set.has (ffsll set) = true := by
  have hfind := bitmapFfs_spec (set.getLsbD ·) 0 64
  rw [Nat.zero_add] at hfind
  by_cases hend : bitmapFfs (set.getLsbD ·) 0 64 = 64
  · refine absurd (BitVec.eq_of_getLsbD_eq fun i hi => ?_) h
    have hnone := bitmapFfs_none (hend.trans (Nat.zero_add 64).symm) i (Nat.zero_le _) (by omega)
    exact hnone.trans BitVec.getLsbD_zero.symm
  · have hlt := Nat.lt_of_le_of_ne hfind.1 hend
    simp only [ffsll, if_neg hend, SigSet.has]
    exact ⟨hlt, by simpa using hfind.2 hlt⟩

theorem ffsll_zero : ffsll 0 = 0 := by decide

theorem intMask_getLsbD (hk : k < 32) (hi : i < 64) :
    ((~~~(1#32 <<< k)).signExtend 64).getLsbD i = if i < 32 then decide (i ≠ k) else decide (k ≠ 31) := by
  have hbit : ∀ j < 32, (~~~(1#32 <<< k)).getLsbD j = decide (j ≠ k) := by
    intro j hj
    rw [BitVec.getLsbD_not, ← BitVec.twoPow_eq, BitVec.getLsbD_twoPow, decide_eq_true hj, decide_eq_true hk,
      Bool.true_and, Bool.true_and, ← decide_not]
    exact decide_eq_decide.mpr (not_congr eq_comm)
  rw [BitVec.getLsbD_signExtend, decide_eq_true hi, Bool.true_and, BitVec.msb_eq_getLsbD_last, hbit 31 (by decide)]
  split
  · next h => exact hbit i h
  · exact decide_eq_decide.mpr (not_congr eq_comm)

theorem intMask_iff (hsig : 0 < sig) (hle : sig ≤ 64) (hhas : pending.has sig = true) :
    pending &&& (~~~(1#32 <<< ((sig - 1) % 32))).signExtend 64 = pending &&& ~~~sigBit sig ↔
      sig ≤ 31 ∨ (sig = 32 ∧ ∀ other, 32 < other → pending.has other = false) ∨
        (sig = 64 ∧ ∀ other, 32 ≤ other → other < 64 → pending.has other = false) := by
  have hk : (sig - 1) % 32 < 32 := Nat.mod_lt _ (by decide)
  have hbits : pending &&& (~~~(1#32 <<< ((sig - 1) % 32))).signExtend 64 = pending &&& ~~~sigBit sig ↔
      ∀ i < 64, pending.getLsbD i = true →
        ((if i < 32 then i ≠ (sig - 1) % 32 else (sig - 1) % 32 ≠ 31) ↔ i ≠ sig - 1) := by
    have hat : ∀ i < 64, (pending &&& (~~~(1#32 <<< ((sig - 1) % 32))).signExtend 64).getLsbD i =
        (pending &&& ~~~sigBit sig).getLsbD i ↔ (pending.getLsbD i = true →
          ((if i < 32 then i ≠ (sig - 1) % 32 else (sig - 1) % 32 ≠ 31) ↔ i ≠ sig - 1)) := by
      intro i hi
      rw [BitVec.getLsbD_and, BitVec.getLsbD_and, intMask_getLsbD hk hi, BitVec.getLsbD_not, sigBit_getLsbD,
        decide_eq_true hi, decide_eq_true (by omega : sig - 1 < 64)]
      cases pending.getLsbD i with
      | false => simp
      | true =>
        by_cases hlow : i < 32
        · simp only [hlow, if_true]
          grind
        · simp only [hlow, if_false]
          grind
    constructor
    · intro h i hi
      exact (hat i hi).mp (congrArg (BitVec.getLsbD · i) h)
    · intro h
      exact BitVec.eq_of_getLsbD_eq fun i hi => (hat i hi).mpr (h i hi)
  obtain ⟨-, -, hown⟩ := SigSet.has_iff.mp hhas
  rw [hbits]
  constructor
  · intro h
    have hself := h (sig - 1) (by omega) hown
    by_cases hlow : sig ≤ 31
    · exact .inl hlow
    · -- bit 31 of the `int` is its sign
      have hsign : (sig - 1) % 32 = 31 := by
        by_cases hmid : sig = 32
        · rw [hmid]
        · rw [if_neg (by omega)] at hself
          exact not_not.mp fun hne => hself.mp hne rfl
      obtain hmid | hlast : sig = 32 ∨ sig = 64 := by omega
      · refine .inr (.inl ⟨hmid, fun other hother => Bool.eq_false_of_not_eq_true fun hset => ?_⟩)
        obtain ⟨-, hother', hbit⟩ := SigSet.has_iff.mp hset
        have hat := h (other - 1) (by omega) hbit
        rw [if_neg (by omega)] at hat
        exact hat.mpr (by omega) hsign
      · refine .inr (.inr ⟨hlast, fun other hother hlt => Bool.eq_false_of_not_eq_true fun hset => ?_⟩)
        obtain ⟨-, -, hbit⟩ := SigSet.has_iff.mp hset
        have hat := h (other - 1) (by omega) hbit
        by_cases heq : other = 32
        · rw [if_pos (by omega)] at hat
          omega
        · rw [if_neg (by omega)] at hat
          exact hat.mpr (by omega) hsign
  · rintro (hlow | ⟨rfl, hnone⟩ | ⟨rfl, hnone⟩) i hi hbit
    · rw [Nat.mod_eq_of_lt (by omega)]
      split <;> omega
    · have hclear := hnone (i + 1)
      rw [SigSet.has, Nat.add_sub_cancel, hbit] at hclear
      have hle' : i < 32 := by
        by_contra hge
        exact absurd (hclear (by omega)) (by simp)
      rw [if_pos hle']
    · have hclear := hnone (i + 1)
      rw [SigSet.has, Nat.add_sub_cancel, hbit] at hclear
      have hout : i + 1 < 32 ∨ 64 ≤ i + 1 := by
        by_contra hin
        exact absurd (hclear (by omega) (by omega)) (by simp)
      split <;> omega

theorem ffsl_sigBit : ∀ sig < 65, 0 < sig → ffsll (sigBit sig &&& 0xffffffff#64) = if sig ≤ 32 then sig else 0 := by
  decide +kernel

theorem sigBit_inj {sig sig' : ℕ} (hsig : 0 < sig) (hle : sig ≤ 64) (hsig' : 0 < sig')
    (h : sigBit sig = sigBit sig') : sig = sig' := by
  have hbit := congrArg (BitVec.getLsbD · (sig - 1)) h
  simp only [sigBit_getLsbD, decide_true, Bool.and_true] at hbit
  rw [decide_eq_true (by omega : sig - 1 < 64)] at hbit
  have hsame := (Bool.and_eq_true_iff.mp hbit.symm).2
  have heq := of_decide_eq_true hsame
  omega

theorem sigBit_ne_zero (hsig : 0 < sig) (hle : sig ≤ 64) : sigBit sig ≠ 0 := by
  intro h
  have hbit : (sigBit sig).getLsbD (sig - 1) = (0#64).getLsbD (sig - 1) := congrArg (BitVec.getLsbD · (sig - 1)) h
  rw [sigBit_getLsbD, BitVec.getLsbD_zero, decide_eq_true rfl, Bool.and_true, decide_eq_false_iff_not] at hbit
  omega

-- The two calls

variable {s t : State} {pid setName : ℕ} {p p' : Process} {andBits : SigSet}

theorem suspends_iff (s : State) (pid : ℕ) (mask : SigSet) : s.Suspends pid mask ↔
    s.hasProcess pid = false ∨ (s.proc pid).savedMask = true ∨ Takable (s.proc pid).pendingSet mask := by
  rw [State.Suspends, State.sigsuspend]
  dsimp only
  cases hproc : s.hasProcess pid with
  | false => exact iff_of_true ⟨s, .error .EINVAL, rfl, by rintro _ ⟨⟩⟩ (.inl rfl)
  | true =>
    rw [if_neg (by decide)]
    cases hsaved : (s.proc pid).savedMask with
    | true => exact iff_of_true ⟨s, .error .EAGAIN, rfl, by rintro _ ⟨⟩⟩ (.inr (.inl rfl))
    | false =>
      rw [if_neg Bool.false_ne_true]
      simp only [Bool.true_eq_false, Bool.false_eq_true, false_or]
      by_cases hnone : (s.proc pid).pendingSet &&& ~~~mask = 0
      · have hzero : ffsll ((s.proc pid).pendingSet &&& ~~~mask) = 0 := by rw [hnone, ffsll_zero]
        rw [hzero, if_neg (Nat.lt_irrefl 0)]
        refine iff_of_true ⟨_, _, rfl, fun sig hsig hpos => ?_⟩ (.inl (by rw [hzero]; exact Nat.zero_le _))
        cases hsig
        exact absurd hpos (Nat.lt_irrefl 0)
      · obtain ⟨hle, hhas⟩ := ffsll_has hnone
        obtain ⟨hpos, -, hbit⟩ := SigSet.has_iff.mp hhas
        rw [BitVec.getLsbD_and, Bool.and_eq_true, BitVec.getLsbD_not, Bool.and_eq_true] at hbit
        have hpending : (s.proc pid).pendingSet.has (ffsll ((s.proc pid).pendingSet &&& ~~~mask)) = true :=
          SigSet.has_iff.mpr ⟨hpos, hle, hbit.1⟩
        have hmask : mask.has (ffsll ((s.proc pid).pendingSet &&& ~~~mask)) = false := by
          rw [SigSet.has, Bool.and_eq_false_iff]
          exact .inr (by simpa using hbit.2.2)
        rw [if_pos hpos, Takable, ← intMask_iff hpos hle hpending]
        constructor
        · rintro ⟨t, r, he, hmeets⟩
          cases he
          have htaken := (hmeets _ rfl hpos).2.2
          simpa only [State.setProc, Function.update_self] using htaken
        · intro htaken
          refine ⟨_, _, rfl, fun sig hsig _ => ?_⟩
          cases hsig
          refine ⟨hpending, hmask, ?_⟩
          simpa only [State.setProc, Function.update_self] using htaken

theorem pending_fetched (conceal : Bool) (hsig : 0 < sig) (hle : sig ≤ 64) (hmask : p.maskSet.has sig = false) :
    (p.pendingSet &&& if conceal then andBits ||| p.maskSet else andBits) |||
        ((if conceal then p.pendingSet &&& ~~~p.maskSet else p.pendingSet) &&& ~~~sigBit sig) =
      (p.pendingSet &&& ~~~sigBit sig) ||| (p.pendingSet &&& sigBit sig &&& andBits) := by
  refine BitVec.eq_of_getLsbD_eq fun i hi => ?_
  have hclear : sig - 1 = i → p.maskSet.getLsbD i = false := by
    rintro rfl
    rw [SigSet.has, decide_eq_true hsig, Bool.true_and] at hmask
    exact hmask
  cases conceal with
  | true =>
    simp only [if_true, BitVec.getLsbD_and, BitVec.getLsbD_or, BitVec.getLsbD_not, sigBit_getLsbD]
    grind
  | false =>
    simp only [Bool.false_eq_true, if_false, BitVec.getLsbD_and, BitVec.getLsbD_or, BitVec.getLsbD_not, sigBit_getLsbD]
    grind

theorem pending_kept (h : p.pendingSet &&& ~~~p.maskSet = 0) : p.pendingSet &&& (andBits ||| p.maskSet) = p.pendingSet := by
  refine BitVec.eq_of_getLsbD_eq fun i hi => ?_
  have hbit : (p.pendingSet &&& ~~~p.maskSet).getLsbD i = (0#64).getLsbD i := congrArg (BitVec.getLsbD · i) h
  simp only [BitVec.getLsbD_and, BitVec.getLsbD_not, BitVec.getLsbD_zero] at hbit
  simp only [BitVec.getLsbD_and, BitVec.getLsbD_or]
  grind

theorem seen_pending (h : (p.seen setName).getLsbD i = true) : p.pendingSet.getLsbD i = true := by
  rw [Process.seen] at h
  split at h
  · rw [BitVec.getLsbD_and, Bool.and_eq_true] at h
    exact h.1
  · exact h

theorem seen_ne_zero (setName : ℕ) (h : p.pendingSet &&& ~~~p.maskSet ≠ 0) : p.seen setName ≠ 0 := by
  intro hzero
  rw [Process.seen] at hzero
  split at hzero
  · exact h hzero
  · rw [hzero] at h
    exact h BitVec.zero_and

theorem readPending_iff (setName : ℕ) (andBits : SigSet) (hsaved : p.savedMask = true) :
    (∃ p' sigs, State.readPending p (setName = 4) andBits = some (p', sigs) ∧ FetchesOne p p' andBits sigs.toNat) ↔
      Fetchable p setName := by
  have hseen : (if decide (setName = 4) = true then p.pendingSet &&& ~~~p.maskSet else p.pendingSet) = p.seen setName := by
    simp only [decide_eq_true_eq, Process.seen]
  by_cases hzero : p.seen setName = 0
  · have hnone : p.pendingSet &&& ~~~p.maskSet = 0 := not_not.mp fun hne => seen_ne_zero setName hne hzero
    rw [State.readPending, hseen, if_neg (fun h => h.1 hzero)]
    refine iff_of_true ⟨_, _, rfl, ?_⟩ (.inl hzero)
    rw [FetchesOne, if_pos hnone, hzero]
    refine ⟨rfl, ?_, rfl, hsaved⟩
    dsimp only
    rw [Process.seen] at hzero
    split at hzero
    · next hfour =>
      rw [if_pos (decide_eq_true hfour)]
      exact pending_kept hnone
    · rw [hzero]
      exact BitVec.zero_and
  · obtain ⟨hle, hhas⟩ := ffsll_has hzero
    obtain ⟨hpos, -, hbit⟩ := SigSet.has_iff.mp hhas
    have hpending := SigSet.has_iff.mpr ⟨hpos, hle, seen_pending hbit⟩
    rw [State.readPending, hseen, if_pos ⟨hzero, hsaved⟩, Fetchable, or_iff_right hzero]
    dsimp only
    rw [ffsl_sigBit _ (Nat.lt_succ_of_le hle) hpos]
    by_cases hlow : ffsll (p.seen setName) ≤ 32
    · rw [if_pos hlow, if_neg (not_not.mpr rfl)]
      constructor
      · rintro ⟨p', sigs, he, hone⟩
        cases he
        refine ⟨hlow, ?_⟩
        rw [FetchesOne] at hone
        split at hone
        · exact absurd (BitVec.eq_of_toNat_eq hone.1) (sigBit_ne_zero hpos hle)
        · obtain ⟨sig, hsig, hhas', hmask, -⟩ := hone
          obtain ⟨hpos', -, -⟩ := SigSet.has_iff.mp hhas'
          rw [sigBit_inj hpos hle hpos' (BitVec.eq_of_toNat_eq hsig)]
          exact hmask
      · rintro ⟨-, hmask⟩
        refine ⟨_, _, rfl, ?_⟩
        have hne : p.pendingSet &&& ~~~p.maskSet ≠ 0 := by
          intro hnone
          have hclear : (p.pendingSet &&& ~~~p.maskSet).getLsbD (ffsll (p.seen setName) - 1) =
              (0#64).getLsbD (ffsll (p.seen setName) - 1) := congrArg (BitVec.getLsbD · _) hnone
          rw [SigSet.has, decide_eq_true hpos, Bool.true_and] at hmask
          rw [BitVec.getLsbD_and, BitVec.getLsbD_not, seen_pending hbit, hmask, BitVec.getLsbD_zero,
            decide_eq_true (by omega)] at hclear
          cases hclear
        have hleft := @pending_fetched _ p andBits (setName = 4) hpos hle hmask
        rw [hseen] at hleft
        rw [FetchesOne, if_neg hne]
        exact ⟨_, rfl, hpending, hmask, hleft, rfl, rfl⟩
    · rw [if_neg hlow, if_pos (by omega)]
      exact iff_of_false (by simp) fun h => hlow h.1

theorem sigset_fetch {sender : Tid} (orBits andBits : SigSet) (replyOk : Bool) (hset : setName = 3 ∨ setName = 4)
    (hproc : s.hasProcess (pidof sender) = true)
    (hhelper : ¬ (setName = 4 ∧ ((s.proc (pidof sender)).pendingSet ||| andBits) = 0 ∧
      (s.proc (pidof sender)).sighelperTid = some sender)) :
    s.sigset sender setName orBits andBits replyOk =
      (State.readPending (s.proc (pidof sender)) (setName = 4) andBits).map
        fun (p', sigs) => (s.setProc (pidof sender) p', .ok sigs.toNat) := by
  have hnot : ¬ (!s.hasProcess (pidof sender)) = true := by
    rw [hproc]
    decide
  obtain rfl | rfl := hset
  · unfold State.sigset
    dsimp only
    rw [if_neg hnot, if_neg hhelper]
    change Option.bind (State.readPending (s.proc (pidof sender)) false andBits) _ = Option.map _ (State.readPending _ false _)
    cases State.readPending (s.proc (pidof sender)) false andBits <;> rfl
  · unfold State.sigset
    dsimp only
    rw [if_neg hnot, if_neg hhelper]
    change Option.bind (State.readPending (s.proc (pidof sender)) true andBits) _ = Option.map _ (State.readPending _ true _)
    cases State.readPending (s.proc (pidof sender)) true andBits <;> rfl

/-- **Signals are taken singly.** `sigsuspend` takes off the signal that it returns and no other just if
there is none, or an `int` can. While a thread is in `sigsuspend`, a fetch gives it one unmasked signal,
leaves the others and restores the mask just if nothing is seen, or the lowest signal seen is at most 32
and not masked. -/
theorem takes_iff (s : State) :
    (∀ pid mask, s.Suspends pid mask ↔
      s.hasProcess pid = false ∨ (s.proc pid).savedMask = true ∨ Takable (s.proc pid).pendingSet mask) ∧
    ∀ (sender : Tid) (setName : ℕ) (orBits andBits : SigSet) (replyOk : Bool), setName = 3 ∨ setName = 4 →
      s.hasProcess (pidof sender) = true → (s.proc (pidof sender)).savedMask = true →
      ¬ (setName = 4 ∧ ((s.proc (pidof sender)).pendingSet ||| andBits) = 0 ∧
        (s.proc (pidof sender)).sighelperTid = some sender) →
      ((∃ t r, s.sigset sender setName orBits andBits replyOk = some (t, .ok r) ∧
          FetchesOne (s.proc (pidof sender)) (t.proc (pidof sender)) andBits r) ↔
        Fetchable (s.proc (pidof sender)) setName) := by
  refine ⟨suspends_iff s, fun sender setName orBits andBits replyOk hset hproc hsaved hhelper => ?_⟩
  rw [sigset_fetch orBits andBits replyOk hset hproc hhelper, ← readPending_iff setName andBits hsaved]
  constructor
  · rintro ⟨t, r, he, hone⟩
    obtain ⟨⟨p', sigs⟩, hread, he⟩ := Option.map_eq_some_iff.mp he
    cases he
    simp only [State.setProc, Function.update_self] at hone
    exact ⟨p', sigs, hread, hone⟩
  · rintro ⟨p', sigs, hread, hone⟩
    refine ⟨_, _, Option.map_eq_some_iff.mpr ⟨_, hread, rfl⟩, ?_⟩
    simp only [State.setProc, Function.update_self]
    exact hone

/-- Process 1 with pending signals and all signals masked, asleep in `sigsuspend` or not. -/
def pendingState (pending : SigSet) (asleep : Bool) : State :=
  (freshState.setTask 1 ⟨some ⟨0x100000, 19⟩, some (0 < ·), [⟨512, 3⟩]⟩).setProc 1
    { Process.blank with pendingSet := pending, maskSet := ~~~sigBit 5, savedMask := asleep }

/-- Signal 5 is fetched. -/
theorem takes_iff_fetch :
    ((∃ t r, (pendingState (sigBit 5) true).sigset ⟨512, 3⟩ 4 0 0 true = some (t, .ok r) ∧
        FetchesOne ((pendingState (sigBit 5) true).proc 1) (t.proc 1) 0 r) ↔
      Fetchable ((pendingState (sigBit 5) true).proc 1) 4) :=
  (takes_iff (pendingState (sigBit 5) true)).2 ⟨512, 3⟩ 4 0 0 true (.inr rfl) rfl rfl (by decide)

/-- Signal 33 is returned and stays pending, and signal 1 goes that was not asked for. -/
theorem takes_other : ¬ (pendingState (sigBit 33 ||| sigBit 1) false).Suspends 1 (~~~sigBit 33) := by
  rintro ⟨t, r, he, hmeets⟩
  have hstep : (pendingState (sigBit 33 ||| sigBit 1) false).sigsuspend 1 (~~~sigBit 33) = some (t, r) → r = .ok 33 ∧
      (t.proc 1).pendingSet = sigBit 33 := by
    intro h
    cases h
    exact ⟨rfl, by decide +kernel⟩
  obtain ⟨hr, hleft⟩ := hstep he
  have hsame := (hmeets 33 hr (by decide)).2.2
  rw [hleft] at hsame
  exact absurd hsame (by decide +kernel)

end Sneks.Root
