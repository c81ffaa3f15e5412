import Sneks.Crt.Sigbottom

/-!
# Signal handlers

`__sig_invoke` of `user/crt/sigaction.c` calls the handler of the signal that `__sig_bottom` chose, and
then those of the signals in the queue. While a handler runs, the signals of its `sa_mask` and its own
are in `block_set`, and another signal may come and be handled first.

The queue has signals that were blocked when they came. They are taken from it when a handler has
returned, whether they are blocked or not: where a handler that masks them is interrupted by the
handler that returns, they run.

`sigprocmask` does not change `block_set`. It tells root of the new mask, and fetches what is pending.
-/

namespace Sneks.Crt
open Lib Root

def SA_NODEFER : BitVec 32 := 0x40000000

inductive Frame
  /-- Before `__sig_invoke`, with its parameter. -/
  | chosen (param : BitVec 32)
  /-- A handler, with what was put into `block_set` for it, and `recv_break_ok`. -/
  | handler (sig : ℕ) (masked : SigSet) (recvBreakOk : Bool)
  /-- `sigaction`, where all signals are blocked. -/
  | changing (old : SigSet) (signum : ℕ) (act : Sigaction)

structure Thread where
  signals : Signals
  /-- The innermost first. -/
  stack : List Frame

inductive ThreadStep
  /-- A call of `__sig_bottom`, from the helper thread or after a `kill`. -/
  | bottom (fetched : Except Errno SigSet) (inMain exchanged : Bool) (others : ℕ)
  /-- The set goes to root, which answers whether it was changed. -/
  | sigprocmask (how : ℕ) (ok : Bool) (fetched : Except Errno SigSet) (others : ℕ)
  /-- `sigaction`, up to where it blocks all signals. `old` is what root answers. -/
  | sigaction (signum : ℤ) (act : Sigaction) (page : Bool) (old : Except Errno SigSet)
  /-- The rest of `sigaction`. -/
  | changed
  /-- The start of `__sig_invoke`. -/
  | invoke
  /-- The handler returns, or leaves by `longjmp`. -/
  | leave
  | permitRecvInterrupt
  | forbidRecvInterrupt

namespace Thread

variable (s : Thread)

def userCode : Bool :=
  match s.stack with
  | [] | .handler .. :: _ => true
  | _ => false

/-- The runtime's sets after `sigaction` has asked root, if its assertions hold. -/
def requested (c : Runtime) (sig : ℕ) (handler : Handler) (old : Except Errno SigSet) : Option Runtime :=
  match c.request sig handler, old with
  | none, _ => some c
  | some _, .error _ => none
  | some _, .ok old => if Runtime.oldOk sig handler old then some (c.record sig handler) else none

/-- `sigaction`, up to where it blocks all signals. -/
def sigaction (signum : ℤ) (act : Sigaction) (page : Bool) (old : Except Errno SigSet) : Option Thread :=
  let c := s.signals.crt
  if signum < 1 ∨ 64 < signum then some s
  else if !c.deliveryPage && !page then none
  else
    let c := { c with deliveryPage := true }
    if act.flags &&& SA_SIGINFO ≠ 0 then some { s with signals := { s.signals with crt := c } }
    else if c.ignSet &&& c.dflSet ≠ 0 then none
    else do
      let c ← requested c signum.toNat act.handler old
      if c.ignSet &&& c.dflSet ≠ 0 then none
      else some {
        signals := { s.signals with crt := c, blockSet := ~~~0 }
        stack := .changing s.signals.blockSet signum.toNat act :: s.stack }

/-- What comes of `__sig_bottom`: a handler may be chosen. -/
def afterBottom (b : Bottom) : Option Thread :=
  if b.aborted then none
  else some ⟨b.signals, match b.param with
    | none => s.stack
    | some param => .chosen param :: s.stack⟩

def effMask (act : Sigaction) (sig : ℕ) : SigSet :=
  if ~~~act.flags &&& SA_NODEFER ≠ 0 then act.mask ||| sigBit sig else act.mask

/-- A round of `__sig_invoke`, up to the call of the handler: the thread then, the signal, and
    `block_set` before the handler's mask is applied. -/
def call (c : Signals) (stack : List Frame) (sig : ℕ) (recvBreakOk : Bool) : Option (Thread × Option (ℕ × SigSet)) :=
  let act := c.crt.sigActions sig
  if sig = 0 ∨ 64 < sig then none
  else if act.handler = .ign ∨ act.handler = .dfl then none
  else
    let mask := effMask act sig
    some (⟨{ c with blockSet := c.blockSet ||| mask }, .handler sig (mask &&& ~~~c.blockSet) recvBreakOk :: stack⟩,
      some (sig, c.blockSet))

/-- The rest of the round, and the next one or the end of `__sig_invoke`. -/
def leave (c : Signals) (rest : List Frame) (masked : SigSet) (recvBreakOk : Bool) :
    Option (Thread × Option (ℕ × SigSet)) :=
  if c.blockSet &&& masked ≠ masked then none
  else
    let c := { c with blockSet := c.blockSet &&& ~~~masked }
    let (queue, sig) := c.queue.nextSignal
    let c := { c with queue := queue }
    if sig ≠ 0 then call c rest sig recvBreakOk
    else if c.recvBreakFlag then none
    else some (⟨{ c with recvBreakFlag := recvBreakOk }, rest⟩, none)

/-- What `__sig_invoke` does, and the handler that is called. -/
def sigInvoke : ThreadStep → Option (Thread × Option (ℕ × SigSet))
  | .invoke =>
    match s.stack with
    | .chosen param :: rest => call s.signals rest (paramSig param) (param &&& 0x100#32 ≠ 0)
    | _ => none
  | .leave =>
    match s.stack with
    | .handler _ masked recvBreakOk :: rest => leave s.signals rest masked recvBreakOk
    | _ => none
  | _ => none

def exec (s : Thread) : ThreadStep → Option Thread
  | .bottom fetched inMain exchanged others => s.afterBottom (s.signals.sigBottom fetched inMain exchanged others)
  | .sigprocmask how ok fetched others =>
    if !s.userCode then none
    else if ok && (how = 1 || how = 2) then s.afterBottom (s.signals.sigBottom fetched true true others)
    else some s
  | .sigaction signum act page old => if s.userCode then s.sigaction signum act page old else none
  | .changed =>
    match s.stack with
    | .changing old signum act :: rest =>
      some ⟨{ s.signals with crt := s.signals.crt.install signum act, blockSet := old }, rest⟩
    | _ => none
  | .permitRecvInterrupt =>
    if s.signals.recvBreakFlag then none else some { s with signals := { s.signals with recvBreakFlag := true } }
  | .forbidRecvInterrupt =>
    if s.signals.recvBreakFlag then some { s with signals := { s.signals with recvBreakFlag := false } } else none
  | step => (s.sigInvoke step).map (·.1)

def fresh : Thread := ⟨⟨.fresh, .fresh, 0, false, 0⟩, []⟩

/-- A handler that is called is not for a signal in `block_set`. -/
def RunsUnblocked (step : ThreadStep) : Prop :=
  ∀ s' sig blockSet, s.sigInvoke step = some (s', some (sig, blockSet)) → blockSet.has sig = false

end Thread

def Frame.masked : Frame → SigSet
  | .chosen _ => 0
  | .handler _ masked _ => masked
  | .changing old _ _ => ~~~old

/-- Where a handler returns, the signal that is next in the queue is masked by none of the handlers
that were interrupted. -/
def unmasked (s : Thread) : ThreadStep → Prop
  | .leave => ∀ frame ∈ s.stack.tail, frame.masked.has s.signals.queue.nextSignal.2 = false
  | _ => True

def blockedBy : List Frame → SigSet
  | [] => 0
  | frame :: rest => blockedBy rest ||| frame.masked

def Frame.Fits (rest : List Frame) : Frame → Prop
  | .chosen param => (blockedBy rest).has (paramSig param) = false
  | .handler _ masked _ => masked &&& blockedBy rest = 0
  | .changing old _ _ => old = blockedBy rest

def Nested : List Frame → Prop
  | [] => True
  | frame :: rest => frame.Fits rest ∧ Nested rest

structure Thread.Inv (s : Thread) : Prop where
  nested : Nested s.stack
  blockSet : s.signals.blockSet = blockedBy s.stack

variable {s s' : Thread} {c : Signals} {sig : ℕ} {masked : SigSet} {rest : List Frame} {step : ThreadStep}

theorem has_or (set other : SigSet) (sig : ℕ) : (set ||| other).has sig = (set.has sig || other.has sig) := by
  simp [SigSet.has, Bool.and_or_distrib_left]

theorem blockedBy_has : (blockedBy rest).has sig = false ↔ ∀ frame ∈ rest, frame.masked.has sig = false := by
  induction rest with
  | nil => simp [blockedBy, SigSet.has]
  | cons frame rest ih => rw [blockedBy, has_or, Bool.or_eq_false_iff, ih, List.forall_mem_cons, and_comm]

@[simp] theorem finish_blockSet (c : Signals) (call others : ℕ) (queued : Except Errno Unit) (param : Option (BitVec 32)) :
    (c.finish call others queued param).signals.blockSet = c.blockSet := by
  simp only [Signals.finish]
  split <;> rfl

theorem sigBottom_blockSet (c : Signals) (fetched : Except Errno SigSet) (inMain exchanged : Bool) (others : ℕ) :
    (c.sigBottom fetched inMain exchanged others).signals.blockSet = c.blockSet := by
  simp only [Signals.sigBottom]
  split
  · exact finish_blockSet ..
  · split
    · rfl
    · split
      · exact finish_blockSet ..
      · split
        · rfl
        · exact finish_blockSet ..

theorem sigBottom_unblocked {fetched : Except Errno SigSet} {inMain exchanged : Bool} {others : ℕ} {param : BitVec 32}
    (h : (c.sigBottom fetched inMain exchanged others).param = some param) : c.blockSet.has (paramSig param) = false := by
  simp only [Signals.sigBottom] at h
  split at h
  · cases h
  next pending =>
  split at h
  · cases h
  obtain ⟨hchoose, -⟩ | ⟨-, low, hlow, -, hchoose⟩ := Signals.choose_cases c pending
  · rw [hchoose] at h
    cases h
  · obtain ⟨hpos, h64, hbit⟩ := SigSet.has_iff.mp hlow
    rw [hchoose] at h
    split at h
    · cases h
    split at h
    · cases h
    · cases h
      rw [show low - 1 + 1 = low by omega, paramSig_sigParam low h64]
      rw [BitVec.getLsbD_and, BitVec.getLsbD_not, Bool.and_eq_true, Bool.and_eq_true, Bool.not_eq_true'] at hbit
      rw [SigSet.has, hbit.2.2, Bool.and_false]

namespace Thread

theorem Inv.afterBottom {fetched : Except Errno SigSet} {inMain exchanged : Bool} {others : ℕ} (h : s.Inv)
    (hs : s.afterBottom (s.signals.sigBottom fetched inMain exchanged others) = some s') : s'.Inv := by
  simp only [Thread.afterBottom] at hs
  split at hs
  · cases hs
  cases hs
  have hblock := sigBottom_blockSet s.signals fetched inMain exchanged others
  cases hparam : (s.signals.sigBottom fetched inMain exchanged others).param with
  | none => exact ⟨h.nested, hblock.trans h.blockSet⟩
  | some param =>
    have hfree := sigBottom_unblocked hparam
    rw [h.blockSet] at hfree
    refine ⟨⟨hfree, h.nested⟩, (hblock.trans h.blockSet).trans ?_⟩
    exact BitVec.or_zero.symm

theorem Inv.call {recvBreakOk : Bool} {called : Option (ℕ × SigSet)} (hnested : Nested rest)
    (hblock : c.blockSet = blockedBy rest) (hs : Thread.call c rest sig recvBreakOk = some (s', called)) :
    s'.Inv ∧ called = some (sig, blockedBy rest) := by
  simp only [Thread.call] at hs
  split at hs
  · cases hs
  split at hs
  · cases hs
  cases hs
  rw [hblock]
  refine ⟨⟨⟨?_, hnested⟩, ?_⟩, rfl⟩
  · ext i hi
    simp
  · rw [blockedBy, Frame.masked]
    ext i hi
    simp
    grind

theorem Inv.leave {recvBreakOk : Bool} {called : Option (ℕ × SigSet)} (hnested : Nested rest)
    (hfits : masked &&& blockedBy rest = 0) (hblock : c.blockSet = blockedBy rest ||| masked)
    (hs : Thread.leave c rest masked recvBreakOk = some (s', called)) :
    s'.Inv ∧ (called = none ∧ c.queue.nextSignal.2 = 0 ∨ called = some (c.queue.nextSignal.2, blockedBy rest)) := by
  have hrestore : c.blockSet &&& ~~~masked = blockedBy rest := by
    rw [hblock]
    ext i hi
    have hbit := and_eq_zero_bit hfits i hi
    simp only [BitVec.getElem_and, BitVec.getElem_or, BitVec.getElem_not]
    grind
  simp only [Thread.leave] at hs
  split at hs
  · cases hs
  split at hs
  · obtain ⟨hinv, hcalled⟩ := Inv.call (c := _) hnested hrestore hs
    exact ⟨hinv, .inr hcalled⟩
  · next hnone =>
    split at hs
    · cases hs
    · cases hs
      exact ⟨⟨hnested, hrestore⟩, .inl ⟨rfl, Decidable.not_not.mp hnone⟩⟩

theorem Inv.sigInvoke {called : Option (ℕ × SigSet)} (h : s.Inv) (hs : s.sigInvoke step = some (s', called)) :
    s'.Inv ∧ (s.RunsUnblocked step ↔ unmasked s step) := by
  have hruns : ∀ sig blockSet, called = some (sig, blockSet) → (s.RunsUnblocked step ↔ blockSet.has sig = false) := by
    rintro sig blockSet rfl
    refine ⟨fun hfree => hfree s' sig blockSet hs, fun hfree s₁ sig₁ blockSet₁ hs₁ => ?_⟩
    rw [hs] at hs₁
    cases hs₁
    exact hfree
  have hnone : called = none → s.RunsUnblocked step := by
    rintro rfl s₁ sig blockSet hs₁
    rw [hs] at hs₁
    cases hs₁
  have hnested := h.nested
  have hblock := h.blockSet
  cases step with
  | invoke =>
    simp only [Thread.sigInvoke] at hs
    split at hs
    · next param rest hstack =>
      rw [hstack] at hnested hblock
      obtain ⟨hinv, hcalled⟩ := Inv.call hnested.2 (hblock.trans BitVec.or_zero) hs
      exact ⟨hinv, iff_of_true ((hruns _ _ hcalled).mpr hnested.1) trivial⟩
    · cases hs
  | leave =>
    simp only [Thread.sigInvoke] at hs
    split at hs
    · next sig masked recvBreakOk rest hstack =>
      rw [hstack] at hnested hblock
      obtain ⟨hinv, hcalled⟩ := Inv.leave hnested.2 hnested.1 hblock hs
      refine ⟨hinv, ?_⟩
      have hunmasked : unmasked s .leave ↔ (blockedBy rest).has s.signals.queue.nextSignal.2 = false := by
        rw [unmasked, hstack, blockedBy_has, List.tail_cons]
      rw [hunmasked]
      obtain ⟨hno, hzero⟩ | hcalled := hcalled
      · exact iff_of_true (hnone hno) (by rw [hzero]; rfl)
      · exact hruns _ _ hcalled
    · cases hs
  | _ => cases hs

theorem Inv.sigaction {signum : ℤ} {act : Sigaction} {page : Bool} {old : Except Errno SigSet} (h : s.Inv)
    (hs : s.sigaction signum act page old = some s') : s'.Inv := by
  simp only [Thread.sigaction] at hs
  split at hs
  · cases hs
    exact h
  split at hs
  · cases hs
  split at hs
  · cases hs
    exact ⟨h.nested, h.blockSet⟩
  split at hs
  · cases hs
  simp only [Option.bind_eq_bind, Option.bind_eq_some_iff] at hs
  obtain ⟨c', -, hs⟩ := hs
  split at hs
  · cases hs
  cases hs
  refine ⟨⟨h.blockSet, h.nested⟩, ?_⟩
  rw [blockedBy, Frame.masked, ← h.blockSet]
  ext i hi
  simp

theorem Inv.exec (h : s.Inv) (hs : exec s step = some s') : s'.Inv := by
  cases step with
  | bottom fetched inMain exchanged others => exact h.afterBottom hs
  | sigprocmask how ok fetched others =>
    simp only [Thread.exec] at hs
    split at hs
    · cases hs
    split at hs
    · exact h.afterBottom hs
    · cases hs
      exact h
  | sigaction signum act page old =>
    obtain ⟨-, hs⟩ := Option.ite_none_right_eq_some.mp hs
    exact h.sigaction hs
  | changed =>
    simp only [Thread.exec] at hs
    split at hs
    · next old signum act rest hstack =>
      cases hs
      have hnested := h.nested
      rw [hstack] at hnested
      exact ⟨hnested.2, hnested.1⟩
    · cases hs
  | permitRecvInterrupt =>
    simp only [Thread.exec] at hs
    split at hs
    · cases hs
    · cases hs
      exact ⟨h.nested, h.blockSet⟩
  | forbidRecvInterrupt =>
    simp only [Thread.exec] at hs
    split at hs
    · cases hs
      exact ⟨h.nested, h.blockSet⟩
    · cases hs
  | invoke =>
    obtain ⟨⟨t, called⟩, ht, he⟩ := Option.map_eq_some_iff.mp hs
    cases he
    exact (h.sigInvoke ht).1
  | leave =>
    obtain ⟨⟨t, called⟩, ht, he⟩ := Option.map_eq_some_iff.mp hs
    cases he
    exact (h.sigInvoke ht).1

theorem run_inv {ok : Thread → ThreadStep → Prop} {steps : List ThreadStep} (h : Run exec ok s steps s') (hs : s.Inv) :
    s'.Inv :=
  h.invariant (fun _ _ _ _ he hi => Inv.exec hi he) hs

theorem fresh_inv : fresh.Inv := ⟨trivial, rfl⟩

theorem runsUnblocked_iff (h : s.Inv) (hs : exec s step = some s') : s.RunsUnblocked step ↔ unmasked s step := by
  cases step with
  | invoke =>
    obtain ⟨⟨t, called⟩, ht, -⟩ := Option.map_eq_some_iff.mp hs
    exact (h.sigInvoke ht).2
  | leave =>
    obtain ⟨⟨t, called⟩, ht, -⟩ := Option.map_eq_some_iff.mp hs
    exact (h.sigInvoke ht).2
  | _ => exact iff_of_true nofun trivial

/-- **Blocked signals do not run**, just where the signal next in the queue is masked by no handler
under the one that returns. `block_set` is the same whenever the thread is in the same calls. -/
theorem blocked_not_run {steps : List ThreadStep} (h : Run exec free fresh steps s) :
    (∀ step s', exec s step = some s' → (s.RunsUnblocked step ↔ unmasked s step)) ∧
      ∀ steps' t, Run exec free s steps' t → t.stack = s.stack → t.signals.blockSet = s.signals.blockSet := by
  have hinv := run_inv h fresh_inv
  refine ⟨fun step s' hs => runsUnblocked_iff hinv hs, fun steps' t ht hstack => ?_⟩
  rw [(run_inv ht hinv).blockSet, hstack, hinv.blockSet]

def maskedSteps : List ThreadStep :=
  [.sigaction 10 ⟨.function 0x1000, sigBit 2, 0⟩ true (.ok (~~~0)), .changed,
    .sigaction 2 ⟨.function 0x2000, 0, 0⟩ true (.ok (~~~sigBit 10)), .changed,
    .sigaction 12 ⟨.function 0x3000, 0, 0⟩ true (.ok (~~~(sigBit 10 ||| sigBit 2))), .changed,
    .bottom (.ok (sigBit 10)) false true 0, .invoke, .bottom (.ok (sigBit 2)) false true 0]

/-- Signal 2 waits until the handler of 10 returns. -/
theorem blocked_not_run_queued :
    ∃ s, Run exec free fresh maskedSteps s ∧ s.RunsUnblocked .leave := by
  obtain ⟨s, hs, he⟩ := Run.exists_of_evalRun exec free fresh maskedSteps
    (fun s => ((exec s .leave).isSome, s.stack.length)) (true, 1) (by decide +kernel)
  simp only [Prod.mk.injEq] at he
  obtain ⟨s', hs'⟩ := Option.isSome_iff_exists.mp he.1
  refine ⟨s, hs, ((blocked_not_run hs).1 .leave s' hs').mpr fun frame hmem => ?_⟩
  have hnone : s.stack.tail = [] := List.eq_nil_of_length_eq_zero (by rw [List.length_tail, he.2])
  rw [hnone] at hmem
  cases hmem

/-- Signal 12 comes while 2 is masked, and the handler of 2 is called when that of 12 returns. -/
theorem blocked_run :
    ¬ ∀ steps s step s', Run exec free fresh steps s → exec s step = some s' → s.RunsUnblocked step := by
  intro h
  obtain ⟨s, hs, he⟩ := Run.exists_of_evalRun exec free fresh
    (maskedSteps ++ [.bottom (.ok (sigBit 12)) false true 0, .invoke])
    (fun s => ((exec s .leave).isSome, (s.sigInvoke .leave).map (·.2)))
    (true, some (some (2, sigBit 2 ||| sigBit 10))) (by decide +kernel)
  simp only [Prod.mk.injEq] at he
  obtain ⟨s', hs'⟩ := Option.isSome_iff_exists.mp he.1
  obtain ⟨⟨t, called⟩, ht, hcalled⟩ := Option.map_eq_some_iff.mp he.2
  cases hcalled
  exact absurd (h _ s .leave s' hs hs' t 2 _ ht) (by decide)

end Thread
end Sneks.Crt
