import Sneks.Io.Lifecycle.Defs
import Sneks.Lib.Ring
import Mathlib.Data.List.Infix
import Mathlib.Tactic.NormNum

/-!
# What the lifecycle queue delivers

As long as no event is posted while the overflow mark is set, each posted event
is processed once and in order, or the mark stays set and every call of
`lifecycle_sync` ends in `abort()`. A second event after the mark clears it: the
producer's compare-and-exchange writes a word without bit 20 and moves the write
position onto the read position, so the full queue reads as an empty one.
-/

namespace Sneks.Io.Lifecycle
open Lib

-- The control word

def pack (ov : Bool) (rd wr : ℕ) : ℕ := ov.toNat * 2 ^ 20 + rd * 2 ^ 10 + wr

variable {ov : Bool} {rd wr : ℕ}

theorem wrPos_eq_mod (ctrl : ℕ) : wrPos ctrl = ctrl % 2 ^ 10 := by
  have h := Nat.and_two_pow_sub_one_eq_mod ctrl 10
  norm_num at h
  simpa [wrPos] using h

theorem wrPos_pack (hw : wr < numLcEvents) : wrPos (pack ov rd wr) = wr := by
  rw [wrPos_eq_mod]
  simp only [pack, numLcEvents] at hw ⊢
  omega

theorem rdPos_pack (hw : wr < numLcEvents) :
    rdPos (pack ov rd wr) = ov.toNat * 2 ^ 10 + rd := by
  simp only [rdPos, pack, numLcEvents, Nat.shiftRight_eq_div_pow] at hw ⊢
  omega

theorem overflow_pack (hr : rd < numLcEvents) (hw : wr < numLcEvents) :
    overflow (pack ov rd wr) = ov := by
  simp only [overflow, pack, numLcEvents, Nat.testBit_eq_decide_div_mod_eq] at hr hw ⊢
  cases ov <;> simp <;> omega

theorem pack_mark (hr : rd < numLcEvents) (hw : wr < numLcEvents) :
    pack false rd wr ||| 1 <<< 20 = pack true rd wr := by
  have h : pack false rd wr < 2 ^ 20 := by
    simp only [pack, numLcEvents, Bool.toNat_false] at hr hw ⊢
    omega
  have hor : pack false rd wr ||| 1 <<< 20 = 1 <<< 20 + pack false rd wr := by
    rw [Nat.or_comm, Nat.shiftLeft_add_eq_or_of_lt h 1]
  rw [hor]
  simp only [pack, Bool.toNat_false, Bool.toNat_true, Nat.shiftLeft_eq]
  omega

theorem and_rdMask (ctrl : ℕ) : ctrl &&& (0x3ff <<< 10) = wrPos (rdPos ctrl) <<< 10 := by
  apply Nat.eq_of_testBit_eq
  intro i
  simp only [wrPos, rdPos, Nat.testBit_and, Nat.testBit_shiftLeft, Nat.testBit_shiftRight]
  by_cases hi : i ≥ 10
  · simp [hi]
  · simp [hi]

theorem producedCtrl_pack (hr : rd < numLcEvents) (hw : wr < numLcEvents) (w : ℕ) :
    producedCtrl (pack ov rd wr) w = pack false rd ((w + 1) % numLcEvents) := by
  have hlt : (w + 1) % numLcEvents < 2 ^ 10 :=
    (Nat.mod_lt _ (by decide)).trans (by decide)
  have hrd : wrPos (rdPos (pack ov rd wr)) = rd := by
    rw [wrPos_eq_mod, rdPos_pack hw]
    simp only [numLcEvents] at hr
    omega
  rw [producedCtrl, and_rdMask, hrd, ← Nat.shiftLeft_add_eq_or_of_lt hlt, Nat.shiftLeft_eq]
  simp [pack]

theorem consumedCtrl_pack (hw : wr < numLcEvents) (first count : ℕ) :
    consumedCtrl (pack ov rd wr) first count = pack false ((first + count) % numLcEvents) wr := by
  have hlt : wr < 2 ^ 10 := hw.trans (by decide)
  rw [consumedCtrl, wrPos_pack hw, ← Nat.shiftLeft_add_eq_or_of_lt hlt, Nat.shiftLeft_eq]
  simp [pack]

-- What is still to be processed

/-- Number of events between read position `rd` and write position `wr`. -/
def level (rd wr : ℕ) : ℕ := (wr + numLcEvents - rd) % numLcEvents

def State.queued (s : State) : List LcEvent :=
  let rd := wrPos (rdPos s.lceCtrl)
  window s.lceQueue numLcEvents rd (level rd (wrPos s.lceCtrl))

/-- How many of the queued events `lifecycle_sync` has processed already. -/
def State.drained (s : State) : ℕ :=
  match s.consumer with
  | .idle => 0
  | .drain _ _ _ i => i
  | .publish _ _ count => count

/-- The event `lifecycle_handler_fn` has accepted and not yet published. -/
def State.inFlight (s : State) : List LcEvent :=
  match s.producer with
  | .fill _ _ ev | .mark _ _ ev | .publish _ _ ev true => [ev]
  | .idle | .publish _ _ _ false => []

/-- Everything posted that a later call of `lifecycle_sync` is still to process. -/
def State.waiting (s : State) : List LcEvent := s.queued.drop s.drained ++ s.inFlight

def noPostInOverflow (s : State) : Step → Prop
  | .post _ => overflow s.lceCtrl = false
  | .produce | .sync | .consume => True

instance (s : State) (step : Step) : Decidable (noPostInOverflow s step) := by
  cases step <;> unfold noPostInOverflow <;> infer_instance

/-- What the queue promises in a state, when the steps to come meet `ok`: events
    are processed in posting order and none twice; while the overflow mark is clear
    every posted event is processed or still waiting; and once it is set it stays
    set, and no call of `lifecycle_sync` returns. -/
structure ExactlyOnce (ok : State → Step → Prop) (s : State) : Prop where
  ordered : s.processed <+: s.posted
  kept : overflow s.lceCtrl = false → s.posted = s.processed ++ s.waiting
  detected : overflow s.lceCtrl = true → ∀ step t, ok s step → exec s step = some t →
    overflow t.lceCtrl = true ∧
      (step = .sync ∨ step = .consume → t.aborted = true ∨ t.consumer ≠ .idle)

-- The invariant

/-- The producer's locals agree with the control word, up to the read position that
    the consumer moves meanwhile. -/
def ProducerOk (ov : Bool) (rd wr : ℕ) (q : ℕ → LcEvent) : Producer → Prop
  | .idle => True
  | .fill ctrl wrpos _ => ov = false ∧ wrpos = wr ∧ level rd wr + 1 < numLcEvents ∧
      ∃ rd' < numLcEvents, ctrl = pack false rd' wr
  | .mark ctrl wrpos _ => ov = false ∧ wrpos = wr ∧
      ∃ rd' < numLcEvents, ctrl = pack false rd' wr
  | .publish ctrl wrpos ev true => ov = false ∧ wrpos = wr ∧ level rd wr + 1 < numLcEvents ∧
      q wr = ev ∧ ∃ rd' < numLcEvents, ctrl = pack false rd' wr
  | .publish ctrl wrpos _ false => ov = true ∧ wrpos = wr ∧
      ∃ rd' < numLcEvents, ctrl = pack false rd' wr

/-- The consumer's locals agree with the control word, up to the write position and
    the overflow mark that the producer changes meanwhile. -/
def ConsumerOk (rd wr : ℕ) : Consumer → Prop
  | .idle => True
  | .drain ctrl first count i => first = rd ∧ i ≤ count ∧ count ≤ level rd wr ∧
      ∃ wr' < numLcEvents, ctrl = pack false rd wr'
  | .publish ctrl first count => first = rd ∧ count ≤ level rd wr ∧
      ∃ ov', ∃ wr' < numLcEvents, ctrl = pack ov' rd wr'

/-- The invariant of the two threads, for given fields of the control word and
    the list of events dropped at the overflow. -/
structure Inv (ov : Bool) (rd wr : ℕ) (lost : List LcEvent) (s : State) : Prop where
  rd_lt : rd < numLcEvents
  wr_lt : wr < numLcEvents
  ctrl : s.lceCtrl = pack ov rd wr
  log : s.posted = s.processed ++
    ((window s.lceQueue numLcEvents rd (level rd wr)).drop s.drained ++ s.inFlight) ++ lost
  lost : ov = false → lost = []
  producer : ProducerOk ov rd wr s.lceQueue s.producer
  consumer : ConsumerOk rd wr s.consumer

theorem level_lt (rd wr : ℕ) : level rd wr < numLcEvents := Nat.mod_lt _ (by decide)

theorem add_level (hr : rd < numLcEvents) (hw : wr < numLcEvents) :
    (rd + level rd wr) % numLcEvents = wr := by
  simp only [level, numLcEvents] at *
  omega

theorem level_succ (hr : rd < numLcEvents) (hw : wr < numLcEvents)
    (h : level rd wr + 1 < numLcEvents) :
    level rd ((wr + 1) % numLcEvents) = level rd wr + 1 := by
  simp only [level, numLcEvents] at *
  omega

theorem level_advance {k : ℕ} (hr : rd < numLcEvents) (hw : wr < numLcEvents)
    (h : k ≤ level rd wr) :
    level rd wr = k + level ((rd + k) % numLcEvents) wr := by
  simp only [level, numLcEvents] at *
  omega

theorem level_room (hr : rd < numLcEvents) (h : rd ≠ (wr + 1) % numLcEvents) :
    level rd wr + 1 < numLcEvents := by
  simp only [level, numLcEvents] at *
  omega

theorem Inv.queued_eq {lost : List LcEvent} {s : State} (h : Inv ov rd wr lost s) :
    s.queued = window s.lceQueue numLcEvents rd (level rd wr) := by
  have hrd : wrPos (rdPos s.lceCtrl) = rd := by
    rw [h.ctrl, wrPos_eq_mod, rdPos_pack h.wr_lt]
    have := h.rd_lt
    simp only [numLcEvents] at this
    omega
  have hwr : wrPos s.lceCtrl = wr := by rw [h.ctrl, wrPos_pack h.wr_lt]
  simp only [State.queued, hrd, hwr]

theorem inv_init : Inv false 0 0 [] State.init where
  rd_lt := by decide
  wr_lt := by decide
  ctrl := rfl
  log := rfl
  lost _ := rfl
  producer := trivial
  consumer := trivial

-- Steps keep the invariant

variable {lost : List LcEvent} {s t : State}

theorem Inv.overflow_eq (h : Inv ov rd wr lost s) : overflow s.lceCtrl = ov := by
  rw [h.ctrl, overflow_pack h.rd_lt h.wr_lt]

theorem Inv.abort (h : Inv ov rd wr lost s) : Inv ov rd wr lost { s with aborted := true } :=
  ⟨h.rd_lt, h.wr_lt, h.ctrl, h.log, h.lost, h.producer, h.consumer⟩

theorem Inv.post (h : Inv ov rd wr lost s) (hp : s.producer = .idle)
    (hov : overflow s.lceCtrl = false) (ev : LcEvent) :
    Inv ov rd wr lost (s.post ev) := by
  have hf : ov = false := by rw [← h.overflow_eq, hov]
  subst hf
  have hl : lost = [] := h.lost rfl
  subst hl
  have hin : s.inFlight = [] := by simp only [State.inFlight, hp]
  have hwr : wrPos s.lceCtrl = wr := by rw [h.ctrl, wrPos_pack h.wr_lt]
  have hrd : rdPos s.lceCtrl = rd := by simp [h.ctrl, rdPos_pack h.wr_lt]
  have hlog := h.log
  simp only [hin, List.append_nil] at hlog
  by_cases hfull : rd = (wr + 1) % numLcEvents
  · have he : s.post ev = { s with
        posted := s.posted ++ [ev], producer := .mark s.lceCtrl wr ev } := by
      simp [State.post, hov, hrd, hwr, ← hfull]
    rw [he]
    refine ⟨h.rd_lt, h.wr_lt, h.ctrl, ?_, fun _ => rfl, ⟨rfl, rfl, rd, h.rd_lt, h.ctrl⟩, h.consumer⟩
    simp [hlog, State.inFlight, State.drained]
  · have he : s.post ev = { s with
        posted := s.posted ++ [ev], producer := .fill s.lceCtrl wr ev } := by
      simp [State.post, hov, hrd, hwr, hfull]
    rw [he]
    refine ⟨h.rd_lt, h.wr_lt, h.ctrl, ?_, fun _ => rfl,
      ⟨rfl, rfl, level_room h.rd_lt hfull, rd, h.rd_lt, h.ctrl⟩, h.consumer⟩
    simp [hlog, State.inFlight, State.drained]

theorem Inv.fill {ctrl wrpos : ℕ} {ev : LcEvent} (h : Inv ov rd wr lost s)
    (hp : s.producer = .fill ctrl wrpos ev) :
    Inv ov rd wr lost { s with
      lceQueue := Function.update s.lceQueue wrpos ev
      producer := .publish ctrl wrpos ev true } := by
  have hok := h.producer
  simp only [hp, ProducerOk] at hok
  obtain ⟨hov, rfl, hroom, hctrl⟩ := hok
  have hwin : window (Function.update s.lceQueue wrpos ev) numLcEvents rd (level rd wrpos) =
      window s.lceQueue numLcEvents rd (level rd wrpos) := by
    have hu := window_update s.lceQueue rd (level_lt rd wrpos) ev
    rwa [add_level h.rd_lt h.wr_lt] at hu
  refine ⟨h.rd_lt, h.wr_lt, h.ctrl, ?_, h.lost,
    ⟨hov, rfl, hroom, Function.update_self .., hctrl⟩, h.consumer⟩
  have hlog := h.log
  simp only [State.inFlight, hp] at hlog
  simpa only [hwin, State.inFlight, State.drained] using hlog

theorem Inv.mark {ctrl wrpos : ℕ} {ev : LcEvent} (h : Inv ov rd wr lost s)
    (hp : s.producer = .mark ctrl wrpos ev) :
    Inv true rd wr (ev :: lost) { s with
      lceCtrl := s.lceCtrl ||| (1 <<< 20)
      producer := .publish ctrl wrpos ev false } := by
  have hok := h.producer
  simp only [hp, ProducerOk] at hok
  obtain ⟨rfl, rfl, hctrl⟩ := hok
  refine ⟨h.rd_lt, h.wr_lt, ?_, ?_, by simp, ⟨rfl, rfl, hctrl⟩, h.consumer⟩
  · change s.lceCtrl ||| 1 <<< 20 = _
    rw [h.ctrl, pack_mark h.rd_lt h.wr_lt]
  · have hlog := h.log
    simp only [State.inFlight, hp] at hlog
    simpa [State.inFlight, State.drained] using hlog

theorem Inv.giveUp {ctrl wrpos : ℕ} {ev : LcEvent} {real : Bool} (h : Inv ov rd wr lost s)
    (hp : s.producer = .publish ctrl wrpos ev real) (hov : overflow s.lceCtrl = true) :
    Inv ov rd wr lost { s with producer := .idle } := by
  rw [h.overflow_eq] at hov
  have hreal : real = false := by
    cases real with
    | false => rfl
    | true =>
      have hok := h.producer
      simp only [hp, ProducerOk] at hok
      exact absurd (hov.symm.trans hok.1) (by simp)
  subst hreal
  refine ⟨h.rd_lt, h.wr_lt, h.ctrl, ?_, h.lost, trivial, h.consumer⟩
  have hlog := h.log
  simp only [State.inFlight, hp] at hlog
  simpa [State.inFlight, State.drained] using hlog

theorem Inv.publish {ctrl wrpos : ℕ} {ev : LcEvent} {real : Bool} (h : Inv ov rd wr lost s)
    (hp : s.producer = .publish ctrl wrpos ev real) (hcas : s.lceCtrl = ctrl) :
    Inv false rd ((wr + 1) % numLcEvents) lost
      { s with lceCtrl := producedCtrl ctrl wrpos, producer := .idle } := by
  have hok := h.producer
  cases real with
  | false =>
    -- the local word lacks the overflow mark, so the exchange cannot succeed
    simp only [hp, ProducerOk] at hok
    obtain ⟨rfl, -, rd', hrd', hctrl⟩ := hok
    have hov := h.overflow_eq
    rw [hcas, hctrl, overflow_pack hrd' h.wr_lt] at hov
    cases hov
  | true =>
    simp only [hp, ProducerOk] at hok
    obtain ⟨rfl, rfl, hroom, hq, -⟩ := hok
    have hlevel := level_succ h.rd_lt h.wr_lt hroom
    have hlog := h.log
    simp only [State.inFlight, hp, h.lost rfl, List.append_nil] at hlog
    have hd : s.drained ≤ level rd wrpos := by
      have hc := h.consumer
      cases hcons : s.consumer with
      | idle => simp [State.drained, hcons]
      | drain c f n i =>
        simp only [hcons, ConsumerOk] at hc
        simpa [State.drained, hcons] using hc.2.1.trans hc.2.2.1
      | publish c f n =>
        simp only [hcons, ConsumerOk] at hc
        simpa [State.drained, hcons] using hc.2.1
    refine ⟨h.rd_lt, Nat.mod_lt _ (by decide), ?_, ?_, h.lost, trivial, ?_⟩
    · change producedCtrl ctrl wrpos = _
      rw [← hcas, h.ctrl, producedCtrl_pack h.rd_lt h.wr_lt]
    · change s.posted = s.processed ++ ((window s.lceQueue numLcEvents rd _).drop s.drained ++ []) ++ lost
      rw [hlevel, window_succ, add_level h.rd_lt h.wr_lt, hq, h.lost rfl,
        List.drop_append_of_le_length (by simpa using hd), hlog]
      simp
    · change ConsumerOk rd ((wrpos + 1) % numLcEvents) s.consumer
      have hc := h.consumer
      cases hcons : s.consumer with
      | idle => trivial
      | drain c f n i =>
        simp only [hcons, ConsumerOk] at hc ⊢
        exact ⟨hc.1, hc.2.1, by omega, hc.2.2.2⟩
      | publish c f n =>
        simp only [hcons, ConsumerOk] at hc ⊢
        exact ⟨hc.1, by omega, hc.2.2⟩

theorem Inv.retry {ctrl wrpos : ℕ} {ev : LcEvent} {real : Bool} (h : Inv ov rd wr lost s)
    (hp : s.producer = .publish ctrl wrpos ev real) (hov : overflow s.lceCtrl = false) :
    Inv ov rd wr lost { s with producer := .publish s.lceCtrl wrpos ev real } := by
  rw [h.overflow_eq] at hov
  subst hov
  have hok := h.producer
  cases real with
  | false =>
    simp only [hp, ProducerOk] at hok
    exact absurd hok.1 (by simp)
  | true =>
    simp only [hp, ProducerOk] at hok
    refine ⟨h.rd_lt, h.wr_lt, h.ctrl, ?_, h.lost,
      ⟨rfl, hok.2.1, hok.2.2.1, hok.2.2.2.1, rd, h.rd_lt, h.ctrl⟩, h.consumer⟩
    have hlog := h.log
    simp only [State.inFlight, hp] at hlog
    simpa [State.inFlight, State.drained] using hlog

theorem Inv.produce (h : Inv ov rd wr lost s) (hs : s.produce = some t) :
    ∃ ov' wr' lost', Inv ov' rd wr' lost' t ∧ (ov = true → ov' = true) ∧
      t.processed = s.processed ∧ t.posted = s.posted ∧ t.consumer = s.consumer := by
  cases hp : s.producer with
  | idle => simp [State.produce, hp] at hs
  | fill ctrl wrpos ev =>
    simp only [State.produce, hp, Option.some.injEq] at hs
    subst hs
    exact ⟨_, _, _, h.fill hp, id, rfl, rfl, rfl⟩
  | mark ctrl wrpos ev =>
    simp only [State.produce, hp, Option.some.injEq] at hs
    subst hs
    exact ⟨_, _, _, h.mark hp, fun _ => rfl, rfl, rfl, rfl⟩
  | publish ctrl wrpos ev real =>
    simp only [State.produce, hp] at hs
    split at hs
    · simp only [Option.some.injEq] at hs
      subst hs
      exact ⟨_, _, _, by simpa only [hp] using h.abort, id, rfl, rfl, rfl⟩
    · split at hs
      · next hcas =>
        simp only [Option.some.injEq] at hs
        subst hs
        have hov : ov = false := by
          have hok := h.producer
          cases real with
          | true => simp only [hp, ProducerOk] at hok; exact hok.1
          | false =>
            simp only [hp, ProducerOk] at hok
            obtain ⟨-, -, rd', hrd', hctrl⟩ := hok
            rw [← h.overflow_eq, hcas, hctrl, overflow_pack hrd' h.wr_lt]
        exact ⟨_, _, _, h.publish hp hcas, fun he => absurd (hov.symm.trans he) (by simp), rfl, rfl, rfl⟩
      · split at hs
        · next hov =>
          simp only [Option.some.injEq] at hs
          subst hs
          exact ⟨_, _, _, h.giveUp hp hov, id, rfl, rfl, rfl⟩
        · next hov =>
          simp only [Option.some.injEq] at hs
          subst hs
          exact ⟨_, _, _, h.retry hp (by simpa using hov), id, rfl, rfl, rfl⟩

theorem Inv.startDrain (h : Inv ov rd wr lost s) (hc : s.consumer = .idle)
    (hov : overflow s.lceCtrl = false) {count : ℕ}
    (hcount : count = if rd ≤ wr then wr - rd else wr + numLcEvents - rd) :
    Inv ov rd wr lost { s with consumer := .drain s.lceCtrl rd count 0 } := by
  rw [h.overflow_eq] at hov
  subst hov
  have hr := h.rd_lt
  have hw := h.wr_lt
  have hlevel : count ≤ level rd wr := by
    simp only [level, numLcEvents] at hcount hr hw ⊢
    split at hcount <;> omega
  refine ⟨hr, hw, h.ctrl, ?_, h.lost, h.producer, ⟨rfl, Nat.zero_le _, hlevel, wr, hw, h.ctrl⟩⟩
  have hlog := h.log
  simp only [State.drained, hc] at hlog
  simpa [State.inFlight, State.drained] using hlog

theorem Inv.drainOne {ctrl first count i : ℕ} (h : Inv ov rd wr lost s)
    (hc : s.consumer = .drain ctrl first count i) (hi : i < count) :
    Inv ov rd wr lost { s with
      processed := s.processed ++ [s.lceQueue ((first + i) % numLcEvents)]
      consumer := .drain ctrl first count (i + 1) } := by
  have hok := h.consumer
  simp only [hc, ConsumerOk] at hok
  obtain ⟨rfl, -, hle, hctrl⟩ := hok
  refine ⟨h.rd_lt, h.wr_lt, h.ctrl, ?_, h.lost, h.producer, ⟨rfl, hi, hle, hctrl⟩⟩
  have hlog := h.log
  simp only [State.drained, hc, window_drop_eq_cons _ _ _ (hi.trans_le hle)] at hlog
  simpa [State.inFlight, State.drained] using hlog

theorem Inv.endDrain {ctrl first count i : ℕ} (h : Inv ov rd wr lost s)
    (hc : s.consumer = .drain ctrl first count i) (hi : ¬ i < count) :
    Inv ov rd wr lost { s with consumer := .publish ctrl first count } := by
  have hok := h.consumer
  simp only [hc, ConsumerOk] at hok
  obtain ⟨rfl, hi', hle, wr', hwr', hctrl⟩ := hok
  have he : i = count := by omega
  subst he
  refine ⟨h.rd_lt, h.wr_lt, h.ctrl, ?_, h.lost, h.producer, ⟨rfl, hle, false, wr', hwr', hctrl⟩⟩
  have hlog := h.log
  simp only [State.drained, hc] at hlog
  simpa [State.inFlight, State.drained] using hlog

theorem Inv.release {ctrl first count : ℕ} (h : Inv ov rd wr lost s)
    (hc : s.consumer = .publish ctrl first count) (hcas : s.lceCtrl = ctrl)
    (hov : ov = false) :
    Inv ov ((rd + count) % numLcEvents) wr lost
      { s with lceCtrl := consumedCtrl ctrl first count, consumer := .idle } := by
  subst hov
  have hok := h.consumer
  simp only [hc, ConsumerOk] at hok
  obtain ⟨rfl, hle, -⟩ := hok
  have hlevel := level_advance h.rd_lt h.wr_lt hle
  refine ⟨Nat.mod_lt _ (by decide), h.wr_lt, ?_, ?_, h.lost, ?_, trivial⟩
  · change consumedCtrl ctrl first count = _
    rw [← hcas, h.ctrl, consumedCtrl_pack h.wr_lt]
  · have hlog := h.log
    simp only [State.drained, hc] at hlog
    rw [hlevel, window_drop] at hlog
    simpa [State.inFlight, State.drained] using hlog
  · change ProducerOk false ((first + count) % numLcEvents) wr s.lceQueue s.producer
    have hok := h.producer
    cases hp : s.producer with
    | idle => trivial
    | fill c w e =>
      simp only [hp, ProducerOk] at hok ⊢
      exact ⟨trivial, hok.2.1, by omega, hok.2.2.2⟩
    | mark c w e => simpa only [hp, ProducerOk] using hok
    | publish c w e real =>
      cases real with
      | true =>
        simp only [hp, ProducerOk] at hok ⊢
        exact ⟨trivial, hok.2.1, by omega, hok.2.2.2⟩
      | false => simpa only [hp, ProducerOk] using hok

theorem Inv.retryRelease {ctrl first count : ℕ} (h : Inv ov rd wr lost s)
    (hc : s.consumer = .publish ctrl first count) :
    Inv ov rd wr lost { s with consumer := .publish s.lceCtrl first count } := by
  have hok := h.consumer
  simp only [hc, ConsumerOk] at hok
  refine ⟨h.rd_lt, h.wr_lt, h.ctrl, ?_, h.lost, h.producer,
    ⟨hok.1, hok.2.1, ov, wr, h.wr_lt, h.ctrl⟩⟩
  have hlog := h.log
  simp only [State.drained, hc] at hlog
  simpa [State.inFlight, State.drained] using hlog

theorem Inv.sync (h : Inv ov rd wr lost s) (hs : s.sync = some t) :
    Inv ov rd wr lost t ∧ (ov = true → t.aborted = true) := by
  cases hc : s.consumer with
  | drain ctrl first count i => simp [State.sync, hc] at hs
  | publish ctrl first count => simp [State.sync, hc] at hs
  | idle =>
    simp only [State.sync, hc, h.overflow_eq] at hs
    cases ov with
    | true =>
      simp only [if_true, Option.some.injEq] at hs
      subst hs
      exact ⟨by simpa only [hc] using h.abort, fun _ => rfl⟩
    | false =>
      have hwr : wrPos s.lceCtrl = wr := by rw [h.ctrl, wrPos_pack h.wr_lt]
      have hrd : rdPos s.lceCtrl = rd := by simp [h.ctrl, rdPos_pack h.wr_lt]
      simp only [hwr, hrd, Bool.false_eq_true, if_false] at hs
      split at hs
      · simp only [Option.some.injEq] at hs
        subst hs
        exact ⟨h, fun he => by cases he⟩
      · simp only [Option.some.injEq] at hs
        subst hs
        exact ⟨h.startDrain hc h.overflow_eq rfl, fun he => by cases he⟩

theorem Inv.consume (h : Inv ov rd wr lost s) (hs : s.consume = some t) :
    ∃ rd', Inv ov rd' wr lost t ∧ (ov = true → t.aborted = true ∨ t.consumer ≠ .idle) := by
  cases hc : s.consumer with
  | idle => simp [State.consume, hc] at hs
  | drain ctrl first count i =>
    simp only [State.consume, hc] at hs
    split at hs
    · next hi =>
      simp only [Option.some.injEq] at hs
      subst hs
      exact ⟨rd, h.drainOne hc hi, fun _ => .inr (by simp)⟩
    · next hi =>
      simp only [Option.some.injEq] at hs
      subst hs
      exact ⟨rd, h.endDrain hc hi, fun _ => .inr (by simp)⟩
  | publish ctrl first count =>
    simp only [State.consume, hc] at hs
    split at hs
    · simp only [Option.some.injEq] at hs
      subst hs
      exact ⟨rd, by simpa only [hc] using h.abort, fun _ => .inl rfl⟩
    · next hfirst =>
      split at hs
      · next hcas =>
        simp only [Option.some.injEq] at hs
        subst hs
        -- a word with the overflow mark fails the assertion before it is exchanged
        have hov : ov = false := by
          have hok := h.consumer
          simp only [hc, ConsumerOk] at hok
          obtain ⟨rfl, -, -⟩ := hok
          have hrd := h.rd_lt
          rw [← hcas, h.ctrl, rdPos_pack h.wr_lt] at hfirst
          cases ov with
          | false => rfl
          | true => simp at hfirst
        exact ⟨_, h.release hc hcas hov, fun he => absurd (hov.symm.trans he) (by simp)⟩
      · simp only [Option.some.injEq] at hs
        subst hs
        exact ⟨rd, h.retryRelease hc, fun _ => .inr (by simp)⟩

theorem Inv.exec {step : Step} (h : Inv ov rd wr lost s) (hok : noPostInOverflow s step)
    (hs : exec s step = some t) :
    ∃ ov' rd' wr' lost', Inv ov' rd' wr' lost' t ∧ (ov = true → ov' = true ∧
      (step = .sync ∨ step = .consume → t.aborted = true ∨ t.consumer ≠ .idle)) := by
  have ha : s.aborted = false := by
    cases h : s.aborted with
    | false => rfl
    | true => simp [Lifecycle.exec, h] at hs
  simp only [Lifecycle.exec, ha, Bool.false_eq_true, if_false] at hs
  cases step with
  | post body =>
    cases hp : s.producer with
    | idle =>
      simp only [hp, Option.some.injEq] at hs
      subst hs
      exact ⟨_, _, _, _, h.post hp hok _, fun he => ⟨he, by simp⟩⟩
    | _ => simp [hp] at hs
  | produce =>
    obtain ⟨ov', wr', lost', hinv, hmono, -⟩ := h.produce hs
    exact ⟨_, _, _, _, hinv, fun he => ⟨hmono he, by simp⟩⟩
  | sync =>
    obtain ⟨hinv, habort⟩ := h.sync hs
    exact ⟨_, _, _, _, hinv, fun he => ⟨he, fun _ => .inl (habort he)⟩⟩
  | consume =>
    obtain ⟨rd', hinv, hidle⟩ := h.consume hs
    exact ⟨_, _, _, _, hinv, fun he => ⟨he, fun _ => hidle he⟩⟩

theorem Inv.exactlyOnce (h : Inv ov rd wr lost s) : ExactlyOnce noPostInOverflow s where
  ordered := by
    rw [h.log, List.append_assoc]
    exact List.prefix_append _ _
  kept := by
    intro hov
    rw [h.overflow_eq] at hov
    simpa [State.waiting, h.queued_eq, h.lost hov] using h.log
  detected := by
    intro hov step t hok hs
    rw [h.overflow_eq] at hov
    obtain ⟨ov', rd', wr', lost', hinv, hmono⟩ := h.exec hok hs
    obtain ⟨rfl, hidle⟩ := hmono hov
    exact ⟨hinv.overflow_eq, hidle⟩

/-- In every interleaving in which no event is posted into a marked queue, each
    posted event is processed once and in order, or the overflow is detected. -/
theorem lifecycle_exactlyOnce {steps : List Step} {s : State}
    (h : Run exec noPostInOverflow .init steps s) : ExactlyOnce noPostInOverflow s := by
  have hinv : ∃ ov rd wr lost, Inv ov rd wr lost s := by
    refine h.invariant (I := fun s => ∃ ov rd wr lost, Inv ov rd wr lost s) ?_
      ⟨_, _, _, _, inv_init⟩
    rintro s step t hok hs ⟨ov, rd, wr, lost, hinv⟩
    obtain ⟨ov', rd', wr', lost', hinv', -⟩ := hinv.exec hok hs
    exact ⟨ov', rd', wr', lost', hinv'⟩
  obtain ⟨ov, rd, wr, lost, hinv⟩ := hinv
  exact hinv.exactlyOnce

/-- A message telling that process 7 has forked process `n`. -/
def forkBody (n : ℕ) : ℕ → ℕ
  | 0 => 7
  | 1 => n <<< 8
  | _ => 0

/-- One event is posted and drained. -/
theorem lifecycle_exactlyOnce_fork :
    ∃ s, Run exec noPostInOverflow .init
        [.post (forkBody 8), .produce, .produce, .sync, .consume, .consume, .consume] s ∧
      s.processed = [⟨7, .fork 8⟩] ∧ ExactlyOnce noPostInOverflow s := by
  obtain ⟨s, hs, hp⟩ := Run.exists_of_evalRun exec noPostInOverflow .init
    [.post (forkBody 8), .produce, .produce, .sync, .consume, .consume, .consume]
    (·.processed) [⟨7, .fork 8⟩] (by decide)
  exact ⟨s, hs, hp, lifecycle_exactlyOnce hs⟩

def postOne : List Step := [.post (forkBody 8), .produce, .produce]

/-- The queue is filled, one event meets the full queue and sets the overflow mark,
    the next one clears the mark, and `lifecycle_sync` finds nothing to do. -/
def overrun : List Step :=
  (List.replicate 127 postOne).flatten ++ postOne ++ [.post (forkBody 8), .produce, .sync]

/-- All 129 events of an overrun are lost without a trace. -/
theorem lifecycle_overrun_lost :
    ¬ ∀ steps s, Run exec free .init steps s → ExactlyOnce free s := by
  intro h
  obtain ⟨s, hs, hp⟩ := Run.exists_of_evalRun exec free .init overrun
    (fun s => (overflow s.lceCtrl, s.posted.length, s.processed, s.waiting))
    (false, 129, [], []) (by decide +kernel)
  simp only [Prod.mk.injEq] at hp
  obtain ⟨hov, hposted, hprocessed, hwaiting⟩ := hp
  have hkept := (h _ _ hs).kept hov
  rw [hprocessed, hwaiting] at hkept
  simp [hkept] at hposted

end Sneks.Io.Lifecycle
