import Sneks.Sysmsg.Broadcast

/-!
# Calls from within a handler

A client that is being sent a broadcast may call the server before it replies, and
`recursive_sysmsg_call` takes its message apart by hand. The wire format of
`idl/sys/msg.idl` has the label of the operation in `MR1` and the parameters from `MR2` on, and
the reply's words from `MR1` on.

The two filter calls do what they do when they are dispatched. `setmask` reads its operands one
register too low: the label, which is 1, for `or`, and `or` for `and`.
-/

namespace Sneks.Sysmsg

structure Reply where
  label : ℕ
  words : List Word
  deriving DecidableEq

def eagain : Word := 11

def enosys : Word := 38

/-- The reply of `recursive_sysmsg_call`; `oldmask` is what `setmask` returns. -/
def Msg.reply (msg : Msg) (oldmask : Word) : Reply :=
  match (msg.mr 1).toNat with
  | 1 => ⟨0, [oldmask]⟩
  | 2 => ⟨1, [eagain]⟩
  | 3 | 4 => ⟨0, []⟩
  | _ => ⟨1, [enosys]⟩

/-- The operations of `Sysmsg` but `broadcast`. A sequence `words` has up to 60. -/
inductive Call
  | setmask (or and : Word)
  | addFilter (mask : Word) (labels : { l : List Word // l.length ≤ 60 })
  | rmFilter (mask : Word) (labels : { l : List Word // l.length ≤ 60 })

def Call.Wire (msg : Msg) : Call → Prop
  | .setmask or and => msg.u = 3 ∧ msg.mr 1 = 1 ∧ msg.mr 2 = or ∧ msg.mr 3 = and
  | .addFilter mask labels => msg.u = 2 + labels.1.length ∧ msg.mr 1 = 3 ∧ msg.mr 2 = mask ∧
    ∀ i (h : i < labels.1.length), msg.mr (3 + i) = labels.1[i]
  | .rmFilter mask labels => msg.u = 2 + labels.1.length ∧ msg.mr 1 = 4 ∧ msg.mr 2 = mask ∧
    ∀ i (h : i < labels.1.length), msg.mr (3 + i) = labels.1[i]

def State.mask (s : State) (sender : Tid) : Word := ((s.client (pidof sender)).map (·.subsMask)).getD 0

section

variable (salt : ℕ → Word)

def recursiveReply (s : State) (sender : Tid) (call : Msg × Bool) : Option (State × Reply) :=
  (recursiveSysmsgCall salt s sender call).map fun t =>
    (t, call.1.reply (setmask s sender (call.1.mr 1) (call.1.mr 2)).2)

/-- `impl_setmask`, `impl_add_filter` and `impl_rm_filter`, with the reply of the dispatcher. -/
def Call.dispatch (s : State) (sender : Tid) (calloc : Bool) : Call → Option (State × Reply)
  | .setmask or and => some ((Sysmsg.setmask s sender or and).1, ⟨0, [(Sysmsg.setmask s sender or and).2]⟩)
  | .addFilter mask labels => (Sysmsg.addFilter salt s sender mask labels.1 calloc).map fun t => (t, ⟨0, []⟩)
  | .rmFilter mask labels => (Sysmsg.rmFilter salt s sender mask labels.1).map fun t => (t, ⟨0, []⟩)

end

/-- `or`, or both the caller's mask `m` and `and`, have bit 0. Of the other bits the caller has those
    of `or`, and `or` those that both the caller and `and` have. -/
def Call.Even (m : Word) : Call → Prop
  | .setmask or and => (or.getLsbD 0 || m.getLsbD 0 && and.getLsbD 0) = true ∧
    ∀ bit < 32, 0 < bit → (or.getLsbD bit = true → m.getLsbD bit = true) ∧
      (m.getLsbD bit = true → and.getLsbD bit = true → or.getLsbD bit = true)
  | .addFilter .. | .rmFilter .. => True

variable {salt : ℕ → Word} {s : State} {sender : Tid} {msg : Msg} {calloc : Bool} {or and : Word}

theorem setmask_snd : (setmask s sender or and).2 = s.mask sender := by
  simp only [setmask, State.mask]
  split
  · next hnone =>
    rw [hnone]
    split <;> rfl
  · next c hc =>
    rw [hc]
    rfl

theorem mask_setmask : (setmask s sender or and).1.mask sender = (s.mask sender &&& and) ||| or := by
  simp only [setmask, State.mask]
  split
  · next hnone =>
    split
    · next hzero =>
      obtain ⟨rfl, rfl⟩ := hzero
      simp [hnone]
    · simp [hnone, setmaskOf, State.put]
  · next c hc => simp [hc, setmaskOf, State.put]

theorem setmaskOf_congr {pid : ℕ} {c : Client} {or' and' : Word}
    (h : (c.subsMask &&& and) ||| or = (c.subsMask &&& and') ||| or') :
    setmaskOf s pid c or and = setmaskOf s pid c or' and' := by
  simp only [setmaskOf, h]

theorem setmask_misread : setmask s sender 1 or = setmask s sender or and ↔
    (s.mask sender &&& or) ||| 1 = (s.mask sender &&& and) ||| or := by
  constructor
  · intro h
    rw [← mask_setmask, ← mask_setmask, h]
  · intro h
    refine Prod.ext ?_ (by rw [setmask_snd, setmask_snd])
    cases hc : s.client (pidof sender) with
    | none =>
      obtain rfl : 1 = or := by simpa [State.mask, hc] using h
      -- a client is made either way
      have hone : (1 : Word) ≠ 0 := by decide
      simp only [setmask, hc, hone, and_false, if_false]
      exact setmaskOf_congr (by simp)
    | some c =>
      simp only [State.mask, hc, Option.map_some, Option.getD_some] at h
      simp only [setmask, hc]
      exact setmaskOf_congr h

theorem misread_iff {m : Word} : (m &&& or) ||| 1 = (m &&& and) ||| or ↔ (Call.setmask or and).Even m := by
  have hone : ∀ bit, (1 : Word).getLsbD bit = decide (bit = 0) := by
    intro bit
    rw [show (1 : Word) = BitVec.twoPow 32 0 by rfl, BitVec.getLsbD_twoPow]
    simp [eq_comm]
  constructor
  · intro h
    have hbit : ∀ bit, ((m.getLsbD bit && or.getLsbD bit) || decide (bit = 0)) =
        ((m.getLsbD bit && and.getLsbD bit) || or.getLsbD bit) := by
      intro bit
      rw [← hone, ← BitVec.getLsbD_and, ← BitVec.getLsbD_or, h, BitVec.getLsbD_or, BitVec.getLsbD_and]
    refine ⟨?_, fun bit _ hpos => ?_⟩
    · have := hbit 0
      revert this
      cases m.getLsbD 0 <;> cases or.getLsbD 0 <;> cases and.getLsbD 0 <;> decide
    · have := hbit bit
      rw [decide_eq_false (Nat.ne_of_gt hpos)] at this
      revert this
      cases m.getLsbD bit <;> cases or.getLsbD bit <;> cases and.getLsbD bit <;> decide
  · rintro ⟨hlow, hrest⟩
    refine BitVec.eq_of_getLsbD_eq fun bit hlt => ?_
    simp only [BitVec.getLsbD_or, BitVec.getLsbD_and, hone]
    rcases Nat.eq_zero_or_pos bit with rfl | hpos
    · revert hlow
      cases m.getLsbD 0 <;> cases or.getLsbD 0 <;> cases and.getLsbD 0 <;> decide
    · have := hrest bit hlt hpos
      rw [decide_eq_false (Nat.ne_of_gt hpos)]
      revert this
      cases m.getLsbD bit <;> cases or.getLsbD bit <;> cases and.getLsbD bit <;> decide

theorem labels_eq {labels : List Word} (hu : msg.u = 2 + labels.length)
    (h : ∀ i (h : i < labels.length), msg.mr (3 + i) = labels[i]) :
    (List.range (msg.u - 2)).map (fun i => msg.mr (3 + i)) = labels := by
  refine List.ext_getElem (by simp [hu]) fun i _ hi => ?_
  simp [h i hi]

theorem update_of_wire {call : Call} (h : call.Wire msg) : msg.update sender calloc = some (match call with
    | .setmask or _ => .setmask sender 1 or
    | .addFilter mask labels => .addFilter sender mask labels.1 calloc
    | .rmFilter mask labels => .rmFilter sender mask labels.1) := by
  cases call with
  | setmask or and =>
    obtain ⟨-, hop, hor, -⟩ := h
    simp [Msg.update, hop, hor]
  | addFilter mask labels =>
    obtain ⟨hu, hop, hmask, hlabels⟩ := h
    simp [Msg.update, hop, hmask, labels_eq hu hlabels]
  | rmFilter mask labels =>
    obtain ⟨hu, hop, hmask, hlabels⟩ := h
    simp [Msg.update, hop, hmask, labels_eq hu hlabels]

theorem reply_of_wire {call : Call} {m : Word} (h : call.Wire msg) : msg.reply m = match call with
    | .setmask .. => ⟨0, [m]⟩
    | .addFilter .. | .rmFilter .. => ⟨0, []⟩ := by
  cases call with
  | setmask => simp [Msg.reply, h.2.1]
  | addFilter => simp [Msg.reply, h.2.1]
  | rmFilter => simp [Msg.reply, h.2.1]

/-- A call from within a handler does what it does when it is dispatched, unless it is a `setmask`
    whose operands are not even. -/
theorem recursive_exact (salt : ℕ → Word) (s : State) (sender : Tid) (calloc : Bool) (call : Call) (msg : Msg)
    (h : call.Wire msg) : recursiveReply salt s sender (msg, calloc) = call.dispatch salt s sender calloc ↔
      call.Even (s.mask sender) := by
  rw [recursiveReply, recursiveSysmsgCall, update_of_wire h, reply_of_wire h, setmask_snd]
  cases call with
  | setmask or and =>
    rw [← misread_iff, ← setmask_misread, Call.dispatch, setmask_snd]
    simp only [exec, Option.map_some, Option.some.injEq, Prod.mk.injEq, and_true]
    refine ⟨fun heq => Prod.ext heq (by rw [setmask_snd, setmask_snd]), fun heq => by rw [heq]⟩
  | addFilter mask labels => exact iff_of_true rfl trivial
  | rmFilter mask labels => exact iff_of_true rfl trivial

/-- A client that listens to bit 0 alone asks for it again. -/
theorem recursive_exact_again : ∃ s sender msg, s.mask sender = 1 ∧
    recursiveReply (fun _ => 0) s sender (msg, true) =
      (Call.setmask 1 0xffffffff).dispatch (fun _ => 0) s sender true := by
  have hwire : (Call.setmask 1 0xffffffff).Wire ⟨3, fun i => [0, 1, 1, 0xffffffff].getD i 0⟩ :=
    ⟨rfl, rfl, rfl, rfl⟩
  refine ⟨(setmask .init ⟨5, 3⟩ 1 0xffffffff).1, ⟨5, 3⟩, _, by decide,
    (recursive_exact _ _ _ _ _ _ hwire).mpr ⟨by decide, by decide⟩⟩

/-- A client that listens to bit 2 asks for bit 1 too: it is left with bit 0. -/
theorem recursive_listen : ¬ ∀ (salt : ℕ → Word) (s : State) (sender : Tid) (calloc : Bool) (call : Call) (msg : Msg),
    call.Wire msg → recursiveReply salt s sender (msg, calloc) = call.dispatch salt s sender calloc := by
  intro h
  have heq := h (fun _ => 0) (setmask .init ⟨5, 3⟩ 4 0xffffffff).1 ⟨5, 3⟩ true (.setmask 2 0xffffffff)
    ⟨3, fun i => [0, 1, 2, 0xffffffff].getD i 0⟩ ⟨rfl, rfl, rfl, rfl⟩
  have hmask := congrArg (Option.map fun t : State × Reply => t.1.mask ⟨5, 3⟩) heq
  revert hmask
  decide

end Sneks.Sysmsg
