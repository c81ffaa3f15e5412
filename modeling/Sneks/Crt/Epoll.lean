import Mathlib.Data.List.Nodup
import Mathlib.Logic.Function.Basic
import Sneks.Lib.Run

/-!
# The event queue of `epoll`

`poll_notify_fn` of `user/crt/epoll.c`: a notification is put at the end of the one queue of the
process, and `epoll_wait` looks through it for what one instance is interested in. All interests are
edge-triggered, and there is no `SIGIO`. Who waits is left out.

`evbuf` is cut up into the events of each head. An event has a number, which is that of the
notification's entry in `log`.
-/

set_option linter.unusedSectionVars false

namespace Sneks.Crt
open Lib

def EVBUFSZ : ℕ := 512

structure Interest where
  events : BitVec 32
  data : BitVec 64
  spid : ℕ
  handle : BitVec 32

structure QueuedEvent where
  mask : BitVec 32
  handle : BitVec 32
  id : ℕ

structure EvqHead where
  pid : ℕ
  evs : List QueuedEvent

/-- `struct epoll_event`, with the number of the event it is about. -/
structure EpollEvent where
  events : BitVec 32
  data : BitVec 64
  id : ℕ

-- A pass over the queue

section
variable (fds : List Interest) (maxevents : ℕ)

def Interest.hit (cand : Interest) (pid : ℕ) (ev : QueuedEvent) : BitVec 32 :=
  if cand.spid ≠ pid ∨ cand.handle ≠ ev.handle then 0#32 else cand.events &&& ev.mask

def QueuedEvent.clear (ev : QueuedEvent) (hit : BitVec 32) : QueuedEvent := { ev with mask := ev.mask &&& ~~~hit }

def consumeEvent (pid : ℕ) : List Interest → QueuedEvent → List EpollEvent → QueuedEvent × List EpollEvent
  | [], ev, got => (ev, got)
  | cand :: cands, ev, got =>
    if maxevents ≤ got.length then (ev, got)
    else
      let hit := cand.hit pid ev
      if hit = 0#32 then consumeEvent pid cands ev got
      else consumeEvent pid cands (ev.clear hit) (got ++ [⟨hit, cand.data, ev.id⟩])

def consumeHead (pid : ℕ) : List QueuedEvent → List EpollEvent → List QueuedEvent × List EpollEvent × Bool
  | [], got => ([], got, true)
  | ev :: evs, got =>
    let r := if ev.mask = 0#32 then (ev, got) else consumeEvent maxevents pid fds ev got
    if r.2.length < maxevents then
      let rest := consumeHead pid evs r.2
      (r.1 :: rest.1, rest.2)
    else (r.1 :: evs, r.2, evs.isEmpty)

/-- From a head on. Where the pass comes to the end of the queue, `live_heads` is there too. It
counts the heads that have no events: `evq_next` compares a pointer, which is never `NULL`, where
the mask is meant. -/
def consumeHeads : List EvqHead → List EpollEvent → ℕ → List EvqHead × List EpollEvent × Option ℕ
  | [], got, live => ([], got, some live)
  | hd :: hds, got, live =>
    if hd.pid = 0 then
      let rest := consumeHeads hds got live
      (hd :: rest.1, rest.2)
    else if hd.evs.isEmpty then
      let rest := consumeHeads hds got (live + 1)
      (⟨0, []⟩ :: rest.1, rest.2)
    else if maxevents ≤ got.length then (hd :: hds, got, none)
    else
      let r := consumeHead fds maxevents hd.pid hd.evs got
      if r.2.2 then
        let rest := consumeHeads hds r.2.1 live
        (⟨hd.pid, r.1⟩ :: rest.1, rest.2)
      else (⟨hd.pid, r.1⟩ :: hds, r.2.1, none)

def epollConsume (q : List EvqHead) : List EvqHead × List EpollEvent :=
  if q.all fun hd => hd.pid = 0 then (q, [])
  else
    let r := consumeHeads fds maxevents q [] 0
    (if r.2.2 = some 0 then [] else r.1, r.2.1)

end

structure Epoll (ε : Type*) where
  heads : List EvqHead
  log : List (ℕ × QueuedEvent)
  reported : ε → List EpollEvent

inductive EpollStep (ε : Type*)
  /-- A server sends masks and handles. -/
  | notify (pid : ℕ) (evs : List (BitVec 32 × BitVec 32))
  /-- `epoll_wait` of an instance. -/
  | wait (ep : ε) (maxevents : ℕ)

namespace Epoll

variable {ε : Type*} [DecidableEq ε] (fds : ε → List Interest)

def init : Epoll ε where
  heads := []
  log := []
  reported _ := []

variable (s : Epoll ε)

def number (evs : List (BitVec 32 × BitVec 32)) : List QueuedEvent :=
  (evs.zipIdx s.log.length).map fun x => ⟨x.1.1, x.1.2, x.2⟩

def room (count : ℕ) : Bool := s.heads.length ≠ EVBUFSZ / 2 ∧ count ≤ EVBUFSZ - (s.heads.map (·.evs.length)).sum

def notify (pid : ℕ) (evs : List (BitVec 32 × BitVec 32)) : Epoll ε where
  heads := if s.room evs.length then s.heads ++ [⟨pid, s.number evs⟩] else s.heads
  log := s.log ++ (s.number evs).map fun ev => (pid, ev)
  reported := s.reported

def wait (ep : ε) (maxevents : ℕ) : Epoll ε :=
  let r := epollConsume (fds ep) maxevents s.heads
  { s with
    heads := r.1
    reported := Function.update s.reported ep (s.reported ep ++ r.2) }

def exec : EpollStep ε → Option (Epoll ε)
  | .notify pid evs => if pid = 0 then none else some (s.notify pid evs)
  | .wait ep maxevents => some (s.wait fds ep maxevents)

end Epoll

def cells (q : List EvqHead) : List (ℕ × QueuedEvent) := q.flatMap fun hd => hd.evs.map fun ev => (hd.pid, ev)

def Wants (fds : List Interest) (x : ℕ × QueuedEvent) (b : ℕ) : Prop :=
  ∃ i ∈ fds, i.spid = x.1 ∧ i.handle = x.2.handle ∧ i.events.getLsbD b = true

/-- What an instance is interested in of an event that was notified is in the queue, or it was
reported to it. -/
def Epoll.Kept {ε : Type*} (fds : ε → List Interest) (s : Epoll ε) : Prop :=
  ∀ ep, ∀ x ∈ s.log, ∀ b, Wants (fds ep) x b → x.2.mask.getLsbD b = true →
    (∃ r ∈ s.reported ep, r.id = x.2.id ∧ r.events.getLsbD b = true) ∨
      ∃ y ∈ cells s.heads, y.1 = x.1 ∧ y.2.id = x.2.id ∧ y.2.mask.getLsbD b = true

def hits (pid : ℕ) : List Interest → QueuedEvent → ℕ
  | [], _ => 0
  | cand :: cands, ev =>
    if cand.hit pid ev = 0#32 then hits pid cands ev else hits pid cands (ev.clear (cand.hit pid ev)) + 1

def allHits (fds : List Interest) (l : List (ℕ × QueuedEvent)) : ℕ := (l.map fun x => hits x.1 fds x.2).sum

namespace Epoll

variable {ε : Type*} (fds : ε → List Interest) (s : Epoll ε)

/-- The events of a notification fit. Of the events that `epoll_wait` of an instance looks at before
`maxevents` interests were hit, no other instance is interested in a bit that it is interested in.
Where the last event is one of them and no head is without events, all hits fit, and no other
instance is interested in a bit that is queued. -/
def Ample : EpollStep ε → Prop
  | .notify _ evs => s.room evs.length = true
  | .wait ep maxevents =>
    ∀ l x r, cells s.heads = l ++ x :: r → allHits (fds ep) l < maxevents →
      (∀ b, x.2.mask.getLsbD b = true → Wants (fds ep) x b → ∀ ep', ep' ≠ ep → ¬ Wants (fds ep') x b) ∧
        (r = [] → (∀ hd ∈ s.heads, hd.pid ≠ 0 → hd.evs ≠ []) →
          allHits (fds ep) (cells s.heads) ≤ maxevents ∧
            ∀ y ∈ cells s.heads, ∀ b, y.2.mask.getLsbD b = true → ∀ ep', ep' ≠ ep → ¬ Wants (fds ep') y b)

end Epoll

-- One event

section
variable {fds cands : List Interest} {cand : Interest} {maxevents pid b : ℕ} {ev : QueuedEvent} {got : List EpollEvent}

theorem Interest.hit_bit : (cand.hit pid ev).getLsbD b = true ↔
    (cand.spid = pid ∧ cand.handle = ev.handle ∧ cand.events.getLsbD b = true) ∧ ev.mask.getLsbD b = true := by
  unfold Interest.hit
  split
  · next hne =>
    rw [BitVec.getLsbD_zero]
    refine iff_of_false Bool.false_ne_true fun h => ?_
    exact hne.elim (fun hpid => hpid h.1.1) fun hhandle => hhandle h.1.2.1
  · next heq =>
    obtain ⟨hpid, hhandle⟩ := not_or.mp heq
    rw [BitVec.getLsbD_and, Bool.and_eq_true, and_iff_right (not_not.mp hpid), and_iff_right (not_not.mp hhandle)]

theorem Interest.not_hit (h : cand.hit pid ev = 0#32) (hb : ev.mask.getLsbD b = true) :
    ¬ (cand.spid = pid ∧ cand.handle = ev.handle ∧ cand.events.getLsbD b = true) := fun hcand => by
  have hbit := Interest.hit_bit.mpr ⟨hcand, hb⟩
  rw [h, BitVec.getLsbD_zero] at hbit
  exact Bool.false_ne_true hbit

theorem QueuedEvent.clear_bit {hit : BitVec 32} :
    (ev.clear hit).mask.getLsbD b = true ↔ ev.mask.getLsbD b = true ∧ hit.getLsbD b = false := by
  rw [QueuedEvent.clear, BitVec.getLsbD_and, BitVec.getLsbD_not]
  constructor
  · intro h
    simp only [Bool.and_eq_true, decide_eq_true_eq, Bool.not_eq_true'] at h
    exact ⟨h.1, h.2.2⟩
  · rintro ⟨hmask, hhit⟩
    have hlt : b < 32 := BitVec.lt_of_getLsbD hmask
    simp only [hmask, hhit, hlt, decide_true, Bool.not_false, Bool.and_self]

theorem wants_cons {x : ℕ × QueuedEvent} : Wants (cand :: cands) x b ↔
    (cand.spid = x.1 ∧ cand.handle = x.2.handle ∧ cand.events.getLsbD b = true) ∨ Wants cands x b := by
  rw [Wants, List.exists_mem_cons_iff]
  rfl

theorem not_wants_of_hits (h : hits pid cands ev = 0) (hb : ev.mask.getLsbD b = true) : ¬ Wants cands (pid, ev) b := by
  induction cands with
  | nil => rintro ⟨_, hmem, -⟩; cases hmem
  | cons cand cands ih =>
    rw [hits] at h
    split at h
    · next hhit =>
      rw [wants_cons]
      exact not_or.mpr ⟨Interest.not_hit hhit hb, ih h⟩
    · cases h

theorem consumeEvent_length (pid : ℕ) (cands : List Interest) (ev : QueuedEvent) (h : got.length ≤ maxevents) :
    (consumeEvent maxevents pid cands ev got).2.length = min maxevents (got.length + hits pid cands ev) := by
  induction cands generalizing ev got with
  | nil => exact (Nat.min_eq_right h).symm
  | cons cand cands ih =>
    rw [consumeEvent, hits]
    split
    · next hfull =>
      have heq := Nat.le_antisymm h hfull
      rw [heq]
      exact (Nat.min_eq_left (Nat.le_add_right _ _)).symm
    · next hroom =>
      dsimp only
      split
      · exact ih ev h
      · rw [ih _ (by rw [List.length_append, List.length_singleton]; omega), List.length_append, List.length_singleton]
        congr 1
        omega

theorem consumeEvent_bits (maxevents pid : ℕ) (cands : List Interest) (ev : QueuedEvent) (got : List EpollEvent) :
    let r := consumeEvent maxevents pid cands ev got
    r.1.id = ev.id ∧ r.1.handle = ev.handle ∧ (∀ x ∈ got, x ∈ r.2) ∧
      (∀ b, r.1.mask.getLsbD b = true → ev.mask.getLsbD b = true) ∧
      ∀ b, ev.mask.getLsbD b = true → r.1.mask.getLsbD b = true ∨
        Wants cands (pid, ev) b ∧ ∃ x ∈ r.2, x.id = ev.id ∧ x.events.getLsbD b = true := by
  induction cands generalizing ev got with
  | nil => exact ⟨rfl, rfl, fun _ h => h, fun _ h => h, fun _ h => .inl h⟩
  | cons cand cands ih =>
    dsimp only
    rw [consumeEvent]
    split
    · exact ⟨rfl, rfl, fun _ h => h, fun _ h => h, fun _ h => .inl h⟩
    · dsimp only
      split
      · obtain ⟨hid, hhandle, hgot, hmask, hbits⟩ := ih ev got
        refine ⟨hid, hhandle, hgot, hmask, fun b hb => (hbits b hb).imp_right fun ⟨hwants, hx⟩ => ?_⟩
        exact ⟨wants_cons.mpr (.inr hwants), hx⟩
      · obtain ⟨hid, hhandle, hgot, hmask, hbits⟩ := ih (ev.clear (cand.hit pid ev))
          (got ++ [⟨cand.hit pid ev, cand.data, ev.id⟩])
        refine ⟨hid, hhandle, fun x hx => hgot x (List.mem_append_left _ hx),
          fun b hb => (QueuedEvent.clear_bit.mp (hmask b hb)).1, fun b hb => ?_⟩
        cases hhit : (cand.hit pid ev).getLsbD b
        · exact (hbits b (QueuedEvent.clear_bit.mpr ⟨hb, hhit⟩)).imp_right fun ⟨hwants, hx⟩ =>
            ⟨wants_cons.mpr (.inr hwants), hx⟩
        · refine .inr ⟨wants_cons.mpr (.inl (Interest.hit_bit.mp hhit).1), ?_⟩
          exact ⟨_, hgot _ (List.mem_append_right _ List.mem_cons_self), rfl, hhit⟩

theorem consumeEvent_all (maxevents pid : ℕ) (cands : List Interest) (ev : QueuedEvent) (got : List EpollEvent) (b : ℕ)
    (h : got.length + hits pid cands ev ≤ maxevents)
    (hb : (consumeEvent maxevents pid cands ev got).1.mask.getLsbD b = true) : ¬ Wants cands (pid, ev) b := by
  induction cands generalizing ev got with
  | nil => exact not_wants_of_hits rfl hb
  | cons cand cands ih =>
    rw [consumeEvent] at hb
    split at hb
    · exact not_wants_of_hits (by omega) hb
    · rw [hits] at h
      dsimp only at hb
      rw [wants_cons]
      split at hb
      · next hhit =>
        rw [if_pos hhit] at h
        obtain ⟨-, -, -, hmask, -⟩ := consumeEvent_bits maxevents pid cands ev got
        exact not_or.mpr ⟨Interest.not_hit hhit (hmask b hb), ih ev _ h hb⟩
      · next hhit =>
        rw [if_neg hhit] at h
        obtain ⟨-, -, -, hmask, -⟩ := consumeEvent_bits maxevents pid cands
          (ev.clear (cand.hit pid ev)) (got ++ [⟨cand.hit pid ev, cand.data, ev.id⟩])
        obtain ⟨hold, hclear⟩ := QueuedEvent.clear_bit.mp (hmask b hb)
        have hrest := ih _ _ (by rw [List.length_append, List.length_singleton]; omega) hb
        refine not_or.mpr ⟨fun hcand => ?_, hrest⟩
        rw [Interest.hit_bit.mpr ⟨hcand, hold⟩] at hclear
        cases hclear

theorem consumeEvent_of_mask_eq_zero (h : ev.mask = 0#32) (cands : List Interest) :
    consumeEvent maxevents pid cands ev got = (ev, got) := by
  induction cands with
  | nil => rfl
  | cons cand cands ih =>
    have hhit : cand.hit pid ev = 0#32 := by
      unfold Interest.hit
      rw [h, BitVec.and_zero, ite_self]
    rw [consumeEvent, hhit, if_pos rfl, ih, ite_self]

end

-- The events of the queue in a row

def pass (fds : List Interest) (maxevents : ℕ) :
    List (ℕ × QueuedEvent) → List EpollEvent → List (ℕ × QueuedEvent) × List EpollEvent × Bool
  | [], got => ([], got, true)
  | x :: xs, got =>
    if maxevents ≤ got.length then (x :: xs, got, false)
    else
      let r := consumeEvent maxevents x.1 fds x.2 got
      let rest := pass fds maxevents xs r.2
      ((x.1, r.1) :: rest.1, rest.2)

section
variable {fds : List Interest} {maxevents pid : ℕ} {got : List EpollEvent} {xs : List (ℕ × QueuedEvent)}

theorem pass_full (h : maxevents ≤ got.length) : pass fds maxevents xs got = (xs, got, xs.isEmpty) := by
  cases xs with
  | nil => rfl
  | cons x xs => exact if_pos h

theorem pass_append (evs : List QueuedEvent) (h : got.length < maxevents) (hne : evs ≠ []) :
    let r := consumeHead fds maxevents pid evs got
    let rest := pass fds maxevents xs r.2.1
    pass fds maxevents (evs.map (fun ev => (pid, ev)) ++ xs) got =
      if r.2.2 then (r.1.map (fun ev => (pid, ev)) ++ rest.1, rest.2)
      else (r.1.map (fun ev => (pid, ev)) ++ xs, r.2.1, false) := by
  induction evs generalizing got with
  | nil => exact absurd rfl hne
  | cons ev evs ih =>
    have hr : (if ev.mask = 0#32 then (ev, got) else consumeEvent maxevents pid fds ev got) =
        consumeEvent maxevents pid fds ev got := by
      split
      · next hmask => exact (consumeEvent_of_mask_eq_zero hmask fds).symm
      · rfl
    dsimp only
    rw [List.map_cons, List.cons_append, pass, if_neg (Nat.not_le.mpr h), consumeHead, hr]
    dsimp only
    generalize consumeEvent maxevents pid fds ev got = r
    split
    · next hroom =>
      cases evs with
      | nil => simp [consumeHead]
      | cons ev' evs =>
        rw [ih hroom (List.cons_ne_nil _ _)]
        split <;> rfl
    · next hfull =>
      rw [pass_full (Nat.not_lt.mp hfull), pass_full (Nat.not_lt.mp hfull)]
      cases evs <;> simp

def emptyHeads (q : List EvqHead) : ℕ := q.countP fun hd => hd.pid ≠ 0 ∧ hd.evs = []

theorem cells_cons (hd : EvqHead) (hds : List EvqHead) :
    cells (hd :: hds) = hd.evs.map (fun ev => (hd.pid, ev)) ++ cells hds := List.flatMap_cons

theorem consumeHeads_eq (fds : List Interest) (maxevents : ℕ) {q : List EvqHead}
    (hdead : ∀ hd ∈ q, hd.pid = 0 → hd.evs = []) (got : List EpollEvent) (live : ℕ) :
    let r := consumeHeads fds maxevents q got live
    let p := pass fds maxevents (cells q) got
    cells r.1 = p.1 ∧ r.2.1 = p.2.1 ∧ (∀ n, r.2.2 = some n → p.2.2 = true ∧ n = live + emptyHeads q) ∧
      ∀ hd ∈ r.1, hd.pid = 0 → hd.evs = [] := by
  induction q generalizing got live with
  | nil =>
    refine ⟨rfl, rfl, fun n hn => ⟨rfl, (Option.some.inj hn).symm⟩, hdead⟩
  | cons hd hds ih =>
    have hdead' := fun hd hmem => hdead hd (List.mem_cons_of_mem _ hmem)
    have hcount : emptyHeads (hd :: hds) = emptyHeads hds + if hd.pid ≠ 0 ∧ hd.evs = [] then 1 else 0 := by
      rw [emptyHeads, List.countP_cons]
      simp [emptyHeads]
    dsimp only
    rw [consumeHeads, cells_cons]
    split
    · next hpid =>
      have hevs := hdead hd List.mem_cons_self hpid
      rw [if_neg fun h => h.1 hpid] at hcount
      obtain ⟨hcells, hgot, hlive, hnew⟩ := ih hdead' got live
      rw [hevs, List.map_nil, List.nil_append, hcount]
      refine ⟨?_, hgot, hlive, List.forall_mem_cons.mpr ⟨fun _ => hevs, hnew⟩⟩
      rw [cells_cons, hevs, List.map_nil, List.nil_append]
      exact hcells
    · next hpid =>
      split
      · next hempty =>
        have hevs := List.isEmpty_iff.mp hempty
        rw [if_pos ⟨hpid, hevs⟩] at hcount
        obtain ⟨hcells, hgot, hlive, hnew⟩ := ih hdead' got (live + 1)
        rw [hevs, List.map_nil, List.nil_append, hcount]
        refine ⟨hcells, hgot, fun n hn => ?_, List.forall_mem_cons.mpr ⟨fun _ => rfl, hnew⟩⟩
        obtain ⟨hend, hn⟩ := hlive n hn
        exact ⟨hend, by omega⟩
      · next hempty =>
        have hevs : hd.evs ≠ [] := fun hnil => hempty (List.isEmpty_iff.mpr hnil)
        rw [if_neg fun h => hevs h.2] at hcount
        split
        · next hfull =>
          rw [pass_full hfull]
          exact ⟨cells_cons hd hds, rfl, fun n hn => (nomatch hn), hdead⟩
        · next hroom =>
          rw [pass_append hd.evs (Nat.not_le.mp hroom) hevs]
          dsimp only
          generalize consumeHead fds maxevents hd.pid hd.evs got = r
          split
          · obtain ⟨hcells, hgot, hlive, hnew⟩ := ih hdead' r.2.1 live
            rw [hcount]
            refine ⟨?_, hgot, hlive, List.forall_mem_cons.mpr ⟨fun h => absurd h hpid, hnew⟩⟩
            rw [cells_cons, hcells]
          · exact ⟨cells_cons _ _, rfl, fun n hn => (nomatch hn),
              List.forall_mem_cons.mpr ⟨fun h => absurd h hpid, hdead'⟩⟩

theorem pass_spec (fds : List Interest) (maxevents : ℕ) (xs : List (ℕ × QueuedEvent)) (got : List EpollEvent) :
    let p := pass fds maxevents xs got
    p.1.map (fun y => (y.1, y.2.id, y.2.handle)) = xs.map (fun y => (y.1, y.2.id, y.2.handle)) ∧
      (∀ x ∈ got, x ∈ p.2.1) ∧
      (∀ l x, p.2.2 = true → xs = l ++ [x] → got.length + allHits fds l < maxevents) ∧
      ∀ l x r, xs = l ++ x :: r → ∃ y ∈ p.1, y.1 = x.1 ∧ y.2.id = x.2.id ∧ ∀ b, x.2.mask.getLsbD b = true →
        (y.2.mask.getLsbD b = true ∧ (p.2.2 = true → got.length + allHits fds xs ≤ maxevents → ¬ Wants fds x b)) ∨
          Wants fds x b ∧ (∃ e ∈ p.2.1, e.id = x.2.id ∧ e.events.getLsbD b = true) ∧
            got.length + allHits fds l < maxevents := by
  induction xs generalizing got with
  | nil =>
    refine ⟨rfl, fun _ h => h, fun l x _ hl => ?_, fun l x r hl => ?_⟩
    · exact absurd hl.symm (by simp)
    · exact absurd hl.symm (by simp)
  | cons x xs ih =>
    dsimp only
    rw [pass]
    split
    · refine ⟨rfl, fun _ h => h, fun _ _ hend => (nomatch hend), fun l y r hl => ?_⟩
      exact ⟨y, by rw [hl]; simp, rfl, rfl, fun b hb => .inl ⟨hb, fun hend => nomatch hend⟩⟩
    · next hroom =>
      have hlen := consumeEvent_length x.1 fds x.2 (Nat.le_of_not_le hroom)
      have hall : ∀ l, allHits fds (x :: l) = hits x.1 fds x.2 + allHits fds l := fun l => by
        rw [allHits, allHits, List.map_cons, List.sum_cons]
      have hvisit := consumeEvent_all maxevents x.1 fds x.2 got
      obtain ⟨hid, hhandle, hgot, -, hbits⟩ := consumeEvent_bits maxevents x.1 fds x.2 got
      generalize consumeEvent maxevents x.1 fds x.2 got = r at hlen hvisit hid hhandle hgot hbits ⊢
      obtain ⟨hmap, hgot', hend, hspec⟩ := ih r.2
      refine ⟨?_, fun e he => hgot' e (hgot e he), fun l y hy hl => ?_, fun l y tail hl => ?_⟩
      · rw [List.map_cons, List.map_cons, hmap, hid, hhandle]
      · cases l with
        | nil =>
          simp only [allHits, List.map_nil, List.sum_nil]
          omega
        | cons z l =>
          obtain ⟨rfl, htail⟩ := List.cons.inj hl
          have hlt := hend l y hy htail
          rw [hall]
          omega
      · cases l with
        | nil =>
          obtain ⟨rfl, rfl⟩ := List.cons.inj hl
          refine ⟨(x.1, r.1), List.mem_cons_self, rfl, hid, fun b hb => ?_⟩
          obtain hmask | ⟨hwants, e, he, hbit⟩ := hbits b hb
          · refine .inl ⟨hmask, fun _ hfit => hvisit b ?_ hmask⟩
            rw [hall] at hfit
            omega
          · refine .inr ⟨hwants, ⟨e, hgot' e he, hbit⟩, ?_⟩
            simp only [allHits, List.map_nil, List.sum_nil]
            omega
        | cons z l =>
          obtain ⟨rfl, htail⟩ := List.cons.inj hl
          obtain ⟨y', hy', hpid, hid', hb'⟩ := hspec l y tail htail
          refine ⟨y', List.mem_cons_of_mem _ hy', hpid, hid', fun b hb => ?_⟩
          rw [hall, hall]
          refine (hb' b hb).imp (fun ⟨hmask, hfit⟩ => ⟨hmask, fun hend' hle => hfit hend' ?_⟩) fun ⟨hwants, he, hlt⟩ =>
            ⟨hwants, he, ?_⟩
          · omega
          · omega

theorem epollConsume_eq (fds : List Interest) (maxevents : ℕ) {q : List EvqHead} (hdead : ∀ hd ∈ q, hd.pid = 0 → hd.evs = []) :
    let r := epollConsume fds maxevents q
    let p := pass fds maxevents (cells q) []
    r.2 = p.2.1 ∧ (∀ hd ∈ r.1, hd.pid = 0 → hd.evs = []) ∧
      (cells r.1 = p.1 ∨ r.1 = [] ∧ p.2.2 = true ∧ ∀ hd ∈ q, hd.pid ≠ 0 → hd.evs ≠ []) := by
  dsimp only
  unfold epollConsume
  split
  · next hnone =>
    have hcells : cells q = [] := by
      refine List.flatMap_eq_nil_iff.mpr fun hd hmem => ?_
      rw [hdead hd hmem (by simpa using List.all_eq_true.mp hnone hd hmem), List.map_nil]
    rw [hcells]
    exact ⟨rfl, hdead, .inl rfl⟩
  · obtain ⟨hcells, hgot, hlive, hnew⟩ := consumeHeads_eq fds maxevents hdead [] 0
    refine ⟨hgot, ?_⟩
    dsimp only
    split
    · next hreset =>
      obtain ⟨hend, hzero⟩ := hlive 0 hreset
      refine ⟨fun _ hmem => (nomatch hmem), .inr ⟨rfl, hend, fun hd hmem hpid hevs => ?_⟩⟩
      have hcount : emptyHeads q = 0 := by omega
      exact List.countP_eq_zero.mp hcount hd hmem (decide_eq_true ⟨hpid, hevs⟩)
    · exact ⟨hnew, .inl hcells⟩

end

namespace Epoll

variable {ε : Type*} [DecidableEq ε] {fds : ε → List Interest} {s s' : Epoll ε}

structure Inv (fds : ε → List Interest) (s : Epoll ε) : Prop where
  kept : s.Kept fds
  logged : ∀ y ∈ cells s.heads, ∃ x ∈ s.log, x.1 = y.1 ∧ x.2.id = y.2.id ∧ x.2.handle = y.2.handle
  ids : s.log.map (fun x => x.2.id) = List.range s.log.length
  dead : ∀ hd ∈ s.heads, hd.pid = 0 → hd.evs = []

namespace Inv

theorem eq_of_id (h : s.Inv fds) {x y : ℕ × QueuedEvent} (hx : x ∈ s.log) (hy : y ∈ s.log) (hid : x.2.id = y.2.id) :
    x = y := by
  have hnodup : (s.log.map fun x => x.2.id).Nodup := h.ids ▸ List.nodup_range
  exact List.inj_on_of_nodup_map hnodup hx hy hid

theorem wants_iff (h : s.Inv fds) {x y : ℕ × QueuedEvent} (hx : x ∈ s.log) (hy : y ∈ cells s.heads)
    (hid : y.2.id = x.2.id) (l : List Interest) (b : ℕ) : Wants l x b ↔ Wants l y b := by
  obtain ⟨z, hz, hpid, hid', hhandle⟩ := h.logged y hy
  obtain rfl := h.eq_of_id hx hz (hid.symm.trans hid'.symm)
  rw [Wants, Wants, hpid, hhandle]

theorem notify (h : s.Inv fds) {pid : ℕ} {evs : List (BitVec 32 × BitVec 32)} (hpid : pid ≠ 0)
    (hroom : s.room evs.length = true) : (s.notify pid evs).Inv fds := by
  have hheads : (s.notify pid evs).heads = s.heads ++ [⟨pid, s.number evs⟩] := if_pos hroom
  have hcells : cells (s.notify pid evs).heads = cells s.heads ++ (s.number evs).map fun ev => (pid, ev) := by
    rw [hheads, cells, List.flatMap_append]
    exact congrArg (cells s.heads ++ ·) (List.append_nil _)
  refine ⟨fun ep x hx b hwants hb => ?_, fun y hy => ?_, ?_, fun hd hhd => ?_⟩
  · rw [hcells]
    obtain hx | hx := List.mem_append.mp hx
    · exact (h.kept ep x hx b hwants hb).imp_right fun ⟨y, hy, hsame⟩ => ⟨y, List.mem_append_left _ hy, hsame⟩
    · exact .inr ⟨x, List.mem_append_right _ hx, rfl, rfl, hb⟩
  · rw [hcells] at hy
    obtain hy | hy := List.mem_append.mp hy
    · obtain ⟨x, hx, hsame⟩ := h.logged y hy
      exact ⟨x, List.mem_append_left _ hx, hsame⟩
    · exact ⟨y, List.mem_append_right _ hy, rfl, rfl, rfl⟩
  · show (s.log ++ (s.number evs).map fun ev => (pid, ev)).map (fun x => x.2.id) = _
    have hnew : ((s.number evs).map fun ev => (pid, ev)).map (fun x => x.2.id) = List.range' s.log.length evs.length := by
      rw [number, List.map_map, List.map_map, ← List.zipIdx_map_snd s.log.length evs]
      rfl
    have hlen : (s.notify pid evs).log.length = s.log.length + evs.length := by
      rw [Epoll.notify, List.length_append, List.length_map, number, List.length_map, List.length_zipIdx]
    rw [List.map_append, h.ids, hnew, hlen, List.range_eq_range', List.range_eq_range']
    have happend := List.range'_append_1 (s := 0) (m := s.log.length) (n := evs.length)
    rwa [Nat.zero_add] at happend
  · rw [hheads] at hhd
    obtain hhd | hhd := List.mem_append.mp hhd
    · exact h.dead hd hhd
    · obtain rfl := List.mem_singleton.mp hhd
      exact fun hzero => absurd hzero hpid

theorem wait (h : s.Inv fds) {ep : ε} {maxevents : ℕ} (hok : s.Ample fds (.wait ep maxevents)) :
    (s.wait fds ep maxevents).Inv fds := by
  obtain ⟨hgot, hdead, hqueue⟩ := epollConsume_eq (fds ep) maxevents h.dead
  obtain ⟨hmap, -, hlast, hspec⟩ := pass_spec (fds ep) maxevents (cells s.heads) []
  simp only [List.length_nil, Nat.zero_add] at hlast hspec
  have hreported (ep' : ε) (e : EpollEvent) (he : e ∈ s.reported ep') : e ∈ (s.wait fds ep maxevents).reported ep' := by
    show e ∈ Function.update s.reported ep _ ep'
    rw [Function.update_apply]
    split
    · next heq => exact List.mem_append_left _ (heq ▸ he)
    · exact he
  have hnew (e : EpollEvent) (he : e ∈ (pass (fds ep) maxevents (cells s.heads) []).2.1) :
      e ∈ (s.wait fds ep maxevents).reported ep := by
    show e ∈ Function.update s.reported ep _ ep
    rw [Function.update_self, hgot]
    exact List.mem_append_right _ he
  refine ⟨fun ep' x hx b hwants hb => ?_, fun y hy => ?_, h.ids, hdead⟩
  · obtain ⟨e, he, hsame⟩ | ⟨y, hy, hpid, hid, hmask⟩ := h.kept ep' x hx b hwants hb
    · exact .inl ⟨e, hreported ep' e he, hsame⟩
    · obtain ⟨l, r, hl⟩ := List.append_of_mem hy
      obtain ⟨y', hy', hpid', hid', hbits⟩ := hspec l y r hl
      have hwants' := (h.wants_iff hx hy hid (fds ep') b).mp hwants
      obtain ⟨hkeep, hall⟩ | ⟨hwants'', ⟨e, he, hid'', hbit⟩, hlooked⟩ := hbits b hmask
      · obtain hcells | ⟨hreset, hend, hfull⟩ := hqueue
        · refine .inr ⟨y', ?_, hpid'.trans hpid, hid'.trans hid, hkeep⟩
          show y' ∈ cells (epollConsume (fds ep) maxevents s.heads).1
          rw [hcells]
          exact hy'
        · -- the queue is reset after its last event
          have hne : cells s.heads ≠ [] := List.ne_nil_of_mem hy
          have hsplit := (List.dropLast_concat_getLast hne).symm
          obtain ⟨hfit, hothers⟩ := (hok _ _ [] hsplit (hlast _ _ hend hsplit)).2 rfl hfull
          by_cases hep : ep' = ep
          · exact absurd (hep ▸ hwants') (hall hend hfit)
          · exact absurd hwants' (hothers y hy b hmask ep' hep)
      · by_cases hep : ep' = ep
        · subst hep
          exact .inl ⟨e, hnew e he, hid''.trans hid, hbit⟩
        · exact absurd hwants' ((hok l y r hl hlooked).1 b hmask hwants'' ep' hep)
  · obtain hcells | ⟨hreset, -, -⟩ := hqueue
    · have hy' : (y.1, y.2.id, y.2.handle) ∈ (cells s.heads).map fun y => (y.1, y.2.id, y.2.handle) := by
        rw [← hmap, ← hcells]
        exact List.mem_map_of_mem hy
      obtain ⟨z, hz, hsame⟩ := List.mem_map.mp hy'
      obtain ⟨x, hx, hpid, hid, hhandle⟩ := h.logged z hz
      obtain ⟨hpid', hid', hhandle'⟩ : z.1 = y.1 ∧ z.2.id = y.2.id ∧ z.2.handle = y.2.handle := by
        simpa using hsame
      exact ⟨x, hx, hpid.trans hpid', hid.trans hid', hhandle.trans hhandle'⟩
    · replace hy : y ∈ cells (epollConsume (fds ep) maxevents s.heads).1 := hy
      rw [hreset] at hy
      cases hy

theorem exec {step : EpollStep ε} (h : s.Inv fds) (hok : s.Ample fds step) (hs : s.exec fds step = some s') :
    s'.Inv fds := by
  cases step with
  | notify pid evs =>
    replace hs : (if pid = 0 then none else some (s.notify pid evs)) = some s' := hs
    split at hs
    · cases hs
    · next hpid =>
      cases hs
      exact h.notify hpid hok
  | wait ep maxevents =>
    cases hs
    exact h.wait hok

end Inv

theorem inv_init : (init : Epoll ε).Inv fds where
  kept _ _ hx := nomatch hx
  logged _ hy := nomatch hy
  ids := rfl
  dead _ hhd := nomatch hhd

/-- **Edge events**: in a run in which every step is ample, what an instance is interested in of an
event that was notified stays in the queue until it has been reported to it. -/
theorem events_kept {steps : List (EpollStep ε)} (hrun : Run (exec fds) (Ample fds) init steps s) : s.Kept fds :=
  (hrun.invariant (I := Inv fds) (fun _ _ _ hok hs h => h.exec hok hs) inv_init).kept

def twoInstances (ep : Bool) : List Interest := [⟨1#32, 0#64, 50001, bif ep then 2#32 else 1#32⟩]

theorem events_kept_reported : ∃ s : Epoll Bool, (s.reported false).length = 1 ∧ s.Kept twoInstances := by
  have hwants : ∀ b, ¬ Wants (twoInstances true) (50001, ⟨1#32, 1#32, 0⟩) b := by
    rintro b ⟨i, hi, -, hhandle, -⟩
    obtain rfl := List.mem_singleton.mp hi
    exact absurd hhandle (by decide)
  obtain ⟨s, hs, hrun⟩ : ∃ s : Epoll Bool, (s.reported false).length = 1 ∧ Run (exec twoInstances) (Ample twoInstances)
      init [.notify 50001 [(1#32, 1#32)], .wait false 8] s := by
    refine ⟨_, ?_, .cons rfl rfl (.cons (fun l x r hl _ => ?_) rfl (.nil _))⟩
    · rfl
    · replace hl : [(50001, ⟨1#32, 1#32, 0⟩)] = l ++ x :: r := hl
      obtain ⟨rfl, hx⟩ | ⟨l, rfl, hx⟩ := List.cons_eq_append_iff.mp hl
      · cases hx
        refine ⟨fun b _ _ ep hep => ?_, fun _ _ => ⟨by decide, fun y hy b _ ep hep => ?_⟩⟩
        · obtain rfl : ep = true := by simpa using hep
          exact hwants b
        · obtain rfl : ep = true := by simpa using hep
          obtain rfl := List.mem_singleton.mp hy
          exact hwants b
      · exact absurd hx (by simp)
  exact ⟨s, hs, events_kept hrun⟩

/-- A notification has an event for each instance. The first one to wait takes its own, comes to the
end of the queue, and the queue is reset. -/
theorem reset_drops : ∃ s : Epoll Bool,
    Run (exec twoInstances) free init [.notify 50001 [(1#32, 1#32), (1#32, 2#32)], .wait false 8] s ∧
      s.reported true = [] ∧ s.heads = [] ∧ ¬ s.Kept twoInstances := by
  refine ⟨_, .cons trivial rfl (.cons trivial rfl (.nil _)), rfl, rfl, fun h => ?_⟩
  have hevent := h true (50001, ⟨1#32, 2#32, 1⟩) (by exact List.mem_cons_of_mem _ List.mem_cons_self) 0
    ⟨_, List.mem_singleton_self _, rfl, rfl, rfl⟩ rfl
  obtain ⟨e, he, -⟩ | ⟨y, hy, -⟩ := hevent
  · cases he
  · cases hy

end Epoll

end Sneks.Crt
