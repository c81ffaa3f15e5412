import Sneks.Crt.EpollCtl

/-!
# The level-triggered interests of an `epoll` instance

An addition that the server refuses, and a modification that takes `EPOLLET` away or gives it, leave
`n_level` as it is. `levs_hit` has a place for each level-triggered interest, and is given one for
each report. A server that is asked at a `SIGIO` and has no event to tell of leaves a head of none in
the queue.
-/

namespace Sneks.Crt.EpollCtl
open Lib

-- What is to hold

/-- `n_level` counts the level-triggered interests. -/
def Instance.Counted (i : Instance) : Prop := i.nLevel = i.fds.countP (·.level)

/-- No head of the queue is without events, and `evbuf` has room for them all. -/
structure Filled (q : List Head) : Prop where
  pos : ∀ hd ∈ q, hd.evs ≠ []
  room : nEvs q ≤ EVBUFSZ

structure Booked (s : State) : Prop where
  counted : ∀ ep i, s.epolls ep = some i → i.Counted
  filled : Filled s.heads

def hitters (pid : ℕ) (handle : BitVec 32) : List Interest → BitVec 32 → List Interest
  | [], _ => []
  | cand :: cands, mask =>
    if cand.spid ≠ pid ∨ cand.handle ≠ handle ∨ cand.events &&& mask = 0#32 then hitters pid handle cands mask
    else cand :: hitters pid handle cands (mask &&& ~~~(cand.events &&& mask))

def cells (q : List Head) : List (ℕ × Event) :=
  q.flatMap fun hd => if hd.pid = 0 then [] else hd.evs.map (hd.pid, ·)

def hits (fds : List Interest) (evs : List (ℕ × Event)) : List Interest :=
  evs.flatMap fun c => hitters c.1 c.2.handle fds c.2.mask

def LevelFits (fds : List Interest) (maxevents : ℕ) (q : List Head) : Prop :=
  ((hits fds (cells q)).take maxevents).countP (·.level) ≤ fds.countP (·.level)

instance (fds : List Interest) (maxevents : ℕ) (q : List Head) : Decidable (LevelFits fds maxevents q) :=
  inferInstanceAs (Decidable (_ ≤ _))

def Eventful (statuses : List (Option (List (BitVec 32)))) : Prop :=
  ∀ answer ∈ statuses, ∀ st ∈ answer, ∃ w ∈ st, w ≠ 0#32 ∧ w ≠ ~~~0#32

instance (statuses : List (Option (List (BitVec 32)))) : Decidable (Eventful statuses) :=
  inferInstanceAs (Decidable (∀ answer ∈ statuses, ∀ st ∈ answer, ∃ w ∈ st, w ≠ 0#32 ∧ w ≠ ~~~0#32))

namespace State

variable (s : State)

/-- How `epoll_consume` is called within `epoll_wait`: how many events are wanted, and the queue. -/
def consumeCall (i : Instance) (maxevents : ℕ) (a : WaitAnswers) : Option (ℕ × List Head) :=
  if i.lastSync < s.syncCount then
    match epollResync i maxevents a.files ⟨s.heads, s.syncCount, a.statuses⟩ with
    | .ok (p, got) => if got.length < maxevents then some (maxevents - got.length, p.heads) else none
    | .error _ => none
  else some (maxevents, s.heads)

/-- No notification is empty. The server does not refuse a level-triggered interest, and what is
    modified stays level-triggered, or edge-triggered. In `epoll_wait`, each server that is asked has an
    event to tell of, and the reports to level-triggered interests fit. -/
def tidy : Step → Prop
  | .create _ | .close _ | .sigio => True
  | .notify _ evs => evs ≠ []
  | .ctl ep op fd file event a => ∀ i ∈ s.epolls ep, ∀ f ∈ file,
    if op = EPOLL_CTL_ADD then
      ∀ new ∈ (addable i fd f.1 f.2 event a).toOption, new.level → f.1 ∉ s.known → 0 ≤ a.refresh
    else if op = EPOLL_CTL_MOD then
      ∀ old ∈ find i fd f.1 f.2, ∀ ev ∈ event, isLevel (ev.events ||| EPOLLHUP) = old.level
    else True
  | .wait ep maxevents a => ∀ i ∈ s.epolls ep, 0 < maxevents →
    (i.lastSync < s.syncCount → Eventful a.statuses) ∧
      ∀ c ∈ s.consumeCall i (maxevents.toNat % 65536) a, LevelFits i.fds c.1 c.2

instance : (step : Step) → Decidable (s.tidy step)
  | .create _ | .close _ | .sigio => inferInstanceAs (Decidable True)
  | .notify _ evs => inferInstanceAs (Decidable (evs ≠ []))
  | .ctl ep op fd file event a => inferInstanceAs (Decidable (∀ i ∈ s.epolls ep, ∀ f ∈ file,
    if op = EPOLL_CTL_ADD then
      ∀ new ∈ (addable i fd f.1 f.2 event a).toOption, new.level → f.1 ∉ s.known → 0 ≤ a.refresh
    else if op = EPOLL_CTL_MOD then
      ∀ old ∈ find i fd f.1 f.2, ∀ ev ∈ event, isLevel (ev.events ||| EPOLLHUP) = old.level
    else True))
  | .wait ep maxevents a => inferInstanceAs (Decidable (∀ i ∈ s.epolls ep, 0 < maxevents →
    (i.lastSync < s.syncCount → Eventful a.statuses) ∧
      ∀ c ∈ s.consumeCall i (maxevents.toNat % 65536) a, LevelFits i.fds c.1 c.2))

end State

-- Calls that stop only elsewhere

def Sound {α : Type} (P : α → Prop) : Except Stop α → Prop
  | .ok a => P a
  | .error e => e = .stopped

namespace Sound

variable {α β : Type} {P : α → Prop} {R : β → Prop} {r : Except Stop α} {f : α → Except Stop β}

theorem bind (h : Sound P r) (hf : ∀ a, P a → Sound R (f a)) : Sound R (r >>= f) := by
  cases r with
  | error e => exact h
  | ok a => exact hf a h

theorem map {g : α → β} (h : Sound (fun a => R (g a)) r) : Sound R (r.map g) := by
  cases r with
  | error e => exact h
  | ok a => exact h

theorem eq (h : Sound P r) : Sound (fun a => P a ∧ r = .ok a) r := by
  cases r with
  | error e => exact h
  | ok a => exact ⟨h, rfl⟩

end Sound

-- The queue

namespace Filled

variable {q q' : List Head}

theorem nil : Filled [] where
  pos _ h := absurd h List.not_mem_nil
  room := Nat.zero_le _

theorem tail {hd : Head} (h : Filled (hd :: q)) : Filled q where
  pos hd' hmem := h.pos hd' (List.mem_cons_of_mem _ hmem)
  room := by
    have hroom := h.room
    simp only [nEvs, List.map_cons, List.sum_cons] at hroom ⊢
    omega

theorem congr (h : Filled q) (hlen : q'.map (·.evs.length) = q.map (·.evs.length)) : Filled q' where
  pos hd hmem hnil := by
    have hzero : 0 ∈ q.map (·.evs.length) := by
      rw [← hlen]
      exact List.mem_map.mpr ⟨hd, hmem, by rw [hnil, List.length_nil]⟩
    obtain ⟨hd', hmem', hlen'⟩ := List.mem_map.mp hzero
    exact h.pos hd' hmem' (List.length_eq_zero_iff.mp hlen')
  room := by
    rw [nEvs, hlen]
    exact h.room

theorem snoc {pid : ℕ} {evs : List Event} (h : Filled q) (hne : evs ≠ []) (hroom : evs.length ≤ EVBUFSZ - nEvs q) :
    Filled (q ++ [⟨pid, evs⟩]) where
  pos hd hmem := by
    rcases List.mem_append.mp hmem with hq | hnew
    · exact h.pos hd hq
    · rw [List.mem_singleton.mp hnew]
      exact hne
  room := by
    have hq := h.room
    simp only [nEvs, List.map_append, List.sum_append, List.map_cons, List.map_nil, List.sum_cons, List.sum_nil] at *
    omega

end Filled

section Pass

variable {σ : Type} {visit : ℕ → Event → σ → Except Stop (Event × σ)} (go : σ → Bool)
  (I : List (ℕ × Event) → σ → Prop)

theorem visitHead_ok (hvisit : ∀ pid ev evs st, I ((pid, ev) :: evs) st → ∃ r, visit pid ev st = .ok r ∧ I evs r.2)
    (pid : ℕ) (evs : List Event) (rest : List (ℕ × Event)) (st : σ) (hst : I (evs.map (pid, ·) ++ rest) st) :
    ∃ r, visitHead visit go pid evs st = .ok r ∧ r.1.length = evs.length ∧ (r.2.2 = true → I rest r.2.1) := by
  induction evs generalizing st with
  | nil => exact ⟨_, rfl, rfl, fun _ => hst⟩
  | cons ev evs ih =>
    obtain ⟨r, hr, hst'⟩ := hvisit pid ev _ st hst
    simp only [visitHead, hr, bind, Except.bind, pure, Except.pure]
    split
    · obtain ⟨r', hr', hlen, hdone⟩ := ih r.2 hst'
      rw [hr']
      exact ⟨_, rfl, by simpa using hlen, hdone⟩
    · refine ⟨_, rfl, rfl, fun hnil => ?_⟩
      rw [List.isEmpty_iff.mp hnil] at hst'
      exact hst'

theorem visitHeads_ok (hvisit : ∀ pid ev evs st, I ((pid, ev) :: evs) st → ∃ r, visit pid ev st = .ok r ∧ I evs r.2)
    (q : List Head) (hq : Filled q) (st : σ) (live : ℕ) (hst : I (cells q) st) :
    ∃ r, visitHeads visit go q st live = .ok r ∧ r.1.map (·.evs.length) = q.map (·.evs.length) := by
  induction q generalizing st live with
  | nil => exact ⟨_, rfl, rfl⟩
  | cons hd hds ih =>
    have hne : hd.evs.isEmpty = false := by simpa using hq.pos hd List.mem_cons_self
    have hcells : cells (hd :: hds) = (if hd.pid = 0 then [] else hd.evs.map (hd.pid, ·)) ++ cells hds := List.flatMap_cons
    simp only [visitHeads, hne, Bool.false_eq_true, if_false]
    split
    · next hdead =>
      rw [hcells, if_pos hdead] at hst
      obtain ⟨r, hr, hlen⟩ := ih hq.tail st live hst
      simp only [hr, bind, Except.bind, pure, Except.pure]
      exact ⟨_, rfl, by simpa using hlen⟩
    · next hlive =>
      rw [hcells, if_neg hlive] at hst
      split
      · obtain ⟨r, hr, hlen, hdone⟩ := visitHead_ok go I hvisit hd.pid hd.evs _ st hst
        simp only [hr, bind, Except.bind, pure, Except.pure]
        split
        · next hend =>
          obtain ⟨r', hr', hlen'⟩ := ih hq.tail r.2.1 live (hdone hend)
          rw [hr']
          exact ⟨_, rfl, by simp [hlen, hlen']⟩
        · exact ⟨_, rfl, by simp [hlen]⟩
      · exact ⟨_, rfl, rfl⟩

theorem evqFirst_ok (q : List Head) (hq : Filled q) : ∃ found, evqFirst q = .ok found := by
  induction q with
  | nil => exact ⟨_, rfl⟩
  | cons hd hds ih =>
    have hne : hd.evs.isEmpty = false := by simpa using hq.pos hd List.mem_cons_self
    simp only [evqFirst, hne, Bool.false_eq_true, if_false]
    split
    · exact ⟨_, rfl⟩
    · exact ih hq.tail

/-- **Pass rule**: where each visit keeps `I` of the events still to come, the pass goes through. -/
theorem pass_ok (hvisit : ∀ pid ev evs st, I ((pid, ev) :: evs) st → ∃ r, visit pid ev st = .ok r ∧ I evs r.2)
    {q : List Head} (hq : Filled q) {st : σ} (hst : I (cells q) st) :
    ∃ r, pass visit go q st = .ok r ∧ Filled r.1 := by
  obtain ⟨found, hfound⟩ := evqFirst_ok q hq
  obtain ⟨r, hr, hlen⟩ := visitHeads_ok go I hvisit q hq st 0 hst
  simp only [pass, hfound, hr, bind, Except.bind, pure, Except.pure]
  split
  · refine ⟨_, rfl, ?_⟩
    dsimp only
    split
    · exact .nil
    · exact hq.congr hlen
  · exact ⟨_, rfl, hq⟩

end Pass

-- What the loops keep

/-- There is room in `levs_hit` for those that are still to be reported. -/
def Fits (nLevel maxevents : ℕ) (rest : List Interest) (st : Consumed) : Prop :=
  st.levs.length + (rest.take (maxevents - st.got.length)).countP (·.level) ≤ nLevel

section
variable {nLevel m : ℕ}

theorem Fits.of_full {rest rest' : List Interest} {st : Consumed} (h : Fits nLevel m rest st) (hfull : m ≤ st.got.length) :
    Fits nLevel m rest' st := by
  rw [Fits, Nat.sub_eq_zero_of_le hfull] at *
  exact h

theorem Fits.report {cand : Interest} {rest : List Interest} {st : Consumed} (h : Fits nLevel m (cand :: rest) st)
    (hfull : ¬ m ≤ st.got.length) (ev : EpollEvent) :
    (cand.level = true → st.levs.length < nLevel ∧ Fits nLevel m rest ⟨st.got ++ [ev], st.levs ++ [cand]⟩) ∧
      (cand.level = false → Fits nLevel m rest ⟨st.got ++ [ev], st.levs⟩) := by
  obtain ⟨k, hk⟩ : ∃ k, m - st.got.length = k + 1 := ⟨m - st.got.length - 1, by omega⟩
  have hk' : m - (st.got.length + 1) = k := by omega
  simp only [Fits, hk, List.take_succ_cons, List.countP_cons, List.length_append, List.length_singleton, hk'] at *
  constructor
  · intro hlevel
    rw [if_pos hlevel] at h
    omega
  · intro hlevel
    rw [hlevel] at h
    simpa using h

theorem consumeEvent_ok (pid : ℕ) (cands rest : List Interest) (ev : Event) (st : Consumed)
    (h : Fits nLevel m (hitters pid ev.handle cands ev.mask ++ rest) st) :
    ∃ r, consumeEvent nLevel m pid cands ev st = .ok r ∧ Fits nLevel m rest r.2 := by
  induction cands generalizing ev st with
  | nil => exact ⟨_, rfl, h⟩
  | cons cand cands ih =>
    simp only [consumeEvent]
    split
    · next hfull => exact ⟨_, rfl, h.of_full hfull⟩
    · next hfull =>
      simp only [hitters] at h
      split
      · next hother =>
        rw [if_pos (hother.elim .inl fun hhandle => .inr (.inl hhandle))] at h
        exact ih ev st h
      · next hsame =>
        split
        · next hhit =>
          rw [if_pos (.inr (.inr hhit))] at h
          exact ih ev st h
        · next hhit =>
          rw [if_neg (by tauto), List.cons_append] at h
          obtain ⟨hlevs, hedge⟩ := h.report hfull ⟨cand.events &&& ev.mask, cand.data⟩
          split
          · next hlevel =>
            obtain ⟨hlt, hfits⟩ := hlevs hlevel
            rw [if_pos hlt]
            exact ih _ _ hfits
          · next hlevel => exact ih _ _ (hedge (by simpa using hlevel))

theorem hitters_zero (pid : ℕ) (handle : BitVec 32) (cands : List Interest) : hitters pid handle cands 0#32 = [] := by
  induction cands with
  | nil => rfl
  | cons cand cands ih => simp [hitters, ih]

theorem visitConsume_ok (ep : Instance) (pid : ℕ) (ev : Event) (evs : List (ℕ × Event)) (st : Consumed)
    (h : Fits ep.nLevel m (hits ep.fds ((pid, ev) :: evs)) st) :
    ∃ r, visitConsume ep m pid ev st = .ok r ∧ Fits ep.nLevel m (hits ep.fds evs) r.2 := by
  have hcons : hits ep.fds ((pid, ev) :: evs) = hitters pid ev.handle ep.fds ev.mask ++ hits ep.fds evs := List.flatMap_cons
  rw [hcons] at h
  unfold visitConsume
  split
  · next hmask =>
    rw [hmask, hitters_zero, List.nil_append] at h
    exact ⟨_, rfl, h⟩
  · exact consumeEvent_ok pid ep.fds _ ev st h

end

theorem pollLevels_sound (files : ℕ → Option ℕ) (m : ℕ) (ls : List Interest) (levels : List (Option (List (BitVec 32))))
    (got : List EpollEvent) : Sound (fun _ => True) (pollLevels files m ls levels got) := by
  fun_induction pollLevels files m ls levels got with
  | case1 => trivial
  | case2 => trivial
  | case3 _ _ _ _ _ _ _ _ _ _ ih => exact ih
  | case4 => rfl

theorem epollConsume_sound {ep : Instance} (hep : ep.Counted) {m : ℕ} {q : List Head} (hq : Filled q)
    (hfits : LevelFits ep.fds m q) (files : ℕ → Option ℕ) (levels : List (Option (List (BitVec 32)))) :
    Sound (fun r => Filled r.1) (epollConsume ep m files levels q) := by
  have hstart : Fits ep.nLevel m (hits ep.fds (cells q)) ⟨[], []⟩ := by
    rw [Fits, hep, List.length_nil, List.length_nil, Nat.zero_add, Nat.sub_zero]
    exact hfits
  obtain ⟨r, hr, hr'⟩ := pass_ok (fun st : Consumed => decide (st.got.length < m))
    (fun evs st => Fits ep.nLevel m (hits ep.fds evs) st) (fun pid ev evs st => visitConsume_ok ep pid ev evs st) hq hstart
  simp only [epollConsume, hr]
  change Sound _ (if _ then _ else _)
  split
  · split
    · rfl
    · exact (pollLevels_sound _ _ _ _ _).bind fun _ _ => hr'
  · exact hr'

namespace Polling

variable {p : Polling}

structure Sane (p : Polling) : Prop where
  filled : Filled p.heads
  eventful : Eventful p.statuses

theorem pollHandles_sound (hp : p.Sane) (spid : ℕ) (handles : List (BitVec 32)) : Sound Sane (p.pollHandles spid handles) := by
  unfold pollHandles
  split
  · exact ⟨hp.filled, hp.eventful⟩
  · next hroom =>
    split
    · rfl
    · split
      · rfl
      · next hst => exact ⟨hp.filled, fun answer hmem => hp.eventful answer (hst ▸ List.mem_cons_of_mem _ hmem)⟩
      · next st statuses hst =>
        have hrest : Eventful statuses := fun answer hmem => hp.eventful answer (hst ▸ List.mem_cons_of_mem _ hmem)
        split
        · rfl
        · next hlen =>
          refine ⟨hp.filled.snoc ?_ (by simp [List.length_take]), hrest⟩
          obtain ⟨w, hw, hevent⟩ := hp.eventful (some st) (hst ▸ List.mem_cons_self) st rfl
          rw [← List.map_fst_zip (not_lt.mp hlen)] at hw
          obtain ⟨x, hx, rfl⟩ := List.mem_map.mp hw
          have hmem : x ∈ (st.zip handles).filter fun x => x.1 ≠ 0#32 ∧ x.1 ≠ ~~~0#32 :=
            List.mem_filter.mpr ⟨hx, by simpa using hevent⟩
          have hlt : nEvs p.heads ≠ EVBUFSZ := fun heq => hroom (.inr heq)
          have hle := hp.filled.room
          have hpos := List.length_pos_of_mem hmem
          rw [Ne, ← List.length_eq_zero_iff, List.length_map, List.length_take]
          omega

theorem flush_sound (hp : p.Sane) (bufpid : ℤ) (hbuf : List (BitVec 32)) : Sound Sane (p.flush bufpid hbuf) := by
  unfold flush
  split
  · exact hp
  · split
    · rfl
    · exact pollHandles_sound hp _ _

theorem pollFds_sound (files : ℕ → Option ℕ) (fds : List Interest) (bufpid : ℤ) (hbuf : List (BitVec 32))
    (hp : p.Sane) : Sound Sane (pollFds files fds bufpid hbuf p) := by
  induction fds generalizing bufpid hbuf p with
  | nil =>
    simp only [pollFds]
    split
    · exact hp
    · exact pollHandles_sound hp _ _
  | cons i fds ih =>
    simp only [pollFds]
    split
    · exact ih _ _ hp
    · split
      · exact ih _ _ hp
      · split
        · refine (flush_sound hp bufpid hbuf).bind fun p' hp' => ?_
          split
          · rfl
          · exact ih _ _ hp'
        · exact ih _ _ hp

end Polling

theorem visitResync_ok (m pid : ℕ) (ev : Event) (st : Resync) : ∃ r, visitResync m pid ev st = .ok r := by
  unfold visitResync
  split
  · exact ⟨_, rfl⟩
  · split
    · exact ⟨_, rfl⟩
    · split
      · exact ⟨_, rfl⟩
      · dsimp only
        split
        · exact ⟨_, rfl⟩
        · split <;> exact ⟨_, rfl⟩

theorem epollResync_sound (ep : Instance) (m : ℕ) (files : ℕ → Option ℕ) {p : Polling} (hp : p.Sane) :
    Sound (fun r => r.1.Sane) (epollResync ep m files p) := by
  obtain ⟨r, hr, hr'⟩ := pass_ok (fun _ => true) (fun _ (_ : Resync) => True)
    (fun pid ev _ st _ => (visitResync_ok m pid ev st).imp fun _ h => ⟨h, trivial⟩) hp.filled trivial
  have hsane : Polling.Sane { p with heads := r.1 } := ⟨hr', hp.eventful⟩
  unfold epollResync
  rw [hr]
  exact (Polling.pollFds_sound files r.2.fds (-1) [] hsane).bind fun _ h => h

-- What a step keeps

namespace Instance

variable {i : Instance}

theorem Counted.add (h : i.Counted) {new : Interest} {table : List Interest} (htable : table.Perm (new :: i.fds))
    (lastSync : ℕ) : Counted ⟨table, lastSync, if new.level then i.nLevel + 1 else i.nLevel⟩ := by
  simp only [Counted] at *
  rw [htable.countP_eq, List.countP_cons, h]
  split <;> rfl

theorem Counted.remove (h : i.Counted) {old : Interest} (hmem : old ∈ i.fds) (lastSync : ℕ) :
    Counted ⟨i.fds.erase old, lastSync, if old.level then i.nLevel - 1 else i.nLevel⟩ := by
  simp only [Counted] at *
  rw [(List.perm_cons_erase hmem).countP_eq, List.countP_cons] at h
  rw [h]
  split <;> rfl

end Instance

theorem countP_replace (p : Interest → Bool) (fds : List Interest) {old new : Interest} (h : p new = p old) :
    (fds.replace old new).countP p = fds.countP p := by
  induction fds with
  | nil => rfl
  | cons i fds ih =>
    rw [List.replace_cons]
    split
    · next heq => rw [List.countP_cons, List.countP_cons, h, eq_of_beq heq]
    · rw [List.countP_cons, List.countP_cons, ih]

namespace Booked

variable {s : State} (h : Booked s)
include h

theorem setEpoll (ep : ℕ) {i : Instance} (hi : i.Counted) : Booked (s.setEpoll ep i) where
  counted ep' i' hi' := by
    by_cases heq : ep' = ep
    · subst heq
      simp only [State.setEpoll, Function.update_self, Option.some.injEq] at hi'
      exact hi' ▸ hi
    · simp only [State.setEpoll, Function.update_of_ne heq] at hi'
      exact h.counted ep' i' hi'
  filled := h.filled

theorem meet (known : List ℕ) : Booked { s with known := known } := ⟨h.counted, h.filled⟩

theorem requeue {q : List Head} (hq : Filled q) (syncCount : ℕ) :
    Booked { s with heads := q, syncCount := syncCount } := ⟨h.counted, hq⟩

theorem notify (pid : ℕ) {evs : List Event} (hne : evs ≠ []) : Booked (s.notify pid evs) := by
  unfold State.notify
  split
  · next hroom =>
    have hle : s.heads.length ≠ EVBUFSZ / 2 ∧ evs.length ≤ EVBUFSZ - nEvs s.heads := by simpa [State.room] using hroom
    exact ⟨h.counted, h.filled.snoc hne hle.2⟩
  · exact h

end Booked

namespace State

variable {s : State}

theorem ctlAdd_sound (h : Booked s) {ep : ℕ} {i : Instance} (hi : i.Counted) (fd spid : ℕ) (handle : BitVec 32)
    (event : Option EpollEvent) (a : CtlAnswers)
    (htidy : ∀ new, addable i fd spid handle event a = .ok new → new.level → spid ∉ s.known → 0 ≤ a.refresh) :
    Sound (fun r => Booked r.1) (s.ctlAdd ep i fd spid handle event a) := by
  unfold ctlAdd
  split
  · exact h
  · next new hnew =>
    split
    · rfl
    · next htable =>
      have hperm := not_not.mp htable
      have hadd := h.setEpoll ep (hi.add hperm i.lastSync)
      dsimp only
      split
      · exact hadd
      · next hask =>
        split
        · next hfail =>
          -- the server fails: the interest is one of an edge, and was not counted
          have hedge : ¬ new.level = true := fun hlevel =>
            absurd (htidy new hnew hlevel fun hknown => hask ⟨hlevel, hknown⟩) (not_le.mpr hfail)
          have hback : Instance.Counted ⟨a.table.erase new, i.lastSync, if new.level then i.nLevel + 1 else i.nLevel⟩ := by
            have herase : (a.table.erase new).Perm i.fds := by simpa using hperm.erase new
            rw [Instance.Counted, if_neg hedge, herase.countP_eq]
            exact hi
          exact (hadd.meet _).setEpoll ep hback
        · split
          · exact hadd.meet _
          · split
            · exact (hadd.meet _).notify spid (List.cons_ne_nil _ _)
            · rfl

theorem ctlDel_sound (h : Booked s) {ep : ℕ} {i : Instance} (hi : i.Counted) (fd spid : ℕ) (handle : BitVec 32)
    (a : CtlAnswers) : Sound (fun r => Booked r.1) (s.ctlDel ep i fd spid handle a) := by
  unfold ctlDel
  split
  · exact h
  · next old hold =>
    split
    · rfl
    · exact h.setEpoll ep (hi.remove (List.mem_of_find?_eq_some hold) i.lastSync)

theorem ctlMod_sound (h : Booked s) {ep : ℕ} {i : Instance} (hi : i.Counted) (fd spid : ℕ) (handle : BitVec 32)
    (event : Option EpollEvent) (a : CtlAnswers)
    (htidy : ∀ old ∈ find i fd spid handle, ∀ ev ∈ event, isLevel (ev.events ||| EPOLLHUP) = old.level) :
    Sound (fun r => Booked r.1) (s.ctlMod ep i fd spid handle event a) := by
  unfold ctlMod
  split
  · exact h
  · rfl
  · next _ _ old ev hold =>
    refine h.setEpoll ep ?_
    rw [Instance.Counted, countP_replace _ _ (htidy old hold ev rfl)]
    exact hi

theorem ctl_sound (h : Booked s) (ep op fd : ℕ) (file : Option (ℕ × BitVec 32)) (event : Option EpollEvent)
    (a : CtlAnswers) (htidy : s.tidy (.ctl ep op fd file event a)) :
    Sound (fun r => Booked r.1) (s.ctl ep op fd file event a) := by
  unfold ctl
  split
  · next i spid handle hi =>
    have hcounted := h.counted ep i hi
    have hop := htidy i hi _ rfl
    split
    · next hadd =>
      rw [if_pos hadd] at hop
      exact ctlAdd_sound h hcounted fd spid handle event a fun new hnew => hop new (by rw [hnew]; rfl)
    · next hadd =>
      rw [if_neg hadd] at hop
      split
      · exact ctlDel_sound h hcounted fd spid handle a
      · split
        · next hmod =>
          rw [if_pos hmod] at hop
          exact ctlMod_sound h hcounted fd spid handle event a hop
        · exact h
  · exact h

theorem wait_sound (h : Booked s) (ep : ℕ) (maxevents : ℤ) (a : WaitAnswers) (htidy : s.tidy (.wait ep maxevents a)) :
    Sound (fun r => Booked r.1) (s.wait ep maxevents a) := by
  unfold wait
  split
  · exact h
  · next i hi =>
    have hcounted := h.counted ep i hi
    split
    · exact h
    · next hpos =>
      obtain ⟨heventful, hcall⟩ := htidy i hi (not_le.mp hpos)
      dsimp only
      split
      · next hsync =>
        rw [consumeCall, if_pos hsync] at hcall
        have hset : Booked (s.setEpoll ep { i with lastSync := s.syncCount }) := h.setEpoll ep hcounted
        have hsane : Polling.Sane ⟨s.heads, s.syncCount, a.statuses⟩ := ⟨h.filled, heventful hsync⟩
        split
        · rfl
        · refine (epollResync_sound i (maxevents.toNat % 65536) a.files hsane).eq.bind fun ⟨p, got⟩ ⟨hp, hr⟩ => ?_
          rw [hr] at hcall
          dsimp only at hcall
          split
          · next hlt =>
            rw [if_pos hlt] at hcall
            refine (epollConsume_sound hcounted hp.filled (hcall _ rfl) a.files a.levels).bind fun r hfilled => ?_
            exact hset.requeue hfilled p.syncCount
          · exact hset.requeue hp.filled p.syncCount
      · next hsync =>
        rw [consumeCall, if_neg hsync] at hcall
        refine (epollConsume_sound hcounted h.filled (hcall _ rfl) a.files a.levels).bind fun r hfilled => ?_
        exact h.requeue hfilled s.syncCount

/-- **Step lemma**: a tidy step keeps the count and the queue, and neither assertion fails. -/
theorem take_sound (h : Booked s) (step : Step) (htidy : s.tidy step) : Sound Booked (s.take step) := by
  cases step with
  | create ep =>
    change Sound Booked (if _ then _ else _)
    split
    · rfl
    · exact h.setEpoll ep rfl
  | close ep =>
    refine ⟨fun ep' i hi => ?_, h.filled⟩
    by_cases heq : ep' = ep
    · subst heq
      simp at hi
    · exact h.counted ep' i (by simpa [Function.update_of_ne heq] using hi)
  | sigio => exact ⟨h.counted, h.filled⟩
  | notify pid evs => exact h.notify pid htidy
  | ctl ep op fd file event a => exact (ctl_sound h ep op fd file event a htidy).map
  | wait ep maxevents a => exact (wait_sound h ep maxevents a htidy).map

theorem stop_stopped {step : Step} (h : Sound Booked (s.take step)) : ∀ e ∈ s.stop step, e = .stopped := by
  unfold stop
  cases ht : s.take step with
  | error e =>
    rw [ht] at h
    rintro _ ⟨⟩
    exact h
  | ok t => exact fun _ he => nomatch he

theorem init_booked : Booked init where
  counted _ _ hi := by cases hi
  filled := .nil

theorem exec_booked (step : Step) (t : State) (htidy : s.tidy step) (he : s.exec step = some t) (h : Booked s) :
    Booked t := by
  have hsound := take_sound h step htidy
  unfold exec at he
  cases ht : s.take step with
  | error e =>
    rw [ht] at he
    cases he
  | ok t' =>
    rw [ht] at he hsound
    cases he
    exact hsound

/-- **Run lemma**: in runs of tidy steps the count is right and every head has events, and there is
    always room in `levs_hit`. -/
theorem booked_of_tidy {steps : List Step} (h : Run exec tidy init steps s) :
    Booked s ∧ ∀ step, s.tidy step → s.stop step ≠ some .levsHit ∧ s.stop step ≠ some .headCount := by
  have hs : Booked s := h.invariant (fun _ step t => exec_booked step t) init_booked
  refine ⟨hs, fun step htidy => ?_⟩
  have hstop := stop_stopped (take_sound hs step htidy)
  exact ⟨fun he => absurd (hstop _ he) (by decide), fun he => absurd (hstop _ he) (by decide)⟩

def readable : Interest := ⟨EPOLLEXCLUSIVE ||| EPOLLHUP ||| 1#32, 0#64, 7, 5, 3#32⟩
def readableEdge : Interest := { readable with events := EPOLLET ||| readable.events }

/-- `epoll_ctl` adds an interest, and the server answers. -/
def adding (i : Interest) (refresh : ℤ) : Step :=
  .ctl 1 EPOLL_CTL_ADD i.fd (some (i.spid, i.handle)) (some ⟨i.events, i.data⟩) ⟨true, true, [i], refresh, true⟩

def waiting (maxevents : ℤ) (statuses : List (Option (List (BitVec 32)))) : Step :=
  .wait 1 maxevents ⟨true, fun fd => if fd = 5 then some 7 else none, statuses, []⟩

theorem booked_of_tidy_wait : ∃ s, Booked s ∧ s.stop (waiting 2 []) ≠ some .levsHit := by
  obtain ⟨s, hrun, hs⟩ := Run.exists_of_evalRun exec tidy init
    [.create 1, adding readable 0, .notify 7 [⟨1#32, 3#32⟩], waiting 1 [], .notify 7 [⟨1#32, 3#32⟩]]
    (fun s => decide (s.tidy (waiting 2 []))) true (by decide +kernel)
  obtain ⟨hbooked, hstop⟩ := booked_of_tidy hrun
  exact ⟨s, hbooked, (hstop _ (of_decide_eq_true hs)).1⟩

/-- An interest that was not added is counted. One interest has two events, and there is no place for
    the second in `levs_hit`. A server has no event to tell of, and a head is without events. -/
theorem not_booked :
    (∃ s, Run exec free init [.create 1, adding readable (-1)] s ∧ ¬ Booked s) ∧
    (∃ s, Run exec free init [.create 1, adding readable 0, .notify 7 [⟨1#32, 3#32⟩], .notify 7 [⟨1#32, 3#32⟩]] s ∧
      s.stop (waiting 2 []) = some .levsHit) ∧
    (∃ s, Run exec free init [.create 1, adding readableEdge 0, .sigio] s ∧
      s.stop (waiting 1 [some [0#32]]) = some .headCount) := by
  refine ⟨?_, Run.exists_of_evalRun _ _ _ _ _ _ (by decide +kernel), Run.exists_of_evalRun _ _ _ _ _ _ (by decide +kernel)⟩
  obtain ⟨s, hrun, hs⟩ := Run.exists_of_evalRun exec free init [.create 1, adding readable (-1)]
    (fun s => (s.epolls 1).map fun i => (i.nLevel, i.fds)) (some (1, [])) (by decide +kernel)
  refine ⟨s, hrun, fun hbooked => ?_⟩
  obtain ⟨i, hi, hcount⟩ := Option.map_eq_some_iff.mp hs
  obtain ⟨hlevel, hfds⟩ := Prod.mk.inj hcount
  have hcounted := hbooked.counted 1 i hi
  rw [Instance.Counted, hlevel, hfds] at hcounted
  exact absurd hcounted (by decide)

end State

end Sneks.Crt.EpollCtl
