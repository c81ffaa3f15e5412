import Sneks.Rollback.Defs
import Mathlib.Data.List.Nodup

/-!
# The confirm protocol

Over every sequence of calls, replies, stimuli and failed receives, the confirm function
that a call sets is run once if the reply was not a failure and the server goes on, before
anything the next call does; and it is not run if the reply failed.
-/

namespace Sneks.Rollback
open Lib

variable {σ α β ρ κ ο : Type*}

def Entry.confirms : Entry ρ κ ο → Option ℕ
  | .confirmed k _ => some k
  | _ => none

structure ConfirmProtocol (log : List (Entry ρ κ ο)) : Prop where
  /-- A function that is run was set, by the call in question. -/
  origin : ∀ k f, .confirmed k f ∈ log → .setConfirm k f ∈ log
  /-- It is run at most once. -/
  once : (log.filterMap Entry.confirms).Nodup
  /-- It is never run if the reply failed. -/
  failed : ∀ k out f, .replied k false out ∈ log → .confirmed k f ∉ log
  /-- It has been run when a later call or stimulus is handled, unless the reply failed. -/
  before : ∀ before j, before ++ [.handled j] <+: log → ∀ k f, .setConfirm k f ∈ before →
    (∀ out, .replied k false out ∉ before) → .confirmed k f ∈ before

def Entry.serial : Entry ρ κ ο → ℕ
  | .handled k | .setRollback k _ | .setConfirm k _ | .replied k _ _ | .confirmed k _
  | .rolledBack k _ => k

/-- Nothing has been heard of the confirm function `f` of call `k` after it was set. -/
structure Pending (log : List (Entry ρ κ ο)) (k : ℕ) (f : κ) : Prop where
  set : .setConfirm k f ∈ log
  unconfirmed : ∀ g, .confirmed k g ∉ log
  unfailed : ∀ out, .replied k false out ∉ log

structure Protocol (x : Session σ ρ κ ο) : Prop where
  protocol : ConfirmProtocol x.log
  bounded : ∀ e ∈ x.log, e.serial < x.serial
  setterR : x.ctx.r.isSome → x.setterR < x.serial
  pending : ∀ f, x.ctx.c = some f → Pending x.log x.setterC f
  settled : ∀ k f, .setConfirm k f ∈ x.log → (∀ out, .replied k false out ∉ x.log) →
    .confirmed k f ∈ x.log ∨ x.ctx.c = some f ∧ x.setterC = k
  current : ∀ cur, x.current = some cur → (∀ f, .confirmed cur.serial f ∉ x.log) ∧
    cur.serial < x.serial ∧
    (x.ctx.c.isSome → x.setterC = cur.serial ∧ x.ctx.Matches cur.sender cur.tag)

variable {S : Server σ α β ρ κ ο} {x y : Session σ ρ κ ο} {log : List (Entry ρ κ ο)}
  {e : Entry ρ κ ο} {k : ℕ} {f : κ}

theorem mem_confirms : k ∈ log.filterMap Entry.confirms ↔ ∃ f, .confirmed k f ∈ log := by
  rw [List.mem_filterMap]
  constructor
  · rintro ⟨e, he, hk⟩
    cases e with
    | confirmed j f =>
      obtain rfl : j = k := Option.some.inj hk
      exact ⟨f, he⟩
    | handled | setRollback | setConfirm | replied | rolledBack => cases hk
  · rintro ⟨f, hf⟩
    exact ⟨_, hf, rfl⟩

theorem ConfirmProtocol.snoc (h : ConfirmProtocol log)
    (hconfirmed : ∀ k f, e = .confirmed k f → Pending log k f)
    (hreplied : ∀ k out, e = .replied k false out → ∀ f, .confirmed k f ∉ log)
    (hhandled : ∀ j, e = .handled j → ∀ k f, .setConfirm k f ∈ log →
      (∀ out, .replied k false out ∉ log) → .confirmed k f ∈ log) :
    ConfirmProtocol (log ++ [e]) where
  origin k f hm := by
    rcases List.mem_append.mp hm with hm | hm
    · exact List.mem_append_left _ (h.origin k f hm)
    · exact List.mem_append_left _ (hconfirmed k f (List.mem_singleton.mp hm).symm).set
  once := by
    rw [List.filterMap_append, List.nodup_append]
    refine ⟨h.once, ?_, ?_⟩
    · rw [List.filterMap_cons, List.filterMap_nil]
      split
      · exact List.nodup_nil
      · exact List.nodup_singleton _
    · rintro a ha b hb rfl
      obtain ⟨f, hf⟩ := mem_confirms.mp ha
      obtain ⟨g, hg⟩ := mem_confirms.mp hb
      exact (hconfirmed a g (List.mem_singleton.mp hg).symm).unconfirmed f hf
  failed k out f hr hc := by
    rcases List.mem_append.mp hr with hr | hr <;> rcases List.mem_append.mp hc with hc | hc
    · exact h.failed k out f hr hc
    · exact (hconfirmed k f (List.mem_singleton.mp hc).symm).unfailed out hr
    · exact hreplied k out (List.mem_singleton.mp hr).symm f hc
    · cases (List.mem_singleton.mp hr).trans (List.mem_singleton.mp hc).symm
  before before j hpre k f := by
    rcases List.prefix_concat_iff.mp hpre with heq | hpre
    · obtain ⟨rfl, he⟩ := List.append_inj' heq rfl
      exact hhandled j (List.singleton_inj.mp he).symm k f
    · exact h.before before j hpre k f

theorem ConfirmProtocol.append (h : ConfirmProtocol log) {es : List (Entry ρ κ ο)}
    (hes : ∀ e ∈ es, (∃ k f, e = .setRollback k f) ∨ (∃ k f, e = .setConfirm k f) ∨
      (∃ k f, e = .rolledBack k f)) : ConfirmProtocol (log ++ es) := by
  induction es generalizing log with
  | nil => simpa using h
  | cons e es ih =>
    have hsnoc : ConfirmProtocol (log ++ [e]) := by
      rcases hes e List.mem_cons_self with ⟨k, f, rfl⟩ | ⟨k, f, rfl⟩ | ⟨k, f, rfl⟩ <;>
        exact h.snoc nofun nofun nofun
    have happ := ih hsnoc fun e' he' => hes e' (List.mem_cons_of_mem _ he')
    rwa [List.append_assoc, List.singleton_append] at happ

theorem Protocol.syncConfirm (h : Protocol x) (hcur : x.current = none)
    (hs : x.syncConfirm S = some y) : Protocol y ∧ y.ctx.c = none ∧ y.current = none := by
  simp only [Session.syncConfirm] at hs
  split at hs
  · next hc =>
    cases hs
    exact ⟨h, hc, hcur⟩
  next f hc =>
  obtain ⟨srv, -, rfl⟩ := Option.map_eq_some_iff.mp hs
  have hp := h.pending f hc
  refine ⟨⟨?_, ?_, h.setterR, nofun, ?_, ?_⟩, rfl, hcur⟩
  · refine h.protocol.snoc ?_ nofun nofun
    rintro _ _ ⟨⟩
    exact hp
  · intro e he
    rcases List.mem_append.mp he with he | he
    · exact h.bounded e he
    · rw [List.mem_singleton.mp he]
      exact h.bounded (.setConfirm x.setterC f) hp.set
  · intro k g hset hok
    have hset' : .setConfirm k g ∈ x.log := by simpa using hset
    rcases h.settled k g hset' (fun out hr => hok out (List.mem_append_left _ hr)) with hm | ⟨hc', hk⟩
    · exact .inl (List.mem_append_left _ hm)
    · obtain rfl : f = g := Option.some.inj (hc.symm.trans hc')
      exact .inl (List.mem_append_right _ (by simp [hk]))
  · intro cur hcur'
    rw [hcur] at hcur'
    cases hcur'

section Enter

variable {sender : Tid} {tag : ℕ} {srv : σ} {e : Effects ρ κ} {out : Option ο}

theorem enter_c (hc : x.ctx.c = none) : (x.enter sender tag srv e out).ctx.c = e.confirm := by
  obtain ⟨rb, cf⟩ := e
  cases rb <;> cases cf <;> simp [Session.enter, Ctx.setRollback, Ctx.setConfirm, hc]

theorem enter_r : (x.enter sender tag srv e out).ctx.r = if e.rollback.isSome then e.rollback else x.ctx.r := by
  obtain ⟨rb, cf⟩ := e
  cases rb <;> cases cf <;> simp [Session.enter, Ctx.setRollback, Ctx.setConfirm]

theorem enter_setterC (hf : e.confirm = some f) : (x.enter sender tag srv e out).setterC = x.serial := by
  simp [Session.enter, hf]

theorem enter_matches (hf : e.confirm = some f) :
    (x.enter sender tag srv e out).ctx.Matches sender tag := by
  simp [Session.enter, Ctx.setConfirm, Ctx.Matches, hf]

end Enter

theorem syncConfirm_c (hs : x.syncConfirm S = some y) : y.ctx.c = none := by
  rw [Session.syncConfirm] at hs
  split at hs
  · next hc =>
    cases hs
    exact hc
  · obtain ⟨srv, -, rfl⟩ := Option.map_eq_some_iff.mp hs
    rfl

section Serve

variable {sender : Tid} {tag : ℕ} {a : α} {srv : σ} {e : Effects ρ κ} {out : ο}

theorem serve_some (hy : x.syncConfirm S = some y) (h : S.handler y.srv sender a = some (srv, e, some out)) :
    ∃ z, x.serve S sender tag a = some (out, z) ∧ z.srv = srv ∧ z.ctx.c = e.confirm := by
  let w := y.enter sender tag srv e (some out)
  have hw : w.ctx.c = e.confirm := enter_c (syncConfirm_c hy)
  refine ⟨{ w with current := none, log := w.log ++ [.replied y.serial true out] }, ?_, rfl, hw⟩
  rw [Session.serve, Session.call, hy, Option.bind_some, h]
  rfl

theorem serve_none (hy : x.syncConfirm S = some y) (h : S.handler y.srv sender a = none) :
    x.serve S sender tag a = none := by
  rw [Session.serve, Session.call, hy, Option.bind_some, h]
  rfl

end Serve

theorem Protocol.enter (h : Protocol x) (hc : x.ctx.c = none) (sender : Tid) (tag : ℕ) (srv : σ)
    (e : Effects ρ κ) (out : Option ο) : Protocol (x.enter sender tag srv e out) := by
  have hnew : ∀ e' ∈ x.log, e'.serial ≠ x.serial := fun e' he' => Nat.ne_of_lt (h.bounded e' he')
  have hdone : ∀ k f, .setConfirm k f ∈ x.log → (∀ out, .replied k false out ∉ x.log) →
      .confirmed k f ∈ x.log := by
    intro k f hset hok
    refine (h.settled k f hset hok).resolve_right ?_
    rintro ⟨hc', -⟩
    rw [hc] at hc'
    cases hc'
  -- what the call adds
  have hlog : ∀ e', e' ∈ (x.enter sender tag srv e out).log ↔ e' ∈ x.log ∨ e' = .handled x.serial ∨
      (∃ f, e.rollback = some f ∧ e' = .setRollback x.serial f) ∨
      ∃ f, e.confirm = some f ∧ e' = .setConfirm x.serial f := by
    intro e'
    simp only [Session.enter, List.mem_append, List.mem_singleton, Option.mem_toList,
      Option.map_eq_some_iff, or_assoc, eq_comm (a := e')]
  constructor
  case protocol =>
    have hhandled : ConfirmProtocol (x.log ++ [.handled x.serial]) :=
      h.protocol.snoc nofun nofun fun _ _ => hdone
    simp only [Session.enter, List.append_assoc]
    rw [← List.append_assoc]
    refine hhandled.append fun e' he' => ?_
    simp only [List.mem_append, Option.mem_toList, Option.map_eq_some_iff] at he'
    rcases he' with ⟨f, -, rfl⟩ | ⟨f, -, rfl⟩
    · exact .inl ⟨_, f, rfl⟩
    · exact .inr (.inl ⟨_, f, rfl⟩)
  case bounded =>
    intro e' he'
    show e'.serial < x.serial + 1
    rcases (hlog e').mp he' with he' | rfl | ⟨f, -, rfl⟩ | ⟨f, -, rfl⟩
    · exact Nat.lt_succ_of_lt (h.bounded e' he')
    all_goals exact Nat.lt_succ_self _
  case setterR =>
    intro hr
    show (if e.rollback.isSome then x.serial else x.setterR) < x.serial + 1
    split
    · exact Nat.lt_succ_self _
    · next hnone =>
      refine Nat.lt_succ_of_lt (h.setterR ?_)
      rwa [enter_r, if_neg hnone] at hr
  case pending =>
    intro f hf
    have hset := (enter_c hc).symm.trans hf
    rw [enter_setterC hset]
    refine ⟨(hlog _).mpr (.inr (.inr (.inr ⟨f, hset, rfl⟩))), fun g hg => ?_, fun out hr => ?_⟩
    · exact hnew _ (by simpa using (hlog _).mp hg) rfl
    · exact hnew _ (by simpa using (hlog _).mp hr) rfl
  case settled =>
    intro k f hset hok
    rcases (hlog _).mp hset with hset | heq | ⟨g, -, heq⟩ | ⟨g, hg, heq⟩
    · exact .inl ((hlog _).mpr (.inl (hdone k f hset fun out hr => hok out ((hlog _).mpr (.inl hr)))))
    · cases heq
    · cases heq
    · cases heq
      exact .inr ⟨(enter_c hc).trans hg, enter_setterC hg⟩
  case current =>
    intro cur hcur
    obtain ⟨o, -, rfl⟩ := Option.map_eq_some_iff.mp hcur
    refine ⟨fun f hf => hnew _ (by simpa using (hlog _).mp hf) rfl, Nat.lt_succ_self _, fun hsome => ?_⟩
    rw [enter_c hc] at hsome
    obtain ⟨f, hf⟩ := Option.isSome_iff_exists.mp hsome
    exact ⟨enter_setterC hf, enter_matches hf⟩

theorem Protocol.answered {cur : Current ο} {ok : Bool} (h : Protocol x) (hcur : x.current = some cur)
    (srv : σ) (r : Option ρ) (c : Option κ) (es : List (Entry ρ κ ο))
    (hc : ok = true ∧ c = x.ctx.c ∨ ok = false ∧ c = none) (hr : r.isSome → x.ctx.r.isSome)
    (hes : ∀ e ∈ es, ∃ k f, e = .rolledBack k f ∧ k < x.serial) :
    Protocol { x with
      srv := srv, current := none, ctx := { x.ctx with r := r, c := c }
      log := x.log ++ [.replied cur.serial ok cur.out] ++ es } := by
  obtain ⟨hconf, hlt, hset⟩ := h.current cur hcur
  have hmem : ∀ e, (∀ k f, e ≠ .rolledBack k f) →
      (e ∈ x.log ++ [.replied cur.serial ok cur.out] ++ es ↔
        e ∈ x.log ∨ e = .replied cur.serial ok cur.out) := by
    intro e he
    rw [List.mem_append, List.mem_append, List.mem_singleton]
    refine or_iff_left fun hm => ?_
    obtain ⟨k, f, rfl, -⟩ := hes e hm
    exact he k f rfl
  constructor
  case protocol =>
    have hsnoc : ConfirmProtocol (x.log ++ [.replied cur.serial ok cur.out]) := by
      refine h.protocol.snoc nofun ?_ nofun
      rintro _ _ ⟨⟩
      exact hconf
    refine hsnoc.append fun e he => ?_
    obtain ⟨k, f, rfl, -⟩ := hes e he
    exact .inr (.inr ⟨k, f, rfl⟩)
  case bounded =>
    intro e he
    rw [List.mem_append, List.mem_append, List.mem_singleton] at he
    rcases he with (he | rfl) | he
    · exact h.bounded e he
    · exact hlt
    · obtain ⟨k, f, rfl, hk⟩ := hes e he
      exact hk
  case setterR => exact fun hsome => h.setterR (hr hsome)
  case pending =>
    intro f hf
    rcases hc with ⟨hok, hc⟩ | ⟨-, hc⟩
    · have hp := h.pending f (hc.symm.trans hf)
      refine ⟨(hmem _ (by simp)).mpr (.inl hp.set), fun g hg => ?_, fun out hr => ?_⟩
      · exact hp.unconfirmed g (((hmem _ (by simp)).mp hg).resolve_right nofun)
      · rcases (hmem _ (by simp)).mp hr with hr | heq
        · exact hp.unfailed out hr
        · simp [hok] at heq
    · cases hc.symm.trans hf
  case settled =>
    intro k f hk hok
    have hk' := ((hmem _ (by simp)).mp hk).resolve_right nofun
    rcases h.settled k f hk' (fun out hr => hok out ((hmem _ (by simp)).mpr (.inl hr))) with hm | ⟨hf, he⟩
    · exact .inl ((hmem _ (by simp)).mpr (.inl hm))
    · rcases hc with ⟨-, hc⟩ | ⟨hfail, -⟩
      · exact .inr ⟨hc.trans hf, he⟩
      · -- the function that goes is that of the failed reply
        have hser := (hset (by rw [hf]; rfl)).1
        refine absurd ((hmem _ (by simp)).mpr (.inr ?_)) (hok cur.out)
        rw [← he, hser, hfail]
  case current => exact nofun

theorem popRollback_spec {z : Session σ ρ κ ο} (hs : x.popRollback S = some z) :
    ∃ es, (∀ e ∈ es, ∃ f, x.ctx.r = some f ∧ e = .rolledBack x.setterR f) ∧
      z = { x with srv := z.srv, ctx := { x.ctx with r := none }, log := x.log ++ es } := by
  simp only [Session.popRollback] at hs
  split at hs
  · next hr =>
    cases hs
    refine ⟨[], nofun, ?_⟩
    rw [List.append_nil, ← hr]
  · next f hr =>
    obtain ⟨srv, -, rfl⟩ := Option.map_eq_some_iff.mp hs
    refine ⟨_, fun e he => ⟨f, hr, List.mem_singleton.mp he⟩, rfl⟩

theorem Protocol.reply {ok : Bool} (h : Protocol x) (hs : x.reply S ok = some y) : Protocol y := by
  simp only [Session.reply] at hs
  split at hs
  · cases hs
  next cur hcur =>
  split at hs
  · next hok =>
    cases hs
    have := h.answered hcur x.srv x.ctx.r _ [] (.inl ⟨hok, rfl⟩) id nofun
    simpa using this
  next hok =>
  simp only [Bool.not_eq_true] at hok
  simp only [Session.checkRollback] at hs
  split at hs
  · obtain ⟨z, hz, rfl⟩ := Option.map_eq_some_iff.mp hs
    obtain ⟨es, hes, he⟩ := popRollback_spec hz
    rw [he]
    refine h.answered hcur z.srv none none es (.inr ⟨hok, rfl⟩) nofun fun e hm => ?_
    obtain ⟨f, hf, rfl⟩ := hes e hm
    exact ⟨_, f, rfl, h.setterR (by rw [hf]; rfl)⟩
  · next hmatch =>
    cases hs
    -- a confirm function that is pending here would be the call's own
    have hc : x.ctx.c = none := by
      by_contra hne
      exact hmatch ((h.current cur hcur).2.2 (Option.isSome_iff_ne_none.mpr hne)).2
    have := h.answered hcur x.srv none x.ctx.c [] (.inr ⟨hok, hc⟩) nofun nofun
    simpa using this

theorem exec_call {sender : Tid} {tag : ℕ} {a : α} (h : exec S x (.call sender tag a) = some y) :
    x.current = none ∧ ∃ z srv e out, x.syncConfirm S = some z ∧ S.handler z.srv sender a = some (srv, e, out) ∧
      y = z.enter sender tag srv e out := by
  simp only [exec] at h
  split at h
  · cases h
  next hcur =>
  obtain ⟨z, hz, h⟩ := Option.bind_eq_some_iff.mp h
  obtain ⟨⟨srv, e, out⟩, hh, rfl⟩ := Option.map_eq_some_iff.mp h
  exact ⟨by simpa using hcur, z, srv, e, out, hz, hh, rfl⟩

theorem exec_stimulus {b : β} (h : exec S x (.stimulus b) = some y) :
    x.current = none ∧ ∃ z srv, x.syncConfirm S = some z ∧ S.stimulus z.srv b = some srv ∧
      y = { z with srv := srv, serial := z.serial + 1, log := z.log ++ [.handled z.serial] } := by
  simp only [exec] at h
  split at h
  · cases h
  next hcur =>
  obtain ⟨z, hz, h⟩ := Option.bind_eq_some_iff.mp h
  obtain ⟨srv, hsrv, rfl⟩ := Option.map_eq_some_iff.mp h
  exact ⟨by simpa using hcur, z, srv, hz, hsrv, rfl⟩

theorem exec_receiveFailed (h : exec S x .receiveFailed = some y) :
    x.current = none ∧ ∃ z, x.syncConfirm S = some z ∧ y = { z with ctx := { z.ctx with r := none } } := by
  simp only [exec] at h
  split at h
  · cases h
  next hcur =>
  obtain ⟨z, hz, rfl⟩ := Option.map_eq_some_iff.mp h
  exact ⟨by simpa using hcur, z, hz, rfl⟩

theorem Protocol.exec {m : Move α β} (h : Protocol x) (hs : Rollback.exec S x m = some y) : Protocol y := by
  cases m with
  | call sender tag a =>
    obtain ⟨hcur, z, srv, e, out, hz, -, rfl⟩ := exec_call hs
    obtain ⟨hp, hc, -⟩ := h.syncConfirm hcur hz
    exact hp.enter hc sender tag srv e out
  | reply ok => exact h.reply hs
  | stimulus b =>
    obtain ⟨hcur, z, srv, hz, -, rfl⟩ := exec_stimulus hs
    obtain ⟨hp, hc, hcur'⟩ := h.syncConfirm hcur hz
    have henter := hp.enter hc ⟨0, 0⟩ 0 srv ⟨none, none⟩ none
    simpa [Session.enter, Ctx.setRollback, Ctx.setConfirm, hcur'] using henter
  | receiveFailed =>
    obtain ⟨hcur, z, hz, rfl⟩ := exec_receiveFailed hs
    obtain ⟨hp, -, -⟩ := h.syncConfirm hcur hz
    exact ⟨hp.protocol, hp.bounded, nofun, hp.pending, hp.settled, hp.current⟩

theorem Protocol.init (srv : σ) : Protocol (Session.init srv : Session σ ρ κ ο) := by
  refine ⟨⟨nofun, List.nodup_nil, nofun, fun before j hpre => ?_⟩, nofun, nofun, nofun, nofun, nofun⟩
  cases List.append_eq_nil_iff.mp (List.prefix_nil.mp hpre) with
  | intro _ hnil => cases hnil

/-- **The confirm protocol** holds of every server, over every sequence of calls, replies that go
    out or fail, stimuli and failed receives. -/
theorem confirm_protocol {srv : σ} {ms : List (Move α β)}
    (h : Run (Rollback.exec S) free (Session.init srv) ms x) : ConfirmProtocol x.log :=
  (Run.invariant (I := Protocol) (fun _ _ _ _ he hi => hi.exec he) h (Protocol.init srv)).protocol

def cellServer : Server ℕ ℕ Unit Unit ℕ Unit where
  handler n _ a := some (n, ⟨none, some a⟩, some ())
  stimulus n _ := some n
  rollback _ n := some n
  confirm a _ := some a

def cellRun : List (Move ℕ Unit) :=
  [.call ⟨1, 1⟩ 0 5, .reply true, .call ⟨2, 1⟩ 0 7, .reply false, .stimulus ()]

theorem confirm_protocol_cell : ∃ x, Run (Rollback.exec cellServer) free (Session.init 0) cellRun x ∧
    x.srv = 5 ∧ x.log.filterMap Entry.confirms = [0] ∧ ConfirmProtocol x.log := by
  obtain ⟨x, hrun, hx⟩ := Run.exists_of_evalRun (Rollback.exec cellServer) free (Session.init 0) cellRun
    (fun x => (x.srv, x.log.filterMap Entry.confirms)) (5, [0]) (by decide +kernel)
  simp only [Prod.mk.injEq] at hx
  exact ⟨x, hrun, hx.1, hx.2, confirm_protocol hrun⟩

end Sneks.Rollback
