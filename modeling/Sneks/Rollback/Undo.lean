import Sneks.Rollback.Protocol

/-!
# What rollback undoes

A rollback function should be run just when the reply failed to the call that set it. It
stays in the record when that reply goes out, and a later call that sets a confirm function
takes the record's sender and tag over. So it may be run when the reply to the later call
fails; as long as that does not happen, rollback undoes what it should.
-/

namespace Sneks.Rollback
open Lib

variable {σ α β ρ κ ο : Type*}

def UndoProtocol (log : List (Entry ρ κ ο)) : Prop :=
  ∀ k f, .rolledBack k f ∈ log ↔ .setRollback k f ∈ log ∧ ∃ out, .replied k false out ∈ log

/-- When a reply fails, a rollback function in the record is the failed call's own, or the
    record is not for the sender and tag of the failed call. -/
def ownRollback (x : Session σ ρ κ ο) : Move α β → Prop
  | .reply false => ∀ cur, x.current = some cur → x.ctx.r.isNone ∨ x.setterR = cur.serial ∨
      ¬ x.ctx.Matches cur.sender cur.tag
  | _ => True

instance (x : Session σ ρ κ ο) : (m : Move α β) → Decidable (ownRollback x m)
  | .reply false =>
    match h : x.current with
    | none => .isTrue fun cur hcur => by cases h.symm.trans hcur
    | some cur => decidable_of_iff (x.ctx.r.isNone ∨ x.setterR = cur.serial ∨
        ¬ x.ctx.Matches cur.sender cur.tag)
        ⟨fun hc cur' hcur' => Option.some.inj (h.symm.trans hcur') ▸ hc, fun hc => hc cur h⟩
  | .reply true | .call .. | .stimulus _ | .receiveFailed => inferInstanceAs (Decidable True)

structure Undo (x : Session σ ρ κ ο) : Prop where
  undo : UndoProtocol x.log
  bounded : ∀ e ∈ x.log, e.serial < x.serial
  pending : ∀ f, x.ctx.r = some f → .setRollback x.setterR f ∈ x.log
  current : ∀ cur, x.current = some cur → cur.serial < x.serial ∧
    (∀ ok out, .replied cur.serial ok out ∉ x.log) ∧
    ∀ f, .setRollback cur.serial f ∈ x.log → x.ctx.r = some f ∧ x.setterR = cur.serial ∧
      x.ctx.Matches cur.sender cur.tag

variable {S : Server σ α β ρ κ ο} {x y : Session σ ρ κ ο} {log : List (Entry ρ κ ο)}

theorem UndoProtocol.append (h : UndoProtocol log) {es : List (Entry ρ κ ο)}
    (hes : ∀ k f, .rolledBack k f ∉ es ∧ (.setRollback k f ∈ es → ∀ out, .replied k false out ∉ log) ∧
      ∀ out, .replied k false out ∉ es) : UndoProtocol (log ++ es) := by
  intro k f
  obtain ⟨hrolled, hset, hreplied⟩ := hes k f
  have hr : (∃ out, .replied k false out ∈ log ++ es) ↔ ∃ out, .replied k false out ∈ log := by
    simp only [List.mem_append, hreplied, or_false]
  rw [hr, List.mem_append, List.mem_append, or_iff_left hrolled, h k f]
  constructor
  · rintro ⟨hm, hout⟩
    exact ⟨.inl hm, hout⟩
  · rintro ⟨hm | hm, out, hout⟩
    · exact ⟨hm, out, hout⟩
    · exact absurd hout (hset hm out)

theorem Undo.syncConfirm (h : Undo x) (hbound : x.ctx.c.isSome → x.setterC < x.serial)
    (hcur : x.current = none) (hs : x.syncConfirm S = some y) :
    Undo y ∧ y.current = none ∧ y.serial = x.serial := by
  simp only [Session.syncConfirm] at hs
  split at hs
  · cases hs
    exact ⟨h, hcur, rfl⟩
  next f hc =>
  obtain ⟨srv, -, rfl⟩ := Option.map_eq_some_iff.mp hs
  refine ⟨⟨h.undo.append (by simp), fun e he => ?_, fun g hg => ?_, fun cur hcur' => ?_⟩, hcur, rfl⟩
  · rcases List.mem_append.mp he with he | he
    · exact h.bounded e he
    · rw [List.mem_singleton.mp he]
      exact hbound (by rw [hc]; rfl)
  · exact List.mem_append_left _ (h.pending g hg)
  · cases hcur.symm.trans hcur'

theorem Undo.enter (h : Undo x) (sender : Tid) (tag : ℕ) (srv : σ) (e : Effects ρ κ) (out : Option ο) :
    Undo (x.enter sender tag srv e out) := by
  have hnew : ∀ e' ∈ x.log, e'.serial ≠ x.serial := fun e' he' => Nat.ne_of_lt (h.bounded e' he')
  constructor
  case undo =>
    simp only [Session.enter, List.append_assoc]
    refine h.undo.append fun k f => ⟨by simp, fun hm out hr => ?_, by simp⟩
    have hk : k = x.serial := by
      simp only [List.mem_append, List.mem_singleton, reduceCtorEq, Option.mem_toList,
        Option.map_eq_some_iff, false_or, Entry.setRollback.injEq, and_false, exists_false, or_false] at hm
      obtain ⟨g, -, hk, -⟩ := hm
      exact hk.symm
    exact hnew _ hr hk
  case bounded =>
    intro e' he'
    show e'.serial < x.serial + 1
    simp only [Session.enter, List.mem_append, List.mem_singleton, Option.mem_toList,
      Option.map_eq_some_iff] at he'
    rcases he' with ((he' | rfl) | ⟨f, -, rfl⟩) | ⟨f, -, rfl⟩
    · exact Nat.lt_succ_of_lt (h.bounded e' he')
    all_goals exact Nat.lt_succ_self _
  case pending =>
    intro f hf
    rw [enter_r] at hf
    show Entry.setRollback (if e.rollback.isSome then x.serial else x.setterR) f ∈
      (x.enter sender tag srv e out).log
    split at hf
    · next hsome =>
      rw [if_pos hsome]
      simp [Session.enter, hf]
    · next hsome =>
      rw [if_neg hsome]
      simp only [Session.enter, List.mem_append]
      exact .inl (.inl (.inl (h.pending f hf)))
  case current =>
    intro cur hcur
    obtain ⟨o, -, rfl⟩ := Option.map_eq_some_iff.mp hcur
    refine ⟨Nat.lt_succ_self _, fun ok out' hr => ?_, fun f hf => ?_⟩
    · exact hnew (.replied x.serial ok out') (by simpa [Session.enter] using hr) rfl
    · have hset : e.rollback = some f := by
        simp only [Session.enter, List.mem_append, List.mem_singleton, reduceCtorEq, Option.mem_toList,
          Option.map_eq_some_iff, or_false, Entry.setRollback.injEq, and_false, exists_false,
          true_and] at hf
        rcases hf with hf | ⟨g, hg, rfl⟩
        · exact absurd rfl (hnew _ hf)
        · exact hg
      refine ⟨?_, by simp [Session.enter, hset], ?_⟩
      · rw [enter_r, hset]
        rfl
      · obtain ⟨rb, cf⟩ := e
        obtain rfl : rb = some f := hset
        cases cf <;> simp [Session.enter, Ctx.setRollback, Ctx.setConfirm, Ctx.Matches]

theorem Undo.answered {cur : Current ο} (h : Undo x) (hcur : x.current = some cur) (ok : Bool)
    (srv : σ) (r : Option ρ) (c : Option κ) (es : List (Entry ρ κ ο))
    (hr : r = none ∨ r = x.ctx.r)
    (hes : ∀ e, e ∈ es ↔ ok = false ∧ ∃ f, .setRollback cur.serial f ∈ x.log ∧ e = .rolledBack cur.serial f) :
    Undo { x with
      srv := srv, current := none, ctx := { x.ctx with r := r, c := c }
      log := x.log ++ [.replied cur.serial ok cur.out] ++ es } := by
  obtain ⟨hlt, hopen, -⟩ := h.current cur hcur
  have hrolled : ∀ f, .rolledBack cur.serial f ∉ x.log := by
    intro f hm
    obtain ⟨-, out, hout⟩ := (h.undo _ f).mp hm
    exact hopen false out hout
  constructor
  case undo =>
    intro k f
    have hset : .setRollback k f ∈ x.log ++ [.replied cur.serial ok cur.out] ++ es ↔
        .setRollback k f ∈ x.log := by simp [hes]
    have hout : (∃ out, .replied k false out ∈ x.log ++ [.replied cur.serial ok cur.out] ++ es) ↔
        (∃ out, .replied k false out ∈ x.log) ∨ k = cur.serial ∧ ok = false := by
      constructor
      · rintro ⟨out, hm⟩
        simp only [List.mem_append, List.mem_singleton, Entry.replied.injEq, hes, reduceCtorEq, and_false,
          exists_false, or_false] at hm
        rcases hm with hm | ⟨hk, hok, -⟩
        · exact .inl ⟨out, hm⟩
        · exact .inr ⟨hk, hok.symm⟩
      · rintro (⟨out, hm⟩ | ⟨rfl, rfl⟩)
        · exact ⟨out, by simp [hm]⟩
        · exact ⟨cur.out, by simp⟩
    rw [hset, hout, List.mem_append, List.mem_append, List.mem_singleton, or_iff_left (a := _ ∈ x.log) nofun,
      h.undo k f, hes]
    constructor
    · rintro (⟨hm, hr⟩ | ⟨hok, g, hg, heq⟩)
      · exact ⟨hm, .inl hr⟩
      · cases heq
        exact ⟨hg, .inr ⟨rfl, hok⟩⟩
    · rintro ⟨hm, hr | ⟨rfl, hok⟩⟩
      · exact .inl ⟨hm, hr⟩
      · exact .inr ⟨hok, f, hm, rfl⟩
  case bounded =>
    intro e he
    rw [List.mem_append, List.mem_append, List.mem_singleton] at he
    rcases he with (he | rfl) | he
    · exact h.bounded e he
    · exact hlt
    · obtain ⟨-, f, -, rfl⟩ := (hes e).mp he
      exact hlt
  case pending =>
    intro f hf
    rcases hr with rfl | rfl
    · cases hf
    · simp only [List.append_assoc]
      exact List.mem_append_left _ (h.pending f hf)
  case current => exact nofun

theorem Undo.reply {ok : Bool} (h : Undo x) (hown : ownRollback (α := α) (β := β) x (.reply ok))
    (hs : x.reply S ok = some y) : Undo y := by
  simp only [Session.reply] at hs
  split at hs
  · cases hs
  next cur hcur =>
  obtain ⟨-, -, hset⟩ := h.current cur hcur
  split at hs
  · next hok =>
    cases hs
    have := h.answered hcur ok x.srv x.ctx.r x.ctx.c [] (.inr rfl) (by simp [hok])
    simpa using this
  next hok =>
  simp only [Bool.not_eq_true] at hok
  subst hok
  have hown' := hown cur hcur
  simp only [Session.checkRollback] at hs
  split at hs
  · next hmatch =>
    obtain ⟨z, hz, rfl⟩ := Option.map_eq_some_iff.mp hs
    simp only [Session.popRollback] at hz
    split at hz
    · next hr =>
      cases hz
      have hno : ∀ f, .setRollback cur.serial f ∉ x.log := by
        intro f hf
        cases hr.symm.trans (hset f hf).1
      have := h.answered hcur false x.srv none none [] (.inl rfl) (by simp [hno])
      simpa using this
    · next f hr =>
      obtain ⟨srv, -, rfl⟩ := Option.map_eq_some_iff.mp hz
      -- the function in the record is the call's own
      have hself : x.setterR = cur.serial := by
        rcases hown' with hnone | hself | hno
        · rw [hr] at hnone
          cases hnone
        · exact hself
        · exact absurd hmatch hno
      refine h.answered hcur false srv none none _ (.inl rfl) fun e => ?_
      rw [List.mem_singleton]
      constructor
      · rintro rfl
        refine ⟨rfl, f, ?_, by rw [hself]⟩
        rw [← hself]
        exact h.pending f hr
      · rintro ⟨-, g, hg, rfl⟩
        obtain rfl : f = g := Option.some.inj (hr.symm.trans (hset g hg).1)
        rw [hself]
  · next hmatch =>
    cases hs
    have hno : ∀ f, .setRollback cur.serial f ∉ x.log := fun f hf => hmatch (hset f hf).2.2
    have := h.answered hcur false x.srv none x.ctx.c [] (.inl rfl) (by simp [hno])
    simpa using this

theorem Undo.exec {m : Move α β} (hp : Protocol x) (h : Undo x) (hown : ownRollback x m)
    (hs : Rollback.exec S x m = some y) : Undo y := by
  have hbound : x.ctx.c.isSome → x.setterC < x.serial := by
    intro hc
    obtain ⟨f, hf⟩ := Option.isSome_iff_exists.mp hc
    exact hp.bounded _ (hp.pending f hf).set
  cases m with
  | call sender tag a =>
    obtain ⟨hcur, z, srv, e, out, hz, -, rfl⟩ := exec_call hs
    exact (h.syncConfirm hbound hcur hz).1.enter sender tag srv e out
  | reply ok => exact h.reply hown hs
  | stimulus b =>
    obtain ⟨hcur, z, srv, hz, -, rfl⟩ := exec_stimulus hs
    obtain ⟨hz', hcur', -⟩ := h.syncConfirm hbound hcur hz
    have henter := hz'.enter ⟨0, 0⟩ 0 srv ⟨none, none⟩ none
    simpa [Session.enter, Ctx.setRollback, Ctx.setConfirm, hcur'] using henter
  | receiveFailed =>
    obtain ⟨hcur, z, hz, rfl⟩ := exec_receiveFailed hs
    obtain ⟨hz', hcur', -⟩ := h.syncConfirm hbound hcur hz
    refine ⟨hz'.undo, hz'.bounded, by rintro _ ⟨⟩, fun cur hcur => ?_⟩
    cases hcur'.symm.trans hcur

theorem Undo.init (srv : σ) : Undo (Session.init srv : Session σ ρ κ ο) :=
  ⟨fun k f => by simp [Session.init], nofun, nofun, nofun⟩

theorem undo_of_run {srv : σ} {ms : List (Move α β)}
    (h : Run (Rollback.exec S) ownRollback (Session.init srv) ms x) : Protocol x ∧ Undo x :=
  Run.invariant (I := fun x => Protocol x ∧ Undo x)
    (fun _ _ _ hown he hi => ⟨hi.1.exec he, hi.2.exec hi.1 hown he⟩) h ⟨Protocol.init srv, Undo.init srv⟩

/-- **Rollback** is for the calls that set it and whose replies fail, where no failed reply finds another call's. -/
theorem rollback_protocol {srv : σ} {ms : List (Move α β)}
    (h : Run (Rollback.exec S) ownRollback (Session.init srv) ms x) : UndoProtocol x.log :=
  (undo_of_run h).2.undo

def undoServer : Server ℕ ℕ Unit ℕ Unit Unit where
  handler n _ a := some (a, ⟨some n, none⟩, some ())
  stimulus n _ := some n
  rollback f _ := some f
  confirm _ n := some n

theorem rollback_protocol_undo : ∃ x, Run (Rollback.exec undoServer) ownRollback (Session.init 3)
    [.call ⟨1, 1⟩ 0 5, .reply false] x ∧ x.srv = 3 ∧ UndoProtocol x.log := by
  obtain ⟨x, hrun, hx⟩ := Run.exists_of_evalRun (Rollback.exec undoServer) ownRollback (Session.init 3)
    [.call ⟨1, 1⟩ 0 5, .reply false] (fun x => x.srv) 3 (by decide +kernel)
  exact ⟨x, hrun, hx, rollback_protocol hrun⟩

end Sneks.Rollback
