import Sneks.Rollback.Undo
import Sneks.Io.Handles.Tables

/-!
# Replies of the IO server

The IO server as a server of `lib/rollback.c`: each call is handled and then answered, and
the answer may fail. `dup` and `dup_to` leave a rollback that closes the new handle, `close`
leaves its work to the confirm function, and so do reads and writes that moved something.
-/

namespace Sneks.Io.Handles
open Lib Rollback

/-- What a confirm function is to do: `late_close_fd`, or `io_confirm` for a descriptor. -/
inductive Confirm
  | close (id : ℕ)
  | io (pid fd : ℕ)
  deriving DecidableEq

/-- Calls: those about handles, and reads and writes, of which `moved` tells if the callback
    answered with more than 0 bytes. -/
inductive Body
  | handles (call : Call)
  | io (fd : ℕ) (moved : Bool)

structure Request where
  events : List Event
  body : Body

namespace State

variable (s : State)

def lifecycleSync (evs : List Event) : Option State := evs.foldlM (fun s ev => s.event ev) s

/-- `io_impl_read` and `io_impl_write`, as far as handles are concerned. -/
def readWrite (sender : Tid) (fd : ℕ) (moved : Bool) :
    Option (State × Effects ℕ Confirm × Option Result) :=
  match s.getFd (pidof sender) fd with
  | none => none
  | some none => some (s, ⟨none, none⟩, some (.error .EBADF))
  | some (some _) =>
    some (s, ⟨none, if moved then some (.io (pidof sender) fd) else none⟩, some (.ok 0))

def handleCall (sender : Tid) (call : Call) : Option (State × Effects ℕ Confirm × Option Result) :=
  ({ s with rb := ⟨⟨0, 0⟩, .other, none, none⟩ }.handle sender call).map fun (t, r) =>
    (t, ⟨t.rb.rollback, t.rb.confirm.map .close⟩, some r)

def handleBody (sender : Tid) : Body → Option (State × Effects ℕ Confirm × Option Result)
  | .handles call => s.handleCall sender call
  | .io fd moved => s.readWrite sender fd moved

end State

def ioServer : Server State Request (List Event) ℕ Confirm Result where
  handler s sender a := (s.lifecycleSync a.events).bind (·.handleBody sender a.body)
  stimulus s evs := s.lifecycleSync evs
  rollback id s := s.lateCloseFd id
  confirm
    | .close id, s => s.lateCloseFd id
    | .io pid fd, s =>
      match s.getFd pid fd with
      | some (some _) => some s
      | _ => none

abbrev IoSession := Session State ℕ Confirm Result

variable {s t u : State} {id pid : ℕ} {x y : IoSession}

-- Closing late does not fail

theorem Coherent.removeFromClient_total {pid : ℕ} (h : Coherent s) (ho : (s.fd id).owner = some pid) :
    ∃ t, s.removeFromClient id = some t := by
  obtain ⟨l, hl, hn⟩ := h.clients.held (i := id) ho
  obtain ⟨c, hc, rfl⟩ := Option.map_eq_some_iff.mp hl
  have hlt : (s.fd id).clientIx < c.handles.length := (List.getElem?_eq_some_iff.mp hn).1
  simp only [State.removeFromClient, ho, hc, if_neg (Nat.not_le_of_lt hlt)]
  split
  · exact ⟨_, rfl⟩
  · exact ⟨_, rfl⟩

theorem removeFromFile_total (h : BackIndexed s.files s.fileOf s.fileIx) (hlive : (s.fd id).owner.isSome) :
    ∃ t, s.removeFromFile id = some t := by
  obtain ⟨pid, ho⟩ := Option.isSome_iff_exists.mp hlive
  have hkey : s.fileOf id = some (s.fd id).file := by simp [State.fileOf, Fd.onFile, ho]
  obtain ⟨hs, hf, hn⟩ := h.held hkey
  have hn' : hs[(s.fd id).fileIx]? = some id := hn
  simp only [State.removeFromFile, hf, hn', ne_eq, not_true_eq_false, if_false]
  split
  · exact ⟨_, rfl⟩
  · exact ⟨_, rfl⟩

theorem Coherent.fdDtor_total (h : Coherent s) (hlive : (s.fd id).owner.isSome) (destroyFile : Bool) :
    ∃ t, s.fdDtor id destroyFile = some t := by
  obtain ⟨pid, ho⟩ := Option.isSome_iff_exists.mp hlive
  obtain ⟨s₁, h₁⟩ := h.removeFromClient_total ho
  obtain ⟨-, he₁, hcore₁, hfix₁, -⟩ := removeFromClient_spec h.clients h₁
  have ho₁ : (s₁.fd id).owner.isSome := by
    rw [eq_of_core Fd.owner (fun _ => rfl) (hcore₁ id)]
    exact hlive
  have hfiles₁ : BackIndexed s₁.files s₁.fileOf s₁.fileIx := by
    rw [show s₁.files = s.files by rw [he₁], fileOf_eq hcore₁, hfix₁]
    exact h.files
  obtain ⟨s₂, h₂⟩ := removeFromFile_total hfiles₁ ho₁
  obtain ⟨l, hl, hn⟩ := h.clients.held (i := id) ho
  obtain ⟨c, hc, rfl⟩ := Option.map_eq_some_iff.mp hl
  have hn' : c.handles[(s.fd id).clientIx]? = some id := hn
  simp only [State.fdDtor, Option.bind_eq_bind, ho, hc, hn', h₁, h₂, Option.bind_some, ne_eq,
    not_true_eq_false, if_false]
  exact ⟨_, rfl⟩

theorem Inv.lateCloseFd_total (h : Inv s) (hlive : (s.fd id).owner.isSome)
    (hsh : (s.fd id).shadow = false) :
    ∃ t, s.lateCloseFd id = some t ∧ (t.fd id).owner = none ∧
      ∀ j, j ≠ id → (t.fd j).owner = (s.fd j).owner := by
  obtain ⟨pid, ho⟩ := Option.isSome_iff_exists.mp hlive
  obtain ⟨t, ht⟩ := h.coherent.fdDtor_total hlive true
  have hd := fdDtor_spec h.coherent (.inl rfl) ht
  refine ⟨t, ?_, hd.dead, fun j hj => eq_of_core Fd.owner (fun _ => rfl) (hd.frame j hj)⟩
  simp only [State.lateCloseFd, ho, hsh, Bool.false_eq_true, if_false]
  exact ht

-- What handlers set

theorem Inv.lifecycleSync {evs : List Event} (h : Inv s) (hs : s.lifecycleSync evs = some t) : Inv t := by
  induction evs generalizing s with
  | nil =>
    cases hs
    exact h
  | cons ev evs ih =>
    simp only [State.lifecycleSync, List.foldlM_cons, Option.bind_eq_bind, Option.bind_eq_some_iff] at hs
    obtain ⟨u, hu, hs⟩ := hs
    exact ih (h.event hu) hs

def Body.IsDup : Body → Prop
  | .handles (.dup ..) | .handles (.dupTo ..) => True
  | _ => False

theorem ioAddFd_rb {file : ℕ} {cloexec : Bool} {ids : List ℕ} {r : Result}
    (hs : s.ioAddFd pid file cloexec ids = some (t, r)) : t.rb = s.rb := by
  have hg : (s.getClient pid).rb = s.rb := by
    simp only [State.getClient]
    split <;> rfl
  simp only [State.ioAddFd] at hs
  split at hs
  · split at hs
    · cases hs
      exact hg
    split at hs
    · cases hs
      exact hg
    split at hs
    · cases hs
    · cases hs
      exact hg
    split at hs
    · cases hs
    next u hu =>
    cases hs
    obtain ⟨-, -, he, -⟩ := attach_spec hu
    rw [he]
    exact hg
  · cases hs

theorem Inv.internalDup_sets {sender : Tid} {tag : Tag} {oldfd : ℕ} {receiver : Option ℕ}
    {cloexec hashOk : Bool} {ids : List ℕ} {r : Result} (h : Inv s) (hrb : s.rb.rollback = none)
    (hs : s.internalDup sender tag oldfd receiver cloexec hashOk ids = some (t, r)) :
    (∀ id, t.rb.rollback = some id ↔ r = .ok id) ∧
      ∀ id, r = .ok id → (t.fd id).owner = some (pidof sender) ∧ (t.fd id).shadow = false := by
  have hfail : ∀ {u : State} {e : Errno}, u.rb = s.rb → (∀ id, u.rb.rollback = some id ↔
      (.error e : Result) = .ok id) ∧ ∀ id, (.error e : Result) = .ok id →
        (u.fd id).owner = some (pidof sender) ∧ (u.fd id).shadow = false := by
    intro u e hu
    rw [hu, hrb]
    exact ⟨fun id => ⟨nofun, nofun⟩, nofun⟩
  simp only [State.internalDup] at hs
  split at hs
  · cases hs
  · cases hs
    exact hfail rfl
  next old hold =>
  have ho := h.getFd_owner hold
  split at hs
  · cases hs
    exact hfail rfl
  simp only [Option.bind_eq_bind, Option.bind_eq_some_iff] at hs
  obtain ⟨⟨u, q⟩, hadd, hs⟩ := hs
  obtain ⟨hu, hadded⟩ := h.ioAddFd hadd
  have hurb := ioAddFd_rb hadd
  split at hs
  · cases hs
    exact hfail hurb
  next id hq =>
  obtain ⟨hfree, hframe, hown, hfile, hsh⟩ := hadded id hq
  split at hs
  · cases hs
    refine ⟨fun j => ?_, ?_⟩
    · simp [State.setRollback]
    · rintro _ ⟨⟩
      exact ⟨hown, hsh⟩
  simp only [Option.bind_eq_some_iff] at hs
  obtain ⟨⟨v, q⟩, htrans, hs⟩ := hs
  simp only [State.addTransfer] at htrans
  split at htrans
  · cases htrans
    cases hs
    refine ⟨fun j => ?_, ?_⟩
    · simp [State.setRollback]
    · rintro _ ⟨⟩
      simp only [State.setRollback, State.setFd, Function.update_self]
      exact ⟨hown, hsh⟩
  · simp only [Option.bind_eq_bind, Option.bind_eq_some_iff, Option.some.injEq, Prod.mk.injEq] at htrans
    obtain ⟨w, hw, rfl, rfl⟩ := htrans
    cases hs
    have hne : old ≠ id := by
      rintro rfl
      rw [ho] at hfree
      cases hfree
    have hlast : u.fileOf old = some (u.fd id).file := by
      simp [State.fileOf, Fd.onFile, hframe old hne, ho, hfile]
    have hd := fdDtor_spec hu.coherent (.inr ⟨old, hne, hlast⟩) hw
    refine hfail ?_
    rw [hd.others]
    exact hurb

theorem touch_rb {sender : Tid} {newfd : ℕ} {r : Result} (h : Inv s)
    (hs : s.touch sender newfd = some (t, r)) : t.rb = s.rb := by
  have hg : (s.getClient (pidof sender)).rb = s.rb := by
    simp only [State.getClient]
    split <;> rfl
  have hinv := h.getClient (pidof sender)
  simp only [State.touch] at hs
  split at hs
  · cases hs
    exact hg
  next tr _ =>
  split at hs
  · cases hs
    exact hg
  simp only [Option.bind_eq_bind, Option.bind_eq_some_iff, Option.some.injEq, Prod.mk.injEq] at hs
  obtain ⟨v, hv, c, hc, rfl, -⟩ := hs
  obtain ⟨-, he, -⟩ := removeFromClient_spec (s := { s.getClient (pidof sender) with
    transfers := (s.getClient (pidof sender)).transfers.erase tr }) hinv.coherent.clients hv
  show v.rb = s.rb
  rw [he]
  exact hg

theorem Inv.handle_sets_none {sender : Tid} {call : Call} {r : Result} (h : Inv s)
    (hrb : s.rb.rollback = none) (hdup : ¬ (Body.handles call).IsDup)
    (hs : s.handle sender call = some (t, r)) : t.rb.rollback = none := by
  cases call with
  | iofNew =>
    cases hs
    exact hrb
  | addFd file cloexec ids => rw [ioAddFd_rb hs, hrb]
  | close fd =>
    simp only [State.handle, State.close] at hs
    split at hs
    · cases hs
      exact hrb
    split at hs
    · cases hs
    · cases hs
      exact hrb
    · cases hs
      exact hrb
  | dup oldfd cloexec ids => exact absurd trivial hdup
  | dupTo oldfd receiver hashOk ids => exact absurd trivial hdup
  | touch newfd => rw [touch_rb h hs, hrb]
  | setHandleFlags fd orCloexec andCloexec =>
    simp only [State.handle, State.setHandleFlags] at hs
    split at hs
    · cases hs
    · cases hs
      exact hrb
    · cases hs
      exact hrb

/-- What a call sets: a rollback if it made a handle by `dup` or `dup_to`, on that handle. -/
structure Sets (t : State) (sender : Tid) (b : Body) (e : Effects ℕ Confirm) (out : Option Result) :
    Prop where
  inv : Inv t
  rollback : ∀ id, e.rollback = some id ↔ b.IsDup ∧ out = some (.ok id)
  live : ∀ id, e.rollback = some id → (t.fd id).owner = some (pidof sender) ∧ (t.fd id).shadow = false

theorem Inv.handleBody_sets {sender : Tid} {b : Body} {e : Effects ℕ Confirm} {out : Option Result}
    (h : Inv s) (hs : s.handleBody sender b = some (t, e, out)) : Sets t sender b e out := by
  cases b with
  | io fd moved =>
    simp only [State.handleBody, State.readWrite] at hs
    split at hs
    · cases hs
    · cases hs
      exact ⟨h, fun id => ⟨nofun, nofun⟩, nofun⟩
    · cases hs
      exact ⟨h, fun id => ⟨nofun, nofun⟩, nofun⟩
  | handles call =>
    obtain ⟨⟨u, r⟩, hu, he⟩ := Option.map_eq_some_iff.mp hs
    cases he
    have hblank : Inv { s with rb := ⟨⟨0, 0⟩, .other, none, none⟩ } := h.congr rfl
    have hinv := hblank.handle hu
    by_cases hdup : (Body.handles call).IsDup
    · obtain ⟨hiff, hlive⟩ : (∀ id, t.rb.rollback = some id ↔ r = .ok id) ∧
          ∀ id, r = .ok id → (t.fd id).owner = some (pidof sender) ∧ (t.fd id).shadow = false := by
        cases call with
        | dup oldfd cloexec ids => 
          simp only [State.handle] at hu
          exact hblank.internalDup_sets rfl hu
        | dupTo oldfd receiver hashOk ids => exact hblank.internalDup_sets rfl hu
        | iofNew | addFd | close | touch | setHandleFlags => exact absurd hdup id
      refine ⟨hinv, fun id => ?_, fun id hid => hlive id ((hiff id).mp hid)⟩
      simp [hiff, hdup]
    · have hnone := hblank.handle_sets_none rfl hdup hu
      refine ⟨hinv, fun id => ?_, fun id hid => ?_⟩
      · simp [hnone, hdup]
      · cases hnone.symm.trans hid

abbrev IoMove := Move Request (List Event)

/-- What is promised of rollback. By `made`, the entries for rollback functions that were set are
    the handles made by `dup` and `dup_to`, by the number of the call. -/
structure RollbackSound (x : IoSession) : Prop where
  undo : UndoProtocol x.log
  made : ∀ sender tag (a : Request) y, Rollback.exec ioServer x (.call sender tag a) = some y →
    ∀ id, .setRollback x.serial id ∈ y.log ↔
      a.body.IsDup ∧ ∃ cur, y.current = some cur ∧ cur.serial = x.serial ∧ cur.out = .ok id
  failed : ∀ cur, x.current = some cur → ownRollback (α := Request) (β := List Event) x (.reply false) →
    ∃ y, Rollback.exec ioServer x (.reply false) = some y ∧
      (∀ id, .setRollback cur.serial id ∈ x.log → (y.srv.fd id).owner = none ∧
        ∀ j, j ≠ id → (y.srv.fd j).owner = (x.srv.fd j).owner) ∧
      ((∀ id, .setRollback cur.serial id ∉ x.log) → y.srv = x.srv)

structure Answerable (x : IoSession) : Prop where
  inv : Inv x.srv
  live : ∀ cur id, x.current = some cur → .setRollback cur.serial id ∈ x.log →
    (x.srv.fd id).owner.isSome ∧ (x.srv.fd id).shadow = false

theorem Inv.ioConfirm {f : Confirm} (h : Inv s) (hs : ioServer.confirm f s = some t) : Inv t := by
  cases f with
  | close id => exact h.lateCloseFd hs
  | io pid fd =>
    simp only [ioServer] at hs
    split at hs
    · cases hs
      exact h
    · cases hs

theorem Inv.syncConfirm (h : Inv x.srv) (hs : x.syncConfirm ioServer = some y) : Inv y.srv := by
  simp only [Session.syncConfirm] at hs
  split at hs
  · cases hs
    exact h
  · obtain ⟨srv, hsrv, rfl⟩ := Option.map_eq_some_iff.mp hs
    exact h.ioConfirm hsrv

theorem Inv.popRollback (hs : x.popRollback ioServer = some y) (h : Inv x.srv) : Inv y.srv := by
  simp only [Session.popRollback] at hs
  split at hs
  · cases hs
    exact h
  · obtain ⟨srv, hsrv, rfl⟩ := Option.map_eq_some_iff.mp hs
    exact Inv.lateCloseFd h hsrv

theorem Answerable.call {sender : Tid} {tag : ℕ} {a : Request} (h : Inv x.srv)
    (hs : Rollback.exec ioServer x (.call sender tag a) = some y) :
    x.current = none ∧ ∃ z srv e out, x.syncConfirm ioServer = some z ∧ y = z.enter sender tag srv e out ∧
      Sets srv sender a.body e out := by
  obtain ⟨hcur, z, srv, e, out, hz, hsrv, rfl⟩ := exec_call hs
  obtain ⟨u, hu, hsrv⟩ := Option.bind_eq_some_iff.mp hsrv
  exact ⟨hcur, z, srv, e, out, hz, rfl, ((h.syncConfirm hz).lifecycleSync hu).handleBody_sets hsrv⟩

theorem setRollback_mem_enter {sender : Tid} {tag : ℕ} {srv : State} {e : Effects ℕ Confirm}
    {out : Option Result} (hb : ∀ e' ∈ x.log, e'.serial < x.serial) :
    .setRollback x.serial id ∈ (x.enter sender tag srv e out).log ↔ e.rollback = some id := by
  have hnew : .setRollback x.serial id ∉ x.log := fun hm => Nat.lt_irrefl _ (hb _ hm)
  simp [Session.enter, hnew]

theorem Answerable.exec {m : IoMove} (hp : Protocol x) (h : Answerable x)
    (hs : Rollback.exec ioServer x m = some y) : Answerable y := by
  cases m with
  | call sender tag a =>
    obtain ⟨hcur, z, srv, e, out, hz, rfl, hsets⟩ := Answerable.call h.inv hs
    obtain ⟨hpz, -, -⟩ := hp.syncConfirm hcur hz
    refine ⟨hsets.inv, fun cur id hcur' hm => ?_⟩
    obtain ⟨o, -, rfl⟩ := Option.map_eq_some_iff.mp hcur'
    obtain ⟨ho, hsh⟩ := hsets.live id ((setRollback_mem_enter hpz.bounded).mp hm)
    exact ⟨by rw [show (z.enter sender tag srv e out).srv = srv from rfl, ho]; rfl, hsh⟩
  | reply ok =>
    simp only [Rollback.exec, Session.reply] at hs
    split at hs
    · cases hs
    split at hs
    · cases hs
      exact ⟨h.inv, by rintro _ _ ⟨⟩⟩
    simp only [Session.checkRollback] at hs
    split at hs
    · obtain ⟨z, hz, rfl⟩ := Option.map_eq_some_iff.mp hs
      obtain ⟨es, -, he⟩ := popRollback_spec hz
      have hinv : Inv z.srv := Inv.popRollback hz h.inv
      refine ⟨hinv, fun cur id hcur => ?_⟩
      rw [he] at hcur
      cases hcur
    · cases hs
      exact ⟨h.inv, by rintro _ _ ⟨⟩⟩
  | stimulus b =>
    obtain ⟨hcur, z, srv, hz, hsrv, rfl⟩ := exec_stimulus hs
    obtain ⟨-, -, hcur'⟩ := hp.syncConfirm hcur hz
    refine ⟨(h.inv.syncConfirm hz).lifecycleSync hsrv, fun cur id hc => ?_⟩
    cases hcur'.symm.trans hc
  | receiveFailed =>
    obtain ⟨hcur, z, hz, rfl⟩ := exec_receiveFailed hs
    obtain ⟨-, -, hcur'⟩ := hp.syncConfirm hcur hz
    have hinv : Inv z.srv := h.inv.syncConfirm hz
    refine ⟨hinv, fun cur id hc => ?_⟩
    cases hcur'.symm.trans hc

theorem Answerable.reply_failed {cur : Current Result} (h : Answerable x) (hu : Undo x)
    (hcur : x.current = some cur)
    (hown : ownRollback (α := Request) (β := List Event) x (.reply false)) :
    ∃ y, Rollback.exec ioServer x (.reply false) = some y ∧
      (∀ id, .setRollback cur.serial id ∈ x.log → (y.srv.fd id).owner = none ∧
        ∀ j, j ≠ id → (y.srv.fd j).owner = (x.srv.fd j).owner) ∧
      ((∀ id, .setRollback cur.serial id ∉ x.log) → y.srv = x.srv) := by
  obtain ⟨-, -, hset⟩ := hu.current cur hcur
  simp only [Rollback.exec, Session.reply, hcur, Bool.false_eq_true, if_false, Session.checkRollback]
  by_cases hmatch : x.ctx.Matches cur.sender cur.tag
  · rw [if_pos hmatch]
    simp only [Session.popRollback]
    cases hr : x.ctx.r with
    | none =>
      refine ⟨_, rfl, fun id hm => ?_, fun _ => rfl⟩
      cases hr.symm.trans (hset id hm).1
    | some f =>
      have hself : x.setterR = cur.serial := by
        rcases hown cur hcur with hnone | hself | hno
        · rw [hr] at hnone
          cases hnone
        · exact hself
        · exact absurd hmatch hno
      have hm : .setRollback cur.serial f ∈ x.log := hself ▸ hu.pending f hr
      obtain ⟨hlive, hsh⟩ := h.live cur f hcur hm
      obtain ⟨t, ht, hdead, hframe⟩ := h.inv.lateCloseFd_total hlive hsh
      have hrun : ioServer.rollback f x.srv = some t := ht
      simp only [hrun, Option.map_some]
      refine ⟨_, rfl, fun id hid => ?_, fun hno => absurd hm (hno f)⟩
      obtain rfl : f = id := Option.some.inj (hr.symm.trans (hset id hid).1)
      exact ⟨hdead, hframe⟩
  · rw [if_neg hmatch]
    refine ⟨_, rfl, fun id hm => absurd (hset id hm).2.2 hmatch, fun _ => rfl⟩

theorem Answerable.made {sender : Tid} {tag : ℕ} {a : Request} (hp : Protocol x) (h : Answerable x)
    (hs : Rollback.exec ioServer x (.call sender tag a) = some y) (id : ℕ) :
    .setRollback x.serial id ∈ y.log ↔
      a.body.IsDup ∧ ∃ cur, y.current = some cur ∧ cur.serial = x.serial ∧ cur.out = .ok id := by
  obtain ⟨hcur, z, srv, e, out, hz, rfl, hsets⟩ := Answerable.call h.inv hs
  obtain ⟨hpz, -, -⟩ := hp.syncConfirm hcur hz
  have hserial : z.serial = x.serial := by
    simp only [Session.syncConfirm] at hz
    split at hz
    · cases hz
      rfl
    · obtain ⟨_, -, rfl⟩ := Option.map_eq_some_iff.mp hz
      rfl
  rw [← hserial, setRollback_mem_enter hpz.bounded, hsets.rollback]
  refine and_congr_right fun _ => ?_
  simp only [Session.enter, Option.map_eq_some_iff]
  constructor
  · rintro rfl
    exact ⟨_, ⟨_, rfl, rfl⟩, rfl, rfl⟩
  · rintro ⟨cur, ⟨o, rfl, rfl⟩, -, hout⟩
    rw [← hout]

/-- **Rollback**: in every run in which no reply fails while the rollback of an earlier call is in
    the record for its sender and tag, rollback closes the handles of failed replies and no others. -/
theorem rollback_sound {ms : List IoMove}
    (h : Run (Rollback.exec ioServer) ownRollback (Session.init State.init) ms x) : RollbackSound x := by
  obtain ⟨⟨hp, hu⟩, ha⟩ : (Protocol x ∧ Undo x) ∧ Answerable x :=
    Run.invariant (I := fun x => (Protocol x ∧ Undo x) ∧ Answerable x)
      (fun _ _ _ hown he hi => ⟨⟨hi.1.1.exec he, hi.1.2.exec hi.1.1 hown he⟩, hi.2.exec hi.1.1 he⟩) h
      ⟨⟨Protocol.init _, Undo.init _⟩, Inv.init, nofun⟩
  exact ⟨hu.undo, fun _ _ _ _ hs id => ha.made hp hs id, fun _ hcur hown => ha.reply_failed hu hcur hown⟩

def ioCall (pid tag : ℕ) (call : Call) : IoMove := .call (userTid pid) tag ⟨[], .handles call⟩

/-- Process 5 opens a file and duplicates its handle, by call 2. Process 9 opens another file
    and closes it, by call 5, to which the reply fails. `quiet` is what happens in between. -/
def closeRun (quiet : List IoMove) : List IoMove :=
  [ioCall 5 0 .iofNew, .reply true, ioCall 5 1 (.addFd 0 false [1]), .reply true,
    ioCall 5 2 (.dup 1 false [2]), .reply true] ++ quiet ++
  [ioCall 9 0 .iofNew, .reply true, ioCall 9 1 (.addFd 1 false [3]), .reply true,
    ioCall 9 3 (.close 3), .reply false]

/-- A failed receive after the duplication takes the rollback from the record. -/
theorem rollback_sound_close : ∃ x, Run (Rollback.exec ioServer) ownRollback (Session.init State.init)
    (closeRun [.receiveFailed]) x ∧ RollbackSound x ∧ (x.srv.fd 2).owner = some 5 := by
  obtain ⟨x, hrun, hx⟩ := Run.exists_of_evalRun (Rollback.exec ioServer) ownRollback
    (Session.init State.init) (closeRun [.receiveFailed]) (fun x => (x.srv.fd 2).owner) (some 5)
    (by decide +kernel)
  exact ⟨x, hrun, rollback_sound hrun, hx⟩

/-- Otherwise the failed reply to 9's `close` closes the handle of 5, to whom the reply went out. -/
theorem rollback_undoes_delivered : ∃ x, Run (Rollback.exec ioServer) free (Session.init State.init)
    (closeRun []) x ∧ .replied 2 true (.ok 2) ∈ x.log ∧ .rolledBack 2 2 ∈ x.log ∧
      (x.srv.fd 2).owner = none ∧ ¬ RollbackSound x := by
  obtain ⟨x, hrun, hx⟩ := Run.exists_of_evalRun (Rollback.exec ioServer) free
    (Session.init State.init) (closeRun []) (fun x => (x.log, (x.srv.fd 2).owner))
    ([.handled 0, .replied 0 true (.ok 0), .handled 1, .replied 1 true (.ok 1), .handled 2,
      .setRollback 2 2, .replied 2 true (.ok 2), .handled 3, .replied 3 true (.ok 0), .handled 4,
      .replied 4 true (.ok 3), .handled 5, .setConfirm 5 (.close 3), .replied 5 false (.ok 0),
      .rolledBack 2 2], none) (by decide +kernel)
  simp only [Prod.mk.injEq] at hx
  refine ⟨x, hrun, by simp [hx.1], by simp [hx.1], hx.2, fun hsound => ?_⟩
  have hundo := hsound.undo 2 2
  simp [hx.1] at hundo

end Sneks.Io.Handles
