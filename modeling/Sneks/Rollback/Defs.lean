import Sneks.Pid
import Sneks.Lib.Run
import Mathlib.Data.List.Basic

/-!
# Rollback and confirmation of calls: `lib/rollback.c`

A server learns only afterwards if its reply has reached the client. A handler may leave
a rollback function, to be run when the reply fails, and a confirm function, to be run when
it is known to have succeeded. One record per thread holds both, and the sender and tag of
the call that set either of them last.

A `Server` is what the handlers, the local stimulus and these functions do; every handler
starts with `sync_confirm`. A failed reply is that to the last call, whose sender and tag
`muidl_get_sender` and `muidl_get_tag` give. `serial`, `setterR`, `setterC` and `log` are
ghost records: the number of the next call, the calls that set the pending functions, and
what has happened.
-/

namespace Sneks.Rollback
open Lib

/-- `struct rbctx`. A tag is the raw word, a function is named by what it is to be run on. -/
structure Ctx (ρ κ : Type*) where
  sender : Tid
  tag : ℕ
  r : Option ρ
  c : Option κ

structure Effects (ρ κ : Type*) where
  rollback : Option ρ
  confirm : Option κ

/-- What the handlers of a server do past their `sync_confirm`. A handler without an output
    raises no reply. -/
structure Server (σ α β ρ κ ο : Type*) where
  handler : σ → Tid → α → Option (σ × Effects ρ κ × Option ο)
  stimulus : σ → β → Option σ
  rollback : ρ → σ → Option σ
  confirm : κ → σ → Option σ

structure Current (ο : Type*) where
  sender : Tid
  tag : ℕ
  serial : ℕ
  out : ο

inductive Entry (ρ κ ο : Type*)
  | handled (k : ℕ)
  | setRollback (k : ℕ) (f : ρ)
  | setConfirm (k : ℕ) (f : κ)
  | replied (k : ℕ) (ok : Bool) (out : ο)
  | confirmed (k : ℕ) (f : κ)
  | rolledBack (k : ℕ) (f : ρ)
  deriving DecidableEq

structure Session (σ ρ κ ο : Type*) where
  srv : σ
  ctx : Ctx ρ κ
  current : Option (Current ο)
  serial : ℕ
  setterR : ℕ
  setterC : ℕ
  log : List (Entry ρ κ ο)

variable {σ α β ρ κ ο : Type*}

/-- `_set_rollback`, where the handler calls it. -/
def Ctx.setRollback (x : Ctx ρ κ) (sender : Tid) (tag : ℕ) : Option ρ → Ctx ρ κ
  | none => x
  | some f => { x with sender := sender, tag := tag, r := some f }

/-- `_set_confirm`, where the handler calls it. -/
def Ctx.setConfirm (x : Ctx ρ κ) (sender : Tid) (tag : ℕ) : Option κ → Ctx ρ κ
  | none => x
  | some f => { x with sender := sender, tag := tag, c := some f }

def Ctx.Matches (x : Ctx ρ κ) (sender : Tid) (tag : ℕ) : Prop := x.tag = tag ∧ x.sender = sender

instance (x : Ctx ρ κ) (sender : Tid) (tag : ℕ) : Decidable (x.Matches sender tag) :=
  inferInstanceAs (Decidable (_ ∧ _))

namespace Session

variable (S : Server σ α β ρ κ ο) (x : Session σ ρ κ ο)

def syncConfirm : Option (Session σ ρ κ ο) :=
  match x.ctx.c with
  | none => some x
  | some f => (S.confirm f x.srv).map fun srv => { x with
      srv := srv
      ctx := { x.ctx with c := none }
      log := x.log ++ [.confirmed x.setterC f] }

def popRollback : Option (Session σ ρ κ ο) :=
  match x.ctx.r with
  | none => some x
  | some f => (S.rollback f x.srv).map fun srv => { x with
      srv := srv
      ctx := { x.ctx with r := none }
      log := x.log ++ [.rolledBack x.setterR f] }

/-- `check_rollback` after a failed reply to the call with this sender and this tag. -/
def checkRollback (sender : Tid) (tag : ℕ) : Option (Session σ ρ κ ο) :=
  if x.ctx.Matches sender tag then
    (x.popRollback S).map fun x => { x with ctx := { x.ctx with r := none, c := none } }
  else some { x with ctx := { x.ctx with r := none } }

def receiveFailed : Option (Session σ ρ κ ο) :=
  (x.syncConfirm S).map fun x => { x with ctx := { x.ctx with r := none } }

def enter (sender : Tid) (tag : ℕ) (srv : σ) (e : Effects ρ κ) (out : Option ο) : Session σ ρ κ ο where
  srv := srv
  ctx := (x.ctx.setRollback sender tag e.rollback).setConfirm sender tag e.confirm
  current := out.map fun out => ⟨sender, tag, x.serial, out⟩
  serial := x.serial + 1
  setterR := if e.rollback.isSome then x.serial else x.setterR
  setterC := if e.confirm.isSome then x.serial else x.setterC
  log := x.log ++ [.handled x.serial] ++ (e.rollback.map (.setRollback x.serial)).toList ++
    (e.confirm.map (.setConfirm x.serial)).toList

def call (sender : Tid) (tag : ℕ) (a : α) : Option (Session σ ρ κ ο) :=
  (x.syncConfirm S).bind fun x =>
    (S.handler x.srv sender a).map fun (srv, e, out) => x.enter sender tag srv e out

def stimulate (b : β) : Option (Session σ ρ κ ο) :=
  (x.syncConfirm S).bind fun x =>
    (S.stimulus x.srv b).map fun srv => { x with
      srv := srv, serial := x.serial + 1, log := x.log ++ [.handled x.serial] }

def reply (ok : Bool) : Option (Session σ ρ κ ο) :=
  match x.current with
  | none => none
  | some cur =>
    let x := { x with current := none, log := x.log ++ [.replied cur.serial ok cur.out] }
    if ok then some x else x.checkRollback S cur.sender cur.tag

def serve (sender : Tid) (tag : ℕ) (a : α) : Option (ο × Session σ ρ κ ο) :=
  (x.call S sender tag a).bind fun y => y.current.bind fun cur => (y.reply S true).map fun z => (cur.out, z)

end Session

inductive Move (α β : Type*)
  | call (sender : Tid) (tag : ℕ) (a : α)
  | reply (ok : Bool)
  | stimulus (b : β)
  | receiveFailed

def exec (S : Server σ α β ρ κ ο) (x : Session σ ρ κ ο) : Move α β → Option (Session σ ρ κ ο)
  | .call sender tag a => if x.current.isSome then none else x.call S sender tag a
  | .reply ok => x.reply S ok
  | .stimulus b => if x.current.isSome then none else x.stimulate S b
  | .receiveFailed => if x.current.isSome then none else x.receiveFailed S

def Session.init (srv : σ) : Session σ ρ κ ο where
  srv := srv
  ctx := ⟨⟨0, 0⟩, 0, none, none⟩
  current := none
  serial := 0
  setterR := 0
  setterC := 0
  log := []

end Sneks.Rollback
