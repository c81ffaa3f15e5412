import Sneks.Rollback.Undo
import Mathlib.Data.Int.Notation

/-!
# A pipe: `sys/pipe`

One pipe of the pipe server, from its creation on: the callbacks of `sys/pipe/pipeserv.c`
with the calls of `sys/io/io.c` and `sys/chrdev/chrdev.c` that lead to them. Bytes are copied
while a call is handled and counted in the confirm function.

The byte queue is CCAN's `membuf`, which is a parameter. A call says which end of the pipe
its descriptor is a handle on, if any, and a `close` tells if that was the end's last handle.
Calls on the server's other pipes do not touch this one, but they go through the same record.
-/

namespace Sneks.Pipe
open Lib Rollback

/-- `MEMBUF(char)`: the bytes queued, and the operations. `putSpace` is a copy to `membuf_space`. -/
structure Membuf (μ : Type*) where
  init : μ
  elems : μ → List UInt8
  numSpace : μ → ℕ
  prepareSpace : μ → ℕ → μ
  putSpace : μ → List UInt8 → μ
  added : μ → ℕ → μ
  consume : μ → ℕ → μ

structure Membuf.IsQueue {μ : Type*} (B : Membuf μ) : Prop where
  init : B.elems B.init = []
  prepareSpace : ∀ m n, B.elems (B.prepareSpace m n) = B.elems m
  putSpace : ∀ m data, data.length ≤ B.numSpace m → B.elems (B.putSpace m data) = B.elems m
  added : ∀ m data, data.length ≤ B.numSpace m →
    B.elems (B.added (B.putSpace m data) data.length) = B.elems m ++ data
  consume : ∀ m n, n ≤ (B.elems m).length → B.elems (B.consume m n) = (B.elems m).drop n

inductive End
  | reader | writer
  deriving DecidableEq, Repr

/-- `struct pipehead`. An end is open while there is a file for it. -/
structure PipeHead (μ : Type*) where
  buf : μ
  readf : Bool
  writef : Bool

inductive PipeState (μ : Type*)
  | absent
  | live (hd : PipeHead μ)
  | freed

inductive Errno
  | EBADF | ESPIPE | EPIPE | EWOULDBLOCK
  deriving DecidableEq, Repr

inductive Out
  | done
  | wrote (data : List UInt8)
  | got (data : List UInt8)
  | error (e : Errno)
  deriving DecidableEq

/-- The confirm functions: `io_confirm` by end, `writing` and count, or `late_close_fd`. -/
inductive Confirm
  | io (f : End) (writing : Bool) (count : ℕ)
  | close (f : End) (last : Bool)
  | other

/-- `chrdev_rollback` on the files of this pipe, or a rollback function on other files. -/
inductive Target
  | pipe | other
  deriving DecidableEq

inductive Call
  | pipe
  | write (f : Option End) (data : List UInt8) (offset : ℤ) (nonblock : Bool)
  | read (f : Option End) (length offset : ℤ) (nonblock : Bool)
  | close (f : Option End) (last : Bool)
  | other (rollback confirm blocks : Bool)

def Call.IsTransfer : Call → Prop
  | .write .. | .read .. => True
  | .pipe | .close .. | .other .. => False

variable {μ : Type*} (B : Membuf μ)

def ushrtMax : ℕ := 65535

namespace PipeHead

variable (hd : PipeHead μ)

def isOpen : End → Bool
  | .reader => hd.readf
  | .writer => hd.writef

def write (data : List UInt8) (offset : ℤ) : PipeHead μ × Out :=
  if 0 ≤ offset then (hd, .error .ESPIPE)
  else if hd.readf = false then (hd, .error .EPIPE)
  else if data.length = 0 then (hd, .wrote [])
  else
    let buf := B.prepareSpace hd.buf data.length
    if B.numSpace buf = 0 then ({ hd with buf := buf }, .error .EWOULDBLOCK)
    else
      let written := data.take (B.numSpace buf)
      ({ hd with buf := B.putSpace buf written }, .wrote written)

def read (count : ℕ) (offset : ℤ) : PipeHead μ × Out :=
  if 0 ≤ offset then (hd, .error .ESPIPE)
  else if (B.elems hd.buf).length = 0 then
    (hd, if hd.writef then .error .EWOULDBLOCK else .got [])
  else
    let buf := B.prepareSpace hd.buf 1
    ({ hd with buf := buf }, .got ((B.elems buf).take count))

def close : End → PipeState μ
  | .reader => if hd.writef then .live { hd with readf := false } else .freed
  | .writer => if hd.readf then .live { hd with writef := false } else .freed

/-- `pipe_confirm`. A direction that is not the end's aborts the server. -/
def confirm (f : End) (writing : Bool) (count : ℕ) : Option (PipeHead μ) :=
  match f, writing with
  | .writer, true => some { hd with buf := B.added hd.buf count }
  | .reader, false => some { hd with buf := B.consume hd.buf count }
  | .writer, false | .reader, true => none

end PipeHead

def finish (f : End) (writing nonblock : Bool) (hd : PipeHead μ) :
    Out → PipeState μ × Effects Target Confirm × Option Out
  | .error .EWOULDBLOCK =>
    (.live hd, ⟨none, none⟩, if nonblock then some (.error .EWOULDBLOCK) else none)
  | .wrote data =>
    (.live hd, ⟨none, if data.length = 0 then none else some (.io f writing data.length)⟩, some (.wrote data))
  | .got data =>
    (.live hd, ⟨none, if data.length = 0 then none else some (.io f writing data.length)⟩, some (.got data))
  | out => (.live hd, ⟨none, none⟩, some out)

/-- The handlers: `chrdev_pipe`, `io_impl_write`, `io_impl_read` and `io_impl_close`. -/
def handler : PipeState μ → Call → Option (PipeState μ × Effects Target Confirm × Option Out)
  | .absent, .pipe => some (.live ⟨B.init, true, true⟩, ⟨some .pipe, none⟩, some .done)
  | .live hd, .write (some f) data offset nonblock =>
    if hd.isOpen f then
      let (hd, out) := hd.write B (data.take ushrtMax) offset
      some (finish f true nonblock hd out)
    else none
  | .live hd, .read (some f) length offset nonblock =>
    if hd.isOpen f then
      let (hd, out) := hd.read B length.toNat offset
      some (finish f false nonblock hd out)
    else none
  | .live hd, .close (some f) last =>
    if hd.isOpen f then some (.live hd, ⟨none, some (.close f last)⟩, some .done) else none
  | s, .write none .. | s, .read none .. | s, .close none _ => some (s, ⟨none, none⟩, some (.error .EBADF))
  | s, .other rollback confirm blocks => some (s,
      ⟨if rollback then some .other else none, if confirm && !blocks then some .other else none⟩,
      if blocks then none else some .done)
  | _, _ => none

def closeEnd (f : End) : PipeState μ → Option (PipeState μ)
  | .live hd => if hd.isOpen f then some (hd.close f) else none
  | .absent | .freed => none

/-- The pipe server past `sync_confirm`. A stimulus brings the ends whose last handles go with an
    exiting client; rollback is `chrdev_rollback`, which closes both ends. -/
def pipeServer : Server (PipeState μ) Call (List End) Target Confirm Out where
  handler s _ a := handler B s a
  stimulus s fs := fs.foldlM (fun s f => closeEnd f s) s
  rollback
    | .pipe, _ => some .freed
    | .other, s => some s
  confirm
    | .io f writing count, .live hd => (hd.confirm B f writing count).map .live
    | .close f true, s => closeEnd f s
    | .close _ false, s => some s
    | .io .., .absent | .io .., .freed => none
    | .other, s => some s

def PipeState.contents : PipeState μ → Option (List UInt8)
  | .live hd => some (B.elems hd.buf)
  | .absent | .freed => none

abbrev PipeSession (μ : Type*) := Session (PipeState μ) Target Confirm Out
abbrev PipeMove := Move Call (List End)

end Sneks.Pipe
