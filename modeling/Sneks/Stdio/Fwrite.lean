import Mathlib.Algebra.Order.Group.Nat
import Mathlib.Data.List.Basic
import Sneks.Lib.Run

/-!
# Buffered output

`fwrite` and `fflush` (`lib/stdio_portable.c`) on a stream that can be written. The buffer is the
bytes that are in it, so its length is `bufsz`. The data and the buffer are in memory at the same
time, their sizes add up without a wrap.

The write function takes as many bytes from the front as it pleases, and one at least where there
are any. Whether `malloc` finds memory comes with a call. `none` is an assertion that fails.
-/

namespace Sneks.Stdio
open Lib

structure Writer where
  accept : ℕ → List UInt8 → ℕ
  accept_pos : ∀ k data, data ≠ [] → 0 < accept k data
  accept_le : ∀ k data, accept k data ≤ data.length

inductive BufMode
  | IONBF | IOLBF | IOFBF
  deriving DecidableEq

/-- `struct __stdio_file`, with what its write function has taken in how many calls. -/
structure Stream where
  nomem : Bool
  bufmode : BufMode
  allocated : Bool
  buffer : List UInt8
  bufmax : ℕ
  sink : List UInt8
  calls : ℕ

namespace Stream

variable (wr : Writer) (s : Stream)

def write (data : List UInt8) : Stream :=
  { s with sink := s.sink ++ data.take (wr.accept s.calls data), calls := s.calls + 1 }

def fflush (s : Stream) : Stream :=
  if _h : s.buffer = [] then s
  else
    let n := wr.accept s.calls s.buffer
    if n < s.buffer.length then fflush { s.write wr s.buffer with buffer := s.buffer.drop n }
    else { s.write wr s.buffer with buffer := [] }
termination_by s.buffer.length
decreasing_by
  have hn := wr.accept_pos s.calls s.buffer ‹_›
  rw [List.length_drop]
  omega

def flushed : Stream := if 0 < s.buffer.length then s.fflush wr else s

/-- The loop of `_IOLBF` over the lines of `ptr`: what is left, and `n`. -/
def lines (ptr : List UInt8) (n : ℕ) (s : Stream) : List UInt8 × ℕ × Stream :=
  if _h : 10 ∈ ptr then
    let nbytes := ptr.idxOf 10 + 1
    let m := wr.accept (s.flushed wr).calls (ptr.take nbytes)
    let t := (s.flushed wr).write wr (ptr.take nbytes)
    if _hm : m < nbytes then (ptr.drop m, n + m, t) else lines (ptr.drop m) (n + m) t
  else (ptr, n, s)
termination_by ptr.length
decreasing_by
  have hin := List.idxOf_lt_length_of_mem _h
  rw [List.length_drop]
  exact Nat.sub_lt (by omega) (Nat.lt_of_lt_of_le (Nat.succ_pos _) (Nat.not_lt.mp _hm))

def direct (ptr : List UInt8) (n : ℕ) : ℕ × Stream := (n + wr.accept s.calls ptr, s.write wr ptr)

/-- `_IOFBF`, which falls through to `_IONBF`. -/
def full (ptr : List UInt8) (n : ℕ) : ℕ × Stream :=
  if s.buffer.length + ptr.length ≤ s.bufmax then (n + ptr.length, { s with buffer := s.buffer ++ ptr })
  else (s.flushed wr).direct wr ptr n

def output (ptr : List UInt8) : ℕ × Stream :=
  match s.bufmode with
  | .IOLBF =>
    let (ptr, n, s) := s.lines wr ptr 0
    s.full wr ptr n
  | .IOFBF => s.full wr ptr 0
  | .IONBF => s.direct wr ptr 0

def fwrite (ptr : List UInt8) (mallocOk : Bool) : Option (ℕ × Stream) :=
  if s.bufmode ≠ .IONBF ∧ s.allocated = false then
    if mallocOk = false then some (0, { s with nomem := true })
    else if s.buffer.length ≠ 0 then none
    else some ({ s with allocated := true }.output wr ptr)
  else some (s.output wr ptr)

end Stream

inductive OutCall
  | fwrite (ptr : List UInt8) (mallocOk : Bool)
  | fflush

/-- A stream, with the prefixes that its `fwrite` calls have reported as written. -/
structure Reported where
  stream : Stream
  reported : List UInt8

namespace Reported

/-- After `setvbuf`, with the caller's buffer or none. -/
def init (bufmode : BufMode) (allocated : Bool) (bufmax : ℕ) : Reported :=
  ⟨⟨false, bufmode, allocated, [], bufmax, [], 0⟩, []⟩

def exec (wr : Writer) (r : Reported) : OutCall → Option Reported
  | .fwrite ptr mallocOk => do
    let (n, s) ← r.stream.fwrite wr ptr mallocOk
    some ⟨s, r.reported ++ ptr.take n⟩
  | .fflush => some ⟨r.stream.fflush wr, r.reported⟩

structure Ordered (r : Reported) : Prop where
  bytes : r.stream.sink ++ r.stream.buffer = r.reported
  fits : r.stream.buffer.length ≤ r.stream.bufmax

end Reported

namespace Stream

variable {wr : Writer} {s t : Stream} {ptr data : List UInt8} {n : ℕ}

structure Same (s t : Stream) : Prop where
  bufmode : t.bufmode = s.bufmode
  allocated : t.allocated = s.allocated
  bufmax : t.bufmax = s.bufmax

theorem fflush_spec (wr : Writer) (s : Stream) : (s.fflush wr).buffer = [] ∧
    (s.fflush wr).sink = s.sink ++ s.buffer ∧ Same s (s.fflush wr) := by
  fun_induction fflush wr s with
  | case1 s h => exact ⟨h, by rw [h, List.append_nil], rfl, rfl, rfl⟩
  | case2 s h n hlt ih =>
    obtain ⟨hbuf, hsink, hsame⟩ := ih
    refine ⟨hbuf, ?_, hsame.bufmode, hsame.allocated, hsame.bufmax⟩
    rw [hsink]
    simp only [write, List.append_assoc]
    exact congrArg _ (List.take_append_drop n s.buffer)
  | case3 s h n hge =>
    refine ⟨rfl, ?_, rfl, rfl, rfl⟩
    exact congrArg _ (List.take_of_length_le (Nat.not_lt.mp hge))

def out (s : Stream) : List UInt8 := s.sink ++ s.buffer

theorem flushed_spec (wr : Writer) (s : Stream) : (s.flushed wr).buffer = [] ∧
    (s.flushed wr).sink = s.out ∧ Same s (s.flushed wr) := by
  unfold flushed
  split
  · exact fflush_spec wr s
  · rename_i hlen
    have hnil : s.buffer = [] := List.eq_nil_of_length_eq_zero (by omega)
    exact ⟨hnil, by rw [out, hnil, List.append_nil], rfl, rfl, rfl⟩

/-- What a part of `fwrite` does that goes on with some bytes left. -/
structure Takes (s : Stream) (ptr : List UInt8) (n : ℕ) (t : Stream) : Prop where
  out : t.out = s.out ++ ptr.take n
  fits : s.buffer.length ≤ s.bufmax → t.buffer.length ≤ t.bufmax
  same : Same s t

theorem Takes.trans {u : Stream} {k : ℕ} (h : Takes s ptr n t) (h' : Takes t (ptr.drop n) k u) :
    Takes s ptr (n + k) u where
  out := by rw [h'.out, h.out, List.append_assoc, List.take_add]
  fits hfits := h'.fits (h.fits hfits)
  same := ⟨h'.same.bufmode.trans h.same.bufmode, h'.same.allocated.trans h.same.allocated,
    h'.same.bufmax.trans h.same.bufmax⟩

theorem line_spec (wr : Writer) (s : Stream) (ptr : List UInt8) (nbytes : ℕ) :
    Takes s ptr (wr.accept (s.flushed wr).calls (ptr.take nbytes))
      ((s.flushed wr).write wr (ptr.take nbytes)) := by
  obtain ⟨hbuf, hsink, hsame⟩ := flushed_spec wr s
  have hle := wr.accept_le (s.flushed wr).calls (ptr.take nbytes)
  refine ⟨?_, fun _ => ?_, hsame.bufmode, hsame.allocated, hsame.bufmax⟩
  · simp only [out, write, hbuf, hsink, List.append_nil, List.take_take]
    rw [min_eq_left (hle.trans (List.length_take_le nbytes ptr))]
  · simp only [write, hbuf, List.length_nil, Nat.zero_le]

theorem lines_spec (wr : Writer) (ptr : List UInt8) (n : ℕ) (s : Stream) :
    ∃ k t, s.lines wr ptr n = (ptr.drop k, n + k, t) ∧ Takes s ptr k t := by
  fun_induction lines wr ptr n s with
  | case1 ptr n s hmem nbytes m t hm =>
    exact ⟨m, t, rfl, line_spec wr s ptr nbytes⟩
  | case2 ptr n s hmem nbytes m t hm ih =>
    obtain ⟨k, u, heq, htakes⟩ := ih
    exact ⟨m + k, u, by rw [heq, List.drop_drop, Nat.add_assoc],
      (line_spec wr s ptr nbytes).trans htakes⟩
  | case3 ptr n s hmem => exact ⟨0, s, rfl, by simp [out], id, rfl, rfl, rfl⟩

theorem full_spec (wr : Writer) (s : Stream) (ptr : List UInt8) (n : ℕ) :
    ∃ k t, s.full wr ptr n = (n + k, t) ∧ Takes s ptr k t := by
  unfold full
  split
  · exact ⟨ptr.length, _, rfl, by simp [out], fun _ => by simpa using ‹_›, rfl, rfl, rfl⟩
  · obtain ⟨hbuf, hsink, hsame⟩ := flushed_spec wr s
    refine ⟨_, _, rfl, ?_, fun _ => ?_, hsame.bufmode, hsame.allocated, hsame.bufmax⟩
    · simp only [out, write, hbuf, hsink, List.append_nil]
    · simp only [write, hbuf, List.length_nil, Nat.zero_le]

structure Clear (s : Stream) : Prop where
  unbuffered : s.bufmode = .IONBF → s.buffer = []
  unallocated : s.allocated = false → s.buffer = []

theorem Clear.flushed (wr : Writer) (s : Stream) : Clear (s.fflush wr) :=
  have hbuf := (fflush_spec wr s).1
  ⟨fun _ => hbuf, fun _ => hbuf⟩

theorem direct_spec (wr : Writer) (ptr : List UInt8) (n : ℕ) (hbuf : s.buffer = []) :
    Takes s ptr (wr.accept s.calls ptr) (s.direct wr ptr n).2 := by
  refine ⟨?_, id, rfl, rfl, rfl⟩
  simp only [out, direct, write, hbuf, List.append_nil]

theorem output_spec (wr : Writer) (ptr : List UInt8) (hclear : Clear s) :
    ∃ n t, s.output wr ptr = (n, t) ∧ Takes s ptr n t := by
  unfold output
  split
  case h_1 =>
    obtain ⟨k, u, hlines, htakes⟩ := lines_spec wr ptr 0 s
    obtain ⟨m, t, hfull, htakes'⟩ := full_spec wr u (ptr.drop k) (0 + k)
    refine ⟨k + m, t, ?_, htakes.trans htakes'⟩
    rw [hlines]
    simpa only [Nat.zero_add] using hfull
  case h_2 =>
    obtain ⟨m, t, hfull, htakes⟩ := full_spec wr s ptr 0
    exact ⟨m, t, by simpa only [Nat.zero_add] using hfull, htakes⟩
  case h_3 hb =>
    exact ⟨_, _, by rw [direct, Nat.zero_add], direct_spec wr ptr 0 (hclear.unbuffered hb)⟩

theorem Clear.output (wr : Writer) (ptr : List UInt8) (hclear : Clear s)
    (hmode : s.bufmode ≠ .IONBF → s.allocated = true) : Clear (s.output wr ptr).2 := by
  obtain ⟨n, t, heq, htakes⟩ := output_spec wr ptr hclear
  rw [heq]
  by_cases hb : s.bufmode = .IONBF
  · have hbuf : t.buffer = s.buffer := by
      rw [Stream.output, hb] at heq
      rw [← (Prod.mk.injEq ..).mp heq |>.2]
      rfl
    have hnil := hbuf.trans (hclear.unbuffered hb)
    exact ⟨fun _ => hnil, fun _ => hnil⟩
  · refine ⟨fun h => absurd (htakes.same.bufmode.symm.trans h) hb, fun h => ?_⟩
    exact absurd ((hmode hb).symm.trans (htakes.same.allocated.symm.trans h)) Bool.noConfusion

theorem fwrite_spec (wr : Writer) (ptr : List UInt8) (mallocOk : Bool) (hclear : Clear s) :
    ∃ n t, s.fwrite wr ptr mallocOk = some (n, t) ∧ Clear t ∧ t.out = s.out ++ ptr.take n ∧
      (s.buffer.length ≤ s.bufmax → t.buffer.length ≤ t.bufmax) := by
  have houtput (u : Stream) (hu : Clear u) (hmode : u.bufmode ≠ .IONBF → u.allocated = true) :
      ∃ n t, u.output wr ptr = (n, t) ∧ Clear t ∧ t.out = u.out ++ ptr.take n ∧
        (u.buffer.length ≤ u.bufmax → t.buffer.length ≤ t.bufmax) := by
    obtain ⟨n, t, heq, htakes⟩ := output_spec wr ptr hu
    have hclear := heq ▸ hu.output wr ptr hmode
    exact ⟨n, t, heq, hclear, htakes.out, htakes.fits⟩
  unfold fwrite
  split
  · rename_i hnone
    have hnil := hclear.unallocated hnone.2
    split
    · exact ⟨0, _, rfl, ⟨hclear.unbuffered, hclear.unallocated⟩, by simp [out], id⟩
    · rw [if_neg (by simp [hnil])]
      obtain ⟨n, t, heq, hspec⟩ :=
        houtput { s with allocated := true } ⟨fun _ => hnil, fun _ => hnil⟩ fun _ => rfl
      exact ⟨n, t, congrArg some heq, hspec⟩
  · rename_i hsome
    obtain ⟨n, t, heq, hspec⟩ := houtput s hclear fun hb => by simpa using not_and.mp hsome hb
    exact ⟨n, t, congrArg some heq, hspec⟩

end Stream

namespace Reported

variable {r r' : Reported}

theorem exec_spec (wr : Writer) (call : OutCall) (hclear : r.stream.Clear) (hordered : Ordered r) :
    ∃ r', r.exec wr call = some r' ∧ r'.stream.Clear ∧ Ordered r' := by
  cases call with
  | fwrite ptr mallocOk =>
    obtain ⟨n, t, heq, ht, hout, hfits⟩ := Stream.fwrite_spec wr ptr mallocOk hclear
    refine ⟨⟨t, r.reported ++ ptr.take n⟩, by simp only [exec, heq]; rfl, ht, ?_, hfits hordered.fits⟩
    exact hout.trans (congrArg (· ++ ptr.take n) hordered.bytes)
  | fflush =>
    obtain ⟨hbuf, hsink, -⟩ := Stream.fflush_spec wr r.stream
    refine ⟨_, rfl, Stream.Clear.flushed wr r.stream, ?_, ?_⟩
    · exact (by rw [hbuf, hsink, List.append_nil] : _ = _).trans hordered.bytes
    · simp only [hbuf, List.length_nil, Nat.zero_le]

end Reported

end Sneks.Stdio
