import Mathlib.Data.Int.Notation
import Mathlib.Data.Nat.Size
import Sneks.Exec.Argbuf
import Sneks.Lib.Places
import Sneks.Stdlib.Strscpy
import Sneks.Vm.Munmap

/-!
# The start-up stack

`upload_startup_stack` (`root/uapi.c`) packs the arguments, the environment and the auxiliary vector of a
new program into an image for the top of its stack, and has it uploaded by `VM::upload_page`, which is for
one page. The program finds the stack's size, the number of arguments and three arrays at its stack pointer
(`user/crt/crt0-32.S`, `user/crt/crt1.c`).

A string that is copied is `CText`, and what `strscpy` writes is told by how far it gets. An assertion that
fails and an access outside of a buffer are `none`. What a call does with more data than its sequence has
room for is a parameter.
-/

namespace Sneks.Exec.Startup
open Lib
open Stdlib (CText)

def AT_NULL : ℕ := 0
def AT_IGNORE : ℕ := 1
def AT_PAGESZ : ℕ := 6
def AT_FLAGS : ℕ := 8
def AT_PLATFORM : ℕ := 15
def AT_BASE_PLATFORM : ℕ := 24
def AT_RANDOM : ℕ := 25
def AT_EXECFN : ℕ := 31

def nAttrs : ℕ := 64

def strAttr (typ : ℕ) : Bool := typ ∈ [AT_PLATFORM, AT_BASE_PLATFORM, AT_RANDOM, AT_EXECFN]

structure Root where
  text : ℕ → CText
  random : ℕ → List UInt8
  length_random : ∀ a, (random a).length = 16

/-- Root's heap, what is in fresh memory, and what `VM::upload_page` returns. -/
structure Env where
  heap : Heap
  junk : ℕ → UInt8
  vm : ℤ

def defaults : ℕ → Option ℕ := Function.update (Function.update (fun _ => none) AT_PAGESZ (some 4096)) AT_FLAGS (some 0)

/-- The loop of `build_auxv` over the arguments. -/
def auxvLoop (vals : ℕ → Option ℕ) : List ℕ → Option (ℕ → Option ℕ)
  | [] => none
  | name :: rest =>
    if name = AT_NULL then some vals
    else if nAttrs ≤ name then none
    else
      match rest with
      | [] => none
      | val :: rest =>
        if name = AT_IGNORE then auxvLoop vals (val :: rest)
        else auxvLoop (Function.update vals name (some val)) rest

def auxvList (vals : ℕ → Option ℕ) : List (ℕ × ℕ) := (List.range nAttrs).filterMap fun name => (vals name).map (name, ·)

def buildAuxv (al : List ℕ) : Option (List (ℕ × ℕ)) := (auxvLoop defaults al).map auxvList

/-- `Elf32_auxv_t`. `off` is the bit `0x80000000` of the type. -/
structure Auxv where
  type : ℕ
  val : ℕ
  off : Bool

/-- The buffer of `pack_auxv`, with what is in it up to `pos`. -/
structure Pack where
  pos : ℕ
  alloc : ℕ
  buf : List UInt8

def room (alloc pos : ℕ) : ℕ := if pos + 16 ≤ alloc then alloc - pos - 16 else alloc + 2 ^ 32 - pos - 16

/-- The loop that doubles the buffer until a string fits, with the size that it gets; an inner `none` is the
    null pointer. -/
def packText (heap : Heap) (s : CText) (pos : ℕ) : ℕ → ℕ → Option (Option ℕ)
  | 0, _ => none
  | n + 1, alloc =>
    let (copied, reach) := Stdlib.strscpy s (room alloc pos)
    if alloc < pos + reach then none
    else
      match copied with
      | some _ => some (some alloc)
      | none => if heap (alloc * 2) = none then some none else packText heap s pos n (alloc * 2)

def packOne (env : Env) (root : Root) (typ val : ℕ) (p : Pack) : Option (Option (Auxv × Pack)) :=
  if strAttr typ = false then some (some (⟨typ, val, false⟩, p))
  else if typ = AT_RANDOM then
    if p.alloc < p.pos + 16 then none
    else some (some (⟨typ, p.pos, true⟩, ⟨p.pos + 17, p.alloc, p.buf ++ root.random val ++ [env.junk (p.pos + 16)]⟩))
  else
    let s := root.text val
    match packText env.heap s p.pos (p.pos + s.length + 17) p.alloc with
    | none => none
    | some none => some none
    | some (some alloc) => some (some (⟨typ, p.pos, true⟩, ⟨p.pos + s.length + 1, alloc, p.buf ++ s.text ++ [0]⟩))

def packLoop (env : Env) (root : Root) : List (ℕ × ℕ) → List Auxv → Pack → Option (Option (List Auxv × Pack))
  | [], done, p => some (some (done, p))
  | (typ, val) :: rest, done, p =>
    match packOne env root typ val p with
    | none => none
    | some none => some none
    | some (some (entry, p)) => packLoop env root rest (done ++ [entry]) p

def packAuxv (env : Env) (root : Root) (auxv : List (ℕ × ℕ)) : Option (Option (List Auxv × Pack)) :=
  if env.heap 128 = none then some none else packLoop env root auxv [] ⟨0, 128, []⟩

def ceil16 (n : ℕ) : ℕ := (n + 15) / 16 * 16

abbrev ChildMem := ℕ → Option UInt8

structure Child where
  mem : ChildMem
  sp : ℕ
  aligned : sp % 4096 = 0
  ge : 0x14000 ≤ sp
  lt : sp < 2 ^ 32
  free : ∀ a < sp, mem a = none

/-- What is passed: the buffers up to their NULs, the limit of the stack, and the pairs for the auxiliary
    vector. -/
structure Input where
  argbuf : List UInt8
  envbuf : List UInt8
  rlimStack : ℕ
  auxv : List (ℕ × ℕ)
  argbuf_noNul : 0 ∉ argbuf
  envbuf_noNul : 0 ∉ envbuf
  rlimStack_lt : rlimStack < 2 ^ 32
  auxv_ne : ∀ e ∈ auxv, e.1 ≠ AT_NULL
  auxv_lt : ∀ e ∈ auxv, e.2 < 2 ^ 32

def vaList (auxv : List (ℕ × ℕ)) : List ℕ := auxv.flatMap (fun e => [e.1, e.2]) ++ [AT_NULL, 0]

def gap (env : Env) (start n : ℕ) : List UInt8 := (List.range' start n).map env.junk

structure Built where
  image : List UInt8
  sp : ℕ

def headWords (child : Child) (i : Input) (argv envp : Split) (auxv : List Auxv) (bodySpace : ℕ) : List ℕ :=
  let bodySp := Vm.wordSub child.sp bodySpace
  let auxsp := bodySp + argv.len + envp.len + 2
  [i.rlimStack, argv.offsets.length] ++ argv.offsets.map (· + bodySp) ++ [0] ++
    envp.offsets.map (· + bodySp + argv.len + 1) ++ [0] ++
    auxv.flatMap (fun e => [e.type, if e.off then e.val + auxsp else e.val]) ++ [AT_NULL, 0]

def bodyBytes (argv envp : Split) (p : Pack) : List UInt8 :=
  argv.buf ++ [0] ++ (envp.buf ++ [0]) ++ if p.pos = 0 then [0] else p.buf

def layOut (env : Env) (nPages bodySpace metaSpace : ℕ) (head : List ℕ) (body : List UInt8) : List UInt8 :=
  let before := nPages * 4096 - bodySpace - metaSpace
  gap env 0 before ++ head.flatMap (leBytes 4) ++ gap env (before + 4 * head.length) (metaSpace - 4 * head.length) ++
    body ++ gap env (nPages * 4096 - bodySpace + body.length) (bodySpace - body.length)

/-- The image of `upload_startup_stack` from its parts on. -/
def pack (env : Env) (child : Child) (i : Input) (argv envp : Split) (auxv : List Auxv) (p : Pack) : Option (Option Built) :=
  let auxsiz := max 1 p.pos - 1
  let bodyLen := argv.len + envp.len + auxsiz + 3
  let bodySpace := ceil16 bodyLen
  let metaLen := 1 + 1 + argv.offsets.length + 1 + envp.offsets.length + 1 + (auxv.length + 1) * 2
  let metaSpace := ceil16 (4 * metaLen)
  let nPages := (bodySpace + metaSpace + 4095) / 4096
  if env.heap (nPages * 4096) = none then some none
  else
    let head := headWords child i argv envp auxv bodySpace
    let body := bodyBytes argv envp p
    if head.length ≠ metaLen ∨ metaSpace < 4 * head.length then none
    else if p.alloc < auxsiz + 1 ∨ body.length ≠ bodyLen then none
    else some (some ⟨layOut env nPages bodySpace metaSpace head body, Vm.wordSub child.sp (bodySpace + metaSpace)⟩)

/-- `upload_startup_stack` up to the upload; an inner `none` is `-ENOMEM`. -/
def buildImage (env : Env) (root : Root) (child : Child) (i : Input) : Option (Option Built) :=
  match strsplitOffsets env.heap i.argbuf with
  | none => some none
  | some argv =>
    match strsplitOffsets env.heap i.envbuf with
    | none => some none
    | some envp =>
      match buildAuxv (vaList i.auxv) with
      | none => none
      | some auxv =>
        if env.heap (8 * auxv.length) = none then some none
        else
          match packAuxv env root auxv with
          | none => none
          | some none => some none
          | some (some (auxv, p)) => pack env child i argv envp auxv p

/-- `vm_upload_page`: the page is padded with zeros. -/
def uploadPage (mem : ChildMem) (addr : ℕ) (data : List UInt8) : ChildMem :=
  fun a => if addr ≤ a ∧ a < addr + 4096 then some (data.getD (a - addr) 0) else mem a

abbrev Overlong := List UInt8 → ℤ × Option (List UInt8)

/-- `__vm_upload_page`. More than a page is copied past the end of the page's memory. -/
def callUploadPage (env : Env) (long : Overlong) (mem : ChildMem) (addr : ℕ) (data : List UInt8) : Option (ℤ × ChildMem) :=
  if data.length ≤ 4096 then some (if env.vm = 0 then (0, uploadPage mem addr data) else (env.vm, mem))
  else
    match long data with
    | (n, none) => some (n, mem)
    | (n, some got) => if 4096 < got.length then none else some (n, uploadPage mem addr got)

inductive Result
  | enomem
  | done (n : ℤ) (sp : ℕ) (mem : ChildMem)

def uploadStartupStack (env : Env) (long : Overlong) (root : Root) (child : Child) (i : Input) : Option Result :=
  match buildImage env root child i with
  | none => none
  | some none => some .enomem
  | some (some b) =>
    match callUploadPage env long child.mem (Vm.wordSub child.sp b.image.length) b.image with
    | none => none
    | some (n, mem) => some (.done (if 0 < n then -5 else n) b.sp mem)

-- What the program finds

inductive AuxVal
  | word (w : ℕ)
  | text (s : List UInt8)
  | random (bytes : List UInt8)

def auxVal (root : Root) (typ val : ℕ) : AuxVal :=
  if strAttr typ = false then .word val else if typ = AT_RANDOM then .random (root.random val) else .text (root.text val).text

def giveOne (vals : ℕ → Option ℕ) (e : ℕ × ℕ) : ℕ → Option ℕ :=
  if e.1 = AT_IGNORE then vals else Function.update vals e.1 (some e.2)

def given (auxv : List (ℕ × ℕ)) : ℕ → Option ℕ := auxv.foldl giveOne defaults

def expected (root : Root) (vals : ℕ → Option ℕ) : List (ℕ × AuxVal) :=
  (auxvList vals).map fun e => (e.1, auxVal root e.1 e.2)

def AuxVal.At (mem : ChildMem) (w : ℕ) : AuxVal → Prop
  | .word x => w = x
  | .text s => StringAt mem w s
  | .random bytes => Lib.Holds mem w bytes

def StringsAt (mem : ChildMem) (a : ℕ) : List (List UInt8) → Prop
  | [] => wordAt mem a = some 0
  | s :: rest => (∃ p, p ≠ 0 ∧ wordAt mem a = some p ∧ StringAt mem p s) ∧ StringsAt mem (a + 4) rest

def AuxvAt (mem : ChildMem) (a : ℕ) : List (ℕ × AuxVal) → Prop
  | [] => wordAt mem a = some AT_NULL
  | e :: rest => (e.1 ≠ AT_NULL ∧ wordAt mem a = some e.1 ∧ ∃ w, wordAt mem (a + 4) = some w ∧ e.2.At mem w) ∧
      AuxvAt mem (a + 8) rest

structure Reads (root : Root) (i : Input) (vals : ℕ → Option ℕ) (mem : ChildMem) (sp : ℕ) : Prop where
  stack : wordAt mem sp = some i.rlimStack
  argc : wordAt mem (sp + 4) = some (records RECSEP i.argbuf).length
  argv : StringsAt mem (sp + 8) (records RECSEP i.argbuf)
  envp : StringsAt mem (sp + 8 + 4 * ((records RECSEP i.argbuf).length + 1)) (records RECSEP i.envbuf)
  auxv : AuxvAt mem (sp + 8 + 4 * ((records RECSEP i.argbuf).length + 1) + 4 * ((records RECSEP i.envbuf).length + 1))
    (expected root vals)

/-- No assertion fails and nothing is written outside, and unless memory runs out the program finds the
    buffers split, these values, and every byte of the image. -/
def DeliversVals (root : Root) (child : Child) (long : Overlong) (i : Input) (vals : ℕ → Option ℕ) : Prop :=
  ∀ env : Env, ∃ r, uploadStartupStack env long root child i = some r ∧
    (env.vm = 0 → ∀ b, buildImage env root child i = some (some b) →
      ∃ mem, r = .done 0 b.sp mem ∧ b.image.length ≤ child.sp ∧ Lib.Holds mem (child.sp - b.image.length) b.image ∧
        Reads root i vals mem b.sp)

def Delivers (root : Root) (child : Child) (long : Overlong) (i : Input) : Prop :=
  DeliversVals root child long i (given i.auxv)

-- The condition

def textSize (root : Root) (vals : ℕ → Option ℕ) (name : ℕ) : ℕ := ((vals name).map fun a => (root.text a).length + 1).getD 0

def earlyLen (root : Root) (vals : ℕ → Option ℕ) : ℕ := textSize root vals AT_PLATFORM + textSize root vals AT_BASE_PLATFORM

def auxLen (root : Root) (vals : ℕ → Option ℕ) : ℕ :=
  earlyLen root vals + (if vals AT_RANDOM = none then 0 else 17) + textSize root vals AT_EXECFN

def bufSize (q : ℕ) : ℕ := 128 * 2 ^ Nat.size ((q + 15) / 128)

def RandomFits (root : Root) (vals : ℕ → Option ℕ) : Prop :=
  vals AT_RANDOM ≠ none →
    if vals AT_EXECFN = none then earlyLen root vals + 17 ≤ bufSize (earlyLen root vals)
    else earlyLen root vals + 33 ≤ bufSize (earlyLen root vals)

def stackSpace (root : Root) (i : Input) (vals : ℕ → Option ℕ) : ℕ :=
  ceil16 (i.argbuf.length + i.envbuf.length + max 1 (auxLen root vals) + 2) +
    ceil16 (4 * ((records RECSEP i.argbuf).length + (records RECSEP i.envbuf).length + 2 * (auxvList vals).length + 6))

structure Fits (root : Root) (i : Input) : Prop where
  names : ∀ e ∈ i.auxv, e.1 < nAttrs
  random : RandomFits root (given i.auxv)
  page : stackSpace root i (given i.auxv) ≤ 4096

def Skippable (auxv : List (ℕ × ℕ)) : Prop := ∀ e ∈ auxv, e.1 = AT_IGNORE → e.2 = AT_IGNORE

end Sneks.Exec.Startup
