import Sneks.Lib.Keyed
import Sneks.Lib.Run

/-!
# The environment

`lib/env.c`: `environ` is an array of the program's own, of which the library keeps a hash table. It
looks at the array again where it finds another address in `environ`. Memory is always there. A
result of `none` is a failed assertion, or memory that is read, freed or reallocated and is not
there for it, or that is freed and stays in `environ`.

The hash of an entry is that of its key, so that `htable_get` compares all that have the key. Of
two it finds the one that was added first. A pointer is compared with others and otherwise not used.
-/

namespace Sneks.Stdlib
open Lib

def SHRT_MAX : ℕ := 32767

inductive Errno
  | EINVAL | ENOMEM
  deriving DecidableEq

structure CStr where
  ptr : ℕ
  text : List Char
  deriving DecidableEq

def CStr.name (s : CStr) : List Char := s.text.takeWhile (· ≠ '=')

def CStr.value (s : CStr) : List Char := (s.text.dropWhile (· ≠ '=')).tail

/-- An array of strings with `NULL` at its end. Is it from `malloc`? -/
structure EnvArray where
  addr : ℕ
  heap : Bool
  strs : List CStr

structure EnvStr where
  str : CStr
  keylen : ℕ
  ours : Bool
  deriving DecidableEq

/-- `environ`, `cached_environ`, `our_environ` and `env_ht`. -/
structure Env where
  environ : Option EnvArray
  cached : Option ℕ
  ourEnviron : Bool
  ht : List EnvStr

def EnvStr.hasKey (e : EnvStr) (key : List Char) : Bool :=
  e.str.text.take e.keylen = key.take e.keylen ∧ key.length = e.keylen

def htableGet (ht : List EnvStr) (key : List Char) : Option EnvStr := ht.find? (·.hasKey key)

/-- The loop of `refresh`. `ours` are those that were not found yet. -/
def rebuild : List EnvStr → List CStr → Option (List EnvStr)
  | _, [] => some []
  | ours, s :: strs =>
    match ours.find? fun e => e.str.ptr = s.ptr with
    | some e => (rebuild (ours.erase e) strs).map (e :: ·)
    | none => if s.name.length ≤ SHRT_MAX then (rebuild ours strs).map (⟨s, s.name.length, false⟩ :: ·) else none

namespace Env
variable (s : Env)

def strs : List CStr := (s.environ.map (·.strs)).getD []

def synced : Bool := s.cached = s.environ.map (·.addr)

/-- Entries that `rebuild` has not in the new table are freed, and so are their strings where they
are `ours`. -/
def refresh : Option Env :=
  (rebuild (s.ht.filter (·.ours)) s.strs).map fun ht => { s with ht, cached := s.environ.map (·.addr) }

/-- `cached_environ != environ && !refresh()`. -/
def sync : Option Env := if s.synced then some s else s.refresh

/-- What `getenv` does while there is no table. -/
def linear (key : List Char) : Option (List Char) :=
  (s.strs.find? fun x => '=' ∈ x.text ∧ key.take x.name.length = x.name).map CStr.value

def getenv (key : List Char) : Option (Option (List Char) × Env) :=
  s.sync.bind fun s =>
    if s.cached = none then some (s.linear key, s)
    else match htableGet s.ht key with
      | none => some (none, s)
      | some e =>
        if e.str.text[e.keylen]? = some '=' then some (some (e.str.text.drop (e.keylen + 1)), s) else none

/-- An entry is added to the table, and its string to the array: `realloc` of `environ` where it is
the library's, else a copy. -/
def append (e : EnvStr) (array : ℕ) : Option Env :=
  if s.ourEnviron ∧ ∃ a ∈ s.environ, a.heap = false then none
  else some
    { environ := some ⟨array, true, s.strs ++ [e.str]⟩
      cached := some array
      ourEnviron := true
      ht := s.ht ++ [e] }

def removeOld (old : EnvStr) : Option Env :=
  if s.strs.dropLast.any (·.ptr = old.str.ptr) then some
    { s with
      environ := s.environ.map fun a => { a with strs := a.strs.eraseP (·.ptr = old.str.ptr) }
      ht := s.ht.erase old }
  else none

def remove (old : EnvStr) : Option Env :=
  s.environ.map fun a =>
    { s with
      environ := some { a with strs := a.strs.filter (·.ptr ≠ old.str.ptr) }
      ht := s.ht.erase old }

def replace (old e : EnvStr) : Option Env :=
  s.environ.bind fun a =>
    let i := a.strs.findIdx (·.ptr = old.str.ptr)
    if i < a.strs.length ∧ ¬ (old.ours ∧ old.str.ptr = e.str.ptr) then some
      { s with
        environ := some { a with strs := a.strs.set i e.str }
        ht := (s.ht ++ [e]).erase old }
    else none

/-- `str` and `array` are what `malloc` and `realloc` return. The entry `old` is from before
`refresh`, which frees it unless it is `ours` and still there. -/
def setenv (name : Option (List Char)) (value : List Char) (overwrite : Bool) (str array : ℕ) :
    Option (Except Errno Unit × Env) :=
  match name with
  | none => some (.error .EINVAL, s)
  | some name =>
    if name = [] ∨ '=' ∈ name then some (.error .EINVAL, s)
    else if SHRT_MAX < name.length then some (.error .EINVAL, s)
    else
      let old := htableGet s.ht name
      if old ≠ none ∧ overwrite = false then some (.ok (), s)
      else s.sync.bind fun s' =>
        (s'.append ⟨⟨str, name ++ '=' :: value⟩, name.length, true⟩ array).bind fun s'' =>
          match old with
          | none => some (.ok (), s'')
          | some old =>
            if s.synced ∨ (old.ours ∧ old ∈ s'.ht) then (s''.removeOld old).map (.ok (), ·) else none

def unsetenv (name : Option (List Char)) : Option (Except Errno Unit × Env) :=
  match name with
  | none => some (.error .EINVAL, s)
  | some name =>
    if name = [] ∨ '=' ∈ name then some (.error .EINVAL, s)
    else s.sync.bind fun s =>
      match htableGet s.ht name with
      | none => some (.ok (), s)
      | some e => (s.remove e).map (.ok (), ·)

def putenv (string : Option CStr) (array : ℕ) : Option (Except Errno Unit × Env) :=
  match string with
  | none => some (.ok (), s)
  | some string =>
    if '=' ∉ string.text ∨ string.name = [] then some (.ok (), s)
    else if SHRT_MAX < string.name.length then some (.error .ENOMEM, s)
    else s.sync.bind fun s =>
      let e : EnvStr := ⟨string, string.name.length, false⟩
      match htableGet s.ht string.name with
      | none => (s.append e array).map (.ok (), ·)
      | some old => (s.replace old e).map (.ok (), ·)

def clearenv : Option (Except Errno Unit × Env) :=
  s.sync.bind fun s =>
    if s.ourEnviron ∧ ∃ a ∈ s.environ, a.heap = false then none
    else some (.ok (), { s with environ := none, cached := none, ht := [] })

end Env

inductive EnvOp
  | getenv (key : List Char)
  | setenv (name : Option (List Char)) (value : List Char) (overwrite : Bool) (str array : ℕ)
  | unsetenv (name : Option (List Char))
  | putenv (string : Option CStr) (array : ℕ)
  | clearenv
  /-- `environ = array`. -/
  | assign (array : Option EnvArray)

def Env.exec (s : Env) : EnvOp → Option Env
  | .getenv key => (s.getenv key).map Prod.snd
  | .setenv name value overwrite str array => (s.setenv name value overwrite str array).map Prod.snd
  | .unsetenv name => (s.unsetenv name).map Prod.snd
  | .putenv string array => (s.putenv string array).map Prod.snd
  | .clearenv => s.clearenv.map Prod.snd
  | .assign array => some { s with environ := array }

def Env.init (environ : Option EnvArray) : Env where
  environ
  cached := none
  ourEnviron := false
  ht := []

-- The map

abbrev EnvMap := List Char → Option (List Char)

abbrev mapOf : List CStr → EnvMap := keyed CStr.name CStr.value

/-- What the calls mean. A name is not empty, has no `=` and is not too long. -/
def EnvMap.apply (m : EnvMap) : EnvOp → EnvMap
  | .getenv _ => m
  | .setenv none .. => m
  | .setenv (some name) value overwrite .. =>
    if name = [] ∨ '=' ∈ name ∨ SHRT_MAX < name.length then m
    else if overwrite = false ∧ m name ≠ none then m
    else Function.update m name (some value)
  | .unsetenv none => m
  | .unsetenv (some name) => if name = [] ∨ '=' ∈ name then m else Function.update m name none
  | .putenv none _ => m
  | .putenv (some string) _ =>
    if '=' ∉ string.text ∨ string.name = [] ∨ SHRT_MAX < string.name.length then m
    else Function.update m string.name (some string.value)
  | .clearenv => fun _ => none
  | .assign array => mapOf ((array.map (·.strs)).getD [])

structure Mirror where
  env : Env
  map : EnvMap

namespace Mirror

def init (environ : Option EnvArray) : Mirror where
  env := .init environ
  map := mapOf ((environ.map (·.strs)).getD [])

def exec (t : Mirror) (op : EnvOp) : Option Mirror := (t.env.exec op).map fun env => ⟨env, t.map.apply op⟩

end Mirror

/-- An array of `NAME=value` strings. Strings at one place are one string. -/
def EnvArray.Built (a : EnvArray) : Prop :=
  (∀ x ∈ a.strs, '=' ∈ x.text) ∧ ∀ x ∈ a.strs, ∀ y ∈ a.strs, x.ptr = y.ptr → x = y

/-- What memory allows: a new string is not at the place of one in `environ`, a string of the program
that is at such a place is that string, and the program's arrays have no string of the library's. -/
def Env.Possible (s : Env) : EnvOp → Prop
  | .setenv _ _ _ str _ => ∀ x ∈ s.strs, x.ptr ≠ str
  | .putenv (some string) _ => ∀ x ∈ s.strs, x.ptr = string.ptr → x = string
  | .assign (some a) => a.Built ∧ ∀ x ∈ a.strs, ∀ e ∈ s.ht, e.ours = true → e.str.ptr ≠ x.ptr
  | _ => True

def EnvArray.Tidy (a : EnvArray) : Prop :=
  (a.strs.map CStr.name).Nodup ∧ ∀ x ∈ a.strs, x.name.length ≤ SHRT_MAX

/-- `realloc` and `free` are given `NULL` or what is theirs. -/
def Env.Growable (s : Env) : Prop := s.ourEnviron = true → ∀ a ∈ s.environ, a.heap = true

/-- The program's arrays are tidy, and one at the address the library knows has the strings it knows.
Where `setenv` reads a table that is out of date, it finds a name there if and only if `environ` has
it, and then it does not overwrite. What is given to `realloc` or `free` is theirs, and a string of
the library's is not given to `putenv`. -/
def Env.Tidy (s : Env) : EnvOp → Prop
  | .setenv (some name) _ overwrite _ _ =>
    name = [] ∨ '=' ∈ name ∨ SHRT_MAX < name.length ∨
      (s.synced = true ∨ ((htableGet s.ht name ≠ none ↔ name ∈ s.strs.map CStr.name) ∧
        (name ∈ s.strs.map CStr.name → overwrite = false))) ∧
      (name ∈ s.strs.map CStr.name ∧ overwrite = false ∨ s.Growable)
  | .putenv (some string) _ =>
    '=' ∉ string.text ∨ string.name = [] ∨ SHRT_MAX < string.name.length ∨
      (∀ e ∈ s.ht, e.ours = true → e.str.ptr ≠ string.ptr) ∧ (string.name ∈ s.strs.map CStr.name ∨ s.Growable)
  | .clearenv => s.Growable
  | .assign (some a) => a.Tidy ∧ (s.cached = some a.addr → (s.ht.map (·.str)).Perm a.strs)
  | _ => True

instance (a : EnvArray) : Decidable a.Built := inferInstanceAs (Decidable (_ ∧ _))

instance (a : EnvArray) : Decidable a.Tidy := inferInstanceAs (Decidable (_ ∧ _))

instance (s : Env) : Decidable s.Growable := inferInstanceAs (Decidable (_ → ∀ a ∈ s.environ, _))

instance (s : Env) : (op : EnvOp) → Decidable (s.Possible op)
  | .setenv _ _ _ str _ => inferInstanceAs (Decidable (∀ x ∈ s.strs, x.ptr ≠ str))
  | .putenv (some string) _ => inferInstanceAs (Decidable (∀ x ∈ s.strs, x.ptr = string.ptr → x = string))
  | .assign (some a) =>
    inferInstanceAs (Decidable (a.Built ∧ ∀ x ∈ a.strs, ∀ e ∈ s.ht, e.ours = true → e.str.ptr ≠ x.ptr))
  | .getenv _ | .unsetenv _ | .putenv none _ | .clearenv | .assign none => inferInstanceAs (Decidable True)

instance (s : Env) : (op : EnvOp) → Decidable (s.Tidy op)
  | .setenv (some _) .. => inferInstanceAs (Decidable (_ ∨ _ ∨ _ ∨ (_ ∨ (_ ↔ _) ∧ _) ∧ _))
  | .putenv (some _) _ => inferInstanceAs (Decidable (_ ∨ _ ∨ _ ∨ _))
  | .clearenv => inferInstanceAs (Decidable s.Growable)
  | .assign (some a) =>
    inferInstanceAs (Decidable (a.Tidy ∧ (s.cached = some a.addr → (s.ht.map (·.str)).Perm a.strs)))
  | .getenv _ | .setenv none .. | .unsetenv _ | .putenv none _ | .assign none => inferInstanceAs (Decidable True)

end Sneks.Stdlib
