import Sneks.Lib.Run
import Sneks.Sysmsg.Broadcast
import Mathlib.Data.List.DropRight

/-!
# Handlers of system messages: `sys/crt/msg.c`

A system task registers handlers for the bits of a message, closes them by the handle that it
was given, and has a thread that calls them when a message comes in. The list of each bit is an
array of slots; a slot that was closed has no function until the ones after it are closed too.

`initialize` aborts when it fails. What the server answers to `setmask` and what a handler
returns are parameters, and `current_handler`, which only `sysmsg_broadcast` reads, is left out.
A failed assertion and a call through an empty slot are `none`.
-/

namespace Sneks.Sysmsg.Handlers
open Lib

/-- `struct handler`, of a function that is not `NULL`. -/
structure Handler where
  fn : ℕ
  priv : ℕ
  deriving DecidableEq

/-- The slots of each bit, and if `init_flag` has been used. -/
structure State where
  ready : Bool
  handlers : ℕ → List (Option Handler)

def State.init : State := ⟨false, fun _ => []⟩

def EBADF : ℤ := 9
def EIO : ℤ := 5

def handle (bit pos : ℕ) : ℤ := (BitVec.ofNat 32 (bit ||| pos <<< 6)).toInt

def State.setSlots (s : State) (bit : ℕ) (slots : List (Option Handler)) : State :=
  { s with handlers := Function.update s.handlers bit slots }

def sysmsgListen (bit : ℕ) (h : Handler) (n : ℤ) (s : State) : Option (State × ℤ) :=
  if 32 ≤ bit then none
  else
    let s := { s with ready := true }
    if s.handlers bit = [] ∧ n < 0 then some (s, n)
    else if s.handlers bit = [] ∧ 0 < n then some (s, - EIO)
    else
      let s := s.setSlots bit (s.handlers bit ++ [some h])
      some (s, handle bit ((s.handlers bit).length - 1))

def trim (slots : List (Option Handler)) : List (Option Handler) := slots.rdropWhile (·.isNone)

def sysmsgClose (asserts : Bool) (h n : ℤ) (s : State) : Option (State × ℤ) :=
  if s.ready = false ∨ h < 0 then some (s, -EBADF)
  else
    let bit := h.toNat % 32
    let pos := h.toNat >>> 6
    if (s.handlers bit).length ≤ pos then some (s, -EBADF)
    else if asserts ∧ (s.handlers bit)[pos]? = some none then none
    else
      let s := s.setSlots bit (trim ((s.handlers bit).set pos none))
      some (s, if s.handlers bit = [] then n else 0)

def ffsl (x : Word) : ℕ := ((bits x).head?.map (· + 1)).getD 0

structure Invocation where
  bit : ℕ
  handler : Handler
  deriving DecidableEq

/-- The inner loop of `invoke_handlers`, over the slots that are left. -/
def invokeSlots (answer : Invocation → Bool) (b : ℕ) : List (Option Handler) → Bool → Option (List Invocation × Bool)
  | [], immediate => some ([], immediate)
  | none :: _, _ => none
  | some h :: rest, immediate =>
    (invokeSlots answer b rest (immediate && answer ⟨b, h⟩)).map fun r => (⟨b, h⟩ :: r.1, r.2)

/-- The loop of `invoke_handlers`, which clears a bit in each turn. -/
def invokeBits (answer : Invocation → Bool) (s : State) : ℕ → Word → Bool → Option (List Invocation × Bool)
  | 0, _, immediate => some ([], immediate)
  | n + 1, mask, immediate =>
    if 0 < mask.toInt then do
      let b := ffsl mask - 1
      let (calls, immediate) ← invokeSlots answer b (s.handlers b) immediate
      let (later, immediate) ← invokeBits answer s n (mask &&& ~~~(1#32 <<< b)) immediate
      some (calls ++ later, immediate)
    else some ([], immediate)

/-- `invoke_handlers`: the calls that are made, and what is answered. -/
def invokeHandlers (answer : Invocation → Bool) (s : State) (mask : Word) : Option (List Invocation × Word) :=
  (invokeBits answer s 32 mask true).map fun r => (r.1, if r.2 then 0 else 1)

-- Who is registered

/-- A handler under the handle that its `sysmsg_listen` returned. -/
structure Registration where
  handle : ℤ
  bit : ℕ
  handler : Handler
  deriving DecidableEq

def Registration.invocation (r : Registration) : Invocation := ⟨r.bit, r.handler⟩

structure Session where
  code : State
  live : List Registration
  issued : List ℤ

def Session.init : Session := ⟨.init, [], []⟩

inductive Step
  | listen (bit : ℕ) (h : Handler) (n : ℤ)
  | close (handle n : ℤ)

/-- `sysmsg_listen` has returned `r`: a handle, or an error. -/
def Session.listened (x : Session) (bit : ℕ) (h : Handler) (s : State) (r : ℤ) : Session :=
  if r < 0 then { x with code := s } else ⟨s, x.live ++ [⟨r, bit, h⟩], r :: x.issued⟩

def Session.exec (asserts : Bool) (x : Session) : Step → Option Session
  | .listen bit h n => (sysmsgListen bit h n x.code).map fun r => x.listened bit h r.1 r.2
  | .close h n => (sysmsgClose asserts h n x.code).map fun r =>
    ⟨r.1, x.live.filter fun r => r.handle ≠ h, x.issued⟩

/-- Handles fit in an `int`, and what is closed was returned by `sysmsg_listen`, or is an error. -/
def Session.Proper (x : Session) : Step → Prop
  | .listen bit _ _ => (x.code.handlers bit).length < 2 ^ 25
  | .close h _ => h < 0 ∨ h ∈ x.issued

instance (x : Session) (a : Step) : Decidable (x.Proper a) :=
  match a with
  | .listen bit _ _ => inferInstanceAs (Decidable ((x.code.handlers bit).length < 2 ^ 25))
  | .close h _ => inferInstanceAs (Decidable (h < 0 ∨ h ∈ x.issued))

def Session.FansOut (x : Session) (answer : Invocation → Bool) (mask : Word) : Prop :=
  ∃ calls st, invokeHandlers answer x.code mask = some (calls, st) ∧
    calls.Perm ((x.live.filter fun r => mask.getLsbD r.bit).map Registration.invocation)

/-- The handlers in the slots of a bit, from slot `i` on. -/
def registered (b : ℕ) : ℕ → List (Option Handler) → List Registration
  | _, [] => []
  | i, none :: rest => registered b (i + 1) rest
  | i, some h :: rest => ⟨handle b i, b, h⟩ :: registered b (i + 1) rest

-- Slots and handles

variable {b i pos : ℕ} {h : Handler} {slots : List (Option Handler)} {mask : Word} {s : State}

theorem handle_eq (hb : b < 32) (hi : i < 2 ^ 25) : handle b i = b + 64 * i := by
  have hor : b ||| i <<< 6 = b + 64 * i := by
    rw [Nat.or_comm, ← Nat.shiftLeft_add_eq_or_of_lt (by omega), Nat.shiftLeft_eq]
    omega
  rw [handle, hor, BitVec.toInt_ofNat']
  have hcast : ((b + 64 * i : ℕ) : ℤ) = b + 64 * i := by push_cast; rfl
  rw [Int.bmod_eq_of_le (by omega) (by omega), hcast]

theorem handle_ne (hb : b < 32) (hi : i < 2 ^ 25) (hp : pos < 2 ^ 25) (hne : i ≠ pos) : handle b i ≠ handle b pos := by
  rw [handle_eq hb hi, handle_eq hb hp]
  omega

theorem registered_append (l : List (Option Handler)) (o : Option Handler) :
    registered b i (l ++ [o]) = registered b i l ++ registered b (i + l.length) [o] := by
  induction l generalizing i with
  | nil => rfl
  | cons x rest ih =>
    have hlen : i + (x :: rest).length = i + 1 + rest.length := by
      rw [List.length_cons]
      omega
    cases x with
    | none => exact hlen ▸ ih
    | some k => exact congrArg (_ :: ·) (hlen ▸ ih)

theorem registered_trim (l : List (Option Handler)) : registered b i (trim l) = registered b i l := by
  induction l using List.reverseRecOn with
  | nil => rfl
  | append_singleton l o ih =>
    cases o with
    | none =>
      rw [trim, List.rdropWhile_concat_pos _ _ _ rfl, registered_append]
      exact ih.trans (List.append_nil _).symm
    | some h => rw [trim, List.rdropWhile_concat_neg _ _ _ Bool.false_ne_true]

theorem registered_set (hb : b < 32) (hlen : i + slots.length ≤ 2 ^ 25) (hpos : pos < slots.length) :
    registered b i (slots.set pos none) = (registered b i slots).filter fun r => r.handle ≠ handle b (i + pos) := by
  have hother : ∀ (l : List (Option Handler)) (j k : ℕ), k < j → j + l.length ≤ 2 ^ 25 →
      (registered b j l).filter (fun r => r.handle ≠ handle b k) = registered b j l := by
    intro l
    induction l with
    | nil => exact fun _ _ _ _ => rfl
    | cons o rest ih =>
      intro j k hk hj
      rw [List.length_cons] at hj
      have hrest := ih (j + 1) k (by omega) (by omega)
      cases o with
      | none => exact hrest
      | some h =>
        rw [registered, List.filter_cons_of_pos, hrest]
        exact decide_eq_true (handle_ne hb (by omega) (by omega) (by omega))
  induction slots generalizing i pos with
  | nil => cases hpos
  | cons o rest ih =>
    rw [List.length_cons] at hlen hpos
    cases pos with
    | zero =>
      have hrest := hother rest (i + 1) i (by omega) (by omega)
      cases o with
      | none => exact hrest.symm
      | some h =>
        rw [Nat.add_zero, registered, List.filter_cons_of_neg (by simp), hrest]
        rfl
    | succ pos =>
      have hrest : registered b (i + 1) (rest.set pos none) =
          (registered b (i + 1) rest).filter fun r => r.handle ≠ handle b (i + (pos + 1)) := by
        rw [show i + (pos + 1) = i + 1 + pos by omega]
        exact ih (by omega) (by omega)
      cases o with
      | none => exact hrest
      | some h =>
        rw [List.set_cons_succ, registered, registered, List.filter_cons_of_pos, hrest]
        exact decide_eq_true (handle_ne hb (by omega) (by omega) (by omega))

theorem eq_nil_of_registered (ht : trim slots = slots) (hr : registered b i slots = []) : slots = [] := by
  induction slots using List.reverseRecOn with
  | nil => rfl
  | append_singleton l o _ =>
    rw [registered_append, List.append_eq_nil_iff] at hr
    cases o with
    | some h => cases hr.2
    | none =>
      rw [trim, List.rdropWhile_concat_pos _ _ _ rfl] at ht
      have hle := (List.rdropWhile_prefix (p := (·.isNone)) l).length_le
      rw [ht, List.length_append, List.length_singleton] at hle
      omega

theorem handle_decode (hb : b < 32) (hi : i < 2 ^ 25) :
    0 ≤ handle b i ∧ (handle b i).toNat % 32 = b ∧ (handle b i).toNat >>> 6 = i := by
  have hcast : ((b : ℤ) + 64 * i).toNat = b + 64 * i := by omega
  rw [handle_eq hb hi, hcast, Nat.shiftRight_eq_div_pow]
  omega

theorem mem_registered {r : Registration} (hr : r ∈ registered b i slots) :
    ∃ j < slots.length, r.handle = handle b (i + j) := by
  induction slots generalizing i with
  | nil => cases hr
  | cons o rest ih =>
    have hlater (hr : r ∈ registered b (i + 1) rest) : ∃ j < (o :: rest).length, r.handle = handle b (i + j) := by
      obtain ⟨j, hj, he⟩ := ih hr
      refine ⟨j + 1, Nat.succ_lt_succ hj, ?_⟩
      rw [he, Nat.add_assoc, Nat.add_comm 1 j]
    cases o with
    | none => exact hlater hr
    | some h =>
      obtain rfl | hr := List.mem_cons.mp hr
      · exact ⟨0, Nat.succ_pos _, rfl⟩
      · exact hlater hr

-- The invariant

structure Session.Good (x : Session) : Prop where
  slots : ∀ b, x.live.filter (fun r => r.bit = b) = registered b 0 (x.code.handlers b)
  last : ∀ b, trim (x.code.handlers b) = x.code.handlers b
  small : ∀ b, (x.code.handlers b).length ≤ 2 ^ 25
  unused : ∀ b, 32 ≤ b → x.code.handlers b = []
  unready : x.code.ready = false → x.live = []
  issued : ∀ h ∈ x.issued, ∃ b < 32, ∃ i < 2 ^ 25, h = handle b i

namespace Session.Good

variable {asserts : Bool} {x y : Session}

theorem init : Session.init.Good :=
  ⟨fun _ => rfl, fun _ => rfl, fun _ => Nat.zero_le _, fun _ _ => rfl, fun _ => rfl, nofun⟩

theorem ready (hx : x.Good) : Session.Good { x with code := { x.code with ready := true } } :=
  ⟨hx.slots, hx.last, hx.small, hx.unused, nofun, hx.issued⟩

theorem slot {r : Registration} (hx : x.Good) (hr : r ∈ x.live) :
    r.bit < 32 ∧ ∃ i < (x.code.handlers r.bit).length, i < 2 ^ 25 ∧ r.handle = handle r.bit i := by
  have hmem : r ∈ registered r.bit 0 (x.code.handlers r.bit) := by
    rw [← hx.slots, List.mem_filter]
    exact ⟨hr, decide_eq_true rfl⟩
  obtain ⟨i, hi, he⟩ := mem_registered hmem
  rw [Nat.zero_add] at he
  refine ⟨Nat.lt_of_not_le fun hb => ?_, i, hi, Nat.lt_of_lt_of_le hi (hx.small _), he⟩
  rw [hx.unused _ hb] at hi
  cases hi

theorem setSlots {l : List (Option Handler)} {live : List Registration} {issued : List ℤ} (hx : x.Good) (hb : b < 32)
    (hready : x.code.ready = true) (hslots : live.filter (fun r => r.bit = b) = registered b 0 l)
    (hother : ∀ c, c ≠ b → live.filter (fun r => r.bit = c) = x.live.filter (fun r => r.bit = c))
    (hlast : trim l = l) (hsmall : l.length ≤ 2 ^ 25) (hissued : ∀ h ∈ issued, ∃ b < 32, ∃ i < 2 ^ 25, h = handle b i) :
    Session.Good ⟨x.code.setSlots b l, live, issued⟩ := by
  have hself : (x.code.setSlots b l).handlers b = l := Function.update_self ..
  have hne : ∀ c, c ≠ b → (x.code.setSlots b l).handlers c = x.code.handlers c := fun c hc => Function.update_of_ne hc _ _
  refine ⟨fun c => ?_, fun c => ?_, fun c => ?_, fun c hc => ?_, fun h => ?_, hissued⟩
  · obtain rfl | hc := eq_or_ne c b
    · rw [hself]
      exact hslots
    · rw [hne c hc]
      exact (hother c hc).trans (hx.slots c)
  · obtain rfl | hc := eq_or_ne c b
    · rw [hself]
      exact hlast
    · rw [hne c hc]
      exact hx.last c
  · obtain rfl | hc := eq_or_ne c b
    · rw [hself]
      exact hsmall
    · rw [hne c hc]
      exact hx.small c
  · rw [hne c (Nat.ne_of_gt (Nat.lt_of_lt_of_le hb hc))]
    exact hx.unused c hc
  · rw [State.setSlots, hready] at h
    cases h

theorem listen {n : ℤ} (hx : x.Good) (hproper : x.Proper (.listen b h n))
    (he : x.exec asserts (.listen b h n) = some y) : y.Good := by
  obtain ⟨⟨s, r⟩, hs, rfl⟩ := Option.map_eq_some_iff.mp he
  simp only [sysmsgListen] at hs
  split at hs
  · cases hs
  next hb =>
  rw [Nat.not_le] at hb
  split at hs
  · next hn =>
    cases hs
    rw [Session.listened, if_pos hn.2]
    exact hx.ready
  split at hs
  · cases hs
    rw [Session.listened, if_pos (show - EIO < 0 by decide)]
    exact hx.ready
  cases hs
  have hlt : (x.code.handlers b).length < 2 ^ 25 := hproper
  have hself : ((State.setSlots { x.code with ready := true } b (x.code.handlers b ++ [some h])).handlers b).length - 1 =
      (x.code.handlers b).length := by
    show (Function.update x.code.handlers b _ b).length - 1 = _
    rw [Function.update_self, List.length_append]
    rfl
  have hpos : ¬ handle b (x.code.handlers b).length < 0 := not_lt.mpr (handle_decode hb hlt).1
  rw [Session.listened, hself, if_neg hpos]
  refine hx.ready.setSlots hb rfl ?_ (fun c hc => ?_) ?_ ?_ fun k hk => ?_
  · rw [List.filter_append, hx.slots b, registered_append, Nat.zero_add]
    simp [registered]
  · rw [List.filter_append, List.filter_cons_of_neg (by simpa using Ne.symm hc), List.filter_nil, List.append_nil]
  · exact List.rdropWhile_concat_neg _ _ _ Bool.false_ne_true
  · rw [List.length_append]
    exact hlt
  · obtain rfl | hk := List.mem_cons.mp hk
    · exact ⟨b, hb, _, hlt, rfl⟩
    · exact hx.issued k hk

theorem close_stale {k : ℤ} (hx : x.Good) (hk : ∀ r ∈ x.live, r.handle ≠ k) :
    Session.Good ⟨x.code, x.live.filter fun r => r.handle ≠ k, x.issued⟩ := by
  rw [List.filter_eq_self.mpr fun r hr => decide_eq_true (hk r hr)]
  exact hx

theorem close {k n : ℤ} (hx : x.Good) (hproper : x.Proper (.close k n)) (he : x.exec asserts (.close k n) = some y) :
    y.Good := by
  obtain ⟨⟨s, r⟩, hs, rfl⟩ := Option.map_eq_some_iff.mp he
  simp only [sysmsgClose] at hs
  split at hs
  · next hno =>
    cases hs
    refine hx.close_stale fun r hr => ?_
    obtain hready | hneg := hno
    · rw [hx.unready hready] at hr
      cases hr
    · obtain ⟨hb, i, -, hi, he⟩ := hx.slot hr
      have hpos := (handle_decode hb hi).1
      rw [he]
      omega
  next hyes =>
  rw [not_or, Bool.not_eq_false] at hyes
  obtain ⟨b, hb, i, hi, rfl⟩ := hx.issued k (hproper.resolve_left hyes.2)
  obtain ⟨-, hbit, hslot⟩ := handle_decode hb hi
  rw [hbit, hslot] at hs
  -- a handle of another bit or slot is another one
  have hunique : ∀ r ∈ x.live, r.handle = handle b i → r.bit = b ∧ i < (x.code.handlers b).length := fun r hr he => by
    obtain ⟨hb', j, hj, hj', he'⟩ := hx.slot hr
    obtain ⟨-, hbit', hslot'⟩ := handle_decode hb' hj'
    rw [he'] at he
    rw [he, hbit] at hbit'
    rw [he, hslot] at hslot'
    exact ⟨hbit'.symm, hbit' ▸ hslot' ▸ hj⟩
  split at hs
  · next hlen =>
    cases hs
    exact hx.close_stale fun r hr he => absurd (hunique r hr he).2 (Nat.not_lt.mpr hlen)
  next hlen =>
  split at hs
  · cases hs
  cases hs
  rw [Nat.not_le] at hlen
  have hsmall := hx.small b
  refine hx.setSlots hb hyes.1 ?_ (fun c hc => ?_) ?_ ?_ hx.issued
  · rw [List.filter_filter, registered_trim, registered_set hb (by omega) hlen, ← hx.slots b, List.filter_filter, Nat.zero_add]
    exact List.filter_congr fun r _ => Bool.and_comm _ _
  · rw [List.filter_filter]
    refine List.filter_congr fun r hr => ?_
    by_cases hrc : r.bit = c
    · have hne : r.handle ≠ handle b i := fun he => hc (hrc.symm.trans (hunique r hr he).1)
      rw [decide_eq_true hne, Bool.and_true]
    · rw [decide_eq_false hrc, Bool.false_and]
  · exact List.rdropWhile_idempotent _ _
  · exact (List.rdropWhile_prefix _ _).length_le.trans (by rw [List.length_set]; exact hsmall)

theorem exec {a : Step} (hx : x.Good) (hproper : x.Proper a) (hs : x.exec asserts a = some y) : y.Good := by
  cases a with
  | listen => exact hx.listen hproper hs
  | close => exact hx.close hproper hs

end Session.Good

-- A message comes in

variable {answer : Invocation → Bool}

theorem invokeSlots_spec (immediate : Bool) : (none ∈ slots → invokeSlots answer b slots immediate = none) ∧
    (none ∉ slots → ∃ r, invokeSlots answer b slots immediate =
      some ((registered b i slots).map Registration.invocation, r)) := by
  induction slots generalizing i immediate with
  | nil => exact ⟨nofun, fun _ => ⟨immediate, rfl⟩⟩
  | cons o rest ih =>
    cases o with
    | none => exact ⟨fun _ => rfl, fun hno => absurd List.mem_cons_self hno⟩
    | some h =>
      obtain ⟨hnone, hsome⟩ := ih (i := i + 1) (immediate && answer ⟨b, h⟩)
      refine ⟨fun hmem => ?_, fun hno => ?_⟩
      · rw [invokeSlots, hnone ((List.mem_cons.mp hmem).resolve_left nofun)]
        rfl
      · obtain ⟨r, hr⟩ := hsome fun hmem => hno (List.mem_cons_of_mem _ hmem)
        rw [invokeSlots, hr]
        exact ⟨r, rfl⟩

theorem nodup_bits (mask : Word) : (bits mask).Nodup := List.nodup_range.filter _

theorem bits_of_ne_zero (h : mask ≠ 0#32) :
    bits mask = (ffsl mask - 1) :: bits (mask &&& ~~~(1#32 <<< (ffsl mask - 1))) := by
  have hne : bits mask ≠ [] := fun hnil => by
    apply h
    refine BitVec.eq_of_getLsbD_eq fun k _ => ?_
    have hk : k ∉ bits mask := hnil ▸ List.not_mem_nil
    rw [mem_bits, Bool.not_eq_true] at hk
    rw [hk, BitVec.getLsbD_zero]
  obtain ⟨c, rest, hc⟩ := List.exists_cons_of_ne_nil hne
  have hffsl : ffsl mask - 1 = c := by rw [ffsl, hc]; rfl
  have hrest : rest = (bits mask).filter (· ≠ c) := by
    calc rest = (bits mask).erase c := by rw [hc, List.erase_cons_head]
      _ = (bits mask).filter (· != c) := (nodup_bits mask).erase_eq_filter c
      _ = (bits mask).filter (· ≠ c) := List.filter_congr fun k _ => by rw [Bool.eq_iff_iff, bne_iff_ne, decide_eq_true_iff]
  rw [hffsl, hc, hrest, bits, List.filter_filter]
  refine congrArg (c :: ·) (List.filter_congr fun k hk => ?_)
  rw [BitVec.getLsbD_and, BitVec.getLsbD_not, ← BitVec.twoPow_eq, BitVec.getLsbD_twoPow]
  have hk : k < 32 := List.mem_range.mp hk
  have hc32 : c < 32 := by
    have hmem : c ∈ bits mask := hc ▸ List.mem_cons_self
    exact List.mem_range.mp (List.mem_filter.mp hmem).1
  by_cases hck : c = k
  · simp [hck]
  · simp [hck, Ne.symm hck, hk]

theorem msb_and_eq_false {other : Word} (h : mask.msb = false) : (mask &&& other).msb = false := by
  rw [BitVec.msb_and, h, Bool.false_and]

theorem invokeBits_spec (answer : Invocation → Bool) (s : State) (hmsb : mask.msb = false) (n : ℕ) (hn : (bits mask).length ≤ n) (immediate : Bool) :
    ((∃ b ∈ bits mask, none ∈ s.handlers b) → invokeBits answer s n mask immediate = none) ∧
    ((∀ b ∈ bits mask, none ∉ s.handlers b) → ∃ r, invokeBits answer s n mask immediate =
      some ((bits mask).flatMap fun b => (registered b 0 (s.handlers b)).map Registration.invocation, r)) := by
  induction n generalizing mask immediate with
  | zero =>
    rw [List.eq_nil_of_length_eq_zero (Nat.le_zero.mp hn)]
    exact ⟨fun ⟨_, hb, _⟩ => absurd hb List.not_mem_nil, fun _ => ⟨immediate, rfl⟩⟩
  | succ n ih =>
    rw [invokeBits]
    split
    · next hpos =>
      dsimp only
      have hbits : bits mask = (ffsl mask - 1) :: bits (mask &&& ~~~(1#32 <<< (ffsl mask - 1))) := by
        refine bits_of_ne_zero fun hzero => ?_
        rw [hzero] at hpos
        exact absurd hpos (by decide)
      rw [hbits, List.length_cons, Nat.succ_le_succ_iff] at hn
      rw [hbits]
      refine ⟨fun hex => ?_, fun hall => ?_⟩
      · obtain ⟨c, hc, hnone⟩ := hex
        by_cases hfirst : none ∈ s.handlers (ffsl mask - 1)
        · rw [(invokeSlots_spec (i := 0) immediate).1 hfirst]
          rfl
        · obtain ⟨r, hr⟩ := (invokeSlots_spec (i := 0) immediate).2 hfirst
          have hlater : c ∈ bits (mask &&& ~~~(1#32 <<< (ffsl mask - 1))) :=
            (List.mem_cons.mp hc).resolve_left fun he => hfirst (he ▸ hnone)
          rw [hr, Option.bind_eq_bind, Option.bind_some, (ih (msb_and_eq_false hmsb) hn r).1 ⟨c, hlater, hnone⟩]
          rfl
      · obtain ⟨r, hr⟩ := (invokeSlots_spec (i := 0) immediate).2 (hall _ List.mem_cons_self)
        obtain ⟨r', hr'⟩ := (ih (msb_and_eq_false hmsb) hn r).2 fun c hc => hall c (List.mem_cons_of_mem _ hc)
        rw [hr, Option.bind_eq_bind, Option.bind_some, hr']
        exact ⟨r', rfl⟩
    · next hpos =>
      have hzero : mask = 0#32 := by
        rw [BitVec.toInt_eq_msb_cond, hmsb] at hpos
        exact BitVec.eq_of_toNat_eq (by simpa using hpos)
      have hnil : bits 0#32 = [] := by decide
      rw [hzero, hnil]
      exact ⟨fun ⟨_, hb, _⟩ => absurd hb List.not_mem_nil, fun _ => ⟨immediate, rfl⟩⟩

theorem flatMap_filter_perm {bs : List ℕ} (hbs : bs.Nodup) (l : List Registration) :
    (bs.flatMap fun b => l.filter fun r => r.bit = b).Perm (l.filter fun r => r.bit ∈ bs) := by
  induction bs with
  | nil => simp
  | cons b bs ih =>
    obtain ⟨hb, hbs⟩ := List.nodup_cons.mp hbs
    rw [List.flatMap_cons]
    refine ((ih hbs).append_left _).trans ?_
    have hsplit := List.filter_append_perm (fun r : Registration => r.bit = b) (l.filter fun r => r.bit ∈ b :: bs)
    rw [List.filter_filter, List.filter_filter] at hsplit
    refine .trans (.of_eq (congrArg₂ (· ++ ·) (List.filter_congr fun r _ => ?_) (List.filter_congr fun r _ => ?_))) hsplit
    · by_cases hr : r.bit = b <;> simp [hr]
    · by_cases hr : r.bit = b
      · simp [hr, hb]
      · simp [hr]

def threeHandlers : List Step := [.listen 3 ⟨1, 0⟩ 0, .listen 3 ⟨2, 0⟩ 0, .listen 5 ⟨3, 0⟩ 0]

end Sneks.Sysmsg.Handlers
