import Sneks.Lib.Segments
import Mathlib.Data.Int.Notation

/-!
# Arguments of boot modules

`break_argument_list` of `root/main.c`, with `strpbrk` and `strscan` of `lib/string.c`. It stores NULs
in the string that it is given. A pointer into the string is its offset there. A load or a store
outside an object is a fault, and so is an assertion that does not hold.
-/

namespace Sneks.Root.Arguments
open Lib

abbrev Object := List UInt8

inductive Fault
  /-- A load or a store past an object's end, or past that of an array. -/
  | outside
  | assertion
  /-- A store by way of NULL. -/
  | null
  /-- The rounds of the loop do not suffice. -/
  | unfinished
  deriving DecidableEq

/-- A string that the functions can be called with. An object is not larger than `PTRDIFF_MAX`. -/
structure CString where
  bytes : List UInt8
  nonzero : ∀ c ∈ bytes, c ≠ 0
  small : bytes.length + 1 < 2 ^ 31

def CString.object (s : CString) : Object := s.bytes ++ [0]

def load (m : Object) (i : ℕ) : Except Fault UInt8 := match m[i]? with
  | some c => .ok c
  | none => .error .outside

def store (m : Object) (i : ℕ) (c : UInt8) : Except Fault Object := if i < m.length then .ok (m.set i c) else .error .outside

def strlen : Object → Except Fault ℕ
  | [] => .error .outside
  | c :: s => if c = 0 then .ok 0 else (strlen s).map (· + 1)

abbrev Present := Fin 8 → BitVec 32

def slot (c : UInt8) : Fin 8 := ⟨c.toNat / 32, by have := c.toNat_lt; omega⟩

def bit (c : UInt8) : BitVec 32 := 1#32 <<< (c.toNat % 32)

def enter (present : Present) : Object → Except Fault Present
  | [] => .error .outside
  | c :: set => if c = 0 then .ok present else enter (Function.update present (slot c) (present (slot c) ||| bit c)) set

/-- The loop of `strscan` over `s`: how far it comes. -/
def scan (present : Present) (accept : Bool) : Object → Except Fault ℕ
  | [] => .error .outside
  | c :: s =>
    if c = 0 then .ok 0
    else if accept ^^ (present (slot c) &&& bit c != 0#32) then .ok 0
    else (scan present accept s).map (· + 1)

def strscan (s set : Object) (accept : Bool) : Except Fault ℕ := do
  let present ← enter (fun _ => 0) set
  scan present accept s

def strpbrk (m : Object) (s : ℕ) (needles : Object) : Except Fault (Option ℕ) := do
  let r ← strscan (m.drop s) needles false
  return if (← load m (s + r)) = 0 then none else some (s + r)

def int (n : ℕ) : ℤ := (BitVec.ofNat 32 n).toInt

/-- `args[nargs++] = cur`, after the assertion. The array has `len / 2 + 1` elements. -/
def pushArg (len : ℤ) (args : List ℕ) (cur : ℕ) : Except Fault (List ℕ) :=
  if ¬ int args.length < len.tdiv 2 + 1 then .error .assertion
  else if ¬ (args.length : ℤ) < len.tdiv 2 + 1 then .error .outside
  else .ok (args ++ [cur])

/-- The loop of `break_argument_list`, in `n` rounds at most. `args` are those there are already. -/
def rounds (len : ℤ) (delims : Object) : ℕ → Object → ℕ → List ℕ → Except Fault (Object × List ℕ)
  | 0, _, _, _ => .error .unfinished
  | n + 1, str, cur, args => do
    if (cur : ℤ) < len then
      let brk ← strpbrk str cur delims
      if brk = some cur then
        rounds len delims n (← store str cur 0) (cur + 1) args
      else
        let args ← pushArg len args cur
        match brk with
        | none => return (str, args)
        | some brk => rounds len delims n (← store str brk 0) (brk + 1) args
    else return (str, args)

structure Result where
  copy : List (Option ℕ)
  str : Object
  deriving DecidableEq

def blanks : Object := [32, 9, 10, 13, 0]

/-- `break_argument_list`. `malloc` says whether there is memory for the result. -/
def breakArgumentList (malloc : Bool) (str delims : Option Object) : Except Fault Result :=
  match str with
  | none => if malloc then .ok ⟨[none], []⟩ else .error .null
  | some str => do
    let len := int (← strlen str)
    let (str, args) ← rounds len (delims.getD blanks) (str.length + 1) str 0 []
    if malloc then return ⟨args.map some ++ [none], str⟩ else .error .null

def stringAt : Object → Option (List UInt8)
  | [] => none
  | c :: m => if c = 0 then some [] else (stringAt m).map (c :: ·)

def IsDelim (delims : Option CString) (c : UInt8) : Bool := decide (c ∈ delims.elim [32, 9, 10, 13] (·.bytes))

structure Splits (d : UInt8 → Bool) (text : List UInt8) (r : Result) (args : List ℕ) : Prop where
  copy : r.copy = args.map some ++ [none]
  order : args.Pairwise (· < ·)
  segments : ∀ i s, Segment d text i s ↔ i ∈ args ∧ stringAt (r.str.drop i) = some s
  kept : ∀ (i : ℕ) (c : UInt8), text[i]? = some c → d c = false → r.str[i]? = some c
  length : r.str.length = text.length + 1
  fits : args.length ≤ text.length / 2 + 1

variable {d : UInt8 → Bool} {t set : List UInt8} {c : UInt8} {i j k n : ℕ}

-- Searching for a delimiter

theorem ok_bind {α β : Type} (x : α) (f : α → Except Fault β) : (Except.ok x >>= f) = f x := rfl

def Has (present : Present) (c : UInt8) : Prop := present (slot c) &&& bit c ≠ 0#32

theorem getLsbD_bit (hi : i < 32) : (bit c).getLsbD i = decide (i = c.toNat % 32) := by
  rw [bit, BitVec.getLsbD_shiftLeft, BitVec.getLsbD_one, decide_eq_true hi]
  by_cases hlt : i < c.toNat % 32
  · rw [decide_eq_true hlt, decide_eq_false hlt.ne]
    rfl
  · have hsub : i - c.toNat % 32 = 0 ↔ i = c.toNat % 32 := by omega
    rw [decide_eq_false hlt, decide_eq_decide.mpr hsub]
    rfl

theorem has_iff {present : Present} : Has present c ↔ (present (slot c)).getLsbD (c.toNat % 32) = true := by
  have hlt : c.toNat % 32 < 32 := Nat.mod_lt _ (by decide)
  rw [Has, Ne, BitVec.eq_of_getLsbD_eq_iff]
  refine ⟨fun h => ?_, fun h hzero => ?_⟩
  · by_contra hnot
    refine h fun i hi => ?_
    rw [BitVec.getLsbD_and, getLsbD_bit hi, BitVec.getLsbD_zero, Bool.and_eq_false_iff]
    by_cases hic : i = c.toNat % 32
    · exact .inl (hic ▸ Bool.eq_false_iff.mpr hnot)
    · exact .inr (decide_eq_false hic)
  · have hbit := hzero (c.toNat % 32) hlt
    rw [BitVec.getLsbD_and, h, getLsbD_bit hlt, decide_eq_true rfl, BitVec.getLsbD_zero] at hbit
    cases hbit

theorem eq_of_slot {a c : UInt8} (hslot : slot c = slot a) (hmod : c.toNat % 32 = a.toNat % 32) : c = a := by
  have hdiv : c.toNat / 32 = a.toNat / 32 := congrArg Fin.val hslot
  exact UInt8.toNat_inj.mp (by omega)

theorem has_update {present : Present} {a : UInt8} :
    Has (Function.update present (slot a) (present (slot a) ||| bit a)) c ↔ Has present c ∨ c = a := by
  have hlt : c.toNat % 32 < 32 := Nat.mod_lt _ (by decide)
  rw [has_iff, has_iff]
  by_cases hslot : slot c = slot a
  · rw [hslot, Function.update_self, BitVec.getLsbD_or, Bool.or_eq_true, getLsbD_bit hlt, decide_eq_true_iff]
    exact or_congr Iff.rfl ⟨eq_of_slot hslot, fun h => h ▸ rfl⟩
  · rw [Function.update_of_ne hslot]
    exact ⟨.inl, fun h => h.resolve_right fun heq => hslot (heq ▸ rfl)⟩

theorem enter_spec (h : ∀ c ∈ set, c ≠ 0) (present : Present) :
    ∃ p, enter present (set ++ [0]) = .ok p ∧ ∀ c, Has p c ↔ Has present c ∨ c ∈ set := by
  induction set generalizing present with
  | nil => exact ⟨present, rfl, fun c => by simp⟩
  | cons a set ih =>
    obtain ⟨p, hp, hhas⟩ := ih (fun c hc => h c (List.mem_cons_of_mem a hc))
      (Function.update present (slot a) (present (slot a) ||| bit a))
    refine ⟨p, ?_, fun c => ?_⟩
    · rw [List.cons_append, enter, if_neg (h a List.mem_cons_self), hp]
    · rw [hhas, has_update, List.mem_cons, or_assoc]

theorem scan_spec {present : Present} (ht : ∀ c ∈ t, c ≠ 0) (hd : ∀ c, Has present c ↔ d c = true) :
    scan present false (t ++ [0]) = .ok (t.findIdx d) := by
  induction t with
  | nil => rfl
  | cons c t ih =>
    have hc : (false ^^ (present (slot c) &&& bit c != 0#32)) = d c := by
      rw [Bool.false_xor, Bool.eq_iff_iff, bne_iff_ne]
      exact hd c
    rw [List.cons_append, scan, if_neg (ht c List.mem_cons_self), hc, List.findIdx_cons,
      ih fun c hc => ht c (List.mem_cons_of_mem _ hc)]
    cases d c <;> rfl

theorem strscan_spec (ht : ∀ c ∈ t, c ≠ 0) (hset : ∀ c ∈ set, c ≠ 0) :
    strscan (t ++ [0]) (set ++ [0]) false = .ok (t.findIdx (· ∈ set)) := by
  obtain ⟨p, hp, hhas⟩ := enter_spec hset (fun _ => 0)
  have hd : ∀ c, Has p c ↔ decide (c ∈ set) = true := by
    intro c
    rw [hhas, decide_eq_true_iff, or_iff_right]
    rintro h
    exact h (BitVec.zero_and)
  show (enter (fun _ => 0) (set ++ [0])).bind (fun present => scan present false (t ++ [0])) = _
  rw [hp]
  exact scan_spec ht hd

-- The string

/-- The object after the rounds up to `k`: the delimiters before it are NULs. -/
def wiped (d : UInt8 → Bool) (t : List UInt8) (k : ℕ) : Object :=
  (t.mapIdx fun i c => if i < k ∧ d c = true then 0 else c) ++ [0]

@[simp] theorem length_wiped : (wiped d t k).length = t.length + 1 := by
  rw [wiped, List.length_append, List.length_mapIdx, List.length_singleton]

theorem wiped_zero : wiped d t 0 = t ++ [0] := by
  rw [wiped]
  congr 1
  apply List.ext_getElem?
  intro i
  rw [List.getElem?_mapIdx]
  cases t[i]? with
  | none => rfl
  | some c => simp

theorem wiped_getElem? (hi : i < t.length) : (wiped d t k)[i]? = some (if i < k ∧ d t[i] = true then 0 else t[i]) := by
  rw [wiped, List.getElem?_append_left (by rwa [List.length_mapIdx]), List.getElem?_mapIdx, List.getElem?_eq_getElem hi]
  rfl

theorem wiped_last : (wiped d t k)[t.length]? = some 0 := by
  rw [wiped, List.getElem?_append_right (by rw [List.length_mapIdx]), List.length_mapIdx, Nat.sub_self]
  rfl

theorem drop_wiped (hk : k ≤ t.length) : (wiped d t k).drop k = t.drop k ++ [0] := by
  rw [wiped, List.drop_append_of_le_length (by rwa [List.length_mapIdx])]
  congr 1
  apply List.ext_getElem?
  intro i
  have hnot : ¬ k + i < k := by omega
  rw [List.getElem?_drop, List.getElem?_drop, List.getElem?_mapIdx]
  cases t[k + i]? with
  | none => rfl
  | some c => simp [hnot]

theorem wiped_set (hk : k ≤ i) (hi : i < t.length) (hd : d t[i] = true)
    (hclear : ∀ j (hj : j < t.length), k ≤ j → j < i → d t[j] = false) :
    (wiped d t k).set i 0 = wiped d t (i + 1) := by
  apply List.ext_getElem?
  intro j
  rw [List.getElem?_set, length_wiped]
  rcases Nat.lt_trichotomy j t.length with hj | rfl | hj
  · rw [wiped_getElem? hj, wiped_getElem? hj]
    by_cases hij : i = j
    · subst hij
      simp [hd, Nat.lt_succ_of_lt hi]
    · rw [if_neg hij]
      congr 2
      by_cases hbetween : k ≤ j ∧ j < i
      · simp [hclear j hj hbetween.1 hbetween.2]
      · have hsame : j < k ↔ j < i + 1 := by omega
        rw [hsame]
  · rw [if_neg hi.ne, wiped_last, wiped_last]
  · rw [if_neg (by omega), List.getElem?_eq_none (by rw [length_wiped]; omega), List.getElem?_eq_none (by rw [length_wiped]; omega)]

theorem wiped_clear (hclear : ∀ j (hj : j < t.length), k ≤ j → d t[j] = false) :
    wiped d t k = wiped d t t.length := by
  rw [wiped, wiped]
  congr 1
  apply List.ext_getElem?
  intro j
  rw [List.getElem?_mapIdx, List.getElem?_mapIdx]
  by_cases hj : j < t.length
  · rw [List.getElem?_eq_getElem hj]
    by_cases hjk : j < k
    · simp [hjk, hj]
    · simp [hclear j hj (Nat.not_lt.mp hjk)]
  · rw [List.getElem?_eq_none (Nat.not_lt.mp hj)]
    rfl

theorem strpbrk_wiped (ht : ∀ c ∈ t, c ≠ 0) (hset : ∀ c ∈ set, c ≠ 0) (hk : k ≤ t.length) {r : ℕ}
    (hr : r = (t.drop k).findIdx (· ∈ set)) :
    strpbrk (wiped (· ∈ set) t k) k (set ++ [0]) = .ok (if k + r < t.length then some (k + r) else none) := by
  have hscan : strscan ((wiped (· ∈ set) t k).drop k) (set ++ [0]) false = .ok r := by
    rw [drop_wiped hk, hr]
    exact strscan_spec (fun c hc => ht c (List.mem_of_mem_drop hc)) hset
  have hle : k + r ≤ t.length := by
    have hlen : (t.drop k).findIdx (· ∈ set) ≤ (t.drop k).length := List.findIdx_le_length
    rw [List.length_drop] at hlen
    omega
  show (strscan _ _ _).bind _ = _
  rw [hscan]
  show (load (wiped (· ∈ set) t k) (k + r)).bind _ = _
  rcases Nat.lt_or_eq_of_le hle with hlt | heq
  · have hc : (wiped (· ∈ set) t k)[k + r]? = some t[k + r] := by
      rw [wiped_getElem? hlt, if_neg (by omega)]
    have hne : t[k + r] ≠ 0 := ht _ (List.getElem_mem hlt)
    rw [load, hc, if_pos hlt]
    show Except.ok (if t[k + r] = 0 then none else some (k + r)) = _
    rw [if_neg hne]
  · rw [load, heq, wiped_last, if_neg (Nat.lt_irrefl _)]
    rfl

-- The loop

/-- What holds where a round starts at `cur`. -/
structure Head (d : UInt8 → Bool) (t : List UInt8) (cur : ℕ) (args : List ℕ) : Prop where
  le : cur ≤ t.length
  left : cur = 0 ∨ ∃ c, t[cur - 1]? = some c ∧ d c = true
  order : args.Pairwise (· < ·)
  starts : ∀ i, i ∈ args ↔ i < cur ∧ Starts d t i
  count : 2 * args.length ≤ cur

structure Done (d : UInt8 → Bool) (t : List UInt8) (args : List ℕ) : Prop where
  order : args.Pairwise (· < ·)
  starts : ∀ i, i ∈ args ↔ Starts d t i
  fits : args.length ≤ t.length / 2 + 1

variable {args : List ℕ} {cur r : ℕ}

theorem Head.done (h : Head d t t.length args) : Done d t args where
  order := h.order
  starts i := (h.starts i).trans (and_iff_right_of_imp Starts.lt)
  fits := by
    have := h.count
    omega

theorem lt_succ_iff_of_starts (hstart : Starts d t i) (hk : k < t.length) (hd : d t[k] = true) : i < k + 1 ↔ i < k := by
  refine ⟨fun hle => Nat.lt_of_le_of_ne (Nat.le_of_lt_succ hle) ?_, Nat.lt_succ_of_lt⟩
  rintro rfl
  obtain ⟨c, hc, hfalse⟩ := hstart.first
  rw [List.getElem?_eq_getElem hk, Option.some.injEq] at hc
  rw [hc, hfalse] at hd
  cases hd

theorem Head.skip (h : Head d t cur args) (hlt : cur < t.length) (hd : d t[cur] = true) : Head d t (cur + 1) args where
  le := hlt
  left := .inr ⟨t[cur], List.getElem?_eq_getElem hlt, hd⟩
  order := h.order
  starts i := by
    rw [h.starts]
    exact and_congr_left fun hstart => (lt_succ_iff_of_starts hstart hlt hd).symm
  count := Nat.le_succ_of_le h.count

theorem Head.starts_run (h : Head d t cur args) (hr : 0 < r) (hle : cur + r ≤ t.length)
    (hclear : ∀ j (hj : j < t.length), cur ≤ j → j < cur + r → d t[j] = false) (i : ℕ) :
    i ∈ args ++ [cur] ↔ i < cur + r ∧ Starts d t i := by
  rw [List.mem_append, List.mem_singleton, h.starts]
  constructor
  · rintro (⟨hlt, hstart⟩ | rfl)
    · exact ⟨Nat.lt_add_right r hlt, hstart⟩
    · have hlt : i < t.length := by omega
      exact ⟨Nat.lt_add_of_pos_right hr, ⟨t[i], List.getElem?_eq_getElem hlt, hclear i hlt le_rfl (by omega)⟩, h.left⟩
  · rintro ⟨hlt, hstart⟩
    rcases Nat.lt_trichotomy i cur with hbefore | rfl | hafter
    · exact .inl ⟨hbefore, hstart⟩
    · exact .inr rfl
    · have hprev : i - 1 < t.length := by omega
      obtain hzero | ⟨c, hc, hd⟩ := hstart.left
      · omega
      · rw [List.getElem?_eq_getElem hprev, Option.some.injEq] at hc
        rw [← hc, hclear (i - 1) hprev (by omega) (by omega)] at hd
        cases hd

theorem Head.order_push (h : Head d t cur args) : (args ++ [cur]).Pairwise (· < ·) := by
  refine List.pairwise_append.mpr ⟨h.order, List.pairwise_singleton _ _, fun i hi j hj => ?_⟩
  rw [List.mem_singleton.mp hj]
  exact ((h.starts i).mp hi).1

theorem Head.push (h : Head d t cur args) (hr : 0 < r) (hlt : cur + r < t.length) (hd : d t[cur + r] = true)
    (hclear : ∀ j (hj : j < t.length), cur ≤ j → j < cur + r → d t[j] = false) : Head d t (cur + r + 1) (args ++ [cur]) where
  le := hlt
  left := .inr ⟨t[cur + r], List.getElem?_eq_getElem hlt, hd⟩
  order := h.order_push
  starts i := by
    rw [h.starts_run hr hlt.le hclear]
    exact and_congr_left fun hstart => (lt_succ_iff_of_starts hstart hlt hd).symm
  count := by
    have := h.count
    rw [List.length_append, List.length_singleton]
    omega

theorem Head.last (h : Head d t cur args) (hlt : cur < t.length)
    (hclear : ∀ j (hj : j < t.length), cur ≤ j → d t[j] = false) : Done d t (args ++ [cur]) where
  order := h.order_push
  starts i := by
    have hrun := h.starts_run (r := t.length - cur) (by omega) (by omega) (fun j hj hle _ => hclear j hj hle) i
    refine hrun.trans (and_iff_right_of_imp fun hstart => ?_)
    have := hstart.lt
    omega
  fits := by
    have := h.count
    rw [List.length_append, List.length_singleton]
    omega

theorem int_eq (h : n < 2 ^ 31) : int n = n := by
  rw [int, BitVec.toInt_ofNat', Int.bmod_eq_of_le] <;> omega

theorem pushArg_ok (h : Head d t cur args) (hlt : cur < t.length) (hsmall : t.length < 2 ^ 31) :
    pushArg t.length args cur = .ok (args ++ [cur]) := by
  have hcount := h.count
  have hroom : (args.length : ℤ) < (t.length : ℤ).tdiv 2 + 1 := by
    rw [Int.tdiv_eq_ediv_of_nonneg (Int.natCast_nonneg _)]
    omega
  rw [pushArg, int_eq (by omega), if_neg (not_not_intro hroom), if_neg (not_not_intro hroom)]

theorem rounds_spec (ht : ∀ c ∈ t, c ≠ 0) (hset : ∀ c ∈ set, c ≠ 0) (hsmall : t.length < 2 ^ 31)
    (h : Head (· ∈ set) t cur args) (hn : t.length - cur < n) :
    ∃ args', rounds t.length (set ++ [0]) n (wiped (· ∈ set) t cur) cur args = .ok (wiped (· ∈ set) t t.length, args') ∧
      Done (· ∈ set) t args' := by
  induction n generalizing cur args with
  | zero => omega
  | succ n ih =>
    rw [rounds]
    by_cases hlt : cur < t.length
    · rw [if_pos (Int.ofNat_lt.mpr hlt), strpbrk_wiped ht hset hlt.le rfl]
      generalize hr : (t.drop cur).findIdx (· ∈ set) = r
      have hclear : ∀ j (hj : j < t.length), cur ≤ j → j < cur + r → decide (t[j] ∈ set) = false := by
        intro j hj hle hlt
        obtain ⟨x, rfl⟩ := Nat.exists_eq_add_of_le hle
        have hx : x < (t.drop cur).findIdx (· ∈ set) := by omega
        have hnot := List.not_of_lt_findIdx hx
        rwa [List.getElem_drop] at hnot
      have hfound : ∀ hlt : cur + r < t.length, decide (t[cur + r] ∈ set) = true := by
        intro hlt
        have hlen : (t.drop cur).findIdx (· ∈ set) < (t.drop cur).length := by
          rw [hr, List.length_drop]
          omega
        have hget := List.findIdx_getElem (w := hlen)
        simp only [List.getElem_drop, hr] at hget
        exact hget
      have hstore : ∀ hlt : cur + r < t.length,
          store (wiped (· ∈ set) t cur) (cur + r) 0 = .ok (wiped (· ∈ set) t (cur + r + 1)) := by
        intro hlt
        rw [store, if_pos (by rw [length_wiped]; omega), wiped_set (Nat.le_add_right _ _) hlt (hfound hlt) hclear]
      rw [ok_bind]
      rcases Nat.eq_zero_or_pos r with rfl | hpos
      · -- a delimiter
        have hstop : (if cur + 0 < t.length then some (cur + 0) else none) = some cur := if_pos hlt
        have hstore := hstore hlt
        rw [Nat.add_zero] at hstore
        rw [if_pos hstop, hstore, ok_bind]
        exact ih (h.skip hlt (hfound hlt)) (by omega)
      · rw [if_neg (by split <;> simp; omega), pushArg_ok h hlt hsmall, ok_bind]
        by_cases hmore : cur + r < t.length
        · rw [if_pos hmore]
          show ∃ args', (store _ (cur + r) 0).bind _ = _ ∧ _
          rw [hstore hmore]
          exact ih (h.push hpos hmore (hfound hmore) hclear) (by omega)
        · rw [if_neg hmore]
          have hclear : ∀ j (hj : j < t.length), cur ≤ j → decide (t[j] ∈ set) = false :=
            fun j hj hle => hclear j hj hle (by omega)
          refine ⟨args ++ [cur], ?_, h.last hlt hclear⟩
          show Except.ok (_, _) = _
          rw [wiped_clear hclear]
    · obtain rfl : cur = t.length := Nat.le_antisymm h.le (Nat.not_lt.mp hlt)
      rw [if_neg (Int.ofNat_lt.not.mpr hlt)]
      exact ⟨args, rfl, h.done⟩

-- The arguments

theorem strlen_eq (ht : ∀ c ∈ t, c ≠ 0) : strlen (t ++ [0]) = .ok t.length := by
  induction t with
  | nil => rfl
  | cons c t ih =>
    rw [List.cons_append, strlen, if_neg (ht c List.mem_cons_self), ih fun c hc => ht c (List.mem_cons_of_mem _ hc)]
    rfl

theorem stringAt_blanked (ht : ∀ c ∈ t, c ≠ 0) :
    stringAt (t.map (fun c => if d c = true then 0 else c) ++ [0]) = some (t.takeWhile (!d ·)) := by
  induction t with
  | nil => rfl
  | cons c t ih =>
    rw [List.map_cons, List.cons_append, stringAt]
    cases hd : d c with
    | true => rw [if_pos rfl, if_pos rfl, List.takeWhile_cons_of_neg (by rw [hd]; decide)]
    | false =>
      have hc : (if false = true then 0 else c) ≠ 0 := ht c List.mem_cons_self
      rw [if_neg hc, ih fun c hc => ht c (List.mem_cons_of_mem _ hc), List.takeWhile_cons_of_pos (by rw [hd]; rfl)]
      rfl

theorem stringAt_wiped (ht : ∀ c ∈ t, c ≠ 0) (hi : i < t.length) :
    stringAt ((wiped d t t.length).drop i) = some ((t.drop i).takeWhile (!d ·)) := by
  rw [← stringAt_blanked fun c hc => ht c (List.mem_of_mem_drop hc), wiped,
    List.drop_append_of_le_length (by rw [List.length_mapIdx]; exact hi.le)]
  congr 2
  apply List.ext_getElem?
  intro j
  rw [List.getElem?_drop, List.getElem?_mapIdx, List.getElem?_map, List.getElem?_drop]
  by_cases hj : i + j < t.length
  · rw [List.getElem?_eq_getElem hj]
    simp [hj]
  · rw [List.getElem?_eq_none (Nat.not_lt.mp hj)]
    rfl

theorem splits_wiped {copy : List (Option ℕ)} (ht : ∀ c ∈ t, c ≠ 0) (hcopy : copy = args.map some ++ [none])
    (h : Done d t args) : Splits d t ⟨copy, wiped d t t.length⟩ args where
  copy := hcopy
  order := h.order
  segments i s := by
    rw [segment_iff, h.starts]
    refine and_congr_right fun hstart => ?_
    rw [stringAt_wiped ht hstart.lt, Option.some.injEq]
    exact eq_comm
  kept i c hc hd := by
    obtain ⟨hi, rfl⟩ := List.getElem?_eq_some_iff.mp hc
    rw [wiped_getElem? hi, if_neg (by rw [hd]; simp)]
  length := length_wiped
  fits := h.fits

theorem delims_eq (delims : Option CString) : ∃ set : List UInt8, (∀ c ∈ set, c ≠ 0) ∧
    (delims.map CString.object).getD blanks = set ++ [0] ∧ IsDelim delims = fun c => decide (c ∈ set) := by
  cases delims with
  | none => exact ⟨[32, 9, 10, 13], by simp, rfl, rfl⟩
  | some s => exact ⟨s.bytes, s.nonzero, rfl, rfl⟩

/-- **The arguments are the segments of the string.** With memory for the result the function returns it;
without, it stores by way of NULL. No assertion fails, and no store is outside the array or the string. -/
theorem breakArgumentList_splits (malloc : Bool) (str : CString) (delims : Option CString) :
    ∃ r args, Splits (IsDelim delims) str.bytes r args ∧
      breakArgumentList malloc (some str.object) (delims.map CString.object) = if malloc then .ok r else .error .null := by
  obtain ⟨set, hset, hobject, hdelim⟩ := delims_eq delims
  have hsmall : str.bytes.length < 2 ^ 31 := Nat.lt_of_succ_lt str.small
  have hhead : Head (· ∈ set) str.bytes 0 [] := ⟨Nat.zero_le _, .inl rfl, .nil, fun i => by simp, Nat.le_refl _⟩
  obtain ⟨args, hrounds, hdone⟩ :=
    rounds_spec (n := (str.bytes ++ [0]).length + 1) str.nonzero hset hsmall hhead (by rw [List.length_append]; omega)
  rw [wiped_zero] at hrounds
  rw [hdelim]
  refine ⟨⟨args.map some ++ [none], _⟩, args, splits_wiped str.nonzero rfl hdone, ?_⟩
  show (strlen str.object).bind _ = _
  rw [CString.object, strlen_eq str.nonzero]
  show (rounds (int str.bytes.length) _ _ _ 0 []).bind _ = _
  rw [int_eq hsmall, hobject, hrounds]
  rfl

end Sneks.Root.Arguments
