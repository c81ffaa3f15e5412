import Sneks.Stdio.Vsnprintf

/-!
# Numbers printed and read

`strtoull` and its siblings (`lib/strtol.c`) go through `strtoull_max`, which reads a number in a
base up to a limit. What `vsnprintf` prints of a 64-bit value is read back: the text is spaces, a
sign, zeros and the digits, each of them perhaps none.
-/

namespace Sneks.Stdio
open Lib

inductive Errno
  | EINVAL | ERANGE
  deriving DecidableEq

structure Parsed where
  val : BitVec 64
  fin : Option (List Char)
  errno : Option Errno
  deriving DecidableEq

def toLower (c : Char) : Char := if 'A' ≤ c ∧ c ≤ 'Z' then Char.ofNat (c.toNat + 32) else c

/-- The `switch` of the loop: the digit, or `base` where there is none. -/
def digitOf (base : ℕ) (c : Char) : ℕ :=
  if '0' ≤ c ∧ c ≤ '9' then c.toNat - '0'.toNat
  else if 'a' ≤ c ∧ c ≤ 'z' then 10 + (c.toNat - 'a'.toNat)
  else base

/-- The loop: the value, whether to negate it, whether nothing was converted, whether there were
too many digits, and the rest. -/
def parseDigits (base max acc : ℕ) (minus noconv : Bool) : List Char → ℕ × Bool × Bool × Bool × List Char
  | [] => (acc, minus, noconv, false, [])
  | c :: str =>
    let digit := digitOf base (toLower c)
    if base ≤ digit then (acc, minus, noconv, false, c :: str)
    else if max / base < acc ∨ max - acc * base < digit then (2 ^ 64 - 1, false, noconv, true, str)
    else parseDigits base max (acc * base + digit) minus false str

def parsePrefix (base : ℕ) (str : List Char) : ℕ × List Char :=
  if (base = 0 ∨ base = 16) ∧ str.head? = some '0' ∧ (str.tail.head?.map toLower) = some 'x' then (16, str.drop 2)
  else if base = 0 ∧ str.head? = some '0' then (8, str.tail)
  else if base = 0 then (10, str)
  else (base, str)

def strtoullMax (str : List Char) (base max : ℕ) : Parsed :=
  if base ≠ 0 ∧ (base < 2 ∨ 36 < base) then ⟨0, none, some .EINVAL⟩
  else
    let s := str.dropWhile isSpace
    let minus : Bool := s.head? = some '-'
    let s := if minus ∨ s.head? = some '+' then s.tail else s
    let (base, s) := parsePrefix base s
    let (acc, minus, noconv, range, fin) := parseDigits base max 0 minus true s
    ⟨if minus then -BitVec.ofNat 64 acc else BitVec.ofNat 64 acc, some (if noconv then str else fin),
      if range then some .ERANGE else none⟩

def strtoull (str : List Char) (base : ℕ) : Parsed := strtoullMax str base (2 ^ 64 - 1)

section Digits

variable {base max : ℕ} {minus noconv : Bool}

theorem digitOf_digitChar {d : ℕ} (hd : d < 16) : digitOf base (toLower (Nat.digitChar d)) = d := by
  have hval : ∀ d < 16, toLower (Nat.digitChar d) = Nat.digitChar d ∧
      (('0' ≤ Nat.digitChar d ∧ Nat.digitChar d ≤ '9') ∧ (Nat.digitChar d).toNat - '0'.toNat = d ∨
        ¬('0' ≤ Nat.digitChar d ∧ Nat.digitChar d ≤ '9') ∧ ('a' ≤ Nat.digitChar d ∧ Nat.digitChar d ≤ 'z') ∧
          10 + ((Nat.digitChar d).toNat - 'a'.toNat) = d) := by decide
  obtain ⟨hlower, ⟨hdec, hd⟩ | ⟨hdec, hlet, hd⟩⟩ := hval d hd
  · rw [hlower, digitOf, if_pos hdec, hd]
  · rw [hlower, digitOf, if_neg hdec, if_pos hlet, hd]

theorem parseDigits_cons {acc d : ℕ} (hbase : base ≤ 16) (hd : d < base) (hfits : acc * base + d ≤ max)
    (rest : List Char) : parseDigits base max acc minus noconv (Nat.digitChar d :: rest) =
      parseDigits base max (acc * base + d) minus false rest := by
  have hlim : acc ≤ max / base := (Nat.le_div_iff_mul_le (by omega)).mpr (by omega)
  rw [parseDigits, digitOf_digitChar (by omega)]
  rw [if_neg (by omega), if_neg (by omega)]

theorem parseDigits_toDigits (minus noconv : Bool) {n : ℕ} (hlow : 1 < base) (hbase : base ≤ 16) (hn : n ≤ max) (rest : List Char) :
    parseDigits base max 0 minus noconv (Nat.toDigits base n ++ rest) = parseDigits base max n minus false rest := by
  induction n using Nat.strong_induction_on generalizing rest with
  | _ n ih =>
    by_cases hlt : n < base
    · rw [Nat.toDigits_of_lt_base hlt, List.singleton_append, parseDigits_cons hbase hlt (by omega), Nat.zero_mul,
        Nat.zero_add]
    · have hdiv : n / base < n := Nat.div_lt_self (by omega) hlow
      have hmod : n / base * base + n % base = n := Nat.div_add_mod' n base
      have hdigit : n % base < base := Nat.mod_lt n (by omega)
      rw [Nat.toDigits_of_base_le hlow (Nat.not_lt.mp hlt), List.append_assoc, ih _ hdiv (by omega)]
      rw [List.singleton_append, parseDigits_cons hbase hdigit (by omega), hmod]

theorem parseDigits_zeros (max : ℕ) (minus noconv : Bool) (hlow : 1 < base) (hbase : base ≤ 16) (k : ℕ)
    (rest : List Char) :
    ∃ noconv', parseDigits base max 0 minus noconv (List.replicate k '0' ++ rest) =
      parseDigits base max 0 minus noconv' rest := by
  induction k generalizing noconv with
  | zero => exact ⟨noconv, rfl⟩
  | succ k ih =>
    obtain ⟨noconv', hrest⟩ := ih false
    refine ⟨noconv', ?_⟩
    rw [List.replicate_succ, List.cons_append, show '0' = Nat.digitChar 0 from rfl,
      parseDigits_cons hbase (by omega) (by omega), Nat.zero_mul]
    exact hrest

theorem exists_of_mem_toDigits {n : ℕ} {c : Char} (hlow : 1 < base) (hc : c ∈ Nat.toDigits base n) :
    ∃ d < base, c = Nat.digitChar d := by
  induction n using Nat.strong_induction_on with
  | _ n ih =>
    by_cases hlt : n < base
    · rw [Nat.toDigits_of_lt_base hlt, List.mem_singleton] at hc
      exact ⟨n, hlt, hc⟩
    · rw [Nat.toDigits_of_base_le hlow (Nat.not_lt.mp hlt), List.mem_append, List.mem_singleton] at hc
      rcases hc with hc | hc
      · exact ih _ (Nat.div_lt_self (by omega) hlow) hc
      · exact ⟨n % base, Nat.mod_lt n (by omega), hc⟩

theorem digitChar_apart {d : ℕ} (hd : d < 16) : isSpace (Nat.digitChar d) = false ∧ Nat.digitChar d ≠ '-' ∧
    Nat.digitChar d ≠ '+' ∧ toLower (Nat.digitChar d) ≠ 'x' ∧ Nat.digitChar d ≠ NUL := by
  have hall : ∀ d < 16, isSpace (Nat.digitChar d) = false ∧ Nat.digitChar d ≠ '-' ∧
      Nat.digitChar d ≠ '+' ∧ toLower (Nat.digitChar d) ≠ 'x' ∧ Nat.digitChar d ≠ NUL := by decide
  exact hall d hd

end Digits

def paddedText (spaces zeros base : ℕ) (negative : Bool) (n : ℕ) : List Char :=
  List.replicate spaces ' ' ++ ((if negative then ['-'] else []) ++ (List.replicate zeros '0' ++ Nat.toDigits base n))

section Read

variable {base : ℕ}

theorem exists_of_mem_body {zeros n : ℕ} {c : Char} (hlow : 1 < base)
    (hc : c ∈ List.replicate zeros '0' ++ Nat.toDigits base n) : ∃ d < base, c = Nat.digitChar d := by
  rcases List.mem_append.mp hc with hc | hc
  · exact ⟨0, by omega, (List.eq_of_mem_replicate hc).trans rfl⟩
  · exact exists_of_mem_toDigits hlow hc

theorem parsePrefix_body (hlow : 1 < base) (hbase : base ≤ 16) (zeros n : ℕ) :
    parsePrefix base (List.replicate zeros '0' ++ Nat.toDigits base n) =
      (base, List.replicate zeros '0' ++ Nat.toDigits base n) := by
  have hx : ((List.replicate zeros '0' ++ Nat.toDigits base n).tail.head?.map toLower) ≠ some 'x' := by
    intro hsome
    obtain ⟨c, hc, hlower⟩ := Option.map_eq_some_iff.mp hsome
    obtain ⟨d, hd, rfl⟩ := exists_of_mem_body hlow (List.mem_of_mem_tail (List.mem_of_head? hc))
    exact (digitChar_apart (by omega)).2.2.2.1 hlower
  unfold parsePrefix
  rw [if_neg (fun h => hx h.2.2), if_neg (by omega), if_neg (by omega)]

theorem strtoull_paddedText (hlow : 1 < base) (hbase : base ≤ 16) (spaces zeros : ℕ) (negative : Bool) {n : ℕ}
    (hn : n < 2 ^ 64) : strtoull (paddedText spaces zeros base negative n) base =
      ⟨if negative then -BitVec.ofNat 64 n else BitVec.ofNat 64 n, some [], none⟩ := by
  set body := List.replicate zeros '0' ++ Nat.toDigits base n with hdef
  obtain ⟨c, rest, hbody⟩ : ∃ c rest, body = c :: rest :=
    List.exists_cons_of_ne_nil fun hnil => Nat.toDigits_ne_nil (List.append_eq_nil_iff.mp hnil).2
  have hmem : c ∈ List.replicate zeros '0' ++ Nat.toDigits base n := by
    rw [← hdef, hbody]
    exact List.mem_cons_self
  obtain ⟨d, hd, hc⟩ := exists_of_mem_body hlow hmem
  obtain ⟨hspace, hminus, hplus, -⟩ := digitChar_apart (show d < 16 by omega)
  rw [← hc] at hspace hminus hplus
  have hskip : (paddedText spaces zeros base negative n).dropWhile isSpace =
      (if negative then ['-'] else []) ++ body := by
    rw [paddedText, List.dropWhile_append_of_pos fun a ha => List.eq_of_mem_replicate ha ▸ rfl, ← hdef, hbody]
    cases negative with
    | false => exact List.dropWhile_cons_of_neg (by simp [hspace])
    | true => exact List.dropWhile_cons_of_neg (by decide)
  have hparse : ∀ minus, parseDigits base (2 ^ 64 - 1) 0 minus true body = (n, minus, false, false, []) := by
    intro minus
    obtain ⟨noconv, hzeros⟩ := parseDigits_zeros (2 ^ 64 - 1) minus true hlow hbase zeros (Nat.toDigits base n)
    have hdigits := parseDigits_toDigits minus noconv hlow hbase (show n ≤ 2 ^ 64 - 1 by omega) []
    rw [List.append_nil] at hdigits
    rw [hdef, hzeros, hdigits]
    rfl
  unfold strtoull strtoullMax
  rw [if_neg (by omega), hskip]
  cases negative with
  | false =>
    simp only [Bool.false_eq_true, if_false, List.nil_append, hbody, List.head?_cons, Option.some.injEq, hminus, hplus,
      decide_false, or_self]
    rw [← hbody, hdef, parsePrefix_body hlow hbase, ← hdef]
    simp only [hparse, Bool.false_eq_true, if_false]
  | true =>
    simp only [if_true, List.singleton_append, List.head?_cons, decide_true, true_or, List.tail_cons]
    rw [hdef, parsePrefix_body hlow hbase, ← hdef]
    simp only [hparse, Bool.false_eq_true, if_false, if_true]

end Read

-- A format with a width

theorem isDigit_iff (c : Char) : c.isDigit ↔ '0' ≤ c ∧ c ≤ '9' := by
  rw [Char.isDigit, Bool.and_eq_true, decide_eq_true_eq, decide_eq_true_eq]
  exact Iff.rfl

theorem digitOf_of_isDigit {c : Char} (hc : c.isDigit) : digitOf 10 (toLower c) = c.toNat - '0'.toNat := by
  obtain ⟨hlow, hhigh⟩ := (isDigit_iff c).mp hc
  have hupper : ¬('A' ≤ c ∧ c ≤ 'Z') := fun h => by
    have hletter : 65 ≤ c.toNat := h.1
    have hdigit : c.toNat ≤ 57 := hhigh
    omega
  rw [toLower, if_neg hupper, digitOf, if_pos ⟨hlow, hhigh⟩]

theorem le_digitOf_of_not_isDigit {c : Char} (hc : ¬c.isDigit) : 10 ≤ digitOf 10 (toLower c) := by
  unfold toLower
  split
  · rename_i hupper
    have hletters : ∀ k < 26, 10 ≤ digitOf 10 (Char.ofNat (65 + k + 32)) := by decide
    have hlow : 65 ≤ c.toNat := hupper.1
    have hhigh : c.toNat ≤ 90 := hupper.2
    have hletter := hletters (c.toNat - 65) (by omega)
    rwa [Nat.add_sub_of_le hlow] at hletter
  · rw [digitOf, if_neg fun h => hc ((isDigit_iff c).mpr h)]
    split
    · exact Nat.le_add_right _ _
    · exact le_rfl

theorem strtoulLoop_eq (acc : ℕ) (minus noconv : Bool) (str : List Char) :
    strtoulLoop acc minus noconv str =
      let (acc, minus, noconv, _, fin) := parseDigits 10 (2 ^ 32 - 1) acc minus noconv str
      (acc, minus, noconv, fin) := by
  induction str generalizing acc minus noconv with
  | nil => rfl
  | cons c str ih =>
    rw [strtoulLoop, parseDigits]
    by_cases hc : c.isDigit
    · have hlt : c.toNat - '0'.toNat < 10 := by
        have hhigh : c.toNat ≤ 57 := ((isDigit_iff c).mp hc).2
        rw [show '0'.toNat = 48 from rfl]
        omega
      rw [digitOf_of_isDigit hc, if_pos hc]
      dsimp only
      rw [if_neg (Nat.not_le.mpr hlt)]
      split
      · rfl
      · exact ih _ _ _
    · rw [if_neg hc, if_pos (le_digitOf_of_not_isDigit hc)]

theorem strtoul_toDigits {w : ℕ} (hw : w < 2 ^ 32) {c : Char} (hc : ¬c.isDigit) (rest : List Char) :
    strtoul (Nat.toDigits 10 w ++ c :: rest) = (BitVec.ofNat 32 w, c :: rest) := by
  obtain ⟨a, more, hdigits⟩ := List.exists_cons_of_ne_nil (Nat.toDigits_ne_nil : Nat.toDigits 10 w ≠ [])
  have hmem : a ∈ Nat.toDigits 10 w := by
    rw [hdigits]
    exact List.mem_cons_self
  obtain ⟨d, hd, ha⟩ := exists_of_mem_toDigits (by omega) hmem
  obtain ⟨hspace, hminus, hplus, -⟩ := digitChar_apart (show d < 16 by omega)
  rw [← ha] at hspace hminus hplus
  have hloop : strtoulLoop 0 false true (Nat.toDigits 10 w ++ c :: rest) = (w, false, false, c :: rest) := by
    rw [strtoulLoop_eq, parseDigits_toDigits false true (by omega) (by omega) (by omega), parseDigits,
      if_pos (le_digitOf_of_not_isDigit hc)]
  rw [hdigits, List.cons_append] at hloop ⊢
  simp only [strtoul, List.dropWhile_cons, hspace, Bool.false_eq_true, if_false, List.head?_cons, Option.some.injEq,
    hminus, hplus, decide_false, or_self, hloop]

inductive Conversion
  | u | x | o | b | d
  deriving DecidableEq

namespace Conversion

def letter : Conversion → Char
  | u => 'u'
  | x => 'x'
  | o => 'o'
  | b => 'b'
  | d => 'd'

def base : Conversion → ℕ
  | u | d => 10
  | x => 16
  | o => 8
  | b => 2

/-- `"%llu"` and the like, with a width if it is not zero. -/
def format (c : Conversion) (zero : Bool) (width : ℕ) : List Char :=
  '%' :: ((if zero then ['0'] else []) ++ ((if width = 0 then [] else Nat.toDigits 10 width) ++ ['l', 'l', c.letter]))

def param (c : Conversion) (zero : Bool) (width : ℕ) : FmtParam where
  shift := match c with | u | d => 0 | x => 4 | o => 3 | b => 1
  width := if width = 0 then -1 else BitVec.ofNat 32 width
  isSigned := c = d
  pad := if zero then '0' else ' '

end Conversion

def longArg (v : BitVec 64) : Va := fun k => if k = 0 then v.setWidth 32 else (v >>> 32).setWidth 32

theorem longArg_append (v : BitVec 64) : longArg v 1 ++ longArg v 0 = v := by
  apply BitVec.eq_of_toNat_eq
  have hv := v.isLt
  rw [BitVec.toNat_append, ← Nat.shiftLeft_add_eq_or_of_lt (longArg v 0).isLt]
  simp only [longArg, if_true, Nat.one_ne_zero, if_false, BitVec.toNat_setWidth, BitVec.toNat_ushiftRight,
    Nat.shiftRight_eq_div_pow, Nat.shiftLeft_eq]
  omega

theorem modifiers_mod {m m' : Mods} {c : Char} {rest rest' : List Char} (h : modifier m c rest = .mod m' rest') :
    modifiers m (c :: rest) = modifiers m' rest' := by
  rw [modifiers]
  split
  · rename_i hbad
    cases hbad.symm.trans h
  · rename_i hno
    cases hno.symm.trans h
  · rename_i hmod
    cases hmod.symm.trans h
    rfl

theorem modifiers_no {m : Mods} {c : Char} {rest : List Char} (h : modifier m c rest = .no) :
    modifiers m (c :: rest) = some (m, c, rest) := by
  rw [modifiers]
  split
  · rename_i hbad
    cases hbad.symm.trans h
  · rfl
  · rename_i hmod
    cases hmod.symm.trans h

theorem items_cons {strings : Word → List Char} {c : Char} {str rest : List Char} {ap ap' : Va} {it : Item}
    (h : next strings (c :: str) ap = some (it, rest, ap')) :
    items strings (c :: str) ap = (items strings rest ap').map (it :: ·) := by
  rw [items]
  split
  · rename_i hnone
    cases hnone.symm.trans h
  · rename_i hsome
    cases hsome.symm.trans h
    rfl

theorem modifier_digit {m : Mods} {c : Char} (hc : c.isDigit) (hzero : c ≠ '0') (rest : List Char) :
    modifier m c rest = .mod (if m.dot then { m with p.precision := (strtoul (c :: rest)).1 }
      else { m with p.width := (strtoul (c :: rest)).1 }) (strtoul (c :: rest)).2 := by
  unfold modifier
  split
  case h_14 =>
    have hquote : c ≠ Char.ofNat 39 := by
      rintro rfl
      revert hc
      decide
    rw [if_neg hquote, if_pos hc]
  all_goals
    first
    | exact absurd rfl hzero
    | exact absurd hc (by decide)

theorem toDigits_head {n : ℕ} (hn : 0 < n) {c : Char} {rest : List Char} (h : Nat.toDigits 10 n = c :: rest) :
    c.isDigit ∧ c ≠ '0' := by
  induction n using Nat.strong_induction_on generalizing c rest with
  | _ n ih =>
    by_cases hlt : n < 10
    · rw [Nat.toDigits_of_lt_base hlt] at h
      have hall : ∀ d < 10, 0 < d → (Nat.digitChar d).isDigit ∧ Nat.digitChar d ≠ '0' := by decide
      cases h
      exact hall n hlt hn
    · rw [Nat.toDigits_of_base_le (by omega) (Nat.not_lt.mp hlt)] at h
      obtain ⟨a, more, hfront⟩ := List.exists_cons_of_ne_nil (Nat.toDigits_ne_nil : Nat.toDigits 10 (n / 10) ≠ [])
      rw [hfront, List.cons_append] at h
      cases h
      exact ih (n / 10) (Nat.div_lt_self hn (by omega)) (by omega) hfront

theorem modifiers_width {m : Mods} (hdot : m.dot = false) (hm : m.p.width = -1) {width : ℕ} (hw : width < 2 ^ 32)
    (letter : Char) :
    modifiers m ((if width = 0 then [] else Nat.toDigits 10 width) ++ ['l', 'l', letter]) =
      modifiers { m with p.width := if width = 0 then -1 else BitVec.ofNat 32 width } ['l', 'l', letter] := by
  by_cases h0 : width = 0
  · rw [if_pos h0, if_pos h0, List.nil_append, ← hm]
  · rw [if_neg h0, if_neg h0]
    have hread := strtoul_toDigits hw (show ¬('l' : Char).isDigit by decide) ['l', letter]
    obtain ⟨a, more, hdigits⟩ := List.exists_cons_of_ne_nil (Nat.toDigits_ne_nil : Nat.toDigits 10 width ≠ [])
    obtain ⟨hdigit, hzero⟩ := toDigits_head (Nat.pos_of_ne_zero h0) hdigits
    have hmod := modifier_digit (m := m) hdigit hzero (more ++ ['l', 'l', letter])
    rw [hdigits, List.cons_append] at hread ⊢
    rw [modifiers_mod hmod, hread, hdot]
    rfl

namespace Conversion

def mods (zero : Bool) (width : ℕ) : Mods :=
  { p := { pad := if zero then '0' else ' ', width := if width = 0 then -1 else BitVec.ofNat 32 width }, longness := 2 }

variable {strings : Word → List Char}

theorem modifiers_long (c : Conversion) (m : Mods) (hm : m.longness = 0) :
    modifiers m ['l', 'l', c.letter] = some ({ m with longness := 2 }, c.letter, []) := by
  have hone : modifier m 'l' ['l', c.letter] = .mod { m with longness := 1 } ['l', c.letter] := by
    rw [modifier, hm]
    rfl
  have hno : modifier { m with longness := 2 } c.letter [] = .no := by cases c <;> rfl
  have htwo : modifier { m with longness := 1 } 'l' [c.letter] = .mod { m with longness := 2 } [c.letter] := rfl
  exact (modifiers_mod hone).trans ((modifiers_mod htwo).trans (modifiers_no hno))

theorem modifiers_format (c : Conversion) (zero : Bool) {width : ℕ} (hw : width < 2 ^ 32) :
    modifiers {} (c.format zero width).tail = some (mods zero width, c.letter, []) := by
  cases zero with
  | false =>
    refine (modifiers_width rfl rfl hw c.letter).trans ?_
    exact modifiers_long c _ rfl
  | true =>
    refine (modifiers_mod (rfl : modifier {} '0' _ = .mod { p := { pad := '0' } } _)).trans ?_
    refine (modifiers_width rfl rfl hw c.letter).trans ?_
    exact modifiers_long c _ rfl

theorem convert_long (c : Conversion) (zero : Bool) (width : ℕ) (ap : Va) :
    convert strings (mods zero width) c.letter ap = some (.number (c.param zero width) (ap 1 ++ ap 0), ap.drop 2) := by
  cases c <;> rfl

theorem next_format (c : Conversion) (zero : Bool) {width : ℕ} (hw : width < 2 ^ 32) (v : BitVec 64) :
    next strings (c.format zero width) (longArg v) =
      some (.number (c.param zero width) v, [], (longArg v).drop 2) := by
  have hmods := modifiers_format c zero hw
  have htake : (c.format zero width).takeWhile (· ≠ '%') = [] := rfl
  unfold next
  rw [htake]
  dsimp only
  split
  · rename_i hnil
    rw [hnil, modifiers] at hmods
    cases hmods
  · rename_i hpercent
    rw [hpercent, modifiers_no rfl, Option.some.injEq, Prod.mk.injEq, Prod.mk.injEq] at hmods
    exact absurd hmods.2.1 (by cases c <;> decide)
  · rw [hmods]
    simp only [Option.bind_eq_bind, Option.bind_some, convert_long, longArg_append]

theorem items_format (c : Conversion) (strings : Word → List Char) (zero : Bool) {width : ℕ} (hw : width < 2 ^ 32) (v : BitVec 64) :
    items strings (c.format zero width) (longArg v) = some [.number (c.param zero width) v] := by
  rw [format, items_cons (next_format c zero hw v), items]
  rfl

end Conversion

-- What is printed

section Print

variable {p : FmtParam}

def FmtParam.base (p : FmtParam) : ℕ := if 0 < p.shift then 2 ^ p.shift else 10

theorem FmtParam.one_lt_base (p : FmtParam) : 1 < p.base := by
  unfold FmtParam.base
  split
  · exact Nat.one_lt_two_pow (by omega)
  · omega

theorem FmtParam.digit_eq (p : FmtParam) (acc : ℕ) : p.digit acc = acc % p.base := by
  unfold FmtParam.digit FmtParam.base
  split <;> rfl

theorem FmtParam.rest_eq (p : FmtParam) (acc : ℕ) : p.rest acc = acc / p.base := by
  unfold FmtParam.rest FmtParam.base
  split <;> rfl

theorem digitText_eq (hgroup : p.grouping = false) (hupper : p.upper = false) (acc g n : ℕ) :
    digitText p acc g n = if acc = 0 ∧ n ≠ 0 then [] else (Nat.toDigits p.base acc).reverse := by
  have hbase := p.one_lt_base
  fun_induction digitText p acc g n with
  | case1 acc g n hdone => rw [if_pos hdone]
  | case2 acc g n hmore c hgroup' => simp [hgroup] at hgroup'
  | case3 acc g n hmore c hgroup' ih =>
    have hc : c = Nat.digitChar (acc % p.base) := by
      simp only [c, FmtParam.char, hupper, Bool.false_eq_true, if_false, p.digit_eq]
    rw [if_neg hmore, ih, p.rest_eq, hc]
    by_cases hlt : acc < p.base
    · rw [if_pos ⟨Nat.div_eq_of_lt hlt, Nat.succ_ne_zero n⟩, Nat.toDigits_of_lt_base hlt, Nat.mod_eq_of_lt hlt]
      rfl
    · have hrest : acc / p.base ≠ 0 := (Nat.div_pos (Nat.not_lt.mp hlt) (by omega)).ne'
      rw [if_neg fun h => hrest h.1, Nat.toDigits_of_base_le hbase (Nat.not_lt.mp hlt), List.reverse_append,
        List.reverse_singleton, List.singleton_append]

namespace Conversion

def magnitude (c : Conversion) (v : BitVec 64) : Bool × ℕ :=
  if c = d ∧ 2 ^ 63 - 1 < v.toNat then (true, (-v).toNat) else (false, v.toNat)

theorem sign_param (c : Conversion) (zero : Bool) (width : ℕ) (v : BitVec 64) :
    (c.param zero width).sign v = ((c.magnitude v).2, if (c.magnitude v).1 then ['-'] else []) := by
  unfold FmtParam.sign magnitude
  by_cases h : c = d ∧ 2 ^ 63 - 1 < v.toNat
  · have hsigned : (c.param zero width).isSigned = true ∧ 2 ^ 63 - 1 < v.toNat := ⟨decide_eq_true h.1, h.2⟩
    rw [if_pos hsigned, if_pos h]
    rfl
  · have hsigned : ¬((c.param zero width).isSigned = true ∧ 2 ^ 63 - 1 < v.toNat) := fun hs =>
      h ⟨of_decide_eq_true hs.1, hs.2⟩
    rw [if_neg hsigned, if_neg h]
    rfl

theorem base_param (c : Conversion) (zero : Bool) (width : ℕ) : (c.param zero width).base = c.base := by
  cases c <;> rfl

theorem base_bounds (c : Conversion) : 1 < c.base ∧ c.base ≤ 16 := by
  cases c <;> decide

theorem numberText_param (c : Conversion) (zero : Bool) (width : ℕ) (v : BitVec 64) : ∃ spaces zeros,
    numberText (c.param zero width) v =
      some (paddedText spaces zeros c.base (c.magnitude v).1 (c.magnitude v).2) := by
  have hdigits : digitText (c.param zero width) (c.magnitude v).2 0 0 = (Nat.toDigits c.base (c.magnitude v).2).reverse := by
    rw [digitText_eq rfl rfl, if_neg fun h => h.2 rfl, base_param]
  have hprec : ∀ t, padTo '0' (c.param zero width).precision.toInt.toNat t = t := fun t => by
    rw [show (c.param zero width).precision.toInt.toNat = 0 from rfl, padTo, Nat.zero_sub]
    exact List.append_nil t
  have hradix : ∀ last, (c.param zero width).radix (v = 0) last = some [] := fun _ => if_neg fun h => Bool.false_ne_true h.1
  have hsign : (if (c.magnitude v).1 then ['-'] else []).reverse = if (c.magnitude v).1 then ['-'] else [] := by
    split <;> rfl
  have hleft : (c.param zero width).leftjust = false := rfl
  simp only [numberText, reversedText, sign_param, hdigits, hprec, hradix, Option.bind_eq_bind, Option.bind_some,
    List.nil_append, hleft, Bool.false_eq_true, not_false_eq_true, true_and, if_false]
  cases zero with
  | false =>
    have hpad : (c.param false width).pad = ' ' := rfl
    refine ⟨(c.param false width).minWidth - ([] : List Char).length - ((Nat.toDigits c.base (c.magnitude v).2).reverse ++
      if (c.magnitude v).1 then ['-'] else []).length, 0, ?_⟩
    simp only [hpad, if_true, padTo, List.append_nil, List.reverse_append, List.reverse_replicate, List.reverse_reverse,
      hsign, paddedText, List.replicate_zero, List.nil_append]
  | true =>
    have hpad : (c.param true width).pad = '0' := rfl
    have hspace : ¬ ('0' = ' ') := by decide
    refine ⟨0, (c.param true width).minWidth - (if (c.magnitude v).1 then ['-'] else []).length -
      (Nat.toDigits c.base (c.magnitude v).2).reverse.length, ?_⟩
    simp only [hpad, hspace, if_false, padTo, List.reverse_append, List.reverse_replicate, List.reverse_reverse, hsign,
      paddedText, List.replicate_zero, List.nil_append]

theorem magnitude_value (c : Conversion) (v : BitVec 64) :
    (if (c.magnitude v).1 then -BitVec.ofNat 64 (c.magnitude v).2 else BitVec.ofNat 64 (c.magnitude v).2) = v := by
  unfold magnitude
  split
  · rw [if_pos rfl, BitVec.ofNat_toNat, BitVec.setWidth_eq, BitVec.neg_neg]
  · rw [if_neg Bool.false_ne_true, BitVec.ofNat_toNat, BitVec.setWidth_eq]

theorem magnitude_lt (c : Conversion) (v : BitVec 64) : (c.magnitude v).2 < 2 ^ 64 := by
  unfold magnitude
  split
  · exact (-v).isLt
  · exact v.isLt

end Conversion

end Print

-- There and back

def HasString (buf : Buf) (text : List Char) : Prop :=
  (∀ i c, text[i]? = some c → buf i = c ∧ c ≠ NUL) ∧ buf text.length = NUL

theorem nul_notMem_paddedText (spaces zeros : ℕ) {base : ℕ} (negative : Bool) (n : ℕ) (hlow : 1 < base) (hbase : base ≤ 16) :
    NUL ∉ paddedText spaces zeros base negative n := by
  intro hmem
  rcases List.mem_append.mp hmem with h | h
  · exact absurd (List.eq_of_mem_replicate h) (by decide)
  · rcases List.mem_append.mp h with h | h
    · split at h
      · exact absurd (List.mem_singleton.mp h) (by decide)
      · cases h
    · obtain ⟨d, hd, hc⟩ := exists_of_mem_body hlow h
      exact (digitChar_apart (show d < 16 by omega)).2.2.2.2 hc.symm

theorem paddedText_ne_nil (spaces zeros base : ℕ) (negative : Bool) (n : ℕ) :
    paddedText spaces zeros base negative n ≠ [] := by
  intro hnil
  have hbody := (List.append_eq_nil_iff.mp (List.append_eq_nil_iff.mp hnil).2).2
  exact Nat.toDigits_ne_nil (List.append_eq_nil_iff.mp hbody).2

/-- A call with a format that prints `text`, into a buffer where it fits: what comes back from the
call is the text, and the text is read as `v` up to its NUL, with `errno` as it was. -/
def ReadsBack (base : ℕ) (v : BitVec 64) (text : List Char) (r : Option (ℤ × Buf)) : Prop :=
  ∃ buf, r = some ((text.length : ℤ), buf) ∧ HasString buf text ∧ strtoull text base = ⟨v, some [], none⟩

/-- A value that is printed in a width is read back, from every buffer that a C object can be. -/
theorem print_parse (fresh str : Buf) (strings : Word → List Char) (c : Conversion) (zero : Bool) {width : ℕ}
    (hwidth : width < 2 ^ 31) (v : BitVec 64) : ∃ text, render strings (c.format zero width) (longArg v) = some text ∧
      ∀ size, text.length < size → size ≤ 2 ^ 31 →
        ReadsBack c.base v text (vsnprintf fresh strings (some str) size (c.format zero width) (longArg v)) := by
  obtain ⟨spaces, zeros, htext⟩ := c.numberText_param zero width v
  obtain ⟨hlow, hbase⟩ := c.base_bounds
  have hits := c.items_format strings zero (show width < 2 ^ 32 by omega) v
  have htexts : texts [.number (c.param zero width) v] =
      some (paddedText spaces zeros c.base (c.magnitude v).1 (c.magnitude v).2) := by
    simp only [texts, Item.text, htext, Option.bind_eq_bind, Option.bind_some, List.append_nil]
  have hparse := strtoull_paddedText hlow hbase spaces zeros (c.magnitude v).1 (c.magnitude_lt v)
  rw [c.magnitude_value] at hparse
  have hnul := nul_notMem_paddedText spaces zeros (c.magnitude v).1 (c.magnitude v).2 hlow hbase
  have hne := paddedText_ne_nil spaces zeros c.base (c.magnitude v).1 (c.magnitude v).2
  generalize paddedText spaces zeros c.base (c.magnitude v).1 (c.magnitude v).2 = text at htexts hparse hnul hne
  refine ⟨text, by rw [render, hits, Option.bind_some, htexts], fun size hfits hsize => ?_⟩
  have hroomy : Roomy (size - 1) 0 [.number (c.param zero width) v] := fun _ _ _ _ _ _ _ => by omega
  have htwo : 2 ≤ size := by
    have hpos := List.length_pos_iff.mpr hne
    omega
  obtain ⟨buf, hrun, hcells, hend, -⟩ :=
    vsnprintf_of_roomy fresh str hits htexts (by omega) htwo (by omega) hroomy
  rw [Nat.min_eq_left (by omega)] at hend
  refine ⟨buf, hrun, ⟨fun i a ha => ⟨hcells i a ha ?_, fun hc => hnul ?_⟩, hend⟩, hparse⟩
  · have hi := (List.getElem?_eq_some_iff.mp ha).1
    omega
  · rw [← hc]
    exact List.mem_of_getElem? ha

/-- The most negative value, behind zeros. -/
theorem print_parse_min : ∃ text, render (fun _ => []) (Conversion.d.format true 24) (longArg (1 <<< 63)) = some text ∧
    ∀ size, text.length < size → size ≤ 2 ^ 31 → ReadsBack 10 (1 <<< 63) text
      (vsnprintf (fun _ => NUL) (fun _ => []) (some fun _ => 'x') size (Conversion.d.format true 24) (longArg (1 <<< 63))) :=
  print_parse (fun _ => NUL) (fun _ => 'x') (fun _ => []) .d true (by decide) (1 <<< 63)

end Sneks.Stdio
