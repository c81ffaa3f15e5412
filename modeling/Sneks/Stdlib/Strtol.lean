import Sneks.Stdio.Strtoull

/-!
# Numbers read: `strtoul`, `strtoull` and `strtol` in `lib/strtol.c`

What `strtoull_max` takes for a number is compared with what the C language does. There a prefix counts
only with a digit behind it, the zero of an octal number is a digit, all digits of a number that is too
large are passed over, and `strtol` has the limits of a `long`. A base is taken to be unsigned; a negative
one is above 36 either way.
-/

namespace Sneks.Stdlib
open Stdio (Parsed strtoullMax strtoull parsePrefix parseDigits digitOf toLower isSpace)

/-- `strtoul`: the value, the end if it was stored, and the error if there is a new one. -/
def strtoul (str : List Char) (base : ℕ) : BitVec 32 × Option (List Char) × Option Stdio.Errno :=
  let r := strtoullMax str base (2 ^ 32 - 1)
  (r.val.setWidth 32, r.fin, r.errno)

def strtol (str : List Char) (base : ℕ) : ℤ × Option (List Char) × Option Stdio.Errno :=
  let (val, fin, errno) := strtoul str base
  (val.toInt, fin, errno)

-- The C language

def cSpace (c : Char) : Bool := c = ' ' || (9 ≤ c.toNat && c.toNat ≤ 13)

def digitVal (c : Char) : Option ℕ :=
  if '0' ≤ c ∧ c ≤ '9' then some (c.toNat - '0'.toNat)
  else if 'a' ≤ c ∧ c ≤ 'z' then some (10 + (c.toNat - 'a'.toNat))
  else if 'A' ≤ c ∧ c ≤ 'Z' then some (10 + (c.toNat - 'A'.toNat))
  else none

def isDigitIn (base : ℕ) (c : Char) : Bool := (digitVal c).any (· < base)

structure Numeral where
  minus : Bool
  base : ℕ
  hex : Bool
  digits : List Char
  rest : List Char

def hexPrefix (s : List Char) : Bool :=
  s.head? = some '0' && s.tail.head?.map toLower = some 'x' && (s.drop 2).head?.any (isDigitIn 16)

def unsign (s : List Char) : List Char := if s.head? = some '-' ∨ s.head? = some '+' then s.tail else s

def cPrefix (base : ℕ) (s : List Char) : Bool × ℕ × List Char :=
  if (base = 0 ∨ base = 16) ∧ hexPrefix s then (true, 16, s.drop 2)
  else (false, if base = 0 then if s.head? = some '0' then 8 else 10 else base, s)

def numeral (base : ℕ) (str : List Char) : Numeral :=
  let s := str.dropWhile cSpace
  let (hex, b, t) := cPrefix base (unsign s)
  ⟨s.head? = some '-', b, hex, t.takeWhile (isDigitIn b), t.dropWhile (isDigitIn b)⟩

def valueFrom (base acc : ℕ) (digits : List Char) : ℕ := digits.foldl (fun acc c => acc * base + (digitVal c).getD 0) acc

def Numeral.magnitude (n : Numeral) : ℕ := valueFrom n.base 0 n.digits

def Numeral.value (n : Numeral) : ℤ := if n.minus then -n.magnitude else n.magnitude

def unsignedResult (max base : ℕ) (str : List Char) : ℕ × Option (List Char) × Option Stdio.Errno :=
  let n := numeral base str
  if n.digits = [] then (0, some str, none)
  else if n.magnitude ≤ max then ((n.value % (max + 1)).toNat, some n.rest, none)
  else (max, some n.rest, some .ERANGE)

def signedResult (base : ℕ) (str : List Char) : ℤ × Option (List Char) × Option Stdio.Errno :=
  let n := numeral base str
  if n.digits = [] then (0, some str, none)
  else if -2 ^ 31 ≤ n.value ∧ n.value ≤ 2 ^ 31 - 1 then (n.value, some n.rest, none)
  else (if n.minus then -2 ^ 31 else 2 ^ 31 - 1, some n.rest, some .ERANGE)

-- The condition

def ValidBase (base : ℕ) : Prop := base = 0 ∨ 2 ≤ base ∧ base ≤ 36

def Numeral.Bare (n : Numeral) (base : ℕ) : Prop :=
  n.hex = false ∧ n.digits = ['0'] ∧ (base = 0 ∨ base = 16 ∧ n.rest.head?.map toLower = some 'x')

/-- There is a base, and no number, or one with the usual spaces in front that is not a bare zero and is in
range. -/
def Reads (base : ℕ) (str : List Char) (inRange : Prop) : Prop :=
  ValidBase base ∧ ((numeral base str).digits = [] ∨
    (∀ c ∈ str.takeWhile cSpace, isSpace c) ∧ ¬ (numeral base str).Bare base ∧ inRange)

variable {base max acc : ℕ} {minus noconv : Bool} {s t str : List Char} {c : Char}

theorem digitOf_toLower (base : ℕ) (c : Char) : digitOf base (toLower c) = (digitVal c).getD base := by
  by_cases hupper : 'A' ≤ c ∧ c ≤ 'Z'
  · have hlow : 65 ≤ c.toNat := hupper.1
    have hhigh : c.toNat ≤ 90 := hupper.2
    have hletters : ∀ k < 26, ¬ ('0' ≤ Char.ofNat (65 + k + 32) ∧ Char.ofNat (65 + k + 32) ≤ '9') ∧
        ('a' ≤ Char.ofNat (65 + k + 32) ∧ Char.ofNat (65 + k + 32) ≤ 'z') ∧
        (Char.ofNat (65 + k + 32)).toNat - 'a'.toNat = k := by decide
    have hdigit : ¬ ('0' ≤ c ∧ c ≤ '9') := fun h => absurd (Nat.le_trans hlow (h.2 : c.toNat ≤ 57)) (by decide)
    have hlower : ¬ ('a' ≤ c ∧ c ≤ 'z') := fun h => absurd (Nat.le_trans (h.1 : 97 ≤ c.toNat) hhigh) (by decide)
    obtain ⟨hno, hyes, hval⟩ := hletters (c.toNat - 65) (by omega)
    rw [Nat.add_sub_of_le hlow] at hno hyes hval
    rw [toLower, if_pos hupper, digitOf, if_neg hno, if_pos hyes, hval, digitVal, if_neg hdigit, if_neg hlower, if_pos hupper]
    rfl
  · rw [toLower, if_neg hupper, digitOf, digitVal]
    split
    · rfl
    · split
      · rfl
      · rfl

theorem digitOf_of_isDigitIn (h : isDigitIn base c) : digitOf base (toLower c) < base ∧ (digitVal c).getD 0 = digitOf base (toLower c) := by
  rw [isDigitIn] at h
  rw [digitOf_toLower]
  cases hval : digitVal c with
  | none =>
    rw [hval] at h
    cases h
  | some d =>
    rw [hval] at h
    exact ⟨of_decide_eq_true h, rfl⟩

theorem le_digitOf_of_not_isDigitIn (h : isDigitIn base c = false) : base ≤ digitOf base (toLower c) := by
  rw [isDigitIn] at h
  rw [digitOf_toLower]
  cases hval : digitVal c with
  | none => exact Nat.le_refl base
  | some d =>
    rw [hval] at h
    exact Nat.le_of_not_lt (of_decide_eq_false h)

theorem le_valueFrom (base acc : ℕ) (digits : List Char) (hbase : 0 < base) : acc ≤ valueFrom base acc digits := by
  induction digits generalizing acc with
  | nil => exact Nat.le_refl acc
  | cons c digits ih =>
    have hstep : acc ≤ acc * base + (digitVal c).getD 0 :=
      Nat.le_trans (Nat.le_mul_of_pos_right acc hbase) (Nat.le_add_right _ _)
    exact Nat.le_trans hstep (ih _)

theorem eq_dropWhile_iff {p : Char → Bool} : s = s.dropWhile p ↔ s.takeWhile p = [] := by
  have happend := @List.takeWhile_append_dropWhile _ p s
  constructor
  · intro h
    rw [← h] at happend
    exact List.append_left_eq_self.mp happend
  · intro h
    rw [h, List.nil_append] at happend
    exact happend.symm

theorem over_iff {d : ℕ} (hbase : 0 < base) : (max / base < acc ∨ max - acc * base < d) ↔ max < acc * base + d := by
  rw [Nat.div_lt_iff_lt_mul hbase]
  generalize acc * base = x
  omega

theorem last_digit_iff {d : ℕ} (hacc : acc ≤ max) (hlt : d < base) (hover : max < acc * base + d) :
    s = s.dropWhile (isDigitIn base) ↔ valueFrom base (acc * base + d) (s.takeWhile (isDigitIn base)) / base ≤ max := by
  have hpos : 0 < base := Nat.lt_of_le_of_lt (Nat.zero_le d) hlt
  rw [eq_dropWhile_iff]
  cases s.takeWhile (isDigitIn base) with
  | nil =>
    have hone : valueFrom base (acc * base + d) [] / base = acc := by
      rw [valueFrom, List.foldl_nil, Nat.mul_comm, Nat.mul_add_div hpos, Nat.div_eq_of_lt hlt, Nat.add_zero]
    rw [hone]
    exact iff_of_true rfl hacc
  | cons c digits =>
    have hmore : (acc * base + d) * base ≤ valueFrom base (acc * base + d) (c :: digits) :=
      Nat.le_trans (Nat.le_add_right _ _) (le_valueFrom base _ digits hpos)
    have hquot := (Nat.le_div_iff_mul_le hpos).mpr hmore
    exact iff_of_false nofun (Nat.not_le.mpr (Nat.lt_of_lt_of_le hover hquot))

theorem parseDigits_eq (hbase : 2 ≤ base ∧ base ≤ 36) (hmax : 36 ≤ max) (hacc : acc ≤ max) (hno : noconv = true → acc = 0)
    (s : List Char) :
    (valueFrom base acc (s.takeWhile (isDigitIn base)) ≤ max ∧ parseDigits base max acc minus noconv s =
      (valueFrom base acc (s.takeWhile (isDigitIn base)), minus, noconv && (s.takeWhile (isDigitIn base)).isEmpty, false,
        s.dropWhile (isDigitIn base))) ∨
    (max < valueFrom base acc (s.takeWhile (isDigitIn base)) ∧ ∃ fin, parseDigits base max acc minus noconv s =
      (2 ^ 64 - 1, false, false, true, fin) ∧
        (fin = s.dropWhile (isDigitIn base) ↔ valueFrom base acc (s.takeWhile (isDigitIn base)) / base ≤ max)) := by
  induction s generalizing acc noconv with
  | nil => exact .inl ⟨hacc, by simp [valueFrom, parseDigits]⟩
  | cons c s ih =>
    rw [parseDigits]
    cases hc : isDigitIn base c with
    | false =>
      have hle := le_digitOf_of_not_isDigitIn hc
      rw [if_pos hle, List.takeWhile_cons_of_neg (by simp [hc]), List.dropWhile_cons_of_neg (by simp [hc])]
      exact .inl ⟨hacc, by simp [valueFrom]⟩
    | true =>
      obtain ⟨hlt, hval⟩ := digitOf_of_isDigitIn hc
      have hcons : valueFrom base acc (c :: s.takeWhile (isDigitIn base)) =
          valueFrom base (acc * base + digitOf base (toLower c)) (s.takeWhile (isDigitIn base)) := by
        rw [valueFrom, List.foldl_cons, hval]
        rfl
      rw [List.takeWhile_cons_of_pos hc, List.dropWhile_cons_of_pos hc, hcons, if_neg (Nat.not_le.mpr hlt)]
      generalize digitOf base (toLower c) = d at hlt
      have hpos : 0 < base := by omega
      by_cases hover : max < acc * base + d
      · have hnoconv : noconv = false := by
          by_contra hne
          rw [hno (Bool.eq_true_of_not_eq_false hne)] at hover
          omega
        have hge := le_valueFrom base (acc * base + d) (s.takeWhile (isDigitIn base)) hpos
        rw [if_pos ((over_iff hpos).mpr hover), hnoconv]
        exact .inr ⟨Nat.lt_of_lt_of_le hover hge, s, rfl, last_digit_iff hacc hlt hover⟩
      · rw [if_neg (mt (over_iff hpos).mp hover)]
        have hrest := @ih (acc * base + d) false (Nat.le_of_not_lt hover) (by rintro ⟨⟩)
        rw [Bool.false_and] at hrest
        rw [List.isEmpty_cons, Bool.and_false]
        exact hrest

-- What the code scans

/-- What `strtoull_max` takes for the number. -/
def scanned (base : ℕ) (str : List Char) : Numeral :=
  let s := str.dropWhile isSpace
  let (b, t) := parsePrefix base (unsign s)
  ⟨s.head? = some '-', b, false, t.takeWhile (isDigitIn b), t.dropWhile (isDigitIn b)⟩

theorem parsePrefix_base (h : ValidBase base) (t : List Char) : 2 ≤ (parsePrefix base t).1 ∧ (parsePrefix base t).1 ≤ 36 := by
  have hall : ∀ b ∈ [8, 10, 16], 2 ≤ b ∧ b ≤ 36 := by decide
  rw [ValidBase] at h
  unfold parsePrefix
  split
  · exact hall 16 (by decide)
  · split
    · exact hall 8 (by decide)
    · split
      · exact hall 10 (by decide)
      · exact h.resolve_left ‹_›

theorem ite_isEmpty (l : List Char) : (if (true && l.isEmpty) = true then s else t) = if l = [] then s else t := by
  cases l with
  | nil => rfl
  | cons c l => rfl

theorem strtoullMax_eq (hbase : ValidBase base) (hmax : 36 ≤ max) (str : List Char) :
    ((scanned base str).magnitude ≤ max → strtoullMax str base max =
      ⟨if (scanned base str).minus then -BitVec.ofNat 64 (scanned base str).magnitude else BitVec.ofNat 64 (scanned base str).magnitude,
        some (if (scanned base str).digits = [] then str else (scanned base str).rest), none⟩) ∧
    (max < (scanned base str).magnitude → ∃ fin, strtoullMax str base max = ⟨BitVec.ofNat 64 (2 ^ 64 - 1), some fin, some .ERANGE⟩ ∧
      (fin = (scanned base str).rest ↔ (scanned base str).magnitude / (scanned base str).base ≤ max)) := by
  have hvalid : ¬ (base ≠ 0 ∧ (base < 2 ∨ 36 < base)) := by
    rw [ValidBase] at hbase
    omega
  have hrun := @parseDigits_eq _ max 0 ((str.dropWhile isSpace).head? = some '-') true
    (parsePrefix_base hbase (unsign (str.dropWhile isSpace))) hmax (Nat.zero_le _) (fun _ => rfl)
    (parsePrefix base (unsign (str.dropWhile isSpace))).2
  have hscan : strtoullMax str base max =
      let r := parseDigits (parsePrefix base (unsign (str.dropWhile isSpace))).1 max 0
        ((str.dropWhile isSpace).head? = some '-') true (parsePrefix base (unsign (str.dropWhile isSpace))).2
      ⟨if r.2.1 then -BitVec.ofNat 64 r.1 else BitVec.ofNat 64 r.1, some (if r.2.2.1 then str else r.2.2.2.2),
        if r.2.2.2.1 then some .ERANGE else none⟩ := by
    rw [strtoullMax, if_neg hvalid, unsign]
    simp only [decide_eq_true_iff]
  rw [scanned, Numeral.magnitude, hscan]
  generalize parsePrefix base (unsign (str.dropWhile isSpace)) = scan at hrun
  obtain ⟨b, t⟩ := scan
  dsimp only at hrun ⊢
  obtain ⟨hle, hrun⟩ | ⟨hgt, fin, hrun, hfin⟩ := hrun
  · refine ⟨fun _ => ?_, fun hgt => absurd hle (Nat.not_le.mpr hgt)⟩
    rw [hrun]
    dsimp only
    rw [ite_isEmpty]
    rfl
  · refine ⟨fun hle => absurd hle (Nat.not_le.mpr hgt), fun _ => ⟨fin, ?_, hfin⟩⟩
    rw [hrun]
    rfl

-- Where that is the number

theorem isSpace_cSpace (h : isSpace c) : cSpace c := by
  rw [isSpace, Bool.or_eq_true, Bool.or_eq_true, Bool.or_eq_true, decide_eq_true_iff, decide_eq_true_iff,
    decide_eq_true_iff, decide_eq_true_iff] at h
  obtain ((rfl | rfl) | rfl) | rfl := h <;> decide

theorem dropWhile_isSpace (h : ∀ c ∈ str.takeWhile cSpace, isSpace c) : str.dropWhile isSpace = str.dropWhile cSpace := by
  induction str with
  | nil => rfl
  | cons c str ih =>
    cases hc : cSpace c with
    | true =>
      rw [List.takeWhile_cons_of_pos hc, List.forall_mem_cons] at h
      rw [List.dropWhile_cons_of_pos h.1, List.dropWhile_cons_of_pos hc, ih h.2]
    | false =>
      have hno : ¬ isSpace c := fun hyes => absurd (isSpace_cSpace hyes) (by rw [hc]; exact Bool.false_ne_true)
      rw [List.dropWhile_cons_of_neg hno, List.dropWhile_cons_of_neg (by rw [hc]; exact Bool.false_ne_true)]

theorem exists_space (h : ¬ ∀ c ∈ str.takeWhile cSpace, isSpace c) :
    ∃ c rest, str.dropWhile isSpace = c :: rest ∧ cSpace c ∧ ¬ isSpace c := by
  induction str with
  | nil => exact absurd nofun h
  | cons c str ih =>
    by_cases hspace : isSpace c
    · rw [List.takeWhile_cons_of_pos (isSpace_cSpace hspace), List.forall_mem_cons] at h
      rw [List.dropWhile_cons_of_pos hspace]
      exact ih fun hall => h ⟨hspace, hall⟩
    · refine ⟨c, str, List.dropWhile_cons_of_neg hspace, ?_, hspace⟩
      by_contra hno
      rw [List.takeWhile_cons_of_neg hno] at h
      exact h nofun

theorem other_space (hc : cSpace c) (hno : ¬ isSpace c) (b : ℕ) : isDigitIn b c = false ∧ c ≠ '-' ∧ c ≠ '+' ∧ c ≠ '0' := by
  have hself := Char.ofNat_toNat c
  obtain hval | hval : c.toNat = 11 ∨ c.toNat = 12 := by
    rw [cSpace, Bool.or_eq_true, Bool.and_eq_true, decide_eq_true_iff, decide_eq_true_iff, decide_eq_true_iff] at hc
    by_contra hother
    have hall : ∀ k ∈ [9, 10, 13], isSpace (Char.ofNat k) := by decide
    obtain rfl | ⟨hlow, hhigh⟩ := hc
    · exact hno rfl
    · refine hno (hself ▸ hall c.toNat ?_)
      simp only [List.mem_cons, List.not_mem_nil]
      omega
  all_goals
    rw [hval] at hself
    subst hself
    exact ⟨rfl, by decide, by decide, by decide⟩

theorem scanned_digits_of_space (h : ¬ ∀ c ∈ str.takeWhile cSpace, isSpace c) : (scanned base str).digits = [] := by
  obtain ⟨c, rest, hstr, hspace, hno⟩ := exists_space h
  have hother := other_space hspace hno
  have hsign : unsign (c :: rest) = c :: rest := by
    rw [unsign, if_neg]
    rw [List.head?_cons, Option.some.injEq, Option.some.injEq]
    exact not_or.mpr ⟨(hother 0).2.1, (hother 0).2.2.1⟩
  have hkept : (parsePrefix base (c :: rest)).2 = c :: rest := by
    have hzero : (c :: rest).head? ≠ some '0' := fun heq => (hother 0).2.2.2 (Option.some.inj heq)
    unfold parsePrefix
    rw [if_neg fun hh => hzero hh.2.1, if_neg fun hh => hzero hh.2]
    split <;> rfl
  rw [scanned, hstr, hsign]
  dsimp only
  rw [hkept]
  exact List.takeWhile_cons_of_neg (by rw [(hother _).1]; exact Bool.false_ne_true)

theorem not_isDigitIn_x (h : toLower c = 'x') (hbase : base ≤ 33) : isDigitIn base c = false := by
  have hval := digitOf_toLower 0 c
  have hx : digitOf 0 'x' = 33 := by decide
  rw [h, hx] at hval
  rw [isDigitIn]
  cases hd : digitVal c with
  | none => rfl
  | some d =>
    rw [hd] at hval
    have hd : 33 = d := hval
    exact decide_eq_false (by omega)

theorem isDigitIn_zero (h : 0 < base) : isDigitIn base '0' = true := by
  have hval : digitVal '0' = some 0 := by decide
  rw [isDigitIn, hval]
  exact decide_eq_true h

def digitsAt (minus : Bool) (b : ℕ) (hex : Bool) (t : List Char) : Numeral :=
  ⟨minus, b, hex, t.takeWhile (isDigitIn b), t.dropWhile (isDigitIn b)⟩

def Finds (base : ℕ) (found n : Numeral) : Prop :=
  (found.minus = n.minus ∧ found.base = n.base ∧ found.magnitude = n.magnitude ∧ found.rest = n.rest ∧
    (found.digits = [] ↔ n.digits = []) ∧ ¬ n.Bare base) ∨ (found.digits = [] ∧ n.Bare base)

theorem finds_self {hex : Bool} {b : ℕ} (h : ¬ (digitsAt minus b hex t).Bare base) :
    Finds base (digitsAt minus b false t) (digitsAt minus b hex t) := .inl ⟨rfl, rfl, rfl, rfl, Iff.rfl, h⟩

theorem exists_tail (h : s.head? = some c) : ∃ t, s = c :: t := by
  cases s with
  | nil => cases h
  | cons d t => exact ⟨t, by rw [Option.some.inj h]⟩

theorem finds_hex (hb : base = 0 ∨ base = 16) (hlower : toLower c = 'x') (minus : Bool) (t : List Char) :
    Finds base (digitsAt minus 16 false t)
      (digitsAt minus (cPrefix base ('0' :: c :: t)).2.1 (cPrefix base ('0' :: c :: t)).1 (cPrefix base ('0' :: c :: t)).2.2) := by
  have hhex : hexPrefix ('0' :: c :: t) = t.head?.any (isDigitIn 16) := by
    rw [hexPrefix, List.head?_cons, List.tail_cons, List.head?_cons, Option.map_some, hlower]
    rfl
  cases hdigit : t.head?.any (isDigitIn 16) with
  | true =>
    have hc : cPrefix base ('0' :: c :: t) = (true, 16, t) := if_pos ⟨hb, hhex.trans hdigit⟩
    rw [hc]
    exact finds_self fun h => Bool.noConfusion h.1
  | false =>
    have hc : cPrefix base ('0' :: c :: t) = (false, if base = 0 then 8 else base, '0' :: c :: t) := by
      rw [cPrefix, hhex, hdigit, if_neg fun h => absurd h.2 Bool.noConfusion]
      rfl
    have hsmall : (if base = 0 then 8 else base) ≤ 33 ∧ 0 < (if base = 0 then 8 else base) := by
      split <;> omega
    have hno : ¬ isDigitIn (if base = 0 then 8 else base) c := by
      rw [not_isDigitIn_x hlower hsmall.1]
      exact Bool.false_ne_true
    have hzero := isDigitIn_zero hsmall.2
    rw [hc]
    refine .inr ⟨?_, rfl, ?_, hb.imp_right fun h => ⟨h, ?_⟩⟩
    · cases t with
      | nil => rfl
      | cons d t => exact List.takeWhile_cons_of_neg (by rw [show isDigitIn 16 d = false from hdigit]; exact Bool.false_ne_true)
    · exact (List.takeWhile_cons_of_pos hzero).trans (congrArg _ (List.takeWhile_cons_of_neg hno))
    · dsimp only [digitsAt]
      rw [List.dropWhile_cons_of_pos hzero, List.dropWhile_cons_of_neg hno]
      exact congrArg some hlower

theorem finds_octal (minus : Bool) (t : List Char) : Finds 0 (digitsAt minus 8 false t) (digitsAt minus 8 false ('0' :: t)) := by
  have htake : ('0' :: t).takeWhile (isDigitIn 8) = '0' :: t.takeWhile (isDigitIn 8) := List.takeWhile_cons_of_pos rfl
  have hdrop : ('0' :: t).dropWhile (isDigitIn 8) = t.dropWhile (isDigitIn 8) := List.dropWhile_cons_of_pos rfl
  rw [digitsAt, digitsAt, htake, hdrop]
  by_cases hnone : t.takeWhile (isDigitIn 8) = []
  · exact .inr ⟨hnone, rfl, by rw [hnone], .inl rfl⟩
  · exact .inl ⟨rfl, rfl, rfl, rfl, ⟨fun h => absurd h hnone, nofun⟩, fun h => hnone (List.cons.inj h.2.1).2⟩

theorem not_bare {b : ℕ} (hoct : base = 0 → t.head? ≠ some '0')
    (hhex : base = 16 → t.head? = some '0' → t.tail.head?.map toLower ≠ some 'x') : ¬ (digitsAt minus b false t).Bare base := by
  rintro ⟨-, hdigits, hbare⟩
  have happend := @List.takeWhile_append_dropWhile _ (isDigitIn b) t
  rw [show t.takeWhile (isDigitIn b) = ['0'] from hdigits] at happend
  have hhead : t.head? = some '0' := by
    rw [← happend]
    rfl
  obtain hzero | ⟨hb, hletter⟩ := hbare
  · exact hoct hzero hhead
  · refine hhex hb hhead ?_
    rw [← happend]
    exact hletter

theorem finds_scan (base : ℕ) (minus : Bool) (t : List Char) :
    Finds base (digitsAt minus (parsePrefix base t).1 false (parsePrefix base t).2)
      (digitsAt minus (cPrefix base t).2.1 (cPrefix base t).1 (cPrefix base t).2.2) := by
  by_cases hx : (base = 0 ∨ base = 16) ∧ t.head? = some '0' ∧ t.tail.head?.map toLower = some 'x'
  · have hparse : parsePrefix base t = (16, t.drop 2) := if_pos hx
    obtain ⟨hb, hzero, hletter⟩ := hx
    obtain ⟨t, rfl⟩ := exists_tail hzero
    obtain ⟨c, hhead, hlower⟩ := Option.map_eq_some_iff.mp hletter
    obtain ⟨t, rfl⟩ := exists_tail hhead
    rw [hparse]
    exact finds_hex hb hlower minus t
  · have hc : cPrefix base t = (false, if base = 0 then if t.head? = some '0' then 8 else 10 else base, t) := by
      refine if_neg fun h => hx ⟨h.1, ?_⟩
      have hhex := h.2
      rw [hexPrefix, Bool.and_eq_true, Bool.and_eq_true, decide_eq_true_iff, decide_eq_true_iff] at hhex
      exact hhex.1
    rw [hc]
    by_cases hoct : base = 0 ∧ t.head? = some '0'
    · have hparse : parsePrefix base t = (8, t.tail) := by
        unfold parsePrefix
        rw [if_neg hx, if_pos hoct]
      obtain ⟨rfl, hhead⟩ := hoct
      obtain ⟨t, rfl⟩ := exists_tail hhead
      rw [hparse]
      exact finds_octal minus t
    · have hsame : parsePrefix base t = (if base = 0 then if t.head? = some '0' then 8 else 10 else base, t) := by
        unfold parsePrefix
        rw [if_neg hx, if_neg hoct]
        split
        · next hzero => rw [if_neg fun hhead => hoct ⟨hzero, hhead⟩]
        · rfl
      rw [hsame]
      exact finds_self (not_bare (fun hzero hhead => hoct ⟨hzero, hhead⟩) fun hb hhead hletter => hx ⟨.inr hb, hhead, hletter⟩)

theorem finds_scanned (base : ℕ) (h : ∀ c ∈ str.takeWhile cSpace, isSpace c) : Finds base (scanned base str) (numeral base str) := by
  have hscan := finds_scan base ((str.dropWhile cSpace).head? = some '-') (unsign (str.dropWhile cSpace))
  rw [scanned, dropWhile_isSpace h]
  exact hscan

theorem scanned_of_none (h : (numeral base str).digits = []) : (scanned base str).digits = [] := by
  by_cases hspace : ∀ c ∈ str.takeWhile cSpace, isSpace c
  · obtain hsame | hbare := finds_scanned base hspace
    · exact hsame.2.2.2.2.1.mpr h
    · exact hbare.1
  · exact scanned_digits_of_space hspace

theorem magnitude_of_none {n : Numeral} (h : n.digits = []) : n.magnitude = 0 := by
  rw [Numeral.magnitude, h]
  rfl

theorem rest_ne (h : (numeral base str).digits ≠ []) : (numeral base str).rest ≠ str := by
  intro heq
  have hsub : (cPrefix base (unsign (str.dropWhile cSpace))).2.2.length ≤ str.length := by
    have hdrop := (List.dropWhile_suffix (l := str) cSpace).length_le
    have hsign : (unsign (str.dropWhile cSpace)).length ≤ (str.dropWhile cSpace).length := by
      rw [unsign]
      split
      · rw [List.length_tail]
        exact Nat.sub_le _ _
      · exact Nat.le_refl _
    rw [cPrefix]
    split
    · rw [List.length_drop]
      omega
    · dsimp only
      omega
  have happend : (numeral base str).digits ++ (numeral base str).rest = (cPrefix base (unsign (str.dropWhile cSpace))).2.2 :=
    List.takeWhile_append_dropWhile
  have hlen := congrArg List.length happend
  have hpos := List.length_pos_iff.mpr h
  rw [List.length_append, heq] at hlen
  omega

-- What is returned

theorem strtoullMax_of_not_valid (h : ¬ ValidBase base) : strtoullMax str base max = ⟨0, none, some .EINVAL⟩ := by
  rw [ValidBase] at h
  exact if_pos (by omega)

theorem strtoullMax_none (hbase : ValidBase base) (hmax : 36 ≤ max) (h : (scanned base str).digits = []) :
    strtoullMax str base max = ⟨0, some str, none⟩ := by
  have hzero := magnitude_of_none h
  rw [(strtoullMax_eq hbase hmax str).1 (by omega), hzero, if_pos h]
  split <;> rfl

def Plain (base : ℕ) (str : List Char) : Prop := (∀ c ∈ str.takeWhile cSpace, isSpace c) ∧ ¬ (numeral base str).Bare base

theorem strtoullMax_of_not_plain (hbase : ValidBase base) (hmax : 36 ≤ max) (h : ¬ Plain base str) :
    strtoullMax str base max = ⟨0, some str, none⟩ := by
  refine strtoullMax_none hbase hmax ?_
  by_cases hspace : ∀ c ∈ str.takeWhile cSpace, isSpace c
  · obtain hsame | hbare := finds_scanned base hspace
    · exact absurd ⟨hspace, hsame.2.2.2.2.2⟩ h
    · exact hbare.1
  · exact scanned_digits_of_space hspace

theorem strtoullMax_of_plain (hbase : ValidBase base) (hmax : 36 ≤ max) (hne : (numeral base str).digits ≠ []) (h : Plain base str) :
    ((numeral base str).magnitude ≤ max → strtoullMax str base max =
      ⟨BitVec.ofInt 64 (numeral base str).value, some (numeral base str).rest, none⟩) ∧
    (max < (numeral base str).magnitude → ∃ fin, strtoullMax str base max = ⟨BitVec.ofNat 64 (2 ^ 64 - 1), some fin, some .ERANGE⟩ ∧
      (fin = (numeral base str).rest ↔ (numeral base str).magnitude / (numeral base str).base ≤ max)) := by
  obtain ⟨hminus, hbase', hmag, hrest, hdigits, -⟩ | hbare := finds_scanned base h.1
  · obtain ⟨hfits, hover⟩ := strtoullMax_eq hbase hmax str
    rw [hmag, hminus, hrest, if_neg (mt hdigits.mp hne)] at hfits
    rw [hmag, hrest, hbase'] at hover
    refine ⟨fun hle => ?_, hover⟩
    rw [hfits hle, Numeral.value]
    split
    · rw [BitVec.ofInt_neg, BitVec.ofInt_natCast]
    · rw [BitVec.ofInt_natCast]
  · exact absurd hbare.2 h.2

theorem right_iff_reads {right : Parsed → Prop} {inRange : Prop} (hmax : 36 ≤ max)
    (hinvalid : ¬ right ⟨0, none, some .EINVAL⟩)
    (hnone : right ⟨0, some str, none⟩ ↔ (numeral base str).digits = [])
    (hfits : (numeral base str).digits ≠ [] → (numeral base str).magnitude ≤ max →
      (right ⟨BitVec.ofInt 64 (numeral base str).value, some (numeral base str).rest, none⟩ ↔ inRange))
    (hover : (numeral base str).digits ≠ [] → max < (numeral base str).magnitude → ∀ fin,
      (fin = (numeral base str).rest ↔ (numeral base str).magnitude / (numeral base str).base ≤ max) →
        (right ⟨BitVec.ofNat 64 (2 ^ 64 - 1), some fin, some .ERANGE⟩ ↔ inRange)) :
    right (strtoullMax str base max) ↔ Reads base str inRange := by
  have hreads : Reads base str inRange ↔ ValidBase base ∧ ((numeral base str).digits = [] ∨ Plain base str ∧ inRange) := by
    rw [Reads, Plain, and_assoc]
  rw [hreads]
  by_cases hbase : ValidBase base
  · rw [and_iff_right hbase]
    by_cases hne : (numeral base str).digits = []
    · rw [strtoullMax_none hbase hmax (scanned_of_none hne)]
      exact iff_of_true (hnone.mpr hne) (.inl hne)
    · rw [or_iff_right hne]
      by_cases hplain : Plain base str
      · rw [and_iff_right hplain]
        obtain ⟨hle, hlt⟩ := strtoullMax_of_plain hbase hmax hne hplain
        obtain hgt | hin := Nat.lt_or_ge max (numeral base str).magnitude
        · obtain ⟨fin, hrun, hfin⟩ := hlt hgt
          rw [hrun]
          exact hover hne hgt fin hfin
        · rw [hle hin]
          exact hfits hne hin
      · rw [strtoullMax_of_not_plain hbase hmax hplain]
        exact iff_of_false (fun h => hne (hnone.mp h)) fun h => hplain h.1
  · rw [strtoullMax_of_not_valid hbase]
    exact iff_of_false hinvalid fun h => hbase h.1

theorem toNat_setWidth_ofInt {w : ℕ} (hw : w = 32 ∨ w = 64) (v : ℤ) :
    ((BitVec.ofInt 64 v).setWidth w).toNat = (v % ((2 ^ w - 1 : ℕ) + 1)).toNat := by
  rw [BitVec.toNat_setWidth, BitVec.toNat_ofInt]
  obtain rfl | rfl := hw <;> omega

theorem toInt_setWidth_ofInt {v : ℤ} (h : -2 ^ 31 ≤ v ∧ v ≤ 2 ^ 31 - 1) : ((BitVec.ofInt 64 v).setWidth 32).toInt = v := by
  have hword : (BitVec.ofInt 64 v).setWidth 32 = BitVec.ofInt 32 v := by
    refine BitVec.eq_of_toNat_eq ?_
    rw [BitVec.toNat_setWidth, BitVec.toNat_ofInt, BitVec.toNat_ofInt]
    omega
  rw [hword]
  exact BitVec.toInt_ofInt_eq_self (by decide) (by omega) (by omega)

theorem unsigned_reads_iff {w : ℕ} (hw : w = 32 ∨ w = 64) (str : List Char) (base : ℕ) :
    (((strtoullMax str base (2 ^ w - 1)).val.setWidth w).toNat, (strtoullMax str base (2 ^ w - 1)).fin,
        (strtoullMax str base (2 ^ w - 1)).errno) = unsignedResult (2 ^ w - 1) base str ↔
      Reads base str ((numeral base str).magnitude / (numeral base str).base ≤ 2 ^ w - 1) := by
  have hmax : 36 ≤ 2 ^ w - 1 := by
    obtain rfl | rfl := hw <;> decide
  have hall : ((BitVec.ofNat 64 (2 ^ 64 - 1)).setWidth w).toNat = 2 ^ w - 1 := by
    obtain rfl | rfl := hw <;> rfl
  have hzero : ((0 : BitVec 64).setWidth w).toNat = 0 := by
    obtain rfl | rfl := hw <;> rfl
  have hval := toNat_setWidth_ofInt hw
  rw [unsignedResult]
  generalize 2 ^ w - 1 = max at *
  refine @right_iff_reads _ _ _ (fun r => ((r.val.setWidth w).toNat, r.fin, r.errno) = _) _ hmax ?_ ?_ ?_ ?_
  · intro h
    have hfin := congrArg (·.2.1) h
    dsimp only at hfin
    split at hfin
    · cases hfin
    · split at hfin <;> cases hfin
  · rw [hzero]
    constructor
    · intro h
      by_contra hne
      rw [if_neg hne] at h
      split at h
      · exact rest_ne hne (Option.some.inj (Prod.mk.inj (Prod.mk.inj h).2).1).symm
      · exact rest_ne hne (Option.some.inj (Prod.mk.inj (Prod.mk.inj h).2).1).symm
    · exact fun hnone => (if_pos hnone).symm
  · intro hne hle
    dsimp only
    rw [hval, if_neg hne, if_pos hle]
    exact iff_of_true rfl (Nat.le_trans (Nat.div_le_self _ _) hle)
  · intro hne hgt fin hfin
    dsimp only
    rw [hall, if_neg hne, if_neg (Nat.not_le.mpr hgt), Prod.mk.injEq, Prod.mk.injEq, Option.some.injEq, hfin]
    exact ⟨fun h => h.2.1, fun h => ⟨rfl, h, rfl⟩⟩

theorem not_inRange_of_gt {n : Numeral} (h : 2 ^ 32 - 1 < n.magnitude) : ¬ (-2 ^ 31 ≤ n.value ∧ n.value ≤ 2 ^ 31 - 1) := by
  rw [Numeral.value]
  split <;> omega

theorem signed_reads_iff (str : List Char) (base : ℕ) :
    strtol str base = signedResult base str ↔
      Reads base str (-2 ^ 31 ≤ (numeral base str).value ∧ (numeral base str).value ≤ 2 ^ 31 - 1) := by
  rw [signedResult]
  refine @right_iff_reads _ (2 ^ 32 - 1) _ (fun r => ((r.val.setWidth 32).toInt, r.fin, r.errno) = _) _ (by decide) ?_ ?_ ?_ ?_
  · intro h
    have hfin := congrArg (·.2.1) h
    dsimp only at hfin
    split at hfin
    · cases hfin
    · split at hfin <;> cases hfin
  · constructor
    · intro h
      by_contra hne
      rw [if_neg hne] at h
      split at h
      · exact rest_ne hne (Option.some.inj (Prod.mk.inj (Prod.mk.inj h).2).1).symm
      · exact rest_ne hne (Option.some.inj (Prod.mk.inj (Prod.mk.inj h).2).1).symm
    · exact fun hnone => (if_pos hnone).symm
  · intro hne hle
    dsimp only
    rw [if_neg hne]
    by_cases hin : -2 ^ 31 ≤ (numeral base str).value ∧ (numeral base str).value ≤ 2 ^ 31 - 1
    · rw [if_pos hin, toInt_setWidth_ofInt hin]
      exact iff_of_true rfl hin
    · rw [if_neg hin]
      exact iff_of_false (fun h => nomatch (Prod.mk.inj (Prod.mk.inj h).2).2) hin
  · intro hne hgt fin hfin
    have hout := not_inRange_of_gt hgt
    have hlast : ((BitVec.ofNat 64 (2 ^ 64 - 1)).setWidth 32).toInt = -1 := by decide
    dsimp only
    rw [hlast, if_neg hne, if_neg hout]
    refine iff_of_false (fun h => absurd (Prod.mk.inj h).1 ?_) hout
    split <;> decide

/-- **Numbers are read as the C language has them** where the base is one, and there is no number or one that
has the usual spaces in front, is not a bare zero and is in range: for the unsigned types its last digit may
be too much, for `long` none. -/
theorem strtol_reads_iff (str : List Char) (base : ℕ) :
    (((strtoul str base).1.toNat, (strtoul str base).2) = unsignedResult (2 ^ 32 - 1) base str ↔
      Reads base str ((numeral base str).magnitude / (numeral base str).base ≤ 2 ^ 32 - 1)) ∧
    (((strtoull str base).val.toNat, (strtoull str base).fin, (strtoull str base).errno) = unsignedResult (2 ^ 64 - 1) base str ↔
      Reads base str ((numeral base str).magnitude / (numeral base str).base ≤ 2 ^ 64 - 1)) ∧
    (strtol str base = signedResult base str ↔
      Reads base str (-2 ^ 31 ≤ (numeral base str).value ∧ (numeral base str).value ≤ 2 ^ 31 - 1)) := by
  have hwide := unsigned_reads_iff (.inr rfl) str base
  rw [BitVec.setWidth_eq] at hwide
  exact ⟨unsigned_reads_iff (.inl rfl) str base, hwide, signed_reads_iff str base⟩

/-- A single zero, in base 0. -/
theorem strtol_misreads_zero : ((strtoul ['0'] 0).1.toNat, (strtoul ['0'] 0).2) = (0, some ['0'], none) ∧
    unsignedResult (2 ^ 32 - 1) 0 ['0'] = (0, some [], none) := by
  decide

end Sneks.Stdlib
