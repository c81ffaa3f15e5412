import Mathlib.Data.List.Basic
import Mathlib.Algebra.Order.Group.Nat
import Mathlib.Data.Int.Order.Basic
import Mathlib.Tactic.SplitIfs

/-!
# Format strings

What `vsnprintf` (`lib/vsnprintf.c`) reads off a format string and its arguments: literal
sections, and conversions with their modifiers. Nothing of it depends on what was written so far.

A `va_list` is the stream of the words on the caller's stack. Strings are without their NUL, so
the end of the list is where `fmt[i]` is zero. A pointer's string is what `strings` has.
-/

namespace Sneks.Stdio

abbrev Word := BitVec 32

abbrev Va := ℕ → Word

def Va.drop (n : ℕ) (ap : Va) : Va := fun k => ap (k + n)

def isSpace (c : Char) : Bool := c = ' ' || c = '\n' || c = '\r' || c = '\t'

/-- The loop of `strtoull_max` in base 10: the value, whether to negate it, whether nothing was
converted, and the rest. A digit that is too much is passed over as well. -/
def strtoulLoop (acc : ℕ) (minus noconv : Bool) : List Char → ℕ × Bool × Bool × List Char
  | [] => (acc, minus, noconv, [])
  | c :: str =>
    if c.isDigit then
      let digit := c.toNat - '0'.toNat
      if (2 ^ 32 - 1) / 10 < acc ∨ 2 ^ 32 - 1 - acc * 10 < digit then (2 ^ 64 - 1, false, noconv, str)
      else strtoulLoop (acc * 10 + digit) minus false str
    else (acc, minus, noconv, c :: str)

def strtoul (str : List Char) : Word × List Char :=
  let s := str.dropWhile isSpace
  let minus : Bool := s.head? = some '-'
  let s := if minus ∨ s.head? = some '+' then s.tail else s
  let (acc, minus, noconv, fin) := strtoulLoop 0 minus true s
  (if minus then -BitVec.ofNat 32 acc else BitVec.ofNat 32 acc, if noconv then str else fin)

theorem strtoulLoop_length (acc : ℕ) (minus noconv : Bool) (str : List Char) :
    (strtoulLoop acc minus noconv str).2.2.2.length ≤ str.length := by
  induction str generalizing acc minus noconv with
  | nil => exact le_rfl
  | cons c str ih =>
    unfold strtoulLoop
    split
    · dsimp only
      split
      · exact Nat.le_succ _
      · exact (ih _ _ _).trans (Nat.le_succ _)
    · exact le_rfl

theorem strtoulLoop_conv (acc : ℕ) (minus : Bool) (str : List Char) :
    (strtoulLoop acc minus false str).2.2.1 = false := by
  induction str generalizing acc minus with
  | nil => rfl
  | cons c str ih =>
    unfold strtoulLoop
    split
    · dsimp only
      split
      · rfl
      · exact ih _ _
    · rfl

theorem strtoul_length (str : List Char) : (strtoul str).2.length ≤ str.length := by
  have hspace : (str.dropWhile isSpace).length ≤ str.length := (List.dropWhile_sublist isSpace).length_le
  unfold strtoul
  dsimp only
  split_ifs
  · exact le_rfl
  · exact (strtoulLoop_length ..).trans ((List.tail_sublist _).length_le.trans hspace)
  · exact le_rfl
  · exact (strtoulLoop_length ..).trans hspace

theorem strtoul_length_lt {c : Char} (hc : c.isDigit) (rest : List Char) :
    (strtoul (c :: rest)).2.length ≤ rest.length := by
  have hspace : isSpace c = false := by
    rcases hsp : isSpace c with _ | _
    · rfl
    · simp only [isSpace, Bool.or_eq_true, decide_eq_true_eq] at hsp
      rcases hsp with ((rfl | rfl) | rfl) | rfl <;> revert hc <;> decide
  have hsign : c ≠ '-' ∧ c ≠ '+' := by
    constructor <;> (rintro rfl; revert hc; decide)
  have hval : c.toNat ≤ 57 := by
    simp only [Char.isDigit, Bool.and_eq_true, decide_eq_true_eq, ge_iff_le] at hc
    exact hc.2
  have hfits : ¬((2 ^ 32 - 1) / 10 < 0 ∨ 2 ^ 32 - 1 - 0 * 10 < c.toNat - '0'.toNat) := by
    rw [show '0'.toNat = 48 from rfl]
    omega
  unfold strtoul
  simp only [List.dropWhile_cons, hspace, Bool.false_eq_true, if_false, List.head?_cons, Option.some.injEq, hsign.1,
    hsign.2, decide_false, or_self]
  unfold strtoulLoop
  rw [if_pos hc]
  dsimp only
  rw [if_neg hfits, strtoulLoop_conv, if_neg Bool.false_ne_true]
  exact strtoulLoop_length ..

-- Modifiers

/-- `struct fmt_param`, as a conversion starts. -/
structure FmtParam where
  shift : ℕ := 0
  width : Word := -1
  precision : Word := -1
  isSigned : Bool := true
  upper : Bool := false
  grouping : Bool := false
  forcesign : Bool := false
  spacesign : Bool := false
  leftjust : Bool := false
  withPrefix : Bool := false
  pad : Char := ' '
  deriving DecidableEq

inductive IntType
  | c | h | d | l | L | w | j | z | t
  deriving DecidableEq

/-- What the modifiers have set so far. `type` is `none` for `' '`. -/
structure Mods where
  p : FmtParam := {}
  dot : Bool := false
  widtharg : Bool := false
  precarg : Bool := false
  fast : Bool := false
  longness : ℤ := 0
  bits : Word := 0
  type : Option IntType := none

inductive Modifier
  | invalid
  | no
  | mod (m : Mods) (rest : List Char)

def modifier (m : Mods) (c : Char) (rest : List Char) : Modifier :=
  match c with
  | 'l' => if m.longness < 0 ∨ 2 < m.longness + 1 then .invalid else .mod { m with longness := m.longness + 1 } rest
  | 'h' => if 0 < m.longness ∨ m.longness - 1 < -2 then .invalid else .mod { m with longness := m.longness - 1 } rest
  | '#' => .mod { m with p.withPrefix := true } rest
  | '0' => .mod (if m.p.leftjust then m else { m with p.pad := '0' }) rest
  | '.' => .mod { m with dot := true } rest
  | '*' => .mod (if m.dot then { m with precarg := true } else { m with widtharg := true }) rest
  | 'w' =>
    let fast : Bool := rest.head? = some 'f'
    let str := if fast then rest.tail else rest
    let (bits, fin) := strtoul str
    if bits = 0 ∧ fin = str then .invalid else .mod { m with type := some .w, fast, bits } fin
  | 'j' => .mod { m with type := some .j } rest
  | 'z' => .mod { m with type := some .z } rest
  | 't' => .mod { m with type := some .t } rest
  | '-' => .mod { m with p.pad := ' ', p.leftjust := true } rest
  | '+' => .mod { m with p.forcesign := true, p.spacesign := false } rest
  | ' ' => .mod { m with p.spacesign := !m.p.forcesign } rest
  | c =>
    if c = Char.ofNat 39 then .mod { m with p.grouping := true } rest
    else if c.isDigit then
      let (n, fin) := strtoul (c :: rest)
      .mod (if m.dot then { m with p.precision := n } else { m with p.width := n }) fin
    else .no

theorem modifier_length {m m' : Mods} {c : Char} {rest rest' : List Char} (h : modifier m c rest = .mod m' rest') :
    rest'.length ≤ rest.length := by
  have hread : ∀ str : List Char, str.length ≤ rest.length → (strtoul str).2.length ≤ rest.length :=
    fun str hstr => (strtoul_length str).trans hstr
  unfold modifier at h
  split at h
  case h_7 =>
    dsimp only at h
    split_ifs at h
    · cases h
      exact hread _ (List.tail_sublist _).length_le
    · cases h
      exact hread _ le_rfl
  case h_14 =>
    dsimp only at h
    split_ifs at h with _ hd
    · cases h
      exact le_rfl
    · cases h
      exact strtoul_length_lt hd rest
    · cases h
      exact strtoul_length_lt hd rest
  all_goals
    try split_ifs at h
    all_goals
      cases h
      try exact le_rfl

/-- The `do` loop: the modifiers, the character of the conversion, and what follows it. -/
def modifiers (m : Mods) : List Char → Option (Mods × Char × List Char)
  | [] => none
  | c :: rest =>
    match h : modifier m c rest with
    | .invalid => none
    | .no => some (m, c, rest)
    | .mod m' rest' =>
      have : rest'.length ≤ rest.length := modifier_length h
      modifiers m' rest'
termination_by str => str.length
decreasing_by exact Nat.lt_succ_of_le this

theorem modifiers_length {m m' : Mods} {c : Char} {str rest : List Char} (h : modifiers m str = some (m', c, rest)) :
    rest.length < str.length := by
  fun_induction modifiers m str with
  | case1 => cases h
  | case2 => cases h
  | case3 =>
    cases h
    exact Nat.lt_succ_self _
  | case4 m c rest m₁ rest₁ _ hlen ih =>
    exact (ih h).trans_le (hlen.trans (Nat.le_succ _))

-- Conversions

inductive Item
  | literal (text : List Char)
  | percent
  | number (p : FmtParam) (val : BitVec 64)
  | char (c : Char)
  | string (p : FmtParam) (src : List Char)
  | count

/-- `"chdlL"[longness + 2]`, or the type that was given. -/
def Mods.intType (m : Mods) : Option IntType :=
  match m.type with
  | none => some (if m.longness = -2 then .c else if m.longness = -1 then .h else if m.longness = 0 then .d
      else if m.longness = 1 then .l else .L)
  | some type => if m.longness ≠ 0 then none else some type

def Mods.fromArgs (m : Mods) (ap : Va) : FmtParam × Va :=
  let (p, ap) :=
    if m.widtharg then
      if (ap 0).toInt < 0 then ({ m.p with leftjust := true, width := -ap 0 }, ap.drop 1)
      else ({ m.p with width := ap 0 }, ap.drop 1)
    else (m.p, ap)
  if m.precarg then (if 0 ≤ (ap 0).toInt then { p with precision := ap 0 } else p, ap.drop 1) else (p, ap)

def numberArg (m : Mods) (type : IntType) (p : FmtParam) (ap : Va) : Option (Item × Va) := do
  let type ←
    (if type = .w then
      (if m.bits &&& (m.bits - 1) ≠ 0 then none
      else if m.bits.toInt < 8 ∨ 64 < m.bits.toInt then none
      else some (if m.bits.toInt < 64 then IntType.d else .L))
    else some type)
  match type with
  | .j | .L => some (.number p (ap 1 ++ ap 0), ap.drop 2)
  | _ => some (.number p (if p.isSigned then (ap 0).signExtend 64 else (ap 0).setWidth 64), ap.drop 1)

def countBits (m : Mods) : Bool :=
  [8, 16, 32, 33, 9, 17, 64, 65].contains (m.bits.toInt + if m.fast then 1 else 0)

def convert (strings : Word → List Char) (m : Mods) (c : Char) (ap : Va) : Option (Item × Va) := do
  let type ← m.intType
  let (p, ap) := m.fromArgs ap
  let unsigned (p : FmtParam) : FmtParam := { p with isSigned := false, forcesign := false, spacesign := false }
  match c with
  | 'X' => numberArg m type (unsigned { p with upper := true, shift := 4 }) ap
  | 'p' => numberArg m .z (unsigned { p with withPrefix := true, shift := 4 }) ap
  | 'x' => numberArg m type (unsigned { p with shift := 4 }) ap
  | 'o' => numberArg m type (unsigned { p with shift := 3 }) ap
  | 'b' => numberArg m type (unsigned { p with shift := 1 }) ap
  | 'u' => numberArg m type (unsigned p) ap
  | 'i' | 'd' => numberArg m type p ap
  | 'C' | 'c' => some (.char (Char.ofNat ((ap 0).toNat % 256)), ap.drop 1)
  | 'S' | 's' => some (.string p (if ap 0 = 0 then "(nil)".toList else strings (ap 0)), ap.drop 1)
  | 'n' => if type = .w ∧ ¬countBits m then none else some (.count, ap.drop 1)
  | _ => none

def next (strings : Word → List Char) (fmt : List Char) (ap : Va) : Option (Item × List Char × Va) :=
  match fmt.takeWhile (· ≠ '%') with
  | c :: text => some (.literal (c :: text), fmt.dropWhile (· ≠ '%'), ap)
  | [] =>
    match fmt.tail with
    | [] => none
    | '%' :: rest => some (.percent, rest, ap)
    | spec => do
      let (m, c, rest) ← modifiers {} spec
      let (it, ap) ← convert strings m c ap
      some (it, rest, ap)

theorem next_length {strings : Word → List Char} {c : Char} {str rest : List Char} {ap ap' : Va} {it : Item}
    (h : next strings (c :: str) ap = some (it, rest, ap')) : rest.length < (c :: str).length := by
  unfold next at h
  split at h
  case h_1 d text htake =>
    cases h
    have hsplit := congrArg List.length (List.takeWhile_append_dropWhile (p := (· ≠ '%')) (l := c :: str))
    rw [List.length_append, htake, List.length_cons] at hsplit
    omega
  case h_2 =>
    rw [List.tail_cons] at h
    split at h
    · cases h
    · cases h
      rw [List.length_cons, List.length_cons]
      omega
    · obtain ⟨⟨m, d, rest₁⟩, hm, h⟩ := Option.bind_eq_some_iff.mp h
      obtain ⟨⟨it₁, ap₁⟩, _, h⟩ := Option.bind_eq_some_iff.mp h
      cases h
      exact (modifiers_length hm).trans (Nat.lt_succ_self _)

def items (strings : Word → List Char) (fmt : List Char) (ap : Va) : Option (List Item) :=
  match fmt with
  | [] => some []
  | c :: str =>
    match h : next strings (c :: str) ap with
    | none => none
    | some (it, rest, ap') =>
      have : rest.length < (c :: str).length := next_length h
      (items strings rest ap').map (it :: ·)
termination_by fmt.length
decreasing_by exact this

end Sneks.Stdio
