import Mathlib.Data.List.Basic
import Sneks.Lib.Clipped
import Sneks.Stdio.Format

/-!
# Formatted output into a buffer

`vsnprintf` (`lib/vsnprintf.c`) with `fmt_ull`, which writes a number from its low digit up and
turns it around at the end. Both count what does not fit and write the rest.

A buffer is the cells from a pointer on. `fresh` is what the memory from `malloc` holds, which is
taken to be there. `none` is a run without a defined result: an assertion that fails, an `int`
that overflows, or a store outside of the buffer.
-/

namespace Sneks.Stdio
open Lib

abbrev Buf := ℕ → Char

def NUL : Char := Char.ofNat 0

/-- The value as an `int`, or as an `ssize_t`. -/
def int (n : ℕ) : ℤ := (BitVec.ofNat 32 n).toInt

structure Out where
  pos : ℕ
  buf : Buf

namespace Out

def put (max : ℕ) (c : Char) (o : Out) : Out :=
  ⟨o.pos + 1, if o.pos < max then Function.update o.buf o.pos c else o.buf⟩

/-- The loop over `prefix`, which ends at `max`, and `pos += np`. -/
def putAll (max : ℕ) (l : List Char) (o : Out) : Out :=
  ⟨o.pos + l.length, if o.pos < max then copy o.buf o.pos (l.take (max - o.pos)) else o.buf⟩

/-- `if(pos < n) { if(pos < max) memset(buf + pos, c, min(max - pos + 1, n - pos)); pos = n; }`. -/
def fillTo (max : ℕ) (c : Char) (n : ℕ) (o : Out) : Out :=
  if o.pos < n then ⟨n, if o.pos < max then fill o.buf o.pos (min (max - o.pos + 1) (n - o.pos)) c else o.buf⟩ else o

def terminate (max : ℕ) (o : Out) : Out :=
  ⟨o.pos, if 0 < max then Function.update o.buf (min o.pos max) NUL else o.buf⟩

def wrap (o : Out) : Out := ⟨o.pos % 2 ^ 32, o.buf⟩

end Out

namespace FmtParam

/-- What a digit is taken from, `acc & mask` and `acc % 10`. -/
def digit (p : FmtParam) (acc : ℕ) : ℕ := if 0 < p.shift then acc % 2 ^ p.shift else acc % 10

/-- What is left, `acc >> p->shift` and `acc / 10`. -/
def rest (p : FmtParam) (acc : ℕ) : ℕ := if 0 < p.shift then acc / 2 ^ p.shift else acc / 10

theorem rest_lt (p : FmtParam) {acc : ℕ} (h : acc ≠ 0) : p.rest acc < acc := by
  unfold rest
  split
  · exact Nat.div_lt_self (Nat.pos_of_ne_zero h) (Nat.one_lt_two_pow (by omega))
  · exact Nat.div_lt_self (Nat.pos_of_ne_zero h) (by omega)

theorem rest_measure (p : FmtParam) {acc pos pos' : ℕ} (h : ¬(acc = 0 ∧ pos ≠ 0)) (hpos : pos' ≠ 0) :
    (p.rest acc + if pos' = 0 then 1 else 0) < acc + if pos = 0 then 1 else 0 := by
  rw [if_neg hpos]
  rcases Nat.eq_zero_or_pos acc with rfl | hacc
  · have hrest : p.rest 0 = 0 := by simp [rest]
    rw [hrest, if_pos (by omega)]
    omega
  · have := p.rest_lt hacc.ne'
    omega

def char (p : FmtParam) (c : Char) : Char := if p.upper then c.toUpper else c

theorem char_digitChar (p : FmtParam) (d : ℕ) : p.char (Nat.digitChar d) = '0' ↔ Nat.digitChar d = '0' := by
  unfold char
  split
  · by_cases hd : d < 16
    · have hall : ∀ d < 16, (Nat.digitChar d).toUpper = '0' ↔ Nat.digitChar d = '0' := by decide
      exact hall d hd
    · have hstar : Nat.digitChar d = '*' := by
        unfold Nat.digitChar
        repeat rw [if_neg (by omega)]
      rw [hstar]
      decide
  · exact Iff.rfl

def minWidth (p : FmtParam) : ℕ := (max p.width.toInt 1).toNat

def sign (p : FmtParam) (val : BitVec 64) : ℕ × List Char :=
  if p.isSigned ∧ 2 ^ 63 - 1 < val.toNat then ((-val).toNat, ['-'])
  else (val.toNat, if p.forcesign then ['+'] else if p.spacesign then [' '] else [])

/-- `prefix` before the sign, where the last digit is `last`. -/
def radix (p : FmtParam) (zero : Prop) [Decidable zero] (last : Char) : Option (List Char) :=
  if p.withPrefix ∧ ¬zero then
    if p.shift ≠ 3 then
      if p.shift = 1 ∨ p.shift = 4 then some [p.char (if p.shift = 1 then 'b' else 'x'), '0'] else none
    else some (if last ≠ '0' then ['0'] else [])
  else some []

theorem radix_congr (p : FmtParam) {zero : Prop} [Decidable zero] {last last' : Char} (h : last = '0' ↔ last' = '0') :
    p.radix zero last = p.radix zero last' := by
  simp only [radix, ne_eq, h]

end FmtParam

def digits (p : FmtParam) (max acc g : ℕ) (o : Out) (last : Char) : Out × Char :=
  if acc = 0 ∧ o.pos ≠ 0 then (o, last)
  else
    let c := Nat.digitChar (p.digit acc)
    let last := if o.pos < max then p.char c else c
    let o := o.put max (p.char c)
    if p.grouping ∧ g + 1 = 3 then digits p max (p.rest acc) 0 (o.put max '_') '_'
    else digits p max (p.rest acc) (g + 1) o last
termination_by acc + if o.pos = 0 then 1 else 0
decreasing_by all_goals exact p.rest_measure ‹_› (Nat.succ_ne_zero _)

/-- `fmt_ull` up to where the number stands back to front. -/
def backwards (p : FmtParam) (val : BitVec 64) (max : ℕ) (buf : Buf) : Option Out := do
  let (acc, sign) := p.sign val
  let (o, last) := digits p max acc 0 ⟨0, buf⟩ NUL
  let last := if o.pos < p.precision.toInt.toNat then '0' else last
  let o := o.fillTo max '0' p.precision.toInt.toNat
  let radix ← p.radix (val = 0) last
  let pre := radix ++ sign
  let (o, pre) := if ¬p.leftjust ∧ p.pad = ' ' then (o.putAll max pre, []) else (o, pre)
  let o := if p.leftjust then o else o.fillTo max p.pad (p.minWidth - pre.length)
  let o := o.putAll max pre
  if o.pos < 2 ^ 31 then some o else none

theorem backwards_pos {p : FmtParam} {val : BitVec 64} {max : ℕ} {buf : Buf} {o : Out}
    (h : backwards p val max buf = some o) : o.pos < 2 ^ 31 := by
  unfold backwards at h
  obtain ⟨radix, _, h⟩ := Option.bind_eq_some_iff.mp h
  obtain ⟨hpos, h⟩ := Option.ite_none_right_eq_some.mp h
  exact Option.some.inj h ▸ hpos

/-- Where the NUL of a number goes, `min_t(int, pos, max)`. -/
def stop (pos max : ℕ) : Option ℕ := if 0 ≤ min (pos : ℤ) (int max) then some (min (pos : ℤ) (int max)).toNat else none

def padRight (p : FmtParam) (max : ℕ) (o : Out) : Option Out :=
  if p.leftjust then
    let o := o.fillTo max p.pad p.minWidth
    if 0 < max then (stop o.pos max).map fun len => ⟨o.pos, Function.update o.buf len NUL⟩ else some o
  else some o

/-- `fmt_ull` with a buffer. A number that is cut off is written again, to a buffer of its own
where it is not cut off, so a depth of 2 is enough. -/
def fmtUll (fresh : Buf) (p : FmtParam) (val : BitVec 64) : ℕ → ℕ → Buf → Option Out
  | 0, _, _ => none
  | depth + 1, max, buf => do
    let o ← backwards p val max buf
    let o ←
      (if 0 < max ∧ max < o.pos then do
        let trunc ← fmtUll fresh p val depth o.pos fresh
        some ⟨o.pos, Function.update (fun k => if k < max then trunc.buf k else o.buf k) max NUL⟩
      else if 0 < max then do
        let len ← stop o.pos max
        some ⟨o.pos, swaps (Function.update o.buf len NUL) len (len / 2)⟩
      else some o)
    padRight p max o

-- The whole format

def stringLen (p : FmtParam) (src : List Char) : ℤ :=
  int (if 0 ≤ p.precision.toInt then min src.length p.precision.toNat else src.length)

def padLeft (max : ℕ) (width len : ℤ) (o : Out) : Option Out :=
  if len < width then do
    let buf ←
      (if o.pos < max then
        let npad := min (width - len) (int (max - o.pos))
        if 0 ≤ npad then some (Function.update (fill o.buf o.pos npad.toNat ' ') (o.pos + npad.toNat) NUL) else none
      else some o.buf)
    some ⟨((o.pos + (width - len)) % 2 ^ 32).toNat, buf⟩
  else some o

def putString (max : ℕ) (p : FmtParam) (src : List Char) (o : Out) : Option Out := do
  let len := stringLen p src
  let o ← padLeft max p.width.toInt len o
  let buf ←
    (if o.pos < max then
      let n := min (int (max - o.pos)) len
      if 0 ≤ n then some (copy o.buf o.pos (src.take n.toNat)) else none
    else some o.buf)
  some ⟨((o.pos + len) % 2 ^ 32).toNat, buf⟩

def emit (fresh : Buf) (max : ℕ) : Item → Out → Option Out
  | .literal text, o =>
    some (Out.wrap ⟨o.pos + text.length,
      if o.pos < max then
        Function.update (copy o.buf o.pos (text.take (max - o.pos))) (min (o.pos + text.length) max) NUL
      else o.buf⟩)
  | .percent, o =>
    some (Out.wrap ⟨o.pos + 1,
      if o.pos < max then Function.update (Function.update o.buf o.pos '%') (min (o.pos + 1) max) NUL else o.buf⟩)
  | .number p val, o => do
    let n ← (if o.pos < max then fmtUll fresh p val 2 (max - o.pos) fun k => o.buf (o.pos + k)
      else fmtUll fresh p val 2 0 o.buf)
    some ((Out.wrap ⟨o.pos + n.pos, if o.pos < max then splice o.buf o.pos n.buf else n.buf⟩).terminate max)
  | .char c, o => some ((o.put max c).wrap.terminate max)
  | .string p src, o => (putString max p src o).map (Out.terminate max)
  | .count, o => some (o.terminate max)

def vsnprintfLoop (fresh : Buf) (strings : Word → List Char) (max : ℕ) (fmt : List Char) (ap : Va) (o : Out) :
    Option (ℤ × Buf) :=
  match fmt with
  | [] => some (int o.pos, o.buf)
  | c :: str =>
    match h : next strings (c :: str) ap with
    | none => some (-1, o.buf)
    | some (it, rest, ap') =>
      have : rest.length < (c :: str).length := next_length h
      (emit fresh max it o).bind fun o' => vsnprintfLoop fresh strings max rest ap' o'
termination_by fmt.length
decreasing_by exact this

/-- The return value and the buffer. `str` is `none` for a null pointer. -/
def vsnprintf (fresh : Buf) (strings : Word → List Char) (str : Option Buf) (size : ℕ) (fmt : List Char) (ap : Va) :
    Option (ℤ × Buf) :=
  match str with
  | none => vsnprintfLoop fresh strings 0 fmt ap ⟨0, fresh⟩
  | some buf =>
    let max := if 0 < size then size - 1 else 0
    vsnprintfLoop fresh strings max fmt ap ⟨0, if 0 < max then Function.update buf 0 NUL else buf⟩

/-- The digits from the low one up, behind `n` characters. -/
def digitText (p : FmtParam) (acc g n : ℕ) : List Char :=
  if acc = 0 ∧ n ≠ 0 then []
  else
    let c := p.char (Nat.digitChar (p.digit acc))
    if p.grouping ∧ g + 1 = 3 then c :: '_' :: digitText p (p.rest acc) 0 (n + 1 + 1)
    else c :: digitText p (p.rest acc) (g + 1) (n + 1)
termination_by acc + if n = 0 then 1 else 0
decreasing_by all_goals simpa using p.rest_measure ‹_› (Nat.succ_ne_zero n)

def padTo (c : Char) (n : ℕ) (t : List Char) : List Char := t ++ List.replicate (n - t.length) c

def reversedText (p : FmtParam) (val : BitVec 64) : Option (List Char) := do
  let (acc, sign) := p.sign val
  let t := padTo '0' p.precision.toInt.toNat (digitText p acc 0 0)
  let radix ← p.radix (val = 0) (t.getLast?.getD NUL)
  let pre := radix ++ sign
  let (t, pre) := if ¬p.leftjust ∧ p.pad = ' ' then (t ++ pre, []) else (t, pre)
  let t := if p.leftjust then t else padTo p.pad (p.minWidth - pre.length) t
  some (t ++ pre)

def numberText (p : FmtParam) (val : BitVec 64) : Option (List Char) := do
  let t ← reversedText p val
  some (if p.leftjust then padTo p.pad p.minWidth t.reverse else t.reverse)

def shownText (p : FmtParam) (src : List Char) : List Char :=
  if 0 ≤ p.precision.toInt then src.take p.precision.toNat else src

def stringText (p : FmtParam) (src : List Char) : List Char :=
  List.replicate (p.width.toInt - (shownText p src).length).toNat ' ' ++ shownText p src

namespace Item

def text : Item → Option (List Char)
  | literal text => some text
  | percent => some ['%']
  | number p val => numberText p val
  | char c => some [c]
  | string p src => some (stringText p src)
  | count => some []

/-- The items that compare the room that is left as an `int`. -/
def signed : Item → Prop
  | number _ _ | string _ _ => True
  | _ => False

end Item

def texts : List Item → Option (List Char)
  | [] => some []
  | it :: its => do
    let t ← it.text
    let t' ← texts its
    some (t ++ t')

def render (strings : Word → List Char) (fmt : List Char) (ap : Va) : Option (List Char) :=
  (items strings fmt ap).bind texts

-- What is written

/-- `t` was put out to a buffer with `max` cells and one for the NUL. -/
structure Written (max : ℕ) (t : List Char) (b₀ : Buf) (o : Out) : Prop where
  pos : o.pos = t.length
  clipped : Clipped max t b₀ o.buf

namespace Written

variable {max : ℕ} {t l : List Char} {b₀ : Buf} {o : Out}

theorem start : Written max [] b₀ ⟨0, b₀⟩ where
  pos := rfl
  clipped := Clipped.nil

theorem put (h : Written max t b₀ o) (c : Char) : Written max (t ++ [c]) b₀ (o.put max c) where
  pos := by simp [Out.put, h.pos]
  clipped := by
    unfold Out.put
    dsimp only
    rw [h.pos]
    split
    · exact h.clipped.push ‹_›
    · exact h.clipped.skip (by omega)

theorem putAll (h : Written max t b₀ o) (l : List Char) : Written max (t ++ l) b₀ (o.putAll max l) where
  pos := by simp [Out.putAll, h.pos]
  clipped := by
    unfold Out.putAll
    dsimp only
    rw [h.pos]
    split
    · exact h.clipped.copy ‹_›
    · exact h.clipped.skip (by omega)

theorem fillTo (h : Written max t b₀ o) (c : Char) (n : ℕ) : Written max (padTo c n t) b₀ (o.fillTo max c n) := by
  unfold Out.fillTo padTo
  split
  · rename_i hlt
    rw [h.pos] at hlt
    refine ⟨?_, ?_⟩
    · rw [List.length_append, List.length_replicate]
      exact (Nat.add_sub_of_le hlt.le).symm
    · dsimp only
      rw [h.pos]
      split
      · exact h.clipped.fill ‹_› (by omega) (Nat.min_le_left _ _)
      · exact h.clipped.skip (by omega)
  · rename_i hle
    rw [h.pos] at hle
    rw [Nat.sub_eq_zero_of_le (by omega), List.replicate_zero, List.append_nil]
    exact h

theorem store {i : ℕ} (h : Written max t b₀ o) (hmax : 0 < max) (hlow : min t.length max ≤ i) (hhigh : i ≤ max) :
    Written max t b₀ ⟨o.pos, Function.update o.buf i NUL⟩ where
  pos := h.pos
  clipped := h.clipped.store hmax.ne' hlow hhigh

theorem terminate (h : Written max t b₀ o) : Written max t b₀ (o.terminate max) := by
  unfold Out.terminate
  split
  · exact h.store ‹_› (by rw [h.pos]) (Nat.min_le_right _ _)
  · exact h

theorem wrap (h : Written max t b₀ o) (hlen : t.length < 2 ^ 31) : Written max t b₀ o.wrap where
  pos := by
    rw [Out.wrap, h.pos]
    exact Nat.mod_eq_of_lt (by omega)
  clipped := h.clipped

theorem digits (p : FmtParam) (acc g : ℕ) (last : Char) (h : Written max t b₀ o)
    (hlast : t ≠ [] → (last = '0' ↔ t.getLast? = some '0')) :
    Written max (t ++ digitText p acc g t.length) b₀ (digits p max acc g o last).1 ∧
      t ++ digitText p acc g t.length ≠ [] ∧
      ((Stdio.digits p max acc g o last).2 = '0' ↔ (t ++ digitText p acc g t.length).getLast? = some '0') := by
  fun_induction Stdio.digits p max acc g o last generalizing t with
  | case1 acc g o last hdone =>
    rw [h.pos] at hdone
    have hnil : digitText p acc g t.length = [] := by
      rw [digitText, if_pos hdone]
    rw [hnil, List.append_nil]
    have hne : t ≠ [] := List.ne_nil_of_length_pos (Nat.pos_of_ne_zero hdone.2)
    exact ⟨h, hne, hlast hne⟩
  | case2 acc g o _ hmore c o' hgroup =>
    rename_i ih
    have hgo := ih ((h.put (p.char c)).put '_') fun _ => by simp
    have hcons : digitText p acc g t.length = p.char c :: '_' :: digitText p (p.rest acc) 0 (t.length + 1 + 1) := by
      rw [digitText, if_neg (by rwa [h.pos] at hmore), if_pos hgroup]
    rw [hcons]
    simpa using hgo
  | case3 acc g o _ hmore c last' o' hgroup =>
    rename_i ih
    have hzero : last' = '0' ↔ p.char c = '0' := by
      rw [p.char_digitChar]
      simp only [last']
      split
      · exact p.char_digitChar _
      · exact Iff.rfl
    have hgo := ih (h.put (p.char c)) fun _ => by simpa using hzero
    have hcons : digitText p acc g t.length = p.char c :: digitText p (p.rest acc) (g + 1) (t.length + 1) := by
      rw [digitText, if_neg (by rwa [h.pos] at hmore), if_neg hgroup]
    rw [hcons]
    simpa using hgo

theorem getLast?_padTo {last : Char} {pos : ℕ} (hpos : pos = t.length)
    (hlast : last = '0' ↔ t.getLast? = some '0') (n : ℕ) :
    (if pos < n then '0' else last) = '0' ↔ (padTo '0' n t).getLast?.getD NUL = '0' := by
  unfold padTo
  split
  · rename_i hlt
    obtain ⟨k, hk⟩ : ∃ k, n - t.length = k + 1 := ⟨n - t.length - 1, by omega⟩
    rw [hk, List.replicate_succ', ← List.append_assoc]
    simp
  · rename_i hle
    rw [Nat.sub_eq_zero_of_le (by omega), List.replicate_zero, List.append_nil, hlast]
    rcases t.getLast? with _ | c
    · simp [NUL]
    · simp

theorem backwards {p : FmtParam} {val : BitVec 64} (htext : reversedText p val = some t) (hlen : t.length < 2 ^ 31)
    (max : ℕ) (buf : Buf) : ∃ o, Stdio.backwards p val max buf = some o ∧ Written max t buf o := by
  rcases hsign : p.sign val with ⟨acc, sign⟩
  rcases hdigits : Stdio.digits p max acc 0 ⟨0, buf⟩ NUL with ⟨o, last⟩
  obtain ⟨h, hne, hlast⟩ : Written max (digitText p acc 0 0) buf o ∧ digitText p acc 0 0 ≠ [] ∧
      (last = '0' ↔ (digitText p acc 0 0).getLast? = some '0') := by
    have h := digits p acc 0 NUL (Written.start : Written max [] buf ⟨0, buf⟩) fun hnil => absurd rfl hnil
    rwa [hdigits] at h
  have hfill := h.fillTo '0' p.precision.toInt.toNat
  have hzero := getLast?_padTo h.pos hlast p.precision.toInt.toNat
  simp only [reversedText, hsign] at htext
  obtain ⟨radix, hradix, htext⟩ := Option.bind_eq_some_iff.mp htext
  rw [p.radix_congr hzero.symm] at hradix
  unfold Stdio.backwards
  simp only [hsign, hdigits, hradix, Option.bind_eq_bind, Option.bind_some]
  have hdone : ∀ {o : Out}, Written max t buf o →
      ∃ o', (if o.pos < 2 ^ 31 then some o else none) = some o' ∧ Written max t buf o' := fun {o} ho =>
    ⟨o, if_pos (ho.pos ▸ hlen), ho⟩
  by_cases hspace : ¬p.leftjust ∧ p.pad = ' '
  · simp only [if_pos hspace, if_neg hspace.1, Option.some.injEq] at htext ⊢
    subst htext
    exact hdone (((hfill.putAll (radix ++ sign)).fillTo p.pad _).putAll [])
  · simp only [if_neg hspace, Option.some.injEq] at htext ⊢
    by_cases hleft : p.leftjust
    · simp only [if_pos hleft] at htext ⊢
      subst htext
      exact hdone (hfill.putAll (radix ++ sign))
    · simp only [if_neg hleft] at htext ⊢
      subst htext
      exact hdone ((hfill.fillTo p.pad _).putAll (radix ++ sign))

end Written

-- A number

theorem int_of_lt {n : ℕ} (h : n < 2 ^ 31) : int n = n := by
  rw [int, BitVec.toInt_ofNat', Int.bmod_eq_of_le] <;> omega

theorem int_neg {n : ℕ} (hlow : 2 ^ 31 ≤ n) (hhigh : n < 2 ^ 32) : int n < 0 := by
  rw [int, BitVec.toInt_ofNat']
  have h : (n : ℤ).bmod (2 ^ 32) = n - 2 ^ 32 := by
    rw [Int.bmod_def, if_neg (by omega)]
    omega
  omega

theorem stop_of_lt {max : ℕ} (pos : ℕ) (h : max < 2 ^ 31) : stop pos max = some (min pos max) := by
  have hmin : min (pos : ℤ) (max : ℤ) = (min pos max : ℕ) := by omega
  rw [stop, int_of_lt h, hmin, if_pos (Int.natCast_nonneg _), Int.toNat_natCast]

theorem stop_eq_none {pos max : ℕ} (hlow : 2 ^ 31 ≤ max) (hhigh : max < 2 ^ 32) : stop pos max = none := by
  have := int_neg hlow hhigh
  rw [stop, if_neg (by omega)]

section Number

variable {p : FmtParam} {val : BitVec 64} {t r : List Char} {fresh buf : Buf} {max depth : ℕ} {o : Out}

theorem numberText_eq_some (h : numberText p val = some t) : ∃ r, reversedText p val = some r ∧
    t = if p.leftjust then padTo p.pad p.minWidth r.reverse else r.reverse := by
  obtain ⟨r, hr, ht⟩ := Option.bind_eq_some_iff.mp h
  exact ⟨r, hr, (Option.some.inj ht).symm⟩

theorem Written.padRight (h : Written max t buf o) (hmax : max < 2 ^ 31) : ∃ o', Stdio.padRight p max o = some o' ∧
    Written max (if p.leftjust then padTo p.pad p.minWidth t else t) buf o' := by
  unfold Stdio.padRight
  by_cases hleft : p.leftjust
  · simp only [if_pos hleft]
    have hfill := h.fillTo p.pad p.minWidth
    by_cases hpos : 0 < max
    · rw [if_pos hpos, stop_of_lt _ hmax]
      exact ⟨_, rfl, hfill.store hpos (by rw [hfill.pos]) (Nat.min_le_right _ _)⟩
    · rw [if_neg hpos]
      exact ⟨_, rfl, hfill⟩
  · simp only [if_neg hleft]
    exact ⟨o, rfl, h⟩

theorem fmtUll_fits (fresh : Buf) (depth : ℕ) (hr : reversedText p val = some r) (hpos : 0 < max) (hfits : r.length ≤ max)
    (hmax : max < 2 ^ 31) (buf : Buf) : ∃ o, fmtUll fresh p val (depth + 1) max buf = some o ∧
      Written max (if p.leftjust then padTo p.pad p.minWidth r.reverse else r.reverse) buf o := by
  obtain ⟨o, hback, ho⟩ := Written.backwards hr (by omega) max buf
  have hcut : ¬(0 < max ∧ max < o.pos) := by
    rw [ho.pos]
    omega
  have hstop : stop o.pos max = some r.length := by
    rw [stop_of_lt _ hmax, ho.pos, Nat.min_eq_left hfits]
  have hturn : Written max r.reverse buf
      ⟨o.pos, swaps (Function.update o.buf r.length NUL) r.length (r.length / 2)⟩ :=
    ⟨by rw [List.length_reverse, ho.pos],
      (ho.clipped.store hpos.ne' (Nat.min_le_left _ _) hfits).reverse hfits⟩
  obtain ⟨o', ho', hw⟩ := hturn.padRight (p := p) hmax
  refine ⟨o', ?_, hw⟩
  rw [fmtUll, hback]
  simp only [Option.bind_eq_bind, Option.bind_some, if_neg hcut, if_pos hpos, hstop]
  exact ho'

theorem fmtUll_written (fresh : Buf) (ht : numberText p val = some t) (hlen : t.length < 2 ^ 31) (hmax : max < 2 ^ 31) (buf : Buf) :
    ∃ o, fmtUll fresh p val 2 max buf = some o ∧ Written max t buf o := by
  obtain ⟨r, hr, rfl⟩ := numberText_eq_some ht
  have hrlen : r.length < 2 ^ 31 := by
    refine Nat.lt_of_le_of_lt ?_ hlen
    split
    · simp [padTo]
    · simp
  rcases Nat.eq_zero_or_pos max with rfl | hpos
  · obtain ⟨o, hback, ho⟩ := Written.backwards hr hrlen 0 buf
    have hturn : Written 0 r.reverse buf o := ⟨by rw [List.length_reverse, ho.pos], ho.clipped.zero⟩
    obtain ⟨o', ho', hw⟩ := hturn.padRight (p := p) (by omega)
    refine ⟨o', ?_, hw⟩
    rw [fmtUll, hback]
    simp only [Option.bind_eq_bind, Option.bind_some, Nat.lt_irrefl, false_and, if_false] at ho' ⊢
    exact ho'
  · by_cases hfits : r.length ≤ max
    · exact fmtUll_fits fresh 1 hr hpos hfits hmax buf
    · obtain ⟨o, hback, ho⟩ := Written.backwards hr hrlen max buf
      have hcut : 0 < max ∧ max < o.pos := by
        rw [ho.pos]
        omega
      obtain ⟨trunc, htrunc, hw⟩ := fmtUll_fits fresh 0 hr (by omega) le_rfl hrlen fresh
      rw [← ho.pos] at htrunc
      have hnumber : Clipped r.length r.reverse fresh trunc.buf := by
        have hall := hw.clipped
        split at hall
        · exact hall.front
        · exact hall
      have hclip := ho.clipped.replace hpos.ne' (by omega) hnumber
      have hturn : Written max r.reverse buf
          ⟨o.pos, Function.update (fun k => if k < max then trunc.buf k else o.buf k) max NUL⟩ :=
        ⟨by rw [List.length_reverse, ho.pos], hclip.store hpos.ne' (Nat.min_le_right _ _) le_rfl⟩
      obtain ⟨o', ho', hw'⟩ := hturn.padRight (p := p) hmax
      refine ⟨o', ?_, hw'⟩
      rw [fmtUll, hback]
      simp only [Option.bind_eq_bind, Option.bind_some, if_pos hcut, htrunc]
      exact ho'

theorem fmtUll_eq_none (fresh : Buf) (hlow : 2 ^ 31 ≤ max) (hhigh : max < 2 ^ 32) (buf : Buf) :
    fmtUll fresh p val (depth + 1) max buf = none := by
  rw [fmtUll]
  rcases hback : backwards p val max buf with _ | o
  · rfl
  · have hpos := backwards_pos hback
    have hcut : ¬(0 < max ∧ max < o.pos) := by omega
    simp only [Option.bind_eq_bind, Option.bind_some, if_neg hcut, if_pos (show 0 < max by omega),
      stop_eq_none hlow hhigh, Option.bind_none]

end Number

-- A string

section String

variable {p : FmtParam} {src t : List Char} {b₀ : Buf} {max : ℕ} {o : Out}

theorem stringLen_eq (h : (shownText p src).length < 2 ^ 31) : stringLen p src = (shownText p src).length := by
  unfold stringLen
  rw [← int_of_lt h]
  congr 1
  unfold shownText
  split
  · rw [List.length_take, Nat.min_comm]
  · rfl

theorem shownText_take (p : FmtParam) (src : List Char) : src.take (shownText p src).length = shownText p src := by
  unfold shownText
  split
  · rw [List.length_take, List.take_eq_take_iff]
    omega
  · exact List.take_length

theorem emod_toNat {a : ℤ} {n : ℕ} (ha : a = n) (hn : n < 2 ^ 31) : (a % 2 ^ 32).toNat = n := by
  omega

theorem Written.padLeft (h : Written max t b₀ o) (width : ℤ) (len : ℕ) (hmax : max - t.length < 2 ^ 31)
    (hlen : t.length + (width - len).toNat < 2 ^ 31) : ∃ o', Stdio.padLeft max width len o = some o' ∧
      Written max (t ++ List.replicate (width - len).toNat ' ') b₀ o' := by
  unfold Stdio.padLeft
  by_cases hpad : (len : ℤ) < width
  · have hpos : (((o.pos : ℤ) + (width - len)) % 2 ^ 32).toNat = (t ++ List.replicate (width - len).toNat ' ').length := by
      rw [List.length_append, List.length_replicate]
      exact emod_toNat (by rw [h.pos]; omega) hlen
    by_cases hroom : t.length < max
    · have hnpad : min (width - len) (int (max - o.pos)) = (min (width - len).toNat (max - t.length) : ℕ) := by
        rw [h.pos, int_of_lt hmax]
        omega
      simp only [if_pos hpad, h.pos ▸ hroom, if_true, hnpad, Int.natCast_nonneg, Int.toNat_natCast,
        Option.bind_eq_bind, Option.bind_some]
      refine ⟨_, rfl, hpos, ?_⟩
      rw [h.pos]
      refine (h.clipped.fill hroom ?_ ?_).store (by omega) ?_ (by omega)
      · exact le_of_eq (Nat.min_comm _ _)
      · omega
      · rw [List.length_append, List.length_replicate]
        omega
    · simp only [if_pos hpad, h.pos ▸ hroom, if_false, Option.bind_eq_bind, Option.bind_some]
      exact ⟨_, rfl, hpos, h.clipped.skip (by omega)⟩
  · have hnone : (width - len).toNat = 0 := by omega
    rw [if_neg hpad, hnone, List.replicate_zero, List.append_nil]
    exact ⟨o, rfl, h⟩

theorem Written.putString (h : Written max t b₀ o) (hlen : (t ++ stringText p src).length < 2 ^ 31)
    (hmax : max - t.length < 2 ^ 31) :
    ∃ o', Stdio.putString max p src o = some o' ∧ Written max (t ++ stringText p src) b₀ o' := by
  have hlens : t.length + (p.width.toInt - (shownText p src).length).toNat + (shownText p src).length < 2 ^ 31 := by
    simpa [stringText, Nat.add_assoc] using hlen
  obtain ⟨o₁, hpad, h₁⟩ := h.padLeft p.width.toInt (shownText p src).length hmax (by omega)
  have hlen₁ := h₁.pos
  rw [List.length_append, List.length_replicate] at hlen₁
  have hpos : (((o₁.pos : ℤ) + (shownText p src).length) % 2 ^ 32).toNat = (t ++ stringText p src).length := by
    refine emod_toNat ?_ hlen
    rw [hlen₁, stringText, List.length_append, List.length_append, List.length_replicate]
    omega
  unfold Stdio.putString
  dsimp only
  rw [stringLen_eq (by omega), hpad]
  rw [stringText, ← List.append_assoc] at hpos ⊢
  by_cases hroom : o₁.pos < max
  · have hn : min (int (max - o₁.pos)) ((shownText p src).length : ℤ) =
        (min (max - o₁.pos) (shownText p src).length : ℕ) := by
      rw [int_of_lt (by omega)]
      omega
    simp only [Option.bind_eq_bind, Option.bind_some, if_pos hroom, hn, Int.natCast_nonneg, if_true,
      Int.toNat_natCast]
    refine ⟨_, rfl, hpos, ?_⟩
    rw [← List.take_take, shownText_take, h₁.pos]
    exact h₁.clipped.copy (h₁.pos ▸ hroom)
  · simp only [Option.bind_eq_bind, Option.bind_some, if_neg hroom]
    exact ⟨_, rfl, hpos, h₁.clipped.skip (by rw [← h₁.pos]; omega)⟩

theorem putString_eq_none (hlow : 2 ^ 31 ≤ max - o.pos) (hhigh : max < 2 ^ 32) :
    Stdio.putString max p src o = none := by
  have hneg := int_neg hlow (by omega)
  have hroom : o.pos < max := by omega
  unfold Stdio.putString
  dsimp only
  by_cases hpad : stringLen p src < p.width.toInt
  · have hnone : Stdio.padLeft max p.width.toInt (stringLen p src) o = none := by
      unfold Stdio.padLeft
      rw [if_pos hpad, if_pos hroom, if_neg (by omega)]
      rfl
    rw [hnone]
    rfl
  · have hsome : Stdio.padLeft max p.width.toInt (stringLen p src) o = some o := if_neg hpad
    rw [hsome, Option.bind_eq_bind, Option.bind_some, if_pos hroom, if_neg (by omega)]
    rfl

end String

/-- What a buffer of `size` cells gets of a text, with the return value. -/
def Truncates (size : ℕ) (text : List Char) (str : Buf) (r : Option (ℤ × Buf)) : Prop :=
  ∃ buf, r = some ((text.length : ℤ), buf) ∧ (∀ i c, text[i]? = some c → i < size - 1 → buf i = c) ∧
    buf (min text.length (size - 1)) = NUL ∧ ∀ i, size ≤ i → buf i = str i

section Loop

variable {max : ℕ} {t l : List Char} {b₀ fresh : Buf} {o o' : Out} {it : Item} {strings : Word → List Char} {ap : Va}

def Ended (max : ℕ) (o : Out) : Prop := 0 < max → o.buf (min o.pos max) = NUL

theorem Ended.terminate : Ended max (o.terminate max) := by
  intro hmax
  unfold Out.terminate
  rw [if_pos hmax]
  exact Function.update_self ..

theorem Written.line {c : Buf} (h : Written max t b₀ o) (hend : Ended max o) (hlen : (t ++ l).length < 2 ^ 31)
    (hc : o.pos < max → Clipped max (t ++ l) b₀ c) (o' : Out)
    (ho' : o' = Out.wrap ⟨o.pos + l.length,
      if o.pos < max then Function.update c (min (o.pos + l.length) max) NUL else o.buf⟩) :
    Written max (t ++ l) b₀ o' ∧ Ended max o' := by
  have hnext : o.pos + l.length = (t ++ l).length := by rw [h.pos, List.length_append]
  have hpos : o'.pos = (t ++ l).length := by
    rw [ho', ← hnext]
    exact Nat.mod_eq_of_lt (show o.pos + l.length < 2 ^ 32 by omega)
  by_cases hroom : o.pos < max
  · have hbuf : o'.buf = Function.update c (min (t ++ l).length max) NUL := by
      rw [ho', ← hnext]
      exact if_pos hroom
    refine ⟨⟨hpos, ?_⟩, fun _ => ?_⟩
    · rw [hbuf]
      exact (hc hroom).store (by omega) le_rfl (Nat.min_le_right _ _)
    · rw [hbuf, hpos]
      exact Function.update_self ..
  · have hbuf : o'.buf = o.buf := by
      rw [ho']
      exact if_neg hroom
    refine ⟨⟨hpos, ?_⟩, fun hmax => ?_⟩
    · rw [hbuf]
      exact h.clipped.skip (by rw [← h.pos]; omega)
    · have hfull := hend hmax
      rw [Nat.min_eq_right (by omega)] at hfull
      rw [hbuf, hpos, Nat.min_eq_right (by omega)]
      exact hfull

theorem Written.emit (fresh : Buf) (h : Written max t b₀ o) (hend : Ended max o) (htext : it.text = some l)
    (hlen : (t ++ l).length < 2 ^ 31) (hroom : it.signed → max - t.length < 2 ^ 31) :
    ∃ o', Stdio.emit fresh max it o = some o' ∧ Written max (t ++ l) b₀ o' ∧ Ended max o' := by
  cases it with
  | literal text =>
    cases htext
    refine ⟨_, rfl, h.line hend hlen (fun hlt => ?_) _ rfl⟩
    have hcopy := h.clipped.copy (l := l) (h.pos ▸ hlt)
    rwa [← h.pos] at hcopy
  | percent =>
    cases htext
    refine ⟨_, rfl, h.line hend hlen (fun hlt => ?_) _ rfl⟩
    have hpush := h.clipped.push (a := '%') (h.pos ▸ hlt)
    rwa [← h.pos] at hpush
  | number p val =>
    have hnumber : l.length < 2 ^ 31 := by
      rw [List.length_append] at hlen
      omega
    by_cases hlt : o.pos < max
    · obtain ⟨n, hn, hw⟩ := fmtUll_written fresh htext hnumber (hroom trivial) fun k => o.buf (t.length + k)
      rw [← h.pos] at hn
      refine ⟨_, by simp only [Stdio.emit, if_pos hlt, hn]; rfl, (Written.wrap ⟨?_, ?_⟩ hlen).terminate, Ended.terminate⟩
      · rw [List.length_append, ← hw.pos, h.pos]
      · rw [h.pos]
        exact h.clipped.splice (h.pos ▸ hlt) hw.clipped
    · obtain ⟨n, hn, hw⟩ := fmtUll_written fresh htext hnumber (show 0 < 2 ^ 31 by omega) o.buf
      refine ⟨_, by simp only [Stdio.emit, if_neg hlt, hn]; rfl, (Written.wrap ⟨?_, ?_⟩ hlen).terminate, Ended.terminate⟩
      · rw [List.length_append, ← hw.pos, h.pos]
      · rw [hw.clipped.none rfl]
        exact h.clipped.skip (by rw [← h.pos]; omega)
  | char c =>
    cases htext
    exact ⟨_, rfl, ((h.put c).wrap hlen).terminate, Ended.terminate⟩
  | string p src =>
    cases htext
    obtain ⟨o', ho', hw⟩ := h.putString hlen (hroom trivial)
    refine ⟨o'.terminate max, ?_, hw.terminate, Ended.terminate⟩
    simp only [Stdio.emit, ho', Option.map_some]
  | count =>
    cases htext
    rw [List.append_nil]
    exact ⟨_, rfl, h.terminate, Ended.terminate⟩

theorem emit_eq_none (hsigned : it.signed) (hlow : 2 ^ 31 ≤ max - o.pos) (hhigh : max < 2 ^ 32) :
    Stdio.emit fresh max it o = none := by
  cases it with
  | number p val =>
    simp only [Stdio.emit, if_pos (show o.pos < max by omega), fmtUll_eq_none fresh hlow (by omega)]
    rfl
  | string p src =>
    simp only [Stdio.emit, putString_eq_none hlow hhigh, Option.map_none]
  | _ => exact hsigned.elim

def emits (fresh : Buf) (max : ℕ) : List Item → Out → Option Out
  | [], o => some o
  | it :: its, o => (emit fresh max it o).bind (emits fresh max its)

theorem vsnprintfLoop_eq {fmt : List Char} {its : List Item} (h : items strings fmt ap = some its) (o : Out) :
    vsnprintfLoop fresh strings max fmt ap o = (emits fresh max its o).map fun o => (int o.pos, o.buf) := by
  fun_induction items strings fmt ap generalizing its o with
  | case1 ap =>
    cases h
    rw [vsnprintfLoop]
    rfl
  | case2 ap c str hnext => cases h
  | case3 ap c str it rest ap' hnext hlt ih =>
    obtain ⟨its', hits', rfl⟩ := Option.map_eq_some_iff.mp h
    rw [vsnprintfLoop, emits]
    split
    · rename_i hnone
      cases hnone.symm.trans hnext
    · rename_i hsome
      cases hsome.symm.trans hnext
      rcases Stdio.emit fresh max it o with _ | o'
      · rfl
      · exact ih hits' o'

/-- Behind `n` characters, each item that needs it finds less room than an `int` can say. -/
def Roomy (max n : ℕ) (its : List Item) : Prop :=
  ∀ before it after l, its = before ++ it :: after → texts before = some l → it.signed → max - (n + l.length) < 2 ^ 31

theorem roomy_cons {n : ℕ} {its : List Item} (htext : it.text = some l) :
    Roomy max n (it :: its) ↔ (it.signed → max - n < 2 ^ 31) ∧ Roomy max (n + l.length) its := by
  constructor
  · refine fun h => ⟨h [] it its [] rfl rfl, fun before it' after l' hits hl' => ?_⟩
    have hbefore : texts (it :: before) = some (l ++ l') := by
      simp only [texts, htext, hl', Option.bind_eq_bind, Option.bind_some]
    have hn := h (it :: before) it' after (l ++ l') (by rw [hits]; rfl) hbefore
    rwa [List.length_append, ← Nat.add_assoc] at hn
  · rintro ⟨hhead, htail⟩ (_ | ⟨it', before⟩) it'' after l' hits hl'
    · cases hits
      cases hl'
      exact hhead
    · cases hits
      obtain ⟨l₁, hl₁, hl'⟩ := Option.bind_eq_some_iff.mp hl'
      obtain ⟨l₂, hl₂, hl'⟩ := Option.bind_eq_some_iff.mp hl'
      cases hl'
      cases hl₁.symm.trans htext
      have hn := htail before it'' after l₂ rfl hl₂
      rwa [List.length_append, ← Nat.add_assoc]

theorem Written.emits {its : List Item} (hmax : max < 2 ^ 32) (h : Written max t b₀ o) (hend : Ended max o)
    (htexts : texts its = some l) (hlen : (t ++ l).length < 2 ^ 31) :
    (Roomy max t.length its → ∃ o', Stdio.emits fresh max its o = some o' ∧ Written max (t ++ l) b₀ o' ∧ Ended max o') ∧
      (¬Roomy max t.length its → Stdio.emits fresh max its o = none) := by
  induction its generalizing t l o with
  | nil =>
    cases htexts
    rw [List.append_nil]
    exact ⟨fun _ => ⟨o, rfl, h, hend⟩, fun hno => absurd (fun before _ _ _ hnil => by simp at hnil) hno⟩
  | cons it its ih =>
    obtain ⟨l₁, hl₁, htexts⟩ := Option.bind_eq_some_iff.mp htexts
    obtain ⟨l₂, hl₂, htexts⟩ := Option.bind_eq_some_iff.mp htexts
    cases htexts
    rw [← List.append_assoc] at hlen ⊢
    rw [roomy_cons hl₁, ← List.length_append]
    by_cases hhead : it.signed → max - t.length < 2 ^ 31
    · have hfront : (t ++ l₁).length < 2 ^ 31 := by
        rw [List.length_append] at hlen
        omega
      obtain ⟨o', ho', hw, hend'⟩ := h.emit fresh hend hl₁ hfront hhead
      rw [Stdio.emits, ho', Option.bind_some]
      obtain ⟨hyes, hno⟩ := ih hw hend' hl₂ hlen
      exact ⟨fun hroomy => hyes hroomy.2, fun hnot => hno fun hroomy => hnot ⟨hhead, hroomy⟩⟩
    · obtain ⟨hsigned, hbig⟩ := Classical.not_imp.mp hhead
      refine ⟨fun hroomy => absurd hroomy.1 hhead, fun _ => ?_⟩
      rw [Stdio.emits, emit_eq_none hsigned (by rw [h.pos]; omega) hmax]
      rfl

end Loop

section Call

variable {fresh str : Buf} {strings : Word → List Char} {fmt text : List Char} {ap : Va} {size : ℕ} {its : List Item}

theorem vsnprintf_start (fresh str : Buf) (hits : items strings fmt ap = some its) (hpos : 1 ≤ size) :
    ∃ b, vsnprintf fresh strings (some str) size fmt ap =
        (emits fresh (size - 1) its ⟨0, b⟩).map (fun o => (int o.pos, o.buf)) ∧
      Written (size - 1) [] str ⟨0, b⟩ ∧ Ended (size - 1) ⟨0, b⟩ := by
  refine ⟨if 0 < size - 1 then Function.update str 0 NUL else str, ?_, ⟨rfl, ?_⟩, fun hmax => ?_⟩
  · simp only [vsnprintf, if_pos (show 0 < size by omega)]
    exact vsnprintfLoop_eq hits _
  · have hnil : Clipped (size - 1) [] str str := Clipped.nil
    dsimp only
    split
    · exact hnil.store (by omega) (Nat.min_le_left _ _) (Nat.zero_le _)
    · exact hnil
  · dsimp only
    rw [if_pos hmax, Nat.zero_min, Function.update_self]

theorem vsnprintf_of_roomy (fresh str : Buf) (hits : items strings fmt ap = some its) (htexts : texts its = some text)
    (hlen : text.length < 2 ^ 31) (htwo : 2 ≤ size) (hsize : size < 2 ^ 32) (hroomy : Roomy (size - 1) 0 its) :
    Truncates size text str (vsnprintf fresh strings (some str) size fmt ap) := by
  obtain ⟨b, hrun, hw, hend⟩ := vsnprintf_start fresh str hits (show 1 ≤ size by omega)
  obtain ⟨o, ho, hwritten, hended⟩ := (hw.emits (by omega) hend htexts hlen).1 hroomy
  have hpos : o.pos = text.length := hwritten.pos
  refine ⟨o.buf, ?_, hwritten.clipped.cells, ?_, fun i hi => hwritten.clipped.past i (by omega)⟩
  · rw [hrun, ho, ← hpos, Option.map_some, int_of_lt (hpos ▸ hlen)]
  · rw [← hpos]
    exact hended (by omega)

theorem vsnprintf_of_not_roomy (fresh str : Buf) (hits : items strings fmt ap = some its)
    (htexts : texts its = some text) (hlen : text.length < 2 ^ 31) (hpos : 1 ≤ size) (hsize : size < 2 ^ 32)
    (hroomy : ¬Roomy (size - 1) 0 its) : vsnprintf fresh strings (some str) size fmt ap = none := by
  obtain ⟨b, hrun, hw, hend⟩ := vsnprintf_start fresh str hits hpos
  rw [hrun, (hw.emits (by omega) hend htexts hlen).2 hroomy]
  rfl

theorem vsnprintf_one (fresh str : Buf) (hits : items strings fmt ap = some its) (htexts : texts its = some text)
    (hlen : text.length < 2 ^ 31) (hroomy : Roomy 0 0 its) :
    ∃ n, vsnprintf fresh strings (some str) 1 fmt ap = some (n, str) := by
  obtain ⟨b, hrun, hw, hend⟩ := vsnprintf_start fresh str hits le_rfl
  obtain ⟨o, ho, hwritten, _⟩ := (hw.emits (by omega) hend htexts hlen).1 hroomy
  rw [hrun, ho, ← hwritten.clipped.none rfl]
  exact ⟨int o.pos, rfl⟩

end Call

def argList (args : List Word) : Va := fun k => args.getD k 0

end Sneks.Stdio
