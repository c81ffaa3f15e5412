import Sneks.Stdlib.Memchr

/-!
# Looking for a character: `strchr` and `strchrnul` in `lib/string.c`

Before a word boundary a `char`, which has a sign, is compared with the argument as an `int`. From
there on the argument is multiplied into a pattern, as it is. So a character above `0x7f` that is given
without its sign is not found before the boundary; where it is given with its sign, the pattern has one
less for three bytes of four.
-/

namespace Sneks.Stdlib
open Lib

/-- `strchrnul`, for at most `n` turns of its second loop. -/
def strchrnul (m : Memory) (s : ℕ) (c : BitVec 32) (n : ℕ) : Option ℕ :=
  -- a boundary is no more than three bytes ahead
  match scanHead m (fun b => b.toBitVec.signExtend 32 == c || b == 0) 3 s with
  | .inl s => some s
  | .inr (s, _) =>
    scanWords m (fun x => (byteMask x c ||| zeroMask x) != 0) (fun x => byteMask x c ||| zeroMask x) n (4 * n) s

def strchr (m : Memory) (s : ℕ) (c : BitVec 32) (n : ℕ) : Option (Option ℕ) :=
  (strchrnul m s c n).map fun ret => if m ret = 0 then none else some ret

variable {m : Memory} {s len n : ℕ} {c : BitVec 32}

structure Terminated (m : Memory) (s len : ℕ) : Prop where
  nul : m (s + len) = 0
  text : ∀ x, s ≤ x → x < s + len → m x ≠ 0

/-- The value of an `unsigned char` or of a `char`. -/
def IsChar (c : BitVec 32) : Prop := c.toNat < 2 ^ 8 ∨ 2 ^ 32 - 2 ^ 7 ≤ c.toNat

def Agrees (m : Memory) (s len : ℕ) (c : BitVec 32) : Prop :=
  c.toNat < 2 ^ 7 ∨
    (c.toNat < 2 ^ 8 ∧ ∀ x, s ≤ x → x < s + len → x < wordUp s → m x ≠ lowByte c) ∨
    (2 ^ 8 ≤ c.toNat ∧ ∀ x, wordUp s ≤ x → x < s + len → x % 4 ≠ 0 →
      (∀ y, s ≤ y → y < x → m y ≠ lowByte c) → m x ≠ lowByte c ∧ m x ≠ lowByte c - 1)

def pattern (c : BitVec 32) (i : ℕ) : BitVec 8 := BitVec.ofNat 8 (if i = 0 ∨ c.toNat < 2 ^ 8 then c.toNat else c.toNat - 1)

theorem broadcastL_char (h : IsChar c) :
    broadcastL c = word (pattern c 3) (pattern c 2) (pattern c 1) (pattern c 0) := by
  refine BitVec.eq_of_toNat_eq ?_
  have hlt := c.isLt
  simp only [toNat_broadcastL, toNat_word, pattern, BitVec.toNat_ofNat, Nat.reduceEqDiff, true_or, false_or, if_true]
  obtain hsmall | hbig := h
  · have hprod : 0x01010101 * c.toNat < 2 ^ 32 := by omega
    rw [if_pos hsmall, Nat.mod_eq_of_lt hprod, Nat.mod_eq_of_lt hsmall]
    omega
  · obtain ⟨k, hk⟩ := Nat.exists_eq_add_of_le (Nat.le_of_lt hlt)
    have hprod : 0x01010101 * c.toNat % 2 ^ 32 = 2 ^ 32 - 0x01010101 * k := by omega
    have hfirst : c.toNat % 2 ^ 8 = 2 ^ 8 - k := by omega
    have hother : (c.toNat - 1) % 2 ^ 8 = 2 ^ 8 - 1 - k := by omega
    rw [if_neg (by omega), hprod, hfirst, hother]
    omega

def found (m : Memory) (s : ℕ) (c : BitVec 32) (x : ℕ) : Bool :=
  (if x < wordUp s then (m x).toBitVec.signExtend 32 == c else (m x).toBitVec == pattern c (x % 4)) || m x == 0

theorem marks_found (h : IsChar c) :
    Marks m (found m s c) (fun x => (byteMask x c ||| zeroMask x) != 0) (fun x => byteMask x c ||| zeroMask x) (wordUp s) where
  marked p hle heven := by
    have hmod : (p + 3) % 4 = 3 ∧ (p + 2) % 4 = 2 ∧ (p + 1) % 4 = 1 := by omega
    have hge : ∀ k, ¬ p + k < wordUp s := fun k => Nat.not_lt.mpr (Nat.le_trans hle (Nat.le_add_right p k))
    have hhere : ¬ p < wordUp s := Nat.not_lt.mpr hle
    rw [byteMask, broadcastL_char h, zeroMask_xor, zeroMask_loadLel, or_word, mark_or, mark_or, mark_or, mark_or]
    rw [found, found, found, found, if_neg (hge 3), if_neg (hge 2), if_neg (hge 1), if_neg hhere, hmod.1, hmod.2.1,
      hmod.2.2, heven]
  tested _ := rfl

theorem strchrnul_eq (h : IsChar c) (m : Memory) (s n : ℕ) :
    strchrnul m s c n = first (found m s c) s (wordUp s - s + 4 * n) := by
  have hq : ∀ x, s ≤ x → x < wordUp s → found m s c x = ((m x).toBitVec.signExtend 32 == c || m x == 0) := by
    intro x _ hlt
    rw [found, if_pos hlt]
  rw [strchrnul]
  obtain ⟨x, hs, hlt, hfirst⟩ | ⟨p', k', hs, hstop⟩ := @scanHead_spec m
    (fun b => b.toBitVec.signExtend 32 == c || b == 0) (found m s c) 3 s hq
  · obtain ⟨hle, -, hx, hno⟩ := first_eq_some_iff.mp hfirst
    rw [hs]
    exact (first_eq_some_iff.mpr ⟨hle, by omega, hx, hno⟩).symm
  · have hle := hstop.le
    have hup := hstop.up
    have heven := hstop.even
    have hsum := hstop.sum
    obtain rfl : p' = wordUp s := by
      rw [wordUp] at hup ⊢
      omega
    have hmod : wordUp s % 4 = 0 := Nat.mul_mod_left _ _
    have hwords := (@marks_found m s c h).scanWords (Nat.le_refl _) (.inl hmod) (Nat.le_refl (4 * n))
    rw [hs, first_add, hstop.clear, Option.none_or, Nat.add_sub_cancel' hle]
    dsimp only
    rw [← hwords]
    cases hw : scanWords m (fun x => (byteMask x c ||| zeroMask x) != 0) (fun x => byteMask x c ||| zeroMask x) n (4 * n) (wordUp s) with
    | none => rfl
    | some x =>
      rw [Option.filter_some, if_pos (decide_eq_true ((@marks_found m s c h).scanWords_lt (Nat.le_refl _) hmod hw))]

-- Where the character is found

def occurs (m : Memory) (c : BitVec 32) (x : ℕ) : Bool := m x == lowByte c || m x == 0

theorem signExtend_beq (h : IsChar c) (b : UInt8) :
    (b.toBitVec.signExtend 32 == c) = (b == lowByte c && decide (c.toNat < 2 ^ 7 ∨ 2 ^ 8 ≤ c.toNat)) := by
  have hext : ∀ x : BitVec 8, (x.signExtend 32).toNat = if x.toNat < 2 ^ 7 then x.toNat else 2 ^ 32 - 2 ^ 8 + x.toNat := by
    decide
  have hlt := b.toNat_lt
  have hword := c.isLt
  have hnat : b.toBitVec.toNat = b.toNat := rfl
  rw [Bool.eq_iff_iff, beq_iff_eq, Bool.and_eq_true, beq_iff_eq, decide_eq_true_iff, ← BitVec.toNat_inj, hext, hnat,
    ← UInt8.toNat_inj, lowByte, UInt8.toNat_ofNat']
  obtain hsmall | hbig := h
  · split <;> omega
  · split <;> omega

theorem pattern_beq (c : BitVec 32) (b : UInt8) (i : ℕ) :
    (b.toBitVec == pattern c i) = (b == if i = 0 ∨ c.toNat < 2 ^ 8 then lowByte c else lowByte c - 1) := by
  have hlt := b.toNat_lt
  have hword := c.isLt
  have hnat : b.toBitVec.toNat = b.toNat := rfl
  have hsub : 2 ^ 8 ≤ c.toNat → (lowByte c - 1).toNat = (c.toNat - 1) % 2 ^ 8 := by
    intro hle
    have hone : (1 : UInt8).toNat = 1 := rfl
    rw [UInt8.toNat_sub, lowByte, UInt8.toNat_ofNat', hone]
    omega
  rw [Bool.eq_iff_iff, beq_iff_eq, beq_iff_eq, ← BitVec.toNat_inj, hnat, ← UInt8.toNat_inj, pattern, BitVec.toNat_ofNat]
  split
  · rw [lowByte, UInt8.toNat_ofNat']
  · next hne => rw [hsub (Nat.le_of_not_lt (not_or.mp hne).2)]

theorem occurs_eq (ht : Terminated m s len) (hle : s ≤ x) (hlt : x < s + len) : occurs m c x = (m x == lowByte c) := by
  rw [occurs, beq_eq_false_iff_ne.mpr (ht.text x hle hlt), Bool.or_false]

theorem found_eq (ht : Terminated m s len) (hc : IsChar c) (hle : s ≤ x) (hlt : x < s + len) : found m s c x =
    if x < wordUp s then m x == lowByte c && decide (c.toNat < 2 ^ 7 ∨ 2 ^ 8 ≤ c.toNat)
    else m x == if x % 4 = 0 ∨ c.toNat < 2 ^ 8 then lowByte c else lowByte c - 1 := by
  rw [found, beq_eq_false_iff_ne.mpr (ht.text x hle hlt), Bool.or_false, signExtend_beq hc, pattern_beq]

theorem lowByte_ne_pred (c : BitVec 32) : lowByte c ≠ lowByte c - 1 := by
  intro heq
  have hnat := congrArg UInt8.toNat heq
  have hone : (1 : UInt8).toNat = 1 := rfl
  have hbyte := (lowByte c).toNat_lt
  rw [UInt8.toNat_sub, hone] at hnat
  omega

theorem agrees_of_found (ht : Terminated m s len) (hc : IsChar c)
    (h : ∀ x, s ≤ x → x < s + len → (∀ y, s ≤ y → y < x → m y ≠ lowByte c) → occurs m c x = found m s c x) : Agrees m s len c := by
  obtain hlow | hhigh := Nat.lt_or_ge c.toNat (2 ^ 7)
  · exact .inl hlow
  obtain hbyte | hneg := Nat.lt_or_ge c.toNat (2 ^ 8)
  · refine .inr (.inl ⟨hbyte, fun x => ?_⟩)
    -- the first one before the boundary is not found
    induction x using Nat.strongRecOn with
    | ind x ih =>
      intro hle hlt hup heq
      have hx := h x hle hlt fun y hy hyx => ih y hyx hy (by omega) (by omega)
      rw [occurs_eq ht hle hlt, found_eq ht hc hle hlt, if_pos hup, heq, beq_self_eq_true, Bool.true_and] at hx
      have hnot := of_decide_eq_true hx.symm
      omega
  · refine .inr (.inr ⟨hneg, fun x hup hlt hodd hno => ?_⟩)
    have hle : s ≤ x := by
      rw [wordUp] at hup
      omega
    have hx := h x hle hlt hno
    rw [occurs_eq ht hle hlt, found_eq ht hc hle hlt, if_neg (Nat.not_lt.mpr hup), if_neg (by omega)] at hx
    constructor
    · intro heq
      rw [heq, beq_self_eq_true] at hx
      exact lowByte_ne_pred c (beq_iff_eq.mp hx.symm)
    · intro heq
      rw [heq, beq_self_eq_true] at hx
      exact lowByte_ne_pred c (beq_iff_eq.mp hx).symm

theorem found_of_agrees (ht : Terminated m s len) (hc : IsChar c) (h : Agrees m s len c) (hle : s ≤ x) (hlt : x < s + len)
    (hno : ∀ y, s ≤ y → y < x → m y ≠ lowByte c) : occurs m c x = found m s c x := by
  rw [occurs_eq ht hle hlt, found_eq ht hc hle hlt]
  obtain hlow | ⟨hbyte, hhead⟩ | ⟨hneg, hrest⟩ := h
  · split
    · rw [decide_eq_true (.inl hlow), Bool.and_true]
    · rw [if_pos (.inr (by omega))]
  · split
    · next hup => rw [beq_eq_false_iff_ne.mpr (hhead x hle hlt hup), Bool.false_and]
    · rw [if_pos (.inr hbyte)]
  · split
    · rw [decide_eq_true (.inr hneg), Bool.and_true]
    · next hup =>
      split
      · rfl
      · next hodd =>
        obtain ⟨hne, hne'⟩ := hrest x (Nat.le_of_not_lt hup) hlt (fun hz => hodd (.inl hz)) hno
        rw [beq_eq_false_iff_ne.mpr hne, beq_eq_false_iff_ne.mpr hne']

theorem found_iff (ht : Terminated m s len) (hc : IsChar c) :
    first (found m s c) s (len + 1) = first (occurs m c) s (len + 1) ↔ Agrees m s len c := by
  rw [eq_comm, first_eq_first_iff]
  constructor
  · refine fun h => agrees_of_found ht hc fun x hle hlt hno => h x hle (by omega) fun y hy hyx => ?_
    rw [occurs_eq ht hy (by omega), beq_eq_false_iff_ne]
    exact hno y hy hyx
  · intro h x hle hlt hno
    obtain heq | hlt := Nat.eq_or_lt_of_le (Nat.lt_succ_iff.mp hlt)
    · have hnul : (m x == 0) = true := beq_iff_eq.mpr (heq ▸ ht.nul)
      rw [occurs, found, hnul, Bool.or_true, Bool.or_true]
    · refine found_of_agrees ht hc h hle hlt fun y hy hyx => ?_
      have hy := hno y hy hyx
      rw [occurs, Bool.or_eq_false_iff, beq_eq_false_iff_ne] at hy
      exact hy.1

theorem first_unique {q : ℕ → Bool} {p k n x y : ℕ} (hx : first q p k = some x) (hy : first q p n = some y) : x = y := by
  obtain ⟨hle, -, hq, hno⟩ := first_eq_some_iff.mp hx
  obtain ⟨hle', -, hq', hno'⟩ := first_eq_some_iff.mp hy
  obtain hlt | heq | hgt := Nat.lt_trichotomy x y
  · exact absurd hq (by rw [hno' x hle hlt]; exact Bool.noConfusion)
  · exact heq
  · exact absurd hq' (by rw [hno y hle' hgt]; exact Bool.noConfusion)

theorem exists_first {q : ℕ → Bool} (ht : Terminated m s len) (hq : ∀ x, m x = 0 → q x) :
    ∃ x, first q s (len + 1) = some x := by
  cases h : first q s (len + 1) with
  | some x => exact ⟨x, rfl⟩
  | none => exact absurd (hq _ ht.nul) (by rw [first_eq_none_iff.mp h _ (by omega) (by omega)]; exact Bool.noConfusion)

theorem strchrnul_returns (ht : Terminated m s len) (hc : IsChar c) :
    ∃ x, first (found m s c) s (len + 1) = some x ∧ (∃ n, strchrnul m s c n = some x) ∧
      ∀ n y, strchrnul m s c n = some y → y = x := by
  obtain ⟨x, hx⟩ := @exists_first _ _ _ (found m s c) ht fun x hnul => by rw [found, hnul]; exact Bool.or_true _
  obtain ⟨hle, hlt, hfound, hno⟩ := first_eq_some_iff.mp hx
  refine ⟨x, hx, ⟨len + 1, ?_⟩, fun n y hy => first_unique (strchrnul_eq hc m s n ▸ hy) hx⟩
  rw [strchrnul_eq hc, first_eq_some_iff]
  exact ⟨hle, by omega, hfound, hno⟩

theorem first_char {y : ℕ} (ht : Terminated m s len) (hne : lowByte c ≠ 0) (hy : first (occurs m c) s (len + 1) = some y) :
    first (m · == lowByte c) s (len + 1) = if m y = 0 then none else some y := by
  obtain ⟨hle, hlt, hoccurs, hno⟩ := first_eq_some_iff.mp hy
  have hbefore : ∀ x, s ≤ x → x < y → (m x == lowByte c) = false := fun x hx hxy =>
    (Bool.or_eq_false_iff.mp (hno x hx hxy)).1
  split
  · next hnul =>
    refine first_eq_none_iff.mpr fun x hx hxlt => ?_
    obtain hxy | rfl | hyx := Nat.lt_trichotomy x y
    · exact hbefore x hx hxy
    · exact beq_eq_false_iff_ne.mpr fun heq => hne (heq.symm.trans hnul)
    · exact absurd hnul (ht.text y hle (by omega))
  · next hnul =>
    have hhit := (Bool.or_eq_true_iff.mp hoccurs).resolve_right fun h => hnul (beq_iff_eq.mp h)
    exact first_eq_some_iff.mpr ⟨hle, hlt, hhit, hbefore⟩

/-- **Where the first occurrence is found**: where the argument agrees with its character. `strchr` does
not find the terminator. -/
theorem strchr_finds_iff (ht : Terminated m s len) (hc : IsChar c) :
    ((∃ n, strchrnul m s c n = first (occurs m c) s (len + 1)) ↔ Agrees m s len c) ∧
      ((∃ n, strchr m s c n = some (first (m · == lowByte c) s (len + 1))) ↔ lowByte c ≠ 0 ∧ Agrees m s len c) := by
  obtain ⟨x, hx, ⟨n, hn⟩, hunique⟩ := strchrnul_returns ht hc
  obtain ⟨y, hy⟩ := @exists_first _ _ _ (occurs m c) ht fun x hnul => by rw [occurs, hnul]; exact Bool.or_true _
  have hend : ∀ q z, first q s (len + 1) = some z → m z = 0 → z = s + len := by
    intro q z hz hnul
    obtain ⟨hle, hlt, -, -⟩ := first_eq_some_iff.mp hz
    by_contra hne
    exact ht.text z hle (by omega) hnul
  rw [← found_iff ht hc, hx, hy, Option.some.injEq]
  refine ⟨⟨fun ⟨n, hn⟩ => (hunique n y hn).symm, fun heq => ⟨n, heq ▸ hn⟩⟩, ?_⟩
  constructor
  · rintro ⟨k, hk⟩
    obtain ⟨ret, hret, hval⟩ := Option.map_eq_some_iff.mp hk
    obtain rfl := hunique k ret hret
    by_cases hne : lowByte c = 0
    · obtain ⟨z, hz⟩ := @exists_first _ _ _ (m · == lowByte c) ht fun x hnul => beq_iff_eq.mpr (hnul.trans hne.symm)
      have hhit := beq_iff_eq.mp (first_eq_some_iff.mp hz).2.2.1
      rw [hz] at hval
      split at hval
      · cases hval
      · next hnul => exact absurd (hhit.trans hne) (Option.some.inj hval ▸ hnul)
    · refine ⟨hne, ?_⟩
      rw [first_char ht hne hy] at hval
      split at hval
      · next hnul =>
        split at hval
        · next hnul' => rw [hend _ _ hx hnul, hend _ _ hy hnul']
        · cases hval
      · split at hval
        · cases hval
        · exact Option.some.inj hval
  · rintro ⟨hne, rfl⟩
    exact ⟨n, by rw [strchr, hn, first_char ht hne hy]; rfl⟩

theorem strchr_finds_iff_slash :
    let m : Memory := fun x => if x < 8 then if x = 5 then 47 else 65 else 0
    ((∃ n, strchrnul m 1 47 n = first (occurs m 47) 1 8) ↔ Agrees m 1 7 47) ∧
      ((∃ n, strchr m 1 47 n = some (first (m · == lowByte 47) 1 8)) ↔ lowByte 47 ≠ 0 ∧ Agrees m 1 7 47) := by
  refine strchr_finds_iff ⟨by decide, fun x hle hlt => ?_⟩ (.inl (by decide))
  have hin : x < 8 := hlt
  rw [if_pos hin]
  split <;> decide

/-- A letter that is given without its sign is not found where the string does not start at a word. -/
theorem strchrnul_misses_high :
    let m : Memory := fun x => if x = 1 then 0xe9 else 0
    Terminated m 1 1 ∧ IsChar 0xe9 ∧ first (occurs m 0xe9) 1 2 = some 1 ∧ ∀ n y, strchrnul m 1 0xe9 n = some y → y ≠ 1 := by
  intro m
  have hchar : IsChar 0xe9 := .inl (by decide)
  refine ⟨⟨rfl, fun x hle hlt => ?_⟩, hchar, by decide, fun n y hy heq => ?_⟩
  · obtain rfl : x = 1 := by omega
    decide
  · rw [strchrnul_eq hchar] at hy
    have hfound := (first_eq_some_iff.mp hy).2.2.1
    rw [heq] at hfound
    exact absurd hfound (by decide)

/-- Given with its sign, another letter is taken for it. -/
example : strchrnul (fun x => if x = 5 then 0xe8 else if x < 8 then 65 else 0) 4 0xffffffe9 1 = some 5 := by decide

end Sneks.Stdlib
