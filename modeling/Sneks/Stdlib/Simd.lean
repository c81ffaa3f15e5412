import Mathlib.Data.Int.Notation
import Mathlib.Data.Nat.Notation
import Mathlib.Data.List.Basic
import Sneks.Lib.Memory
import Sneks.Lib.Scan

/-!
# Four bytes at a time: `sneks/simd.h`

A word is told by its four bytes. `zero_mask` marks those that are zero, and `byte_mask` those that are
a given byte; `ffsl` finds the first of them in memory, where the first byte is the least significant.
-/

namespace Sneks.Stdlib
open Lib

def word (a b c d : BitVec 8) : BitVec 32 := a ++ b ++ c ++ d

def broadcastL (x : BitVec 32) : BitVec 32 := 0xffffffff / 255 * x

def lowByte (c : BitVec 32) : UInt8 := UInt8.ofNat c.toNat

def unsignedOf (x : ℤ) : ℕ := (x % 2 ^ 32).toNat

def haszero (x : BitVec 32) : BitVec 32 := (x - broadcastL 1) &&& ~~~x &&& broadcastL 0x80

def zeroMask (x : BitVec 32) : BitVec 32 := haszero x &&& (~~~(x &&& broadcastL 1) <<< 7)

theorem toNat_broadcastL (c : BitVec 32) : (broadcastL c).toNat = 0x01010101 * c.toNat % 2 ^ 32 := by
  rw [broadcastL, BitVec.toNat_mul]
  rfl

variable {a b c d a' b' c' d' : BitVec 8}

theorem toNat_word : (word a b c d).toNat = a.toNat * 2 ^ 24 + b.toNat * 2 ^ 16 + c.toNat * 2 ^ 8 + d.toNat := by
  have happ : ∀ (n m : ℕ) (x : BitVec n) (y : BitVec m), (x ++ y).toNat = x.toNat * 2 ^ m + y.toNat := by
    intro n m x y
    rw [BitVec.toNat_append, ← Nat.shiftLeft_add_eq_or_of_lt y.isLt, Nat.shiftLeft_eq]
  rw [word, happ, happ, happ]
  omega

theorem and_word : word a b c d &&& word a' b' c' d' = word (a &&& a') (b &&& b') (c &&& c') (d &&& d') := by
  rw [word, word, BitVec.and_append, BitVec.and_append, BitVec.and_append, word]

theorem not_word : ~~~word a b c d = word (~~~a) (~~~b) (~~~c) (~~~d) := by
  rw [word, BitVec.not_append, BitVec.not_append, BitVec.not_append, word]

def borrow (x : BitVec 8) (k : BitVec 8) : BitVec 8 := if x.toNat < 1 + k.toNat then 1 else 0

theorem word_sub_ones : word a b c d - word 1 1 1 1 =
    word (a - 1 - borrow b (borrow c (borrow d 0))) (b - 1 - borrow c (borrow d 0)) (c - 1 - borrow d 0) (d - 1) := by
  refine BitVec.eq_of_toNat_eq ?_
  have hborrow : ∀ x k : BitVec 8, (borrow x k).toNat = if x.toNat < 1 + k.toNat then 1 else 0 := by
    intro x k
    rw [borrow]
    split <;> rfl
  have hone : (1 : BitVec 8).toNat = 1 := rfl
  have hzero : (0 : BitVec 8).toNat = 0 := rfl
  have ha := a.isLt
  have hb := b.isLt
  have hc := c.isLt
  have hd := d.isLt
  rw [BitVec.toNat_sub]
  simp only [toNat_word, BitVec.toNat_sub, hborrow, hone, hzero]
  split <;> split <;> split <;> omega

theorem word_shift : word a b c d <<< 7 =
    word ((a <<< 7) + (b >>> 1)) ((b <<< 7) + (c >>> 1)) ((c <<< 7) + (d >>> 1)) (d <<< 7) := by
  refine BitVec.eq_of_toNat_eq ?_
  simp only [BitVec.toNat_shiftLeft, BitVec.toNat_add, BitVec.toNat_ushiftRight, toNat_word, Nat.shiftLeft_eq,
    Nat.shiftRight_eq_div_pow]
  have ha := a.isLt
  have hb := b.isLt
  have hc := c.isLt
  have hd := d.isLt
  omega

def flag (x : BitVec 8) : BitVec 8 := bif x == 0 then 0x80 else 0

theorem low_bit : ∀ x : BitVec 8, ~~~(x &&& 1) >>> 1 = 0x7f := by decide

/-- The bits that remain of a byte, `y` being what was taken from it. -/
def masked (x y : BitVec 8) : BitVec 8 := y &&& ~~~x &&& (0x80 : BitVec 8) &&& (~~~(x &&& 1) <<< 7)

theorem masked_eq : ∀ x : BitVec 8, masked x (x - 1) = flag x ∧ masked x (x - 1 - 1) = flag x := by decide

theorem masked_add : ∀ x y : BitVec 8, y &&& ~~~x &&& (0x80 : BitVec 8) &&& ((~~~(x &&& 1) <<< 7) + (0x7f : BitVec 8)) = masked x y := by
  intro x y
  have hhigh : ∀ z : BitVec 8, (0x80 : BitVec 8) &&& ((~~~(z &&& 1) <<< 7) + (0x7f : BitVec 8)) = (0x80 : BitVec 8) &&& (~~~(z &&& 1) <<< 7) := by decide
  rw [masked, BitVec.and_assoc, hhigh, ← BitVec.and_assoc]

theorem zeroMask_word : zeroMask (word a b c d) = word (flag a) (flag b) (flag c) (flag d) := by
  have hones : broadcastL 1 = word 1 1 1 1 := by decide
  have hhigh : broadcastL 0x80 = word 0x80 0x80 0x80 0x80 := by decide
  have hflag : ∀ x k l : BitVec 8, masked x (x - 1 - borrow k l) = flag x := by
    intro x k l
    rw [borrow]
    split
    · exact (masked_eq x).2
    · exact (congrArg (masked x) (BitVec.sub_zero _)).trans (masked_eq x).1
  rw [zeroMask, haszero, hones, hhigh, word_sub_ones, not_word, and_word, and_word, and_word, not_word, word_shift,
    and_word, low_bit, low_bit, low_bit, masked_add, masked_add, masked_add, hflag, hflag, hflag]
  exact congrArg _ (masked_eq d).1

theorem or_word : word a b c d ||| word a' b' c' d' = word (a ||| a') (b ||| b') (c ||| c') (d ||| d') := by
  rw [word, word, BitVec.or_append, BitVec.or_append, BitVec.or_append, word]

theorem word_eq_zero : word a b c d = 0 ↔ a = 0 ∧ b = 0 ∧ c = 0 ∧ d = 0 := by
  have hzero : ∀ x : BitVec 8, x = 0 ↔ x.toNat = 0 := fun x => BitVec.toNat_inj.symm
  have hword : word a b c d = 0 ↔ (word a b c d).toNat = 0 := BitVec.toNat_inj.symm
  rw [hword, toNat_word, hzero, hzero, hzero, hzero]
  omega

theorem flag_eq_zero (x : BitVec 8) : flag x = 0 ↔ x ≠ 0 := by
  rw [flag, ← beq_eq_false_iff_ne]
  cases x == 0 <;> decide

theorem haszero_eq_zero : haszero (word a b c d) = 0 ↔ a ≠ 0 ∧ b ≠ 0 ∧ c ≠ 0 ∧ d ≠ 0 := by
  constructor
  · intro h
    have hmask : zeroMask (word a b c d) = 0 := by
      rw [zeroMask, h]
      exact BitVec.zero_and
    rw [zeroMask_word, word_eq_zero, flag_eq_zero, flag_eq_zero, flag_eq_zero, flag_eq_zero] at hmask
    exact hmask
  · rintro ⟨ha, hb, hc, hd⟩
    have hones : broadcastL 1 = word 1 1 1 1 := by decide
    have hhigh : broadcastL 0x80 = word 0x80 0x80 0x80 0x80 := by decide
    have hnone : ∀ x : BitVec 8, x ≠ 0 → borrow x 0 = 0 := by decide
    have hbyte : ∀ x : BitVec 8, x ≠ 0 → (x - 1 - 0) &&& ~~~x &&& (0x80 : BitVec 8) = 0 ∧
        (x - 1) &&& ~~~x &&& (0x80 : BitVec 8) = 0 := by decide
    rw [haszero, hones, hhigh, word_sub_ones, not_word, and_word, and_word, hnone d hd, hnone c hc, hnone b hb]
    exact word_eq_zero.mpr ⟨(hbyte a ha).1, (hbyte b hb).1, (hbyte c hc).1, (hbyte d hd).2⟩

theorem flag_or (x y : BitVec 8) : flag x ||| flag y = bif x == 0 || y == 0 then 0x80 else 0 := by
  rw [flag, flag]
  cases x == 0 <;> cases y == 0 <;> rfl

theorem word_inj (h : word a b c d = word a' b' c' d') : a = a' ∧ b = b' ∧ c = c' ∧ d = d' := by
  have hnat := congrArg BitVec.toNat h
  have ha := a'.isLt
  have hb := b'.isLt
  have hc := c'.isLt
  have hd := d'.isLt
  rw [toNat_word, toNat_word] at hnat
  refine ⟨BitVec.eq_of_toNat_eq ?_, BitVec.eq_of_toNat_eq ?_, BitVec.eq_of_toNat_eq ?_, BitVec.eq_of_toNat_eq ?_⟩ <;> omega

-- Bytes in memory

def byteMask (x c : BitVec 32) : BitVec 32 := zeroMask (x ^^^ broadcastL c)

def loadLel (m : Memory) (p : ℕ) : BitVec 32 :=
  word (m (p + 3)).toBitVec (m (p + 2)).toBitVec (m (p + 1)).toBitVec (m p).toBitVec

def ffsl (x : BitVec 32) : ℕ := ((List.range 32).find? fun i => x.getLsbD i).elim 0 (· + 1)

def mark (b : Bool) : BitVec 8 := bif b then 0x80 else 0

theorem flag_eq_mark (x : BitVec 8) : flag x = mark (x == 0) := rfl

theorem mark_or (p q : Bool) : mark p ||| mark q = mark (p || q) := by cases p <;> cases q <;> rfl

theorem xor_word : word a b c d ^^^ word a' b' c' d' = word (a ^^^ a') (b ^^^ b') (c ^^^ c') (d ^^^ d') := by
  rw [word, word, BitVec.xor_append, BitVec.xor_append, BitVec.xor_append, word]

theorem ffsl_marks : ∀ p q r s : Bool, word (mark s) (mark r) (mark q) (mark p) ≠ 0 →
    ffsl (word (mark s) (mark r) (mark q) (mark p)) / 8 - 1 = if p then 0 else if q then 1 else if r then 2 else 3 := by
  decide

theorem first_eq_ffsl {q : ℕ → Bool} {p : ℕ} {z : BitVec 32}
    (hz : z = word (mark (q (p + 3))) (mark (q (p + 2))) (mark (q (p + 1))) (mark (q p))) :
    first q p 4 = if z = 0 then none else some (p + (ffsl z / 8 - 1)) := by
  have hnone : z = 0 ↔ q (p + 3) = false ∧ q (p + 2) = false ∧ q (p + 1) = false ∧ q p = false := by
    have hmark : ∀ b, mark b = 0 ↔ b = false := by decide
    rw [hz, word_eq_zero, hmark, hmark, hmark, hmark]
  split
  · next hzero =>
    obtain ⟨h₃, h₂, h₁, h₀⟩ := hnone.mp hzero
    simp only [first, Nat.add_assoc, Nat.reduceAdd, h₀, h₁, h₂, h₃, Bool.false_eq_true, if_false]
  · next hne =>
    have hffsl := ffsl_marks _ _ _ _ (hz ▸ hne)
    rw [← hz] at hffsl
    rw [hffsl]
    simp only [first, Nat.add_assoc, Nat.reduceAdd]
    split
    · rfl
    · split
      · rfl
      · split
        · rfl
        · next h₀ h₁ h₂ =>
          rw [if_pos]
          by_contra h₃
          exact hne (hnone.mpr ⟨Bool.eq_false_iff.mpr h₃, Bool.eq_false_iff.mpr h₂, Bool.eq_false_iff.mpr h₁,
            Bool.eq_false_iff.mpr h₀⟩)

theorem zeroMask_loadLel (m : Memory) (p : ℕ) : zeroMask (loadLel m p) =
    word (mark (m (p + 3) == 0)) (mark (m (p + 2) == 0)) (mark (m (p + 1) == 0)) (mark (m p == 0)) := by
  have hflag : ∀ x : UInt8, flag x.toBitVec = mark (x == 0) := by
    intro x
    rw [flag_eq_mark]
    congr 1
    rw [Bool.eq_iff_iff, beq_iff_eq, beq_iff_eq]
    exact UInt8.toBitVec_inj (b := 0)
  rw [loadLel, zeroMask_word, hflag, hflag, hflag, hflag]

theorem zeroMask_xor (m : Memory) (p : ℕ) : zeroMask (loadLel m p ^^^ word a b c d) =
    word (mark ((m (p + 3)).toBitVec == a)) (mark ((m (p + 2)).toBitVec == b)) (mark ((m (p + 1)).toBitVec == c))
      (mark ((m p).toBitVec == d)) := by
  have hflag : ∀ x y : BitVec 8, flag (x ^^^ y) = mark (x == y) := by
    intro x y
    rw [flag_eq_mark]
    congr 1
    rw [Bool.eq_iff_iff, beq_iff_eq, beq_iff_eq]
    exact BitVec.xor_eq_zero_iff
  rw [loadLel, xor_word, zeroMask_word, hflag, hflag, hflag, hflag]

theorem broadcastL_byte : ∀ x : BitVec 8, broadcastL (x.zeroExtend 32) = word x x x x := by decide

end Sneks.Stdlib
