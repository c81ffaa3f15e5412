import Sneks.Lib.Bytes

/-!
# How long a cookie is valid

`gen_cookie` and `validate_cookie` (`lib/cookie.c`). A cookie is a keyed hash of the clock's
period, of the process and of the object. Validation tries the current period and the next
one, so a cookie made in the period before the current one is not accepted.

The hash is a parameter.
-/

namespace Sneks.Cookie
open Lib

abbrev Key := Vector UInt8 16

/-- `siphash_2_4`: the bytes to hash, and the key. -/
abbrev Siphash := List UInt8 → Key → BitVec 64

def COOKIE_PERIOD_US : BitVec 64 := (1 <<< 15) - 1

structure CookieInfo where
  time : BitVec 64
  consumer : BitVec 32
  object : BitVec 64

def CookieInfo.bytes (raw : CookieInfo) : List UInt8 :=
  leBytes 8 raw.time.toNat ++ leBytes 4 raw.consumer.toNat ++ leBytes 8 raw.object.toNat

section

variable (siphash : Siphash)

def genCookie (key : Key) (now : BitVec 64) (object pid : BitVec 32) : BitVec 32 :=
  let raw : CookieInfo :=
    { time := now &&& ~~~COOKIE_PERIOD_US, consumer := pid, object := object.setWidth 64 }
  (siphash raw.bytes key).setWidth 32

def validateCookie (cookie : BitVec 32) (key : Key) (now : BitVec 64) (object pid : BitVec 32) : Bool :=
  let next := now + COOKIE_PERIOD_US + 1
  genCookie siphash key now object pid = cookie || genCookie siphash key next object pid = cookie

end

def period (t : BitVec 64) : ℕ := t.toNat / 2 ^ 15

theorem cookiePeriod_bit {i : ℕ} (hi : i < 64) : COOKIE_PERIOD_US[i] = decide (i < 15) := by
  have hnat : COOKIE_PERIOD_US = BitVec.ofNat 64 (2 ^ 15 - 1) := by decide
  rw [hnat, ← BitVec.getLsbD_eq_getElem, BitVec.getLsbD_ofNat, Nat.testBit_two_pow_sub_one]
  simp [hi]

theorem masked_eq (t : BitVec 64) : t &&& ~~~COOKIE_PERIOD_US = (t >>> 15) <<< 15 := by
  ext i hi
  simp only [BitVec.getElem_and, BitVec.getElem_not, cookiePeriod_bit hi, BitVec.getElem_shiftLeft,
    BitVec.getElem_ushiftRight]
  by_cases hlow : i < 15
  · simp [hlow]
  · have hadd : 15 + (i - 15) = i := by omega
    simp [hlow, hadd, BitVec.getLsbD_eq_getElem hi]

theorem masked_congr {t u : BitVec 64} (h : period t = period u) :
    t &&& ~~~COOKIE_PERIOD_US = u &&& ~~~COOKIE_PERIOD_US := by
  have hshift : t >>> 15 = u >>> 15 := by
    apply BitVec.eq_of_toNat_eq
    rw [BitVec.toNat_ushiftRight, BitVec.toNat_ushiftRight, Nat.shiftRight_eq_div_pow,
      Nat.shiftRight_eq_div_pow]
    exact h
  rw [masked_eq, masked_eq, hshift]

theorem period_masked (t : BitVec 64) : period (t &&& ~~~COOKIE_PERIOD_US) = period t := by
  have hshift : (t &&& ~~~COOKIE_PERIOD_US) >>> 15 = t >>> 15 := by
    rw [masked_eq]
    ext i hi
    simp only [BitVec.getElem_ushiftRight, BitVec.getLsbD_shiftLeft]
    by_cases hbig : 15 + i < 64
    · simp [hbig]
    · rw [BitVec.getLsbD_of_ge t (15 + i) (by omega)]
      simp [hbig]
  have hnat := congrArg BitVec.toNat hshift
  rwa [BitVec.toNat_ushiftRight, BitVec.toNat_ushiftRight, Nat.shiftRight_eq_div_pow,
    Nat.shiftRight_eq_div_pow] at hnat

theorem period_next (t : BitVec 64) : period (t + COOKIE_PERIOD_US + 1) = (period t + 1) % 2 ^ 49 := by
  have hsum : t + COOKIE_PERIOD_US + 1 = t + 2 ^ 15 := by
    rw [BitVec.add_assoc]
    rfl
  simp only [period, hsum, BitVec.toNat_add]
  have hpow : (2 ^ 15 : BitVec 64).toNat = 2 ^ 15 := by decide
  rw [hpow]
  have := t.isLt
  omega

def periodHash : Siphash := fun bytes _ => BitVec.ofNat 64 (leNat (bytes.take 8) / 2 ^ 15)

theorem genCookie_periodHash (key : Key) (now : BitVec 64) (object pid : BitVec 32) :
    (genCookie periodHash key now object pid).toNat = period now % 2 ^ 32 := by
  simp only [genCookie, periodHash, CookieInfo.bytes, List.append_assoc]
  rw [List.take_append_of_le_length (by simp), List.take_of_length_le (by simp), leNat_leBytes]
  have hlt := (now &&& ~~~COOKIE_PERIOD_US).isLt
  have hper := period_masked now
  simp only [period] at hper
  rw [Nat.mod_eq_of_lt (by omega), hper]
  simp only [BitVec.toNat_setWidth, BitVec.toNat_ofNat, period]
  have := now.isLt
  omega

/-- **The validity window**: whatever the hash, a cookie is valid to the end of the period it
    was made in. In the next period it depends on the hash. -/
theorem validateCookie_iff (key : Key) (object pid : BitVec 32) {t u : BitVec 64}
    (hwin : period u = period t ∨ period u = period t + 1) :
    (∀ siphash, validateCookie siphash (genCookie siphash key t object pid) key u object pid = true) ↔
      period u = period t := by
  constructor
  · intro hall
    by_contra hne
    have hnext := hwin.resolve_left hne
    have hval := hall periodHash
    simp only [validateCookie, Bool.or_eq_true, decide_eq_true_eq] at hval
    have hper : period u < 2 ^ 49 := by
      have := u.isLt
      simp only [period]
      omega
    obtain hval | hval := hval
    · have hnat := congrArg BitVec.toNat hval
      rw [genCookie_periodHash, genCookie_periodHash] at hnat
      omega
    · have hnat := congrArg BitVec.toNat hval
      rw [genCookie_periodHash, genCookie_periodHash, period_next] at hnat
      omega
  · intro hsame siphash
    simp only [validateCookie, genCookie, masked_congr hsame, decide_true, Bool.true_or]

/-- The last microsecond of the first period. -/
theorem validateCookie_iff_last :
    (period 32767 = period 5 ∨ period 32767 = period 5 + 1) ∧
    ((∀ siphash, validateCookie siphash (genCookie siphash (.replicate 16 0) 5 7 2) (.replicate 16 0) 32767 7 2 = true) ↔
      period 32767 = period 5) :=
  ⟨by decide, validateCookie_iff (.replicate 16 0) 7 2 (by decide)⟩

/-- A cookie made in the last microsecond of a period is not valid in the next one. -/
theorem cookie_expires_early :
    ¬ ∀ (siphash : Siphash) (key : Key) (object pid : BitVec 32) (t u : BitVec 64), t ≤ u →
      (period u = period t ∨ period u = period t + 1) →
      validateCookie siphash (genCookie siphash key t object pid) key u object pid = true := by
  intro h
  have hval := h periodHash (.replicate 16 0) 7 2 32767 32768 (by decide) (by decide)
  exact absurd hval (by decide)

end Sneks.Cookie
