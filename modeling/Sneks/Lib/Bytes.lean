import Mathlib.Data.UInt
import Mathlib.Data.List.Basic

/-!
# Blocks of bytes

A block of `n` bytes, and the copies that write a list of bytes into it and read
one from it. What is written can be read back, and other places keep what they hold.
Numbers as bytes, the low byte first.
-/

namespace Sneks.Lib

variable {n : ℕ}

abbrev Block (n : ℕ) := Fin n → UInt8

namespace Block

def write (b : Block n) (off : ℕ) (data : List UInt8) : Block n :=
  fun i => if off ≤ i then data.getD (i - off) (b i) else b i

def read (b : Block n) (off len : ℕ) : List UInt8 :=
  (List.range len).map fun k => if h : off + k < n then b ⟨off + k, h⟩ else 0

@[simp] theorem length_read (b : Block n) (off len : ℕ) : (b.read off len).length = len := by
  simp [read]

theorem read_write (b : Block n) {off : ℕ} {data : List UInt8} (h : off + data.length ≤ n) :
    (b.write off data).read off data.length = data := by
  apply List.ext_getElem
  · simp
  · intro k hk _
    have hkd : k < data.length := by simpa using hk
    have hkn : off + k < n := by omega
    simp [read, write, hkn, hkd]

theorem read_write_of_disjoint (b : Block n) {off off' len : ℕ} {data : List UInt8}
    (h : off' + len ≤ off ∨ off + data.length ≤ off') :
    (b.write off data).read off' len = b.read off' len := by
  apply List.map_congr_left
  intro k hk
  have hkl : k < len := List.mem_range.mp hk
  by_cases hn : off' + k < n
  · simp only [hn, dif_pos, write]
    by_cases hle : off ≤ off' + k
    · have hge : data.length ≤ off' + k - off := by omega
      simp [hle, hge]
    · simp [hle]
  · simp [hn]

end Block

-- Numbers as bytes

/-- The low `n` bytes of a number, the lowest first. -/
def leBytes : ℕ → ℕ → List UInt8
  | 0, _ => []
  | n + 1, x => UInt8.ofNat x :: leBytes n (x / 256)

def leNat : List UInt8 → ℕ
  | [] => 0
  | b :: bs => b.toNat + 256 * leNat bs

@[simp] theorem length_leBytes (n x : ℕ) : (leBytes n x).length = n := by
  induction n generalizing x with
  | zero => rfl
  | succ n ih => simp only [leBytes, List.length_cons, ih]

theorem leNat_leBytes (n x : ℕ) : leNat (leBytes n x) = x % 256 ^ n := by
  induction n generalizing x with
  | zero => simp only [leBytes, leNat, Nat.pow_zero, Nat.mod_one]
  | succ n ih =>
    simp only [leBytes, leNat, ih, UInt8.toNat_ofNat']
    have hpow : 256 ^ (n + 1) = 256 * 256 ^ n := Nat.pow_succ'
    rw [hpow, Nat.mod_mul]

end Sneks.Lib
