import Sneks.Root.Defs
import Mathlib.Data.Nat.Log
import Mathlib.Data.List.Basic

/-!
# Pages of a range

`for_page_range` of `include/sneks/mm.h`: the pages of a range of addresses, each as large as its
address and what is left allow. Both ends are rounded down to a page's start.
-/

namespace Sneks.Root

def pageBits : ℕ := 12

def pageSize : ℕ := 4096

def word (n : ℕ) : ℕ := n % 2 ^ 32

def pageFloor (x : ℕ) : ℕ := x / pageSize * pageSize

/-- `ffsl`: one more than the lowest bit set, or 0. -/
def ffsl (w : ℕ) : ℕ :=
  match (List.range 32).find? (w.testBit ·) with
  | some i => i + 1
  | none => 0

namespace Fpage

def size (p : Fpage) : ℕ := 2 ^ p.sizeLog2

def fin (p : Fpage) : ℕ := p.address + p.size

def Has (p : Fpage) (n : ℕ) : Prop := p.address ≤ n * pageSize ∧ n * pageSize < p.fin

instance (p : Fpage) (n : ℕ) : Decidable (p.Has n) := inferInstanceAs (Decidable (_ ∧ _))

structure Good (p : Fpage) : Prop where
  le : pageBits ≤ p.sizeLog2
  aligned : p.size ∣ p.address

end Fpage

/-- `min_t(unsigned, ffsl(_A) - 1, MSB(_E - _A))`. -/
def pageShift (a e : ℕ) : ℕ := min (word (ffsl a + (2 ^ 32 - 1))) (Nat.log2 (e - a))

/-- The rounds of `for_page_range` from the address `a` on. -/
def pageLoop (e : ℕ) : ℕ → ℕ → List Fpage
  | 0, _ => []
  | n + 1, a => if a < e then ⟨a, pageShift a e⟩ :: pageLoop e n (word (a + 2 ^ pageShift a e)) else []

/-- `for_page_range`. It makes at most one round for each page of the range. -/
def forPageRange (start fin : ℕ) : List Fpage :=
  pageLoop (pageFloor fin) (fin / pageSize - start / pageSize) (pageFloor start)

/-- The pages of the list lie end to end from `a` to `e`. -/
inductive Tiles : List Fpage → ℕ → ℕ → Prop
  | nil (a : ℕ) : Tiles [] a a
  | cons {p : Fpage} {l : List Fpage} {e : ℕ} : p.Good → Tiles l p.fin e → Tiles (p :: l) p.address e

variable {a e : ℕ}

theorem dvd_of_testBit {i : ℕ} (h : ∀ j < i, a.testBit j = false) : 2 ^ i ∣ a := by
  rw [Nat.dvd_iff_mod_eq_zero]
  refine Nat.eq_of_testBit_eq fun j => ?_
  rw [Nat.testBit_mod_two_pow, Nat.zero_testBit]
  by_cases hj : j < i
  · rw [h j hj, Bool.and_false]
  · rw [decide_eq_false hj, Bool.false_and]

theorem pageShift_spec (ha : a % pageSize = 0) (he : e % pageSize = 0) (hlt : a < e) (he' : e < 2 ^ 32) :
    pageBits ≤ pageShift a e ∧ 2 ^ pageShift a e ∣ a ∧ 2 ^ pageShift a e ≤ e - a := by
  have hle : pageSize ≤ e - a := by
    simp only [pageSize] at *
    omega
  have hlog : pageBits ≤ Nat.log2 (e - a) := by
    rw [Nat.le_log2 (by omega)]
    exact hle
  have hleft : 2 ^ pageShift a e ≤ e - a :=
    (Nat.pow_le_pow_right (by decide) (min_le_right _ _)).trans (Nat.log2_self_le (by omega))
  cases hfind : (List.range 32).find? (a.testBit ·) with
  | none =>
    have hzero : a = 0 := by
      refine Nat.eq_of_testBit_eq fun j => ?_
      rw [Nat.zero_testBit]
      by_cases hj : j < 32
      · simpa using List.find?_eq_none.mp hfind j (List.mem_range.mpr hj)
      · exact Nat.testBit_lt_two_pow (lt_of_lt_of_le (hlt.trans he') (Nat.pow_le_pow_right (by decide) (by omega)))
    have hffsl : ffsl a = 0 := by rw [ffsl, hfind]
    refine ⟨?_, hzero ▸ Nat.dvd_zero _, hleft⟩
    rw [pageShift, hffsl]
    exact le_min (by decide) hlog
  | some i =>
    obtain ⟨hi, hlt32, hlow⟩ := List.find?_range_eq_some.mp hfind
    have hlt32 : i < 32 := List.mem_range.mp hlt32
    have hffsl : word (ffsl a + (2 ^ 32 - 1)) = i := by
      rw [ffsl, hfind]
      simp only [word]
      omega
    have hbits : pageBits ≤ i := by
      by_contra hlt
      have hmod : (a % 2 ^ 12).testBit i = a.testBit i := by
        rw [Nat.testBit_mod_two_pow, decide_eq_true (show i < 12 from Nat.not_le.mp hlt), Bool.true_and]
      rw [show a % 2 ^ 12 = 0 from ha, Nat.zero_testBit, hi] at hmod
      cases hmod
    refine ⟨?_, ?_, hleft⟩
    · rw [pageShift, hffsl]
      exact le_min hbits hlog
    · rw [pageShift, hffsl]
      exact Nat.dvd_trans (Nat.pow_dvd_pow 2 (min_le_left _ _)) (dvd_of_testBit fun j hj => by simpa using hlow j hj)

theorem pageSize_dvd {k : ℕ} (h : pageBits ≤ k) : pageSize ∣ 2 ^ k := Nat.pow_dvd_pow 2 h

theorem pageLoop_tiles {n : ℕ} (ha : a % pageSize = 0) (he : e % pageSize = 0) (hle : a ≤ e) (he' : e < 2 ^ 32)
    (hn : e - a ≤ n * pageSize) : Tiles (pageLoop e n a) a e := by
  induction n generalizing a with
  | zero =>
    obtain rfl : a = e := by omega
    exact .nil a
  | succ n ih =>
    rw [pageLoop]
    split
    · next hlt =>
      obtain ⟨hbits, hdvd, hleft⟩ := pageShift_spec ha he hlt he'
      obtain ⟨k, hk⟩ := pageSize_dvd hbits
      have hpos : 0 < 2 ^ pageShift a e := Nat.two_pow_pos _
      have hword : word (a + 2 ^ pageShift a e) = a + 2 ^ pageShift a e := Nat.mod_eq_of_lt (by omega)
      rw [hword]
      refine @Tiles.cons ⟨a, pageShift a e⟩ _ _ ⟨hbits, hdvd⟩ (ih ?_ (by show a + 2 ^ pageShift a e ≤ e; omega) ?_)
      · show (a + 2 ^ pageShift a e) % pageSize = 0
        rw [hk, Nat.add_mul_mod_self_left, ha]
      · have hstep : pageSize ≤ 2 ^ pageShift a e := Nat.le_of_dvd hpos ⟨k, hk⟩
        show e - (a + 2 ^ pageShift a e) ≤ n * pageSize
        rw [Nat.succ_mul] at hn
        omega
    · obtain rfl : a = e := by omega
      exact .nil a

theorem pageFloor_mod (x : ℕ) : pageFloor x % pageSize = 0 := Nat.mul_mod_left _ _

theorem pageFloor_le (x : ℕ) : pageFloor x ≤ x := Nat.div_mul_le_self _ _

theorem pageFloor_mono {x y : ℕ} (h : x ≤ y) : pageFloor x ≤ pageFloor y := Nat.mul_le_mul_right _ (Nat.div_le_div_right h)

theorem pageFloor_of_mod {x : ℕ} (h : x % pageSize = 0) : pageFloor x = x :=
  Nat.div_mul_cancel (Nat.dvd_of_mod_eq_zero h)

theorem pageFloor_add {x : ℕ} (h : x % pageSize = 0) (y : ℕ) : pageFloor (x + y) = x + y / pageSize * pageSize := by
  obtain ⟨k, rfl⟩ := Nat.dvd_of_mod_eq_zero h
  rw [pageFloor, Nat.mul_add_div (by decide), Nat.add_mul, Nat.mul_comm k]

theorem forPageRange_tiles {start fin : ℕ} (hle : pageFloor start ≤ pageFloor fin) (hlt : fin < 2 ^ 32) :
    Tiles (forPageRange start fin) (pageFloor start) (pageFloor fin) := by
  refine pageLoop_tiles (pageFloor_mod _) (pageFloor_mod _) hle ((pageFloor_le fin).trans_lt hlt) ?_
  simp only [pageFloor, pageSize]
  omega

theorem forPageRange_nil {start fin : ℕ} (hle : pageFloor fin ≤ pageFloor start) : forPageRange start fin = [] := by
  rw [forPageRange]
  cases fin / pageSize - start / pageSize with
  | zero => rfl
  | succ n => rw [pageLoop, if_neg (Nat.not_lt.mpr hle)]

namespace Tiles

variable {l : List Fpage}

theorem le (h : Tiles l a e) : a ≤ e := by
  induction h with
  | nil a => exact le_rfl
  | cons _ _ ih => exact (Nat.le_add_right _ _).trans ih

end Tiles

end Sneks.Root
