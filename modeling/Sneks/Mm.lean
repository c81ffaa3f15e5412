import Sneks.Lib.Dyadic
import Sneks.Root.PageRange

/-!
# Aligned pages of a range, on words

`for_page_range` and `page_range_bound` of `include/sneks/mm.h`, with `MSB` of `include/sneks/bitops.h`,
as they are computed on words of 32 bits. The loop's variables are advanced once more after the last
page, where `MSB` is of 0. `clz0` is what the builtin gives there.

The same loop on numbers is `Root.forPageRange`.
-/

namespace Sneks.Mm
open Lib Root

/-- `L4_Word_t`. An `int`, a `long` and an `unsigned` are as wide. -/
abbrev Word := BitVec 32

def pageMask : Word := 1#32 <<< pageBits - 1#32

def ffsl (x : Word) : ℤ := if x = 0 then 0 else x.ctz.toNat + 1

def builtinClzl (clz0 : ℤ) (x : Word) : ℤ := if x = 0 then clz0 else x.clz.toNat

def msbl (clz0 : ℤ) (x : Word) : ℤ := 32 - builtinClzl clz0 x - 1

/-- `MSB`, whose argument becomes an `int` and an `unsigned long` again. -/
def msb (clz0 : ℤ) (x : Word) : ℤ := msbl clz0 (.ofInt 32 x.toInt)

def minUnsigned (x y : ℤ) : Word := if BitVec.ofInt 32 x < .ofInt 32 y then .ofInt 32 x else .ofInt 32 y

def shift (clz0 : ℤ) (e a : Word) : Word := minUnsigned (ffsl a - 1) (msb clz0 (e - a))

/-- The rounds of the loop, with `_A` and `_S`. `none` is a loop that has not ended. -/
def rounds (clz0 : ℤ) (e : Word) : ℕ → Word → Word → Option (List Fpage)
  | 0, _, _ => none
  | n + 1, a, s =>
    if a < e then
      let next := a + 1#32 <<< s
      (rounds clz0 e n next (shift clz0 e next)).map (⟨a.toNat, s.toNat⟩ :: ·)
    else some []

def forPageRange (clz0 : ℤ) (n : ℕ) (start fin : Word) : Option (List Fpage) :=
  let e := fin &&& ~~~pageMask
  let a := start &&& ~~~pageMask
  rounds clz0 e n a (shift clz0 e a)

def Ends (clz0 : ℤ) (start fin : Word) (l : List Fpage) : Prop :=
  ∃ m, ∀ n, m ≤ n → forPageRange clz0 n start fin = some l

def pageRangeBound (clz0 : ℤ) (start fin : Word) : ℤ := (msb clz0 (fin - start) - pageBits) * 2

/-- Aligned pages that lie in order and make up the addresses from `lo` to `hi`. -/
structure PagesOf (l : List Fpage) (lo hi : ℕ) : Prop where
  size : ∀ p ∈ l, pageSize ≤ p.size
  aligned : ∀ p ∈ l, p.size ∣ p.address
  ascending : l.Pairwise fun p q => p.fin ≤ q.address
  covers : ∀ x, (∃ p ∈ l, p.address ≤ x ∧ x < p.fin) ↔ lo ≤ x ∧ x < hi
  none : hi ≤ lo → l = []

variable {clz0 : ℤ} {start fin x a e : Word} {l : List Fpage} {lo hi n : ℕ}

-- Words and numbers

theorem floor_toNat (x : Word) : (x &&& ~~~pageMask).toNat = pageFloor x.toNat :=
  clearLow_toNat x 12

theorem ffsl_eq (x : Word) : ffsl x = (Root.ffsl x.toNat : ℕ) := by
  rw [ffsl, Root.ffsl]
  by_cases hx : x = 0
  · subst hx
    rfl
  · have hfirst : (List.range 32).find? (x.toNat.testBit ·) = some x.ctz.toNat := by
      rw [List.find?_range_eq_some]
      refine ⟨BitVec.getLsbD_true_ctz_of_ne_zero hx, ?_, fun i hi => ?_⟩
      · exact List.mem_range.mpr (BitVec.lt_def.mp (BitVec.ctz_lt_iff_ne_zero.mpr hx))
      · have hlow : x.toNat.testBit i = false := BitVec.getLsbD_false_of_lt_ctz hi
        simp [hlow]
    rw [hfirst, if_neg hx]
    rfl

theorem msb_eq (hx : x ≠ 0) : msb clz0 x = (Nat.log2 x.toNat : ℕ) := by
  have hclz : x.clz.toNat < 32 := BitVec.lt_def.mp (BitVec.clz_lt_iff_ne_zero.mpr hx)
  have hlog : Nat.log2 x.toNat = 31 - x.clz.toNat := by
    rw [Nat.log2_eq_iff (by simpa [← BitVec.toNat_inj] using hx)]
    have hlow : 2 ^ (32 - 1 - x.clz.toNat) ≤ x.toNat := BitVec.two_pow_sub_clz_le_toNat_of_ne_zero (by decide) hx
    have hhigh : x.toNat < 2 ^ (32 - x.clz.toNat) := BitVec.toNat_lt_two_pow_sub_clz
    exact ⟨hlow, by rwa [show 31 - x.clz.toNat + 1 = 32 - x.clz.toNat by omega]⟩
  rw [msb, BitVec.ofInt_toInt, msbl, builtinClzl, if_neg hx, hlog]
  omega

theorem minUnsigned_toNat (x y : ℤ) :
    (minUnsigned x y).toNat = min (x % 2 ^ 32).toNat (y % 2 ^ 32).toNat := by
  rw [minUnsigned]
  split
  · next hlt =>
    rw [BitVec.lt_def, BitVec.toNat_ofInt, BitVec.toNat_ofInt] at hlt
    rw [BitVec.toNat_ofInt]
    exact (Nat.min_eq_left hlt.le).symm
  · next hlt =>
    rw [BitVec.lt_def, BitVec.toNat_ofInt, BitVec.toNat_ofInt] at hlt
    rw [BitVec.toNat_ofInt]
    exact (Nat.min_eq_right (Nat.not_lt.mp hlt)).symm

theorem shift_toNat (h : a < e) : (shift clz0 e a).toNat = pageShift a.toNat e.toNat := by
  have hlt : a.toNat < e.toNat := BitVec.lt_def.mp h
  have hsub : (e - a).toNat = e.toNat - a.toNat := BitVec.toNat_sub_of_le (BitVec.le_of_lt h)
  have hne : e - a ≠ 0 := by
    intro hzero
    rw [hzero] at hsub
    have : (0 : Word).toNat = 0 := rfl
    omega
  have hlog : Nat.log2 (e.toNat - a.toNat) < 32 := by
    rw [Nat.log2_lt (by omega)]
    have := e.isLt
    omega
  rw [shift, minUnsigned_toNat, msb_eq hne, hsub, ffsl_eq, pageShift]
  have hfirst : (((Root.ffsl a.toNat : ℕ) - 1 : ℤ) % 2 ^ 32).toNat = Root.word (Root.ffsl a.toNat + (2 ^ 32 - 1)) := by
    rw [Root.word]
    omega
  have hlast : ((Nat.log2 (e.toNat - a.toNat) : ℤ) % 2 ^ 32).toNat = Nat.log2 (e.toNat - a.toNat) := by omega
  rw [hfirst, hlast]

-- The loop

theorem rounds_eq (ha : a.toNat % pageSize = 0) (he : e.toNat % pageSize = 0) (n : ℕ)
    (hn : e.toNat - a.toNat ≤ n * pageSize) {m : ℕ} (hm : n < m) :
    rounds clz0 e m a (shift clz0 e a) = some (pageLoop e.toNat n a.toNat) := by
  induction n generalizing a m with
  | zero =>
    obtain ⟨m, rfl⟩ := Nat.exists_eq_add_of_lt hm
    have hlt : ¬ a < e := by
      rw [BitVec.lt_def]
      omega
    rw [rounds, if_neg hlt, pageLoop]
  | succ n ih =>
    obtain ⟨m, rfl⟩ := Nat.exists_eq_add_of_lt hm
    rw [rounds, pageLoop]
    by_cases hlt : a < e
    · have hlt' : a.toNat < e.toNat := BitVec.lt_def.mp hlt
      have hs : (shift clz0 e a).toNat = pageShift a.toNat e.toNat := shift_toNat hlt
      obtain ⟨hbits, -, hleft⟩ := pageShift_spec ha he hlt' e.isLt
      obtain ⟨k, hk⟩ := pageSize_dvd hbits
      have hle := e.isLt
      have hword : Root.word (a.toNat + 2 ^ pageShift a.toNat e.toNat) = a.toNat + 2 ^ pageShift a.toNat e.toNat :=
        Nat.mod_eq_of_lt (by omega)
      have hnext : (a + 1#32 <<< shift clz0 e a).toNat = a.toNat + 2 ^ pageShift a.toNat e.toNat := by
        rw [BitVec.toNat_add, BitVec.shiftLeft_eq', BitVec.toNat_shiftLeft, hs, Nat.shiftLeft_eq]
        show (a.toNat + 1 * 2 ^ pageShift a.toNat e.toNat % 2 ^ 32) % 2 ^ 32 = _
        rw [Nat.one_mul, Nat.mod_eq_of_lt (by omega), Nat.mod_eq_of_lt (by omega)]
      have hrest := ih (a := a + 1#32 <<< shift clz0 e a) (m := n + 1 + m) (by
        rw [hnext, hk, Nat.add_mul_mod_self_left, ha]) (by
        have hstep : pageSize ≤ 2 ^ pageShift a.toNat e.toNat :=
          Nat.le_of_dvd (Nat.two_pow_pos _) ⟨k, hk⟩
        rw [hnext]
        rw [Nat.succ_mul] at hn
        omega) (by omega)
      rw [if_pos hlt, if_pos hlt']
      show (rounds clz0 e (n + 1 + m) _ _).map _ = _
      rw [hrest, hnext, hs, hword, Option.map_some]
    · rw [if_neg hlt, if_neg (by rwa [BitVec.lt_def] at hlt)]

theorem forPageRange_ends (clz0 : ℤ) (start fin : Word) : Ends clz0 start fin (Root.forPageRange start.toNat fin.toNat) := by
  refine ⟨fin.toNat / pageSize - start.toNat / pageSize + 1, fun n hn => ?_⟩
  have hle : pageFloor fin.toNat - pageFloor start.toNat ≤
      (fin.toNat / pageSize - start.toNat / pageSize) * pageSize := by
    rw [Nat.sub_mul]
    exact Nat.le_refl _
  rw [forPageRange, Root.forPageRange, ← floor_toNat start, ← floor_toNat fin]
  rw [← floor_toNat start, ← floor_toNat fin] at hle
  refine rounds_eq ?_ ?_ _ hle (Nat.lt_of_succ_le hn)
  · rw [floor_toNat]
    exact pageFloor_mod _
  · rw [floor_toNat]
    exact pageFloor_mod _

theorem Ends.unique {l' : List Fpage} (h : Ends clz0 start fin l) (h' : Ends clz0 start fin l') : l = l' := by
  obtain ⟨m, hm⟩ := h
  obtain ⟨m', hm'⟩ := h'
  have he := (hm (max m m') (le_max_left _ _)).symm.trans (hm' (max m m') (le_max_right _ _))
  exact Option.some.inj he

-- The pages of the range

theorem PagesOf.nil (h : hi ≤ lo) : PagesOf [] lo hi where
  size p hp := (List.not_mem_nil hp).elim
  aligned p hp := (List.not_mem_nil hp).elim
  ascending := .nil
  covers x := by
    refine ⟨fun ⟨p, hp, _⟩ => (List.not_mem_nil hp).elim, fun hx => ?_⟩
    omega
  none _ := rfl

theorem pagesOf_of_tiles (h : Tiles l lo hi) : PagesOf l lo hi := by
  induction h with
  | nil a => exact .nil le_rfl
  | @cons p l e hgood hrest ih =>
    have hpos : 0 < p.size := Nat.two_pow_pos _
    have hle : p.fin ≤ e := hrest.le
    refine ⟨?_, ?_, ?_, fun x => ?_, fun hnone => ?_⟩
    · intro q hq
      rcases List.mem_cons.mp hq with rfl | hq
      · exact Nat.le_of_dvd hpos (pageSize_dvd hgood.le)
      · exact ih.size q hq
    · intro q hq
      rcases List.mem_cons.mp hq with rfl | hq
      · exact hgood.aligned
      · exact ih.aligned q hq
    · refine .cons (fun q hq => ?_) ih.ascending
      -- the start of a page of the rest is in the rest
      have hsize : pageSize ≤ q.size := ih.size q hq
      have hpage : 0 < pageSize := by decide
      exact ((ih.covers q.address).mp ⟨q, hq, le_rfl, by rw [Fpage.fin]; omega⟩).1
    · have hcovers := ih.covers x
      rw [List.exists_mem_cons_iff, hcovers]
      rw [Fpage.fin] at *
      omega
    · rw [Fpage.fin] at hle
      omega

/-- **The loop on words makes up the range**, from its start's page to its end's, for every start and end. -/
theorem forPageRange_pages (clz0 : ℤ) (start fin : Word) :
    ∃ l, Ends clz0 start fin l ∧ PagesOf l (pageFloor start.toNat) (pageFloor fin.toNat) := by
  refine ⟨_, forPageRange_ends clz0 start fin, ?_⟩
  by_cases hle : pageFloor start.toNat ≤ pageFloor fin.toNat
  · exact pagesOf_of_tiles (forPageRange_tiles hle fin.isLt)
  · rw [forPageRange_nil (Nat.le_of_not_le hle)]
    exact .nil (Nat.le_of_not_le hle)

-- The bound

theorem pageShift_max {a e : ℕ} (h : 2 ^ (pageShift a e + 1) ∣ a) (hlt : a < e) (he : e < 2 ^ 32) :
    e < a + 2 ^ (pageShift a e + 1) := by
  have hroom : e - a < 2 ^ (Nat.log2 (e - a) + 1) := Nat.lt_log2_self
  have hlog : Nat.log2 (e - a) < 32 := by
    rw [Nat.log2_lt (by omega)]
    omega
  suffices hmin : pageShift a e = Nat.log2 (e - a) by
    rw [hmin]
    omega
  rw [pageShift] at h ⊢
  apply Nat.min_eq_right
  by_contra hsmall
  rw [Nat.min_eq_left (Nat.le_of_not_le hsmall)] at h
  cases hfind : (List.range 32).find? (a.testBit ·) with
  | none =>
    have hlarge : Root.word (Root.ffsl a + (2 ^ 32 - 1)) = 2 ^ 32 - 1 := by
      rw [Root.ffsl, hfind]
      rfl
    rw [hlarge] at hsmall
    omega
  | some i =>
    obtain ⟨hi, -, -⟩ := List.find?_range_eq_some.mp hfind
    have hi32 : i < 32 := List.mem_range.mp (List.mem_of_find?_eq_some hfind)
    have hlowest : Root.word (Root.ffsl a + (2 ^ 32 - 1)) = i := by
      rw [Root.ffsl, hfind, Root.word]
      show (i + 1 + (2 ^ 32 - 1)) % 2 ^ 32 = i
      omega
    rw [hlowest] at h
    have hbit : (a % 2 ^ (i + 1)).testBit i = a.testBit i := by
      rw [Nat.testBit_mod_two_pow, decide_eq_true (Nat.lt_succ_self i), Bool.true_and]
    rw [Nat.mod_eq_zero_of_dvd h, Nat.zero_testBit, hi] at hbit
    cases hbit

theorem greedy_of_pageLoop {a e : ℕ} (n : ℕ) (ha : a % pageSize = 0) (he : e % pageSize = 0) (hle : a ≤ e)
    (he' : e < 2 ^ 32) (hn : e - a ≤ n * pageSize) :
    Greedy ((pageLoop e n a).map (·.sizeLog2 - pageBits)) (a / pageSize) (e / pageSize) := by
  induction n generalizing a with
  | zero =>
    obtain rfl : a = e := by omega
    exact .nil _
  | succ n ih =>
    rw [pageLoop]
    split
    · next hlt =>
      obtain ⟨hbits, hdvd, hleft⟩ := pageShift_spec ha he hlt he'
      have hmax := fun h => pageShift_max h hlt he'
      obtain ⟨j, hj⟩ := Nat.exists_eq_add_of_le hbits
      have hword : Root.word (a + 2 ^ pageShift a e) = a + 2 ^ pageShift a e := Nat.mod_eq_of_lt (by omega)
      have hpow : 2 ^ pageShift a e = pageSize * 2 ^ j := by rw [hj, Nat.pow_add]; rfl
      have hpow' : 2 ^ (pageShift a e + 1) = pageSize * 2 ^ (j + 1) := by rw [hj, Nat.add_assoc, Nat.pow_add]; rfl
      have hpos : 0 < 2 ^ j := Nat.two_pow_pos j
      obtain ⟨x, rfl⟩ := Nat.dvd_of_mod_eq_zero ha
      obtain ⟨y, rfl⟩ := Nat.dvd_of_mod_eq_zero he
      have hpage : 0 < pageSize := by decide
      have hnext : pageSize * x + pageSize * 2 ^ j = pageSize * (x + 2 ^ j) := (Nat.mul_add _ _ _).symm
      have hnext' : pageSize * x + pageSize * 2 ^ (j + 1) = pageSize * (x + 2 ^ (j + 1)) := (Nat.mul_add _ _ _).symm
      rw [hpow, ← Nat.mul_sub] at hleft
      rw [hpow] at hdvd
      rw [hpow', hnext'] at hmax
      have hleft : 2 ^ j ≤ y - x := Nat.le_of_mul_le_mul_left hleft hpage
      have hlt : x < y := Nat.lt_of_mul_lt_mul_left hlt
      have hsum : x + 2 ^ j ≤ y := by omega
      rw [hword, hpow, hnext, List.map_cons, Nat.mul_div_cancel_left x hpage, Nat.mul_div_cancel_left y hpage]
      have hsize : pageShift (pageSize * x) (pageSize * y) - pageBits = j := by rw [hj, Nat.add_sub_cancel_left]
      show Greedy ((pageShift (pageSize * x) (pageSize * y) - pageBits) :: _) x y
      rw [hsize]
      refine .cons (Nat.dvd_of_mul_dvd_mul_left hpage hdvd) hsum (fun h => ?_) ?_
      · exact Nat.lt_of_mul_lt_mul_left (hmax (Nat.mul_dvd_mul_left _ h))
      · have hrest := ih (a := pageSize * (x + 2 ^ j)) (Nat.mul_mod_right _ _) (Nat.mul_le_mul_left _ hsum) (by
          rw [← Nat.mul_sub] at hn ⊢
          rw [Nat.mul_comm _ pageSize] at hn ⊢
          have hn := Nat.le_of_mul_le_mul_left hn hpage
          exact Nat.mul_le_mul_left _ (by omega))
        rwa [Nat.mul_div_cancel_left _ hpage, Nat.mul_div_cancel_left _ hpage] at hrest
    · obtain rfl : a = e := by omega
      exact .nil _

theorem log2_mul_pageSize {d : ℕ} (hd : d ≠ 0) : Nat.log2 (d * pageSize) = Nat.log2 d + pageBits := by
  rw [Nat.log2_eq_iff (Nat.mul_ne_zero hd (by decide))]
  have hlow : 2 ^ Nat.log2 d ≤ d := Nat.log2_self_le hd
  have hhigh : d < 2 ^ (Nat.log2 d + 1) := Nat.lt_log2_self
  refine ⟨?_, ?_⟩
  · rw [Nat.pow_add]
    exact Nat.mul_le_mul_right _ hlow
  · rw [Nat.add_right_comm, Nat.pow_add]
    exact Nat.mul_lt_mul_of_pos_right hhigh (by decide)

/-- **The bound of the rounds** is one, for whole pages, where there are two at least. -/
theorem pageRangeBound_iff (clz0 : ℤ) (start fin : Word) (hstart : start.toNat % pageSize = 0)
    (hfin : fin.toNat % pageSize = 0) (hlt : start < fin) :
    ∃ l, Ends clz0 start fin l ∧ ((l.length : ℤ) ≤ pageRangeBound clz0 start fin ↔ fin - start ≠ 0x1000) := by
  refine ⟨_, forPageRange_ends clz0 start fin, ?_⟩
  have hlt' : start.toNat < fin.toNat := BitVec.lt_def.mp hlt
  have hsub : (fin - start).toNat = fin.toNat - start.toNat := BitVec.toNat_sub_of_le (BitVec.le_of_lt hlt)
  have hne : fin - start ≠ 0 := by
    rw [Ne, ← BitVec.toNat_inj, hsub]
    show fin.toNat - start.toNat ≠ 0
    omega
  have hpage : fin - start = 0x1000 ↔ fin.toNat - start.toNat = pageSize := by
    rw [← BitVec.toNat_inj, hsub]
    rfl
  obtain ⟨d, hd⟩ : pageSize ∣ fin.toNat - start.toNat :=
    Nat.dvd_sub (Nat.dvd_of_mod_eq_zero hfin) (Nat.dvd_of_mod_eq_zero hstart)
  have hd0 : d ≠ 0 := by
    rintro rfl
    omega
  have hcount : fin.toNat / pageSize - start.toNat / pageSize = d := by
    simp only [pageSize] at *
    omega
  have hbound : pageRangeBound clz0 start fin = ((2 * Nat.log2 d : ℕ) : ℤ) := by
    rw [pageRangeBound, msb_eq hne, hsub, hd, Nat.mul_comm, log2_mul_pageSize hd0]
    push_cast
    omega
  have hgreedy := greedy_of_pageLoop d hstart hfin hlt'.le fin.isLt (by rw [hd, Nat.mul_comm])
  rw [hbound, Ne, hpage, hd, Root.forPageRange, pageFloor_of_mod hstart, pageFloor_of_mod hfin, hcount, Nat.cast_le]
  by_cases hone : d = 1
  · subst hone
    rw [pageLoop, if_pos hlt', List.length_cons]
    have hlog : Nat.log2 1 = 0 := rfl
    omega
  · have hlen := hgreedy.length_le (by omega)
    rw [List.length_map, hcount] at hlen
    have hpage : pageSize * d ≠ pageSize := fun h => hone (Nat.eq_of_mul_eq_mul_left (by decide) (h.trans (Nat.mul_one _).symm))
    exact ⟨fun _ => hpage, fun _ => hlen⟩

theorem pageRangeBound_iff_pages :
    ∃ l, Ends 0 0x3000 0x9000 l ∧ ((l.length : ℤ) ≤ pageRangeBound 0 0x3000 0x9000 ↔ (0x9000 - 0x3000 : Word) ≠ 0x1000) :=
  pageRangeBound_iff 0 0x3000 0x9000 (by decide) (by decide) (by decide)

/-- A single page is one round, and the bound is 0. -/
theorem pageRangeBound_single :
    ∃ l, Ends 0 0x1000 0x2000 l ∧ ¬ (l.length : ℤ) ≤ pageRangeBound 0 0x1000 0x2000 :=
  ⟨_, forPageRange_ends 0 0x1000 0x2000, by decide⟩

end Sneks.Mm
