import Sneks.Stdlib.Strcmp

/-!
# The order of bytes: `memcmp` in `lib/string.c`

The result is the difference of two words or of two bytes as an `int`. It has the wrong sign where the
difference does not fit an `int`.
-/

namespace Sneks.Stdlib
open Lib

def bytesAt (m : Memory) (p i : ℕ) : BitVec 8 := (m (p + i)).toBitVec

def memcmpWords (f g : ℕ → BitVec 8) : ℕ → ℕ → Option (BitVec 32)
  | 0, _ => none
  | w + 1, i =>
    let c := loadBel f i - loadBel g i
    if c ≠ 0 then some c else memcmpWords f g w (i + 4)

def memcmpBytes (f g : ℕ → BitVec 8) : ℕ → ℕ → BitVec 32
  | 0, _ => 0
  | k + 1, i =>
    let c := (f i).zeroExtend 32 - (g i).zeroExtend 32
    if c ≠ 0 then c else memcmpBytes f g k (i + 1)

def memcmp (m : Memory) (s₁ s₂ n : ℕ) : BitVec 32 :=
  let major := n / 4 * 4
  (memcmpWords (bytesAt m s₁) (bytesAt m s₂) (major / 4) 0).getD (memcmpBytes (bytesAt m s₁) (bytesAt m s₂) (n - major) major)

def Ordered (c : BitVec 32) (u v : List UInt8) : Prop := (c.toInt < 0 ↔ u < v) ∧ (0 < c.toInt ↔ v < u)

def Near (x y : ℕ) : Prop := (x < y → y ≤ x + 2 ^ 31) ∧ (y < x → x < y + 2 ^ 31)

variable {x y : BitVec 32} {u v : List UInt8} {i n : ℕ}

theorem ordered_self (u : List UInt8) : Ordered 0 u u :=
  ⟨iff_of_false (by decide) (List.lt_irrefl u), iff_of_false (by decide) (List.lt_irrefl u)⟩

theorem sub_signs (x y : BitVec 32) : ((x - y).toInt < 0 ↔ x.toNat < y.toNat ∧ y.toNat ≤ x.toNat + 2 ^ 31 ∨ y.toNat + 2 ^ 31 ≤ x.toNat) ∧
    (0 < (x - y).toInt ↔ y.toNat < x.toNat ∧ x.toNat < y.toNat + 2 ^ 31 ∨ x.toNat + 2 ^ 31 < y.toNat) := by
  have hx := x.isLt
  have hy := y.isLt
  have hpos : 0 < (x - y).toInt ↔ 0 < (x - y).toNat ∧ (x - y).toNat < 2 ^ 31 := by
    rw [BitVec.toInt_eq_toNat_cond]
    split <;> omega
  rw [hpos, BitVec.toInt_neg_iff, BitVec.toNat_sub]
  omega

theorem ordered_sub_iff (hlt : u < v ↔ x.toNat < y.toNat) (hgt : v < u ↔ y.toNat < x.toNat) :
    Ordered (x - y) u v ↔ Near x.toNat y.toNat := by
  obtain ⟨hneg, hpos⟩ := sub_signs x y
  rw [Ordered, hneg, hpos, hlt, hgt, Near]
  omega

-- The first bytes that differ

theorem lt_of_pad (hsame : ∀ k < i, pad u k = pad v k) (hlt : pad u i < pad v i) : u < v := by
  have hv : i < v.length := by
    by_contra hle
    rw [pad_of_le (Nat.le_of_not_lt hle)] at hlt
    exact Nat.not_lt_zero _ hlt
  have hget : ∀ k (hk : k < u.length) (hkv : k < v.length), k < i → u[k] = v[k] := by
    intro k hk hkv hki
    have hbyte := hsame k hki
    rw [pad, pad, List.getElem?_eq_getElem hk, List.getElem?_eq_getElem hkv] at hbyte
    exact UInt8.toNat_inj.mp hbyte
  rw [List.lt_iff_exists]
  by_cases hu : i < u.length
  · refine .inr ⟨i, hu, hv, fun k hk => hget k (Nat.lt_trans hk hu) (Nat.lt_trans hk hv) hk, ?_⟩
    rw [pad, pad, List.getElem?_eq_getElem hu, List.getElem?_eq_getElem hv] at hlt
    exact UInt8.lt_iff_toNat_lt.mpr hlt
  · have hle := Nat.le_of_not_lt hu
    refine .inl ⟨List.ext_getElem ?_ fun k hk hk' => ?_, Nat.lt_of_le_of_lt hle hv⟩
    · rw [List.length_take]
      omega
    · rw [List.getElem_take]
      exact hget k hk (Nat.lt_of_lt_of_le hk (Nat.le_trans hle (Nat.le_of_lt hv))) (Nat.lt_of_lt_of_le hk hle)

theorem lt_iff_of_first (hsame : ∀ k < i, pad u k = pad v k) (hne : pad u i ≠ pad v i) : u < v ↔ pad u i < pad v i := by
  refine ⟨fun h => ?_, lt_of_pad hsame⟩
  by_contra hle
  have hgt : pad v i < pad u i := by omega
  exact List.lt_asymm h (lt_of_pad (fun k hk => (hsame k hk).symm) hgt)

theorem ordered_iff_of_first (hsame : ∀ k < i, pad u k = pad v k) (hne : pad u i ≠ pad v i)
    (hlt : x.toNat < y.toNat ↔ pad u i < pad v i) (hgt : y.toNat < x.toNat ↔ pad v i < pad u i) :
    Ordered (x - y) u v ↔ Near x.toNat y.toNat := by
  refine ordered_sub_iff ?_ ?_
  · rw [hlt, lt_iff_of_first hsame hne]
  · rw [hgt, lt_iff_of_first (fun k hk => (hsame k hk).symm) hne.symm]

-- memcmp

section Memcmp

variable {f g : ℕ → BitVec 8} {w k j : ℕ}

structure FirstAt (f g : ℕ → BitVec 8) (i j : ℕ) : Prop where
  le : i ≤ j
  same : ∀ k, i ≤ k → k < j → f k = g k
  ne : f j ≠ g j

theorem FirstAt.of_same (h : FirstAt f g (i + n) j) (hsame : ∀ k, i ≤ k → k < i + n → f k = g k) : FirstAt f g i j where
  le := Nat.le_of_add_right_le h.le
  same k hk hk' := if hn : k < i + n then hsame k hk hn else h.same k (Nat.le_of_not_lt hn) hk'
  ne := h.ne

theorem FirstAt.unique (h : FirstAt f g i j) (h' : FirstAt f g i k) : j = k := by
  obtain hlt | heq | hlt := Nat.lt_trichotomy j k
  · exact absurd (h'.same j h.le hlt) h.ne
  · exact heq
  · exact absurd (h.same k h'.le hlt) h'.ne

theorem toNat_loadBel (f : ℕ → BitVec 8) (i : ℕ) : (loadBel f i).toNat =
    (f i).toNat * 2 ^ 24 + (f (i + 1)).toNat * 2 ^ 16 + (f (i + 2)).toNat * 2 ^ 8 + (f (i + 3)).toNat := toNat_word

theorem FirstAt.loadBel_lt (h : FirstAt f g i j) (hj : j < i + 4) :
    (loadBel f i).toNat < (loadBel g i).toNat ↔ (f j).toNat < (g j).toNat := by
  have hf : ∀ k, (f k).toNat < 256 := fun k => (f k).isLt
  have hg : ∀ k, (g k).toNat < 256 := fun k => (g k).isLt
  have hne : (f j).toNat ≠ (g j).toNat := fun heq => h.ne (BitVec.eq_of_toNat_eq heq)
  have hsame : ∀ k, i ≤ k → k < j → (f k).toNat = (g k).toNat := fun k hk hk' => congrArg _ (h.same k hk hk')
  obtain ⟨l, rfl⟩ := Nat.exists_eq_add_of_le h.le
  rw [toNat_loadBel, toNat_loadBel]
  have hf₁ := hf (i + 1)
  have hf₂ := hf (i + 2)
  have hf₃ := hf (i + 3)
  have hg₁ := hg (i + 1)
  have hg₂ := hg (i + 2)
  have hg₃ := hg (i + 3)
  match l with
  | 0 =>
    rw [Nat.add_zero i] at hne ⊢
    omega
  | 1 =>
    have e₀ := hsame i (by omega) (by omega)
    omega
  | 2 =>
    have e₀ := hsame i (by omega) (by omega)
    have e₁ := hsame (i + 1) (by omega) (by omega)
    omega
  | 3 =>
    have e₀ := hsame i (by omega) (by omega)
    have e₁ := hsame (i + 1) (by omega) (by omega)
    have e₂ := hsame (i + 2) (by omega) (by omega)
    omega
  | l + 4 => omega

theorem FirstAt.symm (h : FirstAt f g i j) : FirstAt g f i j := ⟨h.le, fun k hk hk' => (h.same k hk hk').symm, h.ne.symm⟩

theorem memcmpBytes_spec (f g : ℕ → BitVec 8) (k i : ℕ) :
    (∀ j, i ≤ j → j < i + k → f j = g j) ∧ memcmpBytes f g k i = 0 ∨
      ∃ j < i + k, FirstAt f g i j ∧ memcmpBytes f g k i = (f j).zeroExtend 32 - (g j).zeroExtend 32 := by
  induction k generalizing i with
  | zero => exact .inl ⟨fun j hj hj' => absurd hj' (Nat.not_lt.mpr hj), rfl⟩
  | succ k ih =>
    rw [memcmpBytes]
    split
    · next hc =>
      refine .inr ⟨i, by omega, ⟨Nat.le_refl _, fun k hk hk' => absurd hk' (Nat.not_lt.mpr hk), fun heq => ?_⟩, rfl⟩
      rw [heq, BitVec.sub_self] at hc
      exact hc rfl
    · next hc =>
      have heq : f i = g i := by
        have hnat := congrArg BitVec.toNat (eq_of_sub_eq_zero (not_not.mp hc))
        rw [BitVec.toNat_setWidth, BitVec.toNat_setWidth, Nat.mod_eq_of_lt, Nat.mod_eq_of_lt] at hnat
        · exact BitVec.eq_of_toNat_eq hnat
        · exact Nat.lt_trans (g i).isLt (by decide)
        · exact Nat.lt_trans (f i).isLt (by decide)
      have hsame : ∀ j, i ≤ j → j < i + 1 → f j = g j := fun j hj hj' => (Nat.le_antisymm hj (Nat.le_of_lt_succ hj')) ▸ heq
      obtain ⟨hall, hzero⟩ | ⟨j, hj, hfirst, hval⟩ := ih (i + 1)
      · refine .inl ⟨fun j hj hj' => ?_, hzero⟩
        by_cases hji : j < i + 1
        · exact hsame j hj hji
        · exact hall j (Nat.le_of_not_lt hji) (by omega)
      · exact .inr ⟨j, by omega, hfirst.of_same hsame, hval⟩

theorem memcmpWords_spec (f g : ℕ → BitVec 8) (w i : ℕ) :
    (∀ j, i ≤ j → j < i + 4 * w → f j = g j) ∧ memcmpWords f g w i = none ∨
      ∃ j < i + 4 * w, FirstAt f g i j ∧
        memcmpWords f g w i = some (loadBel f (i + (j - i) / 4 * 4) - loadBel g (i + (j - i) / 4 * 4)) := by
  induction w generalizing i with
  | zero => exact .inl ⟨fun j hj hj' => absurd hj' (Nat.not_lt.mpr hj), rfl⟩
  | succ w ih =>
    rw [memcmpWords]
    split
    · next hc =>
      have hdiffer : ¬ ∀ k, i ≤ k → k < i + 4 → f k = g k := by
        intro hall
        have hword : loadBel f i = loadBel g i := by
          rw [loadBel, loadBel, hall i (by omega) (by omega), hall (i + 1) (by omega) (by omega),
            hall (i + 2) (by omega) (by omega), hall (i + 3) (by omega) (by omega)]
        rw [hword, BitVec.sub_self] at hc
        exact hc rfl
      obtain ⟨j, hle, hlt, hsame, hne⟩ := exists_first_not hdiffer
      have hstart : i + (j - i) / 4 * 4 = i := by omega
      exact .inr ⟨j, by omega, ⟨hle, hsame, hne⟩, by rw [hstart]⟩
    · next hc =>
      obtain ⟨h₀, h₁, h₂, h₃⟩ := word_inj (eq_of_sub_eq_zero (not_not.mp hc))
      have hsame : ∀ j, i ≤ j → j < i + 4 → f j = g j := by
        intro j hj hj'
        obtain ⟨l, rfl⟩ := Nat.exists_eq_add_of_le hj
        obtain rfl | rfl | rfl | rfl : l = 0 ∨ l = 1 ∨ l = 2 ∨ l = 3 := by omega
        · exact h₀
        · exact h₁
        · exact h₂
        · exact h₃
      obtain ⟨hall, hnone⟩ | ⟨j, hj, hfirst, hval⟩ := ih (i + 4)
      · refine .inl ⟨fun j hj hj' => ?_, hnone⟩
        by_cases hji : j < i + 4
        · exact hsame j hj hji
        · exact hall j (Nat.le_of_not_lt hji) (by omega)
      · have hle := hfirst.le
        have hstart : i + 4 + (j - (i + 4)) / 4 * 4 = i + (j - i) / 4 * 4 := by omega
        exact .inr ⟨j, by omega, hfirst.of_same hsame, by rw [hval, hstart]⟩

theorem pad_load (m : Memory) (p : ℕ) (h : i < n) : pad (m.load p n) i = (bytesAt m p i).toNat := by
  have hget : (m.load p n)[i]? = some (m (p + i)) := by
    rw [List.getElem?_eq_getElem (by rwa [Memory.length_load])]
    simp only [Memory.load, List.getElem_map, List.getElem_range]
  rw [pad, hget]
  rfl

theorem FirstAt.ordered {m : Memory} {p q : ℕ} (h : FirstAt (bytesAt m p) (bytesAt m q) 0 j) (hj : j < n)
    (hlt : x.toNat < y.toNat ↔ (bytesAt m p j).toNat < (bytesAt m q j).toNat)
    (hgt : y.toNat < x.toNat ↔ (bytesAt m q j).toNat < (bytesAt m p j).toNat) :
    Ordered (x - y) (m.load p n) (m.load q n) ↔ Near x.toNat y.toNat := by
  refine @ordered_iff_of_first _ _ _ _ j (fun k hk => ?_) ?_ ?_ ?_
  · rw [pad_load m p (Nat.lt_trans hk hj), pad_load m q (Nat.lt_trans hk hj), h.same k (Nat.zero_le _) hk]
  · rw [pad_load m p hj, pad_load m q hj]
    exact fun heq => h.ne (BitVec.eq_of_toNat_eq heq)
  · rw [pad_load m p hj, pad_load m q hj, hlt]
  · rw [pad_load m p hj, pad_load m q hj, hgt]

theorem load_eq {m : Memory} {p q : ℕ} (h : ∀ j < n, bytesAt m p j = bytesAt m q j) : m.load p n = m.load q n := by
  refine List.map_congr_left fun j hj => ?_
  exact UInt8.toBitVec_inj.mp (h j (List.mem_range.mp hj))

def WordsNear (f g : ℕ → BitVec 8) (n : ℕ) : Prop :=
  ∀ j < n / 4 * 4, FirstAt f g 0 j → Near (loadBel f (j / 4 * 4)).toNat (loadBel g (j / 4 * 4)).toNat

theorem memcmp_ordered_iff (m : Memory) (s₁ s₂ n : ℕ) :
    Ordered (memcmp m s₁ s₂ n) (m.load s₁ n) (m.load s₂ n) ↔ WordsNear (bytesAt m s₁) (bytesAt m s₂) n := by
  have hmajor : 0 + 4 * (n / 4 * 4 / 4) = n / 4 * 4 := by omega
  rw [memcmp]
  obtain ⟨hall, hnone⟩ | ⟨j, hj, hfirst, hval⟩ := memcmpWords_spec (bytesAt m s₁) (bytesAt m s₂) (n / 4 * 4 / 4) 0
  · have hnear : WordsNear (bytesAt m s₁) (bytesAt m s₂) n := fun j hj hfirst => absurd (hall j (Nat.zero_le _) (by omega)) hfirst.ne
    rw [hnone, Option.getD_none]
    refine iff_of_true ?_ hnear
    obtain ⟨hrest, hzero⟩ | ⟨j, hj, hfirst, hval⟩ :=
      memcmpBytes_spec (bytesAt m s₁) (bytesAt m s₂) (n - n / 4 * 4) (n / 4 * 4)
    · rw [hzero, load_eq fun j hj => ?_]
      · exact ordered_self _
      · by_cases hword : j < n / 4 * 4
        · exact hall j (Nat.zero_le _) (by omega)
        · exact hrest j (Nat.le_of_not_lt hword) (by omega)
    · have hfirst' : FirstAt (bytesAt m s₁) (bytesAt m s₂) 0 j := by
        refine FirstAt.of_same (n := n / 4 * 4) (by rwa [Nat.zero_add]) fun k hk hk' => hall k hk (by omega)
      have hbyte : ∀ b : BitVec 8, (b.zeroExtend 32).toNat = b.toNat := fun b => by
        rw [BitVec.toNat_setWidth, Nat.mod_eq_of_lt (Nat.lt_trans b.isLt (by decide))]
      rw [hval, hfirst'.ordered (by omega) (by rw [hbyte, hbyte]) (by rw [hbyte, hbyte]), hbyte, hbyte]
      have hf := (bytesAt m s₁ j).isLt
      have hg := (bytesAt m s₂ j).isLt
      exact ⟨fun _ => by omega, fun _ => by omega⟩
  · rw [Nat.sub_zero, Nat.zero_add] at hval
    have hblock : FirstAt (bytesAt m s₁) (bytesAt m s₂) (j / 4 * 4) j :=
      ⟨by omega, fun k _ hk' => hfirst.same k (Nat.zero_le _) hk', hfirst.ne⟩
    rw [hval, Option.getD_some, hfirst.ordered (by omega) (hblock.loadBel_lt (by omega)) (hblock.symm.loadBel_lt (by omega))]
    refine ⟨fun hnear k _ hk => ?_, fun hnear => hnear j (by omega) hfirst⟩
    rw [hk.unique hfirst]
    exact hnear

end Memcmp

end Sneks.Stdlib
