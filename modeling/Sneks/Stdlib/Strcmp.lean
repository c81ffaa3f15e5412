import Sneks.Stdlib.Simd
import Sneks.Stdlib.Strscpy
import Mathlib.Data.List.Basic
import Mathlib.Data.Int.Notation

/-!
# Comparing strings: `strcmp` in `lib/string.c`

`strncmp` compares four bytes at a time, as big-endian numbers, with `haszero` and `zero_mask` of
`sneks/simd.h`, and gives their difference as a `long`. It keeps from page boundaries by a count that
is an `int`. `strcmp` gives `SIZE_MAX` for the length; that makes the count negative.
-/

namespace Sneks.Stdlib

variable {a b c d a' b' c' d' : BitVec 8}

def precMask (z : BitVec 32) : BitVec 32 :=
  let m := ((1 : BitVec 32) <<< z.toNat.log2) >>> 7 * 0xff
  let m := m ||| m <<< 8
  m ||| m <<< 16

/-- The loop of `strncmp` over words, on one of them: what is returned, unless it goes on. -/
def cmpWord (la lb : BitVec 32) : Option (BitVec 32) :=
  if haszero la ||| haszero lb = 0 then if la - lb ≠ 0 then some (la - lb) else none
  else
    let za := zeroMask la
    let zb := zeroMask lb
    let m := precMask (za ||| zb)
    let c := (la &&& m) - (lb &&& m)
    if c ≠ 0 then some c else some ((za &&& m) - (zb &&& m))

theorem precMask_word : ∀ p q r : Bool,
    precMask (word 0x80 (bif p then 0x80 else 0) (bif q then 0x80 else 0) (bif r then 0x80 else 0)) = word 0xff 0 0 0 ∧
    precMask (word 0 0x80 (bif q then 0x80 else 0) (bif r then 0x80 else 0)) = word 0xff 0xff 0 0 ∧
    precMask (word 0 0 0x80 (bif r then 0x80 else 0)) = word 0xff 0xff 0xff 0 ∧
    precMask (word 0 0 0 0x80) = word 0xff 0xff 0xff 0xff := by decide

def cut (a b c d : BitVec 8) : ℕ :=
  if a.toNat = 0 then 0
  else a.toNat * 2 ^ 24 + if b.toNat = 0 then 0
    else b.toNat * 2 ^ 16 + if c.toNat = 0 then 0 else c.toNat * 2 ^ 8 + d.toNat

theorem eq_of_sub_eq_zero {x y : BitVec 32} (h : x - y = 0) : x = y := by
  have hnat := congrArg BitVec.toNat h
  have hx := x.isLt
  have hy := y.isLt
  have hzero : (0 : BitVec 32).toNat = 0 := rfl
  rw [BitVec.toNat_sub, hzero] at hnat
  refine BitVec.eq_of_toNat_eq ?_
  omega

theorem cmpWord_zero {la lb : BitVec 32} {w x y z : BitVec 8} (hla : la = word a b c d) (hlb : lb = word a' b' c' d')
    (hzero : ¬ haszero la ||| haszero lb = 0) (hm : precMask (zeroMask la ||| zeroMask lb) = word w x y z)
    (hmask : ∀ u ∈ [w, x, y, z], u = 0 ∨ u = 0xff) :
    cmpWord la lb = some ((la &&& word w x y z) - (lb &&& word w x y z)) := by
  rw [cmpWord, if_neg hzero]
  dsimp only
  rw [hm]
  split
  · rfl
  · next hc =>
    have heq : la &&& word w x y z = lb &&& word w x y z := eq_of_sub_eq_zero (not_not.mp hc)
    have hbyte : ∀ u ∈ [w, x, y, z], ∀ s t : BitVec 8, s &&& u = t &&& u → flag s &&& u = flag t &&& u := by
      intro u hu s t hst
      obtain rfl | rfl := hmask u hu
      · exact (BitVec.and_zero).trans (BitVec.and_zero).symm
      · have hall : ∀ r : BitVec 8, r &&& 0xff = r := fun r => BitVec.and_allOnes
        rw [hall, hall] at hst
        rw [hst]
    have hflags : zeroMask la &&& word w x y z = zeroMask lb &&& word w x y z := by
      rw [hla, hlb, and_word, and_word] at heq
      obtain ⟨ha, hb, hc, hd⟩ := word_inj heq
      rw [hla, hlb, zeroMask_word, zeroMask_word, and_word, and_word, hbyte w (by simp) a a' ha,
        hbyte x (by simp) b b' hb, hbyte y (by simp) c c' hc, hbyte z (by simp) d d' hd]
    rw [heq, hflags, BitVec.sub_self, BitVec.sub_self]

theorem sub_toInt_neg {x y : BitVec 32} (h : y.toNat < x.toNat) : (x - y).toInt < 0 ↔ y.toNat + 2 ^ 31 ≤ x.toNat := by
  have hx := x.isLt
  rw [BitVec.toInt_neg_iff, BitVec.toNat_sub]
  omega

theorem cut_eq (a b c d : BitVec 8) :
    (a = 0 → cut a b c d = 0) ∧
    (a ≠ 0 → ∃ r, cut a b c d = a.toNat * 2 ^ 24 + r ∧ r < 2 ^ 24 ∧ (b = 0 → r = 0) ∧
      (b ≠ 0 → ∃ r', r = b.toNat * 2 ^ 16 + r' ∧ r' < 2 ^ 16 ∧ (c = 0 → r' = 0) ∧
        (c ≠ 0 → r' = c.toNat * 2 ^ 8 + d.toNat))) := by
  have hnat : ∀ x : BitVec 8, x = 0 ↔ x.toNat = 0 := fun x => BitVec.toNat_inj.symm
  have hb := b.isLt
  have hc := c.isLt
  have hd := d.isLt
  rw [cut]
  refine ⟨fun h => if_pos ((hnat a).mp h), fun h => ⟨_, if_neg (mt (hnat a).mpr h), ?_, fun h => if_pos ((hnat b).mp h),
    fun h => ⟨_, if_neg (mt (hnat b).mpr h), ?_, fun h => if_pos ((hnat c).mp h), fun h => if_neg (mt (hnat c).mpr h)⟩⟩⟩
  · split
    · omega
    · split <;> omega
  · split <;> omega

structure Matches (x y : BitVec 32) (m n : ℕ) : Prop where
  eq : m = n ↔ x.toNat = y.toNat
  lt : n < m → y.toNat < x.toNat ∧ (y.toNat + 2 ^ 31 ≤ x.toNat ↔ n + 2 ^ 31 ≤ m)

theorem matches_of_nat {x y : BitVec 32} {m n p q : ℕ} (hx : x.toNat = p) (hy : y.toNat = q) (heq : m = n ↔ p = q)
    (hlt : n < m → q < p ∧ (q + 2 ^ 31 ≤ p ↔ n + 2 ^ 31 ≤ m)) : Matches x y m n := by
  subst hx hy
  exact ⟨heq, hlt⟩

theorem matches_first (h : a = 0 ∨ a' = 0) : Matches (word a 0 0 0) (word a' 0 0 0) (cut a b c d) (cut a' b' c' d') := by
  have hnat : ∀ x : BitVec 8, x = 0 ↔ x.toNat = 0 := fun x => BitVec.toNat_inj.symm
  obtain ⟨hzero, hsome⟩ := cut_eq a b c d
  obtain ⟨hzero', hsome'⟩ := cut_eq a' b' c' d'
  have hz : (0 : BitVec 8).toNat = 0 := rfl
  by_cases ha : a = 0 <;> by_cases ha' : a' = 0
  · rw [hzero ha, hzero' ha', ha, ha']
    exact matches_of_nat rfl rfl (by omega) (by omega)
  · obtain ⟨r', heq', hlt', -⟩ := hsome' ha'
    rw [hzero ha, heq', ha]
    rw [hnat] at ha'
    refine matches_of_nat toNat_word toNat_word ?_ ?_ <;> omega
  · obtain ⟨r, heq, hlt, -⟩ := hsome ha
    rw [hzero' ha', heq, ha']
    rw [hnat] at ha
    refine matches_of_nat toNat_word toNat_word ?_ ?_ <;> omega
  · exact absurd h (not_or.mpr ⟨ha, ha'⟩)

theorem matches_second (h₀ : a ≠ 0 ∧ a' ≠ 0) (h : b = 0 ∨ b' = 0) :
    Matches (word a b 0 0) (word a' b' 0 0) (cut a b c d) (cut a' b' c' d') := by
  have hnat : ∀ x : BitVec 8, x = 0 ↔ x.toNat = 0 := fun x => BitVec.toNat_inj.symm
  obtain ⟨r, heq, hlt, hzero, hsome⟩ := (cut_eq a b c d).2 h₀.1
  obtain ⟨r', heq', hlt', hzero', hsome'⟩ := (cut_eq a' b' c' d').2 h₀.2
  have hz : (0 : BitVec 8).toNat = 0 := rfl
  have hb := b.isLt
  have hb' := b'.isLt
  rw [heq, heq']
  refine matches_of_nat toNat_word toNat_word ?_ ?_
  all_goals
    by_cases hbz : b = 0 <;> by_cases hbz' : b' = 0
    · have hr := hzero hbz
      have hr' := hzero' hbz'
      rw [hnat] at hbz hbz'
      omega
    · obtain ⟨t', ht', htlt', -⟩ := hsome' hbz'
      have hr := hzero hbz
      rw [hnat] at hbz hbz'
      omega
    · obtain ⟨t, ht, htlt, -⟩ := hsome hbz
      have hr' := hzero' hbz'
      rw [hnat] at hbz hbz'
      omega
    · exact absurd h (not_or.mpr ⟨hbz, hbz'⟩)

theorem matches_third (h₀ : a ≠ 0 ∧ a' ≠ 0) (h₁ : b ≠ 0 ∧ b' ≠ 0) (h : c = 0 ∨ c' = 0) :
    Matches (word a b c 0) (word a' b' c' 0) (cut a b c d) (cut a' b' c' d') := by
  have hnat : ∀ x : BitVec 8, x = 0 ↔ x.toNat = 0 := fun x => BitVec.toNat_inj.symm
  obtain ⟨r, heq, -, -, hsome⟩ := (cut_eq a b c d).2 h₀.1
  obtain ⟨r', heq', -, -, hsome'⟩ := (cut_eq a' b' c' d').2 h₀.2
  obtain ⟨t, ht, htlt, hzero, hsome⟩ := hsome h₁.1
  obtain ⟨t', ht', htlt', hzero', hsome'⟩ := hsome' h₁.2
  have hz : (0 : BitVec 8).toNat = 0 := rfl
  have hc := c.isLt
  have hc' := c'.isLt
  rw [heq, heq']
  refine matches_of_nat toNat_word toNat_word ?_ ?_
  all_goals
    by_cases hcz : c = 0 <;> by_cases hcz' : c' = 0
    · have hr := hzero hcz
      have hr' := hzero' hcz'
      rw [hnat] at hcz hcz'
      omega
    · have hr := hzero hcz
      have hr' := hsome' hcz'
      rw [hnat] at hcz hcz'
      have hd' := d'.isLt
      omega
    · have hr := hsome hcz
      have hr' := hzero' hcz'
      rw [hnat] at hcz hcz'
      have hd := d.isLt
      omega
    · exact absurd h (not_or.mpr ⟨hcz, hcz'⟩)

theorem matches_fourth (h₀ : a ≠ 0 ∧ a' ≠ 0) (h₁ : b ≠ 0 ∧ b' ≠ 0) (h₂ : c ≠ 0 ∧ c' ≠ 0) :
    Matches (word a b c d) (word a' b' c' d') (cut a b c d) (cut a' b' c' d') := by
  obtain ⟨r, heq, -, -, hsome⟩ := (cut_eq a b c d).2 h₀.1
  obtain ⟨r', heq', -, -, hsome'⟩ := (cut_eq a' b' c' d').2 h₀.2
  obtain ⟨t, ht, -, -, hsome⟩ := hsome h₁.1
  obtain ⟨t', ht', -, -, hsome'⟩ := hsome' h₁.2
  have hr := hsome h₂.1
  have hr' := hsome' h₂.2
  rw [heq, heq']
  refine matches_of_nat toNat_word toNat_word ?_ ?_ <;> omega

def counted (a b c d a' b' c' : BitVec 8) : BitVec 32 :=
  if a = 0 ∨ a' = 0 then word a 0 0 0
  else if b = 0 ∨ b' = 0 then word a b 0 0
  else if c = 0 ∨ c' = 0 then word a b c 0
  else word a b c d

theorem counted_swap (a b c a' b' c' d' : BitVec 8) : counted a' b' c' d' a b c =
    if a = 0 ∨ a' = 0 then word a' 0 0 0
    else if b = 0 ∨ b' = 0 then word a' b' 0 0
    else if c = 0 ∨ c' = 0 then word a' b' c' 0
    else word a' b' c' d' :=
  if_congr Or.comm rfl (if_congr Or.comm rfl (if_congr Or.comm rfl rfl))

theorem matches_counted (a b c d a' b' c' d' : BitVec 8) :
    Matches (counted a b c d a' b' c') (counted a' b' c' d' a b c) (cut a b c d) (cut a' b' c' d') := by
  rw [counted_swap a b c a' b' c' d', counted]
  by_cases h₀ : a = 0 ∨ a' = 0
  · rw [if_pos h₀, if_pos h₀]
    exact matches_first h₀
  · rw [if_neg h₀, if_neg h₀]
    by_cases h₁ : b = 0 ∨ b' = 0
    · rw [if_pos h₁, if_pos h₁]
      exact matches_second (not_or.mp h₀) h₁
    · rw [if_neg h₁, if_neg h₁]
      by_cases h₂ : c = 0 ∨ c' = 0
      · rw [if_pos h₂, if_pos h₂]
        exact matches_third (not_or.mp h₀) (not_or.mp h₁) h₂
      · rw [if_neg h₂, if_neg h₂]
        exact matches_fourth (not_or.mp h₀) (not_or.mp h₁) (not_or.mp h₂)

theorem word_eq_of_counted (h : counted a b c d a' b' c' = counted a' b' c' d' a b c)
    (hne : a ≠ 0 ∧ b ≠ 0 ∧ c ≠ 0 ∧ d ≠ 0) : word a b c d = word a' b' c' d' := by
  have hzero : ∀ {x y : BitVec 8}, x = y → x ≠ 0 → ¬ (x = 0 ∨ y = 0) := fun heq hx => not_or.mpr ⟨hx, heq ▸ hx⟩
  rw [counted_swap a b c a' b' c' d', counted] at h
  split at h
  · next h₀ => exact absurd h₀ (hzero (word_inj h).1 hne.1)
  · split at h
    · next h₁ => exact absurd h₁ (hzero (word_inj h).2.1 hne.2.1)
    · split at h
      · next h₂ => exact absurd h₂ (hzero (word_inj h).2.2.1 hne.2.2.1)
      · exact h

theorem counted_of_ne (ha : ¬ (a = 0 ∨ a' = 0)) (hb : ¬ (b = 0 ∨ b' = 0)) (hc : ¬ (c = 0 ∨ c' = 0)) :
    counted a b c d a' b' c' = word a b c d := by
  rw [counted, if_neg ha, if_neg hb, if_neg hc]

def countMask (a b c a' b' c' : BitVec 8) : BitVec 32 :=
  if a = 0 ∨ a' = 0 then word 0xff 0 0 0
  else if b = 0 ∨ b' = 0 then word 0xff 0xff 0 0
  else if c = 0 ∨ c' = 0 then word 0xff 0xff 0xff 0
  else word 0xff 0xff 0xff 0xff

theorem countMask_comm (a b c a' b' c' : BitVec 8) : countMask a b c a' b' c' = countMask a' b' c' a b c :=
  if_congr Or.comm rfl (if_congr Or.comm rfl (if_congr Or.comm rfl rfl))

theorem countMask_bytes (a b c a' b' c' : BitVec 8) :
    ∃ w x y z, countMask a b c a' b' c' = word w x y z ∧ ∀ u ∈ [w, x, y, z], u = 0 ∨ u = 0xff := by
  unfold countMask
  split
  · exact ⟨_, _, _, _, rfl, by decide⟩
  · split
    · exact ⟨_, _, _, _, rfl, by decide⟩
    · split
      · exact ⟨_, _, _, _, rfl, by decide⟩
      · exact ⟨_, _, _, _, rfl, by decide⟩

theorem and_countMask : word a b c d &&& countMask a b c a' b' c' = counted a b c d a' b' c' := by
  have hall : ∀ r : BitVec 8, r &&& 0xff = r := fun r => BitVec.and_allOnes
  have hno : ∀ r : BitVec 8, r &&& 0 = 0 := fun r => BitVec.and_zero
  unfold countMask counted
  split
  · rw [and_word, hall, hno, hno, hno]
  · split
    · rw [and_word, hall, hall, hno, hno]
    · split
      · rw [and_word, hall, hall, hall, hno]
      · rw [and_word, hall, hall, hall, hall]

theorem flags_some {x y : BitVec 8} (h : x = 0 ∨ y = 0) : flag x ||| flag y = 0x80 := by
  rw [flag_or]
  obtain rfl | rfl := h
  · rfl
  · rw [beq_self_eq_true, Bool.or_true]
    rfl

theorem flags_none {x y : BitVec 8} (h : ¬ (x = 0 ∨ y = 0)) : flag x ||| flag y = 0 := by
  rw [not_or] at h
  rw [flag_or, beq_eq_false_iff_ne.mpr h.1, beq_eq_false_iff_ne.mpr h.2]
  rfl

theorem haszeros_eq_zero : haszero (word a b c d) ||| haszero (word a' b' c' d') = 0 ↔
    (a ≠ 0 ∧ b ≠ 0 ∧ c ≠ 0 ∧ d ≠ 0) ∧ a' ≠ 0 ∧ b' ≠ 0 ∧ c' ≠ 0 ∧ d' ≠ 0 := by
  rw [← haszero_eq_zero, ← haszero_eq_zero]
  exact BitVec.or_eq_zero_iff

theorem precMask_flags (hzero : ¬ haszero (word a b c d) ||| haszero (word a' b' c' d') = 0) :
    precMask (zeroMask (word a b c d) ||| zeroMask (word a' b' c' d')) = countMask a b c a' b' c' := by
  rw [zeroMask_word, zeroMask_word, or_word, countMask]
  split
  · next ha =>
    rw [flags_some ha, flag_or, flag_or, flag_or]
    exact (precMask_word _ _ _).1
  · next ha =>
    rw [flags_none ha]
    split
    · next hb =>
      rw [flags_some hb, flag_or, flag_or]
      exact (precMask_word true _ _).2.1
    · next hb =>
      rw [flags_none hb]
      split
      · next hc =>
        rw [flags_some hc, flag_or]
        exact (precMask_word true true _).2.2.1
      · next hc =>
        have hd : d = 0 ∨ d' = 0 := by
          by_contra hd
          rw [not_or] at ha hb hc hd
          exact hzero (haszeros_eq_zero.mpr ⟨⟨ha.1, hb.1, hc.1, hd.1⟩, ha.2, hb.2, hc.2, hd.2⟩)
        rw [flags_none hc, flags_some hd]
        exact (precMask_word true true true).2.2.2

/-- **One word**: the difference of the bytes that count, unless the words are the same and the strings go on. -/
theorem cmpWord_eq (a b c d a' b' c' d' : BitVec 8) : cmpWord (word a b c d) (word a' b' c' d') =
    if word a b c d = word a' b' c' d' ∧ a ≠ 0 ∧ b ≠ 0 ∧ c ≠ 0 ∧ d ≠ 0 then none
    else some (counted a b c d a' b' c' - counted a' b' c' d' a b c) := by
  by_cases hzero : haszero (word a b c d) ||| haszero (word a' b' c' d') = 0
  · obtain ⟨⟨ha, hb, hc, hd⟩, ha', hb', hc', -⟩ := haszeros_eq_zero.mp hzero
    rw [counted_of_ne (not_or.mpr ⟨ha, ha'⟩) (not_or.mpr ⟨hb, hb'⟩) (not_or.mpr ⟨hc, hc'⟩),
      counted_of_ne (not_or.mpr ⟨ha', ha⟩) (not_or.mpr ⟨hb', hb⟩) (not_or.mpr ⟨hc', hc⟩), cmpWord, if_pos hzero]
    split
    · next hne =>
      rw [if_neg]
      rintro ⟨heq, -⟩
      rw [heq, BitVec.sub_self] at hne
      exact hne rfl
    · next heq => rw [if_pos ⟨eq_of_sub_eq_zero (not_not.mp heq), ha, hb, hc, hd⟩]
  · have hends : ¬ (word a b c d = word a' b' c' d' ∧ a ≠ 0 ∧ b ≠ 0 ∧ c ≠ 0 ∧ d ≠ 0) := by
      rintro ⟨heq, hne⟩
      obtain ⟨rfl, rfl, rfl, rfl⟩ := word_inj heq
      exact hzero (haszeros_eq_zero.mpr ⟨hne, hne⟩)
    obtain ⟨w, x, y, z, hmask, hbytes⟩ := countMask_bytes a b c a' b' c'
    rw [if_neg hends, cmpWord_zero rfl rfl hzero ((precMask_flags hzero).trans hmask) hbytes, ← hmask, and_countMask,
      countMask_comm, and_countMask]

def Returned (r : Option (BitVec 32)) (m n : ℕ) : Prop :=
  (m = n → r = some 0) ∧ (m ≠ n → ∃ c, r = some c ∧ c ≠ 0 ∧ (n < m → (c.toInt < 0 ↔ n + 2 ^ 31 ≤ m)))

theorem Matches.returned {x y : BitVec 32} {m n : ℕ} (h : Matches x y m n) : Returned (some (x - y)) m n := by
  refine ⟨fun heq => ?_, fun hne => ⟨_, rfl, fun hzero => ?_, fun hgt => ?_⟩⟩
  · rw [BitVec.eq_of_toNat_eq (h.eq.mp heq), BitVec.sub_self]
    rfl
  · exact hne (h.eq.mpr (congrArg BitVec.toNat (eq_of_sub_eq_zero hzero)))
  · exact (sub_toInt_neg (h.lt hgt).1).trans (h.lt hgt).2

theorem cmpWord_spec (a b c d a' b' c' d' : BitVec 8) :
    (cut a b c d = cut a' b' c' d' ∧ (a ≠ 0 ∧ b ≠ 0 ∧ c ≠ 0 ∧ d ≠ 0) ∧
      cmpWord (word a b c d) (word a' b' c' d') = none) ∨
    (cut a b c d = cut a' b' c' d' → ¬ (a ≠ 0 ∧ b ≠ 0 ∧ c ≠ 0 ∧ d ≠ 0)) ∧
      Returned (cmpWord (word a b c d) (word a' b' c' d')) (cut a b c d) (cut a' b' c' d') := by
  have hmatch := matches_counted a b c d a' b' c' d'
  rw [cmpWord_eq]
  split
  · next h =>
    obtain ⟨rfl, rfl, rfl, rfl⟩ := word_inj h.1
    exact .inl ⟨rfl, h.2, rfl⟩
  · next h =>
    refine .inr ⟨fun heq hne => h ⟨word_eq_of_counted ?_ hne, hne⟩, hmatch.returned⟩
    exact BitVec.eq_of_toNat_eq (hmatch.eq.mp heq)

def CText.byte (past : ℕ → UInt8) (s : CText) (i : ℕ) : BitVec 8 :=
  match s.text[i]? with
  | some x => x.toBitVec
  | none => if i = s.length then 0 else (past (s.addr + i)).toBitVec

def loadBel (byte : ℕ → BitVec 8) (pos : ℕ) : BitVec 32 := word (byte pos) (byte (pos + 1)) (byte (pos + 2)) (byte (pos + 3))

def untilPage (addr : ℕ) : ℕ := 0x1000 - addr % 0x1000

def strncmpWords (past : ℕ → UInt8) (a b : CText) : ℕ → ℕ → BitVec 32 ⊕ ℕ
  | 0, pos => .inr pos
  | n + 1, pos =>
    match cmpWord (loadBel (a.byte past) pos) (loadBel (b.byte past) pos) with
    | some c => .inl c
    | none => strncmpWords past a b n (pos + 4)

/-- The loop over the bytes left before a page. A `char` is signed. -/
def strncmpBytes (past : ℕ → UInt8) (a b : CText) : ℕ → ℕ → BitVec 32 ⊕ ℕ
  | 0, pos => .inr pos
  | n + 1, pos =>
    let c := (a.byte past pos).signExtend 32 - (b.byte past pos).signExtend 32
    if c ≠ 0 then .inl c
    else if a.byte past pos = 0 then .inl 0
    else strncmpBytes past a b n (pos + 1)

/-- The bytes up to a page boundary in either string or to the end, as an `int`. -/
def segment (a b : CText) (max pos : ℕ) : ℤ :=
  min (Int.bmod (max - pos : ℕ) (2 ^ 32)) (min (untilPage (a.addr + pos)) (untilPage (b.addr + pos)) : ℕ)

/-- The outer loop of `strncmp`, for at most `n` turns. -/
def strncmpLoop (past : ℕ → UInt8) (a b : CText) (max : ℕ) : ℕ → ℕ → Option (BitVec 32)
  | 0, _ => none
  | n + 1, pos =>
    if pos < max then
      let bytes := unsignedOf (segment a b max pos)
      (strncmpWords past a b (bytes / 4) pos).elim some fun pos =>
        (strncmpBytes past a b (bytes % 4) pos).elim some fun pos => strncmpLoop past a b max n pos
    else some 0

/-- `strncmp`. Strings at one address are one. -/
def strncmp (past : ℕ → UInt8) (a b : CText) (max : ℕ) : Option (BitVec 32) :=
  if a = b then some 0 else strncmpLoop past a b max (max + 1) 0

/-- `strcmp`, `SIZE_MAX` being given to `strncmp`. -/
def strcmp (past : ℕ → UInt8) (a b : CText) : Option (BitVec 32) := strncmp past a b 0xffffffff

def pad (s : List UInt8) (i : ℕ) : ℕ := (s[i]?.getD 0).toNat

def wordAt (s : List UInt8) (j : ℕ) : ℕ :=
  pad s (4 * j) * 2 ^ 24 + pad s (4 * j + 1) * 2 ^ 16 + pad s (4 * j + 2) * 2 ^ 8 + pad s (4 * j + 3)

structure Compared (s t : List UInt8) (c : BitVec 32) : Prop where
  zero : c = 0 ↔ s = t
  sign : ∀ k, (∀ i < k, wordAt s i = wordAt t i) → wordAt t k < wordAt s k →
    (c.toInt < 0 ↔ wordAt t k + 2 ^ 31 ≤ wordAt s k)

variable {past : ℕ → UInt8} {s t : CText} {u v : List UInt8} {i j n : ℕ}

theorem pad_lt (u : List UInt8) (i : ℕ) : pad u i < 256 := UInt8.toNat_lt _

theorem pad_of_le (h : u.length ≤ i) : pad u i = 0 := by
  rw [pad, List.getElem?_eq_none h]
  rfl

theorem pad_ne_zero (hu : 0 ∉ u) (h : i < u.length) : pad u i ≠ 0 := by
  rw [pad, List.getElem?_eq_getElem h]
  intro hzero
  have hbyte : u[i] = 0 := UInt8.toNat_inj.mp hzero
  exact hu (hbyte ▸ List.getElem_mem h)

theorem byte_of_lt (h : i < s.length) : (s.byte past i).toNat = pad s.text i ∧ s.byte past i ≠ 0 := by
  have hget : s.text[i]? = some s.text[i] := List.getElem?_eq_getElem h
  have hbyte : (s.byte past i).toNat = pad s.text i := by
    rw [CText.byte, pad, hget]
    rfl
  refine ⟨hbyte, fun hzero => pad_ne_zero s.nonul h ?_⟩
  rw [← hbyte, hzero]
  rfl

theorem byte_length : s.byte past s.length = 0 := by
  have hget : s.text[s.length]? = none := List.getElem?_eq_none (Nat.le_refl _)
  rw [CText.byte, hget]
  exact if_pos rfl

theorem cut_byte (h : 4 * j ≤ s.length) :
    cut (s.byte past (4 * j)) (s.byte past (4 * j + 1)) (s.byte past (4 * j + 2)) (s.byte past (4 * j + 3)) =
      wordAt s.text j := by
  have hbyte : ∀ k, (k < s.length → (s.byte past k).toNat = pad s.text k ∧ pad s.text k ≠ 0) ∧
      (k = s.length → (s.byte past k).toNat = 0) ∧ (s.length ≤ k → pad s.text k = 0) := by
    intro k
    refine ⟨fun hk => ⟨(byte_of_lt hk).1, pad_ne_zero s.nonul hk⟩, fun hk => ?_, fun hk => pad_of_le hk⟩
    rw [hk, byte_length]
    rfl
  have h₀ := hbyte (4 * j)
  have h₁ := hbyte (4 * j + 1)
  have h₂ := hbyte (4 * j + 2)
  have h₃ := hbyte (4 * j + 3)
  rw [cut, wordAt]
  split
  · omega
  · split
    · omega
    · split <;> omega

theorem wordAt_eq_iff : wordAt u j = wordAt v j ↔ ∀ k < 4, pad u (4 * j + k) = pad v (4 * j + k) := by
  have hlt := pad_lt u
  have hlt' := pad_lt v
  have h₁ := hlt (4 * j + 1)
  have h₂ := hlt (4 * j + 2)
  have h₃ := hlt (4 * j + 3)
  have h₁' := hlt' (4 * j + 1)
  have h₂' := hlt' (4 * j + 2)
  have h₃' := hlt' (4 * j + 3)
  rw [wordAt, wordAt]
  constructor
  · intro h k hk
    match k with
    | 0 => rw [Nat.add_zero]; omega
    | 1 => omega
    | 2 => omega
    | 3 => omega
  · intro h
    have e₀ := h 0 (by decide)
    rw [Nat.add_zero] at e₀
    rw [e₀, h 1 (by decide), h 2 (by decide), h 3 (by decide)]

theorem eq_of_pad (hu : 0 ∉ u) (hv : 0 ∉ v) (h : ∀ i ≤ u.length, pad u i = pad v i) : u = v := by
  have hle : v.length ≤ u.length := by
    by_contra hlt
    have hend := h u.length (Nat.le_refl _)
    rw [pad_of_le (Nat.le_refl _)] at hend
    exact pad_ne_zero hv (Nat.lt_of_not_le hlt) hend.symm
  have hge : u.length ≤ v.length := by
    by_contra hlt
    have hend := h v.length hle
    rw [pad_of_le (Nat.le_refl v.length)] at hend
    exact pad_ne_zero hu (Nat.lt_of_not_le hlt) hend
  refine List.ext_getElem (Nat.le_antisymm hge hle) fun i hi hi' => ?_
  have hbyte := h i (Nat.le_of_lt hi)
  rw [pad, pad, List.getElem?_eq_getElem hi, List.getElem?_eq_getElem hi'] at hbyte
  exact UInt8.toNat_inj.mp hbyte

theorem pad_eq_of_words (h : ∀ k < j, wordAt u k = wordAt v k) (hi : i < 4 * j) : pad u i = pad v i := by
  have hbyte := wordAt_eq_iff.mp (h (i / 4) (by omega)) (i % 4) (Nat.mod_lt _ (by decide))
  rwa [Nat.div_add_mod] at hbyte

theorem texts_eq_of_words (hs : s.length < 4 * j) (h : ∀ k < j, wordAt s.text k = wordAt t.text k) : s.text = t.text := by
  refine eq_of_pad s.nonul t.nonul fun i hi => pad_eq_of_words h ?_
  rw [CText.length] at hs
  omega

theorem byte_ne_zero_iff (h : 4 * j ≤ s.length) :
    (s.byte past (4 * j) ≠ 0 ∧ s.byte past (4 * j + 1) ≠ 0 ∧ s.byte past (4 * j + 2) ≠ 0 ∧ s.byte past (4 * j + 3) ≠ 0) ↔
      4 * (j + 1) ≤ s.length := by
  constructor
  · rintro ⟨h₀, h₁, h₂, h₃⟩
    have hend : ∀ k, s.byte past k ≠ 0 → k ≠ s.length := fun k hk heq => hk (heq ▸ byte_length)
    have e₀ := hend _ h₀
    have e₁ := hend _ h₁
    have e₂ := hend _ h₂
    have e₃ := hend _ h₃
    omega
  · intro hle
    exact ⟨(byte_of_lt (by omega)).2, (byte_of_lt (by omega)).2, (byte_of_lt (by omega)).2, (byte_of_lt (by omega)).2⟩

theorem Compared.refl (u : List UInt8) : Compared u u 0 :=
  ⟨⟨fun _ => rfl, fun _ => rfl⟩, fun _ _ hk => absurd hk (Nat.lt_irrefl _)⟩

theorem Compared.of_first {c : BitVec 32} (hsame : ∀ i < j, wordAt u i = wordAt v i) (hdiff : wordAt u j ≠ wordAt v j) (hne : c ≠ 0)
    (hsign : wordAt v j < wordAt u j → (c.toInt < 0 ↔ wordAt v j + 2 ^ 31 ≤ wordAt u j)) : Compared u v c where
  zero := ⟨fun hzero => absurd hzero hne, fun heq => absurd (heq ▸ rfl) hdiff⟩
  sign k hk hgt := by
    obtain hlt | rfl | hlt := Nat.lt_trichotomy k j
    · exact absurd (hsame k hlt) (Nat.ne_of_gt hgt)
    · exact hsign hgt
    · exact absurd (hk j hlt) hdiff

theorem strncmpWords_spec (hsame : ∀ i < j, wordAt s.text i = wordAt t.text i) (hs : 4 * j ≤ s.length)
    (ht : 4 * j ≤ t.length) (hn : min s.length t.length < 4 * (j + n)) :
    ∃ c, strncmpWords past s t n (4 * j) = .inl c ∧ Compared s.text t.text c := by
  induction n generalizing j with
  | zero => omega
  | succ n ih =>
    have hspec := cmpWord_spec (s.byte past (4 * j)) (s.byte past (4 * j + 1)) (s.byte past (4 * j + 2))
      (s.byte past (4 * j + 3)) (t.byte past (4 * j)) (t.byte past (4 * j + 1)) (t.byte past (4 * j + 2))
      (t.byte past (4 * j + 3))
    have hmore : wordAt s.text j = wordAt t.text j → ∀ k < j + 1, wordAt s.text k = wordAt t.text k := by
      intro heq k hk
      obtain hk | rfl := Nat.lt_succ_iff_lt_or_eq.mp hk
      · exact hsame k hk
      · exact heq
    rw [cut_byte hs, cut_byte ht, byte_ne_zero_iff hs] at hspec
    rw [strncmpWords, loadBel, loadBel]
    obtain ⟨heq, hgo, hnone⟩ | ⟨hstop, hequal, hdiffer⟩ := hspec
    · have ht' : 4 * (j + 1) ≤ t.length := by
        by_contra hlt
        have hlast := wordAt_eq_iff.mp heq 3 (by decide)
        rw [pad_of_le (by rw [CText.length] at hlt; omega : t.text.length ≤ 4 * j + 3)] at hlast
        exact pad_ne_zero s.nonul (by rw [CText.length] at hgo; omega) hlast
      rw [hnone]
      exact ih (hmore heq) hgo ht' (by omega)
    · by_cases heq : wordAt s.text j = wordAt t.text j
      · have htext := texts_eq_of_words (Nat.lt_of_not_le (hstop heq)) (hmore heq)
        rw [hequal heq, htext]
        exact ⟨0, rfl, .refl t.text⟩
      · obtain ⟨c, hc, hne, hsign⟩ := hdiffer heq
        rw [hc]
        exact ⟨c, rfl, .of_first hsame heq hne hsign⟩

/-- What is left of `SIZE_MAX` is negative as an `int`, so that pages do not matter. -/
theorem segment_max {max : ℕ} (h : max = 0xffffffff) : segment s t max 0 = -1 := by
  have hcast : Int.bmod (0xffffffff : ℕ) (2 ^ 32) = -1 := by decide
  unfold segment
  rw [Nat.sub_zero, h, hcast]
  omega

theorem strncmp_spec {max : ℕ} (hmax : max = 0xffffffff) (past : ℕ → UInt8) (s t : CText) (h : min s.length t.length < 2 ^ 31) :
    ∃ c, strncmp past s t max = some c ∧ Compared s.text t.text c := by
  rw [strncmp]
  by_cases heq : s = t
  · rw [if_pos heq, heq]
    exact ⟨0, rfl, .refl t.text⟩
  · have hlast : unsignedOf (-1) = 0xffffffff := by decide
    have hcount : unsignedOf (segment s t max 0) = 0xffffffff := (congrArg unsignedOf (segment_max hmax)).trans hlast
    have henough : min s.length t.length < 4 * (0 + unsignedOf (segment s t max 0) / 4) := by omega
    have hpos : 0 < max := by omega
    obtain ⟨c, hwords, hc⟩ := @strncmpWords_spec past s t 0 _ nofun (Nat.zero_le _) (Nat.zero_le _) henough
    rw [Nat.mul_zero] at hwords
    rw [if_neg heq, strncmpLoop, if_pos hpos]
    dsimp only
    rw [hwords]
    exact ⟨c, rfl, hc⟩

/-- **`strcmp`** tells texts apart, and its sign is wrong where the first words that differ are half of
their range apart or more. -/
theorem strcmp_spec (past : ℕ → UInt8) (s t : CText) (h : min s.length t.length < 2 ^ 31) :
    ∃ c, strcmp past s t = some c ∧ Compared s.text t.text c :=
  strncmp_spec rfl past s t h

theorem exists_pad_lt (hv : 0 ∉ v) (h : u < v) : ∃ i, (∀ k < i, pad u k = pad v k) ∧ pad u i < pad v i := by
  obtain ⟨heq, hlen⟩ | ⟨i, hi, hi', hsame, hbyte⟩ := List.lt_iff_exists.mp h
  · refine ⟨u.length, fun k hk => ?_, ?_⟩
    · rw [pad, pad, heq, List.getElem?_take_of_lt hk]
    · rw [pad_of_le (Nat.le_refl _)]
      exact Nat.pos_of_ne_zero (pad_ne_zero hv hlen)
  · refine ⟨i, fun k hk => ?_, ?_⟩
    · rw [pad, pad, List.getElem?_eq_getElem (Nat.lt_trans hk hi), List.getElem?_eq_getElem (Nat.lt_trans hk hi'),
        hsame k hk]
    · rw [pad, pad, List.getElem?_eq_getElem hi, List.getElem?_eq_getElem hi']
      exact UInt8.lt_iff_toNat_lt.mp hbyte

theorem exists_word_lt (hv : 0 ∉ v) (h : u < v) :
    ∃ k, (∀ i < k, wordAt u i = wordAt v i) ∧ wordAt u k < wordAt v k := by
  obtain ⟨i, hbefore, hlt⟩ := exists_pad_lt hv h
  refine ⟨i / 4, fun k hk => wordAt_eq_iff.mpr fun l hl => hbefore _ (by omega), ?_⟩
  have hmod : i = 4 * (i / 4) + i % 4 := (Nat.div_add_mod i 4).symm
  generalize i / 4 = j at *
  have hl := Nat.mod_lt i (by decide : 0 < 4)
  generalize i % 4 = l at *
  subst hmod
  have h₁ := pad_lt u (4 * j + 1)
  have h₂ := pad_lt u (4 * j + 2)
  have h₃ := pad_lt u (4 * j + 3)
  rw [wordAt, wordAt]
  match l with
  | 0 =>
    rw [Nat.add_zero] at hlt
    omega
  | 1 =>
    have e₀ := hbefore (4 * j) (by omega)
    omega
  | 2 =>
    have e₀ := hbefore (4 * j) (by omega)
    have e₁ := hbefore (4 * j + 1) (by omega)
    omega
  | 3 =>
    have e₀ := hbefore (4 * j) (by omega)
    have e₁ := hbefore (4 * j + 1) (by omega)
    have e₂ := hbefore (4 * j + 2) (by omega)
    omega

end Sneks.Stdlib
