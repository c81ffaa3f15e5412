import Sneks.Stdlib.Memcmp

/-!
# The order of strings: `strncmp` and `strcmp` in `lib/string.c`

A string is compared in segments that end at the pages of either string, unless the bound is `2 ^ 31` or
more. In a segment there are words and then up to three bytes, which are signed: two of them are in the
wrong order where just one is negative.
-/

namespace Sneks.Stdlib
open Lib

def Boundary (s t : CText) (max p : ℕ) : Prop := max < 2 ^ 31 ∧ ((s.addr + p) % 0x1000 = 0 ∨ (t.addr + p) % 0x1000 = 0)

instance (s t : CText) (max p : ℕ) : Decidable (Boundary s t max p) := inferInstanceAs (Decidable (_ ∧ (_ ∨ _)))

def segmentStart (s t : CText) (max : ℕ) : ℕ → ℕ
  | 0 => 0
  | i + 1 => if Boundary s t max (i + 1) then i + 1 else segmentStart s t max i

def segmentWord (s t : CText) (max i : ℕ) : ℕ := segmentStart s t max i + (i - segmentStart s t max i) / 4 * 4

def Crossed (s t : CText) (max u : ℕ) : Prop := Boundary s t max (u + 1) ∨ Boundary s t max (u + 2) ∨ Boundary s t max (u + 3)

instance (s t : CText) (max u : ℕ) : Decidable (Crossed s t max u) := inferInstanceAs (Decidable (_ ∨ _ ∨ _))

def chunk (s t : CText) (max i : ℕ) : Option ℕ :=
  let u := segmentWord s t max i
  if u + 4 ≤ max ∧ ¬ Crossed s t max u then some u else none

variable {s t : CText} {max pos b i k n u : ℕ} {past : ℕ → UInt8}

structure Segment (s t : CText) (max pos b : ℕ) : Prop where
  nonempty : 0 < b
  le : pos + b ≤ max
  inside : ∀ k, pos < k → k < pos + b → ¬ Boundary s t max k
  ends : pos + b = max ∨ Boundary s t max (pos + b)

theorem segmentStart_le (s t : CText) (max i : ℕ) : segmentStart s t max i ≤ i := by
  induction i with
  | zero => exact Nat.le_refl _
  | succ i ih =>
    rw [segmentStart]
    split
    · exact Nat.le_refl _
    · exact Nat.le_succ_of_le ih

theorem Boundary.start (h : Boundary s t max i) : segmentStart s t max i = i := by
  cases i with
  | zero => rfl
  | succ i => exact if_pos h

theorem segmentStart_of_large (hmax : 2 ^ 31 ≤ max) (i : ℕ) : segmentStart s t max i = 0 := by
  induction i with
  | zero => rfl
  | succ i ih => rwa [segmentStart, if_neg fun h => absurd h.1 (Nat.not_lt.mpr hmax)]

theorem Segment.start_eq (h : Segment s t max pos b) (hstart : segmentStart s t max pos = pos) (hlow : pos ≤ i) (hhigh : i < pos + b) :
    segmentStart s t max i = pos := by
  obtain ⟨d, rfl⟩ := Nat.exists_eq_add_of_le hlow
  clear hlow
  induction d with
  | zero => exact hstart
  | succ d ih =>
    rw [← Nat.add_assoc, segmentStart, if_neg (h.inside (pos + d + 1) (by omega) (by omega))]
    exact ih (by omega)

theorem Segment.chunk_eq (h : Segment s t max pos b) (hstart : segmentStart s t max pos = pos) (hlow : pos ≤ i) (hhigh : i < pos + b) :
    chunk s t max i = if i < pos + 4 * (b / 4) then some (pos + (i - pos) / 4 * 4) else none := by
  have hle := h.le
  have hword : segmentWord s t max i = pos + (i - pos) / 4 * 4 := by
    rw [segmentWord, h.start_eq hstart hlow hhigh]
  rw [chunk, hword]
  refine if_congr ⟨?_, ?_⟩ rfl rfl
  · rintro ⟨hmax, hcrossed⟩
    by_contra hlt
    -- the segment ends in the word
    obtain hend | hbound := h.ends
    · omega
    · have hin : pos + b = pos + (i - pos) / 4 * 4 + 1 ∨ pos + b = pos + (i - pos) / 4 * 4 + 2 ∨
          pos + b = pos + (i - pos) / 4 * 4 + 3 := by omega
      refine hcrossed ?_
      obtain he | he | he := hin
      · exact .inl (he ▸ hbound)
      · exact .inr (.inl (he ▸ hbound))
      · exact .inr (.inr (he ▸ hbound))
  · intro hlt
    refine ⟨by omega, ?_⟩
    rintro (hbound | hbound | hbound) <;> exact h.inside _ (by omega) (by omega) hbound

theorem segment_spec (hmax : max < 2 ^ 32) (hpos : pos < max) (hstart : segmentStart s t max pos = pos) :
    Segment s t max pos (unsignedOf (segment s t max pos)) := by
  by_cases hlarge : 2 ^ 31 ≤ max
  · obtain rfl : pos = 0 := hstart.symm.trans (segmentStart_of_large hlarge pos)
    have hbytes : unsignedOf (segment s t max 0) = max := by
      have hshift : ((max : ℤ) - (2 ^ 32 : ℕ)).bmod (2 ^ 32) = Int.bmod max (2 ^ 32) := Int.sub_bmod_right _ _
      have hcast : ((max : ℤ) - (2 ^ 32 : ℕ)).bmod (2 ^ 32) = max - (2 ^ 32 : ℕ) := Int.bmod_eq_of_le (by omega) (by omega)
      unfold segment unsignedOf
      rewrite [Nat.sub_zero, ← hshift, hcast]
      omega
    rw [hbytes]
    exact ⟨hpos, by omega, fun k _ _ hk => absurd hk.1 (Nat.not_lt.mpr hlarge), .inl (by omega)⟩
  · obtain ⟨left, hleft⟩ : ∃ left, left = min (max - pos) (min (untilPage (s.addr + pos)) (untilPage (t.addr + pos))) := ⟨_, rfl⟩
    have hbytes : unsignedOf (segment s t max pos) = left := by
      have hcast : Int.bmod (max - pos : ℕ) (2 ^ 32) = (max - pos : ℕ) := Int.bmod_eq_of_le (by omega) (by omega)
      unfold segment unsignedOf
      rewrite [hcast]
      omega
    rw [hbytes]
    simp only [untilPage] at hleft
    refine ⟨by omega, by omega, ?_, ?_⟩
    · rintro k hk hk' ⟨-, hbound⟩
      omega
    · by_cases hend : pos + left = max
      · exact .inl hend
      · exact .inr ⟨by omega, by omega⟩

def number (f g : ℕ → BitVec 8) (i : ℕ) : Option ℕ → BitVec 32
  | some u => counted (f u) (f (u + 1)) (f (u + 2)) (f (u + 3)) (g u) (g (u + 1)) (g (u + 2))
  | none => (f i).signExtend 32

variable {f g : ℕ → BitVec 8} {w : Option ℕ}

def Alike (f g : ℕ → BitVec 8) (p : ℕ) : Prop := ∀ k < p, f k = g k ∧ f k ≠ 0

structure StopsAt (f g : ℕ → BitVec 8) (i : ℕ) : Prop where
  alike : Alike f g i
  stops : ¬ (f i = g i ∧ f i ≠ 0)

def number_sub (f g : ℕ → BitVec 8) (i : ℕ) (w : Option ℕ) : BitVec 32 := number f g i w - number g f i w

theorem Alike.extend (h : Alike f g u) (hmore : ∀ k, u ≤ k → k < u + n → f k = g k ∧ f k ≠ 0) : Alike f g (u + n) :=
  fun k hk => if hlt : k < u then h k hlt else hmore k (Nat.le_of_not_lt hlt) hk

theorem strncmpWords_cases (n : ℕ) (hu : Alike (s.byte past) (t.byte past) u) :
    Alike (s.byte past) (t.byte past) (u + 4 * n) ∧ strncmpWords past s t n u = .inr (u + 4 * n) ∨
      ∃ i < u + 4 * n, u ≤ i ∧ StopsAt (s.byte past) (t.byte past) i ∧
        strncmpWords past s t n u = .inl (number_sub (s.byte past) (t.byte past) i (some (u + (i - u) / 4 * 4))) := by
  induction n generalizing u with
  | zero => exact .inl ⟨hu, rfl⟩
  | succ n ih =>
    rw [strncmpWords, loadBel, loadBel, cmpWord_eq]
    by_cases hword : ∀ k, u ≤ k → k < u + 4 → s.byte past k = t.byte past k ∧ s.byte past k ≠ 0
    · have h₀ := hword u (by omega) (by omega)
      have h₁ := hword (u + 1) (by omega) (by omega)
      have h₂ := hword (u + 2) (by omega) (by omega)
      have h₃ := hword (u + 3) (by omega) (by omega)
      rw [if_pos ⟨by rw [h₀.1, h₁.1, h₂.1, h₃.1], h₀.2, h₁.2, h₂.2, h₃.2⟩]
      obtain ⟨hall, hgo⟩ | ⟨i, hi, hle, hstop, hval⟩ := ih (hu.extend hword)
      · have hend : u + 4 + 4 * n = u + 4 * (n + 1) := by omega
        exact .inl ⟨hend ▸ hall, by rw [hgo, hend]⟩
      · have hstart : u + 4 + (i - (u + 4)) / 4 * 4 = u + (i - u) / 4 * 4 := by omega
        exact .inr ⟨i, by omega, by omega, hstop, by rw [hval, hstart]⟩
    · obtain ⟨i, hle, hlt, hsame, hstop⟩ := exists_first_not hword
      obtain ⟨l, rfl⟩ := Nat.exists_eq_add_of_le hle
      have hstart : u + (u + l - u) / 4 * 4 = u := by omega
      refine .inr ⟨u + l, by omega, hle, ⟨hu.extend hsame, hstop⟩, ?_⟩
      rw [if_neg, hstart]
      · rfl
      · rintro ⟨heq, hne⟩
        obtain ⟨e₀, e₁, e₂, e₃⟩ := word_inj heq
        refine hword fun k hk hk' => ?_
        obtain ⟨l, rfl⟩ := Nat.exists_eq_add_of_le hk
        obtain rfl | rfl | rfl | rfl : l = 0 ∨ l = 1 ∨ l = 2 ∨ l = 3 := by omega
        · exact ⟨e₀, hne.1⟩
        · exact ⟨e₁, hne.2.1⟩
        · exact ⟨e₂, hne.2.2.1⟩
        · exact ⟨e₃, hne.2.2.2⟩

theorem toNat_char (a : BitVec 8) : (a.signExtend 32).toNat = if a.toNat < 128 then a.toNat else a.toNat + (2 ^ 32 - 2 ^ 8) := by
  have ha := a.isLt
  have hmsb : a.msb = true ↔ ¬ a.toNat < 128 := by
    rw [BitVec.msb_eq_decide, decide_eq_true_iff]
    omega
  rw [BitVec.toNat_signExtend, BitVec.toNat_setWidth, Nat.mod_eq_of_lt (Nat.lt_trans ha (by decide))]
  by_cases h : a.toNat < 128
  · rw [if_pos h, if_neg fun hneg => hmsb.mp hneg h, Nat.add_zero]
  · rw [if_neg h, if_pos (hmsb.mpr h)]

theorem char_inj {a b : BitVec 8} (h : a.signExtend 32 = b.signExtend 32) : a = b := by
  have hnat := congrArg BitVec.toNat h
  have ha := a.isLt
  have hb := b.isLt
  rw [toNat_char, toNat_char] at hnat
  refine BitVec.eq_of_toNat_eq ?_
  split at hnat <;> split at hnat <;> omega

theorem strncmpBytes_cases (n : ℕ) (hu : Alike (s.byte past) (t.byte past) u) :
    Alike (s.byte past) (t.byte past) (u + n) ∧ strncmpBytes past s t n u = .inr (u + n) ∨
      ∃ i < u + n, u ≤ i ∧ StopsAt (s.byte past) (t.byte past) i ∧
        strncmpBytes past s t n u = .inl (number_sub (s.byte past) (t.byte past) i none) := by
  induction n generalizing u with
  | zero => exact .inl ⟨hu, rfl⟩
  | succ n ih =>
    rw [strncmpBytes]
    split
    · next hc =>
      refine .inr ⟨u, by omega, Nat.le_refl _, ⟨hu, fun h => hc ?_⟩, rfl⟩
      rw [h.1, BitVec.sub_self]
      rfl
    · next hc =>
      have heq := char_inj (eq_of_sub_eq_zero (not_not.mp hc))
      split
      · next hzero =>
        refine .inr ⟨u, by omega, Nat.le_refl _, ⟨hu, fun h => h.2 hzero⟩, ?_⟩
        rw [number_sub, number, number, heq, BitVec.sub_self]
        rfl
      · next hne =>
        have hmore : Alike (s.byte past) (t.byte past) (u + 1) := hu.extend fun k hk hk' => by
          obtain rfl : k = u := by omega
          exact ⟨heq, hne⟩
        obtain ⟨hall, hgo⟩ | ⟨i, hi, hle, hstop, hval⟩ := ih hmore
        · exact .inl ⟨by rwa [Nat.add_comm n, ← Nat.add_assoc], by rw [hgo, Nat.add_comm n, ← Nat.add_assoc]⟩
        · exact .inr ⟨i, by omega, by omega, hstop, hval⟩

/-- **The loop of `strncmp`** stops where the strings differ or end. -/
theorem strncmpLoop_cases (hmax : max < 2 ^ 32) (hn : max - pos < n) (hpos : pos ≤ max)
    (hstart : pos = max ∨ segmentStart s t max pos = pos) (hu : Alike (s.byte past) (t.byte past) pos) :
    Alike (s.byte past) (t.byte past) max ∧ strncmpLoop past s t max n pos = some 0 ∨
      ∃ i < max, StopsAt (s.byte past) (t.byte past) i ∧
        strncmpLoop past s t max n pos = some (number_sub (s.byte past) (t.byte past) i (chunk s t max i)) := by
  induction n generalizing pos with
  | zero => omega
  | succ n ih =>
    rw [strncmpLoop]
    by_cases hlt : pos < max
    · have hstart : segmentStart s t max pos = pos := hstart.resolve_left (Nat.ne_of_lt hlt)
      obtain ⟨b, hb⟩ : ∃ b, b = unsignedOf (segment s t max pos) := ⟨_, rfl⟩
      have hsegment : Segment s t max pos b := hb ▸ segment_spec hmax hlt hstart
      have hne := hsegment.nonempty
      have hle := hsegment.le
      rw [if_pos hlt, ← hb]
      dsimp only
      obtain ⟨hwords, hgo⟩ | ⟨i, hi, hlow, hstop, hval⟩ := strncmpWords_cases (b / 4) hu
      · rw [hgo, Sum.elim_inr]
        obtain ⟨hbytes, hgo⟩ | ⟨i, hi, hlow, hstop, hval⟩ := strncmpBytes_cases (b % 4) hwords
        · have hend : pos + 4 * (b / 4) + b % 4 = pos + b := by omega
          rw [hgo, Sum.elim_inr, hend]
          exact ih (by omega) hle (hsegment.ends.imp id Boundary.start) (hend ▸ hbytes)
        · rw [hval, Sum.elim_inl]
          refine .inr ⟨i, by omega, hstop, ?_⟩
          rw [hsegment.chunk_eq hstart (by omega) (by omega), if_neg (by omega)]
      · rw [hval, Sum.elim_inl]
        refine .inr ⟨i, by omega, hstop, ?_⟩
        rw [hsegment.chunk_eq hstart hlow (by omega), if_pos hi]
    · obtain rfl : pos = max := Nat.le_antisymm hpos (Nat.le_of_not_lt hlt)
      exact .inl ⟨hu, if_neg hlt⟩

-- The numbers that are compared

theorem number_word (h : Alike f g i) (hle : u ≤ i) (hlt : i < u + 4) :
    (f i ≠ g i → ((number f g i (some u)).toNat < (number g f i (some u)).toNat ↔ (f i).toNat < (g i).toNat)) ∧
    (f i = g i → f i = 0 → number f g i (some u) = number g f i (some u)) := by
  have hnat : ∀ {a b : BitVec 8}, a = b ↔ a.toNat = b.toNat := fun {a b} => BitVec.toNat_inj.symm
  have hz : (0 : BitVec 8).toNat = 0 := rfl
  have hword : ∀ {x y : BitVec 32}, x.toNat = y.toNat → x = y := BitVec.eq_of_toNat_eq
  have hsame : ∀ k < i, (f k).toNat = (g k).toNat ∧ (f k).toNat ≠ 0 := by
    intro k hk
    obtain ⟨heq, hne⟩ := h k hk
    exact ⟨congrArg _ heq, fun hzero => hne (hnat.mpr hzero)⟩
  have e₀ := hsame u
  have e₁ := hsame (u + 1)
  have e₂ := hsame (u + 2)
  have hf₁ := (f (u + 1)).isLt
  have hf₂ := (f (u + 2)).isLt
  have hf₃ := (f (u + 3)).isLt
  have hg₁ := (g (u + 1)).isLt
  have hg₂ := (g (u + 2)).isLt
  have hg₃ := (g (u + 3)).isLt
  rw [number, number, counted_swap (f u) (f (u + 1)) (f (u + 2)), counted]
  simp only [hnat, hz, ne_eq]
  -- the cases are by the first byte that is zero in either word, which is not before the one at `i`
  by_cases h₀ : (f u).toNat = 0 ∨ (g u).toNat = 0
  · rw [if_pos h₀, if_pos h₀]
    obtain rfl : i = u := by omega
    refine ⟨fun hne => ?_, fun heq _ => hword ?_⟩ <;> rw [toNat_word, toNat_word] <;> omega
  rw [if_neg h₀, if_neg h₀]
  by_cases h₁ : (f (u + 1)).toNat = 0 ∨ (g (u + 1)).toNat = 0
  · rw [if_pos h₁, if_pos h₁]
    obtain rfl | rfl : i = u ∨ i = u + 1 := by omega
    all_goals refine ⟨fun hne => ?_, fun heq _ => hword ?_⟩ <;> rw [toNat_word, toNat_word] <;> omega
  rw [if_neg h₁, if_neg h₁]
  by_cases h₂ : (f (u + 2)).toNat = 0 ∨ (g (u + 2)).toNat = 0
  · rw [if_pos h₂, if_pos h₂]
    obtain rfl | rfl | rfl : i = u ∨ i = u + 1 ∨ i = u + 2 := by omega
    all_goals refine ⟨fun hne => ?_, fun heq _ => hword ?_⟩ <;> rw [toNat_word, toNat_word] <;> omega
  rw [if_neg h₂, if_neg h₂]
  obtain rfl | rfl | rfl | rfl : i = u ∨ i = u + 1 ∨ i = u + 2 ∨ i = u + 3 := by omega
  all_goals refine ⟨fun hne => ?_, fun heq _ => hword ?_⟩ <;> rw [toNat_word, toNat_word] <;> omega

theorem number_char (f g : ℕ → BitVec 8) (i : ℕ) :
    ((number f g i none).toNat < (number g f i none).toNat ↔ (f i).toNat < (g i).toNat) ∧
      ((f i).toNat ≠ (g i).toNat → (Near (number f g i none).toNat (number g f i none).toNat ↔ ((f i).toNat < 128 ↔ (g i).toNat < 128))) := by
  have hf := (f i).isLt
  have hg := (g i).isLt
  rw [number, number, toNat_char, toNat_char, Near]
  split <;> split <;> omega

theorem chunk_bounds (h : chunk s t max i = some u) : u ≤ i ∧ i < u + 4 := by
  have hstart := segmentStart_le s t max i
  rw [chunk] at h
  split at h
  · obtain rfl := Option.some.inj h
    rw [segmentWord]
    omega
  · cases h

theorem number_lt (h : Alike f g i) (hne : f i ≠ g i) (s t : CText) (max : ℕ) :
    (number f g i (chunk s t max i)).toNat < (number g f i (chunk s t max i)).toNat ↔ (f i).toNat < (g i).toNat := by
  cases hchunk : chunk s t max i with
  | none => exact (number_char f g i).1
  | some u => exact (number_word h (chunk_bounds hchunk).1 (chunk_bounds hchunk).2).1 hne

theorem number_sub_eq_zero (h : Alike f g i) (heq : f i = g i) (hzero : f i = 0) (s t : CText) (max : ℕ) :
    number_sub f g i (chunk s t max i) = 0 := by
  have hsame : number f g i (chunk s t max i) = number g f i (chunk s t max i) := by
    cases hchunk : chunk s t max i with
    | none => exact congrArg (BitVec.signExtend 32) heq
    | some u => exact (number_word h (chunk_bounds hchunk).1 (chunk_bounds hchunk).2).2 heq hzero
  rw [number_sub, hsame, BitVec.sub_self]
  rfl

-- Texts

theorem Alike.symm (h : Alike f g i) : Alike g f i := fun k hk => ⟨(h k hk).1.symm, (h k hk).1 ▸ (h k hk).2⟩

theorem Alike.le_length (h : Alike (s.byte past) g i) : i ≤ s.length := by
  by_contra hlt
  exact (h s.length (Nat.lt_of_not_le hlt)).2 byte_length

theorem byte_of_le (h : i ≤ s.length) : (s.byte past i).toNat = pad s.text i := by
  obtain hlt | rfl := Nat.lt_or_eq_of_le h
  · exact (byte_of_lt hlt).1
  · rw [byte_length, CText.length, pad_of_le (Nat.le_refl _)]
    rfl

theorem Alike.pads (h : Alike (s.byte past) (t.byte past) i) (hk : k < i) : pad s.text k = pad t.text k := by
  have hle := Nat.le_of_lt (Nat.lt_of_lt_of_le hk h.le_length)
  have hle' := Nat.le_of_lt (Nat.lt_of_lt_of_le hk h.symm.le_length)
  rw [← @byte_of_le s k past hle, ← @byte_of_le t k past hle', (h k hk).1]

theorem pad_take {u : List UInt8} (h : k < n) : pad (u.take n) k = pad u k := by
  rw [pad, pad, List.getElem?_take_of_lt h]

def Told (f g : ℕ → BitVec 8) (i : ℕ) : Option ℕ → Prop
  | some u => Near (number f g i (some u)).toNat (number g f i (some u)).toNat
  | none => (f i).toNat < 128 ↔ (g i).toNat < 128

def StringsNear (past : ℕ → UInt8) (s t : CText) (max : ℕ) : Prop :=
  ∀ i < max, (∀ k < i, pad s.text k = pad t.text k) → pad s.text i ≠ pad t.text i →
    Told (s.byte past) (t.byte past) i (chunk s t max i)

theorem told_iff (hne : (f i).toNat ≠ (g i).toNat) : Told f g i w ↔ Near (number f g i w).toNat (number g f i w).toNat := by
  cases w with
  | none => exact ((number_char f g i).2 hne).symm
  | some u => rfl

theorem take_eq (h : ∀ k < max, pad s.text k = pad t.text k) : s.text.take max = t.text.take max := by
  refine eq_of_pad (fun hmem => s.nonul (List.mem_of_mem_take hmem)) (fun hmem => t.nonul (List.mem_of_mem_take hmem)) fun k _ => ?_
  by_cases hk : k < max
  · rw [pad_take hk, pad_take hk, h k hk]
  · have hpast : ∀ u : List UInt8, (u.take max).length ≤ k := fun u => by
      rw [List.length_take]
      omega
    rw [pad_of_le (hpast _), pad_of_le (hpast _)]

theorem ordered_of_same (past : ℕ → UInt8) (h : ∀ k < max, pad s.text k = pad t.text k) {r : Option (BitVec 32)} (hr : r = some 0) :
    (∃ c, r = some c ∧ Ordered c (s.text.take max) (t.text.take max)) ↔ StringsNear past s t max := by
  refine iff_of_true ⟨0, hr, ?_⟩ fun i hi _ hne => absurd (h i hi) hne
  rw [take_eq h]
  exact ordered_self _

theorem StopsAt.same (h : StopsAt (s.byte past) (t.byte past) i) (heq : s.byte past i = t.byte past i) :
    s.byte past i = 0 ∧ ∀ k, pad s.text k = pad t.text k := by
  have hzero : s.byte past i = 0 := by
    by_contra hne
    exact h.stops ⟨heq, hne⟩
  have hs : s.text.length ≤ i := Nat.le_of_not_lt fun hlt => (byte_of_lt hlt).2 hzero
  have ht : t.text.length ≤ i := Nat.le_of_not_lt fun hlt => (byte_of_lt hlt).2 (heq.symm.trans hzero)
  refine ⟨hzero, fun k => ?_⟩
  by_cases hk : k < i
  · exact h.alike.pads hk
  · rw [pad_of_le (by omega), pad_of_le (by omega)]

theorem StopsAt.ordered (h : StopsAt (s.byte past) (t.byte past) i) (hne : s.byte past i ≠ t.byte past i) (hi : i < max) :
    Ordered (number_sub (s.byte past) (t.byte past) i (chunk s t max i)) (s.text.take max) (t.text.take max) ↔
      Told (s.byte past) (t.byte past) i (chunk s t max i) := by
  have hs := @byte_of_le s i past h.alike.le_length
  have ht := @byte_of_le t i past h.alike.symm.le_length
  have hpad : pad s.text i ≠ pad t.text i := fun heq => hne (BitVec.eq_of_toNat_eq (by rw [hs, ht, heq]))
  rw [told_iff (by rwa [hs, ht]), number_sub]
  refine @ordered_iff_of_first _ _ _ _ i (fun k hk => ?_) ?_ ?_ ?_
  · rw [pad_take (Nat.lt_trans hk hi), pad_take (Nat.lt_trans hk hi), h.alike.pads hk]
  · rwa [pad_take hi, pad_take hi]
  · rw [pad_take hi, pad_take hi, number_lt h.alike hne, hs, ht]
  · rw [pad_take hi, pad_take hi, number_lt h.alike.symm hne.symm, hs, ht]

/-- **The sign of `strncmp`**. -/
theorem strncmp_ordered_iff (past : ℕ → UInt8) (s t : CText) (hmax : max < 2 ^ 32) :
    (∃ c, strncmp past s t max = some c ∧ Ordered c (s.text.take max) (t.text.take max)) ↔ StringsNear past s t max := by
  rw [strncmp]
  by_cases heq : s = t
  · rw [if_pos heq]
    exact ordered_of_same past (fun k _ => by rw [heq]) rfl
  rw [if_neg heq]
  obtain ⟨halike, hval⟩ | ⟨i, hi, hstop, hval⟩ :=
    @strncmpLoop_cases s t max 0 (max + 1) past hmax (by omega) (Nat.zero_le _) (.inr rfl) (by rintro _ ⟨⟩)
  · exact ordered_of_same past (fun k hk => halike.pads hk) hval
  · by_cases hsame : s.byte past i = t.byte past i
    · obtain ⟨hzero, hpads⟩ := hstop.same hsame
      refine ordered_of_same past (fun k _ => hpads k) ?_
      rw [hval, number_sub_eq_zero hstop.alike hsame hzero]
    · have hpad : pad s.text i ≠ pad t.text i := by
        rw [← @byte_of_le s i past hstop.alike.le_length, ← @byte_of_le t i past hstop.alike.symm.le_length]
        exact fun h => hsame (BitVec.eq_of_toNat_eq h)
      have hordered := hstop.ordered hsame hi
      rw [hval]
      constructor
      · rintro ⟨c, hc, hc'⟩ j hj hsame' hne'
        obtain rfl : j = i := by
          obtain hlt | he | hlt := Nat.lt_trichotomy j i
          · exact absurd (hstop.alike.pads hlt) hne'
          · exact he
          · exact absurd (hsame' i hlt) hpad
        exact hordered.mp (Option.some.inj hc ▸ hc')
      · exact fun hnear => ⟨_, rfl, hordered.mpr (hnear i hi (fun k hk => hstop.alike.pads hk) hpad)⟩

/-- **The order of bytes**: the sign of `memcmp`, `strncmp` and `strcmp` is that of the first bytes that differ just
where what is compared there is told apart. -/
theorem comparison_sign_iff (m : Memory) (s₁ s₂ n : ℕ) (past : ℕ → UInt8) (s t : CText) (hmax : max < 2 ^ 32)
    (hs : s.length < 2 ^ 32) (ht : t.length < 2 ^ 32) :
    (Ordered (memcmp m s₁ s₂ n) (m.load s₁ n) (m.load s₂ n) ↔ WordsNear (bytesAt m s₁) (bytesAt m s₂) n) ∧
    ((∃ c, strncmp past s t max = some c ∧ Ordered c (s.text.take max) (t.text.take max)) ↔ StringsNear past s t max) ∧
    ((∃ c, strcmp past s t = some c ∧ Ordered c s.text t.text) ↔ StringsNear past s t 0xffffffff) := by
  have hall : ∀ u : CText, u.length < 2 ^ 32 → u.text.take 0xffffffff = u.text := fun u hu =>
    List.take_of_length_le (Nat.le_of_lt_succ hu)
  refine ⟨memcmp_ordered_iff m s₁ s₂ n, strncmp_ordered_iff past s t hmax, ?_⟩
  have hstrcmp := @strncmp_ordered_iff 0xffffffff past s t (by decide)
  rwa [hall s hs, hall t ht] at hstrcmp

def beforePage : CText := ⟨0xffe, [0x61, 0x62], by decide⟩

def afterPage : CText := ⟨0x1000, [0x61, 0x63], by decide⟩

theorem comparison_sign_page : 2 < 2 ^ 32 ∧ beforePage.length < 2 ^ 32 ∧ afterPage.length < 2 ^ 32 ∧
    ∃ c, strncmp (fun _ => 0) beforePage afterPage 2 = some c ∧ Ordered c (beforePage.text.take 2) (afterPage.text.take 2) := by
  refine ⟨by decide, by decide, by decide,
    (comparison_sign_iff (fun _ => 0) 0 0 0 _ beforePage afterPage (by decide) (by decide) (by decide)).2.1.mpr ?_⟩
  intro i hi hsame hne
  obtain rfl | rfl : i = 0 ∨ i = 1 := by omega
  · exact absurd (by decide) hne
  · exact (by decide : (beforePage.byte (fun _ => 0) 1).toNat < 128 ↔ (afterPage.byte (fun _ => 0) 1).toNat < 128)

def topBit : Memory := fun a => if a = 0 then 0x80 else 0

/-- A byte of 0x80 is said to be less than one of 0, and than one of 1 at the end of a page. -/
theorem comparison_sign_wrong : ¬ Ordered (memcmp topBit 0 4 4) (topBit.load 0 4) (topBit.load 4 4) ∧
      ¬ ∃ c, strncmp (fun _ => 0) ⟨0xfff, [0x80], by decide⟩ ⟨0x2000, [1], by decide⟩ 1 = some c ∧ Ordered c [0x80] [1] := by
  have hmem : (memcmp topBit 0 4 4).toInt < 0 := by decide +kernel
  have hstr : strncmp (fun _ => 0) ⟨0xfff, [0x80], by decide⟩ ⟨0x2000, [1], by decide⟩ 1 = some (-129) := by decide +kernel
  constructor
  · intro h
    exact absurd (h.1.mp hmem) (by decide)
  · rintro ⟨c, hc, h⟩
    obtain rfl := Option.some.inj (hstr.symm.trans hc)
    exact absurd (h.1.mp (by decide)) (by decide)

end Sneks.Stdlib
