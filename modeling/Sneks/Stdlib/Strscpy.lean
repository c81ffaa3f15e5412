import Mathlib.Data.UInt

/-!
# Copying a string into a buffer: `lib/strscpy.c`

`strscpy` copies bytes up to a word boundary of the source and whole words from there on. A
`long` has four bytes. What it writes is told by how far from the start of the buffer it gets.
-/

namespace Sneks.Stdlib

structure CText where
  addr : ℕ
  text : List UInt8
  nonul : 0 ∉ text
  deriving DecidableEq

def CText.length (s : CText) : ℕ := s.text.length

/-- The loop of `strscpy` over bytes, up to a word boundary. -/
def strscpyHead (s : CText) (sz : ℕ) : ℕ → ℕ → ℕ
  | 0, pos => pos
  | n + 1, pos =>
    if pos < sz ∧ (s.addr + pos) % 4 ≠ 0 ∧ pos < s.length then strscpyHead s sz n (pos + 1) else pos

/-- `min_t(int, room, left)` as a `size_t`: from `2 ^ 31` on the room is negative, and so the lesser. -/
def minInt (room left : ℕ) : ℕ := if room < 2 ^ 31 then min room left else room

/-- The loop of `strscpy` over words: the position after it, and the end of what is written. -/
def strscpyWords (s : CText) (sz : ℕ) : ℕ → ℕ → ℕ × ℕ
  | 0, pos => (pos, pos)
  | n + 1, pos =>
    if pos < sz then
      if pos + 4 ≤ s.length then strscpyWords s sz n (pos + 4)
      else
        let tail := minInt (sz - pos) (s.length - pos)
        (pos + tail, pos + (tail + 1) % 2 ^ 32)
    else (pos, pos)

/-- `strscpy`: the bytes copied, or `-E2BIG`, and the end of what is written. -/
def strscpy (s : CText) (sz : ℕ) : Option (List UInt8) × ℕ :=
  let (pos, reach) := strscpyWords s sz sz (strscpyHead s sz sz 0)
  let reach := if sz ≤ pos ∧ 0 < sz then max reach sz else reach
  (if pos < sz then some (s.text.take pos) else none, reach)

variable {s : CText} {sz n pos : ℕ}

def CText.head (s : CText) : ℕ := (4 - s.addr % 4) % 4

theorem strscpyHead_spec (hpos : pos ≤ min (min s.length sz) s.head) (hn : sz ≤ pos + n) :
    strscpyHead s sz n pos = min (min s.length sz) s.head := by
  induction n generalizing pos with
  | zero =>
    rw [strscpyHead]
    omega
  | succ n ih =>
    rw [strscpyHead]
    split
    · next hgo =>
      refine ih ?_ (by omega)
      rw [CText.head] at hpos ⊢
      omega
    · next hstop =>
      rw [CText.head] at hpos ⊢
      omega

theorem strscpyWords_stop (h : sz ≤ pos) : strscpyWords s sz n pos = (pos, pos) := by
  cases n with
  | zero => rfl
  | succ n => rw [strscpyWords, if_neg (Nat.not_lt.mpr h)]

theorem strscpyWords_fits (hlt : s.length < sz) (hsmall : sz - (pos + (s.length - pos) / 4 * 4) < 2 ^ 31)
    (hpos : pos ≤ s.length) (hn : sz ≤ pos + n) : strscpyWords s sz n pos = (s.length, s.length + 1) := by
  induction n generalizing pos with
  | zero => omega
  | succ n ih =>
    rw [strscpyWords, if_pos (by omega)]
    split
    · next hword => exact ih (by omega) hword (by omega)
    · have hroom : sz - pos < 2 ^ 31 := by omega
      have htail : min (sz - pos) (s.length - pos) = s.length - pos := by omega
      have hcount : (s.length - pos + 1) % 2 ^ 32 = s.length - pos + 1 := by omega
      dsimp only
      rw [minInt, if_pos hroom, htail, hcount]
      congr 1 <;> omega

theorem strscpyWords_far (hlt : s.length < sz) (hfar : 2 ^ 31 ≤ sz - (pos + (s.length - pos) / 4 * 4))
    (hpos : pos ≤ s.length) (hn : sz ≤ pos + n) : (strscpyWords s sz n pos).1 = sz := by
  induction n generalizing pos with
  | zero => omega
  | succ n ih =>
    rw [strscpyWords, if_pos (by omega)]
    split
    · next hword => exact ih (by omega) hword (by omega)
    · have hroom : ¬ sz - pos < 2 ^ 31 := by omega
      dsimp only
      rw [minInt, if_neg hroom]
      omega

theorem strscpyWords_cut (hle : sz ≤ s.length) (hpos : pos ≤ sz) (hn : sz ≤ pos + n) :
    sz ≤ (strscpyWords s sz n pos).1 ∧ ((strscpyWords s sz n pos).2 ≤ sz ↔ (sz - pos) % 4 = 0) ∧
      (strscpyWords s sz n pos).2 ≤ sz + 3 := by
  induction n generalizing pos with
  | zero =>
    rw [strscpyWords]
    dsimp only
    omega
  | succ n ih =>
    rw [strscpyWords]
    split
    · next hgo =>
      split
      · next hword =>
        by_cases hin : pos + 4 ≤ sz
        · obtain ⟨hlast, hreach, hnear⟩ := ih hin (by omega)
          refine ⟨hlast, hreach.trans ?_, hnear⟩
          omega
        · rw [strscpyWords_stop (by omega)]
          dsimp only
          omega
      · next hword =>
        have hroom : sz - pos < 2 ^ 31 := by omega
        have hcount : (min (sz - pos) (s.length - pos) + 1) % 2 ^ 32 = min (sz - pos) (s.length - pos) + 1 := by omega
        dsimp only
        rw [minInt, if_pos hroom, hcount]
        omega
    · next hstop =>
      dsimp only
      omega

theorem strscpyWords_reach (hle : sz ≤ s.length) : (strscpyWords s sz n pos).1 ≤ (strscpyWords s sz n pos).2 := by
  induction n generalizing pos with
  | zero => exact Nat.le_refl pos
  | succ n ih =>
    rw [strscpyWords]
    split
    · split
      · exact ih
      · have hroom : sz - pos < 2 ^ 31 := by omega
        dsimp only
        rw [minInt, if_pos hroom]
        omega
    · exact Nat.le_refl pos

theorem strscpyHead_eq : strscpyHead s sz sz 0 = min (min s.length sz) s.head :=
  strscpyHead_spec (Nat.zero_le _) (by omega)

theorem strscpyHead_le (s : CText) (sz : ℕ) : strscpyHead s sz sz 0 ≤ sz := by
  rw [strscpyHead_eq]
  omega

def CText.lastWord (s : CText) : ℕ := min s.length s.head + (s.length - min s.length s.head) / 4 * 4

theorem strscpyHead_of_lt (h : s.length < sz) : strscpyHead s sz sz 0 = min s.length s.head := by
  rw [strscpyHead_eq]
  omega

theorem strscpy_fits (h : s.length < sz) (hsmall : sz - s.lastWord < 2 ^ 31) : strscpy s sz = (some s.text, s.length + 1) := by
  have hhead := strscpyHead_of_lt h
  have hwords := @strscpyWords_fits s sz _ (min s.length s.head) h hsmall (Nat.min_le_left _ _) (Nat.le_add_left sz _)
  rw [strscpy, hhead, hwords]
  dsimp only
  rw [if_pos h, if_neg (by omega), CText.length, List.take_length]

theorem strscpy_far (h : s.length < sz) (hfar : 2 ^ 31 ≤ sz - s.lastWord) :
    (strscpy s sz).1 = none ∧ sz ≤ (strscpy s sz).2 := by
  have hhead := strscpyHead_of_lt h
  have hwords := @strscpyWords_far s sz _ (min s.length s.head) h hfar (Nat.min_le_left _ _) (Nat.le_add_left sz _)
  rw [strscpy, hhead]
  dsimp only
  rw [hwords, if_neg (Nat.lt_irrefl _), if_pos ⟨Nat.le_refl _, by omega⟩]
  exact ⟨rfl, Nat.le_max_right _ _⟩

theorem strscpy_cut (h : sz ≤ s.length) : (strscpy s sz).1 = none := by
  have hcut := strscpyWords_cut h (strscpyHead_le s sz) (Nat.le_add_left sz _)
  rw [strscpy]
  exact if_neg (Nat.not_lt.mpr hcut.1)

theorem strscpy_reach (h : sz ≤ s.length) : (strscpy s sz).2 ≤ sz ↔ (sz - s.head) % 4 = 0 := by
  obtain ⟨hpos, hreach, -⟩ := strscpyWords_cut h (strscpyHead_le s sz) (Nat.le_add_left sz _)
  have hmod : (sz - min (min s.length sz) s.head) % 4 = 0 ↔ (sz - s.head) % 4 = 0 := by omega
  rw [strscpyHead_eq, hmod] at hreach
  rw [← hreach, strscpy, strscpyHead_eq]
  rw [strscpyHead_eq] at hpos
  dsimp only
  split
  · omega
  · rfl

theorem strscpy_cut_near (h : sz ≤ s.length) : sz ≤ (strscpy s sz).2 ∧ (strscpy s sz).2 ≤ sz + 3 := by
  obtain ⟨hcut, -, hnear⟩ := strscpyWords_cut h (strscpyHead_le s sz) (Nat.le_add_left sz _)
  rw [strscpy]
  dsimp only
  split
  · omega
  · omega

end Sneks.Stdlib
