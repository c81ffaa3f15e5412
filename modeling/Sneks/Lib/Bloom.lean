import Mathlib.Data.Multiset.AddSub
import Mathlib.Data.Multiset.MapFold
import Mathlib.Algebra.BigOperators.Group.Multiset.Basic
import Mathlib.Tactic.Ring

/-!
# Counting Bloom filters with sticky counters

A counter goes up to `cap` and stays there: once it is full it no longer tells how much was
counted, and is not counted down. A key is added by counting up each of its slots, which may
coincide, and removed by counting them down. No key that is in is ever reported missing.

Counters are packed as the digits of a word.
-/

namespace Sneks.Lib

section Digits

variable {b i j n : ℕ}

def digit (b i n : ℕ) : ℕ := n / b ^ i % b

theorem digit_add_pow_self (h : digit b i n + 1 < b) : digit b i (n + b ^ i) = digit b i n + 1 := by
  have hpos : 0 < b ^ i := Nat.pow_pos (by omega)
  rw [digit, Nat.add_div_right _ hpos, ← Nat.mod_add_mod]
  exact Nat.mod_eq_of_lt h

theorem digit_add_pow_of_ne (h : digit b i n + 1 < b) (hij : i ≠ j) :
    digit b j (n + b ^ i) = digit b j n := by
  have hpos : 0 < b := by omega
  rcases Nat.lt_or_gt_of_ne hij with hlt | hlt
  · -- there is no carry out of digit `i`
    obtain ⟨k, rfl⟩ : ∃ k, j = i + 1 + k := ⟨j - (i + 1), by omega⟩
    have hcarry : (n + b ^ i) / b ^ (i + 1) = n / b ^ (i + 1) := by
      rw [Nat.pow_succ, ← Nat.div_div_eq_div_mul, ← Nat.div_div_eq_div_mul,
        Nat.add_div_right _ (Nat.pow_pos hpos)]
      have hsplit := Nat.div_add_mod (n / b ^ i) b
      nth_rewrite 1 [← hsplit]
      rw [Nat.add_assoc, Nat.mul_add_div hpos, Nat.div_eq_of_lt (show n / b ^ i % b + 1 < b from h),
        Nat.add_zero]
    rw [digit, digit, Nat.pow_add, ← Nat.div_div_eq_div_mul, ← Nat.div_div_eq_div_mul, hcarry]
  · obtain ⟨k, rfl⟩ : ∃ k, i = j + 1 + k := ⟨i - (j + 1), by omega⟩
    have hpow : b ^ (j + 1 + k) = b ^ j * (b * b ^ k) := by ring
    rw [digit, digit, hpow, Nat.add_mul_div_left _ _ (Nat.pow_pos hpos), Nat.add_mul_mod_self_left]

theorem le_of_digit_pos (h : 0 < digit b i n) : b ^ i ≤ n := by
  by_contra hlt
  rw [digit, Nat.div_eq_of_lt (Nat.lt_of_not_le hlt), Nat.zero_mod] at h
  exact Nat.lt_irrefl 0 h

theorem digit_sub_pow_self (h : 0 < digit b i n) (hb : 1 < b) :
    digit b i (n - b ^ i) + 1 = digit b i n := by
  have hpos : 0 < b ^ i := Nat.pow_pos (by omega)
  obtain ⟨m, rfl⟩ : ∃ m, n = m + b ^ i := ⟨n - b ^ i, by have := le_of_digit_pos h; omega⟩
  rw [Nat.add_sub_cancel]
  simp only [digit, Nat.add_div_right _ hpos] at h ⊢
  rw [Nat.add_mod_eq_ite, Nat.mod_eq_of_lt hb] at h ⊢
  have hlt := Nat.mod_lt (m / b ^ i) (by omega : 0 < b)
  split at h
  · omega
  · next hno => rw [if_neg hno]

theorem digit_sub_pow_of_ne (h : 0 < digit b i n) (hb : 1 < b) (hij : i ≠ j) :
    digit b j (n - b ^ i) = digit b j n := by
  have hself := digit_sub_pow_self h hb
  have hlt : digit b i n < b := Nat.mod_lt _ (by omega)
  have hle := le_of_digit_pos h
  rw [← digit_add_pow_of_ne (by omega) hij, Nat.sub_add_cancel hle]

end Digits

section Counter

variable {cap c n : ℕ}

def stickyInc (cap c : ℕ) : ℕ := if c < cap then c + 1 else c

def stickyDec (cap c : ℕ) : ℕ := if 0 < c ∧ c < cap then c - 1 else c

def Tracks (cap c n : ℕ) : Prop := c = cap ∨ c = n ∧ n < cap

theorem Tracks.inc (h : Tracks cap c n) : Tracks cap (stickyInc cap c) (n + 1) := by
  simp only [Tracks, stickyInc] at *
  split <;> omega

theorem Tracks.dec (h : Tracks cap c (n + 1)) : Tracks cap (stickyDec cap c) n := by
  simp only [Tracks, stickyDec] at *
  split <;> omega

theorem Tracks.pos (hcap : 0 < cap) (h : Tracks cap c n) (hn : 0 < n) : 0 < c := by
  simp only [Tracks] at h
  omega

end Counter

structure StickyCounters (φ ι : Type*) [DecidableEq ι] (cap : ℕ) where
  read : φ → ι → ℕ
  inc : φ → ι → φ
  dec : φ → ι → φ
  read_inc : ∀ f i j, read (inc f i) j = if j = i then stickyInc cap (read f i) else read f j
  read_dec : ∀ f i j, read (dec f i) j = if j = i then stickyDec cap (read f i) else read f j

section Bloom

variable {φ ι κ : Type*} [DecidableEq ι] {cap : ℕ} (C : StickyCounters φ ι cap) (slots : κ → List ι)

namespace StickyCounters

def add (f : φ) (k : κ) : φ := (slots k).foldl C.inc f

def remove (f : φ) (k : κ) : φ := (slots k).foldl C.dec f

def query (f : φ) (k : κ) : Bool := (slots k).all fun i => 0 < C.read f i

end StickyCounters

def load (L : Multiset κ) (i : ι) : ℕ := (L.map fun k => (slots k).count i).sum

def Counts (f : φ) (L : Multiset κ) : Prop := ∀ i, Tracks cap (C.read f i) (load slots L i)

variable {C slots} {f : φ} {L : Multiset κ} {k : κ}

theorem load_cons (i : ι) : load slots (k ::ₘ L) i = (slots k).count i + load slots L i := by
  rw [load, Multiset.map_cons, Multiset.sum_cons, load]

theorem tracks_foldl_inc {l : List ι} {i : ι} {n : ℕ} (h : Tracks cap (C.read f i) n) :
    Tracks cap (C.read (l.foldl C.inc f) i) (l.count i + n) := by
  induction l generalizing f n with
  | nil => simpa using h
  | cons x l ih =>
    rw [List.foldl_cons, List.count_cons]
    by_cases hx : x = i
    · subst hx
      have hinc : Tracks cap (C.read (C.inc f x) x) (n + 1) := by
        rw [C.read_inc, if_pos rfl]
        exact h.inc
      have := ih hinc
      rwa [beq_self_eq_true, if_pos rfl, Nat.add_assoc, Nat.add_comm 1]
    · have hinc : Tracks cap (C.read (C.inc f x) i) n := by
        rw [C.read_inc, if_neg (Ne.symm hx)]
        exact h
      have := ih hinc
      rwa [if_neg (by simpa using hx), Nat.add_zero]

theorem tracks_foldl_dec {l : List ι} {i : ι} {n : ℕ} (h : Tracks cap (C.read f i) (l.count i + n)) :
    Tracks cap (C.read (l.foldl C.dec f) i) n := by
  induction l generalizing f with
  | nil => simpa using h
  | cons x l ih =>
    rw [List.foldl_cons]
    rw [List.count_cons] at h
    refine ih ?_
    by_cases hx : x = i
    · subst hx
      rw [C.read_dec, if_pos rfl]
      refine Tracks.dec ?_
      rwa [beq_self_eq_true, if_pos rfl, Nat.add_right_comm] at h
    · rw [C.read_dec, if_neg (Ne.symm hx)]
      rwa [if_neg (by simpa using hx), Nat.add_zero] at h

theorem Counts.add (h : Counts C slots f L) : Counts C slots (C.add slots f k) (k ::ₘ L) := by
  intro i
  rw [load_cons]
  exact tracks_foldl_inc (h i)

theorem Counts.remove (h : Counts C slots f (k ::ₘ L)) : Counts C slots (C.remove slots f k) L := by
  intro i
  have hi := h i
  rw [load_cons] at hi
  exact tracks_foldl_dec hi

/-- **No false negatives**: a key that is in passes. -/
theorem Counts.query (hcap : 0 < cap) (h : Counts C slots f L) (hk : k ∈ L) : C.query slots f k = true := by
  rw [StickyCounters.query, List.all_eq_true]
  intro i hi
  obtain ⟨L', rfl⟩ := Multiset.exists_cons_of_mem hk
  have hpos : 0 < load slots (k ::ₘ L') i := by
    rw [load_cons]
    exact Nat.add_pos_left (List.count_pos_iff.mpr hi) _
  exact decide_eq_true ((h i).pos hcap hpos)

end Bloom

end Sneks.Lib
