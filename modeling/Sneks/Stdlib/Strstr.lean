import Mathlib.Data.List.GetD
import Sneks.Lib.Scan

/-!
# Looking for a string: `strstr` in `lib/string.c`

A first pass compares the needle with the start of the haystack. From there on the search goes to where
`strchr` finds the needle's first letter next. Memory is what can be read of it: a read anywhere else
does not return.
-/

namespace Sneks.Stdlib
open Lib

abbrev Readable := ℕ → Option UInt8

/-- The loop of `strstr` over the needle, for at most `n` turns: `n_len` and `diff`, or `none` where the
haystack ends first. -/
def prefixPass (m : Readable) (haystack needle : ℕ) : ℕ → ℕ → BitVec 32 → Option (Option (ℕ × BitVec 32))
  | 0, _, _ => none
  | n + 1, nLen, diff => do
    let b ← m (needle + nLen)
    if b = 0 then return some (nLen, diff)
    let a ← m (haystack + nLen)
    if a = 0 then return none
    prefixPass m haystack needle n (nLen + 1) (diff ||| b.toBitVec.signExtend 32 ^^^ a.toBitVec.signExtend 32)

inductive Outcome where
  | found
  | differs
  | ended
deriving DecidableEq

/-- The comparison of the `k` bytes from `i` on. -/
def compare (m : Readable) (haystack needle : ℕ) : ℕ → ℕ → Option Outcome
  | 0, _ => some .found
  | k + 1, i => do
    let a ← m (haystack + i)
    let b ← m (needle + i)
    if a ≠ b then return if a = 0 then .ended else .differs
    compare m haystack needle k (i + 1)

/-- The loop of `strstr` over the haystack, for at most `n` turns. -/
def search (m : Readable) (strchr : ℕ → UInt8 → Option (Option ℕ)) (needle nLen : ℕ) : ℕ → ℕ → Option (Option ℕ)
  | 0, _ => none
  | n + 1, haystack => do
    match ← compare m haystack needle nLen 0 with
    | .found => return some haystack
    | .ended => return none
    | .differs =>
      match ← strchr (haystack + 1) (← m needle) with
      | none => return none
      | some next => search m strchr needle nLen n next

def strstr (m : Readable) (strchr : ℕ → UInt8 → Option (Option ℕ)) (haystack needle n : ℕ) : Option (Option ℕ) := do
  if (← m needle) = 0 then return some haystack
  match ← prefixPass m haystack needle n 0 0 with
  | none => return none
  | some (nLen, diff) => if diff = 0 then return some haystack else search m strchr needle nLen n haystack

variable {m : Readable} {strchr : ℕ → UInt8 → Option (Option ℕ)} {a haystack needle n i : ℕ} {x : UInt8} {t u : List UInt8}

structure StringAt (m : Readable) (a : ℕ) (t : List UInt8) : Prop where
  bytes : ∀ i ≤ t.length, m (a + i) = some (t.getD i 0)
  nonul : 0 ∉ t

def FindsFirst (m : Readable) (strchr : ℕ → UInt8 → Option (Option ℕ)) : Prop :=
  ∀ a t c, StringAt m a t → c ≠ 0 → strchr a c = some ((first (fun i => t.getD i 0 == c) 0 t.length).map (a + ·))

theorem StringAt.head (h : StringAt m a t) : m a = some (t.getD 0 0) := h.bytes 0 (Nat.zero_le _)

theorem StringAt.tail (h : StringAt m a (x :: t)) : StringAt m (a + 1) t where
  bytes i hi := by
    rw [Nat.add_assoc, Nat.add_comm 1 i, h.bytes (i + 1) (Nat.succ_le_succ hi), List.getD_cons_succ]
  nonul hmem := h.nonul (List.mem_cons_of_mem x hmem)

theorem StringAt.ne_zero (h : StringAt m a (x :: t)) : x ≠ 0 := fun heq => h.nonul (heq ▸ List.mem_cons_self)

theorem StringAt.drop (h : StringAt m a t) (hi : i ≤ t.length) : StringAt m (a + i) (t.drop i) := by
  induction i generalizing a t with
  | zero => exact h
  | succ i ih =>
    cases t with
    | nil => exact absurd hi (by simp)
    | cons x t =>
      have hsum : a + (i + 1) = a + 1 + i := Nat.add_right_comm a i 1
      rw [List.drop_succ_cons, hsum]
      exact ih h.tail (Nat.le_of_succ_le_succ hi)

theorem diff_eq_zero_iff {d : BitVec 32} {x y : UInt8} :
    d ||| x.toBitVec.signExtend 32 ^^^ y.toBitVec.signExtend 32 = 0 ↔ d = 0 ∧ x = y := by
  have hback : ∀ b : BitVec 8, (b.signExtend 32).setWidth 8 = b := by decide
  refine BitVec.or_eq_zero_iff.trans (and_congr Iff.rfl (BitVec.xor_eq_zero_iff.trans ⟨fun h => ?_, fun h => by rw [h]⟩))
  exact UInt8.toBitVec_inj.mp ((hback _).symm.trans ((congrArg (BitVec.setWidth 8) h).trans (hback _)))

theorem prefixPass_spec (ht : StringAt m (haystack + i) t) (hu : StringAt m (needle + i) u) (hn : u.length < n) (diff : BitVec 32) :
    (t.length < u.length ∧ prefixPass m haystack needle n i diff = some none) ∨
      ∃ d, prefixPass m haystack needle n i diff = some (some (i + u.length, d)) ∧ (d = 0 ↔ diff = 0 ∧ u <+: t) := by
  induction u generalizing i n t diff with
  | nil =>
    obtain ⟨n, rfl⟩ := Nat.exists_eq_succ_of_ne_zero (Nat.ne_of_gt hn)
    refine .inr ⟨diff, ?_, by simp⟩
    rw [prefixPass, hu.head]
    rfl
  | cons y u ih =>
    obtain ⟨n, rfl⟩ := Nat.exists_eq_succ_of_ne_zero (Nat.ne_of_gt (Nat.zero_lt_of_lt hn))
    have hread : prefixPass m haystack needle (n + 1) i diff =
        if t.getD 0 0 = 0 then some none else prefixPass m haystack needle n (i + 1) 
          (diff ||| y.toBitVec.signExtend 32 ^^^ (t.getD 0 0).toBitVec.signExtend 32) := by
      rw [prefixPass, hu.head, ht.head]
      exact if_neg hu.ne_zero
    rw [hread]
    cases t with
    | nil => exact .inl ⟨Nat.succ_pos _, rfl⟩
    | cons x t =>
      rw [List.getD_cons_zero, if_neg ht.ne_zero]
      obtain ⟨hlt, hpass⟩ | ⟨d, hpass, hd⟩ := ih (i := i + 1) ht.tail hu.tail (Nat.lt_of_succ_lt_succ hn) (diff ||| y.toBitVec.signExtend 32 ^^^ x.toBitVec.signExtend 32)
      · exact .inl ⟨Nat.succ_lt_succ hlt, hpass⟩
      · refine .inr ⟨d, by rw [hpass, List.length_cons]; congr 3; omega, ?_⟩
        rw [hd, List.cons_prefix_cons, diff_eq_zero_iff, and_assoc]

def Outcome.Says (t u : List UInt8) : Outcome → Prop
  | found => u <+: t
  | differs => ¬ u <+: t ∧ t ≠ []
  | ended => t.length < u.length

theorem compare_spec (ht : StringAt m (haystack + i) t) (hu : StringAt m (needle + i) u) :
    ∃ o, compare m haystack needle u.length i = some o ∧ o.Says t u := by
  induction u generalizing i t with
  | nil => exact ⟨.found, rfl, List.nil_prefix⟩
  | cons y u ih =>
    have hread : compare m haystack needle (u.length + 1) i =
        if t.getD 0 0 ≠ y then some (if t.getD 0 0 = 0 then .ended else .differs)
        else compare m haystack needle u.length (i + 1) := by
      rw [compare, hu.head, ht.head]
      rfl
    rw [List.length_cons, hread]
    cases t with
    | nil => exact ⟨.ended, if_pos hu.ne_zero.symm, Nat.succ_pos _⟩
    | cons x t =>
      rw [List.getD_cons_zero, if_neg ht.ne_zero]
      split
      · next hne => exact ⟨.differs, rfl, fun hpre => hne (List.cons_prefix_cons.mp hpre).1.symm, List.cons_ne_nil _ _⟩
      · next heq =>
        obtain rfl := not_not.mp heq
        obtain ⟨o, ho, hsays⟩ := ih (i := i + 1) ht.tail hu.tail
        refine ⟨o, ho, ?_⟩
        cases o with
        | found => exact List.cons_prefix_cons.mpr ⟨rfl, hsays⟩
        | differs => exact ⟨fun hpre => hsays.1 (List.cons_prefix_cons.mp hpre).2, List.cons_ne_nil _ _⟩
        | ended => exact Nat.succ_lt_succ hsays

-- The search

def firstIn (t u : List UInt8) : Option ℕ := first (fun i => u.isPrefixOf (t.drop i)) 0 (t.length + 1)

theorem firstIn_of_starts (h : u <+: t) : firstIn t u = some 0 := by
  rw [firstIn, first, List.drop_zero, if_pos (List.isPrefixOf_iff_prefix.mpr h)]

theorem firstIn_of_lt (h : t.length < u.length) : firstIn t u = none := by
  refine first_eq_none_iff.mpr fun i _ _ => Bool.eq_false_iff.mpr fun hpre => ?_
  have hle := (List.isPrefixOf_iff_prefix.mp hpre).length_le
  rw [List.length_drop] at hle
  omega

theorem firstIn_skip {k : ℕ} {b : UInt8} (hno : ¬ (b :: u) <+: t) (hk : k ≤ t.length)
    (hbefore : ∀ i, 0 < i → i < k → t.getD i 0 ≠ b) : firstIn t (b :: u) = (firstIn (t.drop k) (b :: u)).map (k + ·) := by
  have hnone : first (fun i => (b :: u).isPrefixOf (t.drop i)) 0 k = none := by
    refine first_eq_none_iff.mpr fun i _ hi => Bool.eq_false_iff.mpr fun hpre => ?_
    obtain ⟨s, hs⟩ := List.isPrefixOf_iff_prefix.mp hpre
    obtain rfl | hpos := Nat.eq_zero_or_pos i
    · exact hno ⟨s, hs⟩
    · have hhead : (t.drop i).getD 0 0 = b := by rw [← hs]; rfl
      rw [List.getD_eq_getElem?_getD, List.getElem?_drop, Nat.add_zero, ← List.getD_eq_getElem?_getD] at hhead
      exact hbefore i hpos (by omega) hhead
  have hsplit : t.length + 1 = k + ((t.drop k).length + 1) := by
    rw [List.length_drop]
    omega
  have hcomm : (fun x => x + k) = (k + ·) := funext fun x => Nat.add_comm x k
  rw [firstIn, firstIn, hsplit, first_add, hnone, Option.none_or, first_shift, hcomm]
  congr 1
  refine first_congr fun x _ _ => ?_
  rw [List.drop_drop, Nat.add_comm]

theorem firstIn_of_no_letter {b : UInt8} (hno : ¬ (b :: u) <+: t) (hbefore : ∀ i, 0 < i → i < t.length → t.getD i 0 ≠ b) :
    firstIn t (b :: u) = none := by
  have hend : firstIn [] (b :: u) = none := firstIn_of_lt (Nat.succ_pos _)
  rw [firstIn_skip hno (Nat.le_refl _) hbefore, List.drop_length, hend]
  rfl

theorem search_spec (hs : FindsFirst m strchr) (ht : StringAt m haystack t) (hu : StringAt m needle u) (hne : u ≠ [])
    (hn : t.length < n) : search m strchr needle u.length n haystack = some ((firstIn t u).map (haystack + ·)) := by
  induction n generalizing haystack t with
  | zero => exact absurd hn (Nat.not_lt_zero _)
  | succ n ih =>
    obtain ⟨o, ho, hsays⟩ := @compare_spec m haystack needle 0 t u ht hu
    rw [search, ho]
    cases o with
    | found =>
      rw [firstIn_of_starts hsays]
      rfl
    | ended =>
      rw [firstIn_of_lt hsays]
      rfl
    | differs =>
      obtain ⟨hno, hsome⟩ := hsays
      obtain ⟨b, u, rfl⟩ := List.exists_cons_of_ne_nil hne
      obtain ⟨x, t, rfl⟩ := List.exists_cons_of_ne_nil hsome
      have hletter := hs (haystack + 1) t b ht.tail hu.ne_zero
      have hbefore : ∀ k, (∀ j, 0 ≤ j → j < k → (t.getD j 0 == b) = false) → ∀ i, 0 < i → i < k + 1 → (x :: t).getD i 0 ≠ b := by
        intro k hk i hi hik
        obtain ⟨i, rfl⟩ := Nat.exists_eq_succ_of_ne_zero (Nat.ne_of_gt hi)
        rw [Nat.succ_eq_add_one, List.getD_cons_succ]
        exact beq_eq_false_iff_ne.mp (hk i (Nat.zero_le _) (Nat.lt_of_succ_lt_succ hik))
      simp only [Option.bind_eq_bind, Option.bind_some, hu.head, List.getD_cons_zero, hletter]
      cases hf : first (fun i => t.getD i 0 == b) 0 t.length with
      | none =>
        rw [firstIn_of_no_letter hno (hbefore _ fun j hj hlt => first_eq_none_iff.mp hf j hj (by omega))]
        rfl
      | some k =>
        obtain ⟨-, hk, -, hfirst⟩ := first_eq_some_iff.mp hf
        rw [Nat.zero_add] at hk
        have hnext := ht.tail.drop (Nat.le_of_lt hk)
        rw [firstIn_skip hno (Nat.succ_le_succ (Nat.le_of_lt hk)) (hbefore k hfirst), List.drop_succ_cons, Option.map_map]
        refine (ih hnext ?_).trans ?_
        · rw [List.length_drop]
          rw [List.length_cons] at hn
          omega
        · congr 2
          funext i
          rw [Function.comp_apply]
          omega

/-- **Exactness**: `strstr` returns the first place where the needle is in the haystack, or `NULL` where
there is none, and reads no more than the two strings. -/
theorem strstr_exact (hs : FindsFirst m strchr) (ht : StringAt m haystack t) (hu : StringAt m needle u) :
    ∃ n, strstr m strchr haystack needle n =
      some ((first (fun i => u.isPrefixOf (t.drop i)) 0 (t.length + 1)).map (haystack + ·)) := by
  refine ⟨max t.length u.length + 1, ?_⟩
  have hspec : first (fun i => u.isPrefixOf (t.drop i)) 0 (t.length + 1) = firstIn t u := rfl
  rw [hspec, strstr, hu.head]
  cases u with
  | nil =>
    rw [firstIn_of_starts List.nil_prefix]
    rfl
  | cons b u =>
    have hgo : (List.getD (b :: u) 0 0 = 0) = False := eq_false hu.ne_zero
    simp only [Option.bind_eq_bind, Option.bind_some, hgo, if_false]
    obtain ⟨hlt, hpass⟩ | ⟨d, hpass, hd⟩ := prefixPass_spec (i := 0) ht hu (n := max t.length (b :: u).length + 1) (by omega) 0
    · rw [hpass, firstIn_of_lt hlt]
      rfl
    · rw [hpass, Nat.zero_add]
      simp only [Option.bind_some]
      split
      · next hzero =>
        rw [firstIn_of_starts (hd.mp hzero).2]
        rfl
      · exact search_spec hs ht hu (List.cons_ne_nil _ _) (by omega)

/-- A loop over bytes does what `strchr` is relied on for. -/
def findByte (m : Readable) (c : UInt8) : ℕ → ℕ → Option (Option ℕ)
  | 0, _ => none
  | n + 1, a => do
    let b ← m a
    if b = c then return some a
    if b = 0 then return none
    findByte m c n (a + 1)

theorem findByte_spec {c : UInt8} (ht : StringAt m a t) (hc : c ≠ 0) (hn : t.length < n) :
    findByte m c n a = some ((first (fun i => t.getD i 0 == c) 0 t.length).map (a + ·)) := by
  induction n generalizing a t with
  | zero => exact absurd hn (Nat.not_lt_zero _)
  | succ n ih =>
    rw [findByte, ht.head]
    cases t with
    | nil => exact (if_neg hc.symm).trans (if_pos rfl)
    | cons x t =>
      simp only [Option.bind_eq_bind, Option.bind_some, List.getD_cons_zero, List.length_cons, first]
      by_cases heq : x = c
      · rw [if_pos heq, if_pos (beq_iff_eq.mpr heq)]
        rfl
      · have hcomp : (a + ·) ∘ (· + 1) = fun i => a + 1 + i := by
          funext i
          rw [Function.comp_apply]
          omega
        rw [if_neg heq, if_neg ht.ne_zero, if_neg fun h => heq (beq_iff_eq.mp h), ih ht.tail (Nat.lt_of_succ_lt_succ hn),
          first_shift, Option.map_map, hcomp]
        rfl

theorem strstr_exact_aab :
    let m : Readable := fun x => ([97, 97, 98, 0, 97, 98, 0] : List UInt8)[x]?
    ∃ n, strstr m (fun a c => findByte m c 8 a) 0 4 n =
      some ((first (fun i => [97, 98].isPrefixOf (([97, 97, 98] : List UInt8).drop i)) 0 4).map (0 + ·)) := by
  intro m
  refine @strstr_exact m (fun a c => findByte m c 8 a) 0 4 [97, 97, 98] [97, 98] (fun a t c ht hc => ?_)
    ⟨by decide, by decide⟩ ⟨by decide, by decide⟩
  have hend : a + t.length < 7 := (List.getElem?_eq_some_iff.mp (ht.bytes t.length (Nat.le_refl _))).1
  exact findByte_spec ht hc (by omega)

end Sneks.Stdlib
