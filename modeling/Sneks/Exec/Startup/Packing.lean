import Mathlib.Data.List.Forall2
import Sneks.Exec.Startup.Defs

/-!
# Packing for the start-up stack

What the parts of `upload_startup_stack` (`root/uapi.c`) end with: the buffers taken apart, the values that
are read from the arguments, and the buffer of `pack_auxv`. That is doubled for strings with 16 bytes to
spare for the random ones, of which 17 are used.
-/

namespace Sneks.Exec.Startup
open Lib
open Stdlib (CText)

variable {heap : Heap} {env : Env} {root : Root} {child : Child} {i : Input} {vals : ℕ → Option ℕ}

-- The arguments

theorem strsplitLoop_bounds {done rest : List UInt8} {alloc : ℕ} {ret : List ℕ} {split : Split}
    (h : strsplitLoop heap done rest done.length alloc ret = some split) (hret : ∀ off ∈ ret, off ≤ done.length) :
    split.len = done.length + rest.length ∧ split.buf.length = split.len ∧ ∀ off ∈ split.offsets, off ≤ split.len := by
  induction hn : rest.length using Nat.strongRecOn generalizing done rest alloc ret with
  | ind n ih =>
    rw [strsplitLoop] at h
    split at h
    · next hnil =>
      cases h
      rw [hnil] at hn
      exact ⟨by rw [← hn]; rfl, rfl, hret⟩
    next hne =>
    have hpos := List.length_pos_iff.mpr hne
    simp only at h
    generalize (if ret.length + 1 ≥ alloc then alloc * 2 else alloc) = alloc' at h
    split at h
    · cases h
    generalize hseg : rest.takeWhile (· ≠ RECSEP) = seg at h
    generalize hnul : (if seg.length < rest.length then [0] else [] : List UInt8) = nul at h
    have hle : seg.length ≤ rest.length := by
      rw [← hseg]
      exact (List.takeWhile_sublist _).length_le
    have hlen : done.length + seg.length + nul.length = (done ++ seg ++ nul).length := by
      rw [List.length_append, List.length_append]
    have hnulLen : nul.length = if seg.length < rest.length then 1 else 0 := by
      rw [← hnul]
      split
      · rfl
      · rfl
    rw [hlen] at h
    obtain ⟨htotal, hbuf, hoffs⟩ := ih _ (by rw [List.length_drop]; omega) h (by
      intro off hoff
      rw [← hlen]
      obtain hold | hnew := List.mem_append.mp hoff
      · have hold := hret off hold
        omega
      · rw [List.mem_singleton.mp hnew]
        omega) rfl
    refine ⟨?_, hbuf, hoffs⟩
    rw [htotal, ← hlen, List.length_drop, hnulLen, ← hn]
    split
    · omega
    · omega

structure Parted (text : List UInt8) (split : Split) : Prop where
  len : split.len = text.length
  buf : split.buf.length = text.length
  offsets : ∀ off ∈ split.offsets, off ≤ text.length
  strings : split.offsets.map (stringAt split.buf) = records RECSEP text

theorem parted {text : List UInt8} {split : Split} (htext : 0 ∉ text) (h : strsplitOffsets heap text = some split) :
    Parted text split := by
  have hstrings := strsplitOffsets_strings htext h
  rw [strsplitOffsets] at h
  split at h
  · cases h
  · obtain ⟨hlen, hbuf, hoffs⟩ := strsplitLoop_bounds h (by rintro _ ⟨⟩)
    rw [List.length_nil, Nat.zero_add] at hlen
    exact ⟨hlen, hbuf.trans hlen, hlen ▸ hoffs, hstrings⟩

theorem Parted.count {text : List UInt8} {split : Split} (h : Parted text split) :
    split.offsets.length = (records RECSEP text).length := by
  rw [← h.strings, List.length_map]

-- The values

theorem auxvLoop_ignore {val : ℕ} {rest : List ℕ} : auxvLoop vals (AT_IGNORE :: val :: rest) = auxvLoop vals (val :: rest) := by
  rw [auxvLoop, if_neg (by decide), if_neg (by decide)]
  exact if_pos rfl

theorem auxvLoop_value {name val : ℕ} {rest : List ℕ} (hne : name ≠ AT_NULL) (hlt : name < nAttrs) (hig : name ≠ AT_IGNORE) :
    auxvLoop vals (name :: val :: rest) = auxvLoop (Function.update vals name (some val)) rest := by
  rw [auxvLoop, if_neg hne, if_neg (Nat.not_le.mpr hlt)]
  exact if_neg hig

theorem auxvLoop_pairs {auxv : List (ℕ × ℕ)} (hne : ∀ e ∈ auxv, e.1 ≠ AT_NULL) (hskip : Skippable auxv) :
    ((∀ e ∈ auxv, e.1 < nAttrs) → auxvLoop vals (vaList auxv) = some (auxv.foldl giveOne vals)) ∧
      (¬ (∀ e ∈ auxv, e.1 < nAttrs) → auxvLoop vals (vaList auxv) = none) := by
  induction auxv generalizing vals with
  | nil => exact ⟨fun _ => rfl, fun h => absurd nofun h⟩
  | cons e auxv ih =>
    obtain ⟨hne₀, hne⟩ := List.forall_mem_cons.mp hne
    obtain ⟨hskip₀, hskip⟩ := List.forall_mem_cons.mp hskip
    have hargs : vaList (e :: auxv) = e.1 :: e.2 :: vaList auxv := rfl
    rw [hargs, List.foldl_cons, List.forall_mem_cons, giveOne]
    by_cases hlt : e.1 < nAttrs
    · by_cases hig : e.1 = AT_IGNORE
      · have hrest : auxvLoop vals (e.1 :: e.2 :: vaList auxv) = auxvLoop vals (vaList auxv) := by
          rw [hig, auxvLoop_ignore, hskip₀ hig]
          cases hva : vaList auxv with
          | nil => cases List.append_eq_nil_iff.mp hva |>.2
          | cons x rest => exact auxvLoop_ignore
        rw [hrest, if_pos hig]
        exact ⟨fun h => (ih hne hskip).1 h.2, fun h => (ih hne hskip).2 fun hall => h ⟨hlt, hall⟩⟩
      · rw [auxvLoop_value hne₀ hlt hig, if_neg hig]
        exact ⟨fun h => (ih hne hskip).1 h.2, fun h => (ih hne hskip).2 fun hall => h ⟨hlt, hall⟩⟩
    · refine ⟨fun h => absurd h.1 hlt, fun _ => ?_⟩
      rw [auxvLoop, if_neg hne₀, if_pos (Nat.not_lt.mp hlt)]

structure Plausible (vals : ℕ → Option ℕ) : Prop where
  null : vals AT_NULL = none
  lt : ∀ name v, vals name = some v → v < 2 ^ 32

theorem Plausible.update {name v : ℕ} (h : Plausible vals) (hne : name ≠ AT_NULL) (hv : v < 2 ^ 32) :
    Plausible (Function.update vals name (some v)) where
  null := by rw [Function.update_of_ne (Ne.symm hne), h.null]
  lt name' v' hval := by
    by_cases heq : name' = name
    · rw [heq, Function.update_self] at hval
      rw [← Option.some.inj hval]
      exact hv
    · rw [Function.update_of_ne heq] at hval
      exact h.lt name' v' hval

theorem plausible_defaults : Plausible defaults := by
  have hnone : Plausible fun _ => none := ⟨rfl, nofun⟩
  exact (hnone.update (by decide) (by decide)).update (by decide) (by decide)

theorem plausible_given (i : Input) : Plausible (given i.auxv) := by
  have hall : ∀ (auxv : List (ℕ × ℕ)) (vals : ℕ → Option ℕ), Plausible vals → (∀ e ∈ auxv, e.1 ≠ AT_NULL) →
      (∀ e ∈ auxv, e.2 < 2 ^ 32) → Plausible (auxv.foldl giveOne vals) := by
    intro auxv
    induction auxv with
    | nil => exact fun _ h _ _ => h
    | cons e auxv ih =>
      intro vals h hne hlt
      obtain ⟨hne₀, hne⟩ := List.forall_mem_cons.mp hne
      obtain ⟨hlt₀, hlt⟩ := List.forall_mem_cons.mp hlt
      rw [List.foldl_cons]
      refine ih _ ?_ hne hlt
      rw [giveOne]
      split
      · exact h
      · exact h.update hne₀ hlt₀
  exact hall i.auxv defaults plausible_defaults i.auxv_ne i.auxv_lt

-- One entry in the buffer

section

variable {s : CText} {pos alloc n : ℕ}

theorem packText_fits (hfits : s.length < room alloc pos) (hroom : room alloc pos < 2 ^ 31) (hin : pos + s.length + 1 ≤ alloc) :
    packText heap s pos (n + 1) alloc = some (some alloc) := by
  rw [packText, Stdlib.strscpy_fits hfits (Nat.lt_of_le_of_lt (Nat.sub_le _ _) hroom)]
  exact if_neg (by omega)

theorem packText_cut (hroom : room alloc pos ≤ s.length) (hspare : pos + 16 ≤ alloc) :
    packText heap s pos (n + 1) alloc =
      if heap (alloc * 2) = none then some none else packText heap s pos n (alloc * 2) := by
  have hnone := Stdlib.strscpy_cut hroom
  have hreach := (Stdlib.strscpy_cut_near hroom).2
  rw [room, if_pos hspare] at hreach hnone hroom
  rw [packText, room, if_pos hspare]
  generalize hcopy : Stdlib.strscpy s (alloc - pos - 16) = copied at hnone hreach
  obtain ⟨copied, reach⟩ := copied
  dsimp only at hnone hreach ⊢
  rw [hnone, if_neg (by omega)]

theorem bufSize_lt {q : ℕ} (hq : q + 15 < 2 ^ 30) : bufSize q < 2 ^ 31 := by
  have hle : Nat.size ((q + 15) / 128) ≤ 23 := Nat.size_le.mpr (by omega)
  have hpow : 2 ^ Nat.size ((q + 15) / 128) ≤ 2 ^ 23 := Nat.pow_le_pow_right (by decide) hle
  rw [bufSize]
  omega

theorem packText_spare {j : ℕ} (hsmall : pos + s.length + 16 < 2 ^ 30) (hspare : pos + 16 ≤ 128 * 2 ^ j)
    (hj : j ≤ Nat.size ((pos + s.length + 1 + 15) / 128))
    (hn : Nat.size ((pos + s.length + 1 + 15) / 128) < j + n) :
    packText heap s pos n (128 * 2 ^ j) = some (some (bufSize (pos + s.length + 1))) ∨
      packText heap s pos n (128 * 2 ^ j) = some none ∧ ∃ m, heap m = none := by
  induction n generalizing j with
  | zero => omega
  | succ n ih =>
    have hroom : room (128 * 2 ^ j) pos = 128 * 2 ^ j - pos - 16 := by rw [room, if_pos hspare]
    have hfits : s.length < room (128 * 2 ^ j) pos ↔ Nat.size ((pos + s.length + 1 + 15) / 128) ≤ j := by
      rw [hroom, Nat.size_le, Nat.div_lt_iff_lt_mul (by decide)]
      omega
    by_cases hlast : Nat.size ((pos + s.length + 1 + 15) / 128) ≤ j
    · have heq : j = Nat.size ((pos + s.length + 1 + 15) / 128) := Nat.le_antisymm hj hlast
      have hlt := hfits.mpr hlast
      have hint : room (128 * 2 ^ j) pos < 2 ^ 31 := by
        have hsize : 128 * 2 ^ j < 2 ^ 31 := heq ▸ bufSize_lt (q := pos + s.length + 1) (by omega)
        omega
      refine .inl ?_
      rw [packText_fits hlt hint (by rw [hroom] at hlt; omega), bufSize, ← heq]
    · have hcut := Nat.not_lt.mp (mt hfits.mp hlast)
      have hdouble : 128 * 2 ^ j * 2 = 128 * 2 ^ (j + 1) := by
        rw [Nat.pow_succ, Nat.mul_assoc]
      rw [packText_cut hcut hspare, hdouble]
      split
      · next hnone => exact .inr ⟨rfl, _, hnone⟩
      · exact ih (by rw [← hdouble]; omega) (by omega) (by omega)

/-- Without, the size that `strscpy` gets wraps around. It is no `int` then, and the end of the buffer is not
    kept to. -/
theorem packText_wrap (hspare : ¬ pos + 16 ≤ alloc) (hnear : pos ≤ alloc + 1) : packText heap s pos (n + 1) alloc = none := by
  have hroom : room alloc pos = alloc + 2 ^ 32 - pos - 16 := by rw [room, if_neg hspare]
  rw [packText]
  generalize hcopy : Stdlib.strscpy s (room alloc pos) = written
  obtain ⟨copied, reach⟩ := written
  have hreach : alloc < pos + reach := by
    by_cases hlt : s.length < room alloc pos
    · obtain hint | hfar := Nat.lt_or_ge (room alloc pos - s.lastWord) (2 ^ 31)
      · have hlast : s.lastWord ≤ s.length := by
          rw [CText.lastWord]
          omega
        rw [Stdlib.strscpy_fits hlt hint] at hcopy
        cases hcopy
        omega
      · have hout := (Stdlib.strscpy_far hlt hfar).2
        rw [hcopy] at hout
        dsimp only at hout
        omega
    · have hout := (Stdlib.strscpy_cut_near (Nat.not_lt.mp hlt)).1
      rw [hcopy] at hout
      dsimp only at hout
      omega
  exact if_pos hreach

theorem size_le_self (n : ℕ) : Nat.size n ≤ n := Nat.size_le.mpr Nat.lt_two_pow_self

end

theorem bufSize_spare (q : ℕ) : q + 16 ≤ bufSize q := by
  have hlt := Nat.lt_size_self ((q + 15) / 128)
  rw [Nat.div_lt_iff_lt_mul (by decide)] at hlt
  rw [bufSize]
  omega

theorem packText_bufSize {s : CText} {pos q : ℕ} (hsmall : pos + s.length + 16 < 2 ^ 30) (hq : q ≤ pos) (hspare : pos + 16 ≤ bufSize q) :
    packText heap s pos (pos + s.length + 17) (bufSize q) = some (some (bufSize (pos + s.length + 1))) ∨
      packText heap s pos (pos + s.length + 17) (bufSize q) = some none ∧ ∃ m, heap m = none := by
  have hmono : Nat.size ((q + 15) / 128) ≤ Nat.size ((pos + s.length + 1 + 15) / 128) :=
    Nat.size_le_size (Nat.div_le_div_right (by omega))
  have hfuel : Nat.size ((pos + s.length + 1 + 15) / 128) < Nat.size ((q + 15) / 128) + (pos + s.length + 17) := by
    have hle := size_le_self ((pos + s.length + 1 + 15) / 128)
    omega
  exact packText_spare hsmall hspare hmono hfuel

def pointee (root : Root) (typ val : ℕ) : List UInt8 :=
  if typ = AT_RANDOM then root.random val else (root.text val).text ++ [0]

def EntryIn (root : Root) (buf : List UInt8) (e : Auxv) (x : ℕ × ℕ) : Prop :=
  e.type = x.1 ∧ if strAttr x.1 = false then e.off = false ∧ e.val = x.2
    else e.off = true ∧ ∃ before after, buf = before ++ pointee root x.1 x.2 ++ after ∧ before.length = e.val

theorem EntryIn.append {buf : List UInt8} {e : Auxv} {x : ℕ × ℕ} (h : EntryIn root buf e x) (more : List UInt8) :
    EntryIn root (buf ++ more) e x := by
  refine ⟨h.1, ?_⟩
  have hentry := h.2
  split at hentry
  · next hplain =>
    rw [if_pos hplain]
    exact hentry
  · next hstr =>
    obtain ⟨hoff, before, after, hbuf, hlen⟩ := hentry
    rw [if_neg hstr]
    exact ⟨hoff, before, after ++ more, by rw [hbuf, List.append_assoc _ after], hlen⟩

/-- The buffer after a list of entries, `k` bytes of it. -/
structure Packed (root : Root) (l : List (ℕ × ℕ)) (k : ℕ) (done : List Auxv) (p : Pack) : Prop where
  pos : p.pos = k
  length : p.buf.length = k
  entries : List.Forall₂ (EntryIn root p.buf) done l

def Ends (env : Env) (r : Option (Option (List Auxv × Pack))) (Q : List Auxv → Pack → Prop) : Prop :=
  (r = some none ∧ ∃ n, env.heap n = none) ∨ ∃ done p, r = some (some (done, p)) ∧ Q done p

section

variable {l : List (ℕ × ℕ)} {k typ val : ℕ} {done : List Auxv} {p : Pack}

theorem packLoop_append (a b : List (ℕ × ℕ)) (done : List Auxv) (p : Pack) :
    packLoop env root (a ++ b) done p =
      match packLoop env root a done p with
      | some (some (done, p)) => packLoop env root b done p
      | r => r := by
  induction a generalizing done p with
  | nil => rfl
  | cons x a ih =>
    rw [List.cons_append, packLoop, packLoop]
    split
    · rfl
    · rfl
    · exact ih _ _

theorem Ends.append {a b : List (ℕ × ℕ)} {Q R : List Auxv → Pack → Prop} (ha : Ends env (packLoop env root a done p) Q)
    (hb : ∀ done p, Q done p → Ends env (packLoop env root b done p) R) : Ends env (packLoop env root (a ++ b) done p) R := by
  rw [packLoop_append]
  obtain ⟨hnone, hheap⟩ | ⟨done', p', hrun, hq⟩ := ha
  · rw [hnone]
    exact .inl ⟨rfl, hheap⟩
  · rw [hrun]
    exact hb done' p' hq

theorem Packed.snoc {more : List UInt8} {e : Auxv} {alloc : ℕ} (h : Packed root l k done p)
    (hentry : EntryIn root (p.buf ++ more) e (typ, val)) :
    Packed root (l ++ [(typ, val)]) (k + more.length) (done ++ [e]) ⟨k + more.length, alloc, p.buf ++ more⟩ where
  pos := rfl
  length := by rw [List.length_append, h.length]
  entries := List.rel_append (h.entries.imp fun _ _ he => he.append more) (.cons hentry .nil)

theorem packLoop_plain {a : List (ℕ × ℕ)} (h : Packed root l k done p) (ha : ∀ x ∈ a, strAttr x.1 = false) :
    ∃ done', packLoop env root a done p = some (some (done', p)) ∧ Packed root (l ++ a) k done' p := by
  induction a generalizing l done with
  | nil => exact ⟨done, rfl, by rwa [List.append_nil]⟩
  | cons x a ih =>
    obtain ⟨hx, ha⟩ := List.forall_mem_cons.mp ha
    have hentry : EntryIn root p.buf ⟨x.1, x.2, false⟩ x := ⟨rfl, by rw [if_pos hx]; exact ⟨rfl, rfl⟩⟩
    have hnext : Packed root (l ++ [x]) k (done ++ [⟨x.1, x.2, false⟩]) p :=
      ⟨h.pos, h.length, List.rel_append h.entries (.cons hentry .nil)⟩
    obtain ⟨done', hrun, hpacked⟩ := ih hnext ha
    refine ⟨done', ?_, by rwa [List.append_assoc] at hpacked⟩
    rw [packLoop, packOne, if_pos hx]
    exact hrun

theorem packLoop_random (h : Packed root l k done p) (hspare : k + 16 ≤ p.alloc) :
    ∃ done' p', packLoop env root [(AT_RANDOM, val)] done p = some (some (done', p')) ∧
      Packed root (l ++ [(AT_RANDOM, val)]) (k + 17) done' p' ∧ p'.alloc = p.alloc := by
  have hmore : (root.random val ++ [env.junk (p.pos + 16)]).length = 17 := by
    rw [List.length_append, root.length_random]
    rfl
  have hentry : EntryIn root (p.buf ++ (root.random val ++ [env.junk (p.pos + 16)])) ⟨AT_RANDOM, k, true⟩ (AT_RANDOM, val) :=
    ⟨rfl, rfl, p.buf, [env.junk (p.pos + 16)], by rw [List.append_assoc]; rfl, h.length⟩
  have hsnoc : Packed root _ _ _ ⟨_, p.alloc, _⟩ := h.snoc hentry
  rw [hmore] at hsnoc
  refine ⟨_, _, ?_, hsnoc, rfl⟩
  rw [packLoop, packOne, if_neg (by decide), if_pos rfl, if_neg (by rw [h.pos]; omega), h.pos, List.append_assoc]
  rfl

theorem packLoop_text {alloc : ℕ} (h : Packed root l k done p) (hstr : strAttr typ = true) (hne : typ ≠ AT_RANDOM)
    (hbuf : packText env.heap (root.text val) p.pos (p.pos + (root.text val).length + 17) p.alloc = some (some alloc)) :
    ∃ done' p', packLoop env root [(typ, val)] done p = some (some (done', p')) ∧
      Packed root (l ++ [(typ, val)]) (k + ((root.text val).length + 1)) done' p' ∧ p'.alloc = alloc := by
  have hmore : ((root.text val).text ++ [0]).length = (root.text val).length + 1 := by
    rw [List.length_append]
    rfl
  have hentry : EntryIn root (p.buf ++ ((root.text val).text ++ [0])) ⟨typ, k, true⟩ (typ, val) := by
    refine ⟨rfl, ?_⟩
    rw [if_neg (by rw [hstr]; exact Bool.true_eq_false.mp)]
    exact ⟨rfl, p.buf, [], by rw [pointee, if_neg hne, List.append_nil], h.length⟩
  have hsnoc : Packed root _ _ _ ⟨_, alloc, _⟩ := h.snoc hentry
  rw [hmore] at hsnoc
  refine ⟨_, _, ?_, hsnoc, rfl⟩
  rw [packLoop, packOne, if_neg (by rw [hstr]; exact Bool.true_eq_false.mp), if_neg hne]
  dsimp only
  rw [hbuf, h.pos, List.append_assoc, Nat.add_assoc]
  rfl

end

-- All entries

def attrs (vals : ℕ → Option ℕ) (a n : ℕ) : List (ℕ × ℕ) := (List.range' a n).filterMap fun name => (vals name).map (name, ·)

theorem auxvList_eq (vals : ℕ → Option ℕ) : auxvList vals = attrs vals 0 64 := by
  rw [auxvList, List.range_eq_range']
  rfl

theorem attrs_append (a m n : ℕ) : attrs vals a m ++ attrs vals (a + m) n = attrs vals a (m + n) := by
  rw [attrs, attrs, attrs, ← List.filterMap_append, List.range'_append_1]

theorem attrs_none {a : ℕ} (h : vals a = none) : attrs vals a 1 = [] := by
  simp [attrs, h]

theorem attrs_some {a v : ℕ} (h : vals a = some v) : attrs vals a 1 = [(a, v)] := by
  simp [attrs, h]

theorem attrs_plain {a n : ℕ} (h : ∀ name ∈ List.range' a n, strAttr name = false) : ∀ x ∈ attrs vals a n, strAttr x.1 = false := by
  intro x hx
  obtain ⟨name, hname, hval⟩ := List.mem_filterMap.mp hx
  obtain ⟨v, -, rfl⟩ := Option.map_eq_some_iff.mp hval
  exact h name hname

section

variable {k q : ℕ} {done : List Auxv} {p : Pack}

theorem packLoop_attrs {m : ℕ} (env : Env) (n : ℕ) (h : Packed root (attrs vals 0 m) k done p)
    (hplain : ∀ name ∈ List.range' m n, strAttr name = false) :
    ∃ done', packLoop env root (attrs vals m n) done p = some (some (done', p)) ∧
      Packed root (attrs vals 0 (m + n)) k done' p := by
  obtain ⟨done', hrun, hpacked⟩ := packLoop_plain h (attrs_plain hplain)
  have happend := @attrs_append vals 0 m n
  rw [Nat.zero_add] at happend
  exact ⟨done', hrun, happend ▸ hpacked⟩

theorem packLoop_attr {m : ℕ} (hshort : k + textSize root vals m + 16 < 2 ^ 30) (h : Packed root (attrs vals 0 m) k done p) (hstr : strAttr m = true) (hne : m ≠ AT_RANDOM)
    (halloc : p.alloc = bufSize q) (hq : q ≤ k) (hspare : k + 16 ≤ p.alloc) :
    Ends env (packLoop env root (attrs vals m 1) done p) fun done' p' =>
      Packed root (attrs vals 0 (m + 1)) (k + textSize root vals m) done' p' ∧
        p'.alloc = if vals m = none then p.alloc else bufSize (k + textSize root vals m) := by
  have happend := @attrs_append vals 0 m 1
  rw [Nat.zero_add] at happend
  cases hval : vals m with
  | none =>
    rw [attrs_none hval, List.append_nil] at happend
    rw [attrs_none hval, textSize, hval, ← happend]
    exact .inr ⟨done, p, rfl, h, rfl⟩
  | some v =>
    rw [attrs_some hval] at happend
    rw [attrs_some hval, textSize, hval, ← happend]
    rw [halloc] at hspare
    have hsmall : p.pos + (root.text v).length + 16 < 2 ^ 30 := by
      have hsize : textSize root vals m = (root.text v).length + 1 := by
        rw [textSize, hval]
        rfl
      have hpos := h.pos
      omega
    obtain hbuf | ⟨hbuf, hheap⟩ := @packText_bufSize env.heap (root.text v) p.pos q hsmall (h.pos ▸ hq) (h.pos ▸ hspare)
    · rw [← halloc] at hbuf
      obtain ⟨done', p', hrun, hpacked, hsize⟩ := packLoop_text h hstr hne hbuf
      refine .inr ⟨done', p', hrun, hpacked, ?_⟩
      rw [hsize, h.pos]
      rfl
    · refine .inl ⟨?_, hheap⟩
      rw [packLoop, packOne, if_neg (by rw [hstr]; exact Bool.true_eq_false.mp), if_neg hne]
      dsimp only
      rw [halloc, hbuf]

theorem Ends.imp {r : Option (Option (List Auxv × Pack))} {Q R : List Auxv → Pack → Prop} (h : Ends env r Q)
    (himp : ∀ done p, Q done p → R done p) : Ends env r R :=
  h.imp_right fun ⟨done, p, hrun, hq⟩ => ⟨done, p, hrun, himp done p hq⟩

theorem Ends.of_plain {m n : ℕ} {R : List Auxv → Pack → Prop} (h : Packed root (attrs vals 0 m) k done p)
    (hplain : ∀ name ∈ List.range' m n, strAttr name = false)
    (hr : ∀ done', Packed root (attrs vals 0 (m + n)) k done' p → R done' p) :
    Ends env (packLoop env root (attrs vals m n) done p) R := by
  obtain ⟨done', hrun, hpacked⟩ := packLoop_attrs env n h hplain
  exact .inr ⟨done', p, hrun, hr done' hpacked⟩

theorem packLoop_least {m : ℕ} (hshort : k + textSize root vals m + 16 < 2 ^ 30) (h : Packed root (attrs vals 0 m) k done p ∧ p.alloc = bufSize k) (hstr : strAttr m = true)
    (hne : m ≠ AT_RANDOM) :
    Ends env (packLoop env root (attrs vals m 1) done p) fun done' p' =>
      Packed root (attrs vals 0 (m + 1)) (k + textSize root vals m) done' p' ∧ p'.alloc = bufSize (k + textSize root vals m) := by
  have hspare : k + 16 ≤ p.alloc := h.2 ▸ bufSize_spare k
  refine (packLoop_attr hshort h.1 hstr hne h.2 (Nat.le_refl k) hspare).imp fun done' p' hp => ⟨hp.1, ?_⟩
  rw [hp.2]
  split
  · next hnone =>
    rw [textSize, hnone]
    exact h.2
  · rfl

theorem packLoop_early (hshort : auxLen root vals < 2 ^ 20) : Ends env (packLoop env root (attrs vals 0 25) [] ⟨0, 128, []⟩) fun done p =>
    Packed root (attrs vals 0 25) (earlyLen root vals) done p ∧ p.alloc = bufSize (earlyLen root vals) := by
  have hlist : attrs vals 0 15 ++ (attrs vals 15 1 ++ (attrs vals 16 8 ++ attrs vals 24 1)) = attrs vals 0 25 := by
    rw [attrs_append 16 8 1, attrs_append 15 1 9, attrs_append 0 15 10]
  have hstart : Packed root (attrs vals 0 0) 0 [] ⟨0, 128, []⟩ := ⟨rfl, rfl, .nil⟩
  have hsize : bufSize 0 = 128 := by simp [bufSize]
  have hplain : Ends env (packLoop env root (attrs vals 0 15) [] ⟨0, 128, []⟩) fun done p =>
      Packed root (attrs vals 0 15) 0 done p ∧ p.alloc = bufSize 0 := Ends.of_plain hstart (by decide) fun done' h => ⟨h, hsize.symm⟩
  rw [← hlist]
  refine hplain.append fun done p h => ?_
  have hearly : textSize root vals 15 + textSize root vals 24 < 2 ^ 20 :=
    Nat.lt_of_le_of_lt (Nat.le_trans (Nat.le_add_right _ _) (Nat.le_add_right _ _)) hshort
  refine (packLoop_least (by omega) h (by decide) (by decide)).append fun done p h => ?_
  have hplain : Ends env (packLoop env root (attrs vals 16 8) done p) fun done p =>
      Packed root (attrs vals 0 24) (0 + textSize root vals 15) done p ∧ p.alloc = bufSize (0 + textSize root vals 15) :=
    Ends.of_plain h.1 (by decide) fun done' hp => ⟨hp, h.2⟩
  refine hplain.append fun done p h => ?_
  refine (packLoop_least (by omega) h (by decide) (by decide)).imp fun done' p' hp => ?_
  rw [Nat.zero_add] at hp
  rw [hlist]
  exact hp

theorem packLoop_late (env : Env) (hshort : k + textSize root vals AT_EXECFN < 2 ^ 20) (h : Packed root (attrs vals 0 26) k done p)
    (halloc : p.alloc = bufSize q) (hq : q ≤ k) (hnear : k ≤ q + 17) :
    (k + 16 ≤ p.alloc → Ends env (packLoop env root (attrs vals 26 38) done p) fun done p =>
      Packed root (attrs vals 0 64) (k + textSize root vals AT_EXECFN) done p ∧ max 1 p.pos ≤ p.alloc) ∧
    (vals AT_EXECFN ≠ none → ¬ k + 16 ≤ p.alloc → packLoop env root (attrs vals 26 38) done p = none) ∧
    (vals AT_EXECFN = none → ∃ done', packLoop env root (attrs vals 26 38) done p = some (some (done', p)) ∧
      Packed root (attrs vals 0 64) k done' p) := by
  have hlist : attrs vals 26 5 ++ (attrs vals 31 1 ++ attrs vals 32 32) = attrs vals 26 38 := by
    rw [attrs_append 31 1 32, attrs_append 26 5 33]
  obtain ⟨done₁, hrun₁, h₁⟩ := packLoop_attrs env 5 h (by decide)
  have h₁ : Packed root (attrs vals 0 31) k done₁ p := h₁
  have happend : attrs vals 0 31 ++ attrs vals 31 1 = attrs vals 0 32 := attrs_append 0 31 1
  have hskip : packLoop env root (attrs vals 26 38) done p = packLoop env root (attrs vals 31 1 ++ attrs vals 32 32) done₁ p := by
    rw [← hlist, packLoop_append, hrun₁]
  -- the names after the last string
  have hrest : ∀ {k done p}, Packed root (attrs vals 0 32) k done p → max 1 p.pos ≤ p.alloc →
      Ends env (packLoop env root (attrs vals 32 32) done p) fun done p => Packed root (attrs vals 0 64) k done p ∧ max 1 p.pos ≤ p.alloc :=
    fun hp hle => Ends.of_plain hp (by decide) fun done' hp' => ⟨hp', hle⟩
  rw [hskip]
  refine ⟨fun hspare => ?_, fun hsome hspare => ?_, fun hnone => ?_⟩
  · have hlast : k + textSize root vals 31 < 2 ^ 20 := hshort
    refine (packLoop_attr (by omega) h₁ (by decide) (by decide) halloc hq hspare).append fun done' p' hp => hrest hp.1 ?_
    rw [hp.1.pos, hp.2]
    have hone := bufSize_spare (k + textSize root vals 31)
    split
    · next hnone =>
      have hzero : textSize root vals 31 = 0 := by
        have hnone : vals 31 = none := hnone
        rw [textSize, hnone]
        rfl
      show max 1 (k + textSize root vals 31) ≤ p.alloc
      omega
    · show max 1 (k + textSize root vals 31) ≤ bufSize (k + textSize root vals 31)
      omega
  · obtain ⟨a, ha⟩ := Option.ne_none_iff_exists'.mp hsome
    have hwrap : packText env.heap (root.text a) p.pos (p.pos + (root.text a).length + 17) p.alloc = none := by
      have hroom := bufSize_spare q
      rw [h.pos]
      exact packText_wrap hspare (by omega)
    have ha : vals 31 = some a := ha
    rw [attrs_some ha, packLoop_append, packLoop, packOne, if_neg (by decide), if_neg (by decide)]
    dsimp only
    rw [hwrap]
  · have hnone : vals 31 = none := hnone
    rw [attrs_none hnone, List.append_nil] at happend
    rw [attrs_none hnone, List.nil_append]
    obtain ⟨done', hrun, hp⟩ := packLoop_attrs env 32 (happend ▸ h₁) (by decide)
    exact ⟨done', hrun, hp⟩

/-- What `pack_auxv` ends with: all entries, and a buffer for their bytes. -/
structure AllPacked (root : Root) (vals : ℕ → Option ℕ) (done : List Auxv) (p : Pack) : Prop where
  packed : Packed root (auxvList vals) (auxLen root vals) done p
  inside : max 1 p.pos ≤ p.alloc

theorem packAuxv_eq (hheap : env.heap 128 ≠ none) : packAuxv env root (auxvList vals) =
    packLoop env root (attrs vals 0 25 ++ (attrs vals 25 1 ++ attrs vals 26 38)) [] ⟨0, 128, []⟩ := by
  rw [packAuxv, if_neg hheap, attrs_append 25 1 38, attrs_append 0 25 39, auxvList_eq]

theorem auxLen_of_none (h : vals AT_RANDOM = none) : auxLen root vals = earlyLen root vals + textSize root vals AT_EXECFN := by
  rw [auxLen, if_pos h]
  rfl

theorem auxLen_of_some {a : ℕ} (h : vals AT_RANDOM = some a) :
    auxLen root vals = earlyLen root vals + 17 + textSize root vals AT_EXECFN := by
  rw [auxLen, h]
  rfl

theorem packAuxv_random {r : ℕ} (hshort : auxLen root vals < 2 ^ 20) (h : vals AT_RANDOM = some r) (hheap : env.heap 128 ≠ none) :
    (packAuxv env root (auxvList vals) = some none ∧ ∃ n, env.heap n = none) ∨
      ∃ done p, packAuxv env root (auxvList vals) = packLoop env root (attrs vals 26 38) done p ∧
        Packed root (attrs vals 0 26) (earlyLen root vals + 17) done p ∧ p.alloc = bufSize (earlyLen root vals) := by
  have happend : attrs vals 0 25 ++ attrs vals 25 1 = attrs vals 0 26 := attrs_append 0 25 1
  have hone : attrs vals 25 1 = [(AT_RANDOM, r)] := attrs_some h
  rw [packAuxv_eq hheap, packLoop_append]
  obtain ⟨hnone, hheap⟩ | ⟨done, p, hrun, hp, halloc⟩ := @packLoop_early env root vals hshort
  · rw [hnone]
    exact .inl ⟨rfl, hheap⟩
  · have hspare : earlyLen root vals + 16 ≤ p.alloc := halloc ▸ bufSize_spare _
    obtain ⟨done', p', hrandom, hp', hsame⟩ := @packLoop_random env root _ _ r _ _ hp hspare
    refine .inr ⟨done', p', ?_, ?_, hsame.trans halloc⟩
    · rw [hrun]
      dsimp only
      rw [packLoop_append, hone, hrandom]
    · rw [← happend, hone]
      exact hp'

theorem packAuxv_fits (hshort : auxLen root vals < 2 ^ 20) (h : RandomFits root vals) : Ends env (packAuxv env root (auxvList vals)) (AllPacked root vals) := by
  by_cases hheap : env.heap 128 = none
  · exact .inl ⟨if_pos hheap, 128, hheap⟩
  cases hrandom : vals AT_RANDOM with
  | none =>
    have hnone : attrs vals 25 1 = [] := attrs_none hrandom
    have happend : attrs vals 0 25 ++ attrs vals 25 1 = attrs vals 0 26 := attrs_append 0 25 1
    rw [hnone, List.append_nil] at happend
    rw [packAuxv_eq hheap, hnone, List.nil_append]
    refine (packLoop_early hshort).append fun done p ⟨hp, halloc⟩ => ?_
    have hspare : earlyLen root vals + 16 ≤ p.alloc := halloc ▸ bufSize_spare _
    refine ((packLoop_late env (auxLen_of_none hrandom ▸ hshort) (happend ▸ hp) halloc (Nat.le_refl _) (Nat.le_add_right _ 17)).1
      hspare).imp fun done p hp => ?_
    refine ⟨?_, hp.2⟩
    rw [auxvList_eq, auxLen_of_none hrandom]
    exact hp.1
  | some r =>
    have hall : ∀ done p, Packed root (attrs vals 0 64) (earlyLen root vals + 17 + textSize root vals AT_EXECFN) done p ∧
        max 1 p.pos ≤ p.alloc → AllPacked root vals done p := by
      intro done p hp
      refine ⟨?_, hp.2⟩
      rw [auxvList_eq, auxLen_of_some hrandom]
      exact hp.1
    have hlate := auxLen_of_some hrandom ▸ hshort
    obtain hnull | ⟨done, p, heq, hp, halloc⟩ := @packAuxv_random env root vals r hshort hrandom hheap
    · exact .inl hnull
    · obtain ⟨hlong, -, hlast⟩ := packLoop_late env hlate hp halloc (Nat.le_add_right _ 17) (Nat.le_refl _)
      have hfits := h (by rw [hrandom]; exact nofun)
      rw [heq]
      by_cases hexecfn : vals AT_EXECFN = none
      · rw [if_pos hexecfn] at hfits
        obtain ⟨done', hrun, hp'⟩ := hlast hexecfn
        have hzero : textSize root vals AT_EXECFN = 0 := by
          rw [textSize, hexecfn]
          rfl
        refine .inr ⟨done', p, hrun, hall done' p ⟨?_, ?_⟩⟩
        · rw [hzero]
          exact hp'
        · rw [hp'.pos, halloc]
          omega
      · rw [if_neg hexecfn] at hfits
        exact (hlong (by omega)).imp hall

theorem packAuxv_over (hshort : auxLen root vals < 2 ^ 20) (h : ¬ RandomFits root vals) (hheap : ∀ n, env.heap n ≠ none) :
    packAuxv env root (auxvList vals) = none ∨
      ∃ done p, packAuxv env root (auxvList vals) = some (some (done, p)) ∧ p.alloc < max 1 p.pos := by
  rw [RandomFits, Classical.not_imp] at h
  obtain ⟨hne, hover⟩ := h
  obtain ⟨r, hrandom⟩ := Option.ne_none_iff_exists'.mp hne
  have hlate := auxLen_of_some hrandom ▸ hshort
  obtain ⟨-, n, hnone⟩ | ⟨done, p, heq, hp, halloc⟩ := @packAuxv_random env root vals r hshort hrandom (hheap 128)
  · exact absurd hnone (hheap n)
  · obtain ⟨-, hwrap, hlast⟩ := packLoop_late env hlate hp halloc (Nat.le_add_right _ 17) (Nat.le_refl _)
    rw [heq]
    by_cases hexecfn : vals AT_EXECFN = none
    · rw [if_pos hexecfn] at hover
      obtain ⟨done', hrun, hp'⟩ := hlast hexecfn
      refine .inr ⟨done', p, hrun, ?_⟩
      rw [hp'.pos, halloc]
      omega
    · rw [if_neg hexecfn] at hover
      exact .inl (hwrap hexecfn (by omega))

-- Long strings

theorem packOne_pos {e : Auxv} {p' : Pack} (h : packOne env root typ val p = some (some (e, p'))) :
    p.pos ≤ p'.pos ∧ (strAttr typ = true → typ ≠ AT_RANDOM → (root.text val).length ≤ p'.pos) := by
  rw [packOne] at h
  split at h
  · next hplain =>
    cases h
    exact ⟨Nat.le_refl _, fun hstr => absurd (hplain.symm.trans hstr) Bool.false_ne_true⟩
  · split at h
    · next hrandom =>
      split at h
      · cases h
      · cases h
        exact ⟨Nat.le_add_right _ _, fun _ hne => absurd hrandom hne⟩
    · dsimp only at h
      split at h
      · cases h
      · cases h
      · cases h
        dsimp only
        omega

theorem packLoop_pos {a : List (ℕ × ℕ)} {done' : List Auxv} {p' : Pack}
    (h : packLoop env root a done p = some (some (done', p'))) :
    p.pos ≤ p'.pos ∧ ∀ x ∈ a, strAttr x.1 = true → x.1 ≠ AT_RANDOM → (root.text x.2).length ≤ p'.pos := by
  induction a generalizing done p with
  | nil =>
    cases h
    exact ⟨Nat.le_refl _, nofun⟩
  | cons x a ih =>
    rw [packLoop] at h
    split at h
    · cases h
    · cases h
    · next hone =>
      obtain ⟨hpos, htext⟩ := packOne_pos hone
      obtain ⟨hpos', htexts⟩ := ih h
      exact ⟨Nat.le_trans hpos hpos', List.forall_mem_cons.mpr
        ⟨fun hstr hne => Nat.le_trans (htext hstr hne) hpos', htexts⟩⟩

theorem heap_of_packText {heap : Heap} {s : CText} {pos n alloc : ℕ} (h : packText heap s pos n alloc = some none) :
    ∃ m, heap m = none := by
  induction n generalizing alloc with
  | zero => cases h
  | succ n ih =>
    rw [packText] at h
    dsimp only at h
    split at h
    · cases h
    · split at h
      · cases h
      · split at h
        · next hnone => exact ⟨_, hnone⟩
        · exact ih h

theorem heap_of_packLoop {a : List (ℕ × ℕ)} (h : packLoop env root a done p = some none) : ∃ m, env.heap m = none := by
  induction a generalizing done p with
  | nil => cases h
  | cons x a ih =>
    rw [packLoop] at h
    split at h
    · cases h
    · next hone =>
      rw [packOne] at hone
      split at hone
      · cases hone
      · split at hone
        · split at hone
          · cases hone
          · cases hone
        · dsimp only at hone
          split at hone
          · cases hone
          · next htext => exact heap_of_packText htext
          · cases hone
    · exact ih h

theorem packAuxv_long (hlong : ¬ auxLen root vals < 2 ^ 20) (h : packAuxv env root (auxvList vals) = some (some (done, p))) :
    4096 ≤ p.pos := by
  rw [packAuxv] at h
  split at h
  · cases h
  · obtain ⟨-, htexts⟩ := packLoop_pos h
    have hsize : ∀ name < 64, strAttr name = true → name ≠ AT_RANDOM → textSize root vals name ≤ p.pos + 1 := by
      intro name hlt hstr hne
      rw [textSize]
      cases hval : vals name with
      | none => exact Nat.zero_le _
      | some a =>
        have hmem : (name, a) ∈ auxvList vals := List.mem_filterMap.mpr ⟨name, List.mem_range.mpr hlt, by rw [hval]; rfl⟩
        exact Nat.succ_le_succ (htexts _ hmem hstr hne)
    have hplatform := hsize AT_PLATFORM (by decide) (by decide) (by decide)
    have hbase := hsize AT_BASE_PLATFORM (by decide) (by decide) (by decide)
    have hexecfn := hsize AT_EXECFN (by decide) (by decide) (by decide)
    rw [auxLen, earlyLen] at hlong
    split at hlong <;> omega

end

end Sneks.Exec.Startup
