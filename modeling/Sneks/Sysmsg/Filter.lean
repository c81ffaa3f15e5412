import Sneks.Lib.Bloom
import Sneks.Lib.Run
import Sneks.Sysmsg.Defs
import Mathlib.Algebra.Order.Group.Int
import Mathlib.Data.Multiset.OrderedMonoid

/-!
# The filter has no false negatives

The words of a filter are an array of sticky counters up to 15. A client's filter counts the
pairs of bit and label that it added and has not removed, and `n_filters` is their number; so
each of them passes, and `rm_filter` never removes more than there are.

That is as long as a filter can be allocated when it is needed, and `n_filters` does not
overflow. Pairs that are added while there is no memory are lost when a filter is made later.
-/

namespace Sneks.Sysmsg
open Lib

section Words

variable {w : Word} {i : ℕ} {f : Filter} {slot slot' : Slot}

def counter (f : Filter) (slot : Slot) : ℕ := digit 16 (slot % 8) (f (limb slot)).toNat

theorem two_pow_mul_four : 2 ^ (i * 4) = 16 ^ i := by
  rw [Nat.mul_comm, Nat.pow_mul]

theorem toNat_field : ((w >>> (i * 4)) &&& 0xf#32).toNat = digit 16 i w.toNat := by
  have hmask : (0xf#32).toNat = 2 ^ 4 - 1 := rfl
  rw [BitVec.toNat_and, BitVec.toNat_ushiftRight, hmask, Nat.and_two_pow_sub_one_eq_mod,
    Nat.shiftRight_eq_div_pow, two_pow_mul_four]
  rfl

theorem toNat_one_shiftLeft (hi : i < 8) : (1#32 <<< (i * 4)).toNat = 16 ^ i := by
  have hlt : 16 ^ i < 2 ^ 32 := by
    calc 16 ^ i < 16 ^ 8 := Nat.pow_lt_pow_right (by decide) hi
      _ = 2 ^ 32 := by decide
  rw [BitVec.toNat_shiftLeft, Nat.shiftLeft_eq, two_pow_mul_four]
  simpa using Nat.mod_eq_of_lt hlt

theorem toNat_add_one_shiftLeft (hi : i < 8) (h : digit 16 i w.toNat + 1 < 16) :
    (w + 1#32 <<< (i * 4)).toNat = w.toNat + 16 ^ i := by
  rw [BitVec.toNat_add, toNat_one_shiftLeft hi]
  refine Nat.mod_eq_of_lt ?_
  -- there is no carry out of the word
  have hcarry := digit_add_pow_of_ne h (Nat.ne_of_lt hi)
  have hpow : 16 ^ i < 16 ^ 8 := Nat.pow_lt_pow_right (by decide) hi
  have hw := w.isLt
  simp only [digit] at hcarry
  omega

theorem toNat_sub_one_shiftLeft (hi : i < 8) (h : 0 < digit 16 i w.toNat) :
    (w - 1#32 <<< (i * 4)).toNat = w.toNat - 16 ^ i := by
  have hle := le_of_digit_pos h
  rw [BitVec.toNat_sub_of_le, toNat_one_shiftLeft hi]
  rw [BitVec.le_def, toNat_one_shiftLeft hi]
  exact hle

theorem dec_iff : 1#32 < ((w >>> (i * 4)) + 1#32) &&& 0xf#32 ↔
    0 < digit 16 i w.toNat ∧ digit 16 i w.toNat < 15 := by
  have hmask : (0xf#32).toNat = 2 ^ 4 - 1 := rfl
  have hone : (1#32).toNat = 1 := rfl
  rw [BitVec.lt_def, BitVec.toNat_and, BitVec.toNat_add, BitVec.toNat_ushiftRight, hmask, hone,
    Nat.and_two_pow_sub_one_eq_mod, Nat.shiftRight_eq_div_pow, two_pow_mul_four, digit]
  omega

theorem query_iff (hi : i < 8) : w &&& (0xf#32 <<< (i * 4)) ≠ 0#32 ↔ 0 < digit 16 i w.toNat := by
  have hshift : w &&& (0xf#32 <<< (i * 4)) = ((w >>> (i * 4)) &&& 0xf#32) <<< (i * 4) := by
    ext j hj
    simp only [BitVec.getElem_and, BitVec.getElem_shiftLeft, BitVec.getElem_ushiftRight]
    by_cases hlt : j < i * 4
    · simp [hlt]
    · have hadd : i * 4 + (j - i * 4) = j := by omega
      simp [hlt, hadd, BitVec.getLsbD_eq_getElem hj]
  have hpow : 16 ^ i ≤ 16 ^ 7 := Nat.pow_le_pow_right (by decide) (by omega)
  have hdigit : digit 16 i w.toNat < 16 := Nat.mod_lt _ (by decide)
  have hnat : (((w >>> (i * 4)) &&& 0xf#32) <<< (i * 4)).toNat = digit 16 i w.toNat * 16 ^ i := by
    rw [BitVec.toNat_shiftLeft, toNat_field, Nat.shiftLeft_eq, two_pow_mul_four]
    refine Nat.mod_eq_of_lt ?_
    calc digit 16 i w.toNat * 16 ^ i ≤ 15 * 16 ^ 7 := Nat.mul_le_mul (by omega) hpow
      _ < 2 ^ 32 := by decide
  rw [hshift, Ne, ← BitVec.toNat_inj, hnat, Nat.pos_iff_ne_zero]
  simp

theorem counter_update {v : Word} {c : ℕ} (hself : digit 16 (slot.val % 8) v.toNat = c)
    (hother : ∀ j : ℕ, slot.val % 8 ≠ j → digit 16 j v.toNat = digit 16 j (f (limb slot)).toNat) :
    counter (Function.update f (limb slot) v) slot' = if slot' = slot then c else counter f slot' := by
  by_cases hlimb : limb slot' = limb slot
  · rw [counter, hlimb, Function.update_self]
    by_cases hslot : slot' = slot
    · rw [if_pos hslot, hslot, hself]
    · rw [if_neg hslot, counter, hlimb]
      refine hother _ fun heq => hslot ?_
      have hval := congrArg Fin.val hlimb
      simp only [limb] at hval
      exact Fin.ext (by omega)
  · rw [counter, Function.update_of_ne hlimb, if_neg (fun h => hlimb (by rw [h]))]
    rfl

theorem counter_filterInc : counter (filterInc f slot).1 slot' =
    if slot' = slot then stickyInc 15 (counter f slot) else counter f slot' := by
  have hfield : (f (limb slot) >>> offs slot) &&& 0xf#32 < 0xf#32 ↔ counter f slot < 15 := by
    rw [BitVec.lt_def, offs, toNat_field]
    rfl
  simp only [filterInc, hfield, stickyInc]
  by_cases hlt : counter f slot < 15
  · have hfits : counter f slot + 1 < 16 := by omega
    have hnat := toNat_add_one_shiftLeft (Nat.mod_lt slot.val (by decide)) hfits
    rw [if_pos hlt, if_pos hlt]
    refine counter_update ?_ fun j hj => ?_
    · rw [offs, hnat]
      exact digit_add_pow_self hfits
    · rw [offs, hnat]
      exact digit_add_pow_of_ne hfits hj
  · rw [if_neg hlt, if_neg hlt]
    split
    · next h => rw [h]
    · rfl

theorem counter_filterDec : counter (filterDec f slot) slot' =
    if slot' = slot then stickyDec 15 (counter f slot) else counter f slot' := by
  have hfield : 1#32 < ((f (limb slot) >>> offs slot) + 1#32) &&& 0xf#32 ↔
      0 < counter f slot ∧ counter f slot < 15 := dec_iff
  simp only [filterDec, hfield, stickyDec]
  by_cases hdec : 0 < counter f slot ∧ counter f slot < 15
  · have hnat := toNat_sub_one_shiftLeft (Nat.mod_lt slot.val (by decide)) hdec.1
    rw [if_pos hdec, if_pos hdec]
    refine counter_update ?_ fun j hj => ?_
    · rw [offs, hnat]
      exact Nat.eq_sub_of_add_eq (digit_sub_pow_self hdec.1 (by decide))
    · rw [offs, hnat]
      exact digit_sub_pow_of_ne hdec.1 (by decide) hj
  · rw [if_neg hdec, if_neg hdec]
    split
    · next h => rw [h]
    · rfl

end Words

def counters : StickyCounters Filter Slot 15 where
  read := counter
  inc f slot := (filterInc f slot).1
  dec := filterDec
  read_inc _ _ _ := counter_filterInc
  read_dec _ _ _ := counter_filterDec

abbrev Pair := ℕ × Word

variable (salt : ℕ → Word)

def slotsOf (p : Pair) : List Slot := getSlots (intHash p.2 ^^^ salt p.1)

def pairs (mask : Word) (labels : List Word) : List Pair :=
  labels.flatMap fun label => (bits mask).map fun bit => (bit, label)

variable {salt} {f : Filter} {mask : Word} {labels : List Word} {L : Multiset Pair} {p : Pair}

theorem filterQuery_slotsOf : filterQuery f (slotsOf salt p) = counters.query (slotsOf salt) f p := by
  have hfold : ∀ (slots : List Slot) (b : Bool), slots.foldl (fun ret slot =>
      ret && (f (limb slot) &&& (0xf#32 <<< offs slot)) != 0#32) b =
        (b && slots.all fun slot => decide (0 < counter f slot)) := by
    intro slots
    induction slots with
    | nil => simp
    | cons slot slots ih =>
      intro b
      have hq : ((f (limb slot) &&& (0xf#32 <<< offs slot)) != 0#32) = decide (0 < counter f slot) := by
        rw [Bool.eq_iff_iff, bne_iff_ne, decide_eq_true_iff]
        exact query_iff (Nat.mod_lt _ (by decide))
      rw [List.foldl_cons, ih, List.all_cons, hq, Bool.and_assoc]
  rw [filterQuery, hfold, Bool.true_and]
  rfl

theorem addLabels_eq : addLabels salt mask labels f = (pairs mask labels).foldl (counters.add (slotsOf salt)) f := by
  simp only [addLabels, pairs, List.foldl_flatMap, List.foldl_map]
  rfl

theorem counts_addLabels (h : Counts counters (slotsOf salt) f L) :
    Counts counters (slotsOf salt) (addLabels salt mask labels f) (↑(pairs mask labels) + L) := by
  rw [addLabels_eq]
  induction pairs mask labels generalizing f L with
  | nil => simpa using h
  | cons p ps ih =>
    rw [List.foldl_cons, ← Multiset.cons_coe, Multiset.cons_add, ← Multiset.add_cons]
    exact ih h.add

theorem counts_rmLabels {n : ℕ} (h : Counts counters (slotsOf salt) f (↑(pairs mask labels) + L)) :
    Counts counters (slotsOf salt) (rmLabels salt mask labels (f, n)).1 L ∧
      (rmLabels salt mask labels (f, n)).2 = n + (pairs mask labels).length := by
  have hloop : rmLabels salt mask labels (f, n) = (pairs mask labels).foldl (fun t p =>
      if filterQuery t.1 (slotsOf salt p) then (counters.remove (slotsOf salt) t.1 p, t.2 + 1) else t)
      (f, n) := by
    simp only [rmLabels, pairs, List.foldl_flatMap, List.foldl_map]
    rfl
  rw [hloop]
  clear hloop
  generalize pairs mask labels = ps at h ⊢
  induction ps generalizing f n with
  | nil => exact ⟨by simpa using h, rfl⟩
  | cons p ps ih =>
    rw [← Multiset.cons_coe, Multiset.cons_add] at h
    have hquery := h.query (by decide) (Multiset.mem_cons_self p _)
    rw [List.foldl_cons, filterQuery_slotsOf, if_pos hquery]
    obtain ⟨hcounts, hlen⟩ := ih (n := n + 1) h.remove
    refine ⟨hcounts, ?_⟩
    rw [hlen, List.length_cons]
    omega

theorem length_pairs (mask : Word) (labels : List Word) :
    (pairs mask labels).length = labels.length * (bits mask).length := by
  simp [pairs, List.length_flatMap]

theorem filterPass_of_mem {filter : Filter} {maskp : Word} (h : Counts counters (slotsOf salt) filter L)
    (hp : p ∈ L) (hbit : maskp.getLsbD p.1 = true) :
    filterPass salt (some filter) maskp (intHash p.2) = true := by
  rw [filterPass, List.any_eq_true]
  refine ⟨p.1, ?_, ?_⟩
  · rw [bits, List.mem_filter, List.mem_range]
    exact ⟨BitVec.lt_of_getLsbD hbit, hbit⟩
  · have hquery := h.query (by decide) hp
    rwa [← filterQuery_slotsOf] at hquery

structure Ledger where
  srv : State
  live : ℕ → Multiset Pair

namespace Ledger

def init : Ledger := ⟨.init, fun _ => 0⟩

def isClient (l : Ledger) (sender : Tid) : Bool := (l.srv.client (pidof sender)).isSome

def account (l : Ledger) : Update → ℕ → Multiset Pair
  | .setmask .. => l.live
  | .addFilter sender mask labels _ =>
    if l.isClient sender then
      Function.update l.live (pidof sender) (↑(pairs mask labels) + l.live (pidof sender))
    else l.live
  | .rmFilter sender mask labels =>
    if l.isClient sender then
      Function.update l.live (pidof sender) (l.live (pidof sender) - ↑(pairs mask labels))
    else l.live

variable (salt)

def exec (l : Ledger) (u : Update) : Option Ledger :=
  (Sysmsg.exec salt l.srv u).map fun srv => ⟨srv, l.account u⟩

variable {salt}

def Matched (l : Ledger) : Update → Prop
  | .rmFilter sender mask labels => l.isClient sender → ↑(pairs mask labels) ≤ l.live (pidof sender)
  | _ => True

/-- A filter that is needed can be allocated, and `n_filters` does not overflow. -/
def Fits (l : Ledger) : Update → Prop
  | .addFilter sender mask labels calloc => ∀ c ∈ l.srv.client (pidof sender),
      (c.filter.isSome ∨ calloc = true) ∧ c.nFilters + labels.length * (bits mask).length < 2 ^ 31
  | _ => True

instance (l : Ledger) : (u : Update) → Decidable (l.Matched u)
  | .rmFilter .. => inferInstanceAs (Decidable (_ → _))
  | .setmask .. | .addFilter .. => inferInstanceAs (Decidable True)

instance (l : Ledger) : (u : Update) → Decidable (l.Fits u)
  | .addFilter .. => inferInstanceAs (Decidable (∀ c ∈ _, _))
  | .setmask .. | .rmFilter .. => inferInstanceAs (Decidable True)

end Ledger

variable (salt)

/-- What is promised: a pair that was added and not removed passes under every mask with its bit,
    and no assertion fails in a call that is matched. -/
structure NoFalseNegatives (l : Ledger) : Prop where
  passes : ∀ pid c, l.srv.client pid = some c → ∀ p ∈ l.live pid, ∀ maskp : Word,
    maskp.getLsbD p.1 = true → filterPass salt c.filter maskp (intHash p.2) = true
  asserts : ∀ u, l.Matched u → (l.exec salt u).isSome

structure Sound (c : Client) (L : Multiset Pair) : Prop where
  number : c.nFilters = L.card
  bounded : L.card < 2 ^ 31
  absent : c.filter = none → L = 0
  counts : ∀ filter, c.filter = some filter → Counts counters (slotsOf salt) filter L

structure Ledger.Inv (l : Ledger) : Prop where
  sound : ∀ pid c, l.srv.client pid = some c → Sound salt c (l.live pid)
  unknown : ∀ pid, l.srv.client pid = none → l.live pid = 0

variable {salt} {s t : State} {c : Client} {l l' : Ledger} {u : Update} {sender : Tid}

theorem counts_zero : Counts counters (slotsOf salt) (fun _ => 0) 0 := by
  intro i
  have hload : load (slotsOf salt) 0 i = 0 := rfl
  refine .inr ⟨?_, by rw [hload]; decide⟩
  simp [counters, counter, digit, hload]

theorem Sound.congr {c' : Client} (h : Sound salt c L) (hfilter : c'.filter = c.filter)
    (hn : c'.nFilters = c.nFilters) : Sound salt c' L :=
  ⟨hn.trans h.number, h.bounded, fun hnone => h.absent (hfilter.symm.trans hnone),
    fun f hf => h.counts f (hfilter.symm.trans hf)⟩

theorem Sound.passes {maskp : Word} (h : Sound salt c L) (hp : p ∈ L) (hbit : maskp.getLsbD p.1 = true) :
    filterPass salt c.filter maskp (intHash p.2) = true := by
  cases hf : c.filter with
  | none => rfl
  | some filter => exact filterPass_of_mem (h.counts filter hf) hp hbit

theorem setmask_client (s : State) (sender : Tid) (or and : Word) (pid : ℕ) :
    (setmask s sender or and).1.client pid = s.client pid ∨ pid = pidof sender ∧
      ∃ c, (setmask s sender or and).1.client pid = some c ∧
        ((∃ c', s.client pid = some c' ∧ c.filter = c'.filter ∧ c.nFilters = c'.nFilters) ∨
          s.client pid = none ∧ c.filter = none ∧ c.nFilters = 0) := by
  have hput : ∀ c, (setmaskOf s (pidof sender) c or and).client pid = s.client pid ∨ pid = pidof sender ∧
      ∃ c', (setmaskOf s (pidof sender) c or and).client pid = some c' ∧ c'.filter = c.filter ∧
        c'.nFilters = c.nFilters := by
    intro c
    by_cases hpid : pid = pidof sender
    · subst hpid
      exact .inr ⟨rfl, _, Function.update_self .., rfl, rfl⟩
    · exact .inl (Function.update_of_ne hpid ..)
  simp only [setmask]
  split
  · next hnone =>
    split
    · exact .inl rfl
    · rcases hput ⟨sender, 0, 0, 0, none, []⟩ with hsame | ⟨rfl, c', hc', hf, hn⟩
      · exact .inl hsame
      · exact .inr ⟨rfl, c', hc', .inr ⟨hnone, hf, hn⟩⟩
  · next c hc =>
    rcases hput c with hsame | ⟨rfl, c', hc', hf, hn⟩
    · exact .inl hsame
    · exact .inr ⟨rfl, c', hc', .inl ⟨c, hc, hf, hn⟩⟩

theorem Ledger.Inv.setmask {or and : Word} (h : l.Inv salt) :
    Ledger.Inv salt ⟨(Sysmsg.setmask l.srv sender or and).1, l.live⟩ := by
  constructor
  case sound =>
    intro pid c hc
    rcases setmask_client l.srv sender or and pid with hsame | ⟨-, c', hc', hold⟩
    · exact h.sound pid c (hsame.symm.trans hc)
    · obtain rfl : c = c' := Option.some.inj (hc.symm.trans hc')
      rcases hold with ⟨c₀, hc₀, hf, hn⟩ | ⟨hnone, hf, hn⟩
      · exact (h.sound pid c₀ hc₀).congr hf hn
      · have hzero := h.unknown pid hnone
        refine ⟨?_, ?_, fun _ => hzero, fun f hf' => ?_⟩
        · rw [hn, hzero]
          rfl
        · rw [hzero]
          decide
        · cases hf.symm.trans hf'
  case unknown =>
    intro pid hnone
    rcases setmask_client l.srv sender or and pid with hsame | ⟨-, c', hc', -⟩
    · exact h.unknown pid (hsame.symm.trans hnone)
    · cases hnone.symm.trans hc'

theorem Ledger.Inv.put {pid : ℕ} (h : l.Inv salt) (hc : Sound salt c L) :
    Ledger.Inv salt ⟨l.srv.put pid c, Function.update l.live pid L⟩ := by
  constructor
  case sound =>
    intro pid' c' hc'
    by_cases hpid : pid' = pid
    · subst hpid
      simp only [State.put, Function.update_self, Option.some.injEq] at hc' ⊢
      exact hc' ▸ hc
    · simp only [State.put, Function.update_of_ne hpid] at hc' ⊢
      exact h.sound pid' c' hc'
  case unknown =>
    intro pid' hnone
    by_cases hpid : pid' = pid
    · subst hpid
      simp [State.put] at hnone
    · simp only [State.put, Function.update_of_ne hpid] at hnone ⊢
      exact h.unknown pid' hnone

theorem wrap_of_lt {n : ℤ} (h0 : 0 ≤ n) (h : n < 2 ^ 31) : wrap n = n := by
  rw [wrap, Int.bmod_eq_of_le] <;> omega

theorem Sound.added {filter : Filter} {c' : Client} (h : Sound salt c L) (hcounts : Counts counters (slotsOf salt) filter L)
    (hfits : c.nFilters + labels.length * (bits mask).length < 2 ^ 31)
    (hfilter : c'.filter = some (addLabels salt mask labels filter))
    (hn : c'.nFilters = wrap (c.nFilters + labels.length * (bits mask).length)) :
    Sound salt c' (↑(pairs mask labels) + L) := by
  have hcard : c.nFilters + labels.length * (bits mask).length = (↑(pairs mask labels) + L).card := by
    rw [h.number, Multiset.card_add, Multiset.coe_card, length_pairs]
    push_cast
    ring
  rw [hcard] at hfits hn
  refine ⟨?_, by exact_mod_cast hfits, fun hnone => ?_, fun f hf => ?_⟩
  · rw [hn, wrap_of_lt (Int.natCast_nonneg _) hfits]
  · cases hfilter.symm.trans hnone
  · obtain rfl : addLabels salt mask labels filter = f := Option.some.inj (hfilter.symm.trans hf)
    exact counts_addLabels hcounts

theorem Ledger.Inv.addFilter {calloc : Bool} (h : l.Inv salt)
    (hfits : l.Fits (.addFilter sender mask labels calloc))
    (he : l.exec salt (.addFilter sender mask labels calloc) = some l') : l'.Inv salt := by
  obtain ⟨srv, hsrv, rfl⟩ := Option.map_eq_some_iff.mp he
  simp only [Sysmsg.exec, Sysmsg.addFilter] at hsrv
  cases hc : l.srv.client (pidof sender) with
  | none =>
    rw [hc] at hsrv
    cases hsrv
    simpa [account, isClient, hc] using h
  | some c =>
    have hsound := h.sound _ c hc
    obtain ⟨halloc, hroom⟩ := hfits c hc
    rw [hc] at hsrv
    simp only [account, isClient, hc, Option.isSome_some, if_true]
    cases hf : c.filter with
    | some filter =>
      simp only [hf, Option.some.injEq] at hsrv
      subst hsrv
      exact h.put (hsound.added (hsound.counts filter hf) hroom rfl rfl)
    | none =>
      have hzero := hsound.absent hf
      obtain rfl : calloc = true := by
        rw [hf] at halloc
        simpa using halloc
      simp only [hf] at hsrv
      split at hsrv
      · cases hsrv
      simp only [if_true, Option.some.injEq] at hsrv
      subst hsrv
      refine h.put (hsound.added ?_ hroom rfl rfl)
      rw [hzero]
      exact counts_zero

theorem Sound.removed {filter : Filter} (h : Sound salt c L) (hfilter : c.filter = some filter)
    (hle : ↑(pairs mask labels) ≤ L) :
    Counts counters (slotsOf salt) (rmLabels salt mask labels (filter, 0)).1 (L - ↑(pairs mask labels)) ∧
      c.nFilters - (rmLabels salt mask labels (filter, 0)).2 = (L - ↑(pairs mask labels)).card := by
  obtain ⟨L', rfl⟩ := Multiset.le_iff_exists_add.mp hle
  obtain ⟨hcounts, hlen⟩ := counts_rmLabels (n := 0) (h.counts filter hfilter)
  rw [add_tsub_cancel_left]
  refine ⟨hcounts, ?_⟩
  rw [hlen, h.number, Multiset.card_add, Multiset.coe_card]
  push_cast
  ring

theorem Ledger.Inv.rmFilter (h : l.Inv salt)
    (hmatched : l.Matched (.rmFilter sender mask labels))
    (he : l.exec salt (.rmFilter sender mask labels) = some l') : l'.Inv salt := by
  obtain ⟨srv, hsrv, rfl⟩ := Option.map_eq_some_iff.mp he
  simp only [Sysmsg.exec, Sysmsg.rmFilter] at hsrv
  cases hc : l.srv.client (pidof sender) with
  | none =>
    rw [hc] at hsrv
    cases hsrv
    simpa [account, isClient, hc] using h
  | some c =>
    have hsound := h.sound _ c hc
    have hle := hmatched (by rw [isClient, hc]; rfl)
    rw [hc] at hsrv
    simp only [account, isClient, hc, Option.isSome_some, if_true]
    cases hf : c.filter with
    | none =>
      simp only [hf, Option.some.injEq] at hsrv
      subst hsrv
      have hzero := hsound.absent hf
      have hsame : Function.update l.live (pidof sender) (l.live (pidof sender) - ↑(pairs mask labels)) = l.live := by
        rw [hzero, zero_tsub, ← hzero, Function.update_eq_self]
      rw [hsame]
      exact h
    | some filter =>
      obtain ⟨hcounts, hn⟩ := hsound.removed hf hle
      simp only [hf] at hsrv
      split at hsrv
      · cases hsrv
        have hlt : (l.live (pidof sender) - ↑(pairs mask labels)).card < 2 ^ 31 :=
          Nat.lt_of_le_of_lt (Multiset.card_le_card tsub_le_self) hsound.bounded
        rw [hn, wrap_of_lt (Int.natCast_nonneg _) (by exact_mod_cast hlt)]
        refine h.put ⟨rfl, hlt, fun hnone => ?_, fun f hf' => ?_⟩
        · simpa using hnone
        · split at hf'
          · cases hf'
          · cases hf'
            exact hcounts
      · cases hsrv

theorem Ledger.Inv.isSome_exec (h : l.Inv salt) (hmatched : l.Matched u) : (l.exec salt u).isSome := by
  rw [exec, Option.isSome_map]
  cases u with
  | setmask sender or and => rfl
  | addFilter sender mask labels calloc =>
    simp only [Sysmsg.exec, Sysmsg.addFilter]
    cases hc : l.srv.client (pidof sender) with
    | none => rfl
    | some c =>
      have hsound := h.sound _ c hc
      cases hf : c.filter with
      | some filter => simp [hf]
      | none =>
        have hn : c.nFilters = 0 := by
          rw [hsound.number, hsound.absent hf]
          rfl
        cases calloc <;> simp [hf, hn]
  | rmFilter sender mask labels =>
    simp only [Sysmsg.exec, Sysmsg.rmFilter]
    cases hc : l.srv.client (pidof sender) with
    | none => rfl
    | some c =>
      have hle := hmatched (by rw [isClient, hc]; rfl)
      cases hf : c.filter with
      | none => simp [hf]
      | some filter =>
        obtain ⟨-, hn⟩ := (h.sound _ c hc).removed hf hle
        have hpos : ((rmLabels salt mask labels (filter, 0)).2 : ℤ) ≤ c.nFilters := by omega
        simp [hf, hpos]

theorem Ledger.Inv.exec (h : l.Inv salt) (hok : l.Matched u ∧ l.Fits u) (he : l.exec salt u = some l') :
    l'.Inv salt := by
  cases u with
  | setmask sender or and =>
    cases he
    exact h.setmask
  | addFilter sender mask labels calloc => exact h.addFilter hok.2 he
  | rmFilter sender mask labels => exact h.rmFilter hok.1 he

theorem Ledger.Inv.init : Ledger.init.Inv salt :=
  ⟨nofun, fun _ _ => rfl⟩

/-- **No false negatives**, over every sequence of calls by any clients, with any masks and labels,
    in which removals match earlier adds: every pair that is in passes the filter, and the
    assertions hold. Filters can be allocated, and `n_filters` does not overflow. -/
theorem no_false_negatives {us : List Update}
    (h : Run (Ledger.exec salt) (fun l u => l.Matched u ∧ l.Fits u) Ledger.init us l) :
    NoFalseNegatives salt l := by
  have hinv := Run.invariant (I := fun l => l.Inv salt) (fun _ _ _ hok he hi => hi.exec hok he) h .init
  exact ⟨fun pid c hc p hp maskp hbit => (hinv.sound pid c hc).passes hp hbit,
    fun u hu => hinv.isSome_exec hu⟩

/-- What `main` makes the salt of: siphash, applied to its own result over and over. -/
def filterSalt (bit : ℕ) : Word :=
  [0x78fd78aa#32, 0x2b4ac5fb#32, 0x837db285#32, 0x24d74edf#32, 0x30032e0a#32, 0x4ce35dcd#32, 0xc1962924#32,
    0x9ca77257#32, 0xb3ba9b83#32, 0xcaa46155#32, 0x92efbc96#32, 0x45f6eccc#32, 0x5493273e#32, 0x90a6efc6#32,
    0xf273a024#32, 0x622926aa#32, 0x28a30e14#32, 0x30a9f423#32, 0xe2ff8ab5#32, 0xda0f32bc#32, 0x665b7de4#32,
    0x02e80471#32, 0xe3040d5c#32, 0x6e77fe10#32, 0x88fdb988#32, 0x6c0646cc#32, 0x23fbd401#32, 0x62bbc3d9#32,
    0x12ab0d6e#32, 0x040b4fbf#32, 0xcb2f6fb4#32, 0x24e1fbb2#32].getD bit 0

def listener : Tid := ⟨70, 14⟩

def twoLabels : List Update :=
  [.setmask listener 3 (~~~0), .addFilter listener 3 [5, 7] true, .rmFilter listener 1 [5]]

theorem no_false_negatives_twoLabels : ∃ l, Run (Ledger.exec filterSalt)
    (fun l u => l.Matched u ∧ l.Fits u) Ledger.init twoLabels l ∧
      l.live (pidof listener) = {(1, 5), (0, 7), (1, 7)} ∧ NoFalseNegatives filterSalt l := by
  obtain ⟨l, hrun, hl⟩ := Run.exists_of_evalRun (Ledger.exec filterSalt)
    (fun l u => l.Matched u ∧ l.Fits u) Ledger.init twoLabels (fun l => l.live (pidof listener))
    {(1, 5), (0, 7), (1, 7)} (by decide +kernel)
  exact ⟨l, hrun, hl, no_false_negatives hrun⟩

theorem addFilter_of_calloc (salt : ℕ → Word) (mask : Word) (labels : List Word)
    (hc : s.client (pidof sender) = some c) (hnone : c.filter = none → c.nFilters = 0) :
    ∃ c', addFilter salt s sender mask labels true = some (s.put (pidof sender) c') ∧ c'.filter.isSome ∧
      c'.nFilters = wrap (c.nFilters + labels.length * (bits mask).length) := by
  simp only [addFilter, hc]
  cases hf : c.filter with
  | none => exact ⟨_, by rw [if_neg (not_not.mpr (hnone hf)), if_pos trivial], rfl, rfl⟩
  | some f => exact ⟨_, rfl, rfl, rfl⟩

theorem run_replicate_add (hp : pairs mask labels = [p]) (n k : ℕ) (hc : l.srv.client (pidof sender) = some c)
    (hnone : c.filter = none → c.nFilters = 0) (hn : c.nFilters = wrap n)
    (hlive : l.live (pidof sender) = Multiset.replicate n p) :
    ∃ l' c', Run (Ledger.exec salt) Ledger.Matched l (List.replicate k (.addFilter sender mask labels true)) l' ∧
      l'.srv.client (pidof sender) = some c' ∧ (c'.filter = none → c'.nFilters = 0) ∧
      c'.nFilters = wrap (n + k : ℕ) ∧ l'.live (pidof sender) = Multiset.replicate (n + k) p := by
  induction k generalizing l n c with
  | zero => exact ⟨l, c, .nil l, hc, hnone, hn, hlive⟩
  | succ k ih =>
    obtain ⟨c₁, hadd, hsome, hn₁⟩ := addFilter_of_calloc salt mask labels hc hnone
    have hexec : l.exec salt (.addFilter sender mask labels true) =
        some ⟨l.srv.put (pidof sender) c₁, l.account (.addFilter sender mask labels true)⟩ := by
      simp only [Ledger.exec, exec, hadd, Option.map_some]
    have hlive₁ : l.account (.addFilter sender mask labels true) (pidof sender) = Multiset.replicate (n + 1) p := by
      simp only [Ledger.account, Ledger.isClient, hc, Option.isSome_some, if_true, Function.update_self, hp, hlive]
      rw [Multiset.replicate_succ]
      rfl
    have hone : (labels.length : ℤ) * (bits mask).length = 1 := by
      have := length_pairs mask labels
      rw [hp] at this
      exact_mod_cast this.symm
    have hn₁' : c₁.nFilters = wrap (n + 1 : ℕ) := by
      rw [hn₁, hone, hn, wrap, wrap, Int.bmod_add_bmod, wrap]
      push_cast
      rfl
    have hnone₁ : c₁.filter = none → c₁.nFilters = 0 := by
      intro hnone
      rw [hnone] at hsome
      cases hsome
    obtain ⟨l', c', hrun, hc', hnone', hn', hlive'⟩ := ih (l := ⟨l.srv.put (pidof sender) c₁, _⟩) (n + 1)
      (Function.update_self ..) hnone₁ hn₁' hlive₁
    have hsum : n + 1 + k = n + (k + 1) := by omega
    exact ⟨l', c', .cons trivial hexec hrun, hc', hnone', hsum ▸ hn', hsum ▸ hlive'⟩

/-- A pair that is added while there is no memory does not pass once there is a filter; and with
    `2 ^ 31` pairs in the assertion fails. -/
theorem lost_pairs :
    (∃ us l, Run (Ledger.exec filterSalt) Ledger.Matched Ledger.init us l ∧
      ¬ ∀ pid c, l.srv.client pid = some c → ∀ p ∈ l.live pid, ∀ maskp : Word, maskp.getLsbD p.1 = true →
        filterPass filterSalt c.filter maskp (intHash p.2) = true) ∧
    ∃ us l u, Run (Ledger.exec filterSalt) Ledger.Matched Ledger.init us l ∧ l.Matched u ∧
      l.exec filterSalt u = none := by
  constructor
  · obtain ⟨l, hrun, hl⟩ := Run.exists_of_evalRun (Ledger.exec filterSalt) Ledger.Matched Ledger.init
      [.setmask listener 1 (~~~0), .addFilter listener 1 [5] false, .addFilter listener 1 [7] true]
      (fun l => (l.live (pidof listener), (l.srv.client (pidof listener)).map fun c =>
        filterPass filterSalt c.filter 1 (intHash 5))) ({(0, 7), (0, 5)}, some false) (by decide +kernel)
    simp only [Prod.mk.injEq] at hl
    refine ⟨_, l, hrun, fun h => ?_⟩
    obtain ⟨c, hc, hpass⟩ := Option.map_eq_some_iff.mp hl.2
    have htrue := h _ c hc (0, 5) (by rw [hl.1]; decide) 1 (by decide)
    rw [hpass] at htrue
    cases htrue
  · obtain ⟨l₀, hrun₀, hl₀⟩ := Run.exists_of_evalRun (Ledger.exec filterSalt) Ledger.Matched Ledger.init
      [.setmask listener 1 (~~~0)]
      (fun l => (l.live (pidof listener), (l.srv.client (pidof listener)).map fun c => c.nFilters)) (0, some 0)
      (by decide +kernel)
    simp only [Prod.mk.injEq] at hl₀
    obtain ⟨c₀, hc₀, hn₀⟩ := Option.map_eq_some_iff.mp hl₀.2
    obtain ⟨l, c, hrun, hc, hnone, hn, hlive⟩ := run_replicate_add (by decide : pairs 1 [5] = [(0, 5)]) 0
      (2 ^ 31) hc₀ (fun _ => hn₀) hn₀ hl₀.1
    have hneg : c.nFilters = -2 ^ 31 := hn.trans (by decide)
    refine ⟨_, l, .rmFilter listener 1 [5], hrun₀.append hrun, fun _ => ?_, ?_⟩
    · rw [hlive]
      exact Multiset.singleton_le.mpr (Multiset.mem_replicate.mpr ⟨by decide, rfl⟩)
    · cases hf : c.filter with
      | none => cases hneg.symm.trans (hnone hf)
      | some f =>
        simp only [Ledger.exec, exec, rmFilter, hc, hf, hneg]
        rw [if_neg (by omega)]
        rfl

end Sneks.Sysmsg
