import Sneks.Vm.Invariant

/-!
# What stays in the page cache

Removing virtual pages and cutting shared anonymous memory free physical pages: links die, new ones
are made of the free list, and no page of the cache is written to.
-/

namespace Sneks.Vm
open Lib

variable {cfg : Config} {s t : State} {m m' : Mem} {v pid i l : ℕ}

namespace Mem

structure Frees (m m' : Mem) : Prop where
  cache : m'.cache = m.cache
  next : m.nextPl ≤ m'.nextPl
  pl : ∀ l < m.nextPl, m'.pl l = m.pl l ∨ (m'.pl l).live = false
  data : m'.data = m.data

namespace Frees

theorem refl (m : Mem) : m.Frees m := ⟨rfl, Nat.le_refl _, fun _ _ => .inl rfl, rfl⟩

theorem trans {m'' : Mem} (h : m.Frees m') (h' : m'.Frees m'') : m.Frees m'' := by
  refine ⟨h'.cache.trans h.cache, Nat.le_trans h.next h'.next, fun l hl => ?_, h'.data.trans h.data⟩
  obtain he | hdead := h'.pl l (Nat.lt_of_lt_of_le hl h.next)
  · rw [he]
    exact h.pl l hl
  · exact .inr hdead

theorem live (h : m.Frees m') (hl : l < m.nextPl) (hlive : (m'.pl l).live = true) : m'.pl l = m.pl l := by
  obtain he | hdead := h.pl l hl
  · exact he
  · rw [hdead] at hlive
    cases hlive

theorem freePage (m : Mem) (l : ℕ) : m.Frees (m.freePage l) := by
  refine ⟨rfl, Nat.le_succ _, fun k hk => ?_, rfl⟩
  have hpl : (m.freePage l).pl k = Function.update m.pl l { m.pl l with live := false } k :=
    Function.update_of_ne (Nat.ne_of_lt hk) _ _
  rw [hpl]
  by_cases he : k = l
  · rw [he, Function.update_self]
    exact .inr rfl
  · rw [Function.update_of_ne he]
    exact .inl rfl

theorem flushPlbuf (m : Mem) : m.Frees m.flushPlbuf := ⟨rfl, Nat.le_refl _, fun _ _ => .inl rfl, rfl⟩

theorem removeVp (hs : m.removeVp cfg v = some m') : m.Frees m' := by
  obtain ⟨l, -, hs⟩ := Option.bind_eq_some_iff.mp hs
  split at hs
  · obtain ⟨_, -, hs⟩ := Option.bind_eq_some_iff.mp hs
    obtain ⟨_, -, hs⟩ := Option.bind_eq_some_iff.mp hs
    cases hs
    have hfree := freePage { m with
      link := Function.update m.link (m.vp v).status none, owner := Function.update m.owner (m.vp v).status none } l
    exact ⟨hfree.cache, hfree.next, hfree.pl, hfree.data⟩
  · obtain ⟨⟨m1, last⟩, hr, hs⟩ := Option.bind_eq_some_iff.mp hs
    cases hs
    have hshare : m.Frees m1 := by
      rw [rmShare] at hr
      split at hr
      · cases hr
        exact ⟨rfl, Nat.le_refl _, fun _ _ => .inl rfl, rfl⟩
      · obtain ⟨_, -, hr⟩ := Option.bind_eq_some_iff.mp hr
        cases hr
        exact ⟨rfl, Nat.le_refl _, fun _ _ => .inl rfl, rfl⟩
    split
    · exact hshare.trans (freePage m1 l)
    · exact hshare

theorem dropPage (m : Mem) (pid v : ℕ) : m.Frees (m.dropPage pid v) := ⟨rfl, Nat.le_refl _, fun _ _ => .inl rfl, rfl⟩

theorem removeVps {n pos : ℕ} (hs : Mem.removeVps cfg pid n pos m = some m') : m.Frees m' := by
  induction n generalizing pos m with
  | zero =>
    cases hs
    exact .refl _
  | succ n ih =>
    rw [Mem.removeVps] at hs
    split at hs
    · exact ih hs
    · next v m1 hv =>
      obtain ⟨m2, hm2, hs⟩ := Option.bind_eq_some_iff.mp hs
      obtain ⟨-, -, hm1⟩ := popPage_eq_some hv
      rw [show m1 = m.dropPage pid v from hm1] at hm2
      exact (dropPage m pid v).trans ((removeVp hm2).trans (ih hs))

theorem removeVpRange {addr size : ℕ} (hs : m.removeVpRange cfg pid addr size = some m') : m.Frees m' := by
  obtain ⟨m1, hm1, rfl⟩ := Option.map_eq_some_iff.mp hs
  exact (removeVps hm1).trans (flushPlbuf m1)

theorem eraseVps {order : List ℕ} (hs : Mem.eraseVps cfg pid order m = some m') : m.Frees m' := by
  induction order generalizing m with
  | nil =>
    cases hs
    exact .refl _
  | cons v rest ih =>
    obtain ⟨m1, hm1, hs⟩ := Option.bind_eq_some_iff.mp hs
    exact (dropPage m pid v).trans ((removeVp hm1).trans (ih hs))

end Frees

end Mem

theorem State.cutAnonMmap_frees {first last : ℕ} (hs : s.cutAnonMmap cfg i first last = some t) : s.mem.Frees t.mem := by
  obtain ⟨m, rfl, hm⟩ := State.cutAnonMmap_induct (P := s.mem.Frees) (.refl _)
    (fun m l _ h _ _ => h.trans (.freePage m l)) (fun m h => h.trans (.flushPlbuf m)) hs
  exact hm

theorem Edits.frees (h : Edits cfg s t) : s.mem.Frees t.mem := by
  refine h.keeps (P := fun u => s.mem.Frees u.mem) (fun u v he hu => ?_) (.refl _)
  cases he with
  | space | resize | copy | new | table | anonIno => exact hu
  | remove _ _ _ _ hm => exact hu.trans (.removeVpRange hm)
  | cut _ _ _ _ hcut => exact hu.trans (State.cutAnonMmap_frees hcut)

end Sneks.Vm
