import Sneks.Vm.Munmap

/-!
# The pages that `cut_anon_mmap` looks at

How many there are depends on how the range lies to the mapping. They are counted from page 0 of the
memory, whatever is cut.
-/

namespace Sneks.Vm
open Lib

namespace LazyMmap

def visits (mm : LazyMmap) (first last : ℕ) : ℕ :=
  let final := wordSub mm.fin 1
  word (wordSub (if last = first then final else min final last) (max mm.addr first) + 1) / pageSize

variable {mm : LazyMmap} {addr fin first last : ℕ}

theorem visits_le : mm.visits first last ≤ 2 ^ 32 :=
  (Nat.div_le_self _ _).trans (Nat.mod_lt _ (by decide)).le

theorem visits_whole (h : mm.Valid) : mm.visits 0 0 = mm.length / pageSize := by
  have hpos := h.pos
  have hlt : mm.addr + mm.length < 2 ^ 32 := h.stop_lt
  have hfin : mm.fin = mm.addr + mm.length := h.fin_eq
  have hfinal : wordSub (mm.addr + mm.length) 1 = mm.addr + mm.length - 1 := wordSub_of_le (by omega) hlt
  rw [visits, if_pos rfl, hfin, hfinal, Nat.max_zero, wordSub_of_le (by omega) (by omega), word_of_lt (by omega),
    show mm.addr + mm.length - 1 - mm.addr + 1 = mm.length by omega]

theorem visits_left (h : mm.Valid) (haddr : addr % pageSize = 0) (hlo : mm.addr < addr) (hhi : addr < mm.stop) :
    (mm.cutTo addr).visits mm.addr (wordSub (mm.cutTo addr).fin 1) = (addr - mm.addr) / pageSize := by
  obtain ⟨hv, hstop⟩ := h.cutTo haddr hlo hhi
  have hlt := h.stop_lt
  have hpage := h.addr_aligned
  have hne : addr - 1 ≠ mm.addr := by
    simp only [pageSize] at *
    omega
  have hself : (mm.cutTo addr).addr = mm.addr := rfl
  have hlast : wordSub addr 1 = addr - 1 := wordSub_of_le (by omega) (by omega)
  rw [visits, hv.fin_eq, hstop, hlast, if_neg hne, hself, Nat.min_self, Nat.max_self, wordSub_of_le (by omega) (by omega),
    word_of_lt (by omega), show addr - 1 - mm.addr + 1 = addr - mm.addr by omega]

theorem visits_middle (h : mm.Valid) (haddr : addr % pageSize = 0) (hfin : fin % pageSize = 0) (hlo : mm.addr < addr)
    (hle : addr ≤ fin) (hhi : fin < mm.stop) :
    (mm.cutTo addr).visits (mm.cutTo addr).fin (wordSub fin 1) = 0 := by
  obtain ⟨hv, hstop⟩ := h.cutTo haddr hlo (Nat.lt_of_le_of_lt hle hhi)
  have hlt := h.stop_lt
  have hne : fin - 1 ≠ addr := by
    simp only [pageSize] at *
    omega
  have hself : (mm.cutTo addr).addr = mm.addr := rfl
  have hwrap : word (wordSub (addr - 1) addr + 1) = 0 := by
    simp only [word, wordSub]
    omega
  have hfinal : wordSub addr 1 = addr - 1 := wordSub_of_le (by omega) (by omega)
  have hlast : wordSub fin 1 = fin - 1 := wordSub_of_le (by omega) (by omega)
  rw [visits, hv.fin_eq, hstop, hfinal, hlast, if_neg hne, hself, Nat.min_eq_left (by omega), Nat.max_eq_right hlo.le,
    hwrap, Nat.zero_div]

theorem visits_right (h : mm.Valid) (haddr : addr % pageSize = 0) (hle : addr ≤ mm.addr) :
    mm.visits mm.addr (wordSub addr 1) = if addr = 0 then mm.length / pageSize else wordSub addr mm.addr / pageSize := by
  have hpos := h.pos
  have hlt : mm.addr + mm.length < 2 ^ 32 := h.stop_lt
  have hfin : mm.fin = mm.addr + mm.length := h.fin_eq
  have hpage := h.addr_aligned
  have hne : wordSub addr 1 ≠ mm.addr := by
    simp only [wordSub, word, pageSize] at *
    omega
  have hfinal : wordSub (mm.addr + mm.length) 1 = mm.addr + mm.length - 1 := wordSub_of_le (by omega) hlt
  rw [visits, if_neg hne, hfin, hfinal, Nat.max_self]
  split
  · next hzero =>
    have hlast : wordSub addr 1 = 2 ^ 32 - 1 := by
      rw [hzero]
      rfl
    rw [hlast, Nat.min_eq_left (by omega), wordSub_of_le (by omega) (by omega), word_of_lt (by omega),
      show mm.addr + mm.length - 1 - mm.addr + 1 = mm.length by omega]
  · next hzero =>
    have hlast : wordSub addr 1 = addr - 1 := wordSub_of_le (by omega) (by omega)
    have hcount : word (wordSub (addr - 1) mm.addr + 1) = wordSub addr mm.addr := by
      simp only [wordSub, word]
      omega
    rw [hlast, Nat.min_eq_right (by omega), hcount]

def looks (mm : LazyMmap) (addr fin : ℕ) : ℕ :=
  if addr ≤ mm.addr ∧ mm.stop ≤ fin then mm.length / pageSize
  else if mm.addr < addr ∧ fin < mm.stop then 0
  else if mm.addr < addr then (addr - mm.addr) / pageSize
  else if addr = 0 then mm.length / pageSize
  else wordSub addr mm.addr / pageSize

theorem looks_le (h : mm.Valid) (hover : addr < mm.stop) : mm.looks addr fin ≤ 2 ^ 32 := by
  have hlt := h.stop_lt
  have hstop : mm.stop = mm.addr + mm.length := rfl
  have hdiv (n : ℕ) (hn : n < 2 ^ 32) : n / pageSize ≤ 2 ^ 32 := (Nat.div_le_self _ _).trans hn.le
  unfold looks
  split
  · exact hdiv _ (by omega)
  split
  · exact Nat.zero_le _
  split
  · exact hdiv _ (by omega)
  split
  · exact hdiv _ (by omega)
  · exact hdiv _ (Nat.mod_lt _ (by decide))

end LazyMmap

variable {cfg : Config} {s t : State} {i first last : ℕ}

theorem State.cutAnonMmap_eq (cfg : Config) (s : State) (i first last : ℕ) : s.cutAnonMmap cfg i first last =
    (cfg.assert ((s.mm i).isAnonMmap = true)).bind fun _ =>
      ((List.range ((s.mm i).visits first last)).foldlM
        (fun m page => s.cutPage cfg i (max (s.mm i).addr first) page m) s.mem).bind fun m =>
          some { s with mem := m.flushPlbuf } := rfl

end Sneks.Vm
