import Sneks.Vm.Munmap

/-!
# The first mapping in a range

`first_lazy_mmap` goes down the tree to the start of the range. Where it meets nothing the last node
lies next to the start, on either side; from one on the left it does not find what is in the range.
-/

namespace Sneks.Vm
open Lib

def LazyMmap.Overlaps (mm : LazyMmap) (addr size : ℕ) : Prop := addr < mm.stop ∧ mm.addr < addr + size

instance (mm : LazyMmap) (addr size : ℕ) : Decidable (mm.Overlaps addr size) := inferInstanceAs (Decidable (_ ∧ _))

namespace State

variable {s : State} {pid addr size c i : ℕ} {y : ℕ × Bool}

structure Lowest (s : State) (pid addr size c : ℕ) : Prop where
  mem : c ∈ s.mmaps pid
  overlaps : (s.mm c).Overlaps addr size
  le : ∀ i ∈ s.mmaps pid, (s.mm i).Overlaps addr size → (s.mm c).addr ≤ (s.mm i).addr

/-- `first_lazy_mmap` finds the first overlap, and nothing where there is none. -/
def FindsFirst (s : State) (pid addr size : ℕ) : Prop :=
  (∀ c, s.firstLazyMmap pid addr size = some c ↔ s.Lowest pid addr size c) ∧
    (s.firstLazyMmap pid addr size = none ↔ ∀ i ∈ s.mmaps pid, ¬ (s.mm i).Overlaps addr size)

/-- The way down leads to the first overlap: it ends below the last byte, and covers the start of the
range or has no left child. -/
def WayDown (s : State) (pid addr size : ℕ) : Prop :=
  ∀ c, s.Lowest pid addr size c → (s.mm c).stop < 2 ^ 32 ∧
    ((s.mm c).addr ≤ addr ∨ Leftless (fun y : ℕ × Bool => y.1 = c) (s.spaces pid).maps)

namespace Ranges

theorem addr_lt (h : Ranges s pid) {l r : List ℕ} (hm : s.mmaps pid = l ++ c :: r) :
    (∀ i ∈ l, (s.mm i).stop ≤ (s.mm c).addr) ∧ ∀ i ∈ r, (s.mm c).stop ≤ (s.mm i).addr := by
  have hord := h.ordered
  rw [hm] at hord
  obtain ⟨-, hcr, hlc⟩ := List.pairwise_append.mp hord
  exact ⟨fun i hi => hlc i hi c List.mem_cons_self, (List.pairwise_cons.mp hcr).1⟩

theorem lowest_iff (h : Ranges s pid) : s.Lowest pid addr size c ↔
    ∃ l r, s.mmaps pid = l ++ c :: r ∧ (∀ i ∈ l, (s.mm i).stop ≤ addr) ∧ (s.mm c).Overlaps addr size := by
  constructor
  · intro hc
    obtain ⟨l, r, hm⟩ := List.append_of_mem hc.mem
    refine ⟨l, r, hm, fun i hi => ?_, hc.overlaps⟩
    have him : i ∈ s.mmaps pid := by rw [hm]; exact List.mem_append_left _ hi
    have hle := (h.addr_lt hm).1 i hi
    have hpos := h.pos i him
    have hstop : (s.mm i).stop = (s.mm i).addr + (s.mm i).length := rfl
    by_contra hlt
    have hover : (s.mm i).Overlaps addr size := ⟨Nat.not_le.mp hlt, by have := hc.overlaps.2; omega⟩
    have hge := hc.le i him hover
    omega
  · rintro ⟨l, r, hm, hlow, hover⟩
    refine ⟨by rw [hm]; simp, hover, fun i hi hoi => ?_⟩
    rw [hm, List.mem_append, List.mem_cons] at hi
    obtain hi | rfl | hi := hi
    · exact absurd hoi.1 (Nat.not_lt.mpr (hlow i hi))
    · exact le_rfl
    · have hle := (h.addr_lt hm).2 i hi
      exact (Nat.le_add_right _ _).trans hle

theorem lowest_unique (h : Ranges s pid) (hc : s.Lowest pid addr size c) (hi : s.Lowest pid addr size i) : c = i := by
  obtain ⟨l, r, hm, hlow, hover⟩ := h.lowest_iff.mp hc
  have him := hi.mem
  rw [hm, List.mem_append, List.mem_cons] at him
  obtain him | rfl | him := him
  · exact absurd hi.overlaps.1 (Nat.not_lt.mpr (hlow i him))
  · rfl
  · have hle := (h.addr_lt hm).2 i him
    have hpos := h.pos c hc.mem
    have hstop : (s.mm c).stop = (s.mm c).addr + (s.mm c).length := rfl
    have hge := hi.le c hc.mem hover
    omega

theorem exists_lowest (h : Ranges s pid) (hi : i ∈ s.mmaps pid) (hover : (s.mm i).Overlaps addr size) :
    ∃ c, s.Lowest pid addr size c := by
  obtain ⟨c, hc⟩ := Option.isSome_iff_exists.mp
    (List.find?_isSome.mpr ⟨i, hi, decide_eq_true hover⟩ : ((s.mmaps pid).find? fun i => (s.mm i).Overlaps addr size).isSome)
  obtain ⟨hoc, l, r, hm, hno⟩ := List.find?_eq_some_iff_append.mp hc
  have hoc : (s.mm c).Overlaps addr size := of_decide_eq_true hoc
  refine ⟨c, h.lowest_iff.mpr ⟨l, r, hm, fun j hj => ?_, hoc⟩⟩
  have hnot : ¬ (s.mm j).Overlaps addr size := by simpa using hno j hj
  have hle := (h.addr_lt hm).1 j hj
  have hstop : (s.mm j).stop = (s.mm j).addr + (s.mm j).length := rfl
  by_contra hlt
  exact hnot ⟨Nat.not_le.mp hlt, by have := hoc.2; omega⟩

theorem probe_lowest (h : Ranges s pid) (hc : s.Lowest pid addr size c) (hlt : addr < (s.mm c).addr) :
    (∃ y, probe (s.dirAddr addr) (s.spaces pid).maps = some y ∧ y.1 = c) ∧
        Leftless (fun y : ℕ × Bool => y.1 = c) (s.spaces pid).maps ∨
      (∃ y, probe (s.dirAddr addr) (s.spaces pid).maps = some y ∧ (s.mm y.1).fin ≤ addr) ∧
        ¬ Leftless (fun y : ℕ × Bool => y.1 = c) (s.spaces pid).maps := by
  obtain ⟨l, r, hm, hlow, -⟩ := h.lowest_iff.mp hc
  obtain ⟨left, rest, ht, rfl, hrest⟩ := List.map_eq_append_iff.mp hm
  obtain ⟨x, right, rfl, rfl, rfl⟩ := List.map_eq_cons_iff.mp hrest
  have hafter := (h.addr_lt hm).2
  have hfin : ∀ y ∈ left, (s.mm y.1).addr ≤ addr ∧ (s.mm y.1).fin ≤ addr := fun y hy => by
    have hyl := List.mem_map_of_mem (f := Prod.fst) hy
    have hym : y.1 ∈ s.mmaps pid := by rw [hm]; exact List.mem_append_left _ hyl
    have hle := hlow y.1 hyl
    have hstop : (s.mm y.1).stop = (s.mm y.1).addr + (s.mm y.1).length := rfl
    rw [h.fin_eq_of_le hym hc.mem ((h.addr_lt hm).1 y.1 hyl)]
    omega
  have hnodup := hm ▸ h.nodup
  have hne : ∀ y ∈ left ++ right, y.1 ≠ x.1 := fun y hy he => by
    have hmem : x.1 ∈ left.map Prod.fst ++ right.map Prod.fst := by
      rw [← List.map_append, ← he]
      exact List.mem_map_of_mem hy
    exact (List.nodup_cons.mp (List.perm_middle.nodup_iff.mp hnodup)).1 hmem
  obtain ⟨hprobe, hleft⟩ | ⟨⟨y, hy, hprobe⟩, hleft⟩ := probe_between (p := fun y : ℕ × Bool => y.1 = x.1) ht
    (fun y hy => (s.dirAddr_spec addr y.1 y.2).2.1.mpr (hfin y hy))
    (fun y hy => (s.dirAddr_spec addr y.1 y.2).1.mpr (by
      obtain rfl | hy := List.mem_cons.mp hy
      · exact hlt
      · have hle := hafter y.1 (List.mem_map_of_mem hy)
        have hstop : (s.mm x.1).stop = (s.mm x.1).addr + (s.mm x.1).length := rfl
        omega)) rfl hne
  · exact .inl ⟨⟨x, hprobe, rfl⟩, hleft⟩
  · exact .inr ⟨⟨y, hprobe, (hfin y hy).2⟩, hleft⟩

end Ranges

/-- **Which ranges are searched rightly.** For every tree of ranges and every range that is valid and not
empty, `first_lazy_mmap` finds the first overlap if and only if the way down leads to it. -/
theorem firstLazyMmap_exact_iff (h : Ranges s pid) (hvalid : validAddrSize addr size = true) (hpos : 0 < size)
    (hlt : size < 2 ^ 32) : s.FindsFirst pid addr size ↔ s.WayDown pid addr size := by
  have hend : addr + size < 2 ^ 32 := by
    have hle : addr ≤ 2 ^ 32 - 1 - size := of_decide_eq_true hvalid
    omega
  obtain ⟨y, hy, hle, hnone⟩ | ⟨l, c, r, hm, hlow, hc, hstart, hsome, hy⟩ | ⟨hnone, hno⟩ := h.firstLazyMmap_cases hend
  · -- nothing is found: right just if nothing is in the range
    have hfinds : s.FindsFirst pid addr size ↔ ∀ i ∈ s.mmaps pid, ¬ (s.mm i).Overlaps addr size := by
      refine ⟨fun hf => hf.2.mp hnone, fun hno => ⟨fun c => ?_, iff_of_true hnone hno⟩⟩
      rw [hnone]
      exact iff_of_false nofun fun hc => hno c hc.mem hc.overlaps
    rw [hfinds]
    refine ⟨fun hno c hc => absurd hc.overlaps (hno c hc.mem), fun hr i hi hover => ?_⟩
    obtain ⟨c, hc⟩ := h.exists_lowest hi hover
    obtain ⟨htop, hway⟩ := hr c hc
    have hfin : (s.mm c).fin = (s.mm c).stop := Nat.mod_eq_of_lt htop
    have hover := hc.overlaps.1
    obtain hcov | hcov := Nat.lt_or_ge addr (s.mm c).addr
    · obtain ⟨⟨z, hz, rfl⟩, -⟩ | ⟨-, hleft⟩ := h.probe_lowest hc hcov
      · obtain rfl : y = z := Option.some.inj (hy.symm.trans hz)
        omega
      · exact hleft (hway.resolve_left (Nat.not_le.mpr hcov))
    · obtain ⟨x, hx, rfl⟩ := List.mem_map.mp hc.mem
      obtain ⟨z, hz, heq⟩ := probe_of_eq (h.directed addr) hx
        ((s.dirAddr_spec addr x.1 x.2).2.2.mpr ⟨hcov, hfin ▸ hover⟩)
      obtain rfl : y = z := Option.some.inj (hy.symm.trans hz)
      exact absurd ((s.dirAddr_spec addr y.1 y.2).2.2.mp heq).2 (Nat.not_lt.mpr hle)
  · have hcm : c ∈ s.mmaps pid := by rw [hm]; simp
    have htop : (s.mm c).stop < 2 ^ 32 ∧ (s.mm c).fin = (s.mm c).stop := by
      obtain hfin | ⟨-, hzero⟩ := h.fin_eq hcm
      · exact hfin
      · omega
    have hlowest : s.Lowest pid addr size c := h.lowest_iff.mpr ⟨l, r, hm, hlow, htop.2 ▸ hc, by omega⟩
    refine iff_of_true ⟨fun i => ?_, ?_⟩ fun i hi => ?_
    · rw [hsome, Option.some.injEq]
      exact ⟨fun he => he ▸ hlowest, fun hi => h.lowest_unique hlowest hi⟩
    · rw [hsome]
      exact iff_of_false nofun fun hno => hno c hcm hlowest.overlaps
    · obtain rfl := h.lowest_unique hlowest hi
      refine ⟨htop.1, ?_⟩
      obtain hcov | hcov := Nat.lt_or_ge addr (s.mm c).addr
      · obtain ⟨-, hleft⟩ | ⟨⟨z, hz, hle⟩, -⟩ := h.probe_lowest hlowest hcov
        · exact .inr hleft
        · exact absurd (hy z hz) (Nat.not_lt.mpr hle)
      · exact .inl hcov
  · refine iff_of_true ⟨fun c => ?_, iff_of_true hnone hno⟩ fun c hc => absurd hc.overlaps (hno c hc.mem)
    rw [hnone]
    exact iff_of_false nofun fun hc => hno c hc.mem hc.overlaps

def twoMappings (tree : RbTree) : State :=
  { oneMapping with
    spaces := fun _ => ⟨true, .nil, .nil, .nil, tree, none, 0x1000, 0xc0000000⟩
    mm := fun i => threePages.at (0x10000 + i * 0x10000) 0x1000 }

theorem twoMappings_ranges {tree : RbTree} (ht : tree.mmaps = [0, 1]) : Ranges (twoMappings tree) 1 := by
  have hm : (twoMappings tree).mmaps 1 = [0, 1] := ht
  refine ⟨?_, ?_, ?_⟩
  · rw [hm]
    show ∀ i ∈ [0, 1], 0 < (threePages.at (0x10000 + i * 0x10000) 0x1000).length
    decide
  · rw [hm]
    show ∀ i ∈ [0, 1], (threePages.at (0x10000 + i * 0x10000) 0x1000).stop ≤ 2 ^ 32
    decide
  · rw [hm]
    show [0, 1].Pairwise fun i j => (threePages.at (0x10000 + i * 0x10000) 0x1000).stop ≤
      (threePages.at (0x10000 + j * 0x10000) 0x1000).addr
    decide

/-- The lower one is the root. -/
theorem first_from_below : (twoMappings (leaning [(0, true), (1, true)])).FindsFirst 1 0x18000 0x10000 ↔
    (twoMappings (leaning [(0, true), (1, true)])).WayDown 1 0x18000 0x10000 :=
  firstLazyMmap_exact_iff (twoMappings_ranges rfl) (by decide) (by decide) (by decide)

/-- The upper one is the root, and the way down ends at the lower one. -/
theorem first_from_above : Ranges (twoMappings (.node (1, true) (.node (0, true) .nil .nil) .nil)) 1 ∧
    ¬ (twoMappings (.node (1, true) (.node (0, true) .nil .nil) .nil)).FindsFirst 1 0x18000 0x10000 := by
  refine ⟨twoMappings_ranges rfl, fun h => ?_⟩
  exact h.2.mp (by decide) 1 (by decide) (by decide)

end State

end Sneks.Vm
