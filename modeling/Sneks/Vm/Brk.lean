import Sneks.Vm.Mmap
import Sneks.Vm.Returns

/-!
# The break

`vm_brk` (`sys/vm/vm.c`) maps what is between the old break and a higher new one, and unmaps what is
between a lower new one and the old. When a mapping covers the old break it maps nothing, and when
one starts there and the break stays, its last assertion fails.
-/

namespace Sneks.Vm
open Lib

variable {cfg : Config} {phys : PhysMem} {s₀ s t u v : State} {pid i addr fin a b : ℕ}

namespace State

def Backed (s : State) (pid a : ℕ) : Prop :=
  ∃ i ∈ s.mmaps pid, (s.mm i).Covers a ∧ (s.mm i).anon = true ∧ (s.mm i).priv = true

/-- Of the break `b` and the new one `a`. A break of 0 is none. -/
structure BrkExact (s t : State) (pid b a : ℕ) : Prop where
  grown : b ≠ 0 → ∀ x, b ≤ x → x < a → t.Backed pid x
  shrunk : ∀ x, a ≤ x → x < b → t.resolve pid x = none
  absent : ∀ v ∈ t.mem.pages pid, ¬ (a ≤ (t.mem.vp v).addr ∧ (t.mem.vp v).addr < b)
  kept : ∀ x, x < b ∨ a ≤ x → x < a ∨ b ≤ x → t.resolve pid x = s.resolve pid x
  present : ∀ v ∈ s.mem.pages pid, (s.mem.vp v).addr < b ∨ a ≤ (s.mem.vp v).addr →
    (s.mem.vp v).addr < a ∨ b ≤ (s.mem.vp v).addr → v ∈ t.mem.pages pid ∧ t.mem.vp v = s.mem.vp v

def Unmaps (s : State) (pid addr fin : ℕ) : Prop :=
  Found s pid addr fin ∧ Ends (s.records pid) fin ∧ s.Spared pid addr fin

def GrowFits (s : State) (pid a : ℕ) (malloc : Bool) : Prop :=
  let b := (s.spaces pid).brk
  ((∃ i ∈ s.mmaps pid, (s.mm i).Covers b) → ∀ x, b ≤ x → x < a → s.Backed pid x) ∧
    ((∀ i ∈ s.mmaps pid, ¬ (s.mm i).Covers b) → malloc = true → s.nogo pid b (a - b) = false → s.Taken pid b a →
      s.Unmaps pid b a)

def ShrinkFits (s : State) (pid a : ℕ) : Prop :=
  let b := (s.spaces pid).brk
  (∀ i ∈ s.mmaps pid, ¬ ((s.mm i).addr < a ∧ (s.mm i).stop = b ∧ (s.mm i).anon = true)) →
    s.Unmaps pid a b ∧ (a = b → ∀ i ∈ s.mmaps pid, ¬ (s.mm i).Covers b)

def BrkFits (s : State) (pid a : ℕ) (malloc : Bool) : Prop :=
  (s.spaces pid).brk ≠ 0 →
    ((s.spaces pid).brk < a → s.GrowFits pid a malloc) ∧ (a ≤ (s.spaces pid).brk → s.ShrinkFits pid a)

-- Spaces that are alike

structure Alike (s t : State) : Prop where
  maps : ∀ q, (t.spaces q).maps = (s.spaces q).maps
  mm : ∀ q, ∀ j ∈ s.mmaps q, t.mm j = s.mm j
  table : t.anonMmapTable = s.anonMmapTable
  mem : t.mem = s.mem

namespace Alike

theorem same (h : Alike s t) (pid : ℕ) : SameMaps s t pid := ⟨h.maps pid, h.mm pid⟩

theorem records (h : Alike s t) (pid : ℕ) : t.records pid = s.records pid := by
  rw [State.records, (h.same pid).mmaps]
  exact List.map_congr_left (h.mm pid)

theorem resolve (h : Alike s t) (hs : Mapped s pid) (ht : Mapped t pid) (x : ℕ) : t.resolve pid x = s.resolve pid x := by
  rw [ht.resolve_eq, hs.resolve_eq, h.records]

theorem spared (h : Alike s t) (hs : s.Spared pid addr fin) : t.Spared pid addr fin := by
  intro i hi hstop hlow hanon k hk l hl hat
  rw [(h.same pid).mmaps] at hi
  rw [h.mm pid i hi] at hstop hlow hanon hk hat
  rw [h.mem] at hl hat ⊢
  refine (hs i hi hstop hlow hanon k hk l hl hat).imp_left fun ⟨q, j, hj, htable, hleft, hino, hover⟩ => ?_
  refine ⟨q, j, (h.same q).mmaps ▸ hj, h.table ▸ htable, ?_⟩
  rw [h.mm q j hj, h.mm pid i hi]
  exact ⟨hleft, hino, hover⟩

theorem unmaps (h : Alike s t) (hs : s.Unmaps pid addr fin) : t.Unmaps pid addr fin :=
  ⟨(h.same pid).found.mpr hs.1, h.records pid ▸ hs.2.1, h.spared hs.2.2⟩

theorem findLazyMmap (s : State) (pid addr : ℕ) : Alike s (s.findLazyMmap pid addr).2 := by
  obtain he | ⟨i, he⟩ := findLazyMmap_cases s pid addr
  · rw [he]
    exact ⟨fun _ => rfl, fun _ _ _ => rfl, rfl, rfl⟩
  · rw [he]
    refine ⟨fun q => ?_, fun _ _ _ => rfl, rfl, rfl⟩
    show ((s.setLast pid (some i)).spaces q).maps = _
    rw [setLast, setSpace_spaces]
    split
    · next hq => rw [hq]
    · rfl

end Alike

-- Shrinking

theorem Mapped.resolve_eq_some {x : ℕ} {k : Backing} (h : Mapped s pid) :
    s.resolve pid x = some k ↔ ∃ i ∈ s.mmaps pid, (s.mm i).Covers x ∧ (s.mm i).backing x = k := by
  rw [h.resolve_eq, h.inOrder.resolveIn_eq_some, State.records]
  simp only [List.mem_map, exists_exists_and_eq_and]

theorem Exact.brk (h : Exact s t pid a b) (hle : a ≤ b) : BrkExact s t pid b a where
  grown _ x hlo hhi := absurd (Nat.lt_of_le_of_lt hlo hhi) (Nat.not_lt.mpr hle)
  shrunk := h.unmapped
  absent := h.absent
  kept x h1 h2 := h.kept x (by omega)
  present v hv h1 h2 := h.present v hv (by omega)

theorem shorten_exact {m : Mem} (h : Layout s) (hpaged : Paged s.mem pid) (ha : a % pageSize = 0) (hb : b % pageSize = 0)
    (hle : a ≤ b) (hlt : b < 2 ^ 32) (hi : i ∈ s.mmaps pid) (hlow : (s.mm i).addr < a) (hstop : (s.mm i).stop = b)
    (hm : s.mem.removeVpRange cfg pid a (b - a) = some m) :
    Exact s { s.setMm i (s.shortened i a) with mem := m } pid a b := by
  have hshort : Layout (s.setMm i (s.shortened i a)) := h.shorten ha hi hlow (hstop.symm ▸ hle)
  have ht : Layout { s.setMm i (s.shortened i a) with mem := m } := hshort.congr rfl rfl rfl
  have hself : (s.shortened i a).stop = a := by
    show (s.mm i).addr + wordSub a (s.mm i).addr = a
    rw [wordSub_of_le hlow.le (by omega)]
    omega
  -- an address of a mapping is in it as before unless it is in the range
  have hcov (j x : ℕ) (hj : j ∈ s.mmaps pid) : ((s.setMm i (s.shortened i a)).mm j).Covers x ↔
      (s.mm j).Covers x ∧ ¬ (a ≤ x ∧ x < b) := by
    rw [setMm_mm]
    split
    · next he =>
      subst he
      simp only [LazyMmap.Covers, hself, hstop]
      show (s.mm j).addr ≤ x ∧ x < a ↔ _
      omega
    · next hne =>
      refine (and_iff_left_of_imp fun hx hin => ?_).symm
      obtain ⟨hlo, hhi⟩ := hx
      obtain hapart | hapart := (h.mapped pid).apart hi hj hne <;> omega
  have hback (j x : ℕ) : ((s.setMm i (s.shortened i a)).mm j).backing x = (s.mm j).backing x := by
    rw [setMm_mm]
    split
    · next he =>
      subst he
      rfl
    · rfl
  have hpages := removeVpRange_spec hpaged ha (by simp only [pageSize] at *; omega) (by omega) hm
  have hfin : a + (b - a) = b := by omega
  rw [hfin] at hpages
  refine ⟨fun x hlo hhi => ?_, fun v hv => ?_, fun x hx => ?_, fun v hv hout => ?_⟩
  · refine Option.eq_none_iff_forall_not_mem.mpr fun k hk => ?_
    obtain ⟨j, hj, hx, -⟩ := (ht.mapped pid).resolve_eq_some.mp hk
    exact ((hcov j x hj).mp hx).2 ⟨hlo, hhi⟩
  · show ¬ (a ≤ (m.vp v).addr ∧ (m.vp v).addr < b)
    rw [hpages.1]
    exact ((hpages.2 v).mp hv).2
  · apply Option.ext
    intro k
    rw [(ht.mapped pid).resolve_eq_some, (h.mapped pid).resolve_eq_some]
    refine exists_congr fun j => and_congr_right fun hj => ?_
    have hj' : j ∈ s.mmaps pid := hj
    show ((s.setMm i (s.shortened i a)).mm j).Covers x ∧ ((s.setMm i (s.shortened i a)).mm j).backing x = k ↔ _
    rw [hcov j x hj', hback, and_iff_left (show ¬ (a ≤ x ∧ x < b) by omega)]
  · exact ⟨(hpages.2 v).mpr ⟨hv, hout⟩, congrFun hpages.1 v⟩

theorem Layout.brkShrink_exact (h : Layout s) (hpaged : Paged s.mem pid) (ha : a % pageSize = 0)
    (hle : a ≤ (s.spaces pid).brk) (hfits : s.ShrinkFits pid a) (hs : s.brkShrink cfg pid a = some t) :
    Exact s t pid a (s.spaces pid).brk := by
  obtain ⟨hb, hlt⟩ := h.brk pid
  have hlen : wordSub (s.spaces pid).brk a = (s.spaces pid).brk - a := wordSub_of_le hle hlt
  have hsize : ((s.spaces pid).brk - a) % pageSize = 0 := by
    simp only [pageSize] at *
    omega
  have hfin : a + ((s.spaces pid).brk - a) = (s.spaces pid).brk := by omega
  have hfind := h.findLazyMmap pid (wordSub (s.spaces pid).brk 1)
  have hlike := Alike.findLazyMmap s pid (wordSub (s.spaces pid).brk 1)
  generalize hf : (s.findLazyMmap pid (wordSub (s.spaces pid).brk 1)).2 = f at hfind hlike
  have hback : Exact f t pid a (s.spaces pid).brk → Exact s t pid a (s.spaces pid).brk := fun he =>
    ⟨he.unmapped, he.absent, fun x hx => (he.kept x hx).trans (hlike.resolve (h.mapped pid) (hfind.mapped pid) x),
      fun v hv hout => by
        rw [← hlike.mem] at hv hout ⊢
        exact he.present v hv hout⟩
  obtain ⟨i, hi, hlow, hstop, -, he⟩ | ⟨hno, he⟩ := brkShrink_cases cfg (h.mapped pid) a
  · rw [he, hf, hlen] at hs
    obtain ⟨m, hm, rfl⟩ := Option.map_eq_some_iff.mp hs
    have hmm : f.mm i = s.mm i := hlike.mm pid i hi
    refine hback ?_
    rw [show s.shortened i a = f.shortened i a by rw [shortened, shortened, hmm]]
    exact shorten_exact hfind (hlike.mem ▸ hpaged) ha hb hle hlt ((hlike.same pid).mmaps ▸ hi) (hmm ▸ hlow) (hmm ▸ hstop)
      (hlike.mem ▸ hm)
  · rw [he, hf, hlen] at hs
    have hun := hlike.unmaps (hfits hno).1
    refine hback ?_
    rw [← hfin] at hun ⊢
    exact (munmap_exact_iff (hfind.mapped pid) (hlike.mem ▸ hpaged) ha hsize (by omega) hs).mpr ⟨hun.1, hun.2.1⟩

theorem Layout.brkShrink_passes (hasserts : cfg.asserts = true) (h : Layout s) (hinv : Inv cfg phys s₀ s)
    (hpaged : Paged s.mem pid) (ha : a % pageSize = 0) (hle : a ≤ (s.spaces pid).brk) (hfits : s.ShrinkFits pid a) :
    ∃ t, s.brkShrink cfg pid a = some t := by
  obtain ⟨hb, hlt⟩ := h.brk pid
  have hlen : wordSub (s.spaces pid).brk a = (s.spaces pid).brk - a := wordSub_of_le hle hlt
  have hfind := h.findLazyMmap pid (wordSub (s.spaces pid).brk 1)
  have hlike := Alike.findLazyMmap s pid (wordSub (s.spaces pid).brk 1)
  obtain ⟨i, -, -, -, -, he⟩ | ⟨hno, he⟩ := brkShrink_cases cfg (h.mapped pid) a
  · obtain ⟨m, hm⟩ := hinv.sound.removeVpRange_returns cfg pid a (wordSub (s.spaces pid).brk a)
    rw [he, hm]
    exact ⟨_, rfl⟩
  · obtain ⟨hun, hequal⟩ := hfits hno
    have hfin : a + ((s.spaces pid).brk - a) = (s.spaces pid).brk := by omega
    rw [← hfin] at hun
    have hun' := hlike.unmaps hun
    have hsize : ((s.spaces pid).brk - a) % pageSize = 0 := by
      simp only [pageSize] at *
      omega
    have hend : a + ((s.spaces pid).brk - a) < 2 ^ 32 := hfin.symm ▸ hlt
    rw [he, hlen]
    refine munmapSpace_passes hasserts (hinv.findLazyMmap pid _) hfind (hlike.mem ▸ hpaged) ha hsize hend hun'.1
      (fun hzero j hj => ?_) hun'.2.2
    rw [(hlike.same pid).mmaps] at hj
    rw [hlike.mm pid j hj]
    have heq : a = (s.spaces pid).brk := by omega
    rw [heq]
    exact hequal heq j hj

-- Growing

theorem Mapped.insert_resolve (cfg : Config) (h : Mapped v pid) (hi : (v.mm i).Valid) (hlt : i < v.nextMm)
    (hfree : ¬ v.Taken pid (v.mm i).addr (v.mm i).stop) :
    (v.insertLazyMmap cfg pid i).1.mm = v.mm ∧ (v.insertLazyMmap cfg pid i).1.mem = v.mem ∧
      i ∈ (v.insertLazyMmap cfg pid i).1.mmaps pid ∧
      ∀ x, ¬ (v.mm i).Covers x → (v.insertLazyMmap cfg pid i).1.resolve pid x = v.resolve pid x := by
  have hmapped := (h.insertLazyMmap cfg hi hlt).1
  obtain ⟨-, l, r, tree, hm, -, -, htree, he⟩ | ⟨htaken, -⟩ := insertLazyMmap_spec cfg h hi
  · have hmaps : (v.insertLazyMmap cfg pid i).1.mmaps pid = l ++ i :: r := by
      rw [he, mmaps, setMaps, setSpace_spaces, if_pos rfl]
      exact htree
    have hmm : (v.insertLazyMmap cfg pid i).1.mm = v.mm := by rw [he]; rfl
    have hmem : (v.insertLazyMmap cfg pid i).1.mem = v.mem := by rw [he]; rfl
    refine ⟨hmm, hmem, hmaps ▸ by simp, fun x hx => ?_⟩
    apply Option.ext
    intro k
    rw [hmapped.resolve_eq_some, h.resolve_eq_some, hmaps, hmm, hm]
    constructor
    · rintro ⟨j, hj, hcov, hk⟩
      obtain hj | hj := List.mem_append.mp hj
      · exact ⟨j, List.mem_append_left _ hj, hcov, hk⟩
      · obtain rfl | hj := List.mem_cons.mp hj
        · exact absurd hcov hx
        · exact ⟨j, List.mem_append_right _ hj, hcov, hk⟩
    · rintro ⟨j, hj, hcov, hk⟩
      refine ⟨j, ?_, hcov, hk⟩
      obtain hj | hj := List.mem_append.mp hj
      · exact List.mem_append_left _ hj
      · exact List.mem_append_right _ (List.mem_cons_of_mem _ hj)
  · exact absurd htaken hfree

theorem placeFixed_exact {bot length : ℕ} {r : State × Bool} (h : Ready s v pid i bot) (hv : (v.mm i).Valid)
    (haddr : (v.mm i).addr = addr) (hlen : (v.mm i).length = length) (hpaged : Paged v.mem pid)
    (hfits : v.Taken pid addr (addr + length) → Found v pid addr (addr + length) ∧ Ends (v.records pid) (addr + length))
    (hr : v.placeFixed cfg pid i addr length = some r) :
    r.1.mm i = v.mm i ∧ i ∈ r.1.mmaps pid ∧
      (∀ x, x < addr ∨ addr + length ≤ x → r.1.resolve pid x = v.resolve pid x) ∧
      ∀ w ∈ v.mem.pages pid, ¬ (addr ≤ (v.mem.vp w).addr ∧ (v.mem.vp w).addr < addr + length) →
        w ∈ r.1.mem.pages pid ∧ r.1.mem.vp w = v.mem.vp w := by
  subst haddr hlen
  have hout (x : ℕ) (hx : x < (v.mm i).addr ∨ (v.mm i).addr + (v.mm i).length ≤ x) : ¬ (v.mm i).Covers x := fun hcov => by
    obtain ⟨hlo, hhi⟩ := hcov
    have hstop : (v.mm i).stop = (v.mm i).addr + (v.mm i).length := rfl
    omega
  obtain ⟨-, hok, -⟩ := h.mapped.insertLazyMmap cfg hv h.lt
  rw [placeFixed] at hr
  by_cases hfirst : (v.insertLazyMmap cfg pid i).2 = true
  · rw [if_pos hfirst, Option.some.injEq] at hr
    subst hr
    obtain ⟨hmm, hmem, hi, hres⟩ := h.mapped.insert_resolve cfg hv h.lt (hok.mp hfirst)
    refine ⟨congrFun hmm i, hi, fun x hx => hres x (hout x hx), fun w hw _ => ?_⟩
    rw [hmem]
    exact ⟨hw, rfl⟩
  · rw [if_neg hfirst] at hr
    obtain ⟨w, hw, rfl⟩ := Option.map_eq_some_iff.mp hr
    have htaken : v.Taken pid (v.mm i).addr (v.mm i).stop := by
      by_contra hfree
      exact hfirst (hok.mpr hfree)
    have hlt : (v.mm i).addr + (v.mm i).length < 2 ^ 32 := hv.stop_lt
    obtain ⟨hfound, hends⟩ := hfits htaken
    have hexact := (munmap_exact_iff h.mapped hpaged hv.addr_aligned hv.length_aligned hlt hw).mpr ⟨hfound, hends⟩
    obtain ⟨m, -, -, hwmap, -⟩ := munmapSpace_maps h.mapped hv.addr_aligned hv.length_aligned hlt hw
    have hvw : Confined v w pid _ := (Confined.refl v pid).munmapSpace h.mapped hv.addr_aligned hv.length_aligned hlt hw
    have hmm : w.mm i = v.mm i := hvw.mm i h.lt h.out
    have hfree := not_taken_of_found h.mapped hv.addr_aligned hv.length_aligned hlt hfound hw
    obtain ⟨hmm', hmem', hi, hres⟩ := hwmap.insert_resolve cfg (hmm.symm ▸ hv) (Nat.lt_of_lt_of_le h.lt hvw.next)
      (by rw [hmm]; exact hfree)
    rw [hmm] at hres
    refine ⟨(congrFun hmm' i).trans hmm, hi, fun x hx => (hres x (hout x hx)).trans (hexact.kept x hx), fun p hp hnot => ?_⟩
    rw [hmem']
    exact hexact.present p hp hnot

/-- The state in which `reserve_mmap` places the heap's new mapping. -/
def grows (s : State) (b length : ℕ) : State :=
  ((s.newMm heapMmap).2.addAnon s.nextMm).setMm s.nextMm (heapMmap.at b length)

theorem grows_eq (s : State) (b length : ℕ) : ((s.newMm heapMmap).2.addAnon s.nextMm).setMm s.nextMm
    (((s.newMm heapMmap).2.mm s.nextMm).at b length) = s.grows b length := by
  have hself : (s.newMm heapMmap).2.mm s.nextMm = heapMmap := Function.update_self ..
  rw [hself, grows]

theorem grows_mm (s : State) (b length : ℕ) : (s.grows b length).mm s.nextMm = heapMmap.at b length := by
  rw [grows, setMm_mm, if_pos rfl]

theorem Layout.grows_alike (h : Layout s) (b length : ℕ) : Alike s (s.grows b length) := by
  have hself : (s.newMm heapMmap).2.mm s.nextMm = heapMmap := Function.update_self ..
  have hadd : (s.newMm heapMmap).2.addAnon s.nextMm = (s.newMm heapMmap).2 := by
    rw [addAnon, hself]
    rfl
  rw [grows, hadd]
  refine ⟨fun _ => rfl, fun q j hj => ?_, rfl, rfl⟩
  have hne : j ≠ s.nextMm := Nat.ne_of_lt ((h.mapped q).fresh j hj)
  rw [setMm_mm, if_neg hne]
  exact Function.update_of_ne hne _ _

theorem Layout.grows_ready (h : Layout s) (pid b length : ℕ) :
    Ready s (s.grows b length) pid s.nextMm (s.spaces pid).mmapBot := by
  rw [← grows_eq]
  exact (h.ready pid heapMmap).prepare

theorem heap_valid (hb : b % pageSize = 0) (ha : a % pageSize = 0) (hlt : a < 2 ^ 32) (hgrow : b < a) :
    (heapMmap.at b (a - b)).Valid where
  pos := Nat.sub_pos_of_lt hgrow
  stop_lt := by
    show b + (a - b) < 2 ^ 32
    omega
  addr_aligned := hb
  length_aligned := by
    show (a - b) % pageSize = 0
    simp only [pageSize] at *
    omega

theorem Layout.brkGrow_exact {malloc : Bool} (h : Layout s) (hpaged : Paged s.mem pid) (ha : a % pageSize = 0)
    (hlt : a < 2 ^ 32) (hgrow : (s.spaces pid).brk < a) (hfits : s.GrowFits pid a malloc)
    (hs : s.brkGrow cfg pid a malloc = some (t, .ok ())) : BrkExact s t pid (s.spaces pid).brk a := by
  obtain ⟨hb, -⟩ := h.brk pid
  have hfin : (s.spaces pid).brk + (a - (s.spaces pid).brk) = a := by omega
  have hlen : wordSub a (s.spaces pid).brk = a - (s.spaces pid).brk := wordSub_of_le hgrow.le hlt
  obtain ⟨hcov, he⟩ | ⟨hno, he⟩ := brkGrow_cases cfg (h.mapped pid) a malloc
  · have hlike := Alike.findLazyMmap s pid (s.spaces pid).brk
    have hfind := h.findLazyMmap pid (s.spaces pid).brk
    cases he.symm.trans hs
    refine ⟨fun _ x hlo hhi => ?_, fun x hlo hhi => by omega, fun v _ hin => by omega,
      fun x _ _ => hlike.resolve (h.mapped pid) (hfind.mapped pid) x, fun v hv _ _ => ?_⟩
    · obtain ⟨i, hi, hback⟩ := hfits.1 hcov x hlo hhi
      refine ⟨i, (hlike.same pid).mmaps ▸ hi, ?_⟩
      rwa [hlike.mm pid i hi]
    · rw [hlike.mem]
      exact ⟨hv, rfl⟩
  · rw [he] at hs
    split at hs
    · cases hs
    next hmalloc =>
    rw [hlen] at hs
    obtain ⟨-, e, herr⟩ | ⟨-, hnogo, ok, hplace⟩ := reserveFixed_cases hs
    · cases herr
    rw [grows_eq] at hplace
    have hlike := h.grows_alike (s.spaces pid).brk (a - (s.spaces pid).brk)
    have hready := h.grows_ready pid (s.spaces pid).brk (a - (s.spaces pid).brk)
    have hself := s.grows_mm (s.spaces pid).brk (a - (s.spaces pid).brk)
    generalize hv : s.grows (s.spaces pid).brk (a - (s.spaces pid).brk) = v at hplace hlike hready hself
    have hvalid : (v.mm s.nextMm).Valid := hself ▸ heap_valid hb ha hlt hgrow
    obtain ⟨hmm, hi, hkept, hpresent⟩ := placeFixed_exact hready hvalid (by rw [hself]; rfl) (by rw [hself]; rfl)
      (hlike.mem ▸ hpaged) (fun htaken => by
        rw [hfin] at htaken ⊢
        have hun := hlike.unmaps (hfits.2 hno (Bool.eq_true_of_not_eq_false hmalloc) hnogo ((hlike.same pid).taken.mp htaken))
        exact ⟨hun.1, hun.2.1⟩) hplace
    rw [hfin] at hkept hpresent
    refine ⟨fun _ x hlo hhi => ⟨s.nextMm, hi, ?_⟩, fun x hlo hhi => by omega, fun v _ hin => by omega, fun x h1 h2 => ?_,
      fun p hp h1 h2 => ?_⟩
    · rw [show t.mm s.nextMm = _ from hmm, hself]
      refine ⟨⟨hlo, ?_⟩, rfl, rfl⟩
      show x < (s.spaces pid).brk + (a - (s.spaces pid).brk)
      omega
    · exact (hkept x (by omega)).trans (hlike.resolve (h.mapped pid) hready.mapped x)
    · rw [← hlike.mem] at hp h1 h2 ⊢
      exact hpresent p hp (by omega)

theorem reserveFixed_passes {length : ℕ} (haddr : addr % pageSize = 0) (hlen : length % pageSize = 0)
    (hplace : u.nogo pid addr length = false → ∃ r,
      ((u.addAnon i).setMm i ((u.mm i).at addr length)).placeFixed cfg pid i addr length = some r ∧ r.2 = true) :
    ∃ r, u.reserveMmap cfg pid i addr length true true = some r := by
  simp only [reserveMmap, assert_of (.inr hlen), assert_of (.inr haddr), Option.bind_eq_bind, Option.bind_some]
  cases hbad : u.nogo pid addr length with
  | true => exact ⟨_, rfl⟩
  | false =>
    obtain ⟨r, hr, hok⟩ := hplace hbad
    rw [if_neg (by simp), if_neg (by simp), if_neg Bool.false_ne_true, place, if_pos rfl, hr, Option.bind_some, assert_of (.inr hok)]
    exact ⟨_, rfl⟩

theorem grows_inv (h : Inv cfg phys s₀ s) (b length : ℕ) : Inv cfg phys s₀ (s.grows b length) := by
  have hself : (s.newMm heapMmap).2.mm s.nextMm = heapMmap := Function.update_self ..
  have hadd : (s.newMm heapMmap).2.addAnon s.nextMm = (s.newMm heapMmap).2 := by
    rw [addAnon, hself]
    rfl
  rw [State.grows, hadd]
  exact (h.newMm fun hanon => Bool.noConfusion hanon).setMm fun hanon => Bool.noConfusion hanon

theorem Layout.brkGrow_passes (hasserts : cfg.asserts = true) (h : Layout s) (hinv : Inv cfg phys s₀ s)
    (hpaged : Paged s.mem pid) (ha : a % pageSize = 0) (hlt : a < 2 ^ 32) (hgrow : (s.spaces pid).brk < a) {malloc : Bool}
    (hfits : s.GrowFits pid a malloc) : ∃ r, s.brkGrow cfg pid a malloc = some r := by
  obtain ⟨hb, -⟩ := h.brk pid
  have hfin : (s.spaces pid).brk + (a - (s.spaces pid).brk) = a := by omega
  have hlen : wordSub a (s.spaces pid).brk = a - (s.spaces pid).brk := wordSub_of_le hgrow.le hlt
  obtain ⟨-, he⟩ | ⟨hno, he⟩ := brkGrow_cases cfg (h.mapped pid) a malloc
  · exact ⟨_, he⟩
  · rw [he]
    split
    · exact ⟨_, rfl⟩
    next hmalloc =>
    rw [hlen]
    have hvalid' := heap_valid hb ha hlt hgrow
    have hsize : (a - (s.spaces pid).brk) % pageSize = 0 := hvalid'.length_aligned
    refine reserveFixed_passes hb hsize fun hnogo => ?_
    rw [grows_eq]
    have hlike := h.grows_alike (s.spaces pid).brk (a - (s.spaces pid).brk)
    have hready := h.grows_ready pid (s.spaces pid).brk (a - (s.spaces pid).brk)
    have hself := s.grows_mm (s.spaces pid).brk (a - (s.spaces pid).brk)
    have hlayout : Layout (s.grows (s.spaces pid).brk (a - (s.spaces pid).brk)) :=
      h.confined hready.confined hready.mapped (h.bot pid)
    have hinv' := grows_inv hinv (s.spaces pid).brk (a - (s.spaces pid).brk)
    generalize s.grows (s.spaces pid).brk (a - (s.spaces pid).brk) = v at hlike hready hself hlayout hinv'
    have hvalid : (v.mm s.nextMm).Valid := hself ▸ hvalid'
    have haddr : (v.mm s.nextMm).addr = (s.spaces pid).brk := by rw [hself]; rfl
    have hlength : (v.mm s.nextMm).length = a - (s.spaces pid).brk := by rw [hself]; rfl
    have hun (htaken : v.Taken pid (s.spaces pid).brk a) : v.Unmaps pid (s.spaces pid).brk a :=
      hlike.unmaps (hfits.2 hno (Bool.eq_true_of_not_eq_false hmalloc) hnogo ((hlike.same pid).taken.mp htaken))
    obtain ⟨r, hr⟩ : ∃ r, v.placeFixed cfg pid s.nextMm (s.spaces pid).brk (a - (s.spaces pid).brk) = some r := by
      rw [placeFixed]
      obtain ⟨-, hok, -⟩ := hready.mapped.insertLazyMmap cfg hvalid hready.lt
      by_cases hfirst : (v.insertLazyMmap cfg pid s.nextMm).2 = true
      · exact ⟨_, if_pos hfirst⟩
      · rw [if_neg hfirst]
        have htaken : v.Taken pid (s.spaces pid).brk a := by
          by_contra hfree
          have hstop : (v.mm s.nextMm).stop = a := by rw [LazyMmap.stop, haddr, hlength, hfin]
          exact hfirst (hok.mpr (by rwa [haddr, hstop]))
        obtain ⟨hfound, -, hspared⟩ := hun htaken
        have hend : (s.spaces pid).brk + (a - (s.spaces pid).brk) < 2 ^ 32 := hfin.symm ▸ hlt
        obtain ⟨w, hw⟩ := munmapSpace_passes hasserts hinv' hlayout (hlike.mem ▸ hpaged) hb
          hsize hend (hfin.symm ▸ hfound) (fun hzero => by omega) (hfin.symm ▸ hspared)
        rw [hw]
        exact ⟨_, rfl⟩
    refine ⟨r, hr, (placeFixed_spec hready hvalid haddr hlength hr).2 fun htaken => ?_⟩
    rw [hfin] at htaken ⊢
    exact (hun htaken).1

theorem brkAddr_mod (cfg : Config) (addr : ℕ) : brkAddr cfg addr % pageSize = 0 := pageFloor_mod _

theorem brkAddr_lt (cfg : Config) (addr : ℕ) : brkAddr cfg addr < 2 ^ 32 := pageCeil_lt _

theorem BrkExact.like (h : BrkExact s u pid b a) (hlike : Alike u t) (hu : Mapped u pid) (ht : Mapped t pid) :
    BrkExact s t pid b a where
  grown hb x hlo hhi := by
    obtain ⟨i, hi, hback⟩ := h.grown hb x hlo hhi
    refine ⟨i, (hlike.same pid).mmaps ▸ hi, ?_⟩
    rwa [hlike.mm pid i hi]
  shrunk x hlo hhi := (hlike.resolve hu ht x).trans (h.shrunk x hlo hhi)
  absent := hlike.mem ▸ h.absent
  kept x h1 h2 := (hlike.resolve hu ht x).trans (h.kept x h1 h2)
  present := hlike.mem ▸ h.present

theorem Alike.setBrk (u : State) (pid a : ℕ) : Alike u (u.setSpace pid { u.spaces pid with brk := a }) := by
  refine ⟨fun q => ?_, fun _ _ _ => rfl, rfl, rfl⟩
  rw [setSpace_spaces]
  split
  · next hq => rw [hq]
  · rfl

theorem Layout.vmBrk_ok {sender : ℕ} {malloc : Bool} (h : Layout s) (hpaged : Paged s.mem sender)
    (hfits : s.BrkFits sender (brkAddr cfg addr) malloc) (hs : s.vmBrk cfg sender addr malloc = some (t, .ok ())) :
    BrkExact s t sender (s.spaces sender).brk (brkAddr cfg addr) := by
  have ht := h.vmBrk hs
  have ha := brkAddr_mod cfg addr
  rw [State.vmBrk] at hs
  split at hs
  · cases hs
  obtain ⟨_, -, hs⟩ := Option.bind_eq_some_iff.mp hs
  obtain ⟨⟨u, r⟩, hu, hs⟩ := Option.bind_eq_some_iff.mp hs
  cases r with
  | error e => cases hs
  | ok =>
    cases hs
    have hlike := Alike.setBrk u sender (brkAddr cfg addr)
    simp only [brkMove] at hu
    split at hu
    · next hzero =>
      cases hu
      refine BrkExact.like ?_ hlike (h.mapped sender) (ht.mapped sender)
      exact ⟨fun hb => absurd hzero hb, fun x _ hx => by omega, fun v _ hin => by omega, fun _ _ _ => rfl,
        fun v hv _ _ => ⟨hv, rfl⟩⟩
    next hb =>
    split at hu
    · next hgrow =>
      exact (h.brkGrow_exact hpaged ha (brkAddr_lt cfg addr) hgrow ((hfits hb).1 hgrow) hu).like hlike
        ((h.brkGrow ha (brkAddr_lt cfg addr) hgrow hu).mapped sender) (ht.mapped sender)
    · next hno =>
      have hle := Nat.not_lt.mp hno
      obtain ⟨w, hw, he⟩ := Option.map_eq_some_iff.mp hu
      cases he
      exact ((h.brkShrink_exact hpaged ha hle ((hfits hb).2 hle) hw).brk hle).like hlike
        ((h.brkShrink ha hle hw).mapped sender) (ht.mapped sender)

theorem Layout.vmBrk_passes {sender : ℕ} {malloc : Bool} (hasserts : cfg.asserts = true) (h : Layout s)
    (hinv : Inv cfg phys s₀ s) (hpaged : Paged s.mem sender) (hutcb : (s.spaces sender).utcbArea ≠ .nil)
    (hfits : s.BrkFits sender (brkAddr cfg addr) malloc) : ∃ r, s.vmBrk cfg sender addr malloc = some r := by
  have ha := brkAddr_mod cfg addr
  rw [State.vmBrk]
  split
  · exact ⟨_, rfl⟩
  obtain ⟨⟨u, r⟩, hu⟩ : ∃ r, s.brkMove cfg sender (brkAddr cfg addr) malloc = some r := by
    simp only [brkMove]
    split
    · exact ⟨_, rfl⟩
    next hb =>
    split
    · next hgrow => exact h.brkGrow_passes hasserts hinv hpaged ha (brkAddr_lt cfg addr) hgrow ((hfits hb).1 hgrow)
    · next hno =>
      have hle := Nat.not_lt.mp hno
      obtain ⟨w, hw⟩ := h.brkShrink_passes hasserts hinv hpaged ha hle ((hfits hb).2 hle)
      rw [hw]
      exact ⟨_, rfl⟩
  simp only [assert_of (.inr hutcb), Option.bind_eq_bind, Option.bind_some, hu]
  cases r with
  | error e => exact ⟨_, rfl⟩
  | ok => exact ⟨_, rfl⟩

/-- **The break.** In every run in which what is placed fits, a call of `vm_brk` that fits and succeeds
moves the break exactly. If the run was sparing, the call passes all assertions. -/
theorem vmBrk_exact {calls : List Call} (hmax : cfg.EndsPage) (h : Run (exec cfg) (Fits cfg) (bootState phys) calls s)
    {sender : ℕ} {malloc : Bool} (hfits : s.BrkFits sender (brkAddr cfg addr) malloc) :
    (∀ t, s.vmBrk cfg sender addr malloc = some (t, .ok ()) →
        BrkExact s t sender (s.spaces sender).brk (brkAddr cfg addr)) ∧
      (Run (exec cfg) (Sparing cfg) (bootState phys) calls s → (s.spaces sender).utcbArea ≠ .nil →
        ∃ r, s.vmBrk cfg.checked sender addr malloc = some r) := by
  have hl := layout_of_run hmax h
  have hpaged := (addressed_of_run h).paged sender
  refine ⟨fun t hs => hl.vmBrk_ok hpaged hfits hs, fun hspare hutcb => ?_⟩
  exact hl.vmBrk_passes rfl (inv_of_run hspare).checked hpaged hutcb hfits

/-- The break of process 5 is set, and moved up by two pages. -/
theorem brk_two_pages : ∃ s t : State, BrkExact s t 5 0x400000 0x402000 ∧
    ∃ r, s.vmBrk plainConfig.checked 5 0x402000 true = some r := by
  have haddr : brkAddr plainConfig 0x402000 = 0x402000 := by decide
  obtain ⟨s, h, hread⟩ := Run.exists_of_evalRun (exec plainConfig)
    (fun s call => Fits plainConfig s call ∧ Sparing plainConfig s call) (bootState threePhys)
    (spawnCalls ++ [.brk 5 0x400000 true])
    (fun s => ((s.spaces 5).brk, decide (∃ i ∈ s.mmaps 5, (s.mm i).Covers 0x400000), decide (s.Taken 5 0x400000 0x402000),
      decide ((s.spaces 5).utcbArea ≠ .nil), (s.vmBrk plainConfig 5 0x402000 true).bind fun r => r.2.toOption))
    (0x400000, false, false, true, some ()) (by decide)
  obtain ⟨hbrk, hread⟩ := Prod.mk.inj hread
  obtain ⟨hcov, hread⟩ := Prod.mk.inj hread
  obtain ⟨htaken, hread⟩ := Prod.mk.inj hread
  obtain ⟨hutcb, hs⟩ := Prod.mk.inj hread
  have hfits : s.BrkFits 5 (brkAddr plainConfig 0x402000) true := by
    rw [haddr]
    refine fun _ => ⟨fun _ => ⟨fun hyes => ?_, fun _ _ _ hyes => ?_⟩, fun hle => ?_⟩
    · exact absurd (hbrk ▸ hyes) (of_decide_eq_false hcov)
    · exact absurd (hbrk ▸ hyes) (of_decide_eq_false htaken)
    · rw [hbrk] at hle
      omega
  obtain ⟨hexact, hpass⟩ := vmBrk_exact plainConfig_endsPage (h.mono fun _ _ => And.left) hfits
  obtain ⟨⟨t, r⟩, ht, hr⟩ := Option.bind_eq_some_iff.mp hs
  cases r with
  | error e => cases hr
  | ok =>
    refine ⟨s, t, ?_, hpass (h.mono fun _ _ => And.right) (of_decide_eq_true hutcb)⟩
    rw [← hbrk, ← haddr]
    exact hexact t ht

/-- A page is mapped at the break, and the break moved up by two pages: the second is not mapped. -/
theorem brk_over_mapping : ¬ ∀ (cfg : Config) (phys : PhysMem) (calls : List Call) (s : State) (sender addr : ℕ)
    (malloc : Bool), cfg.EndsPage → Run (exec cfg) free (bootState phys) calls s →
      (∀ t, s.vmBrk cfg sender addr malloc = some (t, .ok ()) →
          BrkExact s t sender (s.spaces sender).brk (brkAddr cfg addr)) ∧
        ((s.spaces sender).utcbArea ≠ .nil → ∃ r, s.vmBrk cfg.checked sender addr malloc = some r) := by
  intro hall
  obtain ⟨s, h, hread⟩ := Run.exists_of_evalRun (exec plainConfig) free (bootState threePhys)
    (spawnCalls ++ [.brk 5 0x400000 true, .mmap 5 0 0x400000 0x1000 3 ⟨false, true, true, true⟩ ⟨0, 0⟩ 0 0 ⟨true, none, true⟩])
    (fun s => ((s.spaces 5).brk, (s.vmBrk plainConfig 5 0x402000 true).bind fun r =>
      if r.2.toOption = some () then some (decide (∃ i ∈ r.1.mmaps 5, (r.1.mm i).Covers 0x401000)) else none))
    (0x400000, some false) (by decide)
  obtain ⟨hbrk, hread⟩ := Prod.mk.inj hread
  obtain ⟨⟨t, r⟩, hs, hr⟩ := Option.bind_eq_some_iff.mp hread
  split at hr
  · next hok =>
    cases r with
    | error e => cases hok
    | ok =>
      have hexact := (hall plainConfig threePhys _ s 5 0x402000 true plainConfig_endsPage h).1 t hs
      obtain ⟨i, hi, hcov, -⟩ := hexact.grown (by rw [hbrk]; decide) 0x401000 (by rw [hbrk]; decide) (by decide)
      exact of_decide_eq_false (Option.some.inj hr) ⟨i, hi, hcov⟩
  · cases hr

end State

end Sneks.Vm
