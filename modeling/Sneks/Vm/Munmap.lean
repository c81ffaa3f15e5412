import Mathlib.Algebra.Order.Group.Nat
import Sneks.Vm.Invariant

/-!
# Unmapping a range

What `munmap_space` (`sys/vm/vm.c`) leaves of the mappings of a space, and what an address is
resolved to by `find_lazy_mmap` before and after. Mappings that the range cuts become the parts of
them outside it. The tail keeps the `offset` of the whole.
-/

namespace Sneks.Vm
open Lib

-- Mappings in order

structure Backing where
  fdServ : Tid
  ino : ℕ
  page : ℕ
  rights : Rights
  shared : Bool
  priv : Bool
  anon : Bool

theorem word_of_lt {n : ℕ} (h : n < 2 ^ 32) : word n = n := Nat.mod_eq_of_lt h

theorem wordSub_of_le {a b : ℕ} (hle : b ≤ a) (ha : a < 2 ^ 32) : wordSub a b = a - b := by
  simp only [wordSub, word]
  omega

namespace LazyMmap

variable (mm : LazyMmap)

def stop : ℕ := mm.addr + mm.length

def Covers (a : ℕ) : Prop := mm.addr ≤ a ∧ a < mm.stop

instance (a : ℕ) : Decidable (mm.Covers a) := inferInstanceAs (Decidable (_ ∧ _))

structure Valid : Prop where
  pos : 0 < mm.length
  stop_lt : mm.stop < 2 ^ 32
  addr_aligned : mm.addr % pageSize = 0
  length_aligned : mm.length % pageSize = 0

def backing (a : ℕ) : Backing where
  fdServ := mm.fdServ
  ino := mm.ino
  page := word (mm.offset + mm.bump a)
  rights := mm.rights
  shared := mm.shared
  priv := mm.priv
  anon := mm.anon

def cut (addr fin : ℕ) : List LazyMmap :=
  if mm.stop ≤ addr ∨ fin ≤ mm.addr then [mm]
  else (if mm.addr < addr then [mm.cutTo addr] else []) ++ if fin < mm.stop then [mm.moveUp fin] else []

variable {mm} {mm' : LazyMmap} {addr fin a : ℕ}

theorem Valid.fin_eq (h : mm.Valid) : mm.fin = mm.stop := word_of_lt h.stop_lt

theorem Valid.cutTo (h : mm.Valid) (haddr : addr % pageSize = 0) (hlo : mm.addr < addr) (hhi : addr < mm.stop) :
    (mm.cutTo addr).Valid ∧ (mm.cutTo addr).stop = addr := by
  have hlt := h.stop_lt
  have hpage := h.addr_aligned
  have hlen : (mm.cutTo addr).length = addr - mm.addr := wordSub_of_le hlo.le (by omega)
  have hstop : (mm.cutTo addr).stop = addr := by
    show mm.addr + (mm.cutTo addr).length = addr
    omega
  simp only [pageSize] at *
  exact ⟨⟨by omega, by omega, h.addr_aligned, by simp only [pageSize]; omega⟩, hstop⟩

theorem Valid.moveUp (h : mm.Valid) (hfin : fin % pageSize = 0) (hlo : mm.addr < fin) (hhi : fin < mm.stop) :
    (mm.moveUp fin).Valid ∧ (mm.moveUp fin).stop = mm.stop := by
  have hlt := h.stop_lt
  have hpage := h.addr_aligned
  have hpage' := h.length_aligned
  have hlt' : mm.addr + mm.length < 2 ^ 32 := hlt
  have hhi' : fin < mm.addr + mm.length := hhi
  have hmove : wordSub fin mm.addr = fin - mm.addr := wordSub_of_le hlo.le (by omega)
  have hlen : (mm.moveUp fin).length = mm.length - (fin - mm.addr) := by
    show wordSub mm.length (wordSub fin mm.addr) = _
    rw [hmove, wordSub_of_le (by omega) (by omega)]
  have hstop : (mm.moveUp fin).stop = mm.stop := by
    show fin + (mm.moveUp fin).length = mm.addr + mm.length
    omega
  simp only [pageSize] at *
  exact ⟨⟨by omega, by omega, hfin, by simp only [pageSize]; omega⟩, hstop⟩

theorem Valid.cut (h : mm.Valid) (haddr : addr % pageSize = 0) (hfin : fin % pageSize = 0)
    (hmem : mm' ∈ mm.cut addr fin) : mm'.Valid ∧ mm.addr ≤ mm'.addr ∧ mm'.stop ≤ mm.stop := by
  unfold LazyMmap.cut at hmem
  split at hmem
  · obtain rfl := List.mem_singleton.mp hmem
    exact ⟨h, le_rfl, le_rfl⟩
  · next hover =>
    obtain ⟨hstop, haddr'⟩ := not_or.mp hover
    obtain hmem | hmem := List.mem_append.mp hmem
    · split at hmem
      · next hlo =>
        obtain rfl := List.mem_singleton.mp hmem
        obtain ⟨hvalid, heq⟩ := h.cutTo haddr hlo (by omega)
        exact ⟨hvalid, le_rfl, by omega⟩
      · cases hmem
    · split at hmem
      · next hhi =>
        obtain rfl := List.mem_singleton.mp hmem
        obtain ⟨hvalid, heq⟩ := h.moveUp hfin (by omega) hhi
        exact ⟨hvalid, by show mm.addr ≤ fin; omega, heq.le⟩
      · cases hmem

theorem Valid.cut_ordered (h : mm.Valid) (haddr : addr % pageSize = 0) (hle : addr ≤ fin) :
    (mm.cut addr fin).Pairwise fun m m' => m.stop ≤ m'.addr := by
  unfold LazyMmap.cut
  split
  · exact List.pairwise_singleton _ _
  · next hover =>
    obtain ⟨hstop, -⟩ := not_or.mp hover
    split <;> split
    · next hlo _ =>
      refine List.pairwise_cons.mpr ⟨fun m hm => ?_, List.pairwise_singleton _ _⟩
      obtain rfl := List.mem_singleton.mp hm
      rw [(h.cutTo haddr hlo (by omega)).2]
      exact hle
    · exact List.pairwise_singleton _ _
    · exact List.pairwise_singleton _ _
    · exact .nil

end LazyMmap

variable {l : List LazyMmap} {mm mm' : LazyMmap} {addr fin a : ℕ}

structure InOrder (l : List LazyMmap) : Prop where
  valid : ∀ mm ∈ l, mm.Valid
  ordered : l.Pairwise fun m m' => m.stop ≤ m'.addr

def resolveIn (l : List LazyMmap) (a : ℕ) : Option Backing :=
  (l.find? fun mm => mm.Covers a).map (·.backing a)

namespace InOrder

theorem unique (h : InOrder l) (hmm : mm ∈ l) (hmm' : mm' ∈ l) (ha : mm.Covers a) (ha' : mm'.Covers a) : mm = mm' := by
  have hpair : l.Pairwise fun m m' => m.Covers a → m'.Covers a → m = m' :=
    h.ordered.imp fun hle hm hm' => by
      have hlt := hm.2
      have hge := hm'.1
      omega
  exact List.Pairwise.forall_of_forall_of_flip (fun _ _ _ _ => rfl) hpair
    (hpair.imp fun hsame hm hm' => (hsame hm' hm).symm) hmm hmm' ha ha'

theorem cut (h : InOrder l) (haddr : addr % pageSize = 0) (hfin : fin % pageSize = 0) (hle : addr ≤ fin) :
    InOrder (l.flatMap (·.cut addr fin)) where
  valid m hm := by
    obtain ⟨mm, hmm, hm⟩ := List.mem_flatMap.mp hm
    exact ((h.valid mm hmm).cut haddr hfin hm).1
  ordered := by
    refine List.pairwise_flatMap.mpr ⟨fun mm hmm => (h.valid mm hmm).cut_ordered haddr hle, ?_⟩
    refine h.ordered.imp_of_mem fun {mm mm'} hmm hmm' hord m hm m' hm' => ?_
    have hstop := ((h.valid mm hmm).cut haddr hfin hm).2.2
    have hstart := ((h.valid mm' hmm').cut haddr hfin hm').2.1
    omega

theorem resolveIn_eq_some {b : Backing} (h : InOrder l) :
    resolveIn l a = some b ↔ ∃ mm ∈ l, mm.Covers a ∧ mm.backing a = b := by
  rw [resolveIn, Option.map_eq_some_iff]
  constructor
  · rintro ⟨mm, hfind, hb⟩
    exact ⟨mm, List.mem_of_find?_eq_some hfind, by simpa using List.find?_some hfind, hb⟩
  · rintro ⟨mm, hmm, ha, hb⟩
    cases hfind : l.find? fun mm => mm.Covers a with
    | none => exact absurd (decide_eq_true ha) (List.find?_eq_none.mp hfind mm hmm)
    | some m =>
      have hm : m.Covers a := by simpa using List.find?_some hfind
      exact ⟨m, rfl, h.unique hmm (List.mem_of_find?_eq_some hfind) ha hm ▸ hb⟩

end InOrder

theorem InOrder.cut_one {l r : List LazyMmap} (h : InOrder (l ++ mm :: r)) (haddr : addr % pageSize = 0)
    (hfin : fin % pageSize = 0) (hle : addr ≤ fin) : InOrder (l ++ mm.cut addr fin ++ r) := by
  have hmm := h.valid mm (by simp)
  obtain ⟨hl, hmr, hcross⟩ := List.pairwise_append.mp h.ordered
  obtain ⟨hmr, hr⟩ := List.pairwise_cons.mp hmr
  refine ⟨fun m hm => ?_, List.pairwise_append.mpr ⟨List.pairwise_append.mpr ⟨hl, hmm.cut_ordered haddr hle, ?_⟩, hr, ?_⟩⟩
  · obtain hm | hm := List.mem_append.mp hm
    · obtain hm | hm := List.mem_append.mp hm
      · exact h.valid m (by simp [hm])
      · exact (hmm.cut haddr hfin hm).1
    · exact h.valid m (by simp [hm])
  · intro m hm m' hm'
    exact (hcross m hm mm List.mem_cons_self).trans (hmm.cut haddr hfin hm').2.1
  · intro m hm m' hm'
    obtain hm | hm := List.mem_append.mp hm
    · exact hcross m hm m' (List.mem_cons_of_mem _ hm')
    · exact (hmm.cut haddr hfin hm).2.2.trans (hmr m' hm')

theorem resolveIn_eq_none : resolveIn l a = none ↔ ∀ mm ∈ l, ¬ mm.Covers a := by
  rw [resolveIn, Option.map_eq_none_iff, List.find?_eq_none]
  simp

theorem LazyMmap.mem_cut : mm' ∈ mm.cut addr fin ↔
    (mm.stop ≤ addr ∨ fin ≤ mm.addr) ∧ mm' = mm ∨
      (addr < mm.stop ∧ mm.addr < fin) ∧
        (mm.addr < addr ∧ mm' = mm.cutTo addr ∨ fin < mm.stop ∧ mm' = mm.moveUp fin) := by
  unfold LazyMmap.cut
  split
  · next hout =>
    rw [List.mem_singleton, and_iff_right hout]
    exact ⟨.inl, fun h => h.resolve_right fun hover => by omega⟩
  · next hover =>
    rw [List.mem_append, and_iff_right (show addr < mm.stop ∧ mm.addr < fin by omega),
      or_iff_right (a := _ ∧ mm' = mm) fun h => hover h.1]
    refine or_congr ?_ ?_ <;> split <;> simp [*]

theorem flatMap_cut_of_outside (h : ∀ mm ∈ l, mm.stop ≤ addr ∨ fin ≤ mm.addr) : l.flatMap (·.cut addr fin) = l := by
  have hcut : ∀ mm ∈ l, mm.cut addr fin = [mm] := fun mm hmm => if_pos (h mm hmm)
  rw [List.flatMap_congr hcut, List.flatMap_singleton']

theorem resolveIn_cut_inside (h : InOrder l) (haddr : addr % pageSize = 0)
    (hlo : addr ≤ a) (hhi : a < fin) : resolveIn (l.flatMap (·.cut addr fin)) a = none := by
  refine resolveIn_eq_none.mpr fun m hm hcovers => ?_
  obtain ⟨hge, hlt⟩ := hcovers
  obtain ⟨mm, hmm, hm⟩ := List.mem_flatMap.mp hm
  obtain ⟨hout, rfl⟩ | ⟨⟨hstop, hstart⟩, ⟨hlow, rfl⟩ | ⟨hhigh, rfl⟩⟩ := LazyMmap.mem_cut.mp hm
  · omega
  · rw [((h.valid mm hmm).cutTo haddr hlow hstop).2] at hlt
    omega
  · have hge : fin ≤ a := hge
    omega

def Ends (l : List LazyMmap) (fin : ℕ) : Prop := ∀ mm ∈ l, ¬ (mm.addr < fin ∧ fin < mm.stop)

theorem resolveIn_cut_outside (h : InOrder l) (haddr : addr % pageSize = 0) (hfin : fin % pageSize = 0)
    (hle : addr ≤ fin) (hends : Ends l fin) (ha : a < addr ∨ fin ≤ a) :
    resolveIn (l.flatMap (·.cut addr fin)) a = resolveIn l a := by
  apply Option.ext
  intro b
  rw [(h.cut haddr hfin hle).resolveIn_eq_some, h.resolveIn_eq_some]
  constructor
  · rintro ⟨m, hm, ⟨hge, hlt⟩, rfl⟩
    obtain ⟨mm, hmm, hm⟩ := List.mem_flatMap.mp hm
    obtain ⟨hout, rfl⟩ | ⟨⟨hstop, hstart⟩, ⟨hlow, rfl⟩ | ⟨hhigh, rfl⟩⟩ := LazyMmap.mem_cut.mp hm
    · exact ⟨m, hmm, ⟨hge, hlt⟩, rfl⟩
    · rw [((h.valid mm hmm).cutTo haddr hlow hstop).2] at hlt
      exact ⟨mm, hmm, ⟨hge, by omega⟩, rfl⟩
    · exact absurd ⟨hstart, hhigh⟩ (hends mm hmm)
  · rintro ⟨mm, hmm, hcovers, rfl⟩
    have hno := hends mm hmm
    obtain ⟨hge, hlt⟩ := hcovers
    by_cases hout : mm.stop ≤ addr ∨ fin ≤ mm.addr
    · exact ⟨mm, List.mem_flatMap.mpr ⟨mm, hmm, LazyMmap.mem_cut.mpr (.inl ⟨hout, rfl⟩)⟩, ⟨hge, hlt⟩, rfl⟩
    · have hlow : mm.addr < addr := by omega
      have hpart : mm.cutTo addr ∈ mm.cut addr fin :=
        LazyMmap.mem_cut.mpr (.inr ⟨by omega, .inl ⟨hlow, rfl⟩⟩)
      refine ⟨_, List.mem_flatMap.mpr ⟨mm, hmm, hpart⟩, ⟨hge, ?_⟩, rfl⟩
      rw [((h.valid mm hmm).cutTo haddr hlow (by omega)).2]
      omega

theorem resolveIn_cut_tail (h : InOrder l) (haddr : addr % pageSize = 0) (hfin : fin % pageSize = 0) (hle : addr ≤ fin)
    (hmm : mm ∈ l) (hstart : mm.addr < fin) (hstop : fin < mm.stop) :
    resolveIn (l.flatMap (·.cut addr fin)) fin ≠ resolveIn l fin := by
  have hvalid := h.valid mm hmm
  have hlt := hvalid.stop_lt
  have hpart : mm.moveUp fin ∈ mm.cut addr fin := LazyMmap.mem_cut.mpr (.inr ⟨by omega, .inr ⟨hstop, rfl⟩⟩)
  have hafter : resolveIn (l.flatMap (·.cut addr fin)) fin = some ((mm.moveUp fin).backing fin) := by
    refine (h.cut haddr hfin hle).resolveIn_eq_some.mpr ⟨_, List.mem_flatMap.mpr ⟨mm, hmm, hpart⟩, ⟨?_, ?_⟩, rfl⟩
    · exact le_refl fin
    · rw [(hvalid.moveUp hfin hstart hstop).2]
      exact hstop
  have hbefore : resolveIn l fin = some (mm.backing fin) := h.resolveIn_eq_some.mpr ⟨mm, hmm, ⟨hstart.le, hstop⟩, rfl⟩
  rw [hafter, hbefore]
  intro heq
  have hpage : word (mm.offset + (mm.moveUp fin).bump fin) = word (mm.offset + mm.bump fin) :=
    congrArg Backing.page (Option.some.inj heq)
  have hzero : (mm.moveUp fin).bump fin = 0 := by
    show wordSub fin fin / pageSize = 0
    rw [wordSub_of_le le_rfl (by omega), Nat.sub_self, Nat.zero_div]
  have hbump : mm.bump fin = (fin - mm.addr) / pageSize := by
    rw [LazyMmap.bump, wordSub_of_le hstart.le (by omega)]
  have haligned := hvalid.addr_aligned
  rw [hzero, hbump] at hpage
  simp only [word, pageSize] at *
  omega

-- Looking up

namespace State

variable {s t : State} {pid i c : ℕ} {y : ℕ × Bool}

def records (s : State) (pid : ℕ) : List LazyMmap := (s.mmaps pid).map s.mm

def resolve (s : State) (pid a : ℕ) : Option Backing := (s.findLazyMmap pid a).1.map fun i => (s.mm i).backing a

structure Ranges (s : State) (pid : ℕ) : Prop where
  pos : ∀ i ∈ s.mmaps pid, 0 < (s.mm i).length
  le : ∀ i ∈ s.mmaps pid, (s.mm i).stop ≤ 2 ^ 32
  ordered : (s.mmaps pid).Pairwise fun i j => (s.mm i).stop ≤ (s.mm j).addr

structure Mapped (s : State) (pid : ℕ) : Prop where
  inOrder : InOrder (s.records pid)
  fresh : ∀ i ∈ s.mmaps pid, i < s.nextMm
  last : ∀ i, (s.spaces pid).lastMmap = some i → i ∈ s.mmaps pid

theorem dirAddr_spec (s : State) (a i : ℕ) (b : Bool) : (s.dirAddr a (i, b) = .lt ↔ a < (s.mm i).addr) ∧
    (s.dirAddr a (i, b) = .gt ↔ (s.mm i).addr ≤ a ∧ (s.mm i).fin ≤ a) ∧
    (s.dirAddr a (i, b) = .eq ↔ (s.mm i).addr ≤ a ∧ a < (s.mm i).fin) := by
  simp only [dirAddr]
  split
  · exact ⟨by simpa, by simp; omega, by simp; omega⟩
  · split
    · exact ⟨by simp; omega, by simp; omega, by simp; omega⟩
    · exact ⟨by simp; omega, by simp; omega, by simp; omega⟩

theorem dropWhile_ne {l r : List ℕ} (h : (l ++ i :: r).Nodup) : (l ++ i :: r).dropWhile (· ≠ i) = i :: r := by
  have hl : ∀ j ∈ l, j ≠ i := fun j hj => (List.nodup_append.mp h).2.2 j hj i List.mem_cons_self
  rw [List.dropWhile_append_of_pos (by simpa using hl), List.dropWhile_cons_of_neg (by simp)]

theorem dropWhile_ne_reverse {l r : List ℕ} (h : (l ++ i :: r).Nodup) :
    (l ++ i :: r).reverse.dropWhile (· ≠ i) = i :: l.reverse := by
  have hrev : (l ++ i :: r).reverse = r.reverse ++ i :: l.reverse := by simp
  rw [hrev, dropWhile_ne (by rw [← hrev]; exact (List.reverse_perm _).nodup_iff.mpr h)]

namespace Ranges

theorem nodup (h : Ranges s pid) : (s.mmaps pid).Nodup := by
  refine h.ordered.imp_of_mem fun {i j} hi _ hle => ?_
  rintro rfl
  have hpos := h.pos i hi
  have hstop : (s.mm i).stop = (s.mm i).addr + (s.mm i).length := rfl
  omega

theorem fin_eq (h : Ranges s pid) (hi : i ∈ s.mmaps pid) :
    (s.mm i).stop < 2 ^ 32 ∧ (s.mm i).fin = (s.mm i).stop ∨ (s.mm i).stop = 2 ^ 32 ∧ (s.mm i).fin = 0 := by
  have hfin : (s.mm i).fin = (s.mm i).stop % 2 ^ 32 := rfl
  obtain hlt | heq := Nat.lt_or_eq_of_le (h.le i hi)
  · exact .inl ⟨hlt, hfin.trans (Nat.mod_eq_of_lt hlt)⟩
  · exact .inr ⟨heq, by rw [hfin, heq, Nat.mod_self]⟩

theorem fin_eq_of_le (h : Ranges s pid) (hi : i ∈ s.mmaps pid) (hj : c ∈ s.mmaps pid)
    (hle : (s.mm i).stop ≤ (s.mm c).addr) : (s.mm i).fin = (s.mm i).stop := by
  have hpos := h.pos c hj
  have hend := h.le c hj
  have hstop : (s.mm c).stop = (s.mm c).addr + (s.mm c).length := rfl
  obtain ⟨-, hfin⟩ | ⟨htop, -⟩ := h.fin_eq hi
  · exact hfin
  · omega

theorem directed (h : Ranges s pid) (a : ℕ) : Directed (s.dirAddr a) (inorder (s.spaces pid).maps) := by
  have hord : (inorder (s.spaces pid).maps).Pairwise fun y z => (s.mm y.1).stop ≤ (s.mm z.1).addr :=
    List.pairwise_map.mp h.ordered
  refine hord.imp_of_mem fun {y z} hy hz hle => ?_
  rw [(s.dirAddr_spec a y.1 y.2).2.1, (s.dirAddr_spec a z.1 z.2).1,
    h.fin_eq_of_le (List.mem_map_of_mem hy) (List.mem_map_of_mem hz) hle]
  have hstop : (s.mm y.1).stop = (s.mm y.1).addr + (s.mm y.1).length := rfl
  omega

end Ranges

structure Probed (s : State) (pid addr : ℕ) (y : ℕ × Bool) (l r : List ℕ) : Prop where
  probed : probe (s.dirAddr addr) (s.spaces pid).maps = some y
  split : s.mmaps pid = l ++ y.1 :: r
  before : ∀ i ∈ l, (s.mm i).stop ≤ (s.mm y.1).addr
  after : ∀ i ∈ r, (s.mm y.1).stop ≤ (s.mm i).addr
  left : s.dirAddr addr y = .lt → ∀ i ∈ l, (s.mm i).stop ≤ addr

namespace Ranges

/-- The first mapping that is not past the range, and from it back to one that does not end at the
    start or before. -/
def fromProbed (s : State) (pid addr sz : ℕ) (y : ℕ × Bool) : Option ℕ :=
  match ((s.mmaps pid).dropWhile (· ≠ y.1)).find? fun i => ¬ addr + sz ≤ (s.mm i).addr with
  | none => none
  | some c => ((s.mmaps pid).reverse.dropWhile (· ≠ c)).find? fun i => ¬ (s.mm i).fin ≤ addr

variable {y : ℕ × Bool} {sz : ℕ} {l r : List ℕ}

theorem probed (h : Ranges s pid) (hprobe : probe (s.dirAddr addr) (s.spaces pid).maps = some y) :
    ∃ l r, Probed s pid addr y l r := by
  obtain ⟨l, r, ht, hlow, -⟩ := probe_split (h.directed addr) hprobe
  have hm : s.mmaps pid = l.map Prod.fst ++ y.1 :: r.map Prod.fst := by
    rw [mmaps, RbTree.mmaps, ht, List.map_append, List.map_cons]
  have hpair := h.ordered
  rw [hm] at hpair
  obtain ⟨-, hyr, hcross⟩ := List.pairwise_append.mp hpair
  have hbefore : ∀ i ∈ l.map Prod.fst, (s.mm i).stop ≤ (s.mm y.1).addr := fun i hi => hcross i hi _ List.mem_cons_self
  refine ⟨_, _, hprobe, hm, hbefore, (List.pairwise_cons.mp hyr).1, fun hdir i hi => ?_⟩
  have hfini := h.fin_eq_of_le (by rw [hm]; exact List.mem_append_left _ hi) (by rw [hm]; simp) (hbefore i hi)
  obtain ⟨z, hz, rfl⟩ := List.mem_map.mp hi
  have hle := ((s.dirAddr_spec addr z.1 z.2).2.1.mp (hlow hdir z hz)).2
  rwa [hfini] at hle

theorem firstLazyMmap_probed (hp : Probed s pid addr y l r) (hlt : addr + sz < 2 ^ 32) (hdir : s.dirAddr addr y ≠ .eq) :
    s.firstLazyMmap pid addr sz = fromProbed s pid addr sz y := by
  unfold firstLazyMmap
  rw [word_of_lt hlt, hp.probed]
  dsimp only
  rw [if_neg hdir]
  rfl

theorem fromProbed_none (h : Ranges s pid) (hp : Probed s pid addr y l r) (hin : (s.mm y.1).addr < addr + sz)
    (hend : (s.mm y.1).fin ≤ addr) (hl : ∀ i ∈ l, (s.mm i).stop ≤ addr) : fromProbed s pid addr sz y = none := by
  have hnodup := h.nodup
  have hm := hp.split
  rw [fromProbed, hm, dropWhile_ne (hm ▸ hnodup), ← hm, List.find?_cons_of_pos (by simpa using hin)]
  dsimp only
  rw [hm, dropWhile_ne_reverse (hm ▸ hnodup), List.find?_eq_none]
  intro i hi
  simp only [not_not, decide_eq_true_eq]
  obtain rfl | hi := List.mem_cons.mp hi
  · exact hend
  · have hi := List.mem_reverse.mp hi
    rw [h.fin_eq_of_le (by rw [hm]; exact List.mem_append_left _ hi) (by rw [hm]; simp) (hp.before i hi)]
    exact hl i hi

theorem fromProbed_gt (h : Ranges s pid) (hp : Probed s pid addr y l r) (hge : (s.mm y.1).addr ≤ addr)
    (hle : (s.mm y.1).fin ≤ addr) : fromProbed s pid addr sz y = none := by
  by_cases hpast : addr + sz ≤ (s.mm y.1).addr
  · -- the range is empty, and starts with the last mapping
    have hm := hp.split
    have hy : y.1 ∈ s.mmaps pid := by rw [hm]; simp
    have hpos := h.pos y.1 hy
    have hstop : (s.mm y.1).stop = (s.mm y.1).addr + (s.mm y.1).length := rfl
    have hlast : r = [] := by
      obtain ⟨-, hfiny⟩ | ⟨htop, -⟩ := h.fin_eq hy
      · omega
      · cases r with
        | nil => rfl
        | cons z r =>
          have hz : z ∈ s.mmaps pid := by rw [hm]; simp
          have hle := hp.after z List.mem_cons_self
          have hposz := h.pos z hz
          have hlez := h.le z hz
          have hstopz : (s.mm z).stop = (s.mm z).addr + (s.mm z).length := rfl
          omega
    rw [fromProbed, hm, dropWhile_ne (hm ▸ h.nodup), hlast, List.find?_cons_of_neg (by simpa using hpast), List.find?_nil]
  · exact h.fromProbed_none hp (Nat.not_le.mp hpast) hle fun i hi => (hp.before i hi).trans hge

theorem fromProbed_far (h : Ranges s pid) (hp : Probed s pid addr y l r) (hfar : addr + sz ≤ (s.mm y.1).addr)
    (hl : ∀ i ∈ l, (s.mm i).stop ≤ addr) : fromProbed s pid addr sz y = none ∧
      ∀ i ∈ s.mmaps pid, ¬ (addr < (s.mm i).stop ∧ (s.mm i).addr < addr + sz) := by
  have hm := hp.split
  have hpos := h.pos y.1 (by rw [hm]; simp)
  have hstop : (s.mm y.1).stop = (s.mm y.1).addr + (s.mm y.1).length := rfl
  have hpast : ∀ i ∈ y.1 :: r, addr + sz ≤ (s.mm i).addr := by
    intro i hi
    obtain rfl | hi := List.mem_cons.mp hi
    · exact hfar
    · have hle := hp.after i hi
      omega
  refine ⟨?_, fun i hi => ?_⟩
  · rw [fromProbed, hm, dropWhile_ne (hm ▸ h.nodup), List.find?_eq_none.mpr fun i hi => by simpa using hpast i hi]
  · rw [hm] at hi
    obtain hi | hi := List.mem_append.mp hi
    · have hle := hl i hi
      omega
    · have hle := hpast i hi
      omega

theorem firstLazyMmap_cases (h : Ranges s pid) (hlt : addr + sz < 2 ^ 32) :
    (∃ y, probe (s.dirAddr addr) (s.spaces pid).maps = some y ∧ (s.mm y.1).fin ≤ addr ∧
        s.firstLazyMmap pid addr sz = none) ∨
      (∃ l c r, s.mmaps pid = l ++ c :: r ∧ (∀ i ∈ l, (s.mm i).stop ≤ addr) ∧ addr < (s.mm c).fin ∧
        ((s.mm c).addr ≤ addr ∨ (s.mm c).addr < addr + sz) ∧ s.firstLazyMmap pid addr sz = some c ∧
        ∀ y, probe (s.dirAddr addr) (s.spaces pid).maps = some y → addr < (s.mm y.1).fin) ∨
      s.firstLazyMmap pid addr sz = none ∧
        ∀ i ∈ s.mmaps pid, ¬ (addr < (s.mm i).stop ∧ (s.mm i).addr < addr + sz) := by
  cases hprobe : probe (s.dirAddr addr) (s.spaces pid).maps with
  | none =>
    refine .inr (.inr ⟨by rw [firstLazyMmap, hprobe], fun i hi => ?_⟩)
    rw [mmaps, RbTree.mmaps, probe_eq_none hprobe] at hi
    cases hi
  | some y =>
    obtain ⟨l, r, hp⟩ := h.probed hprobe
    obtain ⟨hlt', hgt', heq'⟩ := s.dirAddr_spec addr y.1 y.2
    cases hdir : s.dirAddr addr y with
    | eq =>
      obtain ⟨hge, hstopy⟩ := heq'.mp hdir
      refine .inr (.inl ⟨l, y.1, r, hp.split, fun i hi => (hp.before i hi).trans hge, hstopy, .inl hge, ?_, ?_⟩)
      · rw [firstLazyMmap, hprobe]
        exact if_pos hdir
      · rintro z hz
        cases hz
        exact hstopy
    | gt =>
      obtain ⟨hge, hle⟩ := hgt'.mp hdir
      refine .inl ⟨y, rfl, hle, ?_⟩
      rw [firstLazyMmap_probed hp hlt (by rw [hdir]; decide), h.fromProbed_gt hp hge hle]
    | lt =>
      have hleft := hp.left hdir
      rw [firstLazyMmap_probed hp hlt (by rw [hdir]; decide)]
      by_cases hfar : addr + sz ≤ (s.mm y.1).addr
      · exact .inr (.inr (h.fromProbed_far hp hfar hleft))
      · by_cases hend : (s.mm y.1).fin ≤ addr
        · exact .inl ⟨y, rfl, hend, h.fromProbed_none hp (Nat.not_le.mp hfar) hend hleft⟩
        · have hm := hp.split
          refine .inr (.inl ⟨l, y.1, r, hm, hleft, Nat.not_le.mp hend, .inr (Nat.not_le.mp hfar), ?_, ?_⟩)
          · rw [fromProbed, hm, dropWhile_ne (hm ▸ h.nodup), ← hm, List.find?_cons_of_pos (by simpa using hfar)]
            dsimp only
            rw [hm, dropWhile_ne_reverse (hm ▸ h.nodup), List.find?_cons_of_pos (by simpa using hend)]
          · rintro z hz
            cases hz
            exact Nat.not_le.mp hend

end Ranges

namespace Mapped

theorem valid (h : Mapped s pid) (hi : i ∈ s.mmaps pid) : (s.mm i).Valid :=
  h.inOrder.valid _ (List.mem_map_of_mem hi)

theorem ordered (h : Mapped s pid) : (s.mmaps pid).Pairwise fun i j => (s.mm i).stop ≤ (s.mm j).addr :=
  List.pairwise_map.mp h.inOrder.ordered

theorem mem_tree (hy : y ∈ inorder (s.spaces pid).maps) : y.1 ∈ s.mmaps pid := List.mem_map_of_mem hy

theorem ranges (h : Mapped s pid) : Ranges s pid :=
  ⟨fun _ hi => (h.valid hi).pos, fun _ hi => (h.valid hi).stop_lt.le, h.ordered⟩

theorem nodup (h : Mapped s pid) : (s.mmaps pid).Nodup := h.ranges.nodup

theorem dirAddr_spec (h : Mapped s pid) (a : ℕ) (hi : i ∈ s.mmaps pid) (b : Bool) :
    (s.dirAddr a (i, b) = .lt ↔ a < (s.mm i).addr) ∧ (s.dirAddr a (i, b) = .gt ↔ (s.mm i).stop ≤ a) ∧
      (s.dirAddr a (i, b) = .eq ↔ (s.mm i).Covers a) := by
  have hpos := (h.valid hi).pos
  have hstop : (s.mm i).stop = (s.mm i).addr + (s.mm i).length := rfl
  obtain ⟨hlt, hgt, heq⟩ := s.dirAddr_spec a i b
  rw [(h.valid hi).fin_eq] at hgt heq
  exact ⟨hlt, hgt.trans ⟨And.right, fun hle => ⟨by omega, hle⟩⟩, heq⟩

theorem directed (h : Mapped s pid) (a : ℕ) : Directed (s.dirAddr a) (inorder (s.spaces pid).maps) :=
  h.ranges.directed a

theorem probe_covers {a : ℕ} (h : Mapped s pid) (hi : i ∈ s.mmaps pid) (ha : (s.mm i).Covers a)
    (hprobe : probe (s.dirAddr a) (s.spaces pid).maps = some y) : ¬ (s.mm y.1).stop ≤ a := by
  obtain ⟨x, hx, rfl⟩ := List.mem_map.mp hi
  obtain ⟨z, hz, heq⟩ := probe_of_eq (h.directed a) hx ((h.dirAddr_spec a hi x.2).2.2.mpr ha)
  obtain rfl : y = z := Option.some.inj (hprobe.symm.trans hz)
  obtain ⟨l, r, ht, -⟩ := probe_split (h.directed a) hprobe
  exact not_le.mpr ((h.dirAddr_spec a (mem_tree (by rw [ht]; simp)) y.2).2.2.mp heq).2

theorem findLazyMmap_spec (h : Mapped s pid) (a : ℕ) :
    (∃ i ∈ s.mmaps pid, (s.mm i).Covers a ∧ (s.findLazyMmap pid a).1 = some i) ∨
      (∀ i ∈ s.mmaps pid, ¬ (s.mm i).Covers a) ∧ (s.findLazyMmap pid a).1 = none := by
  unfold findLazyMmap
  dsimp only
  split
  · next i hlast =>
    obtain ⟨hi, ha⟩ := Option.filter_eq_some_iff.mp hlast
    have ha : (s.mm i).addr ≤ a ∧ a - (s.mm i).addr < (s.mm i).length := by simpa using ha
    exact .inl ⟨i, h.last i hi, ⟨ha.1, by show a < (s.mm i).addr + (s.mm i).length; omega⟩, rfl⟩
  · split
    · next y hprobe =>
      obtain ⟨hy, heq⟩ := Option.filter_eq_some_iff.mp hprobe
      obtain ⟨l, r, ht, -⟩ := probe_split (h.directed a) hy
      have hmem : y.1 ∈ s.mmaps pid := mem_tree (by rw [ht]; simp)
      exact .inl ⟨y.1, hmem, (h.dirAddr_spec a hmem y.2).2.2.mp (by simpa using heq), rfl⟩
    · next hprobe =>
      refine .inr ⟨fun i hi ha => ?_, rfl⟩
      obtain ⟨y, hy, rfl⟩ := List.mem_map.mp hi
      obtain ⟨z, hz, heq⟩ := probe_of_eq (h.directed a) hy ((h.dirAddr_spec a hi y.2).2.2.mpr ha)
      rw [hz, Option.filter_some, if_pos (by simpa using heq)] at hprobe
      cases hprobe

theorem resolve_eq (h : Mapped s pid) (a : ℕ) : s.resolve pid a = resolveIn (s.records pid) a := by
  unfold resolve
  obtain ⟨i, hi, ha, hfind⟩ | ⟨hno, hfind⟩ := h.findLazyMmap_spec a
  · rw [hfind]
    exact (h.inOrder.resolveIn_eq_some.mpr ⟨_, List.mem_map_of_mem hi, ha, rfl⟩).symm
  · rw [hfind]
    refine (resolveIn_eq_none.mpr fun mm hmm => ?_).symm
    obtain ⟨i, hi, rfl⟩ := List.mem_map.mp hmm
    exact hno i hi

theorem nextMmap_eq {l r : List ℕ} (h : Mapped s pid) (hm : s.mmaps pid = l ++ i :: r) : s.nextMmap pid i = r.head? := by
  rw [nextMmap, hm, dropWhile_ne (hm ▸ h.nodup)]
  rfl

/-- Where the way down ends below the range, `first_lazy_mmap` finds nothing. Else it finds the
first mapping that ends past the start, or there is none in the range. -/
theorem firstLazyMmap_cases {sz : ℕ} (h : Mapped s pid) (hlt : addr + sz < 2 ^ 32) :
    (∃ y, probe (s.dirAddr addr) (s.spaces pid).maps = some y ∧ (s.mm y.1).stop ≤ addr ∧
        s.firstLazyMmap pid addr sz = none) ∨
      (∃ l c r, s.mmaps pid = l ++ c :: r ∧ (∀ i ∈ l, (s.mm i).stop ≤ addr) ∧ addr < (s.mm c).stop ∧
        ((s.mm c).addr ≤ addr ∨ (s.mm c).addr < addr + sz) ∧ s.firstLazyMmap pid addr sz = some c ∧
        ∀ y, probe (s.dirAddr addr) (s.spaces pid).maps = some y → addr < (s.mm y.1).stop) ∨
      s.firstLazyMmap pid addr sz = none ∧
        ∀ i ∈ s.mmaps pid, ¬ (addr < (s.mm i).stop ∧ (s.mm i).addr < addr + sz) := by
  have hfin {y : ℕ × Bool} (hy : probe (s.dirAddr addr) (s.spaces pid).maps = some y) :
      (s.mm y.1).fin = (s.mm y.1).stop := (h.valid (mem_tree (mem_of_probe hy))).fin_eq
  obtain ⟨y, hy, hle, hnone⟩ | ⟨l, c, r, hm, hlow, hc, hstart, hsome, hy⟩ | hno := h.ranges.firstLazyMmap_cases hlt
  · exact .inl ⟨y, hy, hfin hy ▸ hle, hnone⟩
  · have hcm : c ∈ s.mmaps pid := by rw [hm]; simp
    rw [(h.valid hcm).fin_eq] at hc
    exact .inr (.inl ⟨l, c, r, hm, hlow, hc, hstart, hsome, fun y hprobe => hfin hprobe ▸ hy y hprobe⟩)
  · exact .inr (.inr hno)

end Mapped

-- Cutting one mapping

variable {cfg : Config} {l r : List ℕ}

def SamePages (m m' : Mem) : Prop := m'.pages = m.pages ∧ m'.vp = m.vp

theorem SamePages.trans {m m' m'' : Mem} (h : SamePages m m') (h' : SamePages m' m'') : SamePages m m'' :=
  ⟨h'.1.trans h.1, h'.2.trans h.2⟩

theorem cutAnonMmap_same {first last : ℕ} (hs : s.cutAnonMmap cfg i first last = some t) :
    ∃ m, t = { s with mem := m } ∧ SamePages s.mem m :=
  cutAnonMmap_induct (P := SamePages s.mem) ⟨rfl, rfl⟩ (fun _ _ _ h _ _ => h) (fun _ h => h) hs

structure Replaced (s t : State) (pid : ℕ) (l r : List ℕ) (parts : List LazyMmap) : Prop where
  mmaps : ∃ new, t.mmaps pid = l ++ new ++ r ∧ new.map t.mm = parts ∧ ∀ i ∈ new, i < t.nextMm
  mm : ∀ i ∈ l ++ r, t.mm i = s.mm i
  next : s.nextMm ≤ t.nextMm
  last : ∀ i, (t.spaces pid).lastMmap = some i → i ∈ t.mmaps pid
  pages : SamePages s.mem t.mem

theorem Replaced.records {parts : List LazyMmap} (h : Replaced s t pid l r parts) :
    t.records pid = l.map s.mm ++ parts ++ r.map s.mm := by
  obtain ⟨new, hm, hparts, -⟩ := h.mmaps
  have hl : l.map t.mm = l.map s.mm := List.map_congr_left fun i hi => h.mm i (List.mem_append_left _ hi)
  have hr : r.map t.mm = r.map s.mm := List.map_congr_left fun i hi => h.mm i (List.mem_append_right _ hi)
  rw [State.records, hm, List.map_append, List.map_append, hl, hr, hparts]

theorem Replaced.mapped (h : Mapped s pid) (hm : s.mmaps pid = l ++ c :: r) (haddr : addr % pageSize = 0)
    (hfin : fin % pageSize = 0) (hle : addr ≤ fin) (hr : Replaced s t pid l r ((s.mm c).cut addr fin)) :
    Mapped t pid := by
  have hrecords : s.records pid = l.map s.mm ++ s.mm c :: r.map s.mm := by
    rw [State.records, hm, List.map_append, List.map_cons]
  refine ⟨?_, fun i hi => ?_, hr.last⟩
  · rw [hr.records]
    exact (hrecords ▸ h.inOrder).cut_one haddr hfin hle
  · obtain ⟨new, hnew, -, hfresh⟩ := hr.mmaps
    have hnext := hr.next
    rw [hnew] at hi
    have hold (hi : i ∈ l ∨ i ∈ r) : i < s.nextMm := by
      refine h.fresh i ?_
      rw [hm, List.mem_append, List.mem_cons]
      exact hi.imp_right .inr
    obtain hi | hi := List.mem_append.mp hi
    · obtain hi | hi := List.mem_append.mp hi
      · exact (hold (.inl hi)).trans_le hnext
      · exact hfresh i hi
    · exact (hold (.inr hi)).trans_le hnext

theorem Mapped.ne_of_split (h : Mapped s pid) (hm : s.mmaps pid = l ++ c :: r) (hi : i ∈ l ++ r) : i ≠ c := by
  rintro rfl
  have hnodup := List.perm_middle.nodup_iff.mp (hm ▸ h.nodup)
  exact (List.nodup_cons.mp hnodup).1 hi

theorem replaced_setMm {m : Mem} {mm : LazyMmap} (h : Mapped s pid) (hm : s.mmaps pid = l ++ c :: r)
    (hsame : SamePages s.mem m) : Replaced s (({ s with mem := m } : State).setMm c mm) pid l r [mm] where
  mmaps := by
    refine ⟨[c], hm.trans (by simp), by simp [setMm], fun i hi => ?_⟩
    obtain rfl := List.mem_singleton.mp hi
    exact h.fresh i (by rw [hm]; simp)
  mm i hi := Function.update_of_ne (h.ne_of_split hm hi) _ _
  next := le_rfl
  last := h.last
  pages := hsame

theorem unmapLeft_replaced (h : Mapped s pid) (hm : s.mmaps pid = l ++ c :: r) (hlo : (s.mm c).addr < addr)
    (hover : addr < (s.mm c).stop) (hle : addr ≤ fin) (hhi : (s.mm c).stop ≤ fin) (hs : s.unmapLeft cfg addr c = some t) :
    Replaced s t pid l r ((s.mm c).cut addr fin) := by
  have hcut : (s.mm c).cut addr fin = [(s.mm c).cutTo addr] := by
    rw [LazyMmap.cut, if_neg (by omega), if_pos hlo, if_neg (by omega)]
    rfl
  rw [hcut]
  obtain ⟨_, -, hs⟩ := Option.bind_eq_some_iff.mp hs
  dsimp only at hs
  split at hs
  · obtain ⟨m, rfl, hsame⟩ := cutAnonMmap_same hs
    exact replaced_setMm h hm hsame
  · cases hs
    exact replaced_setMm h hm ⟨rfl, rfl⟩

theorem unmapRight_replaced (h : Mapped s pid) (hm : s.mmaps pid = l ++ c :: r) (hlo : addr ≤ (s.mm c).addr)
    (hover : (s.mm c).addr < fin) (hhi : fin < (s.mm c).stop) (hs : s.unmapRight cfg addr fin c = some t) :
    Replaced s t pid l r ((s.mm c).cut addr fin) := by
  have hcut : (s.mm c).cut addr fin = [(s.mm c).moveUp fin] := by
    rw [LazyMmap.cut, if_neg (by omega), if_neg (by omega), if_pos hhi]
    rfl
  rw [hcut]
  obtain ⟨_, -, hs⟩ := Option.bind_eq_some_iff.mp hs
  obtain ⟨_, -, hs⟩ := Option.bind_eq_some_iff.mp hs
  obtain ⟨u, hu, hs⟩ := Option.bind_eq_some_iff.mp hs
  cases hs
  split at hu
  · obtain ⟨m, rfl, hsame⟩ := cutAnonMmap_same hu
    exact replaced_setMm h hm hsame
  · cases hu
    exact replaced_setMm h hm ⟨rfl, rfl⟩

theorem eraseMmap_mmaps (cfg : Config) (s : State) (pid i : ℕ) (h : (s.mmaps pid).Nodup) :
    (s.eraseMmap cfg pid i).mmaps pid = (s.mmaps pid).erase i := by
  rw [mmaps, eraseMmap, setMaps, setSpace_spaces, if_pos rfl]
  exact cfg.rb.mmaps_erase i _ h

theorem unmapWhole_replaced (h : Mapped s pid) (hm : s.mmaps pid = l ++ c :: r) (hlo : addr ≤ (s.mm c).addr)
    (hhi : (s.mm c).stop ≤ fin) (hs : s.unmapWhole cfg pid c = some t) :
    Replaced s t pid l r ((s.mm c).cut addr fin) := by
  have hmem : c ∈ s.mmaps pid := by rw [hm]; simp
  have hpos := (h.valid hmem).pos
  have hstop : (s.mm c).stop = (s.mm c).addr + (s.mm c).length := rfl
  have hcut : (s.mm c).cut addr fin = [] := by
    rw [LazyMmap.cut, if_neg (by omega), if_neg (by omega), if_neg (by omega)]
    rfl
  rw [hcut]
  obtain ⟨u, hu, hs⟩ := Option.bind_eq_some_iff.mp hs
  obtain ⟨hsp, hmm, hnext, hpages⟩ :
      u.spaces = s.spaces ∧ u.mm = s.mm ∧ u.nextMm = s.nextMm ∧ SamePages s.mem u.mem := by
    split at hu
    · obtain ⟨v, hv, rfl⟩ := Option.map_eq_some_iff.mp hu
      obtain ⟨m, rfl, hsame⟩ := cutAnonMmap_same hv
      exact ⟨rfl, rfl, rfl, hsame⟩
    · cases hu
      exact ⟨rfl, rfl, rfl, rfl, rfl⟩
  have hum : u.mmaps pid = l ++ c :: r := by
    rw [mmaps, hsp]
    exact hm
  have herase : (u.eraseMmap cfg pid c).mmaps pid = l ++ r := by
    have hc : c ∉ l := fun hc => h.ne_of_split hm (List.mem_append_left r hc) rfl
    rw [eraseMmap_mmaps cfg u pid c (hum ▸ hm ▸ h.nodup), hum, List.erase_append_right _ hc, List.erase_cons_head]
  have hlast : ((u.eraseMmap cfg pid c).spaces pid).lastMmap = (s.spaces pid).lastMmap := by
    rw [eraseMmap, setMaps, setSpace_spaces, if_pos rfl, hsp]
  cases hs
  split
  · refine ⟨⟨[], ?_, rfl, by simp⟩, fun i _ => congrFun hmm i, hnext.ge, fun i hi => ?_, hpages⟩
    · rw [mmaps, setLast, setSpace_spaces, if_pos rfl]
      exact herase.trans (by simp)
    · rw [setLast, setSpace_spaces, if_pos rfl] at hi
      cases hi
  · next hother =>
    refine ⟨⟨[], by simpa using herase, rfl, by simp⟩, fun i _ => congrFun hmm i, hnext.ge, fun i hi => ?_, hpages⟩
    have hne : i ≠ c := by
      rintro rfl
      exact hother hi
    have hold := h.last i (hlast ▸ hi)
    rw [herase]
    rw [hm] at hold
    simpa [hne] using hold

theorem splitMmap_spec (cfg : Config) (h : Mapped s pid) (hm : s.mmaps pid = l ++ c :: r) (haddr : addr % pageSize = 0)
    (hfin : fin % pageSize = 0) (hlo : (s.mm c).addr < addr) (hle : addr ≤ fin) (hhi : fin < (s.mm c).stop) :
    (s.splitMmap cfg pid addr fin c).2 = true ∧ Replaced s (s.splitMmap cfg pid addr fin c).1 pid l r
      [(s.mm c).cutTo addr, (s.mm c).moveUp fin] := by
  have hmem : c ∈ s.mmaps pid := by rw [hm]; simp
  have hc := h.valid hmem
  obtain ⟨hlow, hlowstop⟩ := hc.cutTo haddr hlo (by omega)
  obtain ⟨hhigh, hhighstop⟩ := hc.moveUp hfin (by omega) hhi
  have hnext : c ≠ s.nextMm := (h.fresh c hmem).ne
  generalize hu : ((s.newMm ((s.mm c).moveUp fin)).2.setMm c ((s.mm c).cutTo addr)) = u
  have husp : u.spaces = s.spaces := by rw [← hu]; rfl
  have huc : u.mm c = (s.mm c).cutTo addr := by rw [← hu]; exact Function.update_self _ _ _
  have hutail : u.mm s.nextMm = (s.mm c).moveUp fin := by
    rw [← hu]
    exact (Function.update_of_ne hnext.symm _ _).trans (Function.update_self _ _ _)
  have huold (i : ℕ) (hi : i ∈ l ++ r) : u.mm i = s.mm i := by
    have hold : i ∈ s.mmaps pid := by
      rw [hm, List.mem_append, List.mem_cons]
      exact (List.mem_append.mp hi).imp_right .inr
    rw [← hu]
    exact (Function.update_of_ne (h.ne_of_split hm hi) _ _).trans (Function.update_of_ne (h.fresh i hold).ne _ _)
  have hord := h.ordered
  rw [hm] at hord
  obtain ⟨-, hcr, hcross⟩ := List.pairwise_append.mp hord
  have hafter := (List.pairwise_cons.mp hcr).1
  obtain ⟨left, right, htree, hleft, hright⟩ : ∃ left right, inorder (s.spaces pid).maps = left ++ right ∧
      left.map Prod.fst = l ++ [c] ∧ right.map Prod.fst = r := by
    refine List.map_eq_append_iff.mp ?_
    rw [List.append_assoc, List.singleton_append]
    exact hm
  have hstop := hc.stop_lt
  have hpos := hc.pos
  have hstopc : (s.mm c).stop = (s.mm c).addr + (s.mm c).length := rfl
  -- the tail lies above the part in front and all before it, and below all after it
  have hgt : ∀ y ∈ left, u.dirMm s.nextMm y = .gt := by
    intro y hy
    have hy : y.1 ∈ l ++ [c] := hleft ▸ List.mem_map_of_mem hy
    have hbelow : (u.mm y.1).Valid ∧ (u.mm y.1).stop ≤ fin := by
      obtain hyl | hyc := List.mem_append.mp hy
      · have hle' := hcross y.1 hyl c List.mem_cons_self
        rw [huold y.1 (List.mem_append_left _ hyl)]
        exact ⟨h.valid (by rw [hm]; simp [hyl]), by omega⟩
      · rw [List.mem_singleton.mp hyc, huc]
        exact ⟨hlow, by omega⟩
    have hposy := hbelow.1.pos
    have hstopy : (u.mm y.1).stop = (u.mm y.1).addr + (u.mm y.1).length := rfl
    have haddrt : ((s.mm c).moveUp fin).addr = fin := rfl
    rw [dirMm, hutail, hhigh.fin_eq, hhighstop, hbelow.1.fin_eq, wordSub_of_le (by omega) hstop,
      wordSub_of_le (by omega) (by omega), if_neg (by omega), if_pos (by omega)]
  have hlt : ∀ y ∈ right, u.dirMm s.nextMm y = .lt := by
    intro y hy
    have hy : y.1 ∈ r := hright ▸ List.mem_map_of_mem hy
    have hle' := hafter y.1 hy
    rw [dirMm, hutail, hhigh.fin_eq, hhighstop, huold y.1 (List.mem_append_right _ hy),
      wordSub_of_le (by omega) hstop, if_pos (by omega)]
  obtain ⟨tree, hlink, hin⟩ := linkNode_between (x := (s.nextMm, true)) htree hgt hlt
  have hsplit : s.splitMmap cfg pid addr fin c = (u.setMaps pid (cfg.rb.insertColor s.nextMm tree), true) := by
    show (((s.newMm ((s.mm c).moveUp fin)).2.setMm c ((s.mm c).cutTo addr)).insertLazyMmap cfg pid s.nextMm) = _
    rw [hu, insertLazyMmap, husp, hlink]
  have hmaps : (u.setMaps pid (cfg.rb.insertColor s.nextMm tree)).mmaps pid = l ++ [c, s.nextMm] ++ r := by
    rw [mmaps, setMaps, setSpace_spaces, if_pos rfl]
    refine (cfg.rb.mmaps_insertColor _ _).trans ?_
    rw [RbTree.mmaps, hin, List.map_append, List.map_cons, hleft, hright]
    simp
  rw [hsplit]
  refine ⟨rfl, ⟨[c, s.nextMm], hmaps, ?_, fun i hi => ?_⟩, huold, ?_, fun i hi => ?_, ?_⟩
  · show [u.mm c, u.mm s.nextMm] = _
    rw [huc, hutail]
  · show i < u.nextMm
    have hnextu : u.nextMm = s.nextMm + 1 := by rw [← hu]; rfl
    have hfresh := h.fresh c hmem
    obtain rfl | rfl : i = c ∨ i = s.nextMm := by simpa using hi
    · omega
    · omega
  · rw [← hu]
    exact Nat.le_succ _
  · rw [setMaps, setSpace_spaces, if_pos rfl, husp] at hi
    have hold := h.last i hi
    rw [hm] at hold
    rw [hmaps]
    simp only [List.mem_append, List.mem_cons] at hold ⊢
    tauto
  · rw [← hu]
    exact ⟨rfl, rfl⟩

theorem unmapMiddle_replaced (h : Mapped s pid) (hm : s.mmaps pid = l ++ c :: r) (haddr : addr % pageSize = 0)
    (hfin : fin % pageSize = 0) (hlo : (s.mm c).addr < addr) (hle : addr ≤ fin) (hhi : fin < (s.mm c).stop)
    (hs : s.unmapMiddle cfg pid addr fin c = some t) : Replaced s t pid l r ((s.mm c).cut addr fin) := by
  have hcut : (s.mm c).cut addr fin = [(s.mm c).cutTo addr, (s.mm c).moveUp fin] := by
    rw [LazyMmap.cut, if_neg (by omega), if_pos hlo, if_pos hhi]
    rfl
  obtain ⟨hok, hsplit⟩ := splitMmap_spec cfg h hm haddr hfin hlo hle hhi
  rw [hcut]
  obtain ⟨_, -, hs⟩ := Option.bind_eq_some_iff.mp hs
  split at hs
  · obtain ⟨u, hu, hs⟩ := Option.bind_eq_some_iff.mp hs
    cases hs
    obtain ⟨m, rfl, hsame⟩ := cutAnonMmap_same hu
    exact ⟨hsplit.mmaps, hsplit.mm, hsplit.next, hsplit.last, hsplit.pages.trans hsame⟩
  · cases hs
    exact hsplit

theorem unmapOne_replaced (h : Mapped s pid) (hm : s.mmaps pid = l ++ c :: r) (haddr : addr % pageSize = 0)
    (hfin : fin % pageSize = 0) (hle : addr ≤ fin) (hover : addr < (s.mm c).stop) (hover' : (s.mm c).addr < fin)
    (hs : s.unmapOne cfg pid addr fin c = some t) : Replaced s t pid l r ((s.mm c).cut addr fin) := by
  have hc := h.valid (i := c) (by rw [hm]; simp)
  unfold unmapOne at hs
  dsimp only at hs
  rw [hc.fin_eq] at hs
  split at hs
  · next hin => exact unmapWhole_replaced h hm hin.1 hin.2 hs
  · split at hs
    · next hmid => exact unmapMiddle_replaced h hm haddr hfin hmid.1 hle hmid.2 hs
    · split at hs
      · next hlo => exact unmapLeft_replaced h hm hlo hover hle (by omega) hs
      · next hhi => exact unmapRight_replaced h hm (by omega) hover' (by omega) hs

theorem munmapLoop_spec {n : ℕ} (h : Mapped s pid) (hm : s.mmaps pid = l ++ r) (haddr : addr % pageSize = 0)
    (hfin : fin % pageSize = 0) (hle : addr ≤ fin) (hr : ∀ i ∈ r, addr < (s.mm i).stop)
    (hs : munmapLoop cfg pid addr fin n s r.head? = some t) :
    Mapped t pid ∧ t.records pid = l.map s.mm ++ (r.map s.mm).flatMap (·.cut addr fin) ∧ SamePages s.mem t.mem := by
  induction n generalizing s l r with
  | zero =>
    cases r with
    | nil =>
      cases hs
      exact ⟨h, by simp [State.records, hm], rfl, rfl⟩
    | cons c r => cases hs
  | succ n ih =>
    cases r with
    | nil =>
      cases hs
      exact ⟨h, by simp [State.records, hm], rfl, rfl⟩
    | cons c r =>
      obtain ⟨_, -, hs⟩ := Option.bind_eq_some_iff.mp hs
      split at hs
      · next hpast =>
        -- it starts past the range, and so does all that follows
        have hord := h.ordered
        rw [hm] at hord
        have hafter := (List.pairwise_cons.mp (List.pairwise_append.mp hord).2.1).1
        have hall : ∀ mm ∈ (c :: r).map s.mm, mm.stop ≤ addr ∨ fin ≤ mm.addr := by
          intro mm hmm
          obtain ⟨i, hi, rfl⟩ := List.mem_map.mp hmm
          obtain rfl | hi := List.mem_cons.mp hi
          · exact .inr hpast
          · have hpos := (h.valid (i := c) (by rw [hm]; simp)).pos
            have hstop : (s.mm c).stop = (s.mm c).addr + (s.mm c).length := rfl
            have hle' := hafter i hi
            exact .inr (by omega)
        rw [flatMap_cut_of_outside hall, ← Option.some.inj hs, State.records, hm, List.map_append]
        exact ⟨h, rfl, rfl, rfl⟩
      · next hover =>
        obtain ⟨u, hu, hs⟩ := Option.bind_eq_some_iff.mp hs
        have hrep := unmapOne_replaced h hm haddr hfin hle (hr c List.mem_cons_self) (not_le.mp hover) hu
        have hmapped := hrep.mapped h hm haddr hfin hle
        obtain ⟨new, hnew, hparts, -⟩ := hrep.mmaps
        rw [h.nextMmap_eq hm] at hs
        have hold : ∀ i ∈ r, u.mm i = s.mm i := fun i hi => hrep.mm i (List.mem_append_right _ hi)
        obtain ⟨ht, hrecords, hsame⟩ := ih hmapped hnew (fun i hi => by
          rw [hold i hi]
          exact hr i (List.mem_cons_of_mem _ hi)) hs
        have hleft : l.map u.mm = l.map s.mm := List.map_congr_left fun i hi => hrep.mm i (List.mem_append_left _ hi)
        refine ⟨ht, ?_, hrep.pages.trans hsame⟩
        rw [hrecords, List.map_append, hleft, hparts, List.map_congr_left hold, List.append_assoc]
        rfl

-- Pages

structure Paged (m : Mem) (pid : ℕ) : Prop where
  distinct : (m.pages pid).Pairwise fun u v => (m.vp u).addr ≠ (m.vp v).addr
  aligned : ∀ v ∈ m.pages pid, (m.vp v).addr % pageSize = 0

theorem popPage_spec {m : Mem} {pos : ℕ} (h : Paged m pid) {x : ℕ × Mem} (hpop : m.popPage pid pos = some x) :
    x.2.vp = m.vp ∧ Paged x.2 pid ∧ ∀ v, v ∈ x.2.pages pid ↔ v ∈ m.pages pid ∧ (m.vp v).addr ≠ pos := by
  obtain ⟨hx, hpos, hm⟩ := Mem.popPage_eq_some hpop
  have hpages : x.2.pages pid = (m.pages pid).erase x.1 := by
    rw [hm, Mem.dropPage]
    exact Function.update_self _ _ _
  have hvp : x.2.vp = m.vp := by rw [hm]; rfl
  have hnodup : (m.pages pid).Nodup := h.distinct.imp fun {u v} hne heq => hne (congrArg (fun v => (m.vp v).addr) heq)
  have hmem (v : ℕ) : v ∈ x.2.pages pid ↔ v ∈ m.pages pid ∧ (m.vp v).addr ≠ pos := by
    rw [hpages, hnodup.mem_erase_iff, and_comm]
    refine and_congr_right fun hv => not_congr ⟨fun heq => heq ▸ hpos, fun haddr => ?_⟩
    have hsame : (m.pages pid).Pairwise fun u w => (m.vp u).addr = (m.vp w).addr → u = w :=
      h.distinct.imp fun hne heq => absurd heq hne
    exact List.Pairwise.forall_of_forall_of_flip (fun _ _ _ => rfl) hsame
      (hsame.imp fun hu heq => (hu heq.symm).symm) hv hx (haddr.trans hpos.symm)
  refine ⟨hvp, ⟨?_, fun v hv => ?_⟩, hmem⟩
  · rw [hpages, hvp]
    exact h.distinct.sublist List.erase_sublist
  · rw [hvp]
    exact h.aligned v ((hmem v).mp hv).1

theorem removeVps_spec {m m' : Mem} {n pos : ℕ} (h : Paged m pid) (hs : Mem.removeVps cfg pid n pos m = some m') :
    m'.vp = m.vp ∧ ∀ v, v ∈ m'.pages pid ↔ v ∈ m.pages pid ∧ ∀ k < n, (m.vp v).addr ≠ pos + k * pageSize := by
  induction n generalizing pos m with
  | zero =>
    cases hs
    exact ⟨rfl, fun v => by simp⟩
  | succ n ih =>
    -- the pages of the turns that follow, and the one of this turn
    have hsplit (a : ℕ) : (∀ k < n + 1, a ≠ pos + k * pageSize) ↔
        a ≠ pos ∧ ∀ k < n, a ≠ pos + pageSize + k * pageSize := by
      constructor
      · intro hall
        refine ⟨by simpa using hall 0 (Nat.succ_pos n), fun k hk => ?_⟩
        have hne := hall (k + 1) (by omega)
        rwa [Nat.succ_mul, Nat.add_comm (k * pageSize), ← Nat.add_assoc] at hne
      · rintro ⟨hzero, hall⟩ k hk
        cases k with
        | zero => simpa using hzero
        | succ k =>
          rw [Nat.succ_mul, Nat.add_comm (k * pageSize), ← Nat.add_assoc]
          exact hall k (by omega)
    rw [Mem.removeVps] at hs
    split at hs
    · next hpop =>
      obtain ⟨hvp, hmem⟩ := ih h hs
      refine ⟨hvp, fun v => ?_⟩
      rw [hmem, hsplit]
      refine and_congr_right fun hv => (and_iff_right fun haddr => ?_).symm
      have hnone := List.find?_eq_none.mp (Option.map_eq_none_iff.mp hpop) v hv
      exact hnone (decide_eq_true haddr)
    · next v m1 hpop =>
      obtain ⟨m2, hm2, hs⟩ := Option.bind_eq_some_iff.mp hs
      obtain ⟨hvp1, hpaged1, hmem1⟩ := popPage_spec h hpop
      have hvp2 : m2.vp = m.vp := (Mem.removeVp_vp hm2).trans hvp1
      have hpages2 : m2.pages = m1.pages := Mem.removeVp_pages hm2
      have hpaged2 : Paged m2 pid := by
        refine ⟨?_, fun u hu => ?_⟩
        · rw [hpages2, Mem.removeVp_vp hm2]
          exact hpaged1.distinct
        · rw [Mem.removeVp_vp hm2]
          exact hpaged1.aligned u (hpages2 ▸ hu)
      obtain ⟨hvp, hmem⟩ := ih hpaged2 hs
      refine ⟨hvp.trans hvp2, fun u => ?_⟩
      rw [hmem, hpages2, hmem1, hsplit, hvp2, and_assoc]

theorem removeVpRange_spec {m m' : Mem} {size : ℕ} (h : Paged m pid) (haddr : addr % pageSize = 0)
    (hsize : size % pageSize = 0) (hlt : addr + size < 2 ^ 32) (hs : m.removeVpRange cfg pid addr size = some m') :
    m'.vp = m.vp ∧ ∀ v, v ∈ m'.pages pid ↔
      v ∈ m.pages pid ∧ ¬ (addr ≤ (m.vp v).addr ∧ (m.vp v).addr < addr + size) := by
  obtain ⟨m1, hm1, rfl⟩ := Option.map_eq_some_iff.mp hs
  obtain ⟨hvp, hmem⟩ := removeVps_spec h hm1
  refine ⟨hvp, fun v => ?_⟩
  show v ∈ m1.pages pid ↔ _
  rw [hmem, word_of_lt hlt]
  refine and_congr_right fun hv => ⟨fun hall hin => ?_, fun hout k hk haddr' => hout ?_⟩
  · have halign := h.aligned v hv
    refine hall (((m.vp v).addr - addr) / pageSize) ?_ ?_ <;> simp only [pageSize] at * <;> omega
  · simp only [pageSize] at *
    omega

-- The range

structure Exact (s t : State) (pid addr fin : ℕ) : Prop where
  unmapped : ∀ a, addr ≤ a → a < fin → t.resolve pid a = none
  absent : ∀ v ∈ t.mem.pages pid, ¬ (addr ≤ (t.mem.vp v).addr ∧ (t.mem.vp v).addr < fin)
  kept : ∀ a, a < addr ∨ fin ≤ a → t.resolve pid a = s.resolve pid a
  present : ∀ v ∈ s.mem.pages pid, ¬ (addr ≤ (s.mem.vp v).addr ∧ (s.mem.vp v).addr < fin) →
    v ∈ t.mem.pages pid ∧ t.mem.vp v = s.mem.vp v

def Found (s : State) (pid addr fin : ℕ) : Prop :=
  ∀ y, probe (s.dirAddr addr) (s.spaces pid).maps = some y → (s.mm y.1).stop ≤ addr →
    ∀ i ∈ s.mmaps pid, ¬ (addr < (s.mm i).stop ∧ (s.mm i).addr < fin)

theorem munmapSpace_loop {size : ℕ} (hlt : addr + size < 2 ^ 32) (hs : s.munmapSpace cfg pid addr size = some t) :
    ∃ m, s.mem.removeVpRange cfg pid addr size = some m ∧
      munmapLoop cfg pid addr (addr + size) ((s.mmaps pid).length + 2) { s with mem := m }
        (s.firstLazyMmap pid addr size) = some t := by
  obtain ⟨_, -, hs⟩ := Option.bind_eq_some_iff.mp hs
  obtain ⟨_, -, hs⟩ := Option.bind_eq_some_iff.mp hs
  obtain ⟨m, hm, hs⟩ := Option.bind_eq_some_iff.mp hs
  obtain ⟨u, hloop, hs⟩ := Option.bind_eq_some_iff.mp hs
  obtain ⟨_, -, hs⟩ := Option.bind_eq_some_iff.mp hs
  cases hs
  rw [word_of_lt hlt] at hloop
  exact ⟨m, hm, hloop⟩

theorem Mapped.stop_of_mem (h : Mapped s pid) (hm : s.mmaps pid = l ++ c :: r) (hc : addr < (s.mm c).stop) :
    ∀ i ∈ c :: r, addr < (s.mm i).stop := by
  intro i hi
  obtain rfl | hi := List.mem_cons.mp hi
  · exact hc
  · have hord := h.ordered
    rw [hm] at hord
    have hle := (List.pairwise_cons.mp (List.pairwise_append.mp hord).2.1).1 i hi
    have hstop : (s.mm i).stop = (s.mm i).addr + (s.mm i).length := rfl
    omega

theorem munmapLoop_cases {m : Mem} {size : ℕ} (h : Mapped s pid) (hlt : addr + size < 2 ^ 32)
    (hloop : munmapLoop cfg pid addr (addr + size) ((s.mmaps pid).length + 2) { s with mem := m }
      (s.firstLazyMmap pid addr size) = some t) :
    t = { s with mem := m } ∧ ((∃ y, probe (s.dirAddr addr) (s.spaces pid).maps = some y ∧ (s.mm y.1).stop ≤ addr) ∨
        ∀ i ∈ s.mmaps pid, ¬ (addr < (s.mm i).stop ∧ (s.mm i).addr < addr + size)) ∨
      ∃ l c r, s.mmaps pid = l ++ c :: r ∧ (∀ i ∈ l, (s.mm i).stop ≤ addr) ∧ (∀ i ∈ c :: r, addr < (s.mm i).stop) ∧
        (∀ y, probe (s.dirAddr addr) (s.spaces pid).maps = some y → addr < (s.mm y.1).stop) ∧
        munmapLoop cfg pid addr (addr + size) ((s.mmaps pid).length + 2) { s with mem := m } (some c) = some t := by
  -- where the lookup finds nothing the loop leaves the mappings
  have hnone (hfirst : s.firstLazyMmap pid addr size = none) : t = { s with mem := m } := by
    rw [hfirst] at hloop
    exact (Option.some.inj hloop).symm
  obtain ⟨y, hprobe, hstop, hfirst⟩ | ⟨l, c, r, hsplit, hl, hc, -, hfirst, hy⟩ | ⟨hfirst, hno⟩ :=
    h.firstLazyMmap_cases hlt
  · exact .inl ⟨hnone hfirst, .inl ⟨y, hprobe, hstop⟩⟩
  · exact .inr ⟨l, c, r, hsplit, hl, h.stop_of_mem hsplit hc, hy, hfirst ▸ hloop⟩
  · exact .inl ⟨hnone hfirst, .inr hno⟩

theorem munmapLoop_maps {m : Mem} {size : ℕ} (h : Mapped s pid) (haddr : addr % pageSize = 0) (hsize : size % pageSize = 0)
    (hlt : addr + size < 2 ^ 32)
    (hloop : munmapLoop cfg pid addr (addr + size) ((s.mmaps pid).length + 2) { s with mem := m }
      (s.firstLazyMmap pid addr size) = some t) :
    SamePages m t.mem ∧ Mapped t pid ∧
      (Found s pid addr (addr + size) → t.records pid = (s.records pid).flatMap (·.cut addr (addr + size))) ∧
      (¬ Found s pid addr (addr + size) → t.records pid = s.records pid) := by
  have hcases := munmapLoop_cases h hlt hloop
  have h' : Mapped { s with mem := m } pid := ⟨h.inOrder, h.fresh, h.last⟩
  have hfin : (addr + size) % pageSize = 0 := by
    simp only [pageSize] at *
    omega
  have houtside (hno : ∀ i ∈ s.mmaps pid, ¬ (addr < (s.mm i).stop ∧ (s.mm i).addr < addr + size)) :
      s.records pid = (s.records pid).flatMap (·.cut addr (addr + size)) := by
    refine (flatMap_cut_of_outside fun mm hmm => ?_).symm
    obtain ⟨i, hi, rfl⟩ := List.mem_map.mp hmm
    have hout := hno i hi
    omega
  obtain ⟨rfl, ⟨y, hprobe, hstop⟩ | hno⟩ | ⟨l, c, r, hsplit, hl, hr, hy, hloop⟩ := hcases
  · exact ⟨⟨rfl, rfl⟩, h', fun hfound => houtside (hfound y hprobe hstop), fun _ => rfl⟩
  · exact ⟨⟨rfl, rfl⟩, h', fun _ => houtside hno, fun hnot => absurd (fun _ _ _ => hno) hnot⟩
  · obtain ⟨hu, hrecords, hsame⟩ :=
      munmapLoop_spec (r := c :: r) h' hsplit haddr hfin (Nat.le_add_right _ _) hr hloop
    have hleft : (l.map s.mm).flatMap (·.cut addr (addr + size)) = l.map s.mm := by
      refine flatMap_cut_of_outside fun mm hmm => ?_
      obtain ⟨i, hi, rfl⟩ := List.mem_map.mp hmm
      exact .inl (hl i hi)
    refine ⟨hsame, hu, fun _ => ?_, fun hno => ?_⟩
    · rw [hrecords, State.records, hsplit, List.map_append, List.flatMap_append, hleft]
    · exact absurd (fun y hprobe hstop => absurd hstop (not_le.mpr (hy y hprobe))) hno

/-- What `munmap_space` does to the mappings: they are cut, unless the lookup fails. -/
theorem munmapSpace_maps {size : ℕ} (h : Mapped s pid) (haddr : addr % pageSize = 0) (hsize : size % pageSize = 0)
    (hlt : addr + size < 2 ^ 32) (hs : s.munmapSpace cfg pid addr size = some t) :
    ∃ m, s.mem.removeVpRange cfg pid addr size = some m ∧ SamePages m t.mem ∧ Mapped t pid ∧
      (Found s pid addr (addr + size) → t.records pid = (s.records pid).flatMap (·.cut addr (addr + size))) ∧
      (¬ Found s pid addr (addr + size) → t.records pid = s.records pid) := by
  obtain ⟨m, hm, hloop⟩ := munmapSpace_loop hlt hs
  exact ⟨m, hm, munmapLoop_maps h haddr hsize hlt hloop⟩

theorem munmapSpace_records {size : ℕ} (h : Mapped s pid) (hpages : Paged s.mem pid) (haddr : addr % pageSize = 0)
    (hsize : size % pageSize = 0) (hlt : addr + size < 2 ^ 32) (hs : s.munmapSpace cfg pid addr size = some t) :
    Mapped t pid ∧
      (Found s pid addr (addr + size) → t.records pid = (s.records pid).flatMap (·.cut addr (addr + size))) ∧
      (¬ Found s pid addr (addr + size) → t.records pid = s.records pid) ∧
      t.mem.vp = s.mem.vp ∧ ∀ v, v ∈ t.mem.pages pid ↔
        v ∈ s.mem.pages pid ∧ ¬ (addr ≤ (s.mem.vp v).addr ∧ (s.mem.vp v).addr < addr + size) := by
  obtain ⟨m, hm, hsame, ht, hfound, hno⟩ := munmapSpace_maps h haddr hsize hlt hs
  obtain ⟨hvp, hmem⟩ := removeVpRange_spec hpages haddr hsize hlt hm
  refine ⟨ht, hfound, hno, hsame.2.trans hvp, fun v => ?_⟩
  rw [hsame.1]
  exact hmem v

variable {size : ℕ}

theorem Exact.found (h : Mapped s pid) (hpages : Paged s.mem pid) (haddr : addr % pageSize = 0)
    (hsize : size % pageSize = 0) (hlt : addr + size < 2 ^ 32) (hs : s.munmapSpace cfg pid addr size = some t)
    (hexact : Exact s t pid addr (addr + size)) : Found s pid addr (addr + size) := by
  obtain ⟨ht, -, hleft, -⟩ := munmapSpace_records h hpages haddr hsize hlt hs
  by_contra hno
  obtain ⟨y, hprobe, hy, i, hi, hstop, hstart⟩ : ∃ y, probe (s.dirAddr addr) (s.spaces pid).maps = some y ∧
      (s.mm y.1).stop ≤ addr ∧ ∃ i ∈ s.mmaps pid, addr < (s.mm i).stop ∧ (s.mm i).addr < addr + size := by
    by_contra hnot
    exact hno fun y hprobe hy i hi hover => hnot ⟨y, hprobe, hy, i, hi, hover⟩
  have hge : addr ≤ (s.mm i).addr := by
    by_contra hlow
    exact h.probe_covers hi ⟨by omega, hstop⟩ hprobe hy
  have hnone := hexact.unmapped (s.mm i).addr hge hstart
  rw [ht.resolve_eq, hleft hno] at hnone
  exact resolveIn_eq_none.mp hnone _ (List.mem_map_of_mem hi) ⟨le_rfl, Nat.lt_add_of_pos_right (h.valid hi).pos⟩

theorem Exact.ends (h : Mapped s pid) (hpages : Paged s.mem pid) (haddr : addr % pageSize = 0)
    (hsize : size % pageSize = 0) (hlt : addr + size < 2 ^ 32) (hs : s.munmapSpace cfg pid addr size = some t)
    (hexact : Exact s t pid addr (addr + size)) : Ends (s.records pid) (addr + size) := by
  obtain ⟨ht, hcut, -⟩ := munmapSpace_records h hpages haddr hsize hlt hs
  have hfin : (addr + size) % pageSize = 0 := by
    simp only [pageSize] at *
    omega
  intro mm hmm hover
  have hkept := hexact.kept (addr + size) (.inr le_rfl)
  rw [ht.resolve_eq, h.resolve_eq, hcut (hexact.found h hpages haddr hsize hlt hs)] at hkept
  exact resolveIn_cut_tail h.inOrder haddr hfin (Nat.le_add_right _ _) hmm hover.1 hover.2 hkept

-- When it is exact

/-- **Unmapping**: when `munmap_space` returns, nothing in the range is mapped or resident and all
other addresses are backed as before, exactly when the way down to the start of the range does not
end below it while a mapping is in the range, and no mapping goes on past the end of the range. -/
theorem munmap_exact_iff (h : Mapped s pid) (hpages : Paged s.mem pid) (haddr : addr % pageSize = 0)
    (hsize : size % pageSize = 0) (hlt : addr + size < 2 ^ 32) (hs : s.munmapSpace cfg pid addr size = some t) :
    Exact s t pid addr (addr + size) ↔ Found s pid addr (addr + size) ∧ Ends (s.records pid) (addr + size) := by
  refine ⟨fun hexact => ⟨hexact.found h hpages haddr hsize hlt hs, hexact.ends h hpages haddr hsize hlt hs⟩, ?_⟩
  rintro ⟨hfound, hends⟩
  obtain ⟨ht, hcut, -, hvp, hmem⟩ := munmapSpace_records h hpages haddr hsize hlt hs
  have hrecords := hcut hfound
  have hfin : (addr + size) % pageSize = 0 := by
    simp only [pageSize] at *
    omega
  refine ⟨fun a hlo hhi => ?_, fun v hv => ?_, fun a ha => ?_, fun v hv hout => ?_⟩
  · rw [ht.resolve_eq, hrecords]
    exact resolveIn_cut_inside h.inOrder haddr hlo hhi
  · rw [hvp]
    exact ((hmem v).mp hv).2
  · rw [ht.resolve_eq, h.resolve_eq, hrecords]
    exact resolveIn_cut_outside h.inOrder haddr hfin (Nat.le_add_right _ _) hends ha
  · exact ⟨(hmem v).mpr ⟨hv, hout⟩, congrFun hvp v⟩

-- A mapping of three pages

def threePages : LazyMmap where
  addr := 0x10000
  length := 0x3000
  rights := ⟨true, false, false⟩
  shared := true
  priv := false
  anon := false
  fdServ := ⟨100, 6⟩
  ino := 7
  offset := 0
  tailsz := pageSize

def oneMapping : State where
  mem :=
    { link := fun _ => none, owner := fun _ => none, data := fun _ => default, pl := fun _ => ⟨0, false, 0, 0⟩,
      vp := fun _ => ⟨0, .full, false, false, false, 0⟩, free := [], active := [], cache := [], shareTable := [],
      pages := fun _ => [], plbuf := [], nextPl := 0, nextVp := 0 }
  spaces _ := ⟨true, .nil, .nil, .nil, leaning [(0, true)], none, 0x1000, 0xc0000000⟩
  mm _ := threePages
  anonMmapTable := []
  nextMm := 1
  nextAnonIno := 0

theorem oneMapping_mapped : Mapped oneMapping 1 ∧ Paged oneMapping.mem 1 := by
  refine ⟨⟨⟨fun mm hmm => ?_, List.pairwise_singleton _ _⟩, fun i hi => ?_, fun i hi => ?_⟩, .nil, fun v hv => ?_⟩
  · obtain rfl := List.mem_singleton.mp hmm
    exact ⟨by decide, by decide, by decide, by decide⟩
  · obtain rfl := List.mem_singleton.mp hi
    exact Nat.zero_lt_one
  · cases hi
  · cases hv

/-- Its first page is unmapped. The second was page 1 of the file, and is then page 0. -/
theorem tail_pages_move : Mapped oneMapping 1 ∧ Paged oneMapping.mem 1 ∧
    ∃ t, oneMapping.munmapSpace plainConfig 1 0x10000 0x1000 = some t ∧
      (oneMapping.resolve 1 0x11000).map Backing.page = some 1 ∧
      (t.resolve 1 0x11000).map Backing.page = some 0 ∧ ¬ Exact oneMapping t 1 0x10000 0x11000 := by
  obtain ⟨hmapped, hpaged⟩ := oneMapping_mapped
  refine ⟨hmapped, hpaged, _, rfl, rfl, rfl, fun hexact => ?_⟩
  have hkept := congrArg (Option.map Backing.page) (hexact.kept 0x11000 (.inr le_rfl))
  exact absurd (Option.some.inj hkept) (by decide)

/-- All of it is unmapped. -/
theorem munmap_whole : ∃ t, oneMapping.munmapSpace plainConfig 1 0x10000 0x3000 = some t ∧
    (Exact oneMapping t 1 0x10000 (0x10000 + 0x3000) ↔
      Found oneMapping 1 0x10000 (0x10000 + 0x3000) ∧ Ends (oneMapping.records 1) (0x10000 + 0x3000)) := by
  obtain ⟨hmapped, hpaged⟩ := oneMapping_mapped
  obtain ⟨t, ht⟩ : ∃ t, oneMapping.munmapSpace plainConfig 1 0x10000 0x3000 = some t := ⟨_, rfl⟩
  exact ⟨t, ht, munmap_exact_iff hmapped hpaged (by decide) (by decide) (by decide) ht⟩

end State

end Sneks.Vm
