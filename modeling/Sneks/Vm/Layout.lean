import Sneks.Vm.Cases
import Sneks.Vm.Forkable
import Sneks.Vm.Placing

/-!
# The mappings of all spaces

In every run whose calls place mappings below the last byte, the mappings of each space are in order
and no two spaces have one in common.
-/

namespace Sneks.Vm
open Lib

def Space.areas (sp : Space) : List Fpage := [sp.utcbArea, sp.kipArea, sp.sysinfoArea]

def Fpage.Low (fp : Fpage) : Prop := fp = .unset ∨ fp.address + fp.size < 2 ^ 32

/-- What `find_max_addr` finds: the last byte of a page. -/
def Config.EndsPage (cfg : Config) : Prop := (cfg.userAddrMax + 1) % pageSize = 0 ∧ cfg.userAddrMax < 2 ^ 32

namespace State

def BotGood (bot : ℕ) : Prop := (bot + 1) % pageSize = 0 ∧ bot < 2 ^ 32

structure Layout (s : State) : Prop where
  mapped : ∀ pid, Mapped s pid
  apart : ∀ pid q i, i ∈ s.mmaps pid → i ∈ s.mmaps q → pid = q
  areas : ∀ pid, ∀ fp ∈ (s.spaces pid).areas, fp.Low
  brk : ∀ pid, (s.spaces pid).brk % pageSize = 0 ∧ (s.spaces pid).brk < 2 ^ 32
  bot : ∀ pid, (s.spaces pid).kipArea ≠ .nil → BotGood (s.spaces pid).mmapBot

variable {cfg : Config} {s t u : State} {pid i addr length bot : ℕ} {ok : Bool} {mm : LazyMmap}

theorem Layout.init (phys : PhysMem) : Layout (bootState phys) where
  mapped _ := ⟨⟨nofun, List.Pairwise.nil⟩, nofun, nofun⟩
  apart _ _ _ hi := nomatch hi
  areas _ fp hfp := by
    have hnil : fp = .nil := by simpa [Space.areas, bootState] using hfp
    exact .inr (by rw [hnil]; decide)
  brk _ := ⟨rfl, show 0 < 2 ^ 32 by decide⟩
  bot _ h := absurd rfl h

theorem Layout.setSpace {sp : Space} (h : Layout s) (hmaps : sp.maps = (s.spaces pid).maps)
    (hlast : sp.lastMmap = (s.spaces pid).lastMmap) (hareas : ∀ fp ∈ sp.areas, fp.Low)
    (hbrk : sp.brk % pageSize = 0 ∧ sp.brk < 2 ^ 32) (hbot : sp.kipArea ≠ .nil → BotGood sp.mmapBot) :
    Layout (s.setSpace pid sp) := by
  have hmm : ∀ q, (s.setSpace pid sp).mmaps q = s.mmaps q := fun q => by
    rw [mmaps, mmaps, setSpace_spaces]
    split
    · next he => rw [he, hmaps]
    · rfl
  refine ⟨fun q => (h.mapped q).congr (hmm q) (fun _ _ => rfl) le_rfl ?_, fun p q j hp hq => ?_, fun q => ?_, fun q => ?_,
    fun q => ?_⟩
  · rw [setSpace_spaces]
    split
    · next he => rw [he, hlast]
    · rfl
  · exact h.apart p q j (hmm p ▸ hp) (hmm q ▸ hq)
  · rw [setSpace_spaces]
    split
    · exact hareas
    · exact h.areas q
  · rw [setSpace_spaces]
    split
    · exact hbrk
    · exact h.brk q
  · rw [setSpace_spaces]
    split
    · exact hbot
    · exact h.bot q

theorem Layout.confined (h : Layout s) (hc : Confined s t pid bot) (hm : Mapped t pid)
    (hbot : (s.spaces pid).kipArea ≠ .nil → BotGood bot) : Layout t := by
  have hmaps : ∀ q, q ≠ pid → t.mmaps q = s.mmaps q := fun q hq => by rw [mmaps, mmaps, hc.others q hq]
  have hsep : ∀ q j, q ≠ pid → j ∈ t.mmaps pid → j ∈ t.mmaps q → False := fun q j hq hj hj' => by
    rw [hmaps q hq] at hj'
    obtain hj | hj := hc.mmaps j hj
    · exact hq (h.apart q pid j hj' hj)
    · exact absurd ((h.mapped q).fresh j hj') (Nat.not_lt.mpr hj)
  obtain ⟨maps, last, hsp⟩ := hc.space
  refine ⟨fun q => ?_, fun p q j hp hq => ?_, fun q => ?_, fun q => ?_, fun q => ?_⟩
  · by_cases hq : q = pid
    · exact hq ▸ hm
    · refine (h.mapped q).congr (hmaps q hq) (fun j hj => ?_) hc.next (by rw [hc.others q hq])
      exact hc.mm j ((h.mapped q).fresh j hj) fun hj' => hq (h.apart q pid j hj hj')
  · by_cases hp' : p = pid
    · by_cases hq' : q = pid
      · rw [hp', hq']
      · exact (hsep q j hq' (hp' ▸ hp) hq).elim
    · by_cases hq' : q = pid
      · exact (hsep p j hp' (hq' ▸ hq) hp).elim
      · exact h.apart p q j (hmaps p hp' ▸ hp) (hmaps q hq' ▸ hq)
  · by_cases hq : q = pid
    · rw [hq, hsp]
      exact h.areas pid
    · rw [hc.others q hq]
      exact h.areas q
  · by_cases hq : q = pid
    · rw [hq, hsp]
      exact h.brk pid
    · rw [hc.others q hq]
      exact h.brk q
  · by_cases hq : q = pid
    · rw [hq, hsp]
      exact hbot
    · rw [hc.others q hq]
      exact h.bot q

theorem Layout.congr (h : Layout s) (hsp : t.spaces = s.spaces) (hmm : t.mm = s.mm) (hnext : t.nextMm = s.nextMm) :
    Layout t := by
  have hmaps : ∀ q, t.mmaps q = s.mmaps q := fun q => by rw [mmaps, mmaps, hsp]
  exact ⟨fun q => (h.mapped q).congr (hmaps q) (fun j _ => congrFun hmm j) hnext.ge (by rw [hsp]),
    fun p q j hp hq => h.apart p q j (hmaps p ▸ hp) (hmaps q ▸ hq), hsp ▸ h.areas, hsp ▸ h.brk, hsp ▸ h.bot⟩

theorem Mapped.shrink (h : Mapped s pid) (hv : mm.Valid) (hlo : (s.mm i).addr ≤ mm.addr)
    (hhi : mm.stop ≤ (s.mm i).stop) : Mapped (s.setMm i mm) pid := by
  have hwithin : ∀ j, (s.mm j).addr ≤ ((s.setMm i mm).mm j).addr ∧ ((s.setMm i mm).mm j).stop ≤ (s.mm j).stop := by
    intro j
    rw [setMm_mm]
    split
    · next he => exact he ▸ ⟨hlo, hhi⟩
    · exact ⟨le_rfl, le_rfl⟩
  refine ⟨⟨fun mm' hmm => ?_, ?_⟩, h.fresh, h.last⟩
  · obtain ⟨j, hj, rfl⟩ := List.mem_map.mp hmm
    rw [setMm_mm]
    split
    · exact hv
    · exact h.valid hj
  · refine List.pairwise_map.mpr (h.ordered.imp fun {a b} hab => ?_)
    exact (hwithin a).2.trans (hab.trans (hwithin b).1)

theorem Layout.ready (h : Layout s) (pid : ℕ) (mm : LazyMmap) :
    Ready s (s.newMm mm).2 pid s.nextMm (s.spaces pid).mmapBot := (h.mapped pid).ready mm

theorem Put.layout {r : State × Bool} (h : Put s pid i addr length bot r) (hs : Layout s)
    (hbot : (s.spaces pid).kipArea ≠ .nil → BotGood bot) : Layout r.1 :=
  hs.confined h.confined h.mapped hbot

theorem Layout.reserveFixed {res : Result Unit} (h : Layout s) (hr : Ready s u pid i (s.spaces pid).mmapBot)
    (hv : ((u.mm i).at addr length).Valid) (hs : u.reserveMmap cfg pid i addr length true ok = some (t, res)) : Layout t := by
  obtain ⟨rfl, -⟩ | ⟨-, -, b, hput, -⟩ := reserveFixed_spec hr hv hs
  · exact h.confined hr.confined hr.mapped (h.bot pid)
  · exact hput.layout h (h.bot pid)

-- Calls that place nothing they are told to

theorem pageFloor_mod (n : ℕ) : pageFloor n % pageSize = 0 := Nat.mul_mod_left _ _

theorem pageCeil_lt (n : ℕ) : pageCeil n < 2 ^ 32 := by
  have hword : word (n + pageSize - 1) < 2 ^ 32 := Nat.mod_lt _ (by decide)
  rw [pageCeil, pageFloor]
  simp only [pageSize] at *
  omega

theorem add_lt_of_validAddrSize {size : ℕ} (h : validAddrSize addr size = true) (hlt : size < 2 ^ 32) :
    addr + size < 2 ^ 32 := by
  have hle : addr ≤ 2 ^ 32 - 1 - size := of_decide_eq_true h
  omega

theorem findLazyMmap_cases (s : State) (pid addr : ℕ) :
    (s.findLazyMmap pid addr).2 = s ∨ ∃ i, s.findLazyMmap pid addr = (some i, s.setLast pid (some i)) := by
  rw [findLazyMmap]
  split
  · exact .inl rfl
  · split
    · next y _ => exact .inr ⟨y.1, rfl⟩
    · exact .inl rfl

theorem findLazyMmap_mmaps (s : State) (pid addr : ℕ) : (s.findLazyMmap pid addr).2.mmaps pid = s.mmaps pid := by
  obtain heq | ⟨i, heq⟩ := findLazyMmap_cases s pid addr
  · rw [heq]
  · rw [heq, mmaps, setLast, setSpace_spaces, if_pos rfl, mmaps]

theorem findLazyMmap_none (h : (s.findLazyMmap pid addr).1 = none) : (s.findLazyMmap pid addr).2 = s := by
  obtain heq | ⟨i, heq⟩ := findLazyMmap_cases s pid addr
  · exact heq
  · rw [heq] at h
    cases h

theorem brkGrow_cases (cfg : Config) (h : Mapped s pid) (a : ℕ) (malloc : Bool) :
    ((∃ i ∈ s.mmaps pid, (s.mm i).Covers (s.spaces pid).brk) ∧
        s.brkGrow cfg pid a malloc = some ((s.findLazyMmap pid (s.spaces pid).brk).2, .ok ())) ∨
      (∀ i ∈ s.mmaps pid, ¬ (s.mm i).Covers (s.spaces pid).brk) ∧
        s.brkGrow cfg pid a malloc = if malloc = false then some (s, .error .ENOMEM) else
          (s.newMm heapMmap).2.reserveMmap cfg pid s.nextMm (s.spaces pid).brk (wordSub a (s.spaces pid).brk) true true := by
  have hmm := findLazyMmap_mm s pid (s.spaces pid).brk
  simp only [State.brkGrow]
  obtain ⟨i, hi, hcov, hfind⟩ | ⟨hno, hfind⟩ := h.findLazyMmap_spec (s.spaces pid).brk
  · have hnot : ¬ (s.mm i).fin = (s.spaces pid).brk := by
      rw [(h.valid hi).fin_eq]
      exact fun he => Nat.lt_irrefl _ (he ▸ hcov.2)
    refine .inl ⟨⟨i, hi, hcov⟩, ?_⟩
    rw [hfind, hmm, Option.filter_some, if_neg (by simp [hnot])]
  · refine .inr ⟨hno, ?_⟩
    rw [hfind, findLazyMmap_none hfind]
    rfl

def shortened (s : State) (i a : ℕ) : LazyMmap := { s.mm i with length := wordSub a (s.mm i).addr }

theorem brkShrink_cases (cfg : Config) (h : Mapped s pid) (a : ℕ) :
    (∃ i ∈ s.mmaps pid, (s.mm i).addr < a ∧ (s.mm i).stop = (s.spaces pid).brk ∧ (s.mm i).anon = true ∧
        s.brkShrink cfg pid a =
          (s.mem.removeVpRange cfg pid a (wordSub (s.spaces pid).brk a)).map fun m =>
            { (s.findLazyMmap pid (wordSub (s.spaces pid).brk 1)).2.setMm i (s.shortened i a) with mem := m }) ∨
      (∀ i ∈ s.mmaps pid, ¬ ((s.mm i).addr < a ∧ (s.mm i).stop = (s.spaces pid).brk ∧ (s.mm i).anon = true)) ∧
        s.brkShrink cfg pid a = (s.findLazyMmap pid (wordSub (s.spaces pid).brk 1)).2.munmapSpace cfg pid a
          (wordSub (s.spaces pid).brk a) := by
  have hmm := findLazyMmap_mm s pid (wordSub (s.spaces pid).brk 1)
  have hmem : (s.findLazyMmap pid (wordSub (s.spaces pid).brk 1)).2.mem = s.mem := findLazyMmap_mem
  -- the mapping that ends at the break is the one below it
  have hbelow : ∀ i ∈ s.mmaps pid, (s.mm i).stop = (s.spaces pid).brk → (s.mm i).Covers (wordSub (s.spaces pid).brk 1) := by
    intro i hi hstop
    have hv := h.valid hi
    have hpos := hv.pos
    have hlt := hv.stop_lt
    have hstop' : (s.mm i).stop = (s.mm i).addr + (s.mm i).length := rfl
    rw [wordSub_of_le (by omega) (by omega)]
    exact ⟨by omega, by omega⟩
  obtain ⟨i, hi, hcov, hfind⟩ | ⟨hno, hfind⟩ := h.findLazyMmap_spec (wordSub (s.spaces pid).brk 1)
  · by_cases hfast : (s.mm i).addr < a ∧ (s.mm i).stop = (s.spaces pid).brk ∧ (s.mm i).anon = true
    · refine .inl ⟨i, hi, hfast.1, hfast.2.1, hfast.2.2, ?_⟩
      simp only [State.brkShrink]
      rw [hfind, hmm, Option.filter_some, (h.valid hi).fin_eq, if_pos (decide_eq_true hfast)]
      simp only [setMm, hmem, hmm]
      rfl
    · refine .inr ⟨fun j hj hends => hfast ?_, ?_⟩
      · rwa [h.inOrder.unique (List.mem_map_of_mem hi) (List.mem_map_of_mem hj) hcov (hbelow j hj hends.2.1)]
      · simp only [State.brkShrink]
        rw [hfind, hmm, Option.filter_some, (h.valid hi).fin_eq, if_neg (by simpa using hfast)]
  · refine .inr ⟨fun i hi hends => hno i hi (hbelow i hi hends.2.1), ?_⟩
    simp only [State.brkShrink]
    rw [hfind]
    rfl

namespace Layout

theorem munmapSpace {size : ℕ} (h : Layout s) (haddr : addr % pageSize = 0) (hsize : size % pageSize = 0)
    (hlt : addr + size < 2 ^ 32) (hs : s.munmapSpace cfg pid addr size = some t) : Layout t := by
  obtain ⟨m, -, -, ht, -⟩ := munmapSpace_maps (h.mapped pid) haddr hsize hlt hs
  exact h.confined ((Confined.refl s pid).munmapSpace (h.mapped pid) haddr hsize hlt hs) ht (h.bot pid)

theorem vmMunmap {sender size : ℕ} {r : Result Unit} (h : Layout s) (hs : s.vmMunmap cfg sender addr size = some (t, r)) :
    Layout t := by
  simp only [State.vmMunmap] at hs
  split at hs
  · cases hs
    exact h
  next hargs =>
  obtain ⟨u, hu, he⟩ := Option.map_eq_some_iff.mp hs
  cases he
  rw [not_or, not_or, not_or] at hargs
  exact h.munmapSpace (pageFloor_mod _) (pageFloor_mod _)
    (add_lt_of_validAddrSize (Bool.eq_true_of_not_eq_false hargs.2.2.1) (pageCeil_lt _)) hu

theorem findLazyMmap (h : Layout s) (pid addr : ℕ) : Layout (s.findLazyMmap pid addr).2 := by
  have hm := h.mapped pid
  obtain heq | ⟨i, heq⟩ := findLazyMmap_cases s pid addr
  · rw [heq]
    exact h
  · obtain ⟨j, hj, -, hfind⟩ | ⟨-, hfind⟩ := hm.findLazyMmap_spec addr
    · obtain rfl : i = j := by simpa [heq] using hfind
      rw [heq]
      have hlast : ((s.setLast pid (some i)).spaces pid) = { s.spaces pid with lastMmap := some i } := by
        rw [State.setLast, setSpace_spaces, if_pos rfl]
      have hmaps : (s.setLast pid (some i)).mmaps pid = s.mmaps pid := by rw [mmaps, hlast, mmaps]
      refine h.confined (Confined.refl s pid).setLast ⟨?_, fun k hk => hm.fresh k (hmaps ▸ hk), fun k hk => ?_⟩ (h.bot pid)
      · rw [State.records, hmaps]
        exact hm.inOrder
      · rw [hlast] at hk
        obtain rfl := Option.some.inj hk
        exact hmaps ▸ hj
    · rw [heq] at hfind
      cases hfind

theorem brkGrow {a : ℕ} {malloc : Bool} {r : Result Unit} (h : Layout s) (ha : a % pageSize = 0) (hlt : a < 2 ^ 32)
    (hgrow : (s.spaces pid).brk < a) (hs : s.brkGrow cfg pid a malloc = some (t, r)) : Layout t := by
  obtain ⟨halign, hbrk⟩ := h.brk pid
  have hlen : wordSub a (s.spaces pid).brk = a - (s.spaces pid).brk := wordSub_of_le hgrow.le hlt
  obtain ⟨-, he⟩ | ⟨-, he⟩ := brkGrow_cases cfg (h.mapped pid) a malloc
  · cases he.symm.trans hs
    exact h.findLazyMmap pid _
  · rw [he] at hs
    split at hs
    · cases hs
      exact h
    · rw [hlen] at hs
      refine h.reserveFixed (h.ready pid _) ⟨Nat.sub_pos_of_lt hgrow, ?_, halign, ?_⟩ hs
      · show (s.spaces pid).brk + (a - (s.spaces pid).brk) < 2 ^ 32
        omega
      · show (a - (s.spaces pid).brk) % pageSize = 0
        simp only [pageSize] at *
        omega

theorem shorten {a : ℕ} (h : Layout s) (ha : a % pageSize = 0) (hi : i ∈ s.mmaps pid) (hlow : (s.mm i).addr < a)
    (hstop : a ≤ (s.mm i).stop) : Layout (s.setMm i { s.mm i with length := wordSub a (s.mm i).addr }) := by
  have hv := (h.mapped pid).valid hi
  have hlt := hv.stop_lt
  have halign := hv.addr_aligned
  have hlen : wordSub a (s.mm i).addr = a - (s.mm i).addr := wordSub_of_le hlow.le (by omega)
  rw [hlen]
  have hstop' : ({ s.mm i with length := a - (s.mm i).addr } : LazyMmap).stop = a := by
    show (s.mm i).addr + (a - (s.mm i).addr) = a
    omega
  refine h.confined ((Confined.refl _ pid).setMm (.inl hi)) ((h.mapped pid).shrink
    ⟨Nat.sub_pos_of_lt hlow, by rw [hstop']; omega, halign, ?_⟩ le_rfl (by rw [hstop']; omega)) (h.bot pid)
  show (a - (s.mm i).addr) % pageSize = 0
  simp only [pageSize] at *
  omega

theorem brkShrink {a : ℕ} (h : Layout s) (ha : a % pageSize = 0) (hshrink : a ≤ (s.spaces pid).brk)
    (hs : s.brkShrink cfg pid a = some t) : Layout t := by
  obtain ⟨halign, hbrk⟩ := h.brk pid
  have hlen : wordSub (s.spaces pid).brk a = (s.spaces pid).brk - a := wordSub_of_le hshrink hbrk
  have hfind := h.findLazyMmap pid (wordSub (s.spaces pid).brk 1)
  have hmaps := findLazyMmap_mmaps s pid (wordSub (s.spaces pid).brk 1)
  have hmm := findLazyMmap_mm s pid (wordSub (s.spaces pid).brk 1)
  obtain ⟨i, hi, hlow, hstop, -, he⟩ | ⟨-, he⟩ := brkShrink_cases cfg (h.mapped pid) a
  · rw [he] at hs
    obtain ⟨m, -, rfl⟩ := Option.map_eq_some_iff.mp hs
    have hshort : Layout ((s.findLazyMmap pid (wordSub (s.spaces pid).brk 1)).2.setMm i (s.shortened i a)) := by
      rw [shortened, ← hmm]
      rw [← hmm] at hlow hstop
      exact hfind.shorten ha (hmaps.symm ▸ hi) hlow (hstop.symm ▸ hshrink)
    exact hshort.congr rfl rfl rfl
  · rw [he, hlen] at hs
    refine hfind.munmapSpace ha ?_ (by omega) hs
    simp only [pageSize] at *
    omega

theorem vmBrk {sender a : ℕ} {malloc : Bool} {r : Result Unit} (h : Layout s)
    (hs : s.vmBrk cfg sender a malloc = some (t, r)) : Layout t := by
  rw [State.vmBrk] at hs
  split at hs
  · cases hs
    exact h
  obtain ⟨_, -, hs⟩ := Option.bind_eq_some_iff.mp hs
  obtain ⟨⟨u, r'⟩, hu, hs⟩ := Option.bind_eq_some_iff.mp hs
  have halign : brkAddr cfg a % pageSize = 0 := pageFloor_mod _
  have hmove : Layout u := by
    simp only [State.brkMove] at hu
    split at hu
    · cases hu
      exact h
    split at hu
    · next hgrow => exact h.brkGrow halign (pageCeil_lt _) hgrow hu
    · next hshrink =>
      obtain ⟨u', hu', he⟩ := Option.map_eq_some_iff.mp hu
      cases he
      exact h.brkShrink halign (Nat.not_lt.mp hshrink) hu'
  cases r' with
  | error e =>
    cases hs
    exact hmove
  | ok =>
    cases hs
    exact hmove.setSpace rfl rfl (hmove.areas sender) ⟨halign, pageCeil_lt _⟩ (hmove.bot sender)

theorem vmUploadPage {target a prot : ℕ} {data : List UInt8} {flags : MapFlags} {malloc : Bool} {r : Result Unit}
    (h : Layout s) (hfits : s.accepts target a prot flags malloc → a + pageSize < 2 ^ 32)
    (hs : s.vmUploadPage cfg target a data prot flags malloc = some (t, r)) : Layout t := by
  have hlayout : Layout { s with mem := (s.mem.newVp ⟨a, protToL4Rights prot, false, true, false, 0⟩).2 } := h.congr rfl rfl rfl
  have hready := hlayout.ready target ⟨0, 0, protToL4Rights prot, false, true, true, ⟨0, 0⟩, 0, 0, 0⟩
  obtain rfl | ⟨hok, hcases⟩ := State.vmUploadPage_cases hs
  · exact h
  -- the mapping is placed, or the call is refused
  have hplaced : ∀ {u : State} {r' : Result Unit},
      (s.uploadStart a prot).reserveMmap cfg target s.nextMm a pageSize true true = some (u, r') → Layout u := fun {u r'} hu => by
    by_cases hbad : s.nogo target a pageSize = true
    · simp only [reserveMmap, Option.bind_eq_bind, Option.bind_eq_some_iff] at hu
      obtain ⟨_, -, _, -, hu⟩ := hu
      rw [if_pos ⟨hbad, trivial⟩] at hu
      cases hu
      exact hlayout.confined hready.confined hready.mapped (hlayout.bot target)
    · have hlt := hfits (hok.accepts (Bool.eq_false_iff.mpr hbad))
      exact hlayout.reserveFixed hready ⟨show 0 < pageSize by decide, hlt, hok.aligned, Nat.mod_self _⟩ hu
  obtain ⟨e, hu⟩ | ⟨u, m, m', hu, -, -, rfl⟩ := hcases
  · exact hplaced hu
  · exact (hplaced hu).congr rfl rfl rfl

theorem eraseMmaps {l : List ℕ} (h : Mapped s pid) (hm : s.mmaps pid = l) (hs : State.eraseMmaps cfg pid l s = some t) :
    Confined s t pid (s.spaces pid).mmapBot ∧ t.mmaps pid = [] := by
  have key : ∀ (l : List ℕ) (u : State), Confined s u pid (s.spaces pid).mmapBot → u.mmaps pid = l → l.Nodup →
      State.eraseMmaps cfg pid l u = some t → Confined s t pid (s.spaces pid).mmapBot ∧ t.mmaps pid = [] := by
    intro l
    induction l with
    | nil =>
      intro u hc hu _ hs
      cases hs
      exact ⟨hc, hu⟩
    | cons i rest ih =>
      intro u hc hu hnodup hs
      obtain ⟨v, hv, hs⟩ := Option.bind_eq_some_iff.mp hs
      have hdrop : Confined s v pid (s.spaces pid).mmapBot ∧ v.spaces = u.spaces := by
        rw [State.eraseAnon] at hv
        split at hv
        · obtain ⟨_, -, hv⟩ := Option.bind_eq_some_iff.mp hv
          refine ⟨hc.dropAnon hv, ?_⟩
          obtain ⟨w, hw, rfl⟩ := Option.map_eq_some_iff.mp hv
          obtain ⟨m, rfl, -⟩ := cutAnonMmap_same hw
          rfl
        · cases hv
          exact ⟨hc, rfl⟩
      have hvm : v.mmaps pid = i :: rest := by
        rw [mmaps, hdrop.2]
        exact hu
      refine ih _ (hdrop.1.eraseMmap (hvm ▸ hnodup)) ?_ (List.nodup_cons.mp hnodup).2 hs
      rw [eraseMmap_mmaps cfg v pid i (hvm ▸ hnodup), hvm, List.erase_cons_head]
  exact key l s (Confined.refl s pid) hm (hm ▸ h.nodup) hs

theorem vmErase {sender target : ℕ} {order : List ℕ} {r : Result Unit} (h : Layout s)
    (hs : s.vmErase cfg sender target order = some (t, r)) : Layout t := by
  obtain rfl | ⟨m, u, -, -, hu, rfl⟩ := State.vmErase_cases hs
  · exact h
  have h' : Layout { s with mem := m.flushPlbuf } := h.congr rfl rfl rfl
  obtain ⟨hc, hnil⟩ := eraseMmaps (h'.mapped target) rfl hu
  have hself : (u.setSpace target { u.spaces target with
      used := false, kipArea := .nil, utcbArea := .nil, sysinfoArea := .nil, lastMmap := none }).mmaps target = [] := by
    rw [mmaps, setSpace_spaces, if_pos rfl]
    exact hnil
  -- the space is emptied and then cleared
  have hempty : Layout (u.setLast target none) := by
    have hnil' : (u.setLast target none).mmaps target = [] := by
      rw [mmaps, setLast, setSpace_spaces, if_pos rfl]
      exact hnil
    refine h'.confined hc.setLast ⟨?_, fun j hj => ?_, fun j hj => ?_⟩ (h'.bot target)
    · rw [State.records, hnil']
      exact ⟨by rintro _ ⟨⟩, List.Pairwise.nil⟩
    · rw [hnil'] at hj
      cases hj
    · rw [setLast, setSpace_spaces, if_pos rfl] at hj
      cases hj
  have hsp : (u.setLast target none).spaces target = { u.spaces target with lastMmap := none } := by
    rw [setLast, setSpace_spaces, if_pos rfl]
  have hlow : Fpage.nil.Low := .inr (by decide)
  have hcleared : Layout ((u.setLast target none).setSpace target { u.spaces target with
      used := false, kipArea := .nil, utcbArea := .nil, sysinfoArea := .nil, lastMmap := none }) :=
    hempty.setSpace (by rw [hsp]) (by rw [hsp]) (by simpa [Space.areas] using hlow) (by have := hempty.brk target; rwa [hsp] at this)
    fun hno => absurd rfl hno
  refine hcleared.congr ?_ rfl rfl
  funext q
  simp only [setLast, setSpace_spaces]
  split <;> rfl

theorem vmPf {faddr : ℕ} {rwx : Rights} {ans : PfAnswer} {r : Option (ℕ × Rights)} (h : Layout s)
    (hs : s.vmPf cfg pid faddr rwx ans = some (t, r)) : Layout t := by
  obtain rfl | ⟨-, ⟨old, m, -, -, rfl⟩ | rfl | ⟨i, v, m, -, -, -, -, -, -, rfl, -⟩⟩ := State.vmPf_cases hs
  · exact h
  · exact h.congr rfl rfl rfl
  · exact h.findLazyMmap pid faddr
  · exact (h.findLazyMmap pid faddr).congr rfl rfl rfl

theorem forkMaps {dest : ℕ} {ans : ForkAnswer} {maps : List ℕ} {v : State} {copied : Bool} (hc : Confined s v dest bot)
    (hm : Mapped v dest) (hvalid : ∀ i ∈ maps, (v.mm i).Valid ∧ i < v.nextMm)
    (hord : maps.Pairwise fun i j => (v.mm i).stop ≤ (v.mm j).addr)
    (hbelow : ∀ j ∈ v.mmaps dest, ∀ i ∈ maps, (v.mm j).stop ≤ (v.mm i).addr)
    (hs : State.forkMaps cfg dest ans maps v = some (t, copied)) : Confined s t dest bot ∧ Mapped t dest := by
  induction maps generalizing v with
  | nil =>
    cases hs
    exact ⟨hc, hm⟩
  | cons orig rest ih =>
    rw [State.forkMaps] at hs
    split at hs
    · cases hs
      exact ⟨hc, hm⟩
    obtain ⟨hfirst, hord⟩ := List.pairwise_cons.mp hord
    have horig := hvalid orig List.mem_cons_self
    have hne : ∀ j, j < v.nextMm → (v.newMm (v.mm orig)).2.mm j = v.mm j := fun j hj =>
      Function.update_of_ne (Nat.ne_of_lt hj) _ _
    have hself : (v.newMm (v.mm orig)).2.mm v.nextMm = v.mm orig := Function.update_self ..
    have hmap1 : Mapped (v.newMm (v.mm orig)).2 dest :=
      hm.congr rfl (fun j hj => hne j (hm.fresh j hj)) (Nat.le_succ _) rfl
    -- what the copies change is no mapping that is left
    have hrest (w : State) (hmm : w.mm = (v.newMm (v.mm orig)).2.mm) (hnext : w.nextMm = v.nextMm + 1)
        (hmaps : w.mmaps dest = (v.newMm (v.mm orig)).2.mmaps dest) (hlast : (w.spaces dest).lastMmap = (v.spaces dest).lastMmap)
        (hw : Confined s w dest bot) {x : State} {done : Bool} (hx : w.insertLazyMmap cfg dest v.nextMm = (x, done))
        (hxs : State.forkMaps cfg dest ans rest x = some (t, copied)) : Confined s t dest bot ∧ Mapped t dest := by
      have hwm : Mapped w dest := hmap1.congr hmaps (fun j _ => congrFun hmm j) hnext.ge hlast
      have hwv : (w.mm v.nextMm).Valid := by
        rw [hmm, hself]
        exact horig.1
      have hlt : v.nextMm < w.nextMm := hnext ▸ Nat.lt_succ_self _
      obtain ⟨hxm, -, -, hxin⟩ := hwm.insertLazyMmap cfg hwv hlt
      have hxc : Confined s (w.insertLazyMmap cfg dest v.nextMm).1 dest bot := hw.insertLazyMmap hc.next
      have hxmm : (w.insertLazyMmap cfg dest v.nextMm).1.mm = w.mm ∧ (w.insertLazyMmap cfg dest v.nextMm).1.nextMm = w.nextMm := by
        rw [State.insertLazyMmap]
        split <;> exact ⟨rfl, rfl⟩
      rw [hx] at hxm hxin hxc hxmm
      have hold : ∀ j, j < v.nextMm → x.mm j = v.mm j := fun j hj => by rw [hxmm.1, hmm, hne j hj]
      have hleft : ∀ i ∈ rest, i < v.nextMm := fun i hi => (hvalid i (List.mem_cons_of_mem _ hi)).2
      refine ih hxc hxm (fun i hi => ?_) ?_ (fun j hj i hi => ?_) hxs
      · rw [hold i (hleft i hi), hxmm.2, hnext]
        exact ⟨(hvalid i (List.mem_cons_of_mem _ hi)).1, Nat.lt_succ_of_lt (hleft i hi)⟩
      · exact hord.imp_of_mem fun {a b} ha hb hab => by rwa [hold a (hleft a ha), hold b (hleft b hb)]
      · rw [hold i (hleft i hi)]
        obtain rfl | hj := hxin j hj
        · rw [hxmm.1, hmm, hself]
          exact hfirst i hi
        · rw [hmaps] at hj
          have hj : j ∈ v.mmaps dest := hj
          rw [hold j (hm.fresh j hj)]
          exact hbelow j hj i (List.mem_cons_of_mem _ hi)
    dsimp only at hs
    split at hs
    · obtain ⟨_, -, hs⟩ := Option.bind_eq_some_iff.mp hs
      split at hs
      · cases hs
        exact ⟨hc.newMm, hmap1⟩
      · obtain ⟨_, -, hs⟩ := Option.bind_eq_some_iff.mp hs
        exact hrest { (v.newMm (v.mm orig)).2 with anonMmapTable := v.nextMm :: v.anonMmapTable } rfl rfl rfl rfl
          hc.newMm.table rfl hs
    · obtain ⟨_, -, hs⟩ := Option.bind_eq_some_iff.mp hs
      exact hrest (v.newMm (v.mm orig)).2 rfl rfl rfl rfl hc.newMm rfl hs

theorem clear {sp : Space} (h : Layout s) (hmaps : sp.maps = .nil) (hlast : sp.lastMmap = none)
    (hareas : ∀ fp ∈ sp.areas, fp.Low) (hbrk : sp.brk % pageSize = 0 ∧ sp.brk < 2 ^ 32)
    (hbot : sp.kipArea ≠ .nil → BotGood sp.mmapBot) : Layout (s.setSpace pid sp) := by
  have hmm : ∀ q, (s.setSpace pid sp).mmaps q = if q = pid then [] else s.mmaps q := fun q => by
    rw [mmaps, setSpace_spaces]
    split
    · rw [hmaps]
      rfl
    · rfl
  refine ⟨fun q => ?_, fun p q j hp hq => ?_, fun q => ?_, fun q => ?_, fun q => ?_⟩
  · by_cases hq : q = pid
    · have hnil := hmm q
      rw [if_pos hq] at hnil
      refine ⟨?_, fun j hj => ?_, fun j hj => ?_⟩
      · rw [State.records, hnil]
        exact ⟨by rintro _ ⟨⟩, List.Pairwise.nil⟩
      · rw [hnil] at hj
        cases hj
      · rw [setSpace_spaces, if_pos hq, hlast] at hj
        cases hj
    · have hsame := hmm q
      rw [if_neg hq] at hsame
      exact (h.mapped q).congr hsame (fun _ _ => rfl) le_rfl (by rw [setSpace_spaces, if_neg hq])
  · rw [hmm] at hp hq
    split at hp
    · cases hp
    · split at hq
      · cases hq
      · exact h.apart p q j hp hq
  · rw [setSpace_spaces]
    split
    · exact hareas
    · exact h.areas q
  · rw [setSpace_spaces]
    split
    · exact hbrk
    · exact h.brk q
  · rw [setSpace_spaces]
    split
    · exact hbot
    · exact h.bot q

theorem forkStart {srcpid : ℕ} (h : Layout s) (hsrc : (s.spaces srcpid).kipArea ≠ .nil) : Layout (s.forkStart srcpid pid) :=
  Layout.clear (s := s.clearPages pid) (h.congr rfl rfl rfl) rfl rfl (h.areas srcpid) (h.brk srcpid) fun _ => h.bot srcpid hsrc

theorem vmFork {sender srcpid destpid id : ℕ} {order : List ℕ} {ans : ForkAnswer} {r : Result ℕ} (h : Layout s)
    (hmax : cfg.EndsPage) (hs : s.vmFork cfg sender srcpid destpid id order ans = some (t, r)) : Layout t := by
  obtain rfl | ⟨pid, -, rfl | ⟨hsrc, -, u, ok, hu, hcases⟩⟩ := State.vmFork_cases hs
  · exact h
  · have hclear : Layout (s.clearPages pid) := h.congr rfl rfl rfl
    have hold := h.areas pid
    refine hclear.clear rfl rfl ?_ ⟨rfl, show 0 < 2 ^ 32 by decide⟩ fun _ => hmax
    simp only [Space.areas, Space.spawned, List.mem_cons, List.not_mem_nil, or_false] at hold ⊢
    rintro fp (rfl | rfl | rfl)
    · exact .inr (by decide)
    · exact .inl rfl
    · exact hold _ (.inr (.inr rfl))
  have hdest : Layout (s.forkStart srcpid pid) := h.forkStart hsrc
  have hnil : (s.forkStart srcpid pid).mmaps pid = [] := by
    rw [mmaps, State.forkStart, setSpace_spaces, if_pos rfl]
    rfl
  obtain ⟨hc, hm⟩ := forkMaps (Confined.refl _ pid) (hdest.mapped pid)
    (fun i hi => ⟨(hdest.mapped srcpid).valid hi, (hdest.mapped srcpid).fresh i hi⟩) (hdest.mapped srcpid).ordered
    (fun j hj i _ => by
      rw [hnil] at hj
      cases hj) hu
  have hcopied := hdest.confined hc hm (hdest.bot pid)
  obtain rfl | ⟨m, ok', -, rfl⟩ := hcases
  · exact hcopied
  · exact hcopied.congr rfl rfl rfl

end Layout

def AreasFit (utcb kip : Fpage) : Prop :=
  min kip.address utcb.address % pageSize = 0 ∧ kip.address + kip.size + pageSize < 2 ^ 32 ∧
    utcb.address + utcb.size < 2 ^ 32

instance (utcb kip : Fpage) : Decidable (AreasFit utcb kip) := inferInstanceAs (Decidable (_ ∧ _))

theorem Layout.configured {utcb kip : Fpage} (h : Layout s) (hargs : s.configures pid utcb kip) (hfits : AreasFit utcb kip) :
    Layout (s.setSpace pid ((s.spaces pid).configured utcb kip)) := by
  obtain ⟨halign, hkip, hutcb⟩ := hfits
  have hunset : (s.spaces pid).kipArea = .unset := by
    rw [configures, not_or, not_or] at hargs
    exact not_not.mp hargs.2.1
  refine h.setSpace rfl rfl ?_ (h.brk pid) fun _ => h.bot pid (by rw [hunset]; decide)
  simp only [Space.areas, Space.configured, List.mem_cons, List.not_mem_nil, or_false]
  rintro fp (rfl | rfl | rfl)
  · exact .inr hutcb
  · exact .inr (Nat.lt_of_le_of_lt (Nat.le_add_right _ _) hkip)
  · rw [word_of_lt (by omega)]
    exact .inr hkip

theorem Layout.vmConfigure {utcb kip : Fpage} {malloc : Bool} {r : Result ℕ} (h : Layout s)
    (hfits : s.configures pid utcb kip → AreasFit utcb kip)
    (hs : s.vmConfigure cfg pid utcb kip malloc = some (t, r)) : Layout t := by
  obtain rfl | ⟨hargs, hcases⟩ := vmConfigure_cases hs
  · exact h
  have hfits' := hfits hargs
  have hset := h.configured hargs hfits'
  obtain ⟨halign, hkip, -⟩ := hfits'
  have hword : word (kip.address + kip.size) = kip.address + kip.size := word_of_lt (by omega)
  obtain rfl | ⟨hresv, r', hu⟩ := hcases
  · exact hset
  have hmin : min kip.address (min utcb.address (kip.address + kip.size)) = min kip.address utcb.address := by omega
  rw [hword, hmin] at hresv hu
  refine hset.reserveFixed (hset.ready pid _) ⟨?_, ?_, show 0x10000 % pageSize = 0 by decide, ?_⟩ hu
  · show 0 < min kip.address utcb.address - 0x10000
    omega
  · show 0x10000 + (min kip.address utcb.address - 0x10000) < 2 ^ 32
    omega
  · show (min kip.address utcb.address - 0x10000) % pageSize = 0
    simp only [pageSize] at *
    omega

-- `vm_mmap`

def touched (cfg : Config) (flags : MapFlags) (fdServ : Tid) (ans : MmapAnswer) : Option ℤ :=
  if !flags.anon && fdServ ≠ ⟨0, 0⟩ then
    if pidof fdServ = pidof cfg.self then some (ans.touch.getD 1) else ans.touch
  else none

def mmapTarget (sender target : ℕ) : ℕ := if target = 0 then sender else target

def maps (cfg : Config) (s : State) (target addr length : ℕ) (flags : MapFlags) (fdServ : Tid) (offset : ℕ)
    (ans : MmapAnswer) : Prop :=
  ¬ (length = 0 ∨ addr % pageSize ≠ 0 ∨ offset % pageSize ≠ 0 ∨ (flags.priv && flags.shared) ∨
      (!flags.priv && !flags.shared) ∨ maxPid < target ∨ target = 0 ∨ (s.spaces target).kipArea = .nil) ∧
    ans.malloc = true ∧ touched cfg flags fdServ ans = none

instance (cfg : Config) (s : State) (target addr length : ℕ) (flags : MapFlags) (fdServ : Tid) (offset : ℕ)
    (ans : MmapAnswer) : Decidable (s.maps cfg target addr length flags fdServ offset ans) :=
  inferInstanceAs (Decidable (¬ _ ∧ _))

def Hints (cfg : Config) (s : State) (pid addr length : ℕ) : Prop :=
  s.nogo pid addr length = false ∧ addr ≠ 0 ∧
    ((s.newMm ⟨addr, length, .full, false, true, true, ⟨0, 0⟩, 0, 0, 0⟩).2.insertLazyMmap cfg pid s.nextMm).2 = true

instance (cfg : Config) (s : State) (pid addr length : ℕ) : Decidable (s.Hints cfg pid addr length) :=
  inferInstanceAs (Decidable (_ ∧ _))

/-- Below `mmap_bot` there is space that no mapping and no area is in. -/
def Carvable (s : State) (pid length : ℕ) : Prop :=
  (s.spaces pid).mmapBot + 1 < 2 ^ 32 ∧ length ≤ (s.spaces pid).mmapBot + 1 ∧
    ¬ s.Taken pid (s.carveAddr pid length) (s.carveAddr pid length + length) ∧
    s.nogo pid (s.carveAddr pid length) length = false

instance (s : State) (pid length : ℕ) : Decidable (s.Carvable pid length) := inferInstanceAs (Decidable (_ ∧ _))

instance (s : State) (pid addr fin : ℕ) : Decidable (Found s pid addr fin) :=
  inferInstanceAs (Decidable (∀ y ∈ probe (s.dirAddr addr) (s.spaces pid).maps, _ → ∀ i ∈ s.mmaps pid, _))

def MapFits (cfg : Config) (s : State) (pid addr length : ℕ) (fixed : Bool) : Prop :=
  length ≤ 2 ^ 32 - pageSize ∧
    if fixed then s.nogo pid addr (pageCeil length) = false → addr + pageCeil length < 2 ^ 32 ∧
      (s.Taken pid addr (addr + pageCeil length) → Found s pid addr (addr + pageCeil length))
    else if s.Hints cfg pid addr (pageCeil length) then addr + pageCeil length < 2 ^ 32
    else s.Carvable pid (pageCeil length)

instance (cfg : Config) (s : State) (pid addr length : ℕ) (fixed : Bool) : Decidable (s.MapFits cfg pid addr length fixed) :=
  inferInstanceAs (Decidable (_ ∧ ite _ _ _))

def MapEnds (cfg : Config) (s : State) (pid addr length : ℕ) (fixed : Bool) : Prop :=
  length ≤ 2 ^ 32 - pageSize ∧
    if fixed then s.nogo pid addr (pageCeil length) = false → addr + pageCeil length < 2 ^ 32
    else if s.Hints cfg pid addr (pageCeil length) then addr + pageCeil length < 2 ^ 32
    else (s.spaces pid).mmapBot + 1 < 2 ^ 32 ∧ pageCeil length ≤ (s.spaces pid).mmapBot + 1

instance (cfg : Config) (s : State) (pid addr length : ℕ) (fixed : Bool) : Decidable (s.MapEnds cfg pid addr length fixed) :=
  inferInstanceAs (Decidable (_ ∧ ite _ _ _))

theorem MapFits.ends {fixed : Bool} (h : s.MapFits cfg pid addr length fixed) : s.MapEnds cfg pid addr length fixed := by
  obtain ⟨hle, hf⟩ := h
  refine ⟨hle, ?_⟩
  cases fixed with
  | true => exact fun hclear => (hf hclear).1
  | false =>
    rw [if_neg Bool.false_ne_true] at hf ⊢
    split at hf
    · next hyes => exact (if_pos hyes).mpr hf
    · next hno => exact (if_neg hno).mpr ⟨hf.1, hf.2.1⟩

theorem pageCeil_eq {n : ℕ} (h : n ≤ 2 ^ 32 - pageSize) : pageCeil n = (n + pageSize - 1) / pageSize * pageSize := by
  rw [pageCeil, pageFloor, word_of_lt]
  simp only [pageSize] at *
  omega

theorem pageCeil_pos {n : ℕ} (hpos : 0 < n) (h : n ≤ 2 ^ 32 - pageSize) : 0 < pageCeil n := by
  rw [pageCeil_eq h]
  simp only [pageSize] at *
  omega

theorem carveAddr_add (hbot : (s.spaces pid).mmapBot + 1 < 2 ^ 32) (hle : length ≤ (s.spaces pid).mmapBot + 1) :
    s.carveAddr pid length + length = (s.spaces pid).mmapBot + 1 := by
  simp only [carveAddr, wordSub, word]
  omega

theorem BotGood.wordSub (h : BotGood bot) (hlen : length % pageSize = 0) :
    BotGood (wordSub bot length) := by
  obtain ⟨halign, hlt⟩ := h
  simp only [BotGood, Vm.wordSub, word, pageSize] at *
  omega

theorem reserveMmap_error {fixed : Bool} {e : Errno}
    (hs : u.reserveMmap cfg pid i addr length fixed ok = some (t, .error e)) : t = u := by
  simp only [reserveMmap, Option.bind_eq_bind, Option.bind_eq_some_iff] at hs
  obtain ⟨_, -, _, -, hs⟩ := hs
  split at hs
  · cases hs
    rfl
  split at hs
  · cases hs
    rfl
  obtain ⟨r', -, hs⟩ := Option.bind_eq_some_iff.mp hs
  obtain ⟨_, -, he⟩ := Option.bind_eq_some_iff.mp hs
  cases he

theorem Layout.usesHint (h : Layout s) (hmm : ∀ j ∈ s.mmaps pid, u.mm j = s.mm j)
    (hsp : u.spaces = s.spaces) : u.UsesHint cfg pid s.nextMm addr length ↔ s.Hints cfg pid addr length := by
  have hne : ∀ j ∈ s.mmaps pid, j ≠ s.nextMm := fun j hj => Nat.ne_of_lt ((h.mapped pid).fresh j hj)
  have hnogo : u.nogo pid addr length = s.nogo pid addr length := by rw [nogo, nogo, hsp]
  have hsame : SameMaps (s.newMm ⟨addr, length, .full, false, true, true, ⟨0, 0⟩, 0, 0, 0⟩).2
      (u.setMm s.nextMm ((u.mm s.nextMm).at addr length)) pid := by
    refine ⟨congrFun (congrArg (fun f q => Space.maps (f q)) hsp) pid, fun j hj => ?_⟩
    have hj' : j ∈ s.mmaps pid := hj
    rw [setMm_mm, if_neg (hne j hj'), hmm j hj']
    exact (Function.update_of_ne (hne j hj') _ _).symm
  have hself : (u.setMm s.nextMm ((u.mm s.nextMm).at addr length)).mm s.nextMm = (u.mm s.nextMm).at addr length := by
    rw [setMm_mm, if_pos rfl]
  have hnew : (s.newMm ⟨addr, length, .full, false, true, true, ⟨0, 0⟩, 0, 0, 0⟩).2.mm s.nextMm =
      ⟨addr, length, .full, false, true, true, ⟨0, 0⟩, 0, 0, 0⟩ := Function.update_self ..
  rw [UsesHint, Hints, hnogo, hsame.insertLazyMmap cfg (by rw [hself, hnew]; rfl) (by rw [hself, hnew]; rfl)]

namespace Layout

theorem reservePut {a : ℕ} {fixed : Bool} (h : Layout s) (hu : Ready s u pid s.nextMm (s.spaces pid).mmapBot)
    (hmm : ∀ j ∈ s.mmaps pid, u.mm j = s.mm j) (hsp : u.spaces = s.spaces) (hpos : 0 < length)
    (haddr : a % pageSize = 0) (hkip : (s.spaces pid).kipArea ≠ .nil) (hf : s.MapEnds cfg pid a length fixed)
    (hs : u.reserveMmap cfg pid s.nextMm a (pageCeil length) fixed ok = some (t, .ok ())) :
    ∃ place bot b, Put s pid s.nextMm place (pageCeil length) bot (t, b) ∧ BotGood bot ∧
      (if fixed then place = a ∧ s.nogo pid a (pageCeil length) = false ∧
          ((s.Taken pid a (a + pageCeil length) → Found s pid a (a + pageCeil length)) → b = true)
        else if s.Hints cfg pid a (pageCeil length) then place = a ∧ b = true
        else place = s.carveAddr pid (pageCeil length) ∧ (¬ s.Taken pid place (place + pageCeil length) → b = true)) := by
  obtain ⟨hle, hf⟩ := hf
  have hlen : pageCeil length % pageSize = 0 := pageFloor_mod _
  have hlenpos := pageCeil_pos hpos hle
  have hsame : SameMaps s u pid := ⟨by rw [hsp], hmm⟩
  have hnogo : u.nogo pid a (pageCeil length) = s.nogo pid a (pageCeil length) := by rw [nogo, nogo, hsp]
  cases fixed with
  | true =>
    have hclear : s.nogo pid a (pageCeil length) = false := hnogo.symm.trans (reserveMmap_nogo hs)
    have hlt : a + pageCeil length < 2 ^ 32 := hf hclear
    obtain ⟨-, e, he⟩ | ⟨-, -, b, hput, hok⟩ := reserveFixed_spec hu ⟨hlenpos, hlt, haddr, hlen⟩ hs
    · cases he
    · rw [hsame.taken, hsame.found] at hok
      exact ⟨a, _, b, hput, h.bot pid hkip, rfl, hclear, hok⟩
  | false =>
    have hhint : u.UsesHint cfg pid s.nextMm a (pageCeil length) ↔ s.Hints cfg pid a (pageCeil length) :=
      h.usesHint hmm hsp
    have hused (hyes : s.Hints cfg pid a (pageCeil length)) : a + pageCeil length < 2 ^ 32 := by
      rwa [if_neg Bool.false_ne_true, if_pos hyes] at hf
    have hroom (hno : ¬ s.Hints cfg pid a (pageCeil length)) :
        (s.spaces pid).mmapBot + 1 < 2 ^ 32 ∧ pageCeil length ≤ (s.spaces pid).mmapBot + 1 := by
      rwa [if_neg Bool.false_ne_true, if_neg hno] at hf
    have hcarveAddr : u.carveAddr pid (pageCeil length) = s.carveAddr pid (pageCeil length) := by
      rw [carveAddr, carveAddr, hsp]
    have hvalid (hyes : u.UsesHint cfg pid s.nextMm a (pageCeil length)) :
        ((u.mm s.nextMm).at a (pageCeil length)).Valid := ⟨hlenpos, hused (hhint.mp hyes), haddr, hlen⟩
    have hspace (hno : ¬ u.UsesHint cfg pid s.nextMm a (pageCeil length)) :
        ((u.mm s.nextMm).at (u.carveAddr pid (pageCeil length)) (pageCeil length)).Valid := by
      obtain ⟨hbot, hle'⟩ := hroom fun hyes => hno (hhint.mpr hyes)
      have hend := carveAddr_add hbot hle'
      have halign := (h.bot pid hkip).1
      rw [hcarveAddr]
      refine ⟨hlenpos, ?_, ?_, hlen⟩
      · show s.carveAddr pid (pageCeil length) + pageCeil length < 2 ^ 32
        omega
      · show s.carveAddr pid (pageCeil length) % pageSize = 0
        generalize pageCeil length = n at *
        simp only [pageSize] at *
        omega
    obtain ⟨place, bot, b, hput, hwhere⟩ := reserveHint_spec hu hvalid hspace hs
    rw [hhint, hcarveAddr, hsame.taken] at hwhere
    obtain ⟨hyes, rfl, rfl, hok⟩ | ⟨hno, rfl, rfl, hok⟩ := hwhere
    · exact ⟨place, _, b, hput, h.bot pid hkip, by rw [if_neg Bool.false_ne_true, if_pos hyes]; exact ⟨rfl, hok⟩⟩
    · exact ⟨_, _, b, hput, (h.bot pid hkip).wordSub hlen, by rw [if_neg Bool.false_ne_true, if_neg hno]; exact ⟨rfl, hok⟩⟩

theorem reserveMmap {a : ℕ} {fixed : Bool} (h : Layout s) (hu : Ready s u pid s.nextMm (s.spaces pid).mmapBot)
    (hmm : ∀ j ∈ s.mmaps pid, u.mm j = s.mm j) (hsp : u.spaces = s.spaces) (hpos : 0 < length)
    (haddr : a % pageSize = 0) (hkip : (s.spaces pid).kipArea ≠ .nil) (hf : s.MapFits cfg pid a length fixed)
    (hs : u.reserveMmap cfg pid s.nextMm a (pageCeil length) fixed ok = some (t, .ok ())) :
    ∃ place bot, Put s pid s.nextMm place (pageCeil length) bot (t, true) ∧ place + pageCeil length < 2 ^ 32 ∧
      s.nogo pid place (pageCeil length) = false := by
  obtain ⟨place, bot, b, hput, -, hwhere⟩ := h.reservePut hu hmm hsp hpos haddr hkip hf.ends hs
  have hf := hf.2
  cases fixed with
  | true =>
    obtain ⟨rfl, hclear, hok⟩ := hwhere
    obtain ⟨hlt, hfree⟩ := hf hclear
    exact ⟨place, bot, hok hfree ▸ hput, hlt, hclear⟩
  | false =>
    rw [if_neg Bool.false_ne_true] at hf hwhere
    by_cases hyes : s.Hints cfg pid a (pageCeil length)
    · rw [if_pos hyes] at hf hwhere
      obtain ⟨rfl, rfl⟩ := hwhere
      exact ⟨place, bot, hput, hf, hyes.1⟩
    · rw [if_neg hyes] at hf hwhere
      obtain ⟨rfl, hok⟩ := hwhere
      obtain ⟨hbot, hle, hfree, hclear⟩ := hf
      have hend := carveAddr_add hbot hle
      rw [hend] at hok
      rw [hend] at hfree
      exact ⟨_, bot, hok hfree ▸ hput, by rw [hend]; exact hbot, hclear⟩

theorem vmMmap_cases {sender target a prot offset : ℕ} {flags : MapFlags} {fdServ : Tid} {fd : ℤ} {ans : MmapAnswer}
    {r : Result ℕ} (h : Layout s)
    (hs : s.vmMmap cfg sender target a length prot flags fdServ fd offset ans = some (t, r)) :
    (t = s ∧ ∃ e, r = .error e) ∨ s.maps cfg (mmapTarget sender target) a length flags fdServ offset ans ∧
      ∃ u res, Ready s u (mmapTarget sender target) s.nextMm (s.spaces (mmapTarget sender target)).mmapBot ∧
        (∀ j, j ≠ s.nextMm → u.mm j = s.mm j) ∧ u.spaces = s.spaces ∧
        u.reserveMmap cfg (mmapTarget sender target) s.nextMm a (pageCeil length) flags.fixed ans.anon = some (t, res) ∧
        r = res.map fun _ => (t.mm s.nextMm).addr := by
  simp only [State.vmMmap] at hs
  generalize htarget : (if target = 0 then sender else target) = pid at hs
  obtain rfl : mmapTarget sender target = pid := htarget
  split at hs
  · cases hs
    exact .inl ⟨rfl, _, rfl⟩
  next hargs =>
  split at hs
  · cases hs
    exact .inl ⟨rfl, _, rfl⟩
  next hmalloc =>
  split at hs
  · cases hs
    exact .inl ⟨rfl, _, rfl⟩
  next htouch =>
  obtain ⟨⟨u, res⟩, hu, he⟩ := Option.bind_eq_some_iff.mp hs
  cases he
  refine .inr ⟨⟨hargs, Bool.eq_true_of_not_eq_false hmalloc, htouch⟩, _, res, ?_, fun j hj => ?_, ?_, hu, rfl⟩
  · split
    · exact (h.ready _ _).congr rfl rfl rfl
    · exact h.ready _ _
  · split <;> exact Function.update_of_ne hj _ _
  · split <;> rfl

theorem vmMmap {sender target a prot offset : ℕ} {flags : MapFlags} {fdServ : Tid} {fd : ℤ} {ans : MmapAnswer}
    {r : Result ℕ} (h : Layout s)
    (hends : s.maps cfg (mmapTarget sender target) a length flags fdServ offset ans →
      s.MapEnds cfg (mmapTarget sender target) a length flags.fixed)
    (hs : s.vmMmap cfg sender target a length prot flags fdServ fd offset ans = some (t, r)) : Layout t := by
  obtain ⟨rfl, -⟩ | ⟨hmaps, u, res, hready, hmm, hsp, hu, -⟩ := h.vmMmap_cases hs
  · exact h
  · have hargs := hmaps.1
    rw [not_or, not_or, not_or, not_or, not_or, not_or, not_or] at hargs
    have hne : ∀ j ∈ s.mmaps (mmapTarget sender target), j ≠ s.nextMm := fun j hj =>
      Nat.ne_of_lt ((h.mapped _).fresh j hj)
    cases res with
    | error e =>
      rw [reserveMmap_error hu]
      exact h.confined hready.confined hready.mapped (h.bot _)
    | ok =>
      obtain ⟨place, bot, b, hput, hbot, -⟩ := h.reservePut hready (fun j hj => hmm j (hne j hj)) hsp
        (Nat.pos_of_ne_zero hargs.1) (not_not.mp hargs.2.1) hargs.2.2.2.2.2.2.2 (hends hmaps) hu
      exact hput.layout h fun _ => hbot

end Layout

end State

def Fits (cfg : Config) (s : State) : Call → Prop
  | .mmap sender target addr length _ flags fdServ _ offset ans =>
    s.maps cfg (State.mmapTarget sender target) addr length flags fdServ offset ans →
      s.MapFits cfg (State.mmapTarget sender target) addr length flags.fixed
  | .configure pid utcb kip _ => s.configures pid utcb kip → State.AreasFit utcb kip
  | .uploadPage target addr _ prot flags malloc => s.accepts target addr prot flags malloc → addr + pageSize < 2 ^ 32
  | .munmap .. | .brk .. | .fork .. | .erase .. | .fault .. => True

instance (cfg : Config) (s : State) : (call : Call) → Decidable (Fits cfg s call)
  | .mmap _ _ _ _ _ _ _ _ _ _ => inferInstanceAs (Decidable (_ → _))
  | .configure _ _ _ _ => inferInstanceAs (Decidable (_ → _))
  | .uploadPage _ _ _ _ _ _ => inferInstanceAs (Decidable (_ → _))
  | .munmap .. | .brk .. | .fork .. | .erase .. | .fault .. => inferInstanceAs (Decidable True)

def EndsLow (cfg : Config) (s : State) : Call → Prop
  | .mmap sender target addr length _ flags fdServ _ offset ans =>
    s.maps cfg (State.mmapTarget sender target) addr length flags fdServ offset ans →
      s.MapEnds cfg (State.mmapTarget sender target) addr length flags.fixed
  | .configure pid utcb kip _ => s.configures pid utcb kip → State.AreasFit utcb kip
  | .uploadPage target addr _ prot flags malloc => s.accepts target addr prot flags malloc → addr + pageSize < 2 ^ 32
  | .munmap .. | .brk .. | .fork .. | .erase .. | .fault .. => True

instance (cfg : Config) (s : State) : (call : Call) → Decidable (EndsLow cfg s call)
  | .mmap _ _ _ _ _ _ _ _ _ _ => inferInstanceAs (Decidable (_ → _))
  | .configure _ _ _ _ => inferInstanceAs (Decidable (_ → _))
  | .uploadPage _ _ _ _ _ _ => inferInstanceAs (Decidable (_ → _))
  | .munmap .. | .brk .. | .fork .. | .erase .. | .fault .. => inferInstanceAs (Decidable True)

variable {cfg : Config} {s t : State}

theorem Fits.ends {call : Call} (h : Fits cfg s call) : EndsLow cfg s call := by
  cases call with
  | mmap => exact fun hmaps => State.MapFits.ends (h hmaps)
  | configure | uploadPage | munmap | brk | fork | erase | fault => exact h

/-- **Step lemma**. -/
theorem State.Layout.exec {call : Call} (h : s.Layout) (hmax : cfg.EndsPage) (hends : EndsLow cfg s call)
    (hs : Vm.exec cfg s call = some t) : t.Layout := by
  cases call with
  | mmap =>
    obtain ⟨⟨u, r⟩, hu, rfl⟩ := Option.map_eq_some_iff.mp hs
    exact h.vmMmap hends hu
  | munmap =>
    obtain ⟨⟨u, r⟩, hu, rfl⟩ := Option.map_eq_some_iff.mp hs
    exact h.vmMunmap hu
  | brk =>
    obtain ⟨⟨u, r⟩, hu, rfl⟩ := Option.map_eq_some_iff.mp hs
    exact h.vmBrk hu
  | fork =>
    obtain ⟨⟨u, r⟩, hu, rfl⟩ := Option.map_eq_some_iff.mp hs
    exact h.vmFork hmax hu
  | configure =>
    obtain ⟨⟨u, r⟩, hu, rfl⟩ := Option.map_eq_some_iff.mp hs
    exact h.vmConfigure hends hu
  | uploadPage =>
    obtain ⟨⟨u, r⟩, hu, rfl⟩ := Option.map_eq_some_iff.mp hs
    exact h.vmUploadPage hends hu
  | erase =>
    obtain ⟨⟨u, r⟩, hu, rfl⟩ := Option.map_eq_some_iff.mp hs
    exact h.vmErase hu
  | fault =>
    obtain ⟨⟨u, r⟩, hu, rfl⟩ := Option.map_eq_some_iff.mp hs
    exact h.vmPf hu

theorem layout_of_ends {phys : PhysMem} {calls : List Call} (hmax : cfg.EndsPage)
    (h : Run (exec cfg) (EndsLow cfg) (bootState phys) calls s) : s.Layout :=
  h.invariant (I := State.Layout) (fun _ _ _ hends hs hl => hl.exec hmax hends hs) (State.Layout.init phys)

theorem layout_of_run {phys : PhysMem} {calls : List Call} (hmax : cfg.EndsPage)
    (h : Run (exec cfg) (Fits cfg) (bootState phys) calls s) : s.Layout :=
  layout_of_ends hmax (h.mono fun _ _ => Fits.ends)

end Sneks.Vm
