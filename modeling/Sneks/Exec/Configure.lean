import Sneks.Vm.Cases
import Sneks.Vm.Placing

/-!
# Where the areas of a program go

Root puts the UTCB area, the KIP area and the page of system information of a new program below its
image or above it (`configure`, `root/uapi.c`), when the image has been loaded. `VM::configure` then
reserves what is below them for the start-up stack, whatever is mapped there.
-/

namespace Sneks.Exec
open Lib

open Vm (Fpage Config Result)

def assert (p : Prop) [Decidable p] : Option Unit := if p then some () else none

def sizeToShift (sz : ℕ) : ℕ :=
  let msb := Nat.log2 sz
  if 2 ^ msb < sz then msb + 1 else msb

/-- `stkresv`: the forbidden zone and the start-up stack. -/
def stkResv : ℕ := 0x10000 + 0x4000

/-- `ua_size`, of 1024 threads with 512 bytes each. -/
def uaSize : ℕ := 2 ^ sizeToShift (512 * 1024)

/-- What the kernel says of its KIP area: `L4_KipAreaSizeLog2`. It has a page or more, and no more than
    the UTCB area. -/
structure Kip where
  areaSizeLog2 : ℕ
  page_le : 12 ≤ areaSizeLog2
  le_ua : areaSizeLog2 ≤ 19

def Kip.areaSize (kip : Kip) : ℕ := 2 ^ kip.areaSizeLog2

def Kip.resvSize (kip : Kip) : ℕ := uaSize + kip.areaSize + Vm.pageSize

/-- `lo` and `hi` of a `struct program_image` with segments. -/
structure Bounds where
  lo : ℕ
  hi : ℕ
  lt : lo < hi
  lo_aligned : lo % Vm.pageSize = 0
  hi_aligned : hi % Vm.pageSize = 0
  hi_lt : hi < 2 ^ 32

def resvStart (kip : Kip) (img : Bounds) : Option ℕ :=
  let low := Vm.wordSub img.lo kip.resvSize / uaSize * uaSize
  if low < stkResv then do
    let high := Vm.word (img.hi + uaSize - 1) / uaSize * uaSize
    assert (img.hi < high)
    some high
  else do
    assert (stkResv ≤ low)
    assert (Vm.word (low + kip.resvSize) ≤ img.lo)
    some low

def placeAreas (kip : Kip) (img : Bounds) : Option (Fpage × Fpage) := do
  let start ← resvStart kip img
  let floor := img.lo / uaSize * uaSize
  if img.hi < start ∨ kip.resvSize - uaSize ≤ floor then
    some (⟨start, uaSize⟩, ⟨Vm.word (start + uaSize), kip.areaSize⟩)
  else
    let utcb := Vm.wordSub floor uaSize
    some (⟨utcb, uaSize⟩, ⟨Vm.wordSub (Vm.wordSub utcb kip.areaSize) Vm.pageSize, kip.areaSize⟩)

/-- `configure`, giving `img->hi` and the top of the stack. `bitmap` and `malloc` answer the allocations
    here and in the server. -/
def configure (cfg : Config) (kip : Kip) (s : Vm.State) (pid : ℕ) (img : Bounds) (bitmap malloc : Bool) :
    Option (Vm.State × Result (ℕ × ℕ)) := do
  let (utcb, area) ← placeAreas kip img
  if bitmap = false then some (s, .error .ENOMEM)
  else
    let (s, r) ← s.vmConfigure cfg pid utcb area malloc
    match r with
    | .error e => some (s, .error e)
    | .ok resvhi =>
      assert (resvhi ≤ 2 ^ 31 - 1)
      assert (img.hi % Vm.pageSize = 0)
      let stktop := min img.lo (min utcb.address area.address)
      assert (stkResv ≤ stktop)
      some (s, .ok (max (Vm.word (resvhi + 1)) img.hi, stktop))

-- What it should do

def Apart (a b : Fpage) : Prop := a.address + a.size ≤ b.address ∨ b.address + b.size ≤ a.address

def sysinfoOf (area : Fpage) : Fpage := ⟨area.address + area.size, Vm.pageSize⟩

structure Placed (img : Bounds) (a : Fpage) : Prop where
  outside : a.address + a.size ≤ img.lo ∨ img.hi ≤ a.address
  above : stkResv ≤ a.address
  aligned : a.address % a.size = 0

structure WellPlaced (img : Bounds) (utcb area : Fpage) : Prop where
  utcb_area : Apart utcb area
  utcb_sysinfo : Apart utcb (sysinfoOf area)
  area_sysinfo : Apart area (sysinfoOf area)
  utcb_placed : Placed img utcb
  area_placed : Placed img area
  sysinfo_placed : Placed img (sysinfoOf area)

def Kept (s t : Vm.State) (pid : ℕ) : Prop := ∀ i ∈ s.mmaps pid, i ∈ t.mmaps pid ∧ t.mm i = s.mm i

/-- The areas are well placed, all assertions hold, the mappings stay, and without allocations that fail
    it succeeds. -/
structure ConfiguresWell (cfg : Config) (kip : Kip) (s : Vm.State) (pid : ℕ) (img : Bounds) : Prop where
  placed : ∃ utcb area, placeAreas kip img = some (utcb, area) ∧ WellPlaced img utcb area
  returns : ∀ bitmap malloc, ∃ t r, configure cfg kip s pid img bitmap malloc = some (t, r) ∧ Kept s t pid
  succeeds : ∃ t v, configure cfg kip s pid img true true = some (t, .ok v)

structure ImageLoaded (s : Vm.State) (pid : ℕ) (img : Bounds) : Prop where
  pid_le : pid ≤ maxPid
  kipArea : (s.spaces pid).kipArea = .unset
  utcbArea : (s.spaces pid).utcbArea = .nil
  brk : (s.spaces pid).brk = 0
  mapped : s.Mapped pid
  nonempty : s.mmaps pid ≠ []
  within : ∀ i ∈ s.mmaps pid, img.lo ≤ (s.mm i).addr ∧ (s.mm i).stop ≤ img.hi

def lowStart (kip : Kip) (img : Bounds) : ℕ := (img.lo - kip.resvSize) / uaSize * uaSize

structure LowImage (kip : Kip) (img : Bounds) : Prop where
  room : uaSize + kip.resvSize ≤ img.lo
  half : lowStart kip img + kip.resvSize ≤ 2 ^ 31

variable {cfg : Config} {kip : Kip} {s t : Vm.State} {pid : ℕ} {img : Bounds} {utcb area : Fpage}

theorem assert_eq_some {p : Prop} [Decidable p] {u : Unit} : assert p = some u ↔ p := by
  rw [assert]
  split
  · next h => exact iff_of_true rfl h
  · next h => exact iff_of_false nofun h

theorem uaSize_eq : uaSize = 524288 := by decide

theorem Kip.areaSize_spec (kip : Kip) :
    4096 ≤ kip.areaSize ∧ kip.areaSize ≤ 524288 ∧ kip.areaSize % 4096 = 0 ∧ 524288 % kip.areaSize = 0 := by
  have hpage : 4096 ∣ kip.areaSize := Nat.pow_dvd_pow 2 kip.page_le
  have hua : kip.areaSize ∣ 524288 := Nat.pow_dvd_pow 2 kip.le_ua
  have hpos : 0 < kip.areaSize := Nat.two_pow_pos _
  exact ⟨Nat.le_of_dvd hpos hpage, Nat.le_of_dvd (by decide) hua, Nat.mod_eq_zero_of_dvd hpage,
    Nat.mod_eq_zero_of_dvd hua⟩

theorem Kip.resvSize_eq (kip : Kip) : kip.resvSize = 524288 + kip.areaSize + 4096 := by
  rw [Kip.resvSize, uaSize_eq]
  rfl

theorem floor_spec (x : ℕ) : ∃ q, x / uaSize * uaSize = 524288 * q ∧ 524288 * q ≤ x ∧ x < 524288 * q + 524288 := by
  rw [uaSize_eq]
  exact ⟨x / 524288, by omega, by omega, by omega⟩

-- Low images

theorem lowStart_spec (h : uaSize + kip.resvSize ≤ img.lo) :
    uaSize ≤ lowStart kip img ∧ lowStart kip img + kip.resvSize ≤ img.lo ∧ lowStart kip img % uaSize = 0 := by
  have hua := uaSize_eq
  obtain ⟨q, hq, hle, hlt⟩ := floor_spec (img.lo - kip.resvSize)
  refine ⟨?_, ?_, Nat.mul_mod_left _ _⟩
  all_goals
    rw [lowStart, hq]
    omega

theorem resvStart_low (h : uaSize + kip.resvSize ≤ img.lo) : resvStart kip img = some (lowStart kip img) := by
  have hua := uaSize_eq
  have hlt := img.lt
  have hword := img.hi_lt
  obtain ⟨hge, hfits, -⟩ := lowStart_spec h
  have hsub : Vm.wordSub img.lo kip.resvSize / uaSize * uaSize = lowStart kip img := by
    rw [Vm.wordSub_of_le (by omega) (by omega), lowStart]
  have hsum : Vm.word (lowStart kip img + kip.resvSize) = lowStart kip img + kip.resvSize := Vm.word_of_lt (by omega)
  have hstk : ¬ lowStart kip img < stkResv := by
    rw [stkResv]
    omega
  simp only [resvStart, hsub, hsum, if_neg hstk, assert, if_pos (Nat.le_of_not_lt hstk), if_pos hfits, Option.bind_eq_bind,
    Option.bind_some]

theorem placeAreas_low (h : uaSize + kip.resvSize ≤ img.lo) :
    placeAreas kip img = some (⟨lowStart kip img, uaSize⟩, ⟨lowStart kip img + uaSize, kip.areaSize⟩) := by
  have hua := uaSize_eq
  have hlt := img.lt
  have hword := img.hi_lt
  obtain ⟨hge, hfits, -⟩ := lowStart_spec h
  have hresv := kip.resvSize_eq
  obtain ⟨q, hq, hle, hlt'⟩ := floor_spec img.lo
  have hfloor : kip.resvSize - uaSize ≤ img.lo / uaSize * uaSize := by omega
  have hsum : Vm.word (lowStart kip img + uaSize) = lowStart kip img + uaSize := Vm.word_of_lt (by omega)
  simp only [placeAreas, resvStart_low h, Option.bind_eq_bind, Option.bind_some, hsum, hfloor, or_true, if_true]

theorem wellPlaced_low (h : uaSize + kip.resvSize ≤ img.lo) :
    WellPlaced img ⟨lowStart kip img, uaSize⟩ ⟨lowStart kip img + uaSize, kip.areaSize⟩ := by
  have hua := uaSize_eq
  have hresv := kip.resvSize_eq
  have hpages : Vm.pageSize = 4096 := rfl
  obtain ⟨hpage, hle, hmod, hdvd⟩ := kip.areaSize_spec
  obtain ⟨hge, hfits, haligned⟩ := lowStart_spec h
  have hkip : (lowStart kip img + uaSize) % kip.areaSize = 0 := by
    have hua' : kip.areaSize ∣ uaSize := hua ▸ Nat.dvd_of_mod_eq_zero hdvd
    exact Nat.mod_eq_zero_of_dvd (Nat.dvd_add (Nat.dvd_trans hua' (Nat.dvd_of_mod_eq_zero haligned)) hua')
  have hsysinfo : (lowStart kip img + uaSize + kip.areaSize) % Vm.pageSize = 0 := by
    rw [hua] at haligned
    rw [hpages]
    omega
  refine ⟨.inl ?_, .inl ?_, .inl ?_, ⟨.inl ?_, ?_, haligned⟩, ⟨.inl ?_, ?_, hkip⟩, ⟨.inl ?_, ?_, hsysinfo⟩⟩
  all_goals
    simp only [sysinfoOf, stkResv, hpages]
    omega

-- The space

def reserving (s : Vm.State) (pid : ℕ) (utcb area : Fpage) : Vm.State :=
  ((s.setSpace pid ((s.spaces pid).configured utcb area)).newMm Vm.heapMmap).2

theorem reserving_mmaps (s : Vm.State) (pid : ℕ) (utcb area : Fpage) : (reserving s pid utcb area).mmaps pid = s.mmaps pid := by
  rw [Vm.State.mmaps, reserving]
  show ((s.setSpace pid _).spaces pid).maps.mmaps = _
  rw [Vm.State.setSpace_spaces, if_pos rfl]
  rfl

theorem ImageLoaded.reserving_mm (h : ImageLoaded s pid img) (utcb area : Fpage) {i : ℕ} (hi : i ∈ s.mmaps pid) :
    (reserving s pid utcb area).mm i = s.mm i :=
  Function.update_of_ne (Nat.ne_of_lt (h.mapped.fresh i hi)) _ _

theorem ImageLoaded.ready (h : ImageLoaded s pid img) (utcb area : Fpage) :
    ∃ s' bot, Vm.State.Ready s' (reserving s pid utcb area) pid s.nextMm bot ∧ s'.nextMm = s.nextMm := by
  have hspace : ((s.setSpace pid ((s.spaces pid).configured utcb area)).spaces pid) = (s.spaces pid).configured utcb area := by
    rw [Vm.State.setSpace_spaces, if_pos rfl]
  have hmaps : (s.setSpace pid ((s.spaces pid).configured utcb area)).mmaps pid = s.mmaps pid := by
    rw [Vm.State.mmaps, hspace]
    rfl
  have hmapped : (s.setSpace pid ((s.spaces pid).configured utcb area)).Mapped pid :=
    h.mapped.congr hmaps (fun _ _ => rfl) (Nat.le_refl _) (by rw [hspace]; rfl)
  exact ⟨_, _, hmapped.ready Vm.heapMmap, rfl⟩

theorem lowmem_valid (utcb area : Fpage) {resvLow : ℕ} (hlow : 0x10000 < resvLow) (hlt : resvLow < 2 ^ 32)
    (haligned : resvLow % 4096 = 0) :
    (((reserving s pid utcb area).mm s.nextMm).at 0x10000 (resvLow - 0x10000)).Valid := by
  refine ⟨?_, ?_, show 0x10000 % 4096 = 0 by decide, ?_⟩
  · show 0 < resvLow - 0x10000
    omega
  · show 0x10000 + (resvLow - 0x10000) < 2 ^ 32
    omega
  · show (resvLow - 0x10000) % 4096 = 0
    omega

theorem ImageLoaded.reserves (h : ImageLoaded s pid img) {resvLow : ℕ} (cfg : Config) (hlow : 0x10000 < resvLow)
    (hle : resvLow ≤ img.lo) (haligned : resvLow % 4096 = 0)
    (hnogo : (reserving s pid utcb area).nogo pid 0x10000 (resvLow - 0x10000) = false) :
    ∃ t, (reserving s pid utcb area).reserveMmap cfg pid s.nextMm 0x10000 (resvLow - 0x10000) true true = some (t, .ok ()) ∧
      Kept s t pid := by
  have hlt := img.lt
  have hword := img.hi_lt
  obtain ⟨s', bot, hready, -⟩ := h.ready utcb area
  have hself : (reserving s pid utcb area).mm s.nextMm = Vm.heapMmap := Function.update_self ..
  have hfree : ¬ (reserving s pid utcb area).Taken pid 0x10000 (0x10000 + (resvLow - 0x10000)) := by
    rintro ⟨i, hi, -, hhi⟩
    rw [reserving_mmaps] at hi
    rw [h.reserving_mm utcb area hi] at hhi
    have hwithin := h.within i hi
    omega
  refine (Vm.State.reserveFixed_free hready (lowmem_valid utcb area hlow (by omega) haligned) hnogo (by rw [hself]; rfl)
    hfree).imp fun t ⟨ht, hkept⟩ => ⟨ht, fun i hi => ?_⟩
  obtain ⟨hmem, hmm⟩ := hkept i (reserving_mmaps s pid utcb area ▸ hi)
  exact ⟨hmem, hmm.trans (h.reserving_mm utcb area hi)⟩

theorem ImageLoaded.not_kept (h : ImageLoaded s pid img) {resvLow : ℕ} (hlow : 0x10000 < resvLow)
    (hle : img.hi ≤ resvLow) (hlt : resvLow < 2 ^ 32) (haligned : resvLow % 4096 = 0) (hlo : 0x10000 < img.lo)
    (hs : (reserving s pid utcb area).reserveMmap cfg pid s.nextMm 0x10000 (resvLow - 0x10000) true true = some (t, .ok ())) :
    ¬ Kept s t pid := by
  intro hkept
  obtain ⟨s', bot, hready, hnext⟩ := h.ready utcb area
  obtain ⟨-, e, he⟩ | ⟨-, -, b, hput, hok⟩ :=
    Vm.State.reserveFixed_spec hready (lowmem_valid utcb area hlow hlt haligned) hs
  · cases he
  have hfound : Vm.State.Found (reserving s pid utcb area) pid 0x10000 (0x10000 + (resvLow - 0x10000)) := by
    intro y hprobe hstop
    obtain ⟨l, r, htree, -⟩ := probe_split (hready.mapped.directed 0x10000) hprobe
    have hy : y.1 ∈ (reserving s pid utcb area).mmaps pid := Vm.State.Mapped.mem_tree (by rw [htree]; simp)
    rw [reserving_mmaps] at hy
    rw [h.reserving_mm utcb area hy] at hstop
    have hwithin := h.within y.1 hy
    have hpos : (s.mm y.1).addr ≤ (s.mm y.1).stop := Nat.le_add_right _ _
    omega
  have hmem := hput.mem (hok fun _ => hfound)
  obtain ⟨i, hi⟩ := List.exists_mem_of_ne_nil _ h.nonempty
  obtain ⟨hi', hmm⟩ := hkept i hi
  have hwithin := h.within i hi
  have hpos := (h.mapped.valid hi).pos
  have hstop : (s.mm i).stop = (s.mm i).addr + (s.mm i).length := rfl
  have hsame := hput.mapped.inOrder.unique (a := (s.mm i).addr) (List.mem_map_of_mem hi') (List.mem_map_of_mem hmem)
    ⟨by rw [hmm], by rw [hmm]; omega⟩ ⟨by rw [hput.mm.1]; omega, by rw [Vm.LazyMmap.stop, hput.mm.1, hput.mm.2]; omega⟩
  rw [hmm] at hsame
  have haddr := congrArg Vm.LazyMmap.addr hsame
  rw [hput.mm.1] at haddr
  omega

theorem nogo_low (h : ImageLoaded s pid img) (hroom : uaSize + kip.resvSize ≤ img.lo) :
    (reserving s pid ⟨lowStart kip img, uaSize⟩ ⟨lowStart kip img + uaSize, kip.areaSize⟩).nogo pid 0x10000
      (lowStart kip img - 0x10000) = false := by
  have hua := uaSize_eq
  have hlt := img.lt
  have hword := img.hi_lt
  have hresv := kip.resvSize_eq
  obtain ⟨hge, hfits, -⟩ := lowStart_spec hroom
  have hspace : (reserving s pid ⟨lowStart kip img, uaSize⟩ ⟨lowStart kip img + uaSize, kip.areaSize⟩).spaces pid =
      (s.spaces pid).configured ⟨lowStart kip img, uaSize⟩ ⟨lowStart kip img + uaSize, kip.areaSize⟩ := by
    show (s.setSpace pid _).spaces pid = _
    rw [Vm.State.setSpace_spaces, if_pos rfl]
  have hsum : Vm.word (lowStart kip img + uaSize + kip.areaSize) = lowStart kip img + uaSize + kip.areaSize :=
    Vm.word_of_lt (by omega)
  have hend : Vm.word (0x10000 + (lowStart kip img - 0x10000)) = lowStart kip img := by
    rw [Vm.word_of_lt (by omega)]
    omega
  have hbrk : Vm.word (Vm.wordSub 0 Vm.pageSize + Vm.pageSize) = 0 := by decide
  have hle : lowStart kip img ≤ lowStart kip img + uaSize ∧ lowStart kip img ≤ lowStart kip img + uaSize + kip.areaSize := by
    omega
  simp only [Vm.State.nogo, hspace, Vm.Space.configured, h.brk, Vm.overlapExcl, hsum, hend, hbrk, List.any_cons, List.any_nil,
    Nat.le_refl, hle, or_true, true_or, not_true_eq_false, decide_false, Nat.zero_le, Bool.or_false]

theorem overlap_above {a b : Fpage} (hsize : a.size ≤ b.size) (hpos : 0 < b.size) (haligned : b.address % b.size = 0)
    (hle : b.address + b.size ≤ a.address) : a.overlap b = false := by
  have hb : b.address = b.address / b.size * b.size := (Nat.div_mul_cancel (Nat.dvd_of_mod_eq_zero haligned)).symm
  have hlt : b.address / b.size + 1 ≤ a.address / b.size := by
    rw [Nat.le_div_iff_mul_le hpos, Nat.add_mul, Nat.one_mul, ← hb]
    exact hle
  rw [Fpage.overlap, Nat.max_eq_right hsize]
  exact decide_eq_false (by omega)

theorem vmConfigure_low (h : ImageLoaded s pid img) (hroom : uaSize + kip.resvSize ≤ img.lo) (malloc : Bool) :
    ∃ t r, s.vmConfigure cfg pid ⟨lowStart kip img, uaSize⟩ ⟨lowStart kip img + uaSize, kip.areaSize⟩ malloc = some (t, r) ∧
      Kept s t pid ∧ ((malloc = true ∧ r = .ok (lowStart kip img + kip.resvSize - 1)) ∨ (malloc = false ∧ r = .error .ENOMEM)) := by
  have hua := uaSize_eq
  have hlt := img.lt
  have hword := img.hi_lt
  have hresv := kip.resvSize_eq
  obtain ⟨hpage, hle, hmod, -⟩ := kip.areaSize_spec
  obtain ⟨hge, hfits, haligned⟩ := lowStart_spec hroom
  have hsum : Vm.word (lowStart kip img + uaSize + kip.areaSize) = lowStart kip img + uaSize + kip.areaSize :=
    Vm.word_of_lt (by omega)
  have habove : lowStart kip img ≤ lowStart kip img + uaSize ∧ lowStart kip img ≤ lowStart kip img + uaSize + kip.areaSize := by
    omega
  have hmin : min (lowStart kip img + uaSize) (min (lowStart kip img) (lowStart kip img + uaSize + kip.areaSize)) =
      lowStart kip img := by
    rw [Nat.min_eq_left habove.2, Nat.min_eq_right habove.1]
  have hpos : 0 < uaSize := by omega
  have hkipsize : kip.areaSize ≤ uaSize := by omega
  have hpagesize : Vm.pageSize ≤ uaSize := by decide
  have hkip : Fpage.overlap ⟨lowStart kip img + uaSize, kip.areaSize⟩ ⟨lowStart kip img, uaSize⟩ = false :=
    overlap_above hkipsize hpos haligned (Nat.le_refl _)
  have hsi : Fpage.overlap ⟨lowStart kip img + uaSize + kip.areaSize, Vm.pageSize⟩ ⟨lowStart kip img, uaSize⟩ = false :=
    overlap_above hpagesize hpos haligned (Nat.le_add_right _ _)
  have hlow : 0x10000 < lowStart kip img := by omega
  have hpid := h.pid_le
  cases malloc with
  | false =>
    refine ⟨s.setSpace pid ((s.spaces pid).configured ⟨lowStart kip img, uaSize⟩ ⟨lowStart kip img + uaSize, kip.areaSize⟩),
      .error .ENOMEM, ?_, ?_, .inr ⟨rfl, rfl⟩⟩
    · simp only [Vm.State.vmConfigure, h.kipArea, h.utcbArea, hsum, hkip, hsi, hmin, Nat.not_lt.mpr hpid, Nat.not_le.mpr hlow,
        ne_eq, not_true_eq_false, Bool.false_eq_true, or_false, if_false, if_true, Vm.Space.configured]
    · intro i hi
      refine ⟨?_, rfl⟩
      rw [Vm.State.mmaps, Vm.State.setSpace_spaces, if_pos rfl]
      exact hi
  | true =>
    have haligned' : lowStart kip img % 4096 = 0 := by
      rw [hua] at haligned
      omega
    obtain ⟨t, ht, hkept⟩ := h.reserves cfg hlow (by omega) haligned' (nogo_low h hroom)
    refine ⟨t, .ok (lowStart kip img + kip.resvSize - 1), ?_, hkept, .inl ⟨rfl, rfl⟩⟩
    have hpages : Vm.pageSize = 4096 := rfl
    have hend : Vm.word (lowStart kip img + uaSize + kip.areaSize + Vm.pageSize) = lowStart kip img + kip.resvSize := by
      rw [Vm.word_of_lt (by omega)]
      omega
    have hutcb : Vm.word (lowStart kip img + uaSize) = lowStart kip img + uaSize := Vm.word_of_lt (by omega)
    have hresvhi : Vm.wordSub (max (lowStart kip img + kip.resvSize) (lowStart kip img + uaSize)) 1 =
        lowStart kip img + kip.resvSize - 1 := by
      rw [Nat.max_eq_left (by omega), Vm.wordSub_of_le (by omega) (by omega)]
    simp only [Vm.State.vmConfigure, h.kipArea, h.utcbArea, hsum, hkip, hsi, hmin, Nat.not_lt.mpr hpid, Nat.not_le.mpr hlow,
      ne_eq, not_true_eq_false, Bool.false_eq_true, or_false, if_false, Bool.true_eq_false, hend, hutcb, hresvhi]
    simp only [reserving, Vm.Space.configured, hsum] at ht
    exact Option.bind_eq_some_iff.mpr ⟨(t, .ok ()), ht, rfl⟩

theorem configure_of {malloc : Bool} {resvhi : ℕ} (hplace : placeAreas kip img = some (utcb, area))
    (hconf : s.vmConfigure cfg pid utcb area malloc = some (t, .ok resvhi)) (hhi : resvhi ≤ 2 ^ 31 - 1)
    (hstk : stkResv ≤ min img.lo (min utcb.address area.address)) :
    ∃ v, configure cfg kip s pid img true malloc = some (t, .ok v) := by
  have hassert : ∀ (p : Prop) [Decidable p], p → assert p = some () := fun p _ hp => assert_eq_some.mpr hp
  refine ⟨(max (Vm.word (resvhi + 1)) img.hi, min img.lo (min utcb.address area.address)), ?_⟩
  refine Option.bind_eq_some_iff.mpr ⟨(utcb, area), hplace, ?_⟩
  refine Option.bind_eq_some_iff.mpr ⟨(t, .ok resvhi), hconf, ?_⟩
  refine Option.bind_eq_some_iff.mpr ⟨(), hassert _ hhi, ?_⟩
  refine Option.bind_eq_some_iff.mpr ⟨(), hassert _ img.hi_aligned, ?_⟩
  exact Option.bind_eq_some_iff.mpr ⟨(), hassert _ hstk, rfl⟩

theorem configuresWell_low (h : ImageLoaded s pid img) (hlow : LowImage kip img) : ConfiguresWell cfg kip s pid img := by
  have hua := uaSize_eq
  have hresv := kip.resvSize_eq
  have hlt := img.lt
  have hword := img.hi_lt
  have hroom := hlow.room
  have hhalf := hlow.half
  obtain ⟨hge, hfits, -⟩ := lowStart_spec hroom
  have hmin : min img.lo (min (lowStart kip img) (lowStart kip img + uaSize)) = lowStart kip img := by
    rw [Nat.min_eq_left (Nat.le_add_right _ _), Nat.min_eq_right (by omega)]
  have hstk : stkResv ≤ lowStart kip img := by
    rw [stkResv]
    omega
  have hhi : lowStart kip img + kip.resvSize - 1 ≤ 2 ^ 31 - 1 := by omega
  have hall : ∀ malloc, ∃ t r, configure cfg kip s pid img true malloc = some (t, r) ∧ Kept s t pid ∧
      (malloc = true → ∃ v, r = .ok v) := by
    intro malloc
    obtain ⟨t, r, hconf, hkept, ⟨-, rfl⟩ | ⟨rfl, rfl⟩⟩ := @vmConfigure_low cfg kip s pid img h hroom malloc
    · obtain ⟨v, hv⟩ := configure_of (placeAreas_low hroom) hconf hhi (hmin.symm ▸ hstk)
      exact ⟨t, .ok v, hv, hkept, fun _ => ⟨v, rfl⟩⟩
    · refine ⟨t, .error .ENOMEM, ?_, hkept, nofun⟩
      simp only [configure, placeAreas_low hroom, hconf, Option.bind_eq_bind, Option.bind_some, Bool.true_eq_false, if_false]
  refine ⟨⟨_, _, placeAreas_low hroom, wellPlaced_low hroom⟩, fun bitmap malloc => ?_, ?_⟩
  · cases bitmap with
    | false =>
      refine ⟨s, .error .ENOMEM, ?_, fun i hi => ⟨hi, rfl⟩⟩
      simp only [configure, placeAreas_low hroom, Option.bind_eq_bind, Option.bind_some, if_true]
    | true =>
      obtain ⟨t, r, hconf, hkept, -⟩ := hall malloc
      exact ⟨t, r, hconf, hkept⟩
  · obtain ⟨t, r, hconf, -, hok⟩ := hall true
    obtain ⟨v, rfl⟩ := hok rfl
    exact ⟨t, v, hconf⟩

-- Other images

theorem configure_ok {v : ℕ × ℕ} (hs : configure cfg kip s pid img true true = some (t, .ok v)) :
    ∃ utcb area resvhi, placeAreas kip img = some (utcb, area) ∧ s.vmConfigure cfg pid utcb area true = some (t, .ok resvhi) ∧
      resvhi ≤ 2 ^ 31 - 1 := by
  obtain ⟨⟨utcb, area⟩, hplace, hs⟩ := Option.bind_eq_some_iff.mp hs
  simp only [Bool.true_eq_false, if_false] at hs
  obtain ⟨⟨u, r⟩, hconf, hs⟩ := Option.bind_eq_some_iff.mp hs
  cases r with
  | error e => cases hs
  | ok resvhi =>
    obtain ⟨_, hhi, hs⟩ := Option.bind_eq_some_iff.mp hs
    obtain ⟨-, -, hs⟩ := Option.bind_eq_some_iff.mp hs
    obtain ⟨-, -, hs⟩ := Option.bind_eq_some_iff.mp hs
    obtain ⟨rfl, -⟩ := Prod.mk.inj (Option.some.inj hs)
    exact ⟨utcb, area, resvhi, hplace, hconf, assert_eq_some.mp hhi⟩

theorem resvStart_cases {start : ℕ} (hs : resvStart kip img = some start) :
    (kip.resvSize ≤ img.lo ∧ img.hi < start ∧ start < 2 ^ 32 ∧ ∃ q, start = 524288 * q) ∨
      ∃ q, start = 524288 * q ∧ stkResv ≤ start ∧ start ≤ Vm.wordSub img.lo kip.resvSize ∧
        Vm.wordSub img.lo kip.resvSize < start + 524288 := by
  have hlt := img.lt
  have hword := img.hi_lt
  have hresv := kip.resvSize_eq
  obtain ⟨-, hle, -, -⟩ := kip.areaSize_spec
  obtain ⟨q, hq, hqle, hqlt⟩ := floor_spec (Vm.wordSub img.lo kip.resvSize)
  simp only [resvStart, hq] at hs
  split at hs
  · next hlow =>
    obtain ⟨_, hhi, hs⟩ := Option.bind_eq_some_iff.mp hs
    obtain ⟨q', hq', hle', -⟩ := floor_spec (Vm.word (img.hi + uaSize - 1))
    have hend : Vm.word (img.hi + uaSize - 1) < 2 ^ 32 := Nat.mod_lt _ (by decide)
    rw [assert_eq_some, hq'] at hhi
    rw [hq', Option.some.injEq] at hs
    refine .inl ⟨?_, by omega, by omega, q', hs.symm⟩
    rw [stkResv] at hlow
    rw [Vm.wordSub, Vm.word] at hqle hqlt
    omega
  · obtain ⟨_, hstk, hs⟩ := Option.bind_eq_some_iff.mp hs
    obtain ⟨_, -, hs⟩ := Option.bind_eq_some_iff.mp hs
    rw [assert_eq_some] at hstk
    rw [Option.some.injEq] at hs
    exact .inr ⟨q, hs.symm, hs ▸ hstk, hs ▸ hqle, hs ▸ hqlt⟩

theorem placeAreas_cases (hs : placeAreas kip img = some (utcb, area)) :
    ∃ start, resvStart kip img = some start ∧
      ((utcb = ⟨start, uaSize⟩ ∧ area = ⟨Vm.word (start + uaSize), kip.areaSize⟩) ∨
        start ≤ img.hi ∧ img.lo / uaSize * uaSize < kip.resvSize - uaSize ∧ utcb = ⟨Vm.wordSub (img.lo / uaSize * uaSize) uaSize, uaSize⟩ ∧
          area = ⟨Vm.wordSub (Vm.wordSub utcb.address kip.areaSize) Vm.pageSize, kip.areaSize⟩) := by
  obtain ⟨start, hstart, hs⟩ := Option.bind_eq_some_iff.mp hs
  refine ⟨start, hstart, ?_⟩
  simp only at hs
  split at hs
  · obtain ⟨rfl, rfl⟩ := Prod.mk.inj (Option.some.inj hs)
    exact .inl ⟨rfl, rfl⟩
  · next hfirst =>
    obtain ⟨rfl, rfl⟩ := Prod.mk.inj (Option.some.inj hs)
    exact .inr ⟨by omega, by omega, rfl, rfl⟩

theorem not_kept_high (h : ImageLoaded s pid img) {start resvhi : ℕ} (hroom : kip.resvSize ≤ img.lo) (hhi : img.hi < start)
    (hstart : start < 2 ^ 32) {q : ℕ} (hq : start = 524288 * q) (hwell : WellPlaced img ⟨start, uaSize⟩ ⟨Vm.word (start + uaSize), kip.areaSize⟩)
    (hs : s.vmConfigure cfg pid ⟨start, uaSize⟩ ⟨Vm.word (start + uaSize), kip.areaSize⟩ true = some (t, .ok resvhi)) :
    ¬ Kept s t pid := by
  have hua := uaSize_eq
  have hresv := kip.resvSize_eq
  obtain ⟨hpage, hle, hmod, -⟩ := kip.areaSize_spec
  obtain ⟨hlow, -, hres⟩ := Vm.State.vmConfigure_ok hs
  have habove := hwell.area_placed.above
  simp only [stkResv, Vm.word] at habove hlow hres
  have hmin : min ((start + uaSize) % 2 ^ 32) (min start (((start + uaSize) % 2 ^ 32 + kip.areaSize) % 2 ^ 32)) = start := by
    omega
  rw [hmin] at hlow hres
  exact h.not_kept hlow (by omega) (by omega) (by omega) (by omega) hres

theorem wrapped_utcb {floor k utcb area : ℕ} (hfloor : floor = 0 ∨ floor = 524288) (hk : 4096 ≤ k ∧ k ≤ 524288)
    (hutcb : utcb = Vm.wordSub floor uaSize) (harea : area = Vm.wordSub (Vm.wordSub utcb k) Vm.pageSize) (hpos : 0 < utcb) :
    2 ^ 31 ≤ Vm.wordSub (max (Vm.word (Vm.word (area + k) + Vm.pageSize)) (Vm.word (utcb + uaSize))) 1 := by
  have hua := uaSize_eq
  have hpages : Vm.pageSize = 4096 := rfl
  simp only [Vm.wordSub, Vm.word] at hutcb harea ⊢
  have hu : utcb = 4294443008 := by omega
  have ha : area + k = 4294438912 := by omega
  omega

theorem area_end {start k r lo : ℕ} (hr : r = 524288 + k + 4096) (hend : start + r ≤ lo) (hlo : lo < 2 ^ 32) :
    Vm.word (Vm.word (Vm.word (start + uaSize) + k) + Vm.pageSize) = start + r := by
  have hua := uaSize_eq
  have hpages : Vm.pageSize = 4096 := rfl
  have hutcb : Vm.word (start + uaSize) = start + uaSize := Vm.word_of_lt (by omega)
  have hkip : Vm.word (start + uaSize + k) = start + uaSize + k := Vm.word_of_lt (by omega)
  rw [hutcb, hkip, Vm.word_of_lt (by omega)]
  omega

theorem low_of_top {x top hi : ℕ} (hx : x ≤ top) (hword : top < 2 ^ 32) (hhi : hi = Vm.wordSub top 1) (hlow : hi ≤ 2 ^ 31 - 1) :
    x ≤ 2 ^ 31 := by
  obtain rfl | hpos := Nat.eq_zero_or_pos top
  · omega
  · rw [hhi, Vm.wordSub_of_le hpos hword] at hlow
    omega

theorem room_of_start {lo r start q : ℕ} (hq : start = 524288 * q) (hpos : 0 < start) (hlo : lo < 2 ^ 32)
    (hr : r ≤ 2 ^ 31 - 524288) (hfits : start ≤ Vm.wordSub lo r) (hfits' : Vm.wordSub lo r < start + 524288)
    (harea : 0 < Vm.word (start + 524288)) (hlow : Vm.word (start + 524288) ≤ 2 ^ 31) : 524288 + r ≤ lo := by
  have hlt : Vm.wordSub lo r < 2 ^ 32 := Nat.mod_lt _ (by decide)
  have hend : start + 524288 ≤ 2 ^ 32 := by omega
  have hne : start + 524288 ≠ 2 ^ 32 := fun he => by
    rw [he] at harea
    exact absurd harea (by decide)
  rw [Vm.word_of_lt (by omega)] at hlow
  by_cases hle : r ≤ lo
  · rw [Vm.wordSub_of_le hle hlo] at hfits
    omega
  · have hsub : Vm.wordSub lo r = lo + (2 ^ 32 - r) := Vm.word_of_lt (by omega)
    rw [hsub] at hfits'
    omega

theorem lowImage_of_configuresWell (h : ImageLoaded s pid img) (hw : ConfiguresWell cfg kip s pid img) : LowImage kip img := by
  have hua := uaSize_eq
  have hlt := img.lt
  have hword := img.hi_lt
  have hresv := kip.resvSize_eq
  obtain ⟨hpage, hle, hmod, -⟩ := kip.areaSize_spec
  obtain ⟨utcb, area, hplace, hwell⟩ := hw.placed
  obtain ⟨t, v, hconf⟩ := hw.succeeds
  obtain ⟨t', r, hconf', hkept⟩ := hw.returns true true
  obtain ⟨rfl, -⟩ := Prod.mk.inj (Option.some.inj (hconf.symm.trans hconf'))
  obtain ⟨utcb', area', resvhi, hplace', hvm, hhi⟩ := configure_ok hconf
  obtain ⟨rfl, rfl⟩ := Prod.mk.inj (Option.some.inj (hplace.symm.trans hplace'))
  obtain ⟨start, hstart, hareas⟩ := placeAreas_cases hplace
  obtain ⟨-, hresvhi, -⟩ := Vm.State.vmConfigure_ok hvm
  have hstk := hwell.utcb_placed.above
  have hstk' := hwell.area_placed.above
  obtain ⟨hroom, hhigh, hstart', q, hq⟩ | ⟨q, hq, hge, hfits, hfits'⟩ := resvStart_cases hstart
  · obtain ⟨rfl, rfl⟩ | ⟨hle, -⟩ := hareas
    · exact absurd hkept (not_kept_high h hroom hhigh hstart' hq hwell hvm)
    · exact absurd hhigh (Nat.not_lt.mpr hle)
  obtain ⟨rfl, rfl⟩ | ⟨-, hfloor, rfl, rfl⟩ := hareas
  · have hpos : 0 < start := Nat.lt_of_lt_of_le (show 0 < stkResv by decide) hstk
    have hpos' : 0 < Vm.word (start + 524288) := by
      rw [← hua]
      exact Nat.lt_of_lt_of_le (show 0 < stkResv by decide) hstk'
    simp only at hresvhi
    have hword' : ∀ a b, max (Vm.word a) (Vm.word b) < 2 ^ 32 := fun a b =>
      Nat.max_lt.mpr ⟨Nat.mod_lt _ (by decide), Nat.mod_lt _ (by decide)⟩
    have hlow := fun x hx => low_of_top (x := x) hx (hword' _ _) hresvhi hhi
    have hutcb := hlow _ (Nat.le_max_right _ _)
    rw [hua] at hutcb
    have hroom := room_of_start hq hpos (Nat.lt_trans hlt hword) (by omega) hfits hfits' hpos' hutcb
    rw [← hua] at hroom
    refine ⟨hroom, ?_⟩
    have hlowStart := (resvStart_low hroom).symm.trans hstart
    rw [Option.some.injEq] at hlowStart
    have hend : start + kip.resvSize ≤ img.lo := by
      rw [Vm.wordSub_of_le (by omega) (Nat.lt_trans hlt hword)] at hfits
      omega
    have htop := hlow _ (Nat.le_max_left _ _)
    rw [area_end hresv hend (Nat.lt_trans hlt hword)] at htop
    rw [hlowStart]
    exact htop
  · obtain ⟨q', hq', -, -⟩ := floor_spec img.lo
    have hfloor' : img.lo / uaSize * uaSize = 0 ∨ img.lo / uaSize * uaSize = 524288 := by omega
    have hzero : 0 < stkResv := by decide
    have hge := wrapped_utcb hfloor' ⟨hpage, hle⟩ rfl rfl (Nat.lt_of_lt_of_le hzero hstk)
    rw [← hresvhi] at hge
    exact absurd hhi (by omega)

/-- The areas are well placed, the assertions hold and the image stays mapped just for these images. -/
theorem configure_iff (cfg : Config) (kip : Kip) (s : Vm.State) (pid : ℕ) (img : Bounds) (h : ImageLoaded s pid img) :
    ConfiguresWell cfg kip s pid img ↔ LowImage kip img :=
  ⟨lowImage_of_configuresWell h, configuresWell_low h⟩

-- An image of three pages

def pageKip : Kip := ⟨12, by decide, by decide⟩

def usualImage : Bounds := ⟨0x8048000, 0x804b000, by decide, by decide, by decide, by decide⟩

def megabyteImage : Bounds := ⟨0x100000, 0x103000, by decide, by decide, by decide, by decide⟩

def spaceOf (img : Bounds) : Vm.State :=
  { Vm.State.oneMapping with
    spaces := fun _ => ⟨true, .unset, .nil, .nil, Vm.leaning [(0, true)], none, 0, 0xbfffffff⟩
    mm := fun _ => { Vm.State.threePages with addr := img.lo } }

theorem imageLoaded_spaceOf (hend : img.hi = img.lo + 0x3000) : ImageLoaded (spaceOf img) 1 img := by
  have hlt := img.hi_lt
  have haligned := img.lo_aligned
  refine ⟨by decide, rfl, rfl, rfl, ⟨⟨fun mm hmm => ?_, List.pairwise_singleton _ _⟩, fun i hi => ?_, nofun⟩,
    List.cons_ne_nil _ _, fun i hi => ⟨Nat.le_refl _, hend.ge⟩⟩
  · obtain rfl := List.mem_singleton.mp hmm
    have hstop : img.lo + 0x3000 < 2 ^ 32 := hend ▸ hlt
    exact ⟨show 0 < 0x3000 by decide, hstop, haligned, show 0x3000 % 4096 = 0 by decide⟩
  · obtain rfl := List.mem_singleton.mp hi
    exact Nat.zero_lt_one

theorem configure_usual : ImageLoaded (spaceOf usualImage) 1 usualImage ∧
    (ConfiguresWell Vm.plainConfig pageKip (spaceOf usualImage) 1 usualImage ↔ LowImage pageKip usualImage) :=
  have hloaded := imageLoaded_spaceOf (show usualImage.hi = usualImage.lo + 0x3000 by decide)
  ⟨hloaded, configure_iff Vm.plainConfig pageKip (spaceOf usualImage) 1 usualImage hloaded⟩

/-- The areas go above it, and the image goes. -/
theorem configure_megabyte : ImageLoaded (spaceOf megabyteImage) 1 megabyteImage ∧
    ¬ ConfiguresWell Vm.plainConfig pageKip (spaceOf megabyteImage) 1 megabyteImage := by
  have hloaded := imageLoaded_spaceOf (show megabyteImage.hi = megabyteImage.lo + 0x3000 by decide)
  refine ⟨hloaded, fun hw => ?_⟩
  have hroom := (lowImage_of_configuresWell hloaded hw).room
  exact absurd hroom (by decide)

end Sneks.Exec
