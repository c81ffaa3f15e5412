import Sneks.Root.PageRange
import Mathlib.Data.Int.Notation

/-!
# Portioning memory between `sysmem` and `vm`

`start_vm` and `portion_phys` of `root/main.c`: the physical pages that root got from `sigma0` go to
`sysmem` or to `vm`, those at vm's addresses to `sysmem`. What is below 1 MiB is kept.

What `get_shape` answers each time it is called is given. Sorting the fpages is left out, and so is the
nil page that ends the protocol; a call that fails aborts.
-/

namespace Sneks.Root

inductive Recipient
  | sysmem | vm
  deriving DecidableEq

structure Grant where
  recipient : Recipient
  page : Fpage
  deriving DecidableEq

/-- What `get_shape` reports: the first and the last address of vm. -/
structure Extent where
  low : ℕ
  high : ℕ
  le : low ≤ high
  lt : high < 2 ^ 32

/-- What stays the same: the memory in bytes, `sysmem_self_pages`, and what `get_shape` answers the
first time it is called, the second and so on. -/
structure Portioning where
  total : ℕ
  selfPages : ℕ
  shape : ℕ → Extent

/-- `sysmem_pages`, how often `get_shape` was called, and its last answer unless that is stale. -/
structure Progress where
  sysmemPages : ℕ
  asked : ℕ
  extent : Option Extent

def Fpage.high (p : Fpage) : ℕ := word (p.fin + (2 ^ 32 - 1))

/-- What `send_phys_to_sysmem` adds to `sysmem_pages`. -/
def sent (gs : List Grant) : ℕ :=
  ((gs.filter fun g => g.recipient = .sysmem).map fun g => g.page.size / pageSize).sum

def noPoint : ℕ := 2 ^ 32 - 1

namespace Portioning

variable (c : Portioning)

/-- `rem`: how much sysmem is to get yet, as an `int`. -/
def rem (sysmemPages : ℕ) : ℤ :=
  ((max (c.total / 40) (32 * 1024 * 1024) : ℕ) - ((sysmemPages + c.selfPages) * pageSize : ℕ) : ℤ).bmod (2 ^ 32)

def portionPhys (sysmemPages : ℕ) (p : Fpage) : List Grant :=
  let rem := c.rem sysmemPages
  if rem ≤ 0 then [⟨.vm, p⟩]
  else if p.size ≤ rem then [⟨.sysmem, p⟩]
  else
    let mid := word (p.address + rem.toNat)
    (forPageRange p.address mid).map (⟨.sysmem, ·⟩) ++ (forPageRange mid (word p.fin)).map (⟨.vm, ·⟩)

/-- `portion_phys` of one page after the other. -/
def portionAll : ℕ → List Fpage → List Grant
  | _, [] => []
  | sysmemPages, p :: l =>
    let gs := c.portionPhys sysmemPages p
    gs ++ portionAll (sysmemPages + sent gs) l

def pieces (start fin : ℕ) : List Fpage := if fin = noPoint then [] else forPageRange start fin

/-- The pages of an fpage below vm: from the first of `points` to the second. -/
def below (r : Extent) (p : Fpage) : List Fpage :=
  pieces (if p.address < r.low then p.address else noPoint) (max p.address r.low)

def within (r : Extent) (p : Fpage) : List Fpage := pieces (max p.address r.low) (word (min p.high r.high + 1))

def above (r : Extent) (p : Fpage) : List Fpage :=
  pieces (word (min p.high r.high + 1)) (if r.high < p.high then word (p.high + 1) else noPoint)

/-- An fpage that overlaps vm is divided. The flag tells whether `get_shape` is to be asked again. -/
def divvy (sysmemPages : ℕ) (r : Extent) (p : Fpage) : List Grant × Bool :=
  let gs := c.portionAll sysmemPages (below r p) ++ (within r p).map (⟨.sysmem, ·⟩)
  (gs ++ c.portionAll (sysmemPages + sent gs) (above r p), below r p ≠ [] ∨ above r p ≠ [])

def extent (s : Progress) : Extent := s.extent.getD (c.shape s.asked)

def give (s : Progress) (p : Fpage) : List Grant × Progress :=
  if p.address < 1024 * 1024 ∨ p.high < 1024 * 1024 then ([], s)
  else
    let asked := if s.extent.isNone then s.asked + 1 else s.asked
    let r := c.extent s
    if r.high < p.address ∨ p.high < r.low then
      let gs := c.portionPhys s.sysmemPages p
      (gs, ⟨s.sysmemPages + sent gs, asked, some r⟩)
    else
      let (gs, stale) := c.divvy s.sysmemPages r p
      (gs, ⟨s.sysmemPages + sent gs, asked, if stale then none else some r⟩)

def startVm : Progress → List Fpage → List Grant
  | _, [] => []
  | s, p :: l =>
    let (gs, s) := c.give s p
    gs ++ startVm s l

def after (s : Progress) (l : List Fpage) : Progress := l.foldl (fun s p => (c.give s p).2) s

def due (sysmemPages : ℕ) : ℕ := (c.rem sysmemPages).toNat / pageSize

end Portioning

def recipients (gs : List Grant) (n : ℕ) : List Recipient := (gs.filter fun g => g.page.Has n).map Grant.recipient

def Extent.Touches (r : Extent) (n : ℕ) : Prop := n * pageSize ≤ r.high ∧ r.low < n * pageSize + pageSize

instance (r : Extent) (n : ℕ) : Decidable (r.Touches n) := inferInstanceAs (Decidable (_ ∧ _))

def Right (gs : List Grant) (r : Extent) (p : Fpage) : Prop :=
  ∀ n, p.Has n → ∃ who, recipients gs n = [who] ∧ (r.Touches n → who = .sysmem)

namespace Portioning

variable (c : Portioning)

/-- Where vm is apart from it, the fpage ends below 2^32 or is not cut. Else it ends below 2^32, and vm
goes on past it, or ends where a page does, or the page where vm ends is among those that sysmem is to
get anyway. -/
def Meets (s : Progress) (p : Fpage) : Prop :=
  let r := c.extent s
  if r.high < p.address ∨ p.fin ≤ r.low then p.fin < 2 ^ 32 ∨ c.rem s.sysmemPages ≤ 0 ∨ p.size ≤ c.rem s.sysmemPages
  else p.fin < 2 ^ 32 ∧ (p.fin ≤ r.high + 1 ∨ (r.high + 1) % pageSize = 0 ∨
    let first := max p.address r.low / pageSize
    0 < c.due (s.sysmemPages + min (c.due s.sysmemPages) (first - p.address / pageSize) +
      ((r.high + 1) / pageSize - first)))

end Portioning

variable {c : Portioning} {gs gs' : List Grant} {f g : ℕ → Recipient} {a b e n sysmemPages : ℕ} {p : Fpage}
  {l : List Fpage} {who : Recipient}

@[simp] theorem recipients_nil : recipients [] n = [] := rfl

@[simp] theorem recipients_append : recipients (gs ++ gs') n = recipients gs n ++ recipients gs' n := by
  rw [recipients, List.filter_append, List.map_append, recipients, recipients]

theorem recipients_cons {x : Grant} : recipients (x :: gs) n =
    if x.page.Has n then x.recipient :: recipients gs n else recipients gs n := by
  rw [recipients, List.filter_cons]
  split
  · next h => rw [if_pos (of_decide_eq_true h)]; rfl
  · next h => rw [if_neg (by simpa using h)]; rfl

@[simp] theorem sent_nil : sent [] = 0 := rfl

@[simp] theorem sent_append : sent (gs ++ gs') = sent gs + sent gs' := by
  rw [sent, List.filter_append, List.map_append, List.sum_append, sent, sent]

theorem sent_sysmem : sent (l.map (⟨.sysmem, ·⟩)) = (l.map fun p => p.size / pageSize).sum := by
  rw [sent, List.filter_map, List.map_map]
  simp [Function.comp_def]

theorem sent_vm : sent (l.map (⟨.vm, ·⟩)) = 0 := by
  rw [sent, List.filter_map]
  simp [Function.comp_def]

-- Grants of a stretch of memory

/-- The pages from `a` to `e` are given away once, each to whom `f` says, and no others. -/
def Given (gs : List Grant) (f : ℕ → Recipient) (a e : ℕ) : Prop :=
  ∀ n, recipients gs n = if a ≤ n * pageSize ∧ n * pageSize < e then [f n] else []

namespace Given

theorem nil (f : ℕ → Recipient) (a : ℕ) : Given [] f a a := fun n => by
  rw [if_neg (by omega), recipients_nil]

theorem append (h : Given gs f a b) (h' : Given gs' f b e) (hab : a ≤ b) (hbe : b ≤ e) : Given (gs ++ gs') f a e := by
  intro n
  rw [recipients_append, h n, h' n]
  by_cases hlow : n * pageSize < b
  · rw [if_neg (show ¬ (b ≤ n * pageSize ∧ n * pageSize < e) by omega), List.append_nil]
    exact if_congr (by omega) rfl rfl
  · rw [if_neg (show ¬ (a ≤ n * pageSize ∧ n * pageSize < b) by omega), List.nil_append]
    exact if_congr (by omega) rfl rfl

theorem congr (h : Given gs f a e) (hfg : ∀ n, a ≤ n * pageSize → n * pageSize < e → f n = g n) : Given gs g a e := by
  intro n
  rw [h n]
  split
  · next hn => rw [hfg n hn.1 hn.2]
  · rfl

theorem single (p : Fpage) (who : Recipient) : Given [⟨who, p⟩] (fun _ => who) p.address p.fin := fun n => by
  rw [recipients_cons, recipients_nil]
  rfl

theorem tiles (h : Tiles l a e) (who : Recipient) : Given (l.map (⟨who, ·⟩)) (fun _ => who) a e := by
  induction h with
  | nil a => exact .nil _ a
  | cons hgood htiles ih => exact (single _ who).append ih (Nat.le_add_right _ _) htiles.le

end Given

theorem Fpage.Good.pages (h : p.Good) : p.size = p.size / pageSize * pageSize ∧ 0 < p.size / pageSize := by
  have hdvd : pageSize ∣ p.size := pageSize_dvd h.le
  refine ⟨(Nat.div_mul_cancel hdvd).symm, Nat.div_pos (Nat.le_of_dvd (Nat.two_pow_pos _) hdvd) (by decide)⟩

theorem Fpage.Good.address_mod (h : p.Good) : p.address % pageSize = 0 :=
  Nat.mod_eq_zero_of_dvd (Nat.dvd_trans (pageSize_dvd h.le) h.aligned)

theorem Fpage.Good.fin_mod (h : p.Good) : p.fin % pageSize = 0 :=
  Nat.mod_eq_zero_of_dvd (Nat.dvd_add (Nat.dvd_of_mod_eq_zero h.address_mod) (pageSize_dvd h.le))

theorem Tiles.sum (h : Tiles l a e) : (l.map fun p => p.size / pageSize).sum = (e - a) / pageSize := by
  induction h with
  | nil a => rw [Nat.sub_self, Nat.zero_div]; rfl
  | @cons p l e hgood htiles ih =>
    obtain ⟨hsize, -⟩ := hgood.pages
    have hle := htiles.le
    rw [List.map_cons, List.sum_cons, ih]
    rw [Fpage.fin] at hle ⊢
    generalize p.size / pageSize = z at *
    simp only [pageSize] at *
    omega

namespace Portioning

theorem rem_add {k : ℕ} (hk : (k * pageSize : ℕ) ≤ c.rem sysmemPages) (hpos : 0 ≤ c.rem sysmemPages) :
    c.rem (sysmemPages + k) = c.rem sysmemPages - (k * pageSize : ℕ) := by
  have hsub : ((max (c.total / 40) (32 * 1024 * 1024) : ℕ) - ((sysmemPages + k + c.selfPages) * pageSize : ℕ) : ℤ) =
      (max (c.total / 40) (32 * 1024 * 1024) : ℕ) - ((sysmemPages + c.selfPages) * pageSize : ℕ) - (k * pageSize : ℕ) := by
    simp only [pageSize]
    omega
  rw [rem] at hk hpos ⊢
  rw [hsub, rem]
  generalize ((max (c.total / 40) (32 * 1024 * 1024) : ℕ) - ((sysmemPages + c.selfPages) * pageSize : ℕ) : ℤ) = x at *
  generalize k * pageSize = y at *
  simp only [Int.bmod] at *
  omega

theorem due_add {k : ℕ} (hk : k ≤ c.due sysmemPages) : c.due (sysmemPages + k) = c.due sysmemPages - k := by
  by_cases hpos : 0 ≤ c.rem sysmemPages
  · have hle : ((k * pageSize : ℕ) : ℤ) ≤ c.rem sysmemPages := by
      simp only [due, pageSize] at *
      omega
    rw [due, rem_add hle hpos, due]
    simp only [pageSize]
    omega
  · have hzero : c.due sysmemPages = 0 := by
      simp only [due, pageSize]
      omega
    obtain rfl : k = 0 := by omega
    rfl

def split (a k n : ℕ) : Recipient := if n * pageSize < a + k * pageSize then .sysmem else .vm

theorem portionPhys_given (c : Portioning) (sysmemPages : ℕ) (hp : p.Good) (hfin : p.fin ≤ 2 ^ 32)
    (hcut : p.fin < 2 ^ 32 ∨ c.rem sysmemPages ≤ 0 ∨ p.size ≤ c.rem sysmemPages) :
    Given (c.portionPhys sysmemPages p) (split p.address (min (c.due sysmemPages) (p.size / pageSize))) p.address p.fin ∧
      sent (c.portionPhys sysmemPages p) = min (c.due sysmemPages) (p.size / pageSize) := by
  obtain ⟨hsize, hpos⟩ := hp.pages
  have haddr := hp.address_mod
  have hend : p.fin = p.address + p.size := rfl
  rw [portionPhys]
  dsimp only
  split
  · next hrem =>
    have hdue : c.due sysmemPages = 0 := by
      rw [due, Int.toNat_of_nonpos hrem, Nat.zero_div]
    rw [hdue, Nat.zero_min]
    refine ⟨(Given.single p .vm).congr fun n hn _ => ?_, sent_vm (l := [p])⟩
    rw [split, if_neg (by omega)]
  split
  · next hrem hle =>
    have hdue : p.size / pageSize ≤ c.due sysmemPages := by
      rw [due]
      exact Nat.div_le_div_right (by omega)
    rw [Nat.min_eq_right hdue]
    refine ⟨(Given.single p .sysmem).congr fun n _ hn => ?_, ?_⟩
    · rw [split, ← hsize, ← hend, if_pos hn]
    · rw [show [(⟨.sysmem, p⟩ : Grant)] = [p].map (⟨.sysmem, ·⟩) from rfl, sent_sysmem]
      rfl
  · next hrem hlt =>
    -- the fpage is cut where the page starts that sysmem does not get all of
    have hfin32 : p.fin < 2 ^ 32 := by omega
    have hrem' : (c.rem sysmemPages).toNat < p.size := by omega
    have hmid : word (p.address + (c.rem sysmemPages).toNat) = p.address + (c.rem sysmemPages).toNat :=
      Nat.mod_eq_of_lt (by omega)
    have hdue : c.due sysmemPages ≤ p.size / pageSize := by
      rw [due]
      exact Nat.div_le_div_right (by omega)
    have hdueSize : c.due sysmemPages * pageSize ≤ p.size := by
      rw [hsize]
      exact Nat.mul_le_mul_right _ hdue
    have hcutAt : pageFloor (p.address + (c.rem sysmemPages).toNat) = p.address + c.due sysmemPages * pageSize :=
      pageFloor_add haddr _
    have hstart : pageFloor p.address = p.address := pageFloor_of_mod haddr
    have hstop : pageFloor p.fin = p.fin := pageFloor_of_mod hp.fin_mod
    have hlow : Tiles (forPageRange p.address (p.address + (c.rem sysmemPages).toNat)) p.address
        (p.address + c.due sysmemPages * pageSize) := by
      have ht := forPageRange_tiles (pageFloor_mono (Nat.le_add_right p.address (c.rem sysmemPages).toNat)) (by omega)
      rwa [hstart, hcutAt] at ht
    have hhigh : Tiles (forPageRange (p.address + (c.rem sysmemPages).toNat) p.fin)
        (p.address + c.due sysmemPages * pageSize) p.fin := by
      have ht := forPageRange_tiles (pageFloor_mono (show p.address + (c.rem sysmemPages).toNat ≤ p.fin by omega)) hfin32
      rwa [hstop, hcutAt] at ht
    rw [hmid, show word p.fin = p.fin from Nat.mod_eq_of_lt hfin32, Nat.min_eq_left hdue]
    constructor
    · refine ((Given.tiles hlow .sysmem).congr fun n _ hn => ?_).append
        ((Given.tiles hhigh .vm).congr fun n hn _ => ?_) (Nat.le_add_right _ _) hhigh.le
      · rw [split, if_pos hn]
      · rw [split, if_neg (Nat.not_lt.mpr hn)]
    · rw [sent_append, sent_sysmem, sent_vm, hlow.sum, Nat.add_sub_cancel_left, Nat.add_zero,
        Nat.mul_div_cancel _ (show 0 < pageSize by decide)]

theorem portionAll_given (c : Portioning) (sysmemPages : ℕ) (h : Tiles l a e) (hlt : e < 2 ^ 32) :
    Given (c.portionAll sysmemPages l) (split a (min (c.due sysmemPages) ((e - a) / pageSize))) a e ∧
      sent (c.portionAll sysmemPages l) = min (c.due sysmemPages) ((e - a) / pageSize) := by
  induction h generalizing sysmemPages with
  | nil a =>
    rw [Nat.sub_self, Nat.zero_div, Nat.min_zero]
    exact ⟨.nil _ a, rfl⟩
  | @cons p l e hgood htiles ih =>
    obtain ⟨hsize, hpos⟩ := hgood.pages
    have hle := htiles.le
    have hend : p.fin = p.address + p.size := rfl
    obtain ⟨hgiven, hsent⟩ := portionPhys_given c sysmemPages hgood (hle.trans hlt.le)
      (.inl (hle.trans_lt hlt))
    obtain ⟨hrest, hsentRest⟩ := ih (sysmemPages + sent (c.portionPhys sysmemPages p)) hlt
    have hcount : (e - p.address) / pageSize = p.size / pageSize + (e - p.fin) / pageSize := by
      rw [hend] at hle ⊢
      generalize p.size / pageSize = z at *
      simp only [pageSize] at *
      omega
    rw [portionAll, sent_append, hsentRest, hcount]
    rw [hsent, due_add (min_le_left _ _)] at hrest
    rw [hsent, due_add (min_le_left _ _)]
    refine ⟨(hgiven.congr fun n hn hn' => ?_).append (hrest.congr fun n hn _ => ?_) (Nat.le_add_right _ _) hle, by omega⟩
    · refine if_congr ?_ rfl rfl
      rw [hend, hsize] at hn'
      simp only [pageSize] at *
      omega
    · refine if_congr ?_ rfl rfl
      rw [hend, hsize] at *
      simp only [pageSize] at *
      omega

end Portioning

/-- Pages end to end somewhere between `a` and `e`, or none. -/
def Inside (l : List Fpage) (a e : ℕ) : Prop :=
  l = [] ∨ ∃ a' e', Tiles l a' e' ∧ a ≤ a' ∧ e' ≤ e ∧ e' < 2 ^ 32

theorem Inside.map (h : Inside l a e) (hn : n * pageSize < a ∨ e ≤ n * pageSize) :
    recipients (l.map (⟨who, ·⟩)) n = [] := by
  obtain rfl | ⟨a', e', ht, ha, he, -⟩ := h
  · rfl
  · rw [Given.tiles ht who n, if_neg (by omega)]

theorem Inside.portionAll (h : Inside l a e) (hn : n * pageSize < a ∨ e ≤ n * pageSize) :
    recipients (c.portionAll sysmemPages l) n = [] := by
  obtain rfl | ⟨a', e', ht, ha, he, hlt⟩ := h
  · rfl
  · rw [(Portioning.portionAll_given _ _ ht hlt).1 n, if_neg (by omega)]

theorem forPageRange_inside {start fin : ℕ} (hlt : fin < 2 ^ 32)
    (h : pageFloor start < pageFloor fin → a ≤ pageFloor start ∧ pageFloor fin ≤ e) : Inside (forPageRange start fin) a e := by
  obtain hle | hlt' := Nat.lt_or_ge (pageFloor start) (pageFloor fin)
  · obtain ⟨ha, he⟩ := h hle
    exact .inr ⟨_, _, forPageRange_tiles hle.le hlt, ha, he, (pageFloor_le fin).trans_lt hlt⟩
  · exact .inl (forPageRange_nil hlt')

theorem Fpage.high_eq (hfin : p.fin ≤ 2 ^ 32) : p.high = p.fin - 1 := by
  have hpos : 0 < p.size := Nat.two_pow_pos _
  have hend : p.fin = p.address + p.size := rfl
  rw [high, word]
  omega

theorem Fpage.address_lt (p : Fpage) : p.address < p.fin := Nat.lt_add_of_pos_right (Nat.two_pow_pos _)

def lastStart (p : Fpage) : ℕ := min p.fin (2 ^ 32 - pageSize)

theorem pageFloor_le_lastStart (hp : p.Good) {x : ℕ} (hx : x < 2 ^ 32) (hle : x ≤ p.fin) : pageFloor x ≤ lastStart p := by
  have hend := hp.fin_mod
  simp only [pageFloor, lastStart, pageSize] at *
  omega

namespace Portioning

variable {r : Extent}

theorem pieces_inside (hp : p.Good) (hfin : p.fin ≤ 2 ^ 32) (hover : ¬ (r.high < p.address ∨ p.high < r.low)) :
    Inside (below r p) p.address (lastStart p) ∧ Inside (within r p) p.address (lastStart p) ∧
      Inside (above r p) p.address (lastStart p) := by
  have hone := p.address_lt
  have hrange := r.le
  have hlt := r.lt
  have hhigh := Fpage.high_eq hfin
  rw [hhigh] at hover
  have hstart : pageFloor p.address = p.address := pageFloor_of_mod hp.address_mod
  have hmono {x : ℕ} (hx : p.address ≤ x) : p.address ≤ pageFloor x := by
    have hle := pageFloor_mono hx
    rwa [hstart] at hle
  have hword (x : ℕ) : word x < 2 ^ 32 := Nat.mod_lt _ (by decide)
  have hwordle (x : ℕ) : word x ≤ x := Nat.mod_le _ _
  have hmax : max p.address r.low ≤ p.fin := by omega
  refine ⟨?_, ?_, ?_⟩
  · rw [below, pieces]
    split
    · exact .inl rfl
    refine forPageRange_inside (by omega) fun hlt' => ?_
    by_cases hlow : p.address < r.low
    · rw [if_pos hlow]
      exact ⟨hmono le_rfl, pageFloor_le_lastStart hp (by omega) hmax⟩
    · rw [if_neg hlow] at hlt'
      have hno : pageFloor (max p.address r.low) ≤ pageFloor noPoint := pageFloor_mono (by rw [noPoint]; omega)
      omega
  · rw [within, pieces]
    split
    · exact .inl rfl
    have hle := hwordle (min p.high r.high + 1)
    exact forPageRange_inside (hword _) fun _ => ⟨hmono (le_max_left _ _), pageFloor_le_lastStart hp (hword _) (by omega)⟩
  · rw [above, pieces]
    by_cases hup : r.high < p.high
    · rw [if_pos hup]
      split
      · exact .inl rfl
      have hmid : word (min p.high r.high + 1) = r.high + 1 := by
        rw [Nat.min_eq_right hup.le]
        exact Nat.mod_eq_of_lt (by omega)
      have hle := hwordle (p.high + 1)
      rw [hmid]
      exact forPageRange_inside (hword _) fun _ => ⟨hmono (by omega), pageFloor_le_lastStart hp (hword _) (by omega)⟩
    · rw [if_neg hup, if_pos rfl]
      exact .inl rfl

theorem divvy_outside (hp : p.Good) (hfin : p.fin ≤ 2 ^ 32) (hover : ¬ (r.high < p.address ∨ p.high < r.low))
    (hn : n * pageSize < p.address ∨ lastStart p ≤ n * pageSize) : recipients (c.divvy sysmemPages r p).1 n = [] := by
  obtain ⟨h1, h2, h3⟩ := pieces_inside hp hfin hover
  rw [divvy]
  dsimp only
  rw [recipients_append, recipients_append, h1.portionAll hn, h2.map hn, h3.portionAll hn]
  rfl

theorem pieces_tiles (hp : p.Good) (hfin : p.fin < 2 ^ 32) (hover : ¬ (r.high < p.address ∨ p.high < r.low)) :
    Tiles (below r p) p.address (pageFloor (max p.address r.low)) ∧
      Tiles (within r p) (pageFloor (max p.address r.low)) (pageFloor (min p.fin (r.high + 1))) ∧
      Tiles (above r p) (pageFloor (min p.fin (r.high + 1))) p.fin := by
  have hend := hp.fin_mod
  have hone := p.address_lt
  have hrange := r.le
  have hlt := r.lt
  have hhigh := Fpage.high_eq hfin.le
  rw [hhigh] at hover
  have hpoint1 : max p.address r.low ≤ min p.fin (r.high + 1) := by omega
  have hpoint2 : word (min p.high r.high + 1) = min p.fin (r.high + 1) := by
    rw [hhigh, word]
    omega
  have hpoint3 : word (p.high + 1) = p.fin := by
    rw [hhigh, word]
    omega
  have hbound : p.fin < noPoint := by
    simp only [noPoint, pageSize] at *
    omega
  have hstart : pageFloor p.address = p.address := pageFloor_of_mod hp.address_mod
  have hstop : pageFloor p.fin = p.fin := pageFloor_of_mod hend
  refine ⟨?_, ?_, ?_⟩
  · rw [below, pieces]
    rw [if_neg (by omega)]
    by_cases hlow : p.address < r.low
    · rw [if_pos hlow]
      have ht := forPageRange_tiles (pageFloor_mono (le_max_left p.address r.low)) (by omega)
      rwa [hstart] at ht
    · rw [if_neg hlow, Nat.max_eq_left (Nat.not_lt.mp hlow), hstart, forPageRange_nil (pageFloor_mono (by omega))]
      exact .nil _
  · rw [within, pieces]
    rw [hpoint2, if_neg (by omega)]
    exact forPageRange_tiles (pageFloor_mono hpoint1) (by omega)
  · rw [above, pieces]
    rw [hpoint2]
    by_cases hup : r.high < p.high
    · rw [if_pos hup, hpoint3, if_neg (by omega)]
      have ht := forPageRange_tiles (pageFloor_mono (min_le_left p.fin (r.high + 1))) hfin
      rwa [hstop] at ht
    · rw [if_neg hup, if_pos rfl, Nat.min_eq_left (by omega), hstop]
      exact .nil _

/-- To whom the pages of an fpage that overlaps vm are given: `lo` is where vm's pages start, and `mid`
the page's start at or before the end of vm. -/
def divided (c : Portioning) (sysmemPages lo mid : ℕ) (p : Fpage) (n : ℕ) : Recipient :=
  if n * pageSize < lo then split p.address (min (c.due sysmemPages) ((lo - p.address) / pageSize)) n
  else if n * pageSize < mid then .sysmem
  else split mid (min (c.due (sysmemPages + min (c.due sysmemPages) ((lo - p.address) / pageSize) + (mid - lo) / pageSize))
    ((p.fin - mid) / pageSize)) n

theorem divvy_given (hp : p.Good) (hfin : p.fin < 2 ^ 32) (hover : ¬ (r.high < p.address ∨ p.high < r.low)) :
    Given (c.divvy sysmemPages r p).1 (c.divided sysmemPages (pageFloor (max p.address r.low))
      (pageFloor (min p.fin (r.high + 1))) p) p.address p.fin := by
  obtain ⟨ht1, ht2, ht3⟩ := pieces_tiles hp hfin hover
  generalize pageFloor (max p.address r.low) = lo at *
  generalize pageFloor (min p.fin (r.high + 1)) = mid at *
  have hlo := ht1.le
  have hmid := ht2.le
  have htop := ht3.le
  obtain ⟨hgiven1, hsent1⟩ := portionAll_given c sysmemPages ht1 (by omega)
  rw [divvy]
  dsimp only
  rw [sent_append, hsent1, sent_sysmem, ht2.sum]
  obtain ⟨hgiven3, -⟩ := portionAll_given c
    (sysmemPages + (min (c.due sysmemPages) ((lo - p.address) / pageSize) + (mid - lo) / pageSize)) ht3 hfin
  refine ((hgiven1.congr fun n _ hn => ?_).append ((Given.tiles ht2 .sysmem).congr fun n hn hn' => ?_) hlo hmid).append
    (hgiven3.congr fun n hn _ => ?_) (hlo.trans hmid) htop
  · rw [divided, if_pos hn]
  · rw [divided, if_neg (Nat.not_lt.mpr hn), if_pos hn']
  · rw [divided, if_neg (Nat.not_lt.mpr (hmid.trans hn)), if_neg (Nat.not_lt.mpr hn), Nat.add_assoc]

theorem portionPhys_cut (hp : p.Good) (hfin : p.fin = 2 ^ 32) (hpos : 0 < c.rem sysmemPages)
    (hlt : c.rem sysmemPages < p.size) (hn : n * pageSize < p.address ∨ lastStart p ≤ n * pageSize) :
    recipients (c.portionPhys sysmemPages p) n = [] := by
  have hend : p.fin = p.address + p.size := rfl
  have hstart : pageFloor p.address = p.address := pageFloor_of_mod hp.address_mod
  have hmid : word (p.address + (c.rem sysmemPages).toNat) = p.address + (c.rem sysmemPages).toNat :=
    Nat.mod_eq_of_lt (by omega)
  have hlow : Inside (forPageRange p.address (p.address + (c.rem sysmemPages).toNat)) p.address (lastStart p) :=
    forPageRange_inside (by omega) fun _ => ⟨hstart.ge, pageFloor_le_lastStart hp (by omega) (by omega)⟩
  have hzero : word p.fin = 0 := by rw [hfin]; rfl
  have hnil : forPageRange (p.address + (c.rem sysmemPages).toNat) 0 = [] := forPageRange_nil (by simp [pageFloor])
  rw [portionPhys]
  dsimp only
  rw [if_neg (not_le.mpr hpos), if_neg (not_le.mpr hlt), hmid, hzero, hnil, recipients_append, hlow.map hn]
  rfl

theorem portionPhys_outside (hp : p.Good) (hfin : p.fin ≤ 2 ^ 32) (hn : ¬ p.Has n) :
    recipients (c.portionPhys sysmemPages p) n = [] := by
  by_cases hcut : p.fin < 2 ^ 32 ∨ c.rem sysmemPages ≤ 0 ∨ p.size ≤ c.rem sysmemPages
  · rw [(portionPhys_given c sysmemPages hp hfin hcut).1 n]
    exact if_neg hn
  · rw [not_or, not_or, not_le, not_le] at hcut
    refine portionPhys_cut hp (by omega) hcut.2.1 hcut.2.2 ?_
    rw [Fpage.Has, lastStart] at *
    omega

variable {s : Progress}

theorem give_outside (hp : p.Good) (hfin : p.fin ≤ 2 ^ 32) (hn : ¬ p.Has n) : recipients (c.give s p).1 n = [] := by
  rw [give]
  split
  · rfl
  dsimp only
  split
  · exact portionPhys_outside hp hfin hn
  · next hover =>
    refine divvy_outside hp hfin hover ?_
    rw [Fpage.Has, lastStart] at *
    omega

end Portioning

theorem Given.right_iff {r : Extent} (h : Given gs f p.address p.fin) :
    Right gs r p ↔ ∀ n, p.Has n → r.Touches n → f n = .sysmem := by
  refine forall_congr' fun n => imp_congr_right fun hn => ?_
  rw [h n, if_pos (show p.address ≤ n * pageSize ∧ n * pageSize < p.fin from hn)]
  constructor
  · rintro ⟨who, hwho, htouch⟩ ht
    rw [(List.cons.inj hwho).1]
    exact htouch ht
  · exact fun ht => ⟨f n, rfl, ht⟩

theorem not_right {r : Extent} (hp : p.Good) (hfin : p.fin = 2 ^ 32)
    (h : ∀ n, lastStart p ≤ n * pageSize → recipients gs n = []) : ¬ Right gs r p := by
  intro hright
  have haddr := hp.address_mod
  have hlt := p.address_lt
  obtain ⟨who, hwho, -⟩ := hright (2 ^ 32 / pageSize - 1) (by
    simp only [Fpage.Has, pageSize] at *
    omega)
  rw [h _ (by simp only [lastStart, pageSize]; omega)] at hwho
  cases hwho

namespace Portioning

variable {s : Progress} {r : Extent}

theorem divided_touches (hp : p.Good) (hover : ¬ (r.high < p.address ∨ p.fin ≤ r.low)) :
    (∀ n, p.Has n → r.Touches n → c.divided sysmemPages (pageFloor (max p.address r.low))
        (pageFloor (min p.fin (r.high + 1))) p n = .sysmem) ↔
      p.fin ≤ r.high + 1 ∨ (r.high + 1) % pageSize = 0 ∨
        0 < c.due (sysmemPages + min (c.due sysmemPages) (max p.address r.low / pageSize - p.address / pageSize) +
          ((r.high + 1) / pageSize - max p.address r.low / pageSize)) := by
  have haddr := hp.address_mod
  have hend := hp.fin_mod
  have hone := p.address_lt
  have hrange := r.le
  have hlo : (pageFloor (max p.address r.low) - p.address) / pageSize =
      max p.address r.low / pageSize - p.address / pageSize := by
    simp only [pageFloor, pageSize] at *
    omega
  -- what has an address of vm is past its start
  have hpast {n : ℕ} (hn : p.Has n) (ht : r.Touches n) : pageFloor (max p.address r.low) ≤ n * pageSize := by
    have haddr' := hn.1
    have hlow := ht.2
    simp only [pageFloor, pageSize] at *
    omega
  obtain hle | hlt := Nat.lt_or_ge (r.high + 1) p.fin
  · rw [Nat.min_eq_right hle.le]
    have hcount : (pageFloor (r.high + 1) - pageFloor (max p.address r.low)) / pageSize =
        (r.high + 1) / pageSize - max p.address r.low / pageSize := by
      simp only [pageFloor, pageSize]
      omega
    by_cases hmod : (r.high + 1) % pageSize = 0
    · refine iff_of_true (fun n hn ht => ?_) (.inr (.inl hmod))
      have hhigh := ht.1
      rw [divided, if_neg (Nat.not_lt.mpr (hpast hn ht)), if_pos]
      rw [pageFloor_of_mod hmod]
      omega
    · rw [or_iff_right (Nat.not_le.mpr hle), or_iff_right hmod]
      -- the page where vm ends is the first one above
      have hfirst : ∀ n, p.Has n → r.Touches n → pageFloor (r.high + 1) ≤ n * pageSize →
          n * pageSize = pageFloor (r.high + 1) := fun n _ ht hge => by
        have hhigh := ht.1
        simp only [pageFloor, pageSize] at *
        omega
      have hroom : 0 < (p.fin - pageFloor (r.high + 1)) / pageSize := by
        simp only [pageFloor, pageSize] at *
        omega
      have hend' : ∀ n, n * pageSize = pageFloor (r.high + 1) → p.Has n ∧ r.Touches n := fun n hn => by
        simp only [Fpage.Has, Extent.Touches, pageFloor, pageSize] at *
        omega
      constructor
      · intro hall
        obtain ⟨k, hk⟩ : ∃ k, k * pageSize = pageFloor (r.high + 1) := ⟨_, rfl⟩
        obtain ⟨hn, ht⟩ := hend' k hk
        have hto := hall k hn ht
        rw [divided, if_neg (Nat.not_lt.mpr (hpast hn ht)), hk, if_neg (Nat.lt_irrefl _), hlo, hcount, split, hk] at hto
        by_contra hno
        rw [Nat.eq_zero_of_not_pos hno, Nat.zero_min, Nat.zero_mul, if_neg (by simp)] at hto
        cases hto
      · intro hdue n hn ht
        rw [divided, if_neg (Nat.not_lt.mpr (hpast hn ht))]
        split
        · rfl
        · next hge =>
          rw [split, hlo, hcount, hfirst n hn ht (Nat.not_lt.mp hge), if_pos]
          have hpos : 0 < pageSize := by decide
          exact Nat.lt_add_of_pos_right (Nat.mul_pos (by omega) hpos)
  · refine iff_of_true (fun n hn ht => ?_) (.inl hlt)
    rw [divided, if_neg (Nat.not_lt.mpr (hpast hn ht)), if_pos]
    rw [Nat.min_eq_left hlt, pageFloor_of_mod hend]
    exact hn.2

theorem give_right_iff (hp : p.Good) (hfin : p.fin ≤ 2 ^ 32) (hhigh : 1024 * 1024 ≤ p.address) :
    Right (c.give s p).1 (c.extent s) p ↔ c.Meets s p := by
  have hlast := Fpage.high_eq hfin
  have hone := p.address_lt
  have hkept : ¬ (p.address < 1024 * 1024 ∨ p.high < 1024 * 1024) := by omega
  have hapart : (c.extent s).high < p.address ∨ p.high < (c.extent s).low ↔
      (c.extent s).high < p.address ∨ p.fin ≤ (c.extent s).low := by omega
  rw [give, if_neg hkept, Meets]
  dsimp only
  by_cases hover : (c.extent s).high < p.address ∨ p.fin ≤ (c.extent s).low
  · rw [if_pos (hapart.mpr hover), if_pos hover]
    by_cases hcut : p.fin < 2 ^ 32 ∨ c.rem s.sysmemPages ≤ 0 ∨ p.size ≤ c.rem s.sysmemPages
    · refine iff_of_true ((portionPhys_given c s.sysmemPages hp hfin hcut).1.right_iff.mpr fun n hn ht => ?_) hcut
      -- no page of it has an address of vm
      have haddr := hp.address_mod
      have hend := hp.fin_mod
      have hlow := hn.1
      have hup := hn.2
      have ht1 := ht.1
      have ht2 := ht.2
      simp only [pageSize] at *
      omega
    · refine iff_of_false ?_ hcut
      rw [not_or, not_or, not_le, not_le] at hcut
      have htop : p.fin = 2 ^ 32 := by omega
      exact not_right hp htop fun n hn => portionPhys_cut hp htop hcut.2.1 hcut.2.2 (.inr hn)
  · have hover' := mt hapart.mp hover
    rw [if_neg hover', if_neg hover]
    by_cases hlt : p.fin < 2 ^ 32
    · rw [(divvy_given hp hlt hover').right_iff, divided_touches hp hover, and_iff_right hlt]
    · have htop : p.fin = 2 ^ 32 := by omega
      exact iff_of_false (not_right hp htop fun n hn => divvy_outside hp hfin hover' (.inr hn)) fun h => hlt h.1

end Portioning

structure PhysMem where
  pages : List Fpage
  good : ∀ p ∈ pages, p.Good ∧ p.fin ≤ 2 ^ 32
  disjoint : pages.Pairwise fun p q => ∀ n, ¬ (p.Has n ∧ q.Has n)

namespace Portioning

variable {s : Progress}

theorem startVm_append (s : Progress) (l m : List Fpage) :
    c.startVm s (l ++ m) = c.startVm s l ++ c.startVm (c.after s l) m := by
  induction l generalizing s with
  | nil => rfl
  | cons p l ih =>
    rw [List.cons_append, startVm, startVm]
    dsimp only
    rw [ih, List.append_assoc]
    rfl

theorem startVm_outside (s : Progress) {l : List Fpage} (hl : ∀ p ∈ l, p.Good ∧ p.fin ≤ 2 ^ 32)
    (hn : ∀ p ∈ l, ¬ p.Has n) : recipients (c.startVm s l) n = [] := by
  induction l generalizing s with
  | nil => rfl
  | cons p l ih =>
    obtain ⟨hp, hfin⟩ := hl p List.mem_cons_self
    rw [startVm]
    dsimp only
    rw [recipients_append, give_outside hp hfin (hn p List.mem_cons_self),
      ih _ (fun q hq => hl q (List.mem_cons_of_mem _ hq)) fun q hq => hn q (List.mem_cons_of_mem _ hq)]
    rfl

theorem startVm_turn (phys : PhysMem) (s : Progress) {l m : List Fpage} (h : phys.pages = l ++ p :: m) (hn : p.Has n) :
    recipients (c.startVm s phys.pages) n = recipients (c.give (c.after s l) p).1 n := by
  have hgood := phys.good
  have hd := phys.disjoint
  rw [h] at hgood hd
  obtain ⟨-, hpm, hlp⟩ := List.pairwise_append.mp hd
  have hleft : recipients (c.startVm s l) n = [] :=
    startVm_outside s (fun q hq => hgood q (List.mem_append_left _ hq)) fun q hq hq' =>
      hlp q hq p List.mem_cons_self n ⟨hq', hn⟩
  have hright (s' : Progress) : recipients (c.startVm s' m) n = [] :=
    startVm_outside s' (fun q hq => hgood q (List.mem_append_right _ (List.mem_cons_of_mem _ hq))) fun q hq hq' =>
      (List.pairwise_cons.mp hpm).1 q hq n ⟨hn, hq'⟩
  rw [h, startVm_append, startVm]
  dsimp only
  rw [recipients_append, recipients_append, hleft, hright, List.nil_append, List.append_nil]

/-- **Portioning.** Whatever the fpages and the answers of `get_shape`, each page of the fpages at 1 MiB or
above goes to exactly one of sysmem and vm, and to sysmem where the extent last reported has an address
in it, if and only if each of these fpages meets the condition when it is its turn. -/
theorem startVm_right_iff (c : Portioning) (s : Progress) (phys : PhysMem) :
    (∀ l p m, phys.pages = l ++ p :: m → 1024 * 1024 ≤ p.address →
        Right (c.startVm s phys.pages) (c.extent (c.after s l)) p) ↔
      ∀ l p m, phys.pages = l ++ p :: m → 1024 * 1024 ≤ p.address → c.Meets (c.after s l) p := by
  refine forall_congr' fun l => forall_congr' fun p => forall_congr' fun m => forall_congr' fun h =>
    forall_congr' fun hhigh => ?_
  obtain ⟨hp, hfin⟩ := phys.good p (by rw [h]; simp)
  rw [← give_right_iff hp hfin hhigh]
  refine forall_congr' fun n => imp_congr_right fun hn => ?_
  rw [startVm_turn phys s h hn]

def oneMegabyte : PhysMem where
  pages := [⟨0x100000, 20⟩]
  good p hp := by
    obtain rfl := List.mem_singleton.mp hp
    exact ⟨⟨by decide, by decide⟩, by decide⟩
  disjoint := List.pairwise_singleton _ _

def brkAtPage : Portioning where
  total := 0x10000000
  selfPages := 0
  shape _ := ⟨0x110000, 0x120000, by decide, by decide⟩

/-- The page at 0x120000 goes to vm. -/
theorem last_page_to_vm : ¬ ∀ (c : Portioning) (n : ℕ) (phys : PhysMem) (l m : List Fpage) (p : Fpage),
    phys.pages = l ++ p :: m → 1024 * 1024 ≤ p.address →
      Right (c.startVm ⟨n, 0, none⟩ phys.pages) (c.extent (c.after ⟨n, 0, none⟩ l)) p := by
  intro hall
  have hto : recipients (brkAtPage.startVm ⟨8192, 0, none⟩ oneMegabyte.pages) 0x120 = [.vm] := by decide +kernel
  obtain ⟨who, hwho, htouch⟩ := hall brkAtPage 8192 oneMegabyte [] [] ⟨0x100000, 20⟩ rfl (by decide) 0x120 (by decide)
  rw [htouch (by decide), hto] at hwho
  cases hwho

end Portioning

end Sneks.Root
