import Sneks.Sysmem.Swap
import Sneks.Lib.Memory
import Sneks.Lib.Dyadic

/-!
# Memory below the size of a page

`alloc` and `recycle` of `sys/sysmem/sysmem.c` on the bytes of memory: the word at the start of a page
says where its next object goes, and recycled objects are chained through their first words. Each head
has its own pages and objects of one size. An object is handed out in a place of its head's grid, where
no other object is.

A call carries what `get_free_page` does while it is handled. Between calls memory is written where
objects are live and in pages of others. `live` is a ghost record.
-/

namespace Sneks.Sysmem

open Lib

namespace Alloc

def roundUp (n align : ℕ) : ℕ := (BitVec.ofNat 32 (n + align - 1) &&& ~~~BitVec.ofNat 32 (align - 1)).toNat

/-- The constant part of `struct alloc_head`, for types of which a page has room. -/
structure Shape where
  sz : ℕ
  align : ℕ
  sz_lt : sz < 2 ^ 15
  align_lt : align < 2 ^ 15
  pow : ∃ j, align = 2 ^ j
  word_le : 4 ≤ sz
  room : roundUp 4 align + roundUp sz align < pageSize

namespace Shape

variable (sh : Shape)

def header : ℕ := roundUp 4 sh.align

def stride : ℕ := roundUp sh.sz sh.align

end Shape

end Alloc

def Kind.shape (k : Kind) : Alloc.Shape where
  sz := k.size
  align := 4
  sz_lt := by cases k <;> decide
  align_lt := by decide
  pow := ⟨2, rfl⟩
  word_le := by cases k <;> decide
  room := by cases k <;> decide

namespace Alloc

/-- The other part: `pages` is none before `list_head_init`, and `trash` is an address or 0. -/
structure Head where
  pages : Option (List ℕ)
  trash : ℕ

structure State (ι : Type*) where
  mem : Memory
  head : ι → Head
  live : List (ι × ℕ)

/-- What `get_free_page` does: the page it returns, and bytes written meanwhile. -/
structure Ram where
  page : ℕ
  writes : List (ℕ × UInt8)

inductive Stop
  | noPages | assertion
  deriving DecidableEq, Repr

def write (m : Memory) (writes : List (ℕ × UInt8)) : Memory :=
  writes.foldl (fun m w => Function.update m w.1 w.2) m

variable {ι : Type*} (shape : ι → Shape)

section

variable [DecidableEq ι]

namespace State

variable (s : State ι)

def setHead (k : ι) (h : Head) : State ι := { s with head := Function.update s.head k h }

def pages (k : ι) : List ℕ := (s.head k).pages.getD []

/-- `alloc` from `ptr = p->next` on. No object means that it goes back to `get_ram`. -/
def bump (k : ι) (phys : ℕ) : Except Stop (State ι × Option ℕ) :=
  let p := phys * pageSize
  let ptr := s.mem.word p
  let next := Sysmem.word (ptr + (shape k).stride)
  let s := { s with mem := s.mem.putWord p next }
  if Sysmem.word (p + pageSize) ≤ next then .ok (s, none)
  else if ptr < Sysmem.word (p + 4) then .error .assertion
  else if Sysmem.word (p + pageSize) < Sysmem.word (ptr + (shape k).sz) then .error .assertion
  else .ok (s, some ptr)

/-- `get_ram`: the new page becomes the current one. -/
def addPage (k : ι) (ram : Ram) : State ι := { s with
  mem := (write s.mem ram.writes).putWord (ram.page * pageSize) (ram.page * pageSize + (shape k).header)
  head := Function.update s.head k { s.head k with pages := some (ram.page :: s.pages k) } }

def orRam (getRam : State ι → Except Stop (State ι × ℕ)) : Except Stop (State ι × Option ℕ) → Except Stop (State ι × ℕ)
  | .error e => .error e
  | .ok (s, none) => getRam s
  | .ok (s, some ptr) => .ok (s, ptr)

def getRam (k : ι) : List Ram → State ι → Except Stop (State ι × ℕ)
  | [], _ => .error .noPages
  | ram :: rams, s => orRam (getRam k rams) ((s.addPage shape k ram).bump shape k ram.page)

def alloc (k : ι) (rams : List Ram) : Except Stop (State ι × ℕ) :=
  let h := s.head k
  if h.trash ≠ 0 then .ok (s.setHead k { h with trash := s.mem.word h.trash }, h.trash)
  else
    match h.pages with
    | none => (s.setHead k { h with pages := some [] }).getRam shape k rams
    | some [] => .error .assertion
    | some (phys :: _) =>
      if s.mem.word (phys * pageSize) = 0 then s.getRam shape k rams
      else orRam (getRam shape k rams) (s.bump shape k phys)

def recycle (k : ι) (ptr : ℕ) : State ι :=
  let h := s.head k
  { s with
    mem := (s.mem.store (ptr + 4) (List.replicate ((shape k).sz - 4) 0xde)).putWord ptr h.trash
    head := Function.update s.head k { h with trash := ptr } }

end State

-- Runs

inductive Step (ι : Type*)
  | alloc (k : ι) (rams : List Ram)
  | recycle (k : ι) (ptr : ℕ)
  | write (writes : List (ℕ × UInt8))

def exec (s : State ι) : Step ι → Option (State ι)
  | .alloc k rams =>
    match s.alloc shape k rams with
    | .error _ => none
    | .ok (t, ptr) => some { t with live := (k, ptr) :: t.live }
  | .recycle k ptr => some { s.recycle shape k ptr with live := s.live.erase (k, ptr) }
  | .write writes => some { s with mem := write s.mem writes }

def Foreign (pages : ι → List ℕ) (live : List (ι × ℕ)) (x : ℕ) : Prop :=
  (∀ k, x / pageSize ∉ pages k) ∨ ∃ o ∈ live, o.2 ≤ x ∧ x < o.2 + (shape o.1).sz

/-- `get_free_page` returns pages that no head has, and does not write what is the allocator's. -/
def Granted (live : List (ι × ℕ)) (k : ι) : (ι → List ℕ) → List Ram → Prop
  | _, [] => True
  | pages, ram :: rams =>
    ram.page < 2 ^ 20 ∧ (∀ l, ram.page ∉ pages l) ∧ (∀ w ∈ ram.writes, Foreign shape pages live w.1) ∧
      Granted live k (Function.update pages k (ram.page :: pages k)) rams

def Proper (s : State ι) : Step ι → Prop
  | .alloc k rams => Granted shape s.live k s.pages rams
  | .recycle k ptr => (k, ptr) ∈ s.live
  | .write writes => ∀ w ∈ writes, Foreign shape s.pages s.live w.1

end

def init (mem : Memory) : State ι := ⟨mem, fun _ => ⟨none, 0⟩, []⟩

-- Places on a page

theorem roundUp_eq {n j : ℕ} (hn : n + 2 ^ j ≤ 2 ^ 32) : roundUp n (2 ^ j) = (n + 2 ^ j - 1) / 2 ^ j * 2 ^ j := by
  have hpos := Nat.two_pow_pos j
  rw [roundUp, clearLow_toNat, BitVec.toNat_ofNat, Nat.mod_eq_of_lt (by omega)]

theorem dvd_roundUp {n j : ℕ} (hn : n + 2 ^ j ≤ 2 ^ 32) : 2 ^ j ∣ roundUp n (2 ^ j) := by
  rw [roundUp_eq hn]
  exact Nat.dvd_mul_left _ _

theorem le_roundUp {n j : ℕ} (hn : n + 2 ^ j ≤ 2 ^ 32) : n ≤ roundUp n (2 ^ j) := by
  rw [roundUp_eq hn]
  have hpos := Nat.two_pow_pos j
  have hlt := Nat.lt_div_mul_add (a := n + 2 ^ j - 1) hpos
  omega

namespace Shape

variable (sh : Shape)

theorem header_le : 4 ≤ sh.header := by
  obtain ⟨j, hj⟩ := sh.pow
  have hlt := sh.align_lt
  rw [header, hj]
  exact le_roundUp (by omega)

theorem sz_le_stride : sh.sz ≤ sh.stride := by
  obtain ⟨j, hj⟩ := sh.pow
  have hlt := sh.align_lt
  have hsz := sh.sz_lt
  rw [stride, hj]
  exact le_roundUp (by omega)

theorem dvd_header : sh.align ∣ sh.header := by
  obtain ⟨j, hj⟩ := sh.pow
  have hlt := sh.align_lt
  rw [header, hj]
  exact dvd_roundUp (by omega)

theorem dvd_stride : sh.align ∣ sh.stride := by
  obtain ⟨j, hj⟩ := sh.pow
  have hlt := sh.align_lt
  have hsz := sh.sz_lt
  rw [stride, hj]
  exact dvd_roundUp (by omega)

theorem stride_pos : 0 < sh.stride := Nat.lt_of_lt_of_le (by decide) (sh.word_le.trans sh.sz_le_stride)

theorem header_add_stride : sh.header + sh.stride < 4096 := sh.room

theorem dvd_pageSize : sh.align ∣ pageSize := by
  have hle : sh.align ≤ sh.header := Nat.le_of_dvd (Nat.lt_of_lt_of_le (by decide) sh.header_le) sh.dvd_header
  have hroom := sh.header_add_stride
  obtain ⟨j, hj⟩ := sh.pow
  rw [hj] at hle ⊢
  have hlt : 2 ^ j < 2 ^ 12 := by omega
  exact Nat.pow_dvd_pow 2 ((Nat.pow_lt_pow_iff_right (by decide)).mp hlt).le

def Slot (p a : ℕ) : Prop := ∃ i, a = p * pageSize + sh.header + i * sh.stride ∧ a + sh.stride < (p + 1) * pageSize

variable {sh} {sh' : Shape} {p q a b : ℕ}

theorem Slot.inside (h : sh.Slot p a) : p * pageSize + 4 ≤ a ∧ a + sh.sz < (p + 1) * pageSize := by
  obtain ⟨i, rfl, hlt⟩ := h
  have hheader := sh.header_le
  have hsz := sh.sz_le_stride
  omega

theorem Slot.page (h : sh.Slot p a) {x : ℕ} (hle : a ≤ x) (hlt : x < a + sh.sz) : x / pageSize = p := by
  have hin := h.inside
  exact Nat.div_eq_of_lt_le (by omega) (by omega)

theorem Slot.aligned (h : sh.Slot p a) : sh.align ∣ a := by
  obtain ⟨i, rfl, -⟩ := h
  exact Nat.dvd_add (Nat.dvd_add (sh.dvd_pageSize.mul_left p) sh.dvd_header) (sh.dvd_stride.mul_left i)

theorem Slot.add_stride_le (h : sh.Slot p a) (h' : sh.Slot p b) (hlt : a < b) : a + sh.stride ≤ b := by
  obtain ⟨i, rfl, -⟩ := h
  obtain ⟨j, rfl, -⟩ := h'
  have hij : i < j := Nat.lt_of_mul_lt_mul_right (by omega : i * sh.stride < j * sh.stride)
  have hmul := Nat.mul_le_mul_right sh.stride hij
  rw [Nat.succ_mul] at hmul
  omega

theorem Slot.apart_of_lt (h : sh.Slot p a) (h' : sh'.Slot q b) (hlt : p < q) : a + sh.sz ≤ b := by
  have hin := h.inside
  have hin' := h'.inside
  have hpage : (p + 1) * pageSize ≤ q * pageSize := Nat.mul_le_mul_right pageSize hlt
  omega

theorem Slot.apart (h : sh.Slot p a) (h' : sh.Slot q b) (hne : a ≠ b) : a + sh.sz ≤ b ∨ b + sh.sz ≤ a := by
  have hsz := sh.sz_le_stride
  obtain hlt | rfl | hlt := Nat.lt_trichotomy p q
  · exact .inl (h.apart_of_lt h' hlt)
  · obtain hlt | hlt := Nat.lt_or_gt_of_ne hne
    · have := h.add_stride_le h' hlt
      omega
    · have := h'.add_stride_le h hlt
      omega
  · exact .inr (h'.apart_of_lt h hlt)

end Shape

theorem page_of_header {p x : ℕ} (hle : p * pageSize ≤ x) (hlt : x < p * pageSize + 4) : x / pageSize = p := by
  refine Nat.div_eq_of_lt_le hle ?_
  rw [Nat.add_one_mul]
  show x < p * pageSize + 4096
  omega

-- The invariant

def Obj (live : List (ι × ℕ)) (ts : ι → List ℕ) (k : ι) (a : ℕ) : Prop := (k, a) ∈ live ∨ a ∈ ts k

structure Books (pages : ι → List ℕ) (live : List (ι × ℕ)) (ts : ι → List ℕ) : Prop where
  page_lt : ∀ k, ∀ p ∈ pages k, p < 2 ^ 20
  owner : ∀ {k l p}, p ∈ pages k → p ∈ pages l → k = l
  slot : ∀ {k a}, Obj live ts k a → ∃ p ∈ pages k, (shape k).Slot p a
  nodup : live.Nodup
  nodup_trash : ∀ k, (ts k).Nodup
  idle : ∀ {k a}, a ∈ ts k → (k, a) ∉ live

structure Sound (s : State ι) : Prop where
  aligned : ∀ o ∈ s.live, (shape o.1).align ∣ o.2
  inside : ∀ o ∈ s.live, ∃ p ∈ s.pages o.1, p * pageSize + 4 ≤ o.2 ∧ o.2 + (shape o.1).sz ≤ (p + 1) * pageSize
  apart : s.live.Pairwise fun o o' => o.2 + (shape o.1).sz ≤ o'.2 ∨ o'.2 + (shape o'.1).sz ≤ o.2

def Chain (m : Memory) : ℕ → List ℕ → Prop
  | a, [] => a = 0
  | a, x :: l => a = x ∧ x ≠ 0 ∧ Chain m (m.word x) l

/-- The first place of page `p` that is not taken is `next`. -/
structure Next (sh : Shape) (p next : ℕ) (obj : ℕ → Prop) : Prop where
  grid : ∃ i, next = p * pageSize + sh.header + i * sh.stride
  lt : next < (p + 1) * pageSize
  below : ∀ a, obj a → a / pageSize = p → a < next

/-- The invariant, where head `ex` may have no current page. -/
structure Inv (s : State ι) (ts : ι → List ℕ) (ex : Option ι) : Prop where
  books : Books shape s.pages s.live ts
  chain : ∀ k, Chain s.mem (s.head k).trash (ts k)
  listed : ∀ k, ex ≠ some k → (s.head k).pages ≠ some []
  next : ∀ k p rest, ex ≠ some k → (s.head k).pages = some (p :: rest) →
    Next (shape k) p (s.mem.word (p * pageSize)) (Obj s.live ts k)

def Own (pages ts : ι → List ℕ) (ex : Option ι) (x : ℕ) : Prop :=
  (∃ k, ex ≠ some k ∧ ∃ p ∈ pages k, p * pageSize ≤ x ∧ x < p * pageSize + 4) ∨ ∃ k, ∃ a ∈ ts k, a ≤ x ∧ x < a + 4

variable {shape} {s t : State ι} {pages ts : ι → List ℕ} {live : List (ι × ℕ)} {ex : Option ι} {k l : ι}
  {m m' : Memory} {a b p v x ptr : ℕ} {rest list : List ℕ}

namespace Books

variable (h : Books shape pages live ts)

include h

theorem apart (ha : Obj live ts k a) (hb : Obj live ts l b) (hne : (k, a) ≠ (l, b)) :
    a + (shape k).sz ≤ b ∨ b + (shape l).sz ≤ a := by
  obtain ⟨p, hp, hslot⟩ := h.slot ha
  obtain ⟨q, hq, hslot'⟩ := h.slot hb
  by_cases hkl : k = l
  · subst hkl
    exact hslot.apart hslot' fun heq => hne (heq ▸ rfl)
  · obtain hlt | rfl | hlt := Nat.lt_trichotomy p q
    · exact .inl (hslot.apart_of_lt hslot' hlt)
    · exact absurd (h.owner hp hq) hkl
    · exact .inr (hslot'.apart_of_lt hslot hlt)

theorem pos (ha : Obj live ts k a) : 0 < a := by
  obtain ⟨p, -, hslot⟩ := h.slot ha
  have := hslot.inside
  omega

theorem lt (ha : Obj live ts k a) : a < 2 ^ 32 := by
  obtain ⟨p, hp, hslot⟩ := h.slot ha
  have hin := hslot.inside
  have hle : (p + 1) * pageSize ≤ 2 ^ 20 * pageSize := Nat.mul_le_mul_right pageSize (h.page_lt k p hp)
  have hsize : 2 ^ 20 * pageSize = 2 ^ 32 := rfl
  omega

theorem not_own (hx : Foreign shape pages live x) : ¬ Own pages ts ex x := by
  rintro (⟨k, -, p, hp, hle, hlt⟩ | ⟨k, a, ha, hle, hlt⟩)
  · have hpage := page_of_header hle hlt
    obtain hout | ⟨⟨l, b⟩, hb, hbx, hxb⟩ := hx
    · exact hout k (hpage ▸ hp)
    · dsimp only at hbx hxb
      obtain ⟨q, hq, hslot⟩ := h.slot (.inl hb)
      have hqp : q = p := (hslot.page hbx hxb).symm.trans hpage
      have hin := hslot.inside
      rw [hqp] at hin
      omega
  · obtain ⟨q, hq, hslot⟩ := h.slot (.inr ha)
    have hword := (shape k).word_le
    have hpage := hslot.page hle (by omega)
    obtain hout | ⟨⟨l, b⟩, hb, hbx, hxb⟩ := hx
    · exact hout k (hpage ▸ hq)
    · have hne : (k, a) ≠ (l, b) := fun heq => h.idle ha (heq ▸ hb)
      have hapart := h.apart (.inr ha) (.inl hb) hne
      dsimp only at hbx hxb
      omega

end Books

theorem Chain.congr (h : Chain m a list) (heq : ∀ x ∈ list, m'.word x = m.word x) : Chain m' a list := by
  induction list generalizing a with
  | nil => exact h
  | cons y list ih =>
    obtain ⟨rfl, hne, hrest⟩ := h
    refine ⟨rfl, hne, ?_⟩
    rw [heq a List.mem_cons_self]
    exact ih hrest fun x hx => heq x (List.mem_cons_of_mem _ hx)

theorem Next.mono {sh : Shape} {obj obj' : ℕ → Prop} (h : Next sh p a obj) (hsub : ∀ x, obj' x → obj x) :
    Next sh p a obj' :=
  ⟨h.grid, h.lt, fun x hx => h.below x (hsub x hx)⟩

theorem Books.next_fresh (h : Books shape pages live ts) (hp : p ∉ pages k) :
    Next (shape k) p (p * pageSize + (shape k).header) (Obj live ts k) := by
  have hroom := (shape k).header_add_stride
  refine ⟨⟨0, by omega⟩, ?_, fun x hx hpage => ?_⟩
  · rw [Nat.add_one_mul]
    show _ < p * pageSize + 4096
    omega
  · obtain ⟨q, hq, hslot⟩ := h.slot hx
    have hqp := hslot.page (le_refl x) (Nat.lt_add_of_pos_right (Nat.lt_of_lt_of_le (by decide) (shape k).word_le))
    exact absurd (hqp.symm.trans hpage ▸ hq) hp

theorem Books.addPage [DecidableEq ι] (h : Books shape pages live ts) (hlt : p < 2 ^ 20) (hp : ∀ l, p ∉ pages l) :
    Books shape (Function.update pages k (p :: pages k)) live ts := by
  have hmem : ∀ l q, q ∈ Function.update pages k (p :: pages k) l ↔ q ∈ pages l ∨ l = k ∧ q = p := by
    intro l q
    by_cases hl : l = k
    · subst hl
      rw [Function.update_self, List.mem_cons]
      tauto
    · rw [Function.update_of_ne hl]
      tauto
  refine ⟨fun l q hq => ?_, fun {l l' q} hq hq' => ?_, fun {l a} ha => ?_, h.nodup, h.nodup_trash, h.idle⟩
  · obtain hold | ⟨-, rfl⟩ := (hmem l q).mp hq
    · exact h.page_lt l q hold
    · exact hlt
  · obtain hold | ⟨hl, hqp⟩ := (hmem l q).mp hq <;> obtain hold' | ⟨hl', hqp'⟩ := (hmem l' q).mp hq'
    · exact h.owner hold hold'
    · exact absurd (hqp' ▸ hold) (hp l)
    · exact absurd (hqp ▸ hold') (hp l')
    · exact hl.trans hl'.symm
  · obtain ⟨q, hq, hslot⟩ := h.slot ha
    exact ⟨q, (hmem l q).mpr (.inl hq), hslot⟩

theorem Books.take (h : Books shape pages live ts) (hp : p ∈ pages k) (hslot : (shape k).Slot p a)
    (hfresh : ¬ Obj live ts k a) : Books shape pages ((k, a) :: live) ts := by
  refine ⟨h.page_lt, h.owner, fun {l b} hb => ?_, ?_, h.nodup_trash, fun {l b} hb hmem => ?_⟩
  · obtain hb | hb := hb
    · obtain heq | hb := List.mem_cons.mp hb
      · obtain ⟨rfl, rfl⟩ := Prod.mk.inj heq
        exact ⟨p, hp, hslot⟩
      · exact h.slot (.inl hb)
    · exact h.slot (.inr hb)
  · exact List.nodup_cons.mpr ⟨fun hmem => hfresh (.inl hmem), h.nodup⟩
  · obtain heq | hmem := List.mem_cons.mp hmem
    · obtain ⟨rfl, rfl⟩ := Prod.mk.inj heq
      exact hfresh (.inr hb)
    · exact h.idle hb hmem

theorem write_of_not_mem {writes : List (ℕ × UInt8)} (h : ∀ w ∈ writes, w.1 ≠ x) : write m writes x = m x := by
  induction writes generalizing m with
  | nil => rfl
  | cons w writes ih =>
    show write (Function.update m w.1 w.2) writes x = m x
    rw [ih fun w hw => h w (List.mem_cons_of_mem _ hw), Function.update_of_ne (h w List.mem_cons_self).symm]

namespace Inv

theorem frame (h : Inv shape s ts ex) (heq : ∀ x, Own s.pages ts ex x → m x = s.mem x) :
    Inv shape { s with mem := m } ts ex where
  books := h.books
  chain k := (h.chain k).congr fun a ha =>
    Memory.word_congr fun i hi => heq _ (.inr ⟨k, a, ha, Nat.le_add_right _ _, by omega⟩)
  listed := h.listed
  next k p rest hk hpages := by
    have hmem : p ∈ s.pages k := by
      rw [State.pages, hpages]
      exact List.mem_cons_self
    have hword : m.word (p * pageSize) = s.mem.word (p * pageSize) :=
      Memory.word_congr fun i hi => heq _ (.inl ⟨k, hk, p, hmem, Nat.le_add_right _ _, by omega⟩)
    show Next (shape k) p (m.word (p * pageSize)) _
    rw [hword]
    exact h.next k p rest hk hpages

theorem except (h : Inv shape s ts none) (k : ι) : Inv shape s ts (some k) where
  books := h.books
  chain := h.chain
  listed l _ := h.listed l (Option.some_ne_none l).symm
  next l p rest _ := h.next l p rest (Option.some_ne_none l).symm

theorem write (h : Inv shape s ts ex) {writes : List (ℕ × UInt8)} (hw : ∀ w ∈ writes, Foreign shape s.pages s.live w.1) :
    Inv shape { s with mem := write s.mem writes } ts ex :=
  h.frame fun _ hx => write_of_not_mem fun w hmem heq => h.books.not_own (heq ▸ hw w hmem) hx

theorem putHeader (h : Inv shape s ts (some k)) (hp : p ∈ s.pages k) (v : ℕ) :
    Inv shape { s with mem := s.mem.putWord (p * pageSize) v } ts (some k) := by
  refine h.frame fun x hx => Memory.putWord_of_lt _ _ ?_
  by_contra hin
  have hpage := page_of_header (p := p) (x := x) (by omega) (by omega)
  obtain ⟨l, hl, q, hq, hle, hlt⟩ | ⟨l, a, ha, hle, hlt⟩ := hx
  · have hqp : q = p := (page_of_header hle hlt).symm.trans hpage
    exact hl (congrArg some (h.books.owner hp (hqp ▸ hq)))
  · obtain ⟨q, hq, hslot⟩ := h.books.slot (.inr ha)
    have hword := (shape l).word_le
    have hqp : q = p := (hslot.page hle (by omega)).symm.trans hpage
    have hinside := hslot.inside
    rw [hqp] at hinside
    omega

theorem trash_zero (h : Inv shape s ts ex) (hts : ts k = []) : (s.head k).trash = 0 := by
  have hchain := h.chain k
  rw [hts] at hchain
  exact hchain

theorem trash_lt (h : Inv shape s ts ex) (k : ι) : (s.head k).trash < 2 ^ 32 := by
  cases hts : ts k with
  | nil =>
    rw [h.trash_zero hts]
    decide
  | cons a list =>
    have hchain := h.chain k
    rw [hts] at hchain
    exact hchain.1.symm ▸ h.books.lt (.inr (hts ▸ List.mem_cons_self))

theorem sound (h : Inv shape s ts ex) : Sound shape s where
  aligned o ho := by
    obtain ⟨p, -, hslot⟩ := h.books.slot (.inl ho)
    exact hslot.aligned
  inside o ho := by
    obtain ⟨p, hp, hslot⟩ := h.books.slot (.inl ho)
    exact ⟨p, hp, hslot.inside.1, hslot.inside.2.le⟩
  apart := h.books.nodup.imp_of_mem fun ho ho' hne => h.books.apart (.inl ho) (.inl ho') hne

end Inv

theorem inv_init (shape : ι → Shape) (m : Memory) : Inv shape (init m) (fun _ => []) none where
  books := {
    page_lt := fun _ _ hp => absurd hp List.not_mem_nil
    owner := fun hp => absurd hp List.not_mem_nil
    slot := fun ha => absurd ha (by simp [Obj, init])
    nodup := List.nodup_nil
    nodup_trash := fun _ => List.nodup_nil
    idle := fun ha => absurd ha List.not_mem_nil }
  chain _ := rfl
  listed _ _ := nofun
  next _ _ _ _ := nofun

theorem pages_cons (h : s.pages k = p :: rest) : (s.head k).pages = some (p :: rest) := by
  rw [State.pages] at h
  cases hhead : (s.head k).pages with
  | none =>
    rw [hhead, Option.getD_none] at h
    cases h
  | some l =>
    rw [hhead, Option.getD_some] at h
    rw [h]

theorem Inv.pages_nil (h : Inv shape s ts none) (hnil : s.pages k = []) : (s.head k).pages = none := by
  have hlisted := h.listed k (Option.some_ne_none k).symm
  rw [State.pages] at hnil
  cases hhead : (s.head k).pages with
  | none => rfl
  | some l =>
    rw [hhead, Option.getD_some] at hnil
    exact absurd (hnil ▸ hhead) hlisted

theorem pages_mem (s : State ι) (m : Memory) : State.pages { s with mem := m } = s.pages := rfl

-- The operations

theorem State.bump_some (hptr : s.mem.word (p * pageSize) = ptr) (hlow : p + 1 < 2 ^ 20) (hle : p * pageSize + 4 ≤ ptr)
    (hroom : ptr + (shape k).stride < (p + 1) * pageSize) :
    s.bump shape k p = .ok ({ s with mem := s.mem.putWord (p * pageSize) (ptr + (shape k).stride) }, some ptr) := by
  have hsz := (shape k).sz_le_stride
  have hsucc : (p + 1) * pageSize = p * 4096 + 4096 := Nat.add_one_mul p pageSize
  have hP : p * pageSize = p * 4096 := rfl
  simp only [State.bump, Sysmem.word, hptr, show p * pageSize + pageSize = p * pageSize + 4096 from rfl]
  rw [Nat.mod_eq_of_lt (by omega : ptr + (shape k).stride < 2 ^ 32), Nat.mod_eq_of_lt (by omega : p * pageSize + 4096 < 2 ^ 32),
    Nat.mod_eq_of_lt (by omega : p * pageSize + 4 < 2 ^ 32), Nat.mod_eq_of_lt (by omega : ptr + (shape k).sz < 2 ^ 32),
    if_neg (by omega), if_neg (by omega), if_neg (by omega)]

theorem State.bump_none (hptr : s.mem.word (p * pageSize) = ptr) (hlt : ptr + (shape k).stride < 2 ^ 32)
    (hfull : (p + 1) * pageSize ≤ ptr + (shape k).stride) :
    s.bump shape k p = .ok ({ s with mem := s.mem.putWord (p * pageSize) (ptr + (shape k).stride) }, none) := by
  have hsucc : (p + 1) * pageSize = p * 4096 + 4096 := Nat.add_one_mul p pageSize
  have hP : p * pageSize = p * 4096 := rfl
  simp only [State.bump, Sysmem.word, hptr, show p * pageSize + pageSize = p * pageSize + 4096 from rfl]
  rw [Nat.mod_eq_of_lt hlt, Nat.mod_eq_of_lt (by omega : p * pageSize + 4096 < 2 ^ 32), if_pos (by omega)]

variable [DecidableEq ι] {ram : Ram} {rams : List Ram} {hd : Head}

theorem pages_update (s : State ι) (k : ι) (hd : Head) (m : Memory) (live : List (ι × ℕ)) :
    State.pages ⟨m, Function.update s.head k hd, live⟩ = Function.update s.pages k (hd.pages.getD []) := by
  funext l
  show (Function.update s.head k hd l).pages.getD [] = _
  by_cases hl : l = k
  · rw [hl, Function.update_self, Function.update_self]
  · rw [Function.update_of_ne hl, Function.update_of_ne hl]
    rfl

theorem pages_retrash (s : State ι) (k : ι) (m : Memory) (tr : ℕ) (live : List (ι × ℕ)) :
    State.pages ⟨m, Function.update s.head k { s.head k with trash := tr }, live⟩ = s.pages :=
  (pages_update s k _ m live).trans (Function.update_eq_self k s.pages)

theorem pages_addPage (s : State ι) (k : ι) (ram : Ram) :
    (s.addPage shape k ram).pages = Function.update s.pages k (ram.page :: s.pages k) := pages_update s k _ _ _

namespace Inv

theorem retrash {live' : List (ι × ℕ)} {tr : ℕ} (h : Inv shape s ts none)
    (hm : ∀ x, Own s.pages ts none x → m x = s.mem x)
    (hbooks : Books shape s.pages live' (Function.update ts k list)) (hchain : Chain m tr list)
    (hobj : ∀ {l a}, Obj live' (Function.update ts k list) l a → Obj s.live ts l a) :
    Inv shape ⟨m, Function.update s.head k { s.head k with trash := tr }, live'⟩ (Function.update ts k list) none := by
  have hframe := h.frame hm
  have hpages : ∀ l, (Function.update s.head k { s.head k with trash := tr } l).pages = (s.head l).pages := by
    intro l
    by_cases hl : l = k
    · rw [hl, Function.update_self]
    · rw [Function.update_of_ne hl]
  refine ⟨(pages_retrash s k m tr live').symm ▸ hbooks, fun l => ?_, fun l hl => ?_, fun l p rest hl hp => ?_⟩
  · show Chain m (Function.update s.head k _ l).trash _
    by_cases hl : l = k
    · rw [hl, Function.update_self, Function.update_self]
      exact hchain
    · rw [Function.update_of_ne hl, Function.update_of_ne hl]
      exact hframe.chain l
  · exact (hpages l).symm ▸ h.listed l hl
  · exact (hframe.next l p rest hl ((hpages l).symm.trans hp)).mono fun _ => hobj

theorem repage (h : Inv shape s ts (some k)) (pgs : Option (List ℕ))
    (hbooks : Books shape (Function.update s.pages k (pgs.getD [])) s.live ts) :
    Inv shape (s.setHead k { s.head k with pages := pgs }) ts (some k) := by
  have hother : ∀ {l}, some k ≠ some l → (s.setHead k { s.head k with pages := pgs }).head l = s.head l :=
    fun hl => Function.update_of_ne (fun heq => hl (congrArg some heq.symm)) _ _
  refine ⟨(pages_update s k _ _ _).symm ▸ hbooks, fun l => ?_, fun l hl => ?_, fun l p rest hl hp => ?_⟩
  · by_cases hl : some k = some l
    · obtain rfl := Option.some.inj hl
      show Chain s.mem (Function.update s.head k _ k).trash _
      rw [Function.update_self]
      exact h.chain k
    · rw [hother hl]
      exact h.chain l
  · rw [hother hl]
    exact h.listed l hl
  · rw [hother hl] at hp
    exact h.next l p rest hl hp

theorem take (h : Inv shape s ts (some k)) (hpages : (s.head k).pages = some (p :: rest)) (hslot : (shape k).Slot p ptr)
    (hfresh : ¬ Obj s.live ts k ptr) (hnext : Next (shape k) p (s.mem.word (p * pageSize)) (Obj s.live ts k))
    (hlt : ptr < s.mem.word (p * pageSize)) : Inv shape { s with live := (k, ptr) :: s.live } ts none := by
  have hp : p ∈ s.pages k := by
    rw [State.pages, hpages]
    exact List.mem_cons_self
  refine ⟨h.books.take hp hslot hfresh, h.chain, fun l _ => ?_, fun l q rest' _ hq => ?_⟩
  · by_cases hl : k = l
    · subst hl
      rw [hpages]
      simp
    · exact h.listed l fun heq => hl (Option.some.inj heq)
  · by_cases hl : k = l
    · subst hl
      obtain ⟨rfl, rfl⟩ := List.cons.inj (Option.some.inj (hpages.symm.trans hq))
      refine ⟨hnext.grid, hnext.lt, fun a ha hpage => ?_⟩
      obtain ha | ha := ha
      · obtain heq | ha := List.mem_cons.mp ha
        · exact (Prod.mk.inj heq).2 ▸ hlt
        · exact hnext.below a (.inl ha) hpage
      · exact hnext.below a (.inr ha) hpage
    · refine (h.next l q rest' (fun heq => hl (Option.some.inj heq)) hq).mono fun a ha => ?_
      obtain ha | ha := ha
      · obtain heq | ha := List.mem_cons.mp ha
        · exact absurd (Prod.mk.inj heq).1.symm hl
        · exact .inl ha
      · exact .inr ha

theorem bump (h : Inv shape s ts (some k)) (hpages : (s.head k).pages = some (p :: rest))
    (hnext : Next (shape k) p (s.mem.word (p * pageSize)) (Obj s.live ts k)) :
    (∃ t, s.bump shape k p = .ok (t, none) ∧ Inv shape t ts (some k) ∧ t.head = s.head ∧ t.live = s.live) ∨
      ∃ t, s.bump shape k p = .ok (t, some (s.mem.word (p * pageSize))) ∧
        Inv shape { t with live := (k, s.mem.word (p * pageSize)) :: t.live } ts none := by
  have hp : p ∈ s.pages k := by
    rw [State.pages, hpages]
    exact List.mem_cons_self
  by_cases hfull : Sysmem.word (p * pageSize + pageSize) ≤ Sysmem.word (s.mem.word (p * pageSize) + (shape k).stride)
  · refine .inl ⟨_, ?_, h.putHeader hp (Sysmem.word (s.mem.word (p * pageSize) + (shape k).stride)), rfl, rfl⟩
    rw [State.bump]
    exact if_pos hfull
  · have hlt := h.books.page_lt k p hp
    obtain ⟨⟨i, hgrid⟩, hend, hbelow⟩ := hnext
    generalize hptr : s.mem.word (p * pageSize) = ptr at hgrid hend hbelow hfull ⊢
    have hheader := (shape k).header_le
    have hroom := (shape k).header_add_stride
    have hpos := (shape k).stride_pos
    have hsucc : (p + 1) * pageSize = p * pageSize + 4096 := Nat.add_one_mul p pageSize
    have hP : p * pageSize = p * 4096 := rfl
    simp only [Sysmem.word, show p * pageSize + pageSize = p * pageSize + 4096 from rfl] at hfull
    -- the last page's end is address 0, and there it goes to another page
    have hlast : p * pageSize + 4096 < 2 ^ 32 := by
      by_contra hge
      rw [show p * pageSize + 4096 = 2 ^ 32 by omega, Nat.mod_self] at hfull
      exact hfull (Nat.zero_le _)
    have hsmall : ptr + (shape k).stride < 2 ^ 32 := by omega
    rw [Nat.mod_eq_of_lt hsmall, Nat.mod_eq_of_lt hlast] at hfull
    have hbump := State.bump_some hptr (by omega) (by omega) (by omega : ptr + (shape k).stride < (p + 1) * pageSize)
    have hword : (s.mem.putWord (p * pageSize) (ptr + (shape k).stride)).word (p * pageSize) = ptr + (shape k).stride := by
      rw [Memory.word_putWord, Nat.mod_eq_of_lt hsmall]
    have hslot : (shape k).Slot p ptr := ⟨i, hgrid, by omega⟩
    refine .inr ⟨_, hbump, (h.putHeader hp _).take hpages hslot (fun hobj => ?_) ⟨⟨i + 1, ?_⟩, ?_, fun a ha hpage => ?_⟩ ?_⟩
    · have hpage := hslot.page (le_refl ptr) (by have := (shape k).word_le; omega)
      exact absurd (hbelow ptr hobj hpage) (Nat.lt_irrefl _)
    · rw [hword, hgrid, Nat.add_one_mul, Nat.add_assoc]
    · rw [hword]
      omega
    · rw [hword]
      exact (hbelow a ha hpage).trans (by omega)
    · show ptr < (s.mem.putWord (p * pageSize) (ptr + (shape k).stride)).word (p * pageSize)
      rw [hword]
      omega

theorem addPage (h : Inv shape s ts (some k)) (hlt : ram.page < 2 ^ 20) (hnew : ∀ l, ram.page ∉ s.pages l)
    (hw : ∀ w ∈ ram.writes, Foreign shape s.pages s.live w.1) :
    Inv shape (s.addPage shape k ram) ts (some k) ∧
      Next (shape k) ram.page ((s.addPage shape k ram).mem.word (ram.page * pageSize)) (Obj s.live ts k) := by
  have hadd := (h.write hw).repage (k := k) (some (ram.page :: s.pages k)) (h.books.addPage hlt hnew)
  have hmem : ram.page ∈ (s.addPage shape k ram).pages k := by
    rw [pages_addPage, Function.update_self]
    exact List.mem_cons_self
  have hfirst : ram.page * pageSize + (shape k).header < 2 ^ 32 := by
    have hroom := (shape k).header_add_stride
    have hP : ram.page * pageSize = ram.page * 4096 := rfl
    omega
  refine ⟨hadd.putHeader hmem _, ?_⟩
  have hword : (s.addPage shape k ram).mem.word (ram.page * pageSize) = ram.page * pageSize + (shape k).header := by
    rw [State.addPage, Memory.word_putWord, Nat.mod_eq_of_lt hfirst]
  rw [hword]
  exact h.books.next_fresh (hnew k)

end Inv

/-- What `alloc` hands out keeps the invariant, and it stops only for want of pages. -/
inductive Hands (shape : ι → Shape) (ts : ι → List ℕ) (k : ι) : Except Stop (State ι × ℕ) → Prop
  | stop : Hands shape ts k (.error .noPages)
  | hand {t : State ι} {ptr : ℕ} (h : Inv shape { t with live := (k, ptr) :: t.live } ts none) :
      Hands shape ts k (.ok (t, ptr))

theorem Inv.getRam (h : Inv shape s ts (some k)) (hok : Granted shape s.live k s.pages rams) :
    Hands shape ts k (s.getRam shape k rams) := by
  induction rams generalizing s with
  | nil => exact .stop
  | cons ram rams ih =>
    obtain ⟨hlt, hnew, hw, hrest⟩ := hok
    obtain ⟨hadd, hnext⟩ := h.addPage hlt hnew hw
    have hpages : ((s.addPage shape k ram).head k).pages = some (ram.page :: s.pages k) := by
      show (Function.update s.head k _ k).pages = _
      rw [Function.update_self]
    rw [State.getRam]
    obtain ⟨t, ht, hinv, hhead, hlive⟩ | ⟨t, ht, hinv⟩ := hadd.bump hpages hnext
    · rw [ht]
      refine ih hinv ?_
      have htpages : t.pages = Function.update s.pages k (ram.page :: s.pages k) := by
        have hadded : (s.addPage shape k ram).pages = _ := pages_addPage s k ram
        rw [← hadded]
        funext l
        rw [State.pages, hhead, State.pages]
      rw [htpages, hlive]
      exact hrest
    · rw [ht]
      exact .hand hinv

theorem mem_update {y : ℕ} : y ∈ Function.update ts k list l ↔ if l = k then y ∈ list else y ∈ ts l := by
  by_cases hl : l = k
  · rw [hl, Function.update_self, if_pos rfl]
  · rw [Function.update_of_ne hl, if_neg hl]

theorem obj_reuse (hts : ts k = a :: list) : Obj ((k, a) :: live) (Function.update ts k list) l b ↔ Obj live ts l b := by
  rw [Obj, Obj, List.mem_cons, mem_update, Prod.mk.injEq]
  by_cases hl : l = k
  · subst hl
    rw [if_pos rfl, hts, List.mem_cons]
    tauto
  · simp [hl]

theorem Books.reuse (h : Books shape pages live ts) (hts : ts k = a :: list) :
    Books shape pages ((k, a) :: live) (Function.update ts k list) := by
  have hnodup := h.nodup_trash k
  rw [hts, List.nodup_cons] at hnodup
  have ha : a ∈ ts k := hts ▸ List.mem_cons_self
  refine ⟨h.page_lt, h.owner, fun hb => h.slot ((obj_reuse hts).mp hb), ?_, fun l => ?_, fun {l b} hb hmem => ?_⟩
  · exact List.nodup_cons.mpr ⟨h.idle ha, h.nodup⟩
  · by_cases hl : l = k
    · rw [hl, Function.update_self]
      exact hnodup.2
    · rw [Function.update_of_ne hl]
      exact h.nodup_trash l
  · rw [mem_update] at hb
    split at hb
    · next hl =>
      subst hl
      obtain heq | hmem := List.mem_cons.mp hmem
      · exact hnodup.1 ((Prod.mk.inj heq).2 ▸ hb)
      · exact h.idle (hts ▸ List.mem_cons_of_mem _ hb) hmem
    · next hl =>
      obtain heq | hmem := List.mem_cons.mp hmem
      · exact hl (Prod.mk.inj heq).1
      · exact h.idle hb hmem

theorem obj_recycle (hnodup : live.Nodup) (ha : (k, a) ∈ live) :
    Obj (live.erase (k, a)) (Function.update ts k (a :: ts k)) l b ↔ Obj live ts l b := by
  rw [Obj, Obj, hnodup.mem_erase_iff, mem_update, ne_eq, Prod.mk.injEq]
  by_cases hl : l = k
  · subst hl
    rw [if_pos rfl, List.mem_cons]
    by_cases hb : b = a
    · simp [hb, ha]
    · simp [hb]
  · simp [hl]

theorem Books.recycle (h : Books shape pages live ts) (ha : (k, a) ∈ live) :
    Books shape pages (live.erase (k, a)) (Function.update ts k (a :: ts k)) := by
  refine ⟨h.page_lt, h.owner, fun hb => h.slot ((obj_recycle h.nodup ha).mp hb), h.nodup.erase _, fun l => ?_,
    fun {l b} hb hmem => ?_⟩
  · by_cases hl : l = k
    · rw [hl, Function.update_self]
      exact List.nodup_cons.mpr ⟨fun hidle => h.idle hidle ha, h.nodup_trash k⟩
    · rw [Function.update_of_ne hl]
      exact h.nodup_trash l
  · obtain ⟨hne, hmem⟩ := h.nodup.mem_erase_iff.mp hmem
    rw [mem_update] at hb
    split at hb
    · next hl =>
      obtain rfl | hb := List.mem_cons.mp hb
      · exact hne (hl ▸ rfl)
      · exact h.idle hb (hl ▸ hmem)
    · exact h.idle hb hmem

theorem Inv.alloc_reuse (h : Inv shape s ts none) (hts : ts k = a :: list) (rams : List Ram) :
    s.alloc shape k rams = .ok (s.setHead k { s.head k with trash := s.mem.word a }, a) ∧
      Inv shape { s.setHead k { s.head k with trash := s.mem.word a } with live := (k, a) :: s.live }
        (Function.update ts k list) none := by
  have hchain := h.chain k
  rw [hts] at hchain
  obtain ⟨heq, hne, hrest⟩ := hchain
  refine ⟨?_, h.retrash (fun _ _ => rfl) (h.books.reuse hts) hrest (obj_reuse hts).mp⟩
  rw [State.alloc, heq]
  exact if_pos hne

theorem Inv.alloc_fresh (h : Inv shape s ts none) (hts : ts k = []) (hok : Granted shape s.live k s.pages rams) :
    Hands shape ts k (s.alloc shape k rams) := by
  rw [State.alloc, if_neg (not_not.mpr (h.trash_zero hts))]
  split
  · next hpages =>
    have hnone : s.pages k = [] := by rw [State.pages, hpages, Option.getD_none]
    have hsame : Function.update s.pages k [] = s.pages := by rw [← hnone, Function.update_eq_self]
    refine ((h.except k).repage (some []) (hsame.symm ▸ h.books)).getRam ?_
    rw [State.setHead, pages_update, Option.getD_some, hsame]
    exact hok
  · next hpages => exact absurd hpages (h.listed k (Option.some_ne_none k).symm)
  · next p rest hpages =>
    split
    · exact (h.except k).getRam hok
    · have hnext := h.next k p rest (Option.some_ne_none k).symm hpages
      obtain ⟨t, ht, hinv, hhead, hlive⟩ | ⟨t, ht, hinv⟩ := (h.except k).bump hpages hnext
      · rw [ht]
        refine hinv.getRam ?_
        have htpages : t.pages = s.pages := by
          funext l
          rw [State.pages, hhead, State.pages]
        rw [htpages, hlive]
        exact hok
      · rw [ht]
        exact .hand hinv

/-- **What `alloc` does**, with the recycled objects before and after. -/
theorem Inv.alloc (h : Inv shape s ts none) (hok : Granted shape s.live k s.pages rams) :
    ∃ ts', Hands shape ts' k (s.alloc shape k rams) := by
  cases hts : ts k with
  | nil => exact ⟨ts, h.alloc_fresh hts hok⟩
  | cons a list =>
    obtain ⟨heq, hinv⟩ := h.alloc_reuse hts rams
    rw [heq]
    exact ⟨_, .hand hinv⟩

theorem Inv.recycle_mem (h : Inv shape s ts none) (ha : (k, a) ∈ s.live) (hx : Own s.pages ts none x) :
    (s.recycle shape k a).mem x = s.mem x := by
  have hword := (shape k).word_le
  have hout : ¬ (a ≤ x ∧ x < a + (shape k).sz) := fun hin => h.books.not_own (.inr ⟨_, ha, hin⟩) hx
  refine (Memory.putWord_of_lt _ _ (by omega)).trans (Memory.store_of_lt ?_)
  rw [List.length_replicate]
  omega

theorem Inv.recycle (h : Inv shape s ts none) (ha : (k, a) ∈ s.live) :
    Inv shape { s.recycle shape k a with live := s.live.erase (k, a) } (Function.update ts k (a :: ts k)) none := by
  refine h.retrash (fun _ => h.recycle_mem ha) (h.books.recycle ha) ⟨rfl, (h.books.pos (.inl ha)).ne', ?_⟩
    (obj_recycle h.books.nodup ha).mp
  rw [State.recycle, Memory.word_putWord, Nat.mod_eq_of_lt (h.trash_lt k)]
  exact (h.frame fun _ => h.recycle_mem ha).chain k

-- What holds in every run

theorem inv_exec {as : Step ι} (h : Inv shape s ts none) (hok : Proper shape s as) (hs : exec shape s as = some t) :
    ∃ ts', Inv shape t ts' none := by
  cases as with
  | alloc k rams =>
    obtain ⟨ts', hands⟩ := h.alloc hok
    simp only [exec] at hs
    split at hs
    · cases hs
    next u ptr hu =>
    rw [hu] at hands
    cases hands with
    | hand hinv => exact Option.some.inj hs ▸ ⟨ts', hinv⟩
  | recycle k ptr => exact Option.some.inj hs ▸ ⟨_, h.recycle hok⟩
  | write writes => exact Option.some.inj hs ▸ ⟨ts, h.write hok⟩

theorem inv_run {as : List (Step ι)} (h : Run (exec shape) (Proper shape) (init m) as s) : ∃ ts, Inv shape s ts none := by
  refine h.invariant (I := fun s => ∃ ts, Inv shape s ts none) (fun _ _ _ hok hs => ?_) ⟨_, inv_init shape m⟩
  rintro ⟨ts, hinv⟩
  exact inv_exec hinv hok hs

/-- **Objects are aligned, in place and apart** in every run that recycles only live ones. -/
theorem live_sound (shape : ι → Shape) (m : Memory) {as : List (Step ι)} {s : State ι}
    (h : Run (exec shape) (Proper shape) (init m) as s) : Sound shape s :=
  (inv_run h).choose_spec.sound

/-- Two logical pages and a task are allocated. The second page is recycled and allocated again. -/
theorem live_sound_reused : ∃ s, Run (exec Kind.shape) (Proper Kind.shape) (init fun _ => 0)
    [.alloc .lPage [⟨5, []⟩], .alloc .lPage [], .recycle .lPage 20508, .alloc .systask [⟨9, []⟩], .alloc .lPage []] s ∧
      s.live = [(.lPage, 20508), (.systask, 36868), (.lPage, 20484)] ∧ Sound Kind.shape s := by
  have hpage : ∀ {p : ℕ} {pages : Kind → List ℕ} {live : List (Kind × ℕ)} {k : Kind}, p < 2 ^ 20 → (∀ l, p ∉ pages l) →
      Granted Kind.shape live k pages [⟨p, []⟩] := fun hlt hnew => ⟨hlt, hnew, nofun, trivial⟩
  obtain ⟨s, hrun, hlive⟩ : ∃ s, Run (exec Kind.shape) (Proper Kind.shape) (init fun _ => 0) [.alloc .lPage [⟨5, []⟩],
      .alloc .lPage [], .recycle .lPage 20508, .alloc .systask [⟨9, []⟩], .alloc .lPage []] s ∧
      s.live = [(.lPage, 20508), (.systask, 36868), (.lPage, 20484)] := by
    exact ⟨_, .cons (hpage (by decide) fun l => by cases l <;> decide) rfl <| .cons trivial rfl <|
      .cons List.mem_cons_self rfl <| .cons (hpage (by decide) fun l => by cases l <;> decide) rfl <|
        .cons trivial rfl <| .nil _, rfl⟩
  exact ⟨s, hrun, hlive, live_sound _ _ hrun⟩

theorem alloc_error {as : List (Step ι)} {e : Stop} (h : Run (exec shape) (Proper shape) (init m) as s)
    (hok : Proper shape s (.alloc k rams)) (he : s.alloc shape k rams = .error e) : e = .noPages := by
  obtain ⟨ts, hinv⟩ := inv_run h
  obtain ⟨ts', hands⟩ := hinv.alloc hok
  rw [he] at hands
  cases hands with
  | stop => rfl

-- The system's heads

theorem header_eq (k : Kind) : k.shape.header = 4 := (by decide : roundUp 4 4 = 4)

theorem stride_eq (k : Kind) : k.shape.stride = k.size := by cases k <;> rfl

structure Rep (b : State Kind) (s : Sysmem.State) : Prop where
  inv : Inv Kind.shape b (fun k => (s.heap k).trash) none
  pages : ∀ k, b.pages k = (s.heap k).pages
  low : ∀ k, ∀ p ∈ (s.heap k).pages, p + 1 < 2 ^ 20
  next : ∀ k p rest, (s.heap k).pages = p :: rest → b.mem.word (p * pageSize) = (s.heap k).next

variable {lz : Lz4} {lay : Layout} {s t u : Sysmem.State} {limbo : List ℕ} {olp och : Option ℕ} {b c : State Kind} {k : Kind}
  {p q ptr v : ℕ} {m : Memory}

theorem word_putWord_page (hne : q ≠ p) : (m.putWord (p * pageSize) v).word (q * pageSize) = m.word (q * pageSize) := by
  refine Memory.word_congr fun i hi => Memory.putWord_of_lt _ _ ?_
  by_contra hin
  have hq := page_of_header (p := q) (x := q * pageSize + i) (Nat.le_add_right _ _) (by omega)
  have hp := page_of_header (p := p) (x := q * pageSize + i) (by omega) (by omega)
  exact hne (hq.symm.trans hp)

theorem getRam_page (b : State Kind) (k : Kind) (hlow : p + 1 < 2 ^ 20) :
    ∃ c, b.getRam Kind.shape k [⟨p, []⟩] = .ok (c, p * pageSize + 4) ∧
      c.pages = Function.update b.pages k (p :: b.pages k) ∧ c.mem.word (p * pageSize) = p * pageSize + 4 + k.size ∧
      ∀ q ≠ p, c.mem.word (q * pageSize) = b.mem.word (q * pageSize) := by
  have hroom := k.shape.header_add_stride
  rw [header_eq, stride_eq] at hroom
  have hsucc : (p + 1) * pageSize = p * 4096 + 4096 := Nat.add_one_mul p pageSize
  have hP : p * pageSize = p * 4096 := rfl
  have hfirst : (b.addPage Kind.shape k ⟨p, []⟩).mem.word (p * pageSize) = p * pageSize + 4 := by
    rw [State.addPage, header_eq]
    exact (Memory.word_putWord _ _ _).trans (Nat.mod_eq_of_lt (by omega : p * pageSize + 4 < 2 ^ 32))
  have hfits : p * pageSize + 4 + k.shape.stride < (p + 1) * pageSize := by
    rw [stride_eq]
    omega
  have hbump := State.bump_some hfirst hlow le_rfl hfits
  rw [stride_eq] at hbump
  refine ⟨{ b.addPage Kind.shape k ⟨p, []⟩ with
    mem := (b.addPage Kind.shape k ⟨p, []⟩).mem.putWord (p * pageSize) (p * pageSize + 4 + k.size) }, ?_,
    (pages_mem _ _).trans (pages_addPage b k ⟨p, []⟩), ?_, fun q hq => ?_⟩
  · rw [State.getRam, hbump, State.orRam]
  · rw [Memory.word_putWord, Nat.mod_eq_of_lt (by omega)]
  · rw [word_putWord_page hq]
    exact word_putWord_page hq

theorem Rep.update (hrep : Rep b s) (hd : AllocHead) (hheap : t.heap = Function.update s.heap k hd)
    (hinv : Inv Kind.shape c (Function.update (fun l => (s.heap l).trash) k hd.trash) none)
    (hpages : c.pages = Function.update b.pages k hd.pages) (hlow : ∀ p ∈ hd.pages, p + 1 < 2 ^ 20)
    (hnext : ∀ p rest, hd.pages = p :: rest → c.mem.word (p * pageSize) = hd.next)
    (hother : ∀ l ≠ k, ∀ p ∈ b.pages l, c.mem.word (p * pageSize) = b.mem.word (p * pageSize)) : Rep c t := by
  have htrash : (fun l => (t.heap l).trash) = Function.update (fun l => (s.heap l).trash) k hd.trash := by
    funext l
    rw [hheap]
    by_cases hl : l = k
    · rw [hl, Function.update_self, Function.update_self]
    · rw [Function.update_of_ne hl, Function.update_of_ne hl]
  refine ⟨htrash ▸ hinv, fun l => ?_, fun l => ?_, fun l p rest hp => ?_⟩ <;> by_cases hl : l = k
  · rw [hl, hpages, hheap, Function.update_self, Function.update_self]
  · rw [hpages, hheap, Function.update_of_ne hl, Function.update_of_ne hl]
    exact hrep.pages l
  · rw [hl, hheap, Function.update_self]
    exact hlow
  · rw [hheap, Function.update_of_ne hl]
    exact hrep.low l
  · rw [hl, hheap, Function.update_self] at hp ⊢
    exact hnext p rest hp
  · rw [hheap, Function.update_of_ne hl] at hp ⊢
    rw [hother l hl p (by rw [hrep.pages, hp]; exact List.mem_cons_self)]
    exact hrep.next l p rest hp

theorem getRam_refines (b₀ : State Kind) {n : ℕ} (h : Sysmem.Inv lz lay u limbo olp och)
    (hlow : ∀ p ∈ u.free, p + 1 < 2 ^ 20) (hrep : Rep b s) (htrash : (s.heap k).trash = []) (hheap : u.heap = Function.update s.heap k { s.heap k with next := n })
    (halloc : ∀ ram, b.alloc Kind.shape k [ram] = b₀.getRam Kind.shape k [ram]) (hpages : b₀.pages = b.pages)
    (hmem : ∀ l ≠ k, ∀ p ∈ b.pages l, b₀.mem.word (p * pageSize) = b.mem.word (p * pageSize))
    (hs : u.getRam lz k = some (t, ptr)) :
    ∃ rams c, Granted Kind.shape b.live k b.pages rams ∧ b.alloc Kind.shape k rams = .ok (c, ptr) ∧
      Rep { c with live := (k, ptr) :: c.live } t := by
  simp only [Sysmem.State.getRam] at hs
  split at hs
  · cases hs
  next v p hv =>
  cases hs
  obtain ⟨hv', hr, hp⟩ := h.getFreePage hv
  have hvheap := hr.heap.trans hheap
  have hnew : ∀ l, p ∉ b.pages l := by
    intro l
    have hnot := hv'.not_heap l
    rw [hvheap] at hnot
    rw [hrep.pages]
    by_cases hl : l = k
    · rw [hl, Function.update_self] at hnot
      exact hl ▸ hnot
    · rwa [Function.update_of_ne hl] at hnot
  have hp20 := hlow p hp
  have hgranted : Granted Kind.shape b.live k b.pages [⟨p, []⟩] :=
    ⟨Nat.lt_of_succ_lt hp20, hnew, by rintro _ ⟨⟩, trivial⟩
  obtain ⟨c, hc, hcpages, hcnext, hcother⟩ := getRam_page b₀ k hp20
  have hands := hrep.inv.alloc_fresh htrash hgranted
  rw [halloc, hc] at hands
  cases hands with
  | hand hinv =>
  have hk : v.heap k = { s.heap k with next := n } := by rw [hvheap, Function.update_self]
  refine ⟨_, c, hgranted, (halloc _).trans hc, ?_⟩
  refine hrep.update (k := k) (⟨p :: (s.heap k).pages, p * pageSize + 4 + k.size, (s.heap k).trash⟩)
    ?_ ?_ ?_ (fun q hq => ?_) (fun q rest hq => ?_) fun l hl q hq => ?_
  · rw [Sysmem.State.setHeap, hk, hvheap, Function.update_idem]
  · exact (Function.update_eq_self k fun l => (s.heap l).trash).symm ▸ hinv
  · rw [← hrep.pages, ← hpages]
    exact hcpages
  · obtain rfl | hq := List.mem_cons.mp hq
    · exact hp20
    · exact hrep.low k q hq
  · obtain ⟨rfl, -⟩ := List.cons.inj hq
    exact hcnext
  · have hne : q ≠ p := fun heq => hnew l (heq ▸ hq)
    exact (hcother q hne).trans (hmem l hl q hq)

/-- **`alloc` on the bytes** does what it does to the state. -/
theorem alloc_refines (h : Sysmem.Inv lz lay s limbo olp och) (hlow : ∀ p ∈ s.free, p + 1 < 2 ^ 20) (hrep : Rep b s)
    (hs : s.alloc lz k = some (t, ptr)) :
    ∃ rams c, Granted Kind.shape b.live k b.pages rams ∧ b.alloc Kind.shape k rams = .ok (c, ptr) ∧
      Rep { c with live := (k, ptr) :: c.live } t := by
  simp only [Sysmem.State.alloc] at hs
  split at hs
  · next trash htrash =>
    cases hs
    obtain ⟨halloc, hinv⟩ := hrep.inv.alloc_reuse htrash []
    refine ⟨[], _, trivial, halloc, hrep.update _ rfl hinv ?_ (hrep.low k) (hrep.next k) fun _ _ _ _ => rfl⟩
    refine (pages_retrash b k _ _ _).trans ?_
    rw [← hrep.pages, Function.update_eq_self]
  · next htrash hpages =>
    have hzero := hrep.inv.trash_zero htrash
    have hnil : b.pages k = [] := (hrep.pages k).trans hpages
    refine getRam_refines (b.setHead k { b.head k with pages := some [] }) h hlow hrep htrash
      (Function.update_eq_self k s.heap).symm (fun ram => ?_) ?_ (fun _ _ _ _ => rfl) hs
    · simp only [State.alloc, hzero, hrep.inv.pages_nil hnil, ne_eq, not_true_eq_false, if_false]
    · exact (pages_update b k _ _ _).trans (hnil ▸ Function.update_eq_self k b.pages)
  · next p rest htrash hpages =>
    have hzero := hrep.inv.trash_zero htrash
    have hcons : b.pages k = p :: rest := (hrep.pages k).trans hpages
    have hhead := pages_cons hcons
    have hp := hrep.low k p (hpages ▸ List.mem_cons_self)
    have hword := hrep.next k p rest hpages
    obtain ⟨⟨i, hgrid⟩, hend, -⟩ := hrep.inv.next k p rest (Option.some_ne_none k).symm hhead
    rw [hword] at hgrid hend
    rw [header_eq] at hgrid
    have hroom := k.shape.header_add_stride
    rw [header_eq, stride_eq] at hroom
    have hsucc : (p + 1) * pageSize = p * 4096 + 4096 := Nat.add_one_mul p pageSize
    have hP : p * pageSize = p * 4096 := rfl
    have halloc : ∀ rams, b.alloc Kind.shape k rams = State.orRam (State.getRam Kind.shape k rams) (b.bump Kind.shape k p) := by
      intro rams
      have hne : (s.heap k).next ≠ 0 := by omega
      simp only [State.alloc, hzero, hhead, hword, hne, ne_eq, not_true_eq_false, if_false]
    -- the words of other heads' pages
    have hother : ∀ l ≠ k, ∀ q ∈ b.pages l,
        (b.mem.putWord (p * pageSize) ((s.heap k).next + k.size)).word (q * pageSize) = b.mem.word (q * pageSize) := by
      intro l hl q hq
      refine word_putWord_page fun heq => hl ?_
      exact hrep.inv.books.owner (heq ▸ hq) (hcons ▸ List.mem_cons_self)
    split at hs
    · next hfull =>
      have hbump : b.bump Kind.shape k p = _ := State.bump_none hword (by rw [stride_eq]; omega) (by rwa [stride_eq])
      rw [stride_eq] at hbump
      refine getRam_refines { b with mem := b.mem.putWord (p * pageSize) ((s.heap k).next + k.size) } (h.skip k) hlow hrep
        htrash rfl (fun ram => ?_) rfl hother hs
      rw [halloc, hbump, State.orRam]
    · next hfree =>
      cases hs
      have hbump : b.bump Kind.shape k p = _ := State.bump_some hword hp (by omega) (by rw [stride_eq]; omega)
      rw [stride_eq] at hbump
      have hdone := halloc []
      rw [hbump, State.orRam] at hdone
      have hands : Hands Kind.shape _ k (b.alloc Kind.shape k []) := hrep.inv.alloc_fresh htrash trivial
      rw [hdone] at hands
      cases hands with
      | hand hinv =>
      refine ⟨[], _, trivial, hdone, hrep.update (k := k) _ rfl ?_ ?_ (hrep.low k) (fun q rest' hq => ?_) hother⟩
      · exact (Function.update_eq_self k fun l => (s.heap l).trash).symm ▸ hinv
      · rw [← hrep.pages, Function.update_eq_self]
        rfl
      · obtain ⟨rfl, -⟩ := List.cons.inj (hpages.symm.trans hq)
        exact (Memory.word_putWord _ _ _).trans (Nat.mod_eq_of_lt (by omega))

/-- **`recycle` on the bytes** does what it does to the state. -/
theorem recycle_refines (hrep : Rep b s) (hmem : (k, ptr) ∈ b.live) :
    Rep { b.recycle Kind.shape k ptr with live := b.live.erase (k, ptr) } (s.recycle k ptr) := by
  have hword : ∀ {l p}, p ∈ b.pages l → (b.recycle Kind.shape k ptr).mem.word (p * pageSize) = b.mem.word (p * pageSize) :=
    fun {l p} hp => Memory.word_congr fun i hi => hrep.inv.recycle_mem hmem
      (.inl ⟨l, (Option.some_ne_none l).symm, p, hp, Nat.le_add_right _ _, Nat.add_lt_add_left hi _⟩)
  refine hrep.update _ rfl (hrep.inv.recycle hmem) ?_ (hrep.low k) (fun p rest hp => ?_) fun l _ p hp => hword hp
  · refine (pages_retrash b k _ _ _).trans ?_
    rw [← hrep.pages, Function.update_eq_self]
  · exact (hword (hrep.pages k ▸ hp ▸ List.mem_cons_self)).trans (hrep.next k p rest hp)

/-- **The allocator on the bytes refines the one of the state**: what `alloc` and `recycle` answer and leave is the same. -/
theorem heads_refine (h : Sysmem.Inv lz lay s limbo olp och) (hlow : ∀ p ∈ s.free, p + 1 < 2 ^ 20) (hrep : Rep b s) :
    (∀ k t ptr, s.alloc lz k = some (t, ptr) → ∃ rams c, Granted Kind.shape b.live k b.pages rams ∧
      b.alloc Kind.shape k rams = .ok (c, ptr) ∧ Rep { c with live := (k, ptr) :: c.live } t) ∧
    ∀ k ptr, (k, ptr) ∈ b.live → Rep { b.recycle Kind.shape k ptr with live := b.live.erase (k, ptr) } (s.recycle k ptr) :=
  ⟨fun _ _ _ hs => alloc_refines h hlow hrep hs, fun _ _ hmem => recycle_refines hrep hmem⟩

theorem rep_init (m : Memory) : Rep (init m) (Sysmem.State.init lay) :=
  ⟨inv_init _ _, fun _ => rfl, fun _ _ hp => absurd hp List.not_mem_nil, fun _ _ _ hp => absurd hp (List.cons_ne_nil _ _).symm⟩

theorem heads_refine_init : ∃ rams t c, (Sysmem.State.init swapLayout).alloc lz4Constant .lPage = some (t, 300 * pageSize + 4) ∧
    (init fun _ => 0).alloc Kind.shape .lPage rams = .ok (c, 300 * pageSize + 4) ∧
    Rep { c with live := (.lPage, 300 * pageSize + 4) :: c.live } t := by
  obtain ⟨t, hs⟩ : ∃ t, (Sysmem.State.init swapLayout).alloc lz4Constant .lPage = some (t, 300 * pageSize + 4) := ⟨_, rfl⟩
  have hlow : ∀ p ∈ swapLayout.initPages, p + 1 < 2 ^ 20 := by decide
  obtain ⟨rams, c, -, hc, hrep⟩ := (heads_refine Inv.init hlow (rep_init fun _ => 0)).1 .lPage t _ hs
  exact ⟨rams, t, c, hs, hc, hrep⟩

end Alloc

end Sneks.Sysmem
