import Sneks.Lib.Circuit
import Sneks.Sysmem.Watermark

/-!
# The clock's hand

`replace_pages` of `sys/sysmem/sysmem.c` with its assertions and its array of fpages. The first loop
walks from the hand on and comes around where the list ends; the second looks at the pages it has seen.
The call that unmaps them gets all of the array, and not only the part that was filled.
-/

namespace Sneks.Sysmem
open Lib

/-- What stops `replace_pages`: a drained list, which is a panic, a failed assertion, a null pointer that
    is followed, or `abort()`. -/
inductive Stop
  | drained | assertion | null | abort
  deriving DecidableEq, Repr

def nUnmaps : ℕ := 64

/-- `L4_FpageLog2` of a page, without rights. -/
def unmapFpage (p : ℕ) : Fpage := p * pageSize + 12 * 2 ^ 4

/-- The fpage is that of page `p`, with whatever rights. -/
def Fpage.IsPage (f : Fpage) (p : ℕ) : Prop := f.address = p * pageSize ∧ f.sizeLog2 = 12

instance (f : Fpage) (p : ℕ) : Decidable (f.IsPage p) := inferInstanceAs (Decidable (_ ∧ _))

/-- What the first loop of `replace_pages` leaves: `ps`, the hand, and `*looped_p`. -/
structure Walked where
  ps : List ℕ
  hand : Option ℕ
  looped : Bool

/-- The array that is passed to `L4_UnmapFpages`. `stale` is what it held before. -/
def Walked.unmaps (w : Walked) (stale : Fin nUnmaps → Fpage) (i : Fin nUnmaps) : Fpage :=
  if h : i < w.ps.length then unmapFpage w.ps[i] else stale i

structure Examined (s : State) (stale : Fin nUnmaps → Fpage) (w : Walked) : Prop where
  active : ∀ p ∈ w.ps, p ∈ s.active
  nodup : w.ps.Nodup
  passed : ∀ i, ∃ p ∈ w.ps, (w.unmaps stale i).IsPage p

/-- The model of a step that has no result but for `abort()`. -/
def orAbort {α : Type*} : Option α → Except Stop α
  | some a => .ok a
  | none => .error .abort

namespace State

variable (lz : Lz4) (s : State)

/-- The first loop of `replace_pages`, with room for `n` more pages. -/
def handLoop (start : Option ℕ) : ℕ → Option ℕ → Bool → Except Stop Walked
  | 0, hand, looped => .ok ⟨[], hand, looped⟩
  | n + 1, hand, looped =>
    match hand with
    | none => .error (if s.active = [] then .drained else .assertion)
    | some p =>
      if (s.pages p).owner = none then .error .assertion
      else
        let next := listNext s.active p
        let hand := next <|> s.active.head?
        let looped := looped || next.isNone
        if hand = start then .ok ⟨[p], hand, looped⟩
        else (handLoop start n hand looped).map fun w => { w with ps := p :: w.ps }

def walk : Except Stop Walked := s.handLoop s.startHand nUnmaps s.startHand false

def replaceActivePageChecked (p : ℕ) : Except Stop (State × Bool) :=
  match (s.pages p).owner with
  | none => .error .assertion
  | some lp =>
    let out := lz.compress (s.mem p)
    if maxCompressedSize ≤ out.length then .ok (s, false)
    else if out.length = 0 then .error .abort
    else
      let s := { s with
        active := s.active.erase p, saved := Function.update s.saved lp (s.mem p) }
      match s.bestBuddy out.length with
      | none => .ok (s.storeAlone p lp out, true)
      | some best =>
        match s.storeWith best p lp out with
        | none => .error .assertion
        | some s => .ok (s, true)

def replaceOneChecked (p rights : ℕ) : Except Stop (State × Bool) :=
  let pp := s.pages p
  if rights ≠ 0 then
    .ok (s.setPage p { pp with
      age := pp.age + 1
      incompressible := pp.incompressible && rights &&& writable = 0 }, false)
  else if 0 < pp.age then .ok (s.setPage p { pp with age := pp.age / 2 }, false)
  else if pp.incompressible then .ok (s, false)
  else
    match pp.owner with
    | none => .error .null
    | some lp =>
      if (s.lpage lp).flags &&& smattrPin ≠ 0 then .ok (s, false)
      else
        let next := listNext s.active p
        match s.replaceActivePageChecked lz p with
        | .error e => .error e
        | .ok (s, false) => .ok (s.setPage p { s.pages p with incompressible := true }, false)
        | .ok (s, true) =>
          if (s.pages p).incompressible then .error .assertion
          else .ok ({ s with hand := if s.hand = some p then next <|> s.active.head? else s.hand }, true)

def replaceEachChecked : List ℕ → List ℕ → State → ℕ → Except Stop (State × ℕ)
  | [], _, s, freed => .ok (s, freed)
  | p :: ps, rights, s, freed =>
    match s.replaceOneChecked lz p (rights.headD 0) with
    | .error e => .error e
    | .ok (s, replaced) => replaceEachChecked ps rights.tail s (freed + replaced.toNat)

/-- `replace_pages`, where `answer` are the rights that unmapping gives back. -/
def replacePagesChecked (answer : List ℕ) : Except Stop (State × ℕ × Bool) := do
  let w ← s.walk
  let (s, freed) ← replaceEachChecked lz w.ps answer { s with hand := w.hand } 0
  .ok (s, freed, w.looped)

end State

/-- What is asked of a call of `replace_pages`, where `stale` is what the array of fpages held before.
    `abort()` is for LZ4, and not an assertion. -/
structure SweepOk (lz : Lz4) (stale : Fin nUnmaps → Fpage) (s : State) : Prop where
  hand : ∀ p, s.hand = some p → (s.pages p).owner = none ∨ p ∈ s.active
  asserts : ∀ answer e, s.replacePagesChecked lz answer = .error e → e = .abort
  examined : ∃ w, s.walk = .ok w ∧ Examined s stale w

variable {lz : Lz4} {lay : Layout} {s t : State} {limbo : List ℕ} {olp och : Option ℕ} {p lp : ℕ}

-- The second loop

theorem replaceActivePageChecked_eq (ho : (s.pages p).owner = some lp) :
    s.replaceActivePageChecked lz p = orAbort (s.replaceActivePage lz p) := by
  simp only [State.replaceActivePageChecked, State.replaceActivePage, ho]
  split
  · rfl
  next hlen =>
  split
  · rfl
  cases hbest : State.bestBuddy { s with active := s.active.erase p, saved := Function.update s.saved lp (s.mem p) }
      (lz.compress (s.mem p)).length with
  | none => rfl
  | some best =>
    simp only [State.storeWith, if_neg (Slot.not_offset_lt (Nat.not_le.mp hlen) _), Option.map_some]
    rfl

theorem replaceOneChecked_eq (h : Clock s) (hp : p ∈ s.active) (rights : ℕ) :
    s.replaceOneChecked lz p rights = orAbort (s.replaceOne lz p rights) := by
  obtain ⟨lp, ho⟩ := Option.isSome_iff_exists.mp (h.owned p hp)
  simp only [State.replaceOneChecked, State.replaceOne, ho]
  split
  · rfl
  split
  · rfl
  by_cases hinc : (s.pages p).incompressible = true
  · rw [if_pos hinc, if_pos (by rw [hinc]; rfl)]
    rfl
  rw [if_neg hinc, Bool.eq_false_iff.mpr hinc, Bool.false_or]
  simp only [decide_eq_true_eq]
  split
  · rfl
  rw [replaceActivePageChecked_eq ho]
  obtain ⟨hfail, -⟩ | hkeep | ⟨t, hs, -, -, -, hpage, -⟩ := replaceActivePage_turned lz h hp
  · rw [hfail]
    rfl
  · rw [hkeep]
    rfl
  · rw [hs]
    simp only [orAbort, hpage]
    rw [if_neg hinc]

theorem replaceEachChecked_eq {ps : List ℕ} (rights : List ℕ) (n : ℕ) (h : Clock s) (hps : ∀ p ∈ ps, p ∈ s.active)
    (hnodup : ps.Nodup) : State.replaceEachChecked lz ps rights s n = orAbort (s.replaceEach lz ps rights n) := by
  induction ps generalizing s rights n with
  | nil => rfl
  | cons p ps ih =>
    obtain ⟨hnot, hnodup⟩ := List.nodup_cons.mp hnodup
    have hp := hps p List.mem_cons_self
    rw [State.replaceEachChecked, State.replaceEach, replaceOneChecked_eq h hp]
    obtain ⟨hfail, -⟩ | ⟨t, replaced, ht, hturned⟩ := replaceOne_turned lz h hp (rights.headD 0)
    · rw [hfail]
      rfl
    · rw [ht]
      refine ih rights.tail (n + replaced.toNat) hturned.clock (fun q hq => ?_) hnodup
      have hne : q ≠ p := fun he => hnot (he ▸ hq)
      exact (hturned.others q hne).active.mpr (hps q (List.mem_cons_of_mem _ hq))

-- The first loop

theorem handLoop_step (h : Clock s) (hp : p ∈ s.active) {n i : ℕ} {looped : Bool} (hi : i < (circuit s.active p).length) :
    s.handLoop (some p) (n + 1) (circuit s.active p)[i]? looped =
      let hand := (circuit s.active p)[(i + 1) % (circuit s.active p).length]?
      let looped := looped || decide (i + 1 = (s.active.dropWhile (· ≠ p)).length)
      if hand = some p then .ok ⟨[(circuit s.active p)[i]], hand, looped⟩
      else (s.handLoop (some p) n hand looped).map fun w => { w with ps := (circuit s.active p)[i] :: w.ps } := by
  have hcirc := Circuit.of_mem h.nodup hp
  have hsplit : s.active.takeWhile (· ≠ p) ++ s.active.dropWhile (· ≠ p) = s.active := List.takeWhile_append_dropWhile
  have hmem : (circuit s.active p)[i] ∈ s.active := (circuit_perm s.active p).mem_iff.mp (List.getElem_mem hi)
  have howned : ((s.pages (circuit s.active p)[i]).owner = none) = False := by
    have howner := h.owned _ hmem
    rw [Option.isSome_iff_ne_none] at howner
    exact eq_false howner
  have hnext := hcirc.onward hi
  have hnone := hcirc.following_eq_none_iff hi
  rw [hsplit] at hnext hnone
  have hhand : (listNext s.active (circuit s.active p)[i] <|> s.active.head?) =
      (circuit s.active p)[(i + 1) % (circuit s.active p).length]? := hnext
  have hlast : (listNext s.active (circuit s.active p)[i]).isNone = decide (i + 1 = (s.active.dropWhile (· ≠ p)).length) := by
    rw [Bool.eq_iff_iff, Option.isNone_iff_eq_none, decide_eq_true_iff]
    exact hnone
  rw [List.getElem?_eq_getElem hi, State.handLoop]
  simp only [howned, if_false, hlast, hhand]

/-- From the `i`th page of its circuit on the hand sees the pages in order, until it is back or the array
    is full. The induction is on the room in the array. -/
theorem handLoop_eq (h : Clock s) (hp : p ∈ s.active) {n i : ℕ} {looped : Bool} (hi : i < (circuit s.active p).length) :
    s.handLoop (some p) (n + 1) (circuit s.active p)[i]? looped =
      let seen := ((circuit s.active p).drop i).take (n + 1)
      let upper := (s.active.dropWhile (· ≠ p)).length
      .ok ⟨seen, (circuit s.active p)[(i + seen.length) % (circuit s.active p).length]?,
        looped || decide (i < upper ∧ upper ≤ i + seen.length)⟩ := by
  have hfirst : (circuit s.active p)[0]? = some p := by
    rw [← List.head?_eq_getElem?]
    exact circuit_head? hp
  have hnodup := (circuit_perm s.active p).nodup_iff.mpr h.nodup
  have hupper : (s.active.dropWhile (· ≠ p)).length ≤ (circuit s.active p).length := by
    rw [circuit, List.length_append]
    exact Nat.le_add_right _ _
  have hother : ∀ j, j < (circuit s.active p).length → j ≠ 0 → (circuit s.active p)[j]? ≠ some p := fun j hj hne he =>
    hne ((List.getElem?_inj hj hnodup).mp (he.trans hfirst.symm))
  induction n generalizing i looped with
  | zero =>
    rw [handLoop_step h hp hi, List.drop_eq_getElem_cons hi, List.take_succ_cons, List.take_zero]
    have hdecide : decide (i + 1 = (s.active.dropWhile (· ≠ p)).length) =
        decide (i < (s.active.dropWhile (· ≠ p)).length ∧ (s.active.dropWhile (· ≠ p)).length ≤ i + 1) :=
      decide_eq_decide.mpr (by omega)
    simp only [List.length_singleton, hdecide, State.handLoop]
    split <;> rfl
  | succ n ih =>
    rw [handLoop_step h hp hi, List.drop_eq_getElem_cons hi, List.take_succ_cons]
    by_cases hend : i + 1 = (circuit s.active p).length
    · have hdecide : decide (i + 1 = (s.active.dropWhile (· ≠ p)).length) =
          decide (i < (s.active.dropWhile (· ≠ p)).length ∧ (s.active.dropWhile (· ≠ p)).length ≤ i + 1) :=
        decide_eq_decide.mpr (by omega)
      have hdrop : (circuit s.active p).drop (i + 1) = [] := List.drop_eq_nil_of_le (Nat.le_of_eq hend.symm)
      simp only [hdrop, List.take_nil, List.length_singleton, hdecide]
      rw [hend, Nat.mod_self, hfirst, if_pos rfl]
    · have hlt : i + 1 < (circuit s.active p).length := by omega
      have hne : ((circuit s.active p)[i + 1]? = some p) = False := eq_false (hother (i + 1) hlt (Nat.succ_ne_zero i))
      simp only [Nat.mod_eq_of_lt hlt, hne, if_false]
      rw [ih hlt]
      have hadd : i + 1 + (((circuit s.active p).drop (i + 1)).take (n + 1)).length =
          i + ((((circuit s.active p).drop (i + 1)).take (n + 1)).length + 1) := by omega
      have hpos : 0 < (((circuit s.active p).drop (i + 1)).take (n + 1)).length := by
        rw [List.length_take, List.length_drop]
        omega
      have hlooped : (looped || decide (i + 1 = (s.active.dropWhile (· ≠ p)).length) ||
          decide (i + 1 < (s.active.dropWhile (· ≠ p)).length ∧ (s.active.dropWhile (· ≠ p)).length ≤
            i + 1 + (((circuit s.active p).drop (i + 1)).take (n + 1)).length)) =
          (looped || decide (i < (s.active.dropWhile (· ≠ p)).length ∧ (s.active.dropWhile (· ≠ p)).length ≤
            i + 1 + (((circuit s.active p).drop (i + 1)).take (n + 1)).length)) := by
        rw [Bool.or_assoc, ← Bool.decide_or]
        exact congrArg _ (decide_eq_decide.mpr (by omega))
      simp only [Except.map, List.length_cons, ← hadd, hlooped]

theorem walk_eq (h : Clock s) (hs : s.startHand = some p) :
    s.walk =
      let seen := (circuit s.active p).take nUnmaps
      .ok ⟨seen, (circuit s.active p)[seen.length % (circuit s.active p).length]?,
        decide ((s.active.dropWhile (· ≠ p)).length ≤ seen.length)⟩ := by
  have hp := h.start_mem hs
  have hlen : 0 < (circuit s.active p).length := by
    rw [(circuit_perm s.active p).length_eq]
    exact List.length_pos_of_mem hp
  have hfirst : some p = (circuit s.active p)[0]? := by
    rw [← List.head?_eq_getElem?, circuit_head? hp]
  have hupper := h.toEnd_pos hs
  simp only [State.toEnd, hs] at hupper
  rw [State.walk, hs]
  nth_rewrite 2 [hfirst]
  rw [nUnmaps, handLoop_eq h hp hlen]
  simp only [List.drop_zero, Nat.zero_add, Bool.false_or, hupper, true_and]

-- A call

theorem startHand_eq_none_iff : s.startHand = none → s.active = [] := by
  intro h
  simp only [State.startHand] at h
  split at h
  · split at h
    · exact List.head?_eq_none_iff.mp h
    · cases h
  · exact List.head?_eq_none_iff.mp h

/-- **A call is as it is in the model**: no assertion fails and no null pointer is followed. -/
theorem replacePagesChecked_eq (lz : Lz4) (h : Clock s) (hne : s.active ≠ []) {answer : List ℕ} {rest : List (List ℕ)}
    (hr : s.rights = answer :: rest) :
    State.replacePagesChecked lz { s with rights := rest } answer = orAbort (s.replacePages lz) := by
  obtain ⟨p, hs⟩ := Option.ne_none_iff_exists'.mp (mt startHand_eq_none_iff hne)
  obtain ⟨hseen, hnodup⟩ := h.seen p 64
  have hwalk := walk_eq (s := { s with rights := rest }) ⟨h.nodup, h.owned, h.hand⟩ hs
  have hmodel := replacePages_eq lz h hs hr
  simp only [nUnmaps] at hwalk
  simp only at hmodel
  set hand := (circuit s.active p)[((circuit s.active p).take 64).length % (circuit s.active p).length]?
  have hclock : Clock { s with hand := hand, rights := rest } :=
    ⟨h.nodup, h.owned, fun q hq _ => (circuit_perm s.active p).mem_iff.mp (List.mem_of_getElem? hq)⟩
  have hchecked : State.replacePagesChecked lz { s with rights := rest } answer =
      (State.replaceEachChecked lz ((circuit s.active p).take 64) answer
        { s with hand := hand, rights := rest } 0).bind fun r =>
          .ok (r.1, r.2, decide ((s.active.dropWhile (· ≠ p)).length ≤ ((circuit s.active p).take 64).length)) := by
    rw [State.replacePagesChecked, hwalk]
    rfl
  rw [hmodel, hchecked, replaceEachChecked_eq answer 0 hclock hseen hnodup]
  cases State.replaceEach lz ((circuit s.active p).take 64) answer { s with hand := hand, rights := rest } 0 with
  | none => rfl
  | some r => rfl

theorem Clock.asserts (h : Clock s) (hne : s.active ≠ []) {answer : List ℕ} {e : Stop}
    (he : s.replacePagesChecked lz answer = .error e) : e = .abort := by
  have hanswer : Clock { s with rights := answer :: s.rights } := ⟨h.nodup, h.owned, h.hand⟩
  have hmodel := replacePagesChecked_eq lz hanswer hne rfl
  rw [show s.replacePagesChecked lz answer = _ from hmodel] at he
  cases hm : State.replacePages lz { s with rights := answer :: s.rights } with
  | none =>
    rw [hm] at he
    exact (Except.error.inj he).symm
  | some r =>
    rw [hm] at he
    cases he

theorem unmapFpage_isPage (p : ℕ) : (unmapFpage p).IsPage p := by
  simp only [Fpage.IsPage, unmapFpage, Fpage.address, Fpage.sizeLog2, pageSize]
  omega

/-- **One call**: all of it holds if what the array has besides the pages seen is of active pages. -/
theorem sweepOk_iff {stale : Fin nUnmaps → Fpage} (h : Clock s) (hne : s.active ≠ []) :
    SweepOk lz stale s ↔ ∀ i : Fin nUnmaps, s.active.length ≤ i → ∃ p ∈ s.active, (stale i).IsPage p := by
  obtain ⟨p, hs⟩ := Option.ne_none_iff_exists'.mp (mt startHand_eq_none_iff hne)
  have hwalk := walk_eq h hs
  obtain ⟨hseen, hnodup⟩ := h.seen p nUnmaps
  have hlen : ((circuit s.active p).take nUnmaps).length = min nUnmaps s.active.length := by
    rw [List.length_take, (circuit_perm s.active p).length_eq]
  constructor
  · rintro ⟨-, -, w, hw, hexamined⟩ i hi
    obtain rfl := Except.ok.inj (hwalk.symm.trans hw)
    obtain ⟨q, hq, hpage⟩ := hexamined.passed i
    rw [Walked.unmaps, dif_neg (by rw [hlen]; omega)] at hpage
    exact ⟨q, hseen q hq, hpage⟩
  · intro hstale
    refine ⟨fun q hq => ?_, fun answer e => h.asserts hne, _, hwalk, hseen, hnodup, fun i => ?_⟩
    · by_cases ho : (s.pages q).owner = none
      · exact .inl ho
      · exact .inr (h.hand q hq (Option.isSome_iff_ne_none.mpr ho))
    · by_cases hi : i < ((circuit s.active p).take nUnmaps).length
      · rw [Walked.unmaps, dif_pos hi]
        exact ⟨_, List.getElem_mem hi, unmapFpage_isPage _⟩
      · rw [Walked.unmaps, dif_neg hi]
        rw [hlen] at hi
        have hshort : s.active.length ≤ i := by omega
        obtain ⟨q, hq, hpage⟩ := hstale i hshort
        -- fewer pages are active, and all of them are seen
        have hall : (circuit s.active p).take nUnmaps = circuit s.active p := by
          apply List.take_of_length_le
          rw [(circuit_perm s.active p).length_eq]
          omega
        refine ⟨q, ?_, hpage⟩
        rw [hall]
        exact (circuit_perm s.active p).mem_iff.mpr hq

end Sneks.Sysmem
