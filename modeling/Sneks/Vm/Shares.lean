import Sneks.Vm.Books
import Sneks.Vm.Calls
import Mathlib.Data.Finset.Basic

/-!
# Who refers to a physical page

`add_share` and `rm_share` keep one reference in the page itself, as its owner, and the others in
the share table. When the owner leaves, its place stays empty until the next share is added.
-/

namespace Sneks.Vm
open Lib

variable {cfg : Config} {m : Mem} {present : Finset ℕ} {p v : ℕ}

def Mem.refs (m : Mem) (p : ℕ) : List ℕ :=
  (m.owner p).toList ++ m.shareTable.filter fun v => (m.vp v).status = p

namespace Mem

theorem mem_refs : v ∈ m.refs p ↔ m.owner p = some v ∨ v ∈ m.shareTable ∧ (m.vp v).status = p := by
  simp [refs]

theorem refs_eq_nil : m.refs p = [] ↔ m.owner p = none ∧ m.hasShares p = false := by
  rw [refs, List.append_eq_nil_iff, Option.toList_eq_nil_iff, List.filter_eq_nil_iff, hasShares_eq_false]
  simp

end Mem

inductive ShareCall
  /-- `ok` answers `htable_add`. -/
  | add (v : ℕ) (ok : Bool)
  | rm (v : ℕ)

structure Ledger where
  mem : Mem
  present : Finset ℕ

namespace Ledger

/-- A virtual page is present from an `add_share` that succeeds until it is removed. -/
def exec (cfg : Config) (s : Ledger) : ShareCall → Option Ledger
  | .add v ok =>
    let r := s.mem.addShare (s.mem.vp v).status v ok
    some ⟨r.1, if r.2 then insert v s.present else s.present⟩
  | .rm v => (s.mem.rmShare cfg v).map fun r => ⟨r.1, s.present.erase v⟩

def Proper (s : Ledger) : ShareCall → Prop
  | .add v _ => v ∉ s.present
  | .rm v => v ∈ s.present

instance (s : Ledger) : (c : ShareCall) → Decidable (Proper s c)
  | .add v _ => inferInstanceAs (Decidable (v ∉ s.present))
  | .rm v => inferInstanceAs (Decidable (v ∈ s.present))

end Ledger

def Accounts (s : Ledger) : Prop :=
  ∀ p, (s.mem.refs p).Nodup ∧ ∀ v, v ∈ s.mem.refs p ↔ v ∈ s.present ∧ (s.mem.vp v).status = p

/-- What `rm_share` should say: is nobody else present at the page? -/
def Ledger.Last (s : Ledger) (v : ℕ) : Prop :=
  ∀ u ∈ s.present, (s.mem.vp u).status = (s.mem.vp v).status → u = v

structure Mem.Gains (m m' : Mem) (v : ℕ) : Prop where
  vp : m'.vp = m.vp
  refs : ∀ p, (m'.refs p).Perm (if (m.vp v).status = p then v :: m.refs p else m.refs p)

namespace Mem

theorem setOwner_refs {o : Option ℕ} (p q : ℕ) : (m.setOwner p o).refs q =
    (if q = p then o else m.owner q).toList ++ m.shareTable.filter fun v => (m.vp v).status = q := by
  rw [← Function.update_apply]
  rfl

theorem Gains.of_shares {m' : Mem} (hvp : m'.vp = m.vp) (ho : m'.owner = m.owner)
    (hs : m'.shareTable.Perm (v :: m.shareTable)) : m.Gains m' v := by
  refine ⟨hvp, fun p => ?_⟩
  have hf := (hs.filter fun u => (m.vp u).status = p).append_left (m.owner p).toList
  rw [Mem.refs, ho, hvp]
  refine hf.trans ?_
  by_cases hp : (m.vp v).status = p
  · rw [if_pos hp, List.filter_cons_of_pos (by simpa using hp)]
    exact List.perm_middle
  · rw [if_neg hp, List.filter_cons_of_neg (by simpa using hp)]
    exact .rfl

theorem Gains.of_owner {n : Mem} (ho : n.owner (n.vp v).status = none) :
    n.Gains (n.setOwner (n.vp v).status (some v)) v := by
  refine ⟨rfl, fun p => ?_⟩
  rw [setOwner_refs]
  by_cases hp : (n.vp v).status = p
  · subst hp
    rw [if_pos rfl, if_pos rfl, Mem.refs, ho]
    exact .rfl
  · rw [if_neg (Ne.symm hp), if_neg hp]
    exact .rfl

theorem addShare_cases (m : Mem) (v : ℕ) (ok : Bool) :
    (m.addShare (m.vp v).status v ok).2 = true ∧ m.Gains (m.addShare (m.vp v).status v ok).1 v ∨
      m.addShare (m.vp v).status v ok = (m, false) := by
  rw [addShare]
  cases ho : m.owner (m.vp v).status with
  | none => exact .inl ⟨rfl, .of_owner ho⟩
  | some _ =>
    cases ok with
    | true => exact .inl ⟨rfl, .of_shares rfl rfl .rfl⟩
    | false => exact .inr rfl

theorem rmShare_cases (cfg : Config) (hv : m.owner (m.vp v).status = some v ∨ v ∈ m.shareTable) :
    ∃ m' last, m.rmShare cfg v = some (m', last) ∧ m'.Gains m v ∧
      (last = true ↔ m'.refs (m.vp v).status = []) := by
  by_cases ho : m.owner (m.vp v).status = some v
  · have hself : (m.setOwner (m.vp v).status none).owner (m.vp v).status = none := Function.update_self ..
    refine ⟨_, _, by rw [rmShare, if_pos ho], ?_, ?_⟩
    · have hg := Gains.of_owner (n := m.setOwner (m.vp v).status none) hself
      have hback : (m.setOwner (m.vp v).status none).setOwner (m.vp v).status (some v) = m := by
        simp only [setOwner, Function.update_idem, ← ho, Function.update_eq_self]
      rwa [show ((m.setOwner (m.vp v).status none).vp v).status = (m.vp v).status from rfl, hback] at hg
    · rw [refs_eq_nil, and_iff_right hself, Bool.not_eq_true']
  · have hvs := hv.resolve_left ho
    have hassert : cfg.assert (v ∈ m.shareTable) = some () := if_neg fun h => h.2 hvs
    refine ⟨{ m with shareTable := m.shareTable.erase v }, _, by rw [rmShare, if_neg ho, hassert]; rfl,
      .of_shares rfl rfl (List.perm_cons_erase hvs), ?_⟩
    rw [refs_eq_nil, Bool.and_eq_true, Option.isNone_iff_eq_none, Bool.not_eq_true']

end Mem

namespace Accounts

variable {s : Ledger}

theorem init (ho : ∀ p, m.owner p = none) (hs : m.shareTable = []) : Accounts ⟨m, ∅⟩ := fun p => by
  have hnil : m.refs p = [] := Mem.refs_eq_nil.mpr ⟨ho p, by simp [Mem.hasShares, hs]⟩
  simp [hnil]

theorem registered (h : Accounts s) (hv : v ∈ s.present) :
    s.mem.owner (s.mem.vp v).status = some v ∨ v ∈ s.mem.shareTable :=
  (Mem.mem_refs.mp (((h (s.mem.vp v).status).2 v).mpr ⟨hv, rfl⟩)).imp_right And.left

theorem add (h : Accounts s) (hv : v ∉ s.present) (hg : s.mem.Gains m v) :
    Accounts ⟨m, insert v s.present⟩ := fun p => by
  obtain ⟨hd, hm⟩ := h p
  have hp := hg.refs p
  simp only [hp.nodup_iff, hp.mem_iff, hg.vp, Finset.mem_insert]
  split
  · next he =>
    refine ⟨List.nodup_cons.mpr ⟨fun hr => hv ((hm v).mp hr).1, hd⟩, fun u => ?_⟩
    rw [List.mem_cons, hm]
    by_cases hu : u = v
    · simp [hu, he]
    · simp [hu]
  · next he =>
    refine ⟨hd, fun u => ?_⟩
    rw [hm]
    by_cases hu : u = v
    · simp [hu, he]
    · simp [hu]

theorem rm (h : Accounts s) (hg : m.Gains s.mem v) : Accounts ⟨m, s.present.erase v⟩ := fun p => by
  obtain ⟨hd, hm⟩ := h p
  have hp := hg.refs p
  simp only [hp.nodup_iff, hp.mem_iff] at hd hm
  simp only [← hg.vp, Finset.mem_erase]
  split at hd
  · next he =>
    obtain ⟨hnot, hd⟩ := List.nodup_cons.mp hd
    refine ⟨hd, fun u => ?_⟩
    have hu := hm u
    rw [if_pos he, List.mem_cons] at hu
    by_cases huv : u = v
    · simpa [huv] using hnot
    · simpa [huv] using hu
  · next he =>
    refine ⟨hd, fun u => ?_⟩
    have hu := hm u
    rw [if_neg he] at hu
    by_cases huv : u = v
    · subst huv
      simp only [ne_eq, not_true_eq_false, false_and, iff_false]
      exact fun hr => he (by rw [← hg.vp]; exact (hu.mp hr).2)
    · simpa [huv] using hu

theorem rmShare (h : Accounts s) (cfg : Config) (hv : v ∈ s.present) :
    ∃ m' last, s.mem.rmShare cfg v = some (m', last) ∧ Accounts ⟨m', s.present.erase v⟩ ∧
      (last = true ↔ s.Last v) := by
  obtain ⟨m', last, hr, hg, hlast⟩ := Mem.rmShare_cases cfg (h.registered hv)
  have h' := h.rm hg
  refine ⟨m', last, hr, h', hlast.trans ?_⟩
  rw [List.eq_nil_iff_forall_not_mem]
  refine forall_congr' fun u => ?_
  rw [(h' _).2 u]
  simp only [Finset.mem_erase, ← hg.vp]
  tauto

theorem exec {c : ShareCall} {t : Ledger} (h : Accounts s) (hc : s.Proper c) (hs : s.exec cfg c = some t) :
    Accounts t := by
  cases c with
  | add v ok =>
    cases hs
    obtain ⟨hadd, hg⟩ | hsame := Mem.addShare_cases s.mem v ok
    · simp only [hadd, if_true]
      exact h.add hc hg
    · simp only [hsame, Bool.false_eq_true, if_false]
      exact h
  | rm v =>
    obtain ⟨m', last, hr, h', -⟩ := h.rmShare cfg hc
    simp only [Ledger.exec, hr, Option.map_some, Option.some.injEq] at hs
    exact hs ▸ h'

end Accounts

/-- **Shares are exact.** Where nobody has a page at the start, after any calls that add absent virtual
    pages and remove present ones, some of the additions failing, the owner and the share table name
    those that are present, each once, and no call can be stopped by an assertion; `rm_share` then tells
    whether the page it is given is the last. -/
theorem shares_exact {calls : List ShareCall} {t : Ledger} (ho : ∀ p, m.owner p = none) (hs : m.shareTable = [])
    (h : Run (Ledger.exec cfg) Ledger.Proper ⟨m, ∅⟩ calls t) :
    Accounts t ∧ ∀ v ∈ t.present, ∃ m' last, t.mem.rmShare cfg v = some (m', last) ∧ (last = true ↔ t.Last v) := by
  have ht : Accounts t := h.invariant (fun _ _ _ hok hs h => h.exec hok hs) (.init ho hs)
  refine ⟨ht, fun v hv => ?_⟩
  obtain ⟨m', last, hr, -, hlast⟩ := ht.rmShare cfg hv
  exact ⟨m', last, hr, hlast⟩

/-- The owner leaves and a share stays, a third page becomes the owner, and the share leaves. -/
theorem shares_exact_retaken : ∃ t : Ledger, t.mem.owner 0 = some 2 ∧ t.mem.shareTable = [] ∧ t.present = {2} ∧
    Accounts t ∧ ∀ v ∈ t.present, ∃ m' last, t.mem.rmShare plainConfig v = some (m', last) ∧ (last = true ↔ t.Last v) := by
  have hrun := Run.exists_of_evalRun (Ledger.exec plainConfig) Ledger.Proper ⟨initPhys threePhys, ∅⟩
    [.add 0 true, .add 1 true, .rm 0, .add 2 true, .add 3 false, .rm 1]
    (fun t => (t.mem.owner 0, t.mem.shareTable, t.present)) (some 2, [], {2}) (by decide)
  obtain ⟨t, h, hread⟩ := hrun
  obtain ⟨ho, hread⟩ := Prod.mk.inj hread
  obtain ⟨hs, hp⟩ := Prod.mk.inj hread
  exact ⟨t, ho, hs, hp, shares_exact (fun _ => rfl) rfl h⟩

end Sneks.Vm
