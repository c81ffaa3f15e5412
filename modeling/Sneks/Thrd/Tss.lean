import Mathlib.Data.List.Nodup
import Mathlib.Logic.Function.Basic
import Sneks.Lib.Run

/-!
# Thread-specific storage

`tss_create`, `tss_delete`, `tss_get` and `tss_set` (`lib/tss.c`). A key is in use where a
destructor is stored for it. `dtors` is shared by all threads, each thread has a table of its own.

`realloc` finds memory, otherwise `tss_set` aborts. What a destructor and a value are is left open.
-/

namespace Sneks.Thrd
open Lib

def MAX_TSS : ℕ := 15

structure TssTable (ν : Type*) where
  max : ℕ
  ptrs : ℕ → Option ν

variable {τ δ ν : Type*}

structure TssState (τ δ ν : Type*) where
  dtors : ℕ → Option δ
  tables : τ → Option (TssTable ν)

namespace TssState

def init : TssState τ δ ν where
  dtors _ := none
  tables _ := none

variable (s : TssState τ δ ν)

def tssCreate (dtor : Option δ) : Option ℕ × TssState τ δ ν :=
  match (List.range' 1 MAX_TSS).find? fun i => (s.dtors i).isNone with
  | some i => (some i, { s with dtors := Function.update s.dtors i dtor })
  | none => (none, s)

/-- A key outside of `dtors` is not stored to. -/
def tssDelete (key : ℕ) : Option (TssState τ δ ν) :=
  if key ≤ MAX_TSS then some { s with dtors := Function.update s.dtors key none } else none

/-- `unlikely(tss == NULL || key > tss->max) ? NULL : tss->ptrs[key]`. -/
def read (table : Option (TssTable ν)) (key : ℕ) : Option ν :=
  table.bind fun table => if table.max < key then none else table.ptrs key

def tssGet (t : τ) (key : ℕ) : Option ν := read (s.tables t) key

def withRoom (key : ℕ) : Option (TssTable ν) → TssTable ν
  | none => ⟨key, fun _ => none⟩
  | some table =>
    if table.max < key then ⟨key, fun i => if table.max < i then none else table.ptrs i⟩ else table

def tssSet [DecidableEq τ] (t : τ) (key : ℕ) (value : Option ν) : TssState τ δ ν :=
  if key = 0 ∨ MAX_TSS < key then s
  else
    let table := withRoom key (s.tables t)
    { s with tables := Function.update s.tables t (some { table with ptrs := Function.update table.ptrs key value }) }

end TssState

inductive TssCall (τ δ ν : Type*)
  | create (dtor : Option δ)
  | delete (key : ℕ)
  | set (t : τ) (key : ℕ) (value : Option ν)

structure Ledger (τ δ ν : Type*) where
  state : TssState τ δ ν
  live : List ℕ

namespace Ledger

def init : Ledger τ δ ν := ⟨.init, []⟩

def exec [DecidableEq τ] (l : Ledger τ δ ν) : TssCall τ δ ν → Option (Ledger τ δ ν)
  | .create dtor => some ⟨(l.state.tssCreate dtor).2, l.live ++ (l.state.tssCreate dtor).1.toList⟩
  | .delete key => (l.state.tssDelete key).map fun s => ⟨s, l.live.filter (· ≠ key)⟩
  | .set t key value => some ⟨l.state.tssSet t key value, l.live⟩

end Ledger

/-- A key that `tss_create` returns is not live, none is live twice, and what is set for one of
them is not what is got for another. -/
structure KeysApart [DecidableEq τ] (l : Ledger τ δ ν) : Prop where
  fresh : ∀ dtor key, (l.state.tssCreate dtor).1 = some key → key ∉ l.live
  nodup : l.live.Nodup
  values : ∀ key ∈ l.live, ∀ key' ∈ l.live, key' ≠ key → ∀ t t' value,
    (l.state.tssSet t key value).tssGet t' key' = l.state.tssGet t' key'

def Destructed (_ : Ledger τ δ ν) : TssCall τ δ ν → Prop
  | .create dtor => dtor.isSome
  | _ => True

namespace TssState

variable {s : TssState τ δ ν} {t t' : τ} {key key' : ℕ} {value : Option ν}

theorem tssCreate_eq_some {dtor : Option δ} (h : (s.tssCreate dtor).1 = some key) :
    s.dtors key = none ∧ (s.tssCreate dtor).2 = { s with dtors := Function.update s.dtors key dtor } := by
  unfold tssCreate at h ⊢
  split at h
  · rename_i i hfind
    cases h
    have hfree := List.find?_some (p := fun i => (s.dtors i).isNone) hfind
    exact ⟨Option.isNone_iff_eq_none.mp hfree, rfl⟩
  · cases h

theorem tssCreate_eq_none {dtor : Option δ} (h : (s.tssCreate dtor).1 = none) : (s.tssCreate dtor).2 = s := by
  unfold tssCreate at h ⊢
  split at h
  · cases h
  · rfl

theorem read_withRoom (key key' : ℕ) (table : Option (TssTable ν)) :
    read (some (withRoom key table)) key' = read table key' := by
  cases table with
  | none => exact ite_self _
  | some table =>
    simp only [read, withRoom, Option.bind_some]
    by_cases hroom : table.max < key
    · simp only [if_pos hroom]
      by_cases hkey : table.max < key'
      · rw [if_pos hkey, ite_self]
      · rw [if_neg (by omega), if_neg hkey]
    · simp only [if_neg hroom]

theorem tssGet_tssSet_of_ne [DecidableEq τ] (h : key' ≠ key) : (s.tssSet t key value).tssGet t' key' = s.tssGet t' key' := by
  unfold tssSet
  split
  · rfl
  · unfold tssGet
    by_cases ht : t' = t
    · subst ht
      dsimp only
      rw [Function.update_self, ← read_withRoom key key' (s.tables t')]
      simp only [read, Option.bind_some, Function.update_of_ne h]
    · dsimp only
      rw [Function.update_of_ne ht]

end TssState

namespace Ledger

variable {l l' : Ledger τ δ ν} {call : TssCall τ δ ν}

structure Inv (l : Ledger τ δ ν) : Prop where
  destructed : ∀ key ∈ l.live, (l.state.dtors key).isSome
  nodup : l.live.Nodup

theorem Inv.fresh (h : l.Inv) {dtor : Option δ} {key : ℕ} (hkey : (l.state.tssCreate dtor).1 = some key) :
    key ∉ l.live := by
  intro hlive
  have hsome := h.destructed key hlive
  rw [(TssState.tssCreate_eq_some hkey).1] at hsome
  exact Bool.false_ne_true hsome

theorem Inv.exec [DecidableEq τ] (h : l.Inv) (hok : Destructed l call) (he : l.exec call = some l') : l'.Inv := by
  cases call with
  | create dtor =>
    obtain rfl : ⟨(l.state.tssCreate dtor).2, l.live ++ (l.state.tssCreate dtor).1.toList⟩ = l' := Option.some.inj he
    rcases hkey : (l.state.tssCreate dtor).1 with _ | key
    · rw [TssState.tssCreate_eq_none hkey, Option.toList_none, List.append_nil]
      exact h
    · rw [(TssState.tssCreate_eq_some hkey).2, Option.toList_some]
      have hfresh := h.fresh hkey
      refine ⟨fun k hk => ?_, h.nodup.append (List.nodup_singleton key) (List.disjoint_singleton.mpr hfresh)⟩
      dsimp only
      by_cases hk' : k = key
      · rw [hk', Function.update_self]
        exact hok
      · rw [Function.update_of_ne hk']
        rcases List.mem_append.mp hk with hlive | hnew
        · exact h.destructed k hlive
        · exact absurd (List.mem_singleton.mp hnew) hk'
  | delete key =>
    obtain ⟨s, hs, rfl⟩ := Option.map_eq_some_iff.mp he
    obtain ⟨-, hs⟩ := Option.ite_none_right_eq_some.mp hs
    cases hs
    refine ⟨fun k hk => ?_, h.nodup.filter _⟩
    obtain ⟨hlive, hne⟩ := List.mem_filter.mp hk
    dsimp only
    rw [Function.update_of_ne (of_decide_eq_true hne)]
    exact h.destructed k hlive
  | set t key value =>
    cases he
    refine ⟨fun k hk => ?_, h.nodup⟩
    have hsame : (l.state.tssSet t key value).dtors = l.state.dtors := by
      unfold TssState.tssSet
      split <;> rfl
    rw [hsame]
    exact h.destructed k hk

end Ledger

/-- As long as every key is made with a destructor, keys are apart. -/
theorem keys_apart [DecidableEq τ] {calls : List (TssCall τ δ ν)} {l : Ledger τ δ ν}
    (h : Run Ledger.exec Destructed Ledger.init calls l) : KeysApart l := by
  have hinv : l.Inv := Run.invariant (I := Ledger.Inv) (fun _ _ _ hok he hi => hi.exec hok he) h
    ⟨fun _ hk => absurd hk List.not_mem_nil, List.nodup_nil⟩
  exact ⟨fun _ _ hkey => hinv.fresh hkey, hinv.nodup, fun _ _ _ _ hne _ _ _ => TssState.tssGet_tssSet_of_ne hne⟩

/-- A key is made, deleted and made again. -/
theorem keys_apart_again : ∃ l : Ledger Unit Unit Unit,
    Run Ledger.exec Destructed Ledger.init [.create (some ()), .create (some ()), .delete 1, .create (some ())] l ∧
      l.live = [2, 1] ∧ KeysApart l := by
  obtain ⟨l, hrun, hlive⟩ : ∃ l : Ledger Unit Unit Unit, Run Ledger.exec Destructed Ledger.init
      [.create (some ()), .create (some ()), .delete 1, .create (some ())] l ∧ l.live = [2, 1] := by
    refine ⟨_, .cons rfl rfl (.cons rfl rfl (.cons trivial rfl (.cons rfl rfl (.nil _)))), rfl⟩
  exact ⟨l, hrun, hlive, keys_apart hrun⟩

/-- Without destructors the second key is the first one again. -/
theorem keys_not_apart : ∃ l : Ledger Unit Unit Unit,
    Run Ledger.exec free Ledger.init [.create none] l ∧ (l.state.tssCreate none).1 = some 1 ∧ 1 ∈ l.live :=
  ⟨_, .cons trivial rfl (.nil _), rfl, List.mem_singleton_self 1⟩

end Sneks.Thrd
