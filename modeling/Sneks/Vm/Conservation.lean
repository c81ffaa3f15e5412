import Sneks.Vm.Checked
import Sneks.Vm.Isolation

/-!
# Conservation of physical pages

What the server keeps of its physical pages when assertions are left out: each is at one place, the
free list has none that somebody uses, and the books have each virtual page once. It does so while
calls are made of which assertions would stop none, and forks copy no anonymous page that can only
be read.
-/

namespace Sneks.Vm
open Lib

variable {cfg : Config} {phys : PhysMem} {s₀ s t : State} {m : Mem} {pid i : ℕ}

-- What is kept

namespace Mem

def listings (m : Mem) (p : ℕ) : ℕ :=
  (m.free ++ m.active ++ m.cache).countP fun l => (m.pl l).live ∧ (m.pl l).page = p

def entries (m : Mem) (v : ℕ) : ℕ :=
  (if m.owner (m.vp v).status = some v then 1 else 0) + m.shareTable.count v

end Mem

structure Conserved (phys : List ℕ) (m : Mem) : Prop where
  listed : ∀ p ∈ phys, m.listings p = 1
  free : ∀ l ∈ m.free, m.owner (m.pl l).page = none ∧ m.hasShares (m.pl l).page = false
  unused : ∀ l ∈ m.free, ∀ v, m.Resident v → (m.vp v).status ≠ (m.pl l).page
  entered : ∀ v, m.Resident v → m.entries v = 1

theorem Core.countP_eq_one {phys ls : List ℕ} {pl : ℕ → Pl} {link : ℕ → Option ℕ} {next p : ℕ}
    (h : Core phys pl link next ls) (hp : p ∈ phys) : ls.countP (fun l => (pl l).live ∧ (pl l).page = p) = 1 := by
  obtain ⟨l, hl, hlive, he⟩ := h.linked p hp
  have hone : ∀ k ∈ ls, decide ((pl k).live = true ∧ (pl k).page = p) = true ↔ (k == l) = true := fun k hk => by
    rw [decide_eq_true_iff, beq_iff_eq]
    constructor
    · rintro ⟨hklive, hke⟩
      exact h.unique hk hl hklive hlive (hke.trans he.symm)
    · rintro rfl
      exact ⟨hlive, he⟩
  rw [List.countP_congr hone]
  exact h.nodup.count.trans (if_pos hl)

theorem Books.entries_eq_one {phys : List ℕ} {held : ℕ → Prop} {v : ℕ} (h : Books phys held m) (hv : held v) :
    m.entries v = 1 := by
  rw [Mem.entries]
  by_cases ho : m.owner (m.vp v).status = some v
  · have hnot : v ∉ m.shareTable := fun hs => h.exclusive v hs ho
    rw [if_pos ho, List.count_eq_zero_of_not_mem hnot]
  · rw [if_neg ho, h.share_nodup.count, if_pos ((h.registered v hv).resolve_left ho)]

theorem Sound.conserved {phys : List ℕ} (h : Sound phys m) : Conserved phys m where
  listed _ hp := h.books.links.countP_eq_one hp
  free l hl :=
    have hno : ∀ v, m.Resident v → (m.vp v).status ≠ (m.pl l).page := fun _ hv => h.books.free_unheld hl hv
    ⟨h.books.owner_eq_none hno, h.books.hasShares_eq_false hno⟩
  unused _ hl _ hv := h.books.free_unheld hl hv
  entered _ hv := h.books.entries_eq_one hv

/-- What `fork_pages` and `pf_mmap_shared` enter into `share_table` has room there, `fork_pages`
    copies no anonymous page that can only be read, and of the other calls assertions would stop
    none. -/
def Sparing (cfg : Config) (s : State) : Call → Prop
  | .fork _ _ _ _ order ans => ∀ v ∈ order, ans.share v = true ∧ Sound.ForkReady s.mem v
  | .fault _ _ _ ans => ans.share = true
  | call => (exec cfg.checked s call).isSome = true

instance (s : State) : (call : Call) → Decidable (Sparing cfg s call)
  | .fork _ _ _ _ order ans => inferInstanceAs (Decidable (∀ v ∈ order, ans.share v = true ∧ (_ → _ ∨ _)))
  | .fault _ _ _ ans => inferInstanceAs (Decidable (ans.share = true))
  | .mmap .. | .munmap .. | .brk .. | .configure .. | .uploadPage .. | .erase .. => inferInstanceAs (Decidable (_ = true))

namespace Inv

theorem checked (h : Inv cfg phys s₀ s) : Inv cfg.checked phys s₀ s :=
  ⟨h.since, h.used, h.sound, h.anonSelf, h.unused, h.areas⟩

theorem exec_passed {call : Call} (h : Inv cfg phys s s) (hpass : (Vm.exec cfg.checked s call).isSome = true)
    (hroom : Roomy s call) (hs : Vm.exec cfg s call = some t) : Inv cfg phys t t := by
  obtain ⟨u, hu⟩ := Option.isSome_iff_exists.mp hpass
  obtain rfl : u = t := Option.some.inj ((exec_checked cfg s call u hu).symm.trans hs)
  have hinv := h.checked.exec rfl hroom hu
  exact ⟨hinv.since, hinv.used, hinv.sound, hinv.anonSelf, hinv.unused, hinv.areas⟩

/-- **Step lemma**. -/
theorem exec_sparing {call : Call} (h : Inv cfg phys s s) (hok : Sparing cfg s call) (hs : Vm.exec cfg s call = some t) :
    Inv cfg phys t t := by
  cases call with
  | mmap | munmap | brk | configure | uploadPage | erase => exact h.exec_passed hok trivial hs
  | fork =>
    obtain ⟨⟨u, r⟩, hu, rfl⟩ := Option.map_eq_some_iff.mp hs
    exact h.vmFork (.inr fun v hv => (hok v hv).2) (fun v hv => (hok v hv).1) hu
  | fault =>
    obtain ⟨⟨u, r⟩, hu, rfl⟩ := Option.map_eq_some_iff.mp hs
    exact h.vmPf hok hu

end Inv

theorem inv_of_run {calls : List Call} (h : Run (exec cfg) (Sparing cfg) (bootState phys) calls t) : Inv cfg phys t t :=
  h.invariant (I := fun s => Inv cfg phys s s) (fun _ _ _ hok hs hinv => hinv.exec_sparing hok hs) Inv.init

def uncheckedConfig : Config := { plainConfig with asserts := false }

end Sneks.Vm
