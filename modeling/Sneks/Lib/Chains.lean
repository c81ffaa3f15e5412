import Mathlib.Data.List.Nodup

/-!
# Hash chains whose entries die in place

The entries of a cache hang in chains by the hashes of their keys, newest first. None is unlinked: an
entry is found while it is live. An entry is pushed where a lookup of its key has failed; what has come
into the chain since is what lies above the entry that the lookup saw first.
-/

namespace Sneks.Lib

variable {ι κ : Type*}

structure Chains (ι κ : Type*) where
  entries : List ι
  key : ι → κ
  live : ι → Bool

namespace Chains

variable {c c' : Chains ι κ} {e : ι}

def Keyed (c : Chains ι κ) : Prop :=
  ∀ e ∈ c.entries, ∀ e' ∈ c.entries, c.live e = true → c.live e' = true → c.key e = c.key e' → e = e'

theorem Keyed.fade (h : c.Keyed) (hentries : c'.entries = c.entries)
    (hold : ∀ e ∈ c.entries, c'.live e = true → c.live e = true ∧ c'.key e = c.key e) : c'.Keyed := by
  intro e he e' he' hlive hlive' hk
  rw [hentries] at he he'
  obtain ⟨hl, hke⟩ := hold e he hlive
  obtain ⟨hl', hke'⟩ := hold e' he' hlive'
  exact h e he e' he' hl hl' (hke.symm.trans (hk.trans hke'))

variable [DecidableEq κ] (c) (hash : κ → ℕ)

def chain (h : ℕ) : List ι := c.entries.filter fun e => hash (c.key e) = h

def find (k : κ) : Option ι := (c.chain hash (hash k)).find? fun e => c.live e = true ∧ c.key e = k

variable {c hash} {k : κ}

theorem find_spec (h : c.find hash k = some e) : e ∈ c.entries ∧ c.live e = true ∧ c.key e = k := by
  rw [find] at h
  have hmem := List.mem_of_find?_eq_some h
  have hfound := List.find?_some h
  exact ⟨(List.mem_filter.mp hmem).1, of_decide_eq_true hfound⟩

theorem find_eq_none_iff : c.find hash k = none ↔ ∀ e ∈ c.entries, c.live e = true → c.key e ≠ k := by
  rw [find, List.find?_eq_none]
  constructor
  · intro h e he hlive hk
    have hchain : e ∈ c.chain hash (hash k) := List.mem_filter.mpr ⟨he, decide_eq_true (congrArg hash hk)⟩
    exact h e hchain (decide_eq_true ⟨hlive, hk⟩)
  · intro h e he hfound
    obtain ⟨hlive, hk⟩ := of_decide_eq_true hfound
    exact h e (List.mem_filter.mp he).1 hlive hk

theorem Keyed.find_eq_some_iff (h : c.Keyed) :
    c.find hash k = some e ↔ e ∈ c.entries ∧ c.live e = true ∧ c.key e = k := by
  refine ⟨find_spec, fun ⟨he, hlive, hk⟩ => ?_⟩
  cases hfind : c.find hash k with
  | none => exact absurd hk (find_eq_none_iff.mp hfind e he hlive)
  | some e' =>
    obtain ⟨he', hlive', hk'⟩ := find_spec hfind
    rw [h e' he' e he hlive' hlive (hk'.trans hk.symm)]

theorem Keyed.push (h : c.Keyed) (hentries : c'.entries = e :: c.entries)
    (hold : ∀ e ∈ c.entries, c'.live e = true → c.live e = true ∧ c'.key e = c.key e)
    (hmissed : c.find hash (c'.key e) = none) : c'.Keyed := by
  have hother : ∀ e' ∈ c.entries, c'.live e' = true → c'.key e' ≠ c'.key e := fun e' he' hlive' => by
    obtain ⟨hl, hk⟩ := hold e' he' hlive'
    rw [hk]
    exact find_eq_none_iff.mp hmissed e' he' hl
  have hfade : Keyed { c' with entries := c.entries } := h.fade rfl hold
  intro a ha b hb hlive hlive' hk
  rw [hentries] at ha hb
  obtain he | ha' := List.mem_cons.mp ha
  · obtain he' | hb' := List.mem_cons.mp hb
    · exact he.trans he'.symm
    · exact absurd (hk.symm.trans (congrArg c'.key he)) (hother b hb' hlive')
  · obtain he' | hb' := List.mem_cons.mp hb
    · exact absurd (hk.trans (congrArg c'.key he')) (hother a ha' hlive)
    · exact hfade a ha' b hb' hlive hlive' hk

end Chains

variable [DecidableEq ι]

def newer (chain : List ι) (top : Option ι) : List ι := chain.takeWhile fun e => some e ≠ top

theorem newer_head? (chain : List ι) : newer chain chain.head? = [] := by
  cases chain with
  | nil => rfl
  | cons e chain => simp [newer]

end Sneks.Lib
