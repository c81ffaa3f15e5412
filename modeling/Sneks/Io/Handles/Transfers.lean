import Sneks.Io.Handles.Changes

/-!
# Transfers of handles

A handle that is on its way to another client has `IOD_TRANSFER` set and one record in
`transfer_hash`. The two go together through every call and event, so the handle is taken
over by a client that the record is for, and once.
-/

namespace Sneks.Io.Handles
open Lib

structure TransfersSound (s : State) : Prop where
  flag : ∀ id, (s.fd id).owner.isSome →
    ((s.fd id).transfer = true ↔ (s.transfers.filter (·.fd = id)).length = 1)
  record : ∀ tr ∈ s.transfers, (s.fd tr.fd).owner.isSome ∧ (s.fd tr.fd).transfer = true
  target : ∀ sender newfd t, s.touch sender newfd = some (t, .ok 0) →
    ∃ tr ∈ s.transfers, tr.fd = newfd ∧
      (tr.target = pidof sender ∨ tr.target = 0x10000 ∧ minSysid ≤ pidof sender)
  once : ∀ sender newfd t, s.touch sender newfd = some (t, .ok 0) →
    ∀ bs u, Run Handles.exec (fun s a => ¬ offering s newfd a) t bs u →
      ∀ sender' v, u.touch sender' newfd ≠ some (v, .ok 0)

def State.recorded (s : State) : List ℕ := s.transfers.map Transfer.fd

structure Recorded (s : State) : Prop where
  nodup : s.recorded.Nodup
  mem_iff : ∀ id, id ∈ s.recorded ↔ (s.fd id).owner.isSome ∧ (s.fd id).transfer = true

variable {s t u : State} {id pid newfd : ℕ}

theorem Recorded.congr (h : Recorded s) (hfd : ∀ j, (t.fd j).ident = (s.fd j).ident)
    (htransfers : t.transfers = s.transfers) : Recorded t where
  nodup := by
    rw [State.recorded, htransfers]
    exact h.nodup
  mem_iff j := by
    rw [State.recorded, htransfers, owner_of_ident (hfd j), transfer_of_ident (hfd j)]
    exact h.mem_iff j

theorem mem_recorded_filter (j : ℕ) :
    j ∈ (s.transfers.filter (·.fd ≠ id)).map Transfer.fd ↔ j ≠ id ∧ j ∈ s.recorded := by
  simp only [List.mem_map, List.mem_filter, decide_eq_true_eq, State.recorded]
  constructor
  · rintro ⟨tr, ⟨hmem, hne⟩, rfl⟩
    exact ⟨hne, tr, hmem, rfl⟩
  · rintro ⟨hne, tr, hmem, rfl⟩
    exact ⟨tr, ⟨hmem, hne⟩, rfl⟩

theorem Recorded.dropped (h : Recorded s) (hd : Dropped s t id) : Recorded t := by
  have hrec : ∀ j, j ∈ t.recorded ↔ j ≠ id ∧ j ∈ s.recorded := by
    intro j
    rw [State.recorded, hd.transfers]
    split
    · exact mem_recorded_filter j
    · next hflag =>
      -- without the flag there is no record
      refine ⟨fun hj => ⟨?_, hj⟩, fun hj => hj.2⟩
      rintro rfl
      exact hflag ((h.mem_iff j).mp hj).2
  constructor
  case nodup =>
    rw [State.recorded, hd.transfers]
    split
    · exact h.nodup.sublist (List.filter_sublist.map _)
    · exact h.nodup
  case mem_iff =>
    intro j
    rw [hrec, h.mem_iff]
    by_cases hj : j = id
    · subst hj
      simp [hd.dead]
    · rw [owner_of_ident (hd.frame j hj), transfer_of_ident (hd.frame j hj)]
      simp [hj]

theorem Recorded.fill (h : Recorded s) (hfree : (s.fd id).owner = none) (hflag : (t.fd id).transfer = false)
    (hframe : ∀ j, j ≠ id → (t.fd j).ident = (s.fd j).ident) (htransfers : t.transfers = s.transfers) :
    Recorded t where
  nodup := by
    rw [State.recorded, htransfers]
    exact h.nodup
  mem_iff j := by
    rw [State.recorded, htransfers]
    by_cases hj : j = id
    · subst hj
      refine (h.mem_iff j).trans ?_
      simp [hfree, hflag]
    · rw [owner_of_ident (hframe j hj), transfer_of_ident (hframe j hj)]
      exact h.mem_iff j

theorem Recorded.change (h : Recorded s) (hc : Change s t) : Recorded t := by
  cases hc with
  | same hfd _ htransfers => exact h.congr hfd htransfers
  | client pid _ hfd _ htransfers => exact h.congr (fun j => by rw [hfd]) htransfers
  | dropped id hd => exact h.dropped hd
  | opened pid id ho => exact h.fill ho.free ho.transfer ho.frame ho.transfers
  | copied child id newfd hc => exact h.fill hc.free hc.transfer hc.frame hc.transfers
  | stale tr hstale hmem =>
    have hrec := (h.mem_iff tr.fd).mp (List.mem_map_of_mem hmem)
    rcases hstale with hdead | hflag
    · rw [hdead] at hrec
      cases hrec.1
    · rw [hflag] at hrec
      cases hrec.2

theorem Recorded.changes (h : Recorded s) (hc : Changes s t) : Recorded t := by
  induction hc with
  | refl => exact h
  | tail _ hstep ih => exact ih.change hstep

theorem Recorded.offered {target : ℕ} (h : Recorded s) (ho : Offered s t id target) : Recorded t := by
  have hnew : id ∉ s.recorded := by
    intro hm
    have hflag := ((h.mem_iff id).mp hm).2
    rw [ho.before] at hflag
    cases hflag
  have hrec : t.recorded = s.recorded ++ [id] := by
    rw [State.recorded, ho.transfers, List.map_append]
    rfl
  constructor
  case nodup =>
    rw [hrec]
    exact List.nodup_append.mpr ⟨h.nodup, List.nodup_singleton id, by
      rintro a ha b hb rfl
      exact hnew (List.mem_singleton.mp hb ▸ ha)⟩
  case mem_iff =>
    intro j
    rw [hrec, List.mem_append, List.mem_singleton]
    by_cases hj : j = id
    · subst hj
      rw [owner_of_ident ho.after, transfer_of_ident ho.after]
      simp [ho.live]
    · rw [owner_of_ident (ho.frame j hj), transfer_of_ident (ho.frame j hj), h.mem_iff]
      simp [hj]

theorem Recorded.mem_erase {tr : Transfer} (h : Recorded s) (hmem : tr ∈ s.transfers) (j : ℕ) :
    j ∈ (s.transfers.erase tr).map Transfer.fd ↔ j ≠ tr.fd ∧ j ∈ s.recorded := by
  have hperm := (List.perm_cons_erase hmem).map Transfer.fd
  have hnodup : (tr.fd :: (s.transfers.erase tr).map Transfer.fd).Nodup := hperm.nodup_iff.mp h.nodup
  obtain ⟨hnot, -⟩ := List.nodup_cons.mp hnodup
  rw [State.recorded, hperm.mem_iff, List.map_cons, List.mem_cons]
  constructor
  · intro hj
    refine ⟨?_, .inr hj⟩
    rintro rfl
    exact hnot hj
  · rintro ⟨hne, he | hj⟩
    · exact absurd he hne
    · exact hj

theorem Recorded.touched (h : Recorded s) (ht : Touched s t pid id) : Recorded t := by
  obtain ⟨tr, hmem, rfl, -, htransfers⟩ := ht.transfers
  constructor
  case nodup =>
    rw [State.recorded, htransfers]
    exact h.nodup.sublist (List.erase_sublist.map _)
  case mem_iff =>
    intro j
    rw [State.recorded, htransfers, h.mem_erase hmem, h.mem_iff]
    by_cases hj : j = tr.fd
    · subst hj
      rw [transfer_of_ident ht.after]
      simp
    · rw [owner_of_ident (ht.frame j hj), transfer_of_ident (ht.frame j hj)]
      simp [hj]

theorem Recorded.exec {a : Step} (hi : Inv s) (h : Recorded s) (hs : Handles.exec s a = some t) :
    Recorded t := by
  rcases hi.step_changes hs with hc | ⟨id, -, u, v, target, hu, ho, he⟩ | ⟨sender, newfd, -, ht⟩
  · exact h.changes hc
  · have hv := (h.changes hu).offered ho
    rw [he]
    exact ⟨hv.nodup, hv.mem_iff⟩
  · exact (h.changes (hi.coherent.changes_getClient _)).touched ht

theorem Recorded.init : Recorded State.init := ⟨List.nodup_nil, fun id => by simp [State.recorded, State.init]⟩

-- Taking over

theorem Change.transfers_subset (h : Change s t) : t.transfers ⊆ s.transfers := by
  cases h with
  | same _ _ htransfers | client _ _ _ _ htransfers => exact htransfers ▸ List.Subset.refl _
  | dropped id hd =>
    rw [hd.transfers]
    split
    · exact List.filter_subset_self _
    · exact List.Subset.refl _
  | opened pid id ho => exact ho.transfers ▸ List.Subset.refl _
  | copied child id newfd hc => exact hc.transfers ▸ List.Subset.refl _
  | stale tr _ _ _ _ htransfers =>
    rw [htransfers]
    exact List.erase_subset

theorem Changes.transfers_subset (h : Changes s t) : t.transfers ⊆ s.transfers := by
  induction h with
  | refl => exact List.Subset.refl _
  | tail _ hstep ih => exact List.Subset.trans hstep.transfers_subset ih

theorem Inv.not_recorded {a : Step} (hi : Inv s) (hs : Handles.exec s a = some t)
    (hno : ¬ offering s id a) (hid : id ∉ s.recorded) : id ∉ t.recorded := by
  have hsub : ∀ {u v : State}, v.transfers ⊆ u.transfers → id ∉ u.recorded → id ∉ v.recorded := by
    intro u v huv hu hv
    obtain ⟨tr, hmem, he⟩ := List.mem_map.mp hv
    exact hu (List.mem_map.mpr ⟨tr, huv hmem, he⟩)
  rcases hi.step_changes hs with hc | ⟨j, hoff, u, v, target, hu, ho, he⟩ | ⟨sender, newfd, -, ht⟩
  · exact hsub hc.transfers_subset hid
  · have hj : j ≠ id := by
      rintro rfl
      exact hno hoff
    have htrs : t.transfers = u.transfers ++ [⟨j, target⟩] := by rw [he, ho.transfers]
    rw [State.recorded, htrs, List.map_append, List.mem_append]
    rintro (hm | hm)
    · exact hsub hu.transfers_subset hid hm
    · exact hj (List.mem_singleton.mp hm).symm
  · obtain ⟨tr, -, -, -, htransfers⟩ := ht.transfers
    refine hsub ?_ hid
    rw [htransfers, getClient_transfers]
    exact List.erase_subset

theorem Inv.touch_target {sender : Tid} (hi : Inv s) (hs : s.touch sender newfd = some (t, .ok 0)) :
    ∃ tr ∈ s.transfers, tr.fd = newfd ∧
      (tr.target = pidof sender ∨ tr.target = 0x10000 ∧ minSysid ≤ pidof sender) := by
  rcases hi.changes_touch hs with ⟨hr, -⟩ | ⟨-, ht⟩
  · cases hr
  obtain ⟨tr, hmem, hfd, hmatch, -⟩ := ht.transfers
  rw [getClient_transfers] at hmem
  refine ⟨tr, hmem, hfd, ?_⟩
  simpa [State.transferMatch] using hmatch

theorem Recorded.touch_unrecorded {sender : Tid} (hi : Inv s) (h : Recorded s)
    (hs : s.touch sender newfd = some (t, .ok 0)) : newfd ∉ t.recorded := by
  rcases hi.changes_touch hs with ⟨hr, -⟩ | ⟨-, ht⟩
  · cases hr
  have hrec := (h.changes (hi.coherent.changes_getClient _)).touched ht
  intro hm
  have hflag := ((hrec.mem_iff newfd).mp hm).2
  rw [transfer_of_ident ht.after] at hflag
  cases hflag

theorem Recorded.transfersSound (hi : Inv s) (h : Recorded s) : TransfersSound s where
  flag id hlive := by
    have hcount : (s.transfers.filter (·.fd = id)).length = s.recorded.count id := by
      rw [State.recorded, List.count, List.countP_map, List.countP_eq_length_filter]
      rfl
    have hle := List.nodup_iff_count_le_one.mp h.nodup id
    have hmem := h.mem_iff id
    rw [hcount]
    constructor
    · intro hflag
      have hpos := List.count_pos_iff.mpr (hmem.mpr ⟨hlive, hflag⟩)
      omega
    · intro hone
      exact (hmem.mp (List.count_pos_iff.mp (by omega))).2
  record tr hmem := (h.mem_iff tr.fd).mp (List.mem_map_of_mem hmem)
  target sender newfd t hs := hi.touch_target hs
  once sender newfd t hs bs u hrun sender' v hs' := by
    have hboth := Run.invariant (I := fun u => Inv u ∧ newfd ∉ u.recorded)
      (fun _ _ _ hno he hiu => ⟨hiu.1.exec he, hiu.1.not_recorded he hno hiu.2⟩) hrun
      ⟨hi.touch hs, h.touch_unrecorded hi hs⟩
    obtain ⟨tr, hmem, hfd, -⟩ := hboth.1.touch_target hs'
    exact hboth.2 (List.mem_map.mpr ⟨tr, hmem, hfd⟩)

/-- Process 9 hands copies of its handle to 6 and to 8, forks 10, and exits when 6 has taken
    its copy and 8 has not. -/
def handOverRun : List Step :=
  [.call (userTid 9) .iofNew, .call (userTid 9) (.addFd 0 false [3]),
    .call (userTid 9) (.dupTo 3 6 true [4]), .call (userTid 9) (.dupTo 3 8 true [5]),
    .event (.fork 9 10 [11, 12, 13]), .call (userTid 6) (.touch 4), .event (.exit 9)]

end Sneks.Io.Handles
