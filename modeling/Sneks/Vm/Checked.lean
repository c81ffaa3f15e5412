import Sneks.Lib.Within
import Sneks.Vm.Calls

/-!
# Assertions only stop the server

A call that returns where assertions are checked returns the same where they are not.
-/

namespace Sneks.Vm
open Lib

def Config.checked (cfg : Config) : Config := { cfg with asserts := true }

variable {cfg : Config} {m : Mem} {s : State} {pid i : ℕ}

theorem Config.assert_checked (cfg : Config) (p : Prop) [Decidable p] : Within (cfg.checked.assert p) (cfg.assert p) :=
  fun x hx => by
    by_cases hp : p
    · exact if_neg fun h => h.2 hp
    · rw [Config.assert, if_pos ⟨rfl, hp⟩] at hx
      cases hx

-- Pages

namespace Mem

theorem rmShare_checked (v : ℕ) : Within (m.rmShare cfg.checked v) (m.rmShare cfg v) :=
  .ite (.refl _) (.bind (cfg.assert_checked _) fun _ => .refl _)

theorem removeVp_checked (v : ℕ) : Within (m.removeVp cfg.checked v) (m.removeVp cfg v) :=
  .bind (.refl _) fun _ => .ite (.bind (cfg.assert_checked _) fun _ => .bind (cfg.assert_checked _) fun _ => .refl _)
    (.bind (m.rmShare_checked v) fun _ => .refl _)

theorem removeVps_checked (n pos : ℕ) (m : Mem) :
    Within (removeVps cfg.checked pid n pos m) (removeVps cfg pid n pos m) := by
  induction n generalizing pos m with
  | zero => exact .refl _
  | succ n ih =>
    rw [removeVps, removeVps]
    split
    · exact ih _ _
    · exact .bind (removeVp_checked _) fun m => ih _ m

theorem removeVpRange_checked (addr size : ℕ) :
    Within (m.removeVpRange cfg.checked pid addr size) (m.removeVpRange cfg pid addr size) :=
  .map (removeVps_checked _ _ m)

theorem eraseVps_checked (order : List ℕ) (m : Mem) : Within (eraseVps cfg.checked pid order m) (eraseVps cfg pid order m) := by
  induction order generalizing m with
  | nil => exact .refl _
  | cons v rest ih => exact .bind (removeVp_checked v) fun m => ih m

-- Page faults

theorem pfCow_checked (virt : ℕ) : Within (m.pfCow cfg.checked virt) (m.pfCow cfg virt) :=
  .bind (cfg.assert_checked _) fun _ => .bind (cfg.assert_checked _) fun _ => .bind (.refl _) fun _ =>
    .ite (.bind (cfg.assert_checked _) fun _ => .refl _) (.refl _)

theorem loadPage_checked (mm : LazyMmap) (bump offset : ℕ) (ans : PfAnswer) :
    Within (m.loadPage cfg.checked mm bump offset ans) (m.loadPage cfg mm bump offset ans) :=
  .bind (.refl _) fun _ => .bind (.ite (.refl _) (.bind (cfg.assert_checked _) fun _ => .refl _)) fun _ =>
    .bind (cfg.assert_checked _) fun _ => .bind (cfg.assert_checked _) fun _ => .refl _

theorem findOrLoad_checked (mm : LazyMmap) (page : ℕ) (ans : PfAnswer) :
    Within (m.findOrLoad cfg.checked mm page ans) (m.findOrLoad cfg mm page ans) := by
  rw [findOrLoad, findOrLoad, show m.findCachedPage cfg.checked = m.findCachedPage cfg from rfl]
  split
  · exact .refl _
  · exact loadPage_checked _ _ _ _

theorem fetchCachedPage_checked (mm : LazyMmap) (bump vp : ℕ) (ans : PfAnswer) :
    Within (m.fetchCachedPage cfg.checked mm bump vp ans) (m.fetchCachedPage cfg mm bump vp ans) := by
  rw [fetchCachedPage, fetchCachedPage, show m.findCachedPage cfg.checked = m.findCachedPage cfg from rfl]
  split
  · exact .refl _
  · exact .map (loadPage_checked _ _ _ _)

theorem pfMmapShared_checked (vp : ℕ) (mm : LazyMmap) (page : ℕ) (ans : PfAnswer) :
    Within (m.pfMmapShared cfg.checked vp mm page ans) (m.pfMmapShared cfg vp mm page ans) :=
  .bind (findOrLoad_checked _ _ _) fun _ => .refl _

theorem pfMmapPrivate_checked (vp : ℕ) (mm : LazyMmap) (page : ℕ) (ans : PfAnswer) :
    Within (m.pfMmapPrivate cfg.checked vp mm page ans) (m.pfMmapPrivate cfg vp mm page ans) :=
  .bind (fetchCachedPage_checked _ _ _ _) fun _ => .bind (.refl _) fun _ =>
    .ite (.bind (cfg.assert_checked _) fun _ => .refl _) (.refl _)

theorem pfMmap_checked (pid : ℕ) (mm : LazyMmap) (page : ℕ) (rwx : Rights) (ans : PfAnswer) :
    Within (m.pfMmap cfg.checked pid mm page rwx ans) (m.pfMmap cfg pid mm page rwx ans) :=
  .map (.ite (.map (pfMmapShared_checked _ _ _ _)) (.ite (.refl _) (pfMmapPrivate_checked _ _ _ _)))

theorem forkPages_checked (dest : ℕ) (ans : ForkAnswer) (copy : Bool) (order : List ℕ) (m : Mem) :
    Within (forkPages cfg.checked dest ans copy order m) (forkPages cfg dest ans copy order m) := by
  induction order generalizing copy m with
  | nil => exact .refl _
  | cons cur rest ih =>
    rw [forkPages, forkPages]
    refine .bind (cfg.assert_checked _) fun _ => .ite (.refl _) (.ite (ih _ _) (.ite (.refl _) (.ite (.refl _) ?_)))
    split
    · exact .refl _
    · exact ih _ _

end Mem

-- Mappings

namespace State

theorem cutPage_checked (first page : ℕ) (m : Mem) : Within (s.cutPage cfg.checked i first page m) (s.cutPage cfg i first page m) := by
  rw [cutPage, cutPage, show m.findCachedPage cfg.checked = m.findCachedPage cfg from rfl]
  split
  · exact .refl _
  · exact .ite (.refl _) (.bind (cfg.assert_checked _) fun _ => .bind (cfg.assert_checked _) fun _ => .refl _)

theorem cutAnonMmap_checked (i first last : ℕ) :
    Within (s.cutAnonMmap cfg.checked i first last) (s.cutAnonMmap cfg i first last) :=
  .bind (cfg.assert_checked _) fun _ => .bind (.foldlM (fun m page => cutPage_checked _ page m) _) fun _ => .refl _

theorem dropAnon_checked (i : ℕ) : Within (s.dropAnon cfg.checked i) (s.dropAnon cfg i) := .map (cutAnonMmap_checked i 0 0)

theorem unmapOne_checked (pid addr fin i : ℕ) :
    Within (s.unmapOne cfg.checked pid addr fin i) (s.unmapOne cfg pid addr fin i) :=
  .ite (.bind (.ite (dropAnon_checked i) (.refl _)) fun _ => .refl _) <|
    .ite (.bind (cfg.assert_checked _) fun _ => .ite (.bind (cutAnonMmap_checked _ _ _) fun _ => .refl _) (.refl _)) <|
    .ite (.bind (cfg.assert_checked _) fun _ => .ite (cutAnonMmap_checked _ _ _) (.refl _)) <|
    .bind (cfg.assert_checked _) fun _ => .bind (cfg.assert_checked _) fun _ =>
      .bind (.ite (cutAnonMmap_checked _ _ _) (.refl _)) fun _ => .refl _

theorem munmapLoop_checked (pid addr fin n : ℕ) (s : State) (cur : Option ℕ) :
    Within (munmapLoop cfg.checked pid addr fin n s cur) (munmapLoop cfg pid addr fin n s cur) := by
  induction n generalizing s cur with
  | zero => cases cur <;> exact .refl _
  | succ n ih =>
    cases cur with
    | none => exact .refl _
    | some i =>
      exact .bind (cfg.assert_checked _) fun _ => .ite (.refl _) (.bind (unmapOne_checked _ _ _ _) fun _ => ih _ _)

theorem munmapSpace_checked (pid addr size : ℕ) :
    Within (s.munmapSpace cfg.checked pid addr size) (s.munmapSpace cfg pid addr size) :=
  .bind (cfg.assert_checked _) fun _ => .bind (cfg.assert_checked _) fun _ =>
    .bind (Mem.removeVpRange_checked addr size) fun _ => .bind (munmapLoop_checked _ _ _ _ _ _) fun _ =>
      .bind (cfg.assert_checked _) fun _ => .refl _

theorem place_checked (pid i address length : ℕ) (fixed : Bool) :
    Within (s.place cfg.checked pid i address length fixed) (s.place cfg pid i address length fixed) :=
  .ite (.ite (.refl _) (.map (munmapSpace_checked _ _ _))) (.refl _)

theorem reserveMmap_checked (pid i address length : ℕ) (fixed ok : Bool) :
    Within (s.reserveMmap cfg.checked pid i address length fixed ok) (s.reserveMmap cfg pid i address length fixed ok) :=
  .bind (cfg.assert_checked _) fun _ => .bind (cfg.assert_checked _) fun _ => .ite (.refl _) <| .ite (.refl _) <|
    .bind (place_checked _ _ _ _ _) fun _ => .bind (cfg.assert_checked _) fun _ => .refl _

theorem vmMmap_checked (sender target addr length prot : ℕ) (flags : MapFlags) (fdServ : Tid) (fd : ℤ) (offset : ℕ)
    (ans : MmapAnswer) : Within (s.vmMmap cfg.checked sender target addr length prot flags fdServ fd offset ans)
      (s.vmMmap cfg sender target addr length prot flags fdServ fd offset ans) := by
  simp only [vmMmap, show cfg.checked.self = cfg.self from rfl]
  refine .ite (.refl _) (.ite (.refl _) ?_)
  split
  · exact .refl _
  · exact .bind (reserveMmap_checked _ _ _ _ _ _) fun _ => .refl _

theorem vmMunmap_checked (sender addr size : ℕ) : Within (s.vmMunmap cfg.checked sender addr size) (s.vmMunmap cfg sender addr size) :=
  .ite (.refl _) (.map (munmapSpace_checked _ _ _))

theorem brkGrow_checked (pid addr : ℕ) (malloc : Bool) :
    Within (s.brkGrow cfg.checked pid addr malloc) (s.brkGrow cfg pid addr malloc) := by
  simp only [brkGrow]
  split
  · exact .refl _
  · exact .refl _
  · exact .ite (.refl _) (reserveMmap_checked _ _ _ _ _ _)

theorem brkShrink_checked (pid addr : ℕ) : Within (s.brkShrink cfg.checked pid addr) (s.brkShrink cfg pid addr) := by
  simp only [brkShrink]
  split
  · exact .map (Mem.removeVpRange_checked _ _)
  · exact munmapSpace_checked _ _ _

theorem vmBrk_checked (sender addr : ℕ) (malloc : Bool) :
    Within (s.vmBrk cfg.checked sender addr malloc) (s.vmBrk cfg sender addr malloc) :=
  .ite (.refl _) <| .bind (cfg.assert_checked _) fun _ =>
    .bind (.ite (.refl _) (.ite (brkGrow_checked _ _ _) (.map (brkShrink_checked _ _)))) fun _ => .refl _

theorem vmConfigure_checked (pid : ℕ) (utcb kip : Fpage) (malloc : Bool) :
    Within (s.vmConfigure cfg.checked pid utcb kip malloc) (s.vmConfigure cfg pid utcb kip malloc) :=
  .ite (.refl _) <| .ite (.refl _) <| .ite (.refl _) <| .bind (reserveMmap_checked _ _ _ _ _ _) fun _ => .refl _

theorem dropOld_checked (target addr : ℕ) : Within (s.dropOld cfg.checked target addr) (s.dropOld cfg target addr) := by
  rw [dropOld, dropOld]
  split
  · exact .refl _
  · exact .map (Mem.removeVp_checked _)

theorem vmUploadPage_checked (target addr : ℕ) (data : List UInt8) (prot : ℕ) (flags : MapFlags) (malloc : Bool) :
    Within (s.vmUploadPage cfg.checked target addr data prot flags malloc)
      (s.vmUploadPage cfg target addr data prot flags malloc) := by
  refine .ite (.refl _) (.ite (.refl _) (.ite (.refl _) (.ite (.refl _) (.bind (reserveMmap_checked _ _ _ _ _ _) ?_))))
  rintro ⟨t, _ | _⟩
  · exact .refl _
  · exact .bind (cfg.assert_checked _) fun _ => .bind (dropOld_checked _ _) fun _ => .refl _

theorem eraseMmaps_checked (pid : ℕ) (maps : List ℕ) (s : State) :
    Within (eraseMmaps cfg.checked pid maps s) (eraseMmaps cfg pid maps s) := by
  induction maps generalizing s with
  | nil => exact .refl _
  | cons i rest ih =>
    exact .bind (.ite (.bind (cfg.assert_checked _) fun _ => dropAnon_checked _) (.refl _)) fun _ => ih _

theorem vmErase_checked (sender target : ℕ) (order : List ℕ) :
    Within (s.vmErase cfg.checked sender target order) (s.vmErase cfg sender target order) :=
  .ite (.refl _) <| .ite (.bind (cfg.assert_checked _) fun _ => .bind (cfg.assert_checked _) fun _ => .refl _) <|
    .ite (.refl _) <| .bind (Mem.eraseVps_checked _ _) fun _ => .bind (eraseMmaps_checked _ _ _) fun _ => .refl _

theorem forkMaps_checked (dest : ℕ) (ans : ForkAnswer) (maps : List ℕ) (s : State) :
    Within (forkMaps cfg.checked dest ans maps s) (forkMaps cfg dest ans maps s) := by
  induction maps generalizing s with
  | nil => exact .refl _
  | cons orig rest ih =>
    exact .ite (.refl _) <|
      .ite (.bind (cfg.assert_checked _) fun _ => .ite (.refl _) (.bind (cfg.assert_checked _) fun _ => ih _))
        (.bind (cfg.assert_checked _) fun _ => ih _)

theorem vmFork_checked (sender srcpid destpid id : ℕ) (order : List ℕ) (ans : ForkAnswer) :
    Within (s.vmFork cfg.checked sender srcpid destpid id order ans) (s.vmFork cfg sender srcpid destpid id order ans) :=
  .ite (.refl _) <| .ite (.refl _) <| .ite (.refl _) <| .ite (.refl _) <| .ite (.refl _) <|
    .bind (forkMaps_checked _ _ _ _) fun _ => .ite (.refl _) (.bind (Mem.forkPages_checked _ _ _ _ _) fun _ => .refl _)

theorem vmPf_checked (pid faddr : ℕ) (rwx : Rights) (ans : PfAnswer) :
    Within (s.vmPf cfg.checked pid faddr rwx ans) (s.vmPf cfg pid faddr rwx ans) := by
  simp only [vmPf]
  refine .ite (.refl _) ?_
  split
  · exact .ite (.map (Mem.pfCow_checked _)) (.refl _)
  · refine .ite (.refl _) ?_
    split
    · exact .refl _
    · exact .bind (cfg.assert_checked _) fun _ => .ite (.refl _) (.bind (Mem.pfMmap_checked _ _ _ _ _) fun _ => .refl _)

end State

/-- **Assertions only stop the server.** -/
theorem exec_checked (cfg : Config) (s : State) (call : Call) : Within (exec cfg.checked s call) (exec cfg s call) := by
  cases call with
  | mmap => exact .map (State.vmMmap_checked _ _ _ _ _ _ _ _ _ _)
  | munmap => exact .map (State.vmMunmap_checked _ _ _)
  | brk => exact .map (State.vmBrk_checked _ _ _)
  | fork => exact .map (State.vmFork_checked _ _ _ _ _ _)
  | configure => exact .map (State.vmConfigure_checked _ _ _ _)
  | uploadPage => exact .map (State.vmUploadPage_checked _ _ _ _ _ _)
  | erase => exact .map (State.vmErase_checked _ _ _)
  | fault => exact .map (State.vmPf_checked _ _ _ _)

end Sneks.Vm
