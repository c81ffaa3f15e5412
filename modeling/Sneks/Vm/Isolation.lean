import Sneks.Vm.Cases
import Sneks.Vm.Invariant

/-!
# Copy-on-write isolation

While assertions stop the server, and `share_table` has room for every share, the books are
right in every state that is reached. What one process may write to privately is then no other
virtual page's.
-/

namespace Sneks.Vm
open Lib

variable {cfg : Config} {phys : PhysMem} {s₀ s t : State} {pid i : ℕ}

namespace Inv

theorem restart (h : Inv cfg phys s₀ s) : Inv cfg phys s s :=
  ⟨.refl _, fun _ => rfl, h.sound, h.anonSelf, h.unused, h.areas⟩

theorem renewSpace {sp : Space} (h : Inv cfg phys s₀ s) (pid : ℕ) (hu : sp.used = false → s.mem.pages pid = [])
    (ha : sp.kipArea ≠ .nil ∨ sp.utcbArea ≠ .nil → sp.used = true) :
    Inv cfg phys (s.setSpace pid sp) (s.setSpace pid sp) := by
  refine ⟨.refl _, fun _ => rfl, h.sound, h.anonSelf, fun q hq => ?_, fun q hq => ?_⟩
  · rw [State.setSpace_spaces] at hq
    split at hq
    · next he => exact he ▸ hu hq
    · exact h.unused q hq
  · rw [State.setSpace_spaces] at hq ⊢
    split at hq
    · next he => exact (if_pos he).symm ▸ ha hq
    · next he => exact (if_neg he).symm ▸ h.areas q hq

-- fork

theorem forkMaps {dest : ℕ} {ans : ForkAnswer} {maps : List ℕ} {ok : Bool} (h : Inv cfg phys s₀ s)
    (hs : State.forkMaps cfg dest ans maps s = some (t, ok)) : Inv cfg phys s₀ t := by
  induction maps generalizing s with
  | nil =>
    cases hs
    exact h
  | cons orig rest ih =>
    have hnew := h.newMm (h.anonSelf orig)
    rw [State.forkMaps] at hs
    split at hs
    · cases hs
      exact h
    dsimp only at hs
    split at hs
    · obtain ⟨_, -, hs⟩ := Option.bind_eq_some_iff.mp hs
      split at hs
      · cases hs
        exact hnew
      · obtain ⟨_, -, hs⟩ := Option.bind_eq_some_iff.mp hs
        exact ih (hnew.setTable.insertLazyMmap dest _) hs
    · obtain ⟨_, -, hs⟩ := Option.bind_eq_some_iff.mp hs
      exact ih (hnew.insertLazyMmap dest _) hs

theorem clearPages (h : Inv cfg phys s₀ s) (hfree : (s.spaces pid).used = false) : s.clearPages pid = s := by
  rw [State.clearPages, ← h.unused pid hfree, Function.update_eq_self]

theorem vmFork {sender srcpid destpid id : ℕ} {order : List ℕ} {ans : ForkAnswer} {r : Result ℕ}
    (h : Inv cfg phys s₀ s) (hready : cfg.asserts = true ∨ ∀ v ∈ order, Sound.ForkReady s.mem v)
    (hans : ∀ v ∈ order, ans.share v = true)
    (hs : s.vmFork cfg sender srcpid destpid id order ans = some (t, r)) : Inv cfg phys t t := by
  obtain rfl | ⟨pid, hfree, hcases⟩ := State.vmFork_cases hs
  · exact h.restart
  rw [State.forkStart, h.clearPages hfree] at hcases
  obtain rfl | ⟨-, hperm, u, ok, hu, hcases⟩ := hcases
  · exact h.renewSpace pid (fun hf => absurd hf.symm Bool.false_ne_true) fun _ => rfl
  have hinv := Inv.forkMaps (h.renewSpace pid (fun _ => h.unused pid hfree) fun _ => rfl) hu
  have hmem : u.mem = s.mem := (State.forkMaps_mem hu).trans rfl
  obtain rfl | ⟨m, ok', hm, rfl⟩ := hcases
  · exact hinv.restart
  rw [← hmem] at hperm
  have hres : ∀ v ∈ order, u.mem.Resident v := fun v hv => ⟨srcpid, hperm.mem_iff.mp hv⟩
  have hsound := hinv.sound.forkPages hres (hperm.nodup_iff.mpr (hinv.sound.nodup srcpid)) hans
    (hready.imp_right fun hr v hv => hmem ▸ hr v hv) hm
  refine ⟨.refl _, fun _ => rfl, hsound, hinv.anonSelf, fun q hq => ?_, hinv.areas⟩
  have hne : q ≠ pid := fun he => by
    rw [he, hinv.used pid, State.setSpace_spaces, if_pos rfl] at hq
    cases hq
  exact (Mem.forkPages_pages hans hm hne).trans (hinv.unused q hq)

-- configure, upload_page, erase

theorem vmConfigure {utcb kip : Fpage} {malloc : Bool} {r : Result ℕ} (h : Inv cfg phys s₀ s)
    (ha : cfg.asserts = true) (hs : s.vmConfigure cfg pid utcb kip malloc = some (t, r)) : Inv cfg phys s₀ t := by
  obtain rfl | ⟨hargs, hcases⟩ := State.vmConfigure_cases hs
  · exact h
  have hkip : (s.spaces pid).kipArea ≠ .nil := fun hnil => hargs (.inr (.inl (by rw [hnil]; decide)))
  have hspace : Inv cfg phys s₀ (s.setSpace pid ((s.spaces pid).configured utcb kip)) :=
    h.setSpace rfl fun _ => h.areas pid (.inl hkip)
  obtain rfl | ⟨-, r', hu⟩ := hcases
  · exact hspace
  · exact hspace.edits ha (((Edits.refl cfg _).newPrivate rfl).reserveMmap hu)

theorem dropOld {target addr : ℕ} {m : Mem} (h : Inv cfg phys s₀ s) (hs : s.dropOld cfg target addr = some m) :
    Inv cfg phys s₀ { s with mem := m } := by
  rw [State.dropOld] at hs
  split at hs
  · cases hs
    exact h
  · next old m1 hpop =>
    obtain ⟨m2, hm2, rfl⟩ := Option.map_eq_some_iff.mp hs
    obtain ⟨hmem, -, hm1⟩ := Mem.popPage_eq_some hpop
    rw [show m1 = s.mem.dropPage target old from hm1] at hm2
    refine h.setMem (h.sound.remove hmem hm2).flush ?_
    exact (s.mem.dropPage_shrinks target old).trans ((Mem.removeVp_shrinks hm2).trans ⟨rfl, rfl, fun _ _ hu => hu⟩)

theorem addPage {m : Mem} {v : ℕ} (h : Inv cfg phys s₀ s) (hm : Sound phys.pages m)
    (hp : m.pages = (s.mem.addPage pid v).pages) (hused : (s.spaces pid).used = true) :
    Inv cfg phys { s with mem := m } { s with mem := m } := by
  refine ⟨.refl _, fun _ => rfl, hm, h.anonSelf, fun q hq => ?_, h.areas⟩
  have hne : q ≠ pid := fun he => by
    rw [he, show ({ s with mem := m } : State).spaces = s.spaces from rfl, hused] at hq
    cases hq
  show m.pages q = []
  rw [hp, Mem.addPage_pages, if_neg hne]
  exact h.unused q hq

theorem vmUploadPage {target addr prot : ℕ} {data : List UInt8} {flags : MapFlags} {malloc : Bool} {r : Result Unit}
    (h : Inv cfg phys s₀ s) (ha : cfg.asserts = true)
    (hs : s.vmUploadPage cfg target addr data prot flags malloc = some (t, r)) : Inv cfg phys t t := by
  -- the fresh virtual page is as it was made when it goes into the space
  obtain ⟨hsound, hfresh⟩ := h.sound.newVp ⟨addr, protToL4Rights prot, false, true, false, 0⟩
  have hstart : Inv cfg phys { s with mem := (s.mem.newVp ⟨addr, protToL4Rights prot, false, true, false, 0⟩).2 }
      { s with mem := (s.mem.newVp ⟨addr, protToL4Rights prot, false, true, false, 0⟩).2 } :=
    ⟨.refl _, fun _ => rfl, hsound, h.anonSelf, h.unused, h.areas⟩
  obtain rfl | ⟨hok, ⟨e, hu⟩ | ⟨u, m, m', hu, hm, hm', rfl⟩⟩ := State.vmUploadPage_cases hs
  · exact h.restart
  · exact (hstart.edits ha (((Edits.refl cfg _).newPrivate rfl).reserveMmap hu)).restart
  have hdropped := (hstart.edits ha (((Edits.refl cfg _).newPrivate rfl).reserveMmap hu)).dropOld hm
  have hvp : m.vp s.mem.nextVp = ⟨addr, protToL4Rights prot, false, true, false, 0⟩ := by
    rw [hdropped.since.vp]
    exact Function.update_self ..
  have hno : ¬ m.Resident s.mem.nextVp := fun ⟨q, hq⟩ => hfresh ⟨q, hdropped.since.pages q hq⟩
  have hlt : s.mem.nextVp < m.nextVp := by
    rw [hdropped.since.next]
    exact Nat.lt_succ_self _
  have hbooks := hdropped.sound.books.attachFresh hno hlt (by rw [hvp]) (fun _ => by rw [hvp]) hm'
  have hpages : (m'.addPage target s.mem.nextVp).pages = (m.addPage target s.mem.nextVp).pages := by
    rw [Mem.addPage, Mem.addPage, Mem.attachFresh_pages hm']
  have hused : (u.spaces target).used = true := (hdropped.used target).trans (h.areas target (.inr hok.utcb))
  exact hdropped.addPage (hdropped.sound.add hno hbooks.of_eq hpages) hpages hused

theorem vmErase {sender target : ℕ} {order : List ℕ} {r : Result Unit} (h : Inv cfg phys s₀ s)
    (ha : cfg.asserts = true) (hs : s.vmErase cfg sender target order = some (t, r)) : Inv cfg phys t t := by
  obtain rfl | ⟨m, u, hperm, hm, hu, rfl⟩ := State.vmErase_cases hs
  · exact h.restart
  have hsound := h.sound.eraseVps (hperm.nodup_iff.mpr (h.sound.nodup target)) (fun v hv => hperm.mem_iff.mp hv) hm
  have hinv := h.restart.setMem hsound.flush ((Mem.eraseVps_shrinks hm).trans ⟨rfl, rfl, fun _ _ hu => hu⟩)
  have hmaps := hinv.restart.edits ha ((Edits.refl cfg _).eraseMmaps hu)
  refine hmaps.renewSpace target (fun _ => ?_) fun harea => ?_
  · exact List.eq_nil_of_subset_nil (Mem.eraseVps_pages hperm hm ▸ hmaps.since.pages target)
  · exact harea.elim (fun hne => absurd rfl hne) fun hne => absurd rfl hne

-- Page faults

theorem vmPf {faddr : ℕ} {rwx : Rights} {ans : PfAnswer} {r : Option (ℕ × Rights)} (h : Inv cfg phys s₀ s)
    (hans : ans.share = true) (hs : s.vmPf cfg pid faddr rwx ans = some (t, r)) : Inv cfg phys t t := by
  have hfind := h.findLazyMmap pid faddr
  obtain rfl | ⟨hspace, ⟨old, m, hold, hm, rfl⟩ | rfl | ⟨i, v, m, -, -, -, hi, -, hm, rfl, -⟩⟩ := State.vmPf_cases hs
  · exact h.restart
  · have hpages := Mem.pfCow_pages hm
    exact ⟨.refl _, fun _ => rfl, h.sound.pfCow hold hm, h.anonSelf,
      fun q hq => (congrFun hpages q).trans (h.unused q hq), h.areas⟩
  · exact hfind.restart
  · have hused : ((s.findLazyMmap pid faddr).2.spaces pid).used = true :=
      (hfind.used pid).trans ((h.used pid).symm.trans (h.areas pid (.inr hspace)))
    have hkey : (s.mm i).anon = true → (s.mm i).shared = true → (s.mm i).fsidIno ≠ 0 := fun hanon hshared =>
      LazyMmap.fsidIno_ne_zero (h.anonSelf i (by rw [LazyMmap.isAnonMmap, hanon, hshared]; rfl))
    rw [← State.findLazyMmap_mem] at hm
    exact hfind.addPage (hfind.sound.pfMmap hkey hans hm) (Mem.pfMmap_pages hm).2 hused

end Inv

/-- What `fork_pages` and `pf_mmap_shared` enter into `share_table` has room there. -/
def Roomy (_ : State) : Call → Prop
  | .fork _ _ _ _ order ans => ∀ v ∈ order, ans.share v = true
  | .fault _ _ _ ans => ans.share = true
  | _ => True

instance (s : State) : (call : Call) → Decidable (Roomy s call)
  | .fork _ _ _ _ order ans => inferInstanceAs (Decidable (∀ v ∈ order, ans.share v = true))
  | .fault _ _ _ ans => inferInstanceAs (Decidable (ans.share = true))
  | .mmap .. | .munmap .. | .brk .. | .configure .. | .uploadPage .. | .erase .. => inferInstanceAs (Decidable True)

/-- **Step lemma**: a call for which there is room keeps the invariant. -/
theorem Inv.exec {call : Call} (h : Inv cfg phys s s) (ha : cfg.asserts = true) (hroom : Roomy s call)
    (hs : exec cfg s call = some t) : Inv cfg phys t t := by
  cases call with
  | mmap =>
    obtain ⟨⟨u, r⟩, hu, rfl⟩ := Option.map_eq_some_iff.mp hs
    exact (h.edits ha (.vmMmap hu)).restart
  | munmap =>
    obtain ⟨⟨u, r⟩, hu, rfl⟩ := Option.map_eq_some_iff.mp hs
    exact (h.edits ha (.vmMunmap hu)).restart
  | brk =>
    obtain ⟨⟨u, r⟩, hu, rfl⟩ := Option.map_eq_some_iff.mp hs
    exact (h.edits ha (.vmBrk hu)).restart
  | fork =>
    obtain ⟨⟨u, r⟩, hu, rfl⟩ := Option.map_eq_some_iff.mp hs
    exact h.vmFork (.inl ha) hroom hu
  | configure =>
    obtain ⟨⟨u, r⟩, hu, rfl⟩ := Option.map_eq_some_iff.mp hs
    exact (h.vmConfigure ha hu).restart
  | uploadPage =>
    obtain ⟨⟨u, r⟩, hu, rfl⟩ := Option.map_eq_some_iff.mp hs
    exact h.vmUploadPage ha hu
  | erase =>
    obtain ⟨⟨u, r⟩, hu, rfl⟩ := Option.map_eq_some_iff.mp hs
    exact h.vmErase ha hu
  | fault =>
    obtain ⟨⟨u, r⟩, hu, rfl⟩ := Option.map_eq_some_iff.mp hs
    exact h.vmPf hroom hu

/-- **Run lemma**. -/
theorem inv_run {calls : List Call} (ha : cfg.asserts = true)
    (h : Run (exec cfg) Roomy (bootState phys) calls t) : Inv cfg phys t t :=
  h.invariant (I := fun s => Inv cfg phys s s) (fun _ _ _ hroom hs hinv => hinv.exec ha hroom hs) Inv.init

/-- **Isolation.** In every run in which `share_table` has room, no assertion having failed: of the
    virtual pages of all spaces one that is writable and not shared is the only one of its physical
    page, which the page cache has not, and what is written to it is read through no other. -/
theorem isolation {calls : List Call} (ha : cfg.asserts = true) (h : Run (exec cfg) Roomy (bootState phys) calls t)
    {v : ℕ} (hv : t.mem.Resident v) (hw : (t.mem.vp v).rights.w = true) (hs : (t.mem.vp v).shared = false) :
    (∀ u, t.mem.Resident u → (t.mem.vp u).status = (t.mem.vp v).status → u = v) ∧
      (∀ l ∈ t.mem.cache, (t.mem.pl l).live = true → (t.mem.pl l).page ≠ (t.mem.vp v).status) ∧
      ∀ b u, t.mem.Resident u → u ≠ v →
        (t.mem.setData (t.mem.vp v).status b).data (t.mem.vp u).status = t.mem.data (t.mem.vp u).status := by
  have hbooks := (inv_run ha h).sound.books
  have hanon : (t.mem.vp v).anon = true := by
    have hkind := hbooks.kind v hv
    rw [hs] at hkind
    simpa using hkind.symm
  have hsole : ∀ u, t.mem.Resident u → (t.mem.vp u).status = (t.mem.vp v).status → u = v := fun u hu he =>
    hbooks.sole_holder hv hanon (hbooks.cow v hv hw) hu he
  refine ⟨hsole, fun l hl hlive he => ?_, fun b u hu hne => Function.update_of_ne (fun he => hne (hsole u hu he)) _ _⟩
  rw [hbooks.cached_not_anon hl hlive hv he.symm] at hanon
  cases hanon

/-- What process 5 has after it was forked is its own when it has written to it. -/
theorem isolation_fork : ∃ (t : State) (v : ℕ), t.mem.Resident v ∧ (t.mem.vp v).rights.w = true ∧
    ∀ u, t.mem.Resident u → (t.mem.vp u).status = (t.mem.vp v).status → u = v := by
  have hrun := Run.exists_of_evalRun (exec plainConfig) Roomy (bootState threePhys)
    (spawnCalls ++ [.fork 50000 5 6 0 [0] ⟨fun _ => true, fun _ => true, fun _ => true, fun _ => true, fun _ => true⟩,
      .fault 5 0x300000 ⟨true, true, false⟩ ⟨none, true⟩])
    (fun t => (decide (0 ∈ t.mem.pages 5), (t.mem.vp 0).rights.w, (t.mem.vp 0).shared)) (true, true, false) (by decide)
  obtain ⟨t, h, hread⟩ := hrun
  have hv : t.mem.Resident 0 := ⟨5, of_decide_eq_true (congrArg Prod.fst hread)⟩
  have hw : (t.mem.vp 0).rights.w = true := congrArg (fun x => x.2.1) hread
  exact ⟨t, 0, hv, hw, (isolation rfl h hv hw (congrArg (fun x => x.2.2) hread)).1⟩

/-- The copy that is not entered into the table stays in the new space, and the page itself can be
written to again. -/
theorem isolation_lost : ∃ (calls : List Call) (t : State) (u v : ℕ),
    Run (exec plainConfig) free (bootState threePhys) calls t ∧ t.mem.Resident u ∧ t.mem.Resident v ∧ u ≠ v ∧
      (t.mem.vp u).status = (t.mem.vp v).status ∧ (t.mem.vp v).rights.w = true ∧ (t.mem.vp v).shared = false := by
  have hrun := Run.exists_of_evalRun (exec plainConfig) free (bootState threePhys)
    (spawnCalls ++ [.fork 50000 5 6 0 [0] ⟨fun _ => true, fun _ => true, fun _ => true, fun _ => true, fun _ => false⟩])
    (fun t => (decide (1 ∈ t.mem.pages 6 ∧ 0 ∈ t.mem.pages 5), decide ((t.mem.vp 1).status = (t.mem.vp 0).status),
      (t.mem.vp 0).rights.w, (t.mem.vp 0).shared)) (true, true, true, false) (by decide)
  obtain ⟨t, h, hread⟩ := hrun
  obtain ⟨hcopy, hpage⟩ := of_decide_eq_true (congrArg Prod.fst hread)
  exact ⟨_, t, 1, 0, h, ⟨6, hcopy⟩, ⟨5, hpage⟩, Nat.one_ne_zero, of_decide_eq_true (congrArg (fun x => x.2.1) hread),
    congrArg (fun x => x.2.2.1) hread, congrArg (fun x => x.2.2.2) hread⟩

end Sneks.Vm
