import Sneks.Vm.Pages

/-!
# Virtual pages come and go

Page faults make a virtual page resident, `fork_pages` copies it, `remove_vp_range` and
`vm_erase` take it out of its space. `Sound` is what holds of the pages between two calls.
-/

namespace Sneks.Vm
open Lib

variable {cfg : Config} {phys : List ℕ} {held : ℕ → Prop} {m m' : Mem} {v p l pid : ℕ} {mm : LazyMmap}

theorem Mem.findCachedPage_spec {bump : ℕ} (hs : m.findCachedPage cfg mm bump = some l) :
    l ∈ m.cache ∧ mm.isAt bump (m.pl l) := by
  have hl := List.mem_of_find?_eq_some hs
  exact ⟨(List.mem_filter.mp hl).1, by simpa using List.find?_some hs⟩

theorem Mem.addShare_ok (m : Mem) (p v : ℕ) : (m.addShare p v true).2 = true := by
  rw [Mem.addShare]
  split <;> rfl

theorem Mem.forkPage_ok (m : Mem) (dest cur : ℕ) :
    m.forkPage dest cur true =
      (((m.forkMark dest cur).addShare (m.vp cur).status m.nextVp true).1, true) := by
  have hok := (m.forkMark dest cur).addShare_ok (m.vp cur).status m.nextVp
  rw [Mem.forkPage]
  split
  · next he => rw [he]
  · next he =>
    rw [he] at hok
    cases hok

namespace Books

theorem cached_not_anon (h : Books phys held m) (hl : l ∈ m.cache) (hlive : (m.pl l).live = true)
    (hv : held v) (he : (m.vp v).status = (m.pl l).page) : (m.vp v).anon = false := by
  obtain ⟨k, hk, hklive, hkp⟩ := h.place v hv
  have hkl : k = l := h.links.unique (Mem.home_subset _ k hk) (by simp [hl]) hklive hlive (hkp.trans he)
  cases ha : (m.vp v).anon with
  | false => rfl
  | true =>
    rw [Mem.home_of_anon ha] at hk
    have hd := h.links.nodup
    rw [List.append_assoc, List.nodup_append] at hd
    exact absurd hkl ((List.nodup_append.mp hd.2.1).2.2 k hk l hl)

theorem loadPage {bump off c : ℕ} {ans : PfAnswer} (h : Books phys held m)
    (hmm : mm.anon = true → mm.fsidIno ≠ 0) (hs : m.loadPage cfg mm bump off ans = some (c, m')) :
    Books phys held m' ∧ c ∈ m'.cache ∧ (m'.pl c).live = true ∧ m'.vp = m.vp ∧ m'.nextVp = m.nextVp ∧
      m'.pages = m.pages ∧ ∀ v, held v → (m'.vp v).status ≠ (m'.pl c).page := by
  obtain ⟨⟨l, m1⟩, hl, hs⟩ := Option.bind_eq_some_iff.mp hs
  obtain ⟨rest, hfree, rfl⟩ := Mem.getFreePl_eq_some.mp hl
  obtain ⟨bytes, hbytes, hs⟩ := Option.bind_eq_some_iff.mp hs
  obtain ⟨_, -, hs⟩ := Option.bind_eq_some_iff.mp hs
  obtain ⟨_, -, hs⟩ := Option.bind_eq_some_iff.mp hs
  cases hs
  have hkey : mm.fsidIno ≠ 0 := by
    split at hbytes
    · next ha => exact hmm ha
    · obtain ⟨_, -, hr⟩ := Option.bind_eq_some_iff.mp hbytes
      split at hr
      · cases hr
      · next hno => exact fun hk => hno (.inr hk)
  have hnew : ((Mem.setData { m with free := rest } (m.pl l).page (pageOf bytes)).pushCachedPage l mm.fsidIno
      (word (mm.offset + bump))).pl m.nextPl =
      ⟨(m.pl l).page, true, mm.fsidIno, word (mm.offset + bump)⟩ := Function.update_self ..
  refine ⟨(h.pushCached hfree hkey).of_eq, List.mem_cons_self, ?_, rfl, rfl, rfl, fun v hv => ?_⟩
  · show Pl.live _ = true
    exact congrArg Pl.live hnew
  · have hl : l ∈ m.free := by simp [hfree]
    have hpage := congrArg Pl.page hnew
    exact fun he => h.free_unheld hl hv (Eq.trans he hpage)

theorem findOrLoad {page c : ℕ} {ans : PfAnswer} (h : Books phys held m)
    (hmm : mm.anon = true → mm.fsidIno ≠ 0) (hs : m.findOrLoad cfg mm page ans = some (c, m')) :
    Books phys held m' ∧ c ∈ m'.cache ∧ (m'.pl c).live = true ∧ m'.vp = m.vp ∧ m'.nextVp = m.nextVp ∧
      m'.pages = m.pages := by
  rw [Mem.findOrLoad] at hs
  split at hs
  · next hc =>
    cases hs
    obtain ⟨hmem, hlive, -⟩ := Mem.findCachedPage_spec hc
    exact ⟨h, hmem, hlive, rfl, rfl, rfl⟩
  · obtain ⟨hb, hmem, hlive, hvp, hnext, hpages, -⟩ := h.loadPage hmm hs
    exact ⟨hb, hmem, hlive, hvp, hnext, hpages⟩

theorem pfMmapShared {page : ℕ} {ans : PfAnswer} (h : Books phys held m) (hv : ¬ held v) (hlt : v < m.nextVp)
    (hmm : mm.anon = true → mm.fsidIno ≠ 0) (hanon : (m.vp v).anon = false)
    (hshared : (m.vp v).shared = false) (hcow : (m.vp v).cow = false) (hans : ans.share = true)
    (hs : m.pfMmapShared cfg v mm page ans = some m') : Books phys (fun u => held u ∨ u = v) m' := by
  obtain ⟨⟨c, m1⟩, hc, hs⟩ := Option.bind_eq_some_iff.mp hs
  obtain ⟨hb, hmem, hlive, hvp, hnext, -⟩ := h.findOrLoad hmm hc
  simp only at hs
  split at hs
  · exact hb.attachFresh hv (hnext ▸ hlt) (by rw [hvp]; exact hshared) (by rw [hvp]; exact fun _ => hcow) hs
  · cases hs
    have hself := Function.update_self v { m1.vp v with status := (m1.pl c).page, shared := true } m1.vp
    have hb1 := hb.setVp_unheld (v := v) (w := { m1.vp v with status := (m1.pl c).page, shared := true }) hv
    have ha : ((m1.setVp v { m1.vp v with status := (m1.pl c).page, shared := true }).vp v).anon = false := by
      show (Function.update m1.vp v _ v).anon = false
      rw [hself, hvp]
      exact hanon
    have hst : ((m1.setVp v { m1.vp v with status := (m1.pl c).page, shared := true }).vp v).status =
        (m1.pl c).page := by
      show (Function.update m1.vp v _ v).status = (m1.pl c).page
      rw [hself]
    have hadd := hb1.addShare (v := v) hv ⟨hnext ▸ hlt, ?_, ?_, ?_⟩ (fun hat => by rw [ha] at hat; cases hat)
      fun u hu he hat => ?_
    · rw [hst] at hadd
      rw [hans]
      exact hadd
    · rw [Mem.home_of_not_anon ha, hst]
      exact ⟨c, hmem, hlive, rfl⟩
    · rw [ha]
      show (Function.update m1.vp v _ v).shared = true
      rw [hself]
    · intro _
      show (Function.update m1.vp v _ v).cow = false
      rw [hself, hvp]
      exact hcow
    · rw [hst] at he
      rw [hb1.cached_not_anon hmem hlive hu he] at hat
      cases hat

theorem markCow {rwx : Rights} (h : Books phys held m) : Books phys held (m.markCow v rwx) := by
  rw [Mem.markCow]
  split
  · exact h.setRights nofun fun _ hc => by cases hc
  · exact h

theorem attachFresh_lent {b : Page} (h : Books phys held m) (hl : l ∈ m.cache) (hlive : (m.pl l).live = true)
    (hno : m.owner (m.pl l).page = none)
    (hs : (m.setOwner (m.pl l).page (some v)).attachFresh v b = some m') :
    m.attachFresh v b = some (m'.setOwner (m.pl l).page none) := by
  obtain ⟨⟨k, m1⟩, hk, rfl⟩ := Option.map_eq_some_iff.mp hs
  obtain ⟨rest, hfree, rfl⟩ := Mem.getFreePl_eq_some.mp hk
  have hfree' : m.free = k :: rest := hfree
  have hkf : k ∈ m.free := by simp [hfree']
  have hne : (m.pl k).page ≠ (m.pl l).page := fun he => by
    have hkl : k = l := h.links.unique (by simp [hkf]) (by simp [hl]) (h.free_live k hkf) hlive he
    have hd := h.links.nodup
    rw [List.append_assoc, List.nodup_append] at hd
    exact hd.2.2 k hkf l (by simp [hl]) hkl
  have howner : Function.update m.owner (m.pl k).page (some v) =
      Function.update (Function.update (Function.update m.owner (m.pl l).page (some v)) (m.pl k).page (some v))
        (m.pl l).page none := by
    funext q
    by_cases hql : q = (m.pl l).page
    · rw [hql, Function.update_self, Function.update_of_ne hne.symm, hno]
    · by_cases hqk : q = (m.pl k).page
      · rw [hqk, Function.update_self, Function.update_of_ne hne, Function.update_self]
      · rw [Function.update_of_ne hqk, Function.update_of_ne hql, Function.update_of_ne hqk,
          Function.update_of_ne hql]
  rw [Mem.attachFresh, Mem.getFreePl, hfree']
  simp only [Option.map_some, Mem.pushPage, Mem.setOwner, Mem.setVp, Mem.setData, howner]

theorem pfMmapPrivate {page : ℕ} {ans : PfAnswer} (h : Books phys held m) (hv : ¬ held v)
    (hlt : v < m.nextVp) (hmm : mm.anon = true → mm.fsidIno ≠ 0)
    (hshared : (m.vp v).shared = false) (hcow : (m.vp v).cow = false)
    (hs : m.pfMmapPrivate cfg v mm page ans = some m') : Books phys (fun u => held u ∨ u = v) m' := by
  obtain ⟨⟨c, loaded, m1⟩, hc, hs⟩ := Option.bind_eq_some_iff.mp hs
  obtain ⟨m2, hm2, hs⟩ := Option.bind_eq_some_iff.mp hs
  rw [Mem.fetchCachedPage] at hc
  split at hc
  · cases hc
    cases hs
    exact h.attachFresh hv hlt hshared (fun _ => hcow) hm2
  · obtain ⟨⟨c', m3⟩, hl, he⟩ := Option.map_eq_some_iff.mp hc
    cases he
    obtain ⟨_, -, hs⟩ := Option.bind_eq_some_iff.mp hs
    cases hs
    obtain ⟨hb, hmem, hlive, hvp, hnext, -, hno⟩ := h.loadPage hmm hl
    exact hb.attachFresh hv (hnext ▸ hlt) (by rw [hvp]; exact hshared) (by rw [hvp]; exact fun _ => hcow)
      (hb.attachFresh_lent hmem hlive (hb.owner_eq_none hno) hm2)

theorem newVp (h : Books phys held m) (hfresh : ¬ held m.nextVp) (w : Vp) : Books phys held (m.newVp w).2 := by
  have hb := h.setVp_unheld (w := w) hfresh
  exact ⟨hb.links, hb.free_live, hb.dead, hb.key, hb.owner, hb.share, hb.share_nodup, hb.registered,
    hb.exclusive, fun u hu => Nat.lt_succ_of_lt (hb.lt u hu), hb.place, hb.kind, hb.cow, hb.sole⟩

theorem pfMmap {page : ℕ} {rwx : Rights} {ans : PfAnswer} (h : Books phys held m) (hfresh : ¬ held m.nextVp)
    (hmm : mm.anon = true → mm.shared = true → mm.fsidIno ≠ 0) (hans : ans.share = true)
    (hs : m.pfMmap cfg pid mm page rwx ans = some (v, m')) :
    v = m.nextVp ∧ Books phys (fun u => held u ∨ u = v) m' := by
  obtain ⟨m1, hm1, he⟩ := Option.map_eq_some_iff.mp hs
  cases he
  refine ⟨rfl, of_eq ?_⟩
  have hself := Function.update_self m.nextVp (⟨page, mm.rights, false, false, false, 0⟩ : Vp) m.vp
  have h0 := h.newVp hfresh ⟨page, mm.rights, false, false, false, 0⟩
  have hlt : m.nextVp < (m.newVp ⟨page, mm.rights, false, false, false, 0⟩).2.nextVp := Nat.lt_succ_self _
  rw [Mem.pfRepair] at hm1
  split at hm1
  · next hsh =>
    obtain ⟨m2, hm2, rfl⟩ := Option.map_eq_some_iff.mp hm1
    refine (h0.pfMmapShared hfresh hlt (fun ha => ?_) (congrArg Vp.anon hself) (congrArg Vp.shared hself)
      (congrArg Vp.cow hself) hans hm2).markCow
    refine hmm ha (hsh.resolve_right fun hno => ?_)
    rw [ha] at hno
    cases hno.2
  · split at hm1
    · exact h0.attachFresh hfresh hlt (congrArg Vp.shared hself) (fun _ => congrArg Vp.cow hself) hm1
    · next hna =>
      exact h0.pfMmapPrivate hfresh hlt (fun ha => absurd ha hna) (congrArg Vp.shared hself)
        (congrArg Vp.cow hself) hm1

theorem forkPage {cur : ℕ} (dest : ℕ) (h : Books phys held m) (hfresh : ¬ held m.nextVp)
    (hcur : held cur)
    (hcow : (m.vp cur).cow = true ∨ (m.vp cur).rights.w = true) :
    Books phys (fun u => held u ∨ u = m.nextVp) (m.forkPage dest cur true).1 := by
  have hne : cur ≠ m.nextVp := fun he => hfresh (he ▸ hcur)
  have hfc : (m.vp cur).forked.cow = true := by
    rw [Vp.forked, Bool.or_eq_true]
    exact hcow
  obtain ⟨m1, hm1⟩ : ∃ m1, (m.newVp (m.vp cur).forked).2.addPage dest m.nextVp = m1 := ⟨_, rfl⟩
  -- the copy gets its flags before it is entered
  have h1 : Books phys held m1 := by
    rw [← hm1]
    exact (h.newVp hfresh (m.vp cur).forked).of_eq
  have hvp1 : m1.vp = Function.update m.vp m.nextVp (m.vp cur).forked := by rw [← hm1]; rfl
  have hnext : m.nextVp < m1.nextVp := by rw [← hm1]; exact Nat.lt_succ_self _
  have hcur1 : m1.vp cur = m.vp cur := by rw [hvp1, Function.update_of_ne hne]
  -- the page itself becomes copy-on-write if it was not
  obtain ⟨m2, hm2⟩ : ∃ m2, (if (!(m.vp cur).cow && (m.vp cur).rights.w) = true
    then m1.setVp cur (m.vp cur).forked else m1) = m2 := ⟨_, rfl⟩
  have hset : m2.vp cur = (m.vp cur).forked ∨ m2.vp cur = m.vp cur ∧ (m.vp cur).cow = true := by
    rw [← hm2]
    split
    · exact .inl (Function.update_self ..)
    · next hun =>
      refine .inr ⟨hcur1, ?_⟩
      cases hc : (m.vp cur).cow with
      | true => rfl
      | false =>
        rw [hc] at hcow hun
        exact absurd (hcow.resolve_left Bool.false_ne_true) (by simpa using hun)
  have hvp2 : ∀ u, u ≠ cur → m2.vp u = m1.vp u := fun u hu => by
    rw [← hm2]
    split
    · exact Function.update_of_ne hu _ _
    · rfl
  have h2 : Books phys held m2 := by
    rw [← hm2]
    split
    · have hb := h1.setRights (v := cur) (r := (m.vp cur).forked.rights) (c := (m.vp cur).forked.cow)
        nofun fun _ hc => by rw [hfc] at hc; cases hc
      rw [hcur1] at hb
      exact hb
    · exact h1
  have hcow2 : (m2.vp cur).cow = true := by
    cases hset with
    | inl he => rw [he]; exact hfc
    | inr he => rw [he.1]; exact he.2
  have hst2 : (m2.vp cur).status = (m.vp cur).status ∧ (m2.vp cur).anon = (m.vp cur).anon ∧
      (m2.vp cur).shared = (m.vp cur).shared := by
    cases hset with
    | inl he => rw [he]; exact ⟨rfl, rfl, rfl⟩
    | inr he => rw [he.1]; exact ⟨rfl, rfl, rfl⟩
  have hcopy : m2.vp m.nextVp = (m.vp cur).forked := by
    rw [hvp2 _ hne.symm, hvp1, Function.update_self]
  have hnext2 : m.nextVp < m2.nextVp := by
    rw [← hm2]
    split
    · exact hnext
    · exact hnext
  have hready : Ready m2 m.nextVp := by
    refine ⟨hnext2, ?_, ?_, ?_⟩
    · obtain ⟨l, hl, hlive, hp⟩ := h2.place cur hcur
      refine ⟨l, ?_, hlive, ?_⟩
      · rw [Mem.home, hcopy]
        rwa [Mem.home, hst2.2.1] at hl
      · rw [hcopy]
        exact hp.trans hst2.1
    · rw [hcopy]
      exact h.kind cur hcur
    · rw [hcopy]
      exact nofun
  have hadd := h2.addShare hfresh hready (fun _ => by rw [hcopy]; exact hfc) fun u hu he ha => by
    by_cases huc : u = cur
    · rw [huc]
      exact hcow2
    · cases hc : (m2.vp u).cow with
      | true => rfl
      | false =>
        refine absurd (h2.sole_holder hu ha hc hcur ?_) (Ne.symm huc)
        rw [he, hcopy, hst2.1]
        rfl
  rw [hcopy] at hadd
  rw [Mem.forkPage_ok, show m.forkMark dest cur = m2 by rw [← hm2, ← hm1]; rfl]
  exact hadd

end Books

end Sneks.Vm
