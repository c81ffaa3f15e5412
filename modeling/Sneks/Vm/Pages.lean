import Sneks.Vm.Books

/-!
# Taking, freeing and giving up physical pages

The functions of `sys/vm/vm.c` that move a page from one list to another or change who has it
keep the books right.
-/

namespace Sneks.Vm
open Lib

variable {cfg : Config} {phys : List ℕ} {held : ℕ → Prop} {m m' : Mem} {v p l : ℕ}

namespace Mem

theorem pushPage_pl_of_lt {list : Place} {old k : ℕ} (hk : k < m.nextPl) :
    (m.pushPage list old).pl k = m.pl k := Function.update_of_ne (by omega) _ _

theorem pushCachedPage_pl_of_lt {old key off k : ℕ} (hk : k < m.nextPl) :
    (m.pushCachedPage old key off).pl k = m.pl k := Function.update_of_ne (by omega) _ _

theorem getFreePl_eq_some {r : ℕ × Mem} :
    m.getFreePl = some r ↔ ∃ rest, m.free = r.1 :: rest ∧ r.2 = { m with free := rest } := by
  obtain ⟨l, m'⟩ := r
  rw [getFreePl]
  split
  · next he => simp [he]
  · next k rest he =>
    simp only [he, Option.some.injEq, Prod.mk.injEq, List.cons.injEq]
    constructor
    · rintro ⟨rfl, rfl⟩
      exact ⟨rest, ⟨rfl, rfl⟩, rfl⟩
    · rintro ⟨rest', ⟨rfl, rfl⟩, rfl⟩
      exact ⟨rfl, rfl⟩

end Mem

namespace Books

theorem lt_next (h : Books phys held m) {k : ℕ} (hk : k ∈ m.free ++ m.active ++ m.cache) : k < m.nextPl :=
  h.links.lt k hk

theorem takeFresh (h : Books phys held m) {rest : List ℕ} (hfree : m.free = l :: rest) (hv : ¬ held v)
    (hlt : v < m.nextVp) (hst : (m.vp v).status = (m.pl l).page) (hanon : (m.vp v).anon = true)
    (hshared : (m.vp v).shared = false) (hcow : (m.vp v).rights.w = true → (m.vp v).cow = false) :
    Books phys (fun u => held u ∨ u = v)
      (({ m with free := rest }.setOwner (m.pl l).page (some v)).pushPage .active l) := by
  have hl : l ∈ m.free := by simp [hfree]
  have hlive := h.free_live l hl
  have hno : ∀ u, held u → (m.vp u).status ≠ (m.pl l).page := fun u hu => h.free_unheld hl hu
  have howner : ∀ q, (({ m with free := rest }.setOwner (m.pl l).page (some v)).pushPage .active l).owner q =
      if q = (m.pl l).page then some v else m.owner q := fun q => Mem.setOwner_owner ..
  have hheld : ∀ u, held u →
      (({ m with free := rest }.setOwner (m.pl l).page (some v)).pushPage .active l).owner (m.vp u).status =
        m.owner (m.vp u).status := fun u hu => (howner _).trans (if_neg (hno u hu))
  have hself : (({ m with free := rest }.setOwner (m.pl l).page (some v)).pushPage .active l).owner
      (m.vp v).status = some v := (howner _).trans (if_pos hst)
  have hpl : ∀ k < m.nextPl,
      (({ m with free := rest }.setOwner (m.pl l).page (some v)).pushPage .active l).pl k = m.pl k :=
    fun k hk => Mem.pushPage_pl_of_lt hk
  refine ⟨?_, fun k hk => ?_, fun k hk => ?_, fun k hk hk' => ?_, fun q u hou => ?_,
    fun u hu => .inl (h.share u hu), h.share_nodup, ?_, fun u hu hou => ?_, ?_, ?_, ?_, ?_, ?_⟩
  · have hc := h.links
    rw [hfree, List.cons_append, List.cons_append] at hc
    refine (hc.replace (n := { m.pl l with live := true }) hlive rfl rfl).perm ?_
    simp only [Mem.pushPage, Mem.setOwner, if_true, reduceCtorEq, if_false]
    rw [← List.cons_append]
    exact List.perm_middle.symm.append_right _
  · have hkf : k ∈ m.free := by rw [hfree]; exact List.mem_cons_of_mem _ hk
    rw [hpl k (h.lt_next (by simp [hkf]))]
    exact h.free_live k hkf
  · obtain ⟨hd, hkl⟩ := h.dead k hk
    rw [hpl k hkl]
    exact ⟨hd, Nat.lt_succ_of_lt hkl⟩
  · have hkc : k ∈ m.cache := hk
    rw [hpl k (h.lt_next (by simp [hkc]))] at hk' ⊢
    exact h.key k hkc hk'
  · rw [howner] at hou
    split at hou
    · next hq =>
      cases hou
      exact ⟨.inr rfl, hst.trans hq.symm⟩
    · obtain ⟨hu, he⟩ := h.owner q u hou
      exact ⟨.inl hu, he⟩
  · rintro u (hu | rfl)
    · exact (h.registered u hu).imp_left (hheld u hu).trans
    · exact .inl hself
  · exact h.exclusive u hu ((hheld u (h.share u hu)).symm.trans hou)
  · rintro u (hu | rfl)
    exacts [h.lt u hu, hlt]
  · rintro u (hu | rfl)
    · obtain ⟨k, hk, hklive, hkp⟩ := h.place u hu
      refine ⟨k, ?_, ?_, ?_⟩
      · rw [Mem.home] at hk ⊢
        split at hk
        · next ha => exact (if_pos ha).symm ▸ List.mem_cons_of_mem _ hk
        · next ha => exact (if_neg ha).symm ▸ hk
      · rw [hpl k (h.lt_next (Mem.home_subset _ k hk))]
        exact hklive
      · rw [hpl k (h.lt_next (Mem.home_subset _ k hk))]
        exact hkp
    · refine ⟨m.nextPl, ?_, ?_, ?_⟩
      · show m.nextPl ∈ Mem.home _ (m.vp u)
        rw [Mem.home_of_anon hanon]
        exact List.mem_cons_self
      · simp [Mem.pushPage, Mem.setOwner]
      · simpa [Mem.pushPage, Mem.setOwner] using hst.symm
  · rintro u (hu | rfl)
    · exact h.kind u hu
    · show (m.vp u).shared = !(m.vp u).anon
      rw [hshared, hanon]
      rfl
  · rintro u (hu | rfl)
    exacts [h.cow u hu, hcow]
  · rintro u (hu | rfl) ha hc
    · obtain ⟨hou, hs⟩ := h.sole u hu ha hc
      exact ⟨(hheld u hu).trans hou, hs⟩
    · exact ⟨hself, h.hasShares_eq_false fun w hw => hst ▸ hno w hw⟩

theorem attachFresh {b : Page} (h : Books phys held m) (hv : ¬ held v) (hlt : v < m.nextVp)
    (hshared : (m.vp v).shared = false) (hcow : (m.vp v).rights.w = true → (m.vp v).cow = false)
    (hs : m.attachFresh v b = some m') : Books phys (fun u => held u ∨ u = v) m' := by
  obtain ⟨⟨l, m1⟩, hl, rfl⟩ := Option.map_eq_some_iff.mp hs
  obtain ⟨rest, hfree, rfl⟩ := Mem.getFreePl_eq_some.mp hl
  have h1 : Books phys held (m.setVp v { m.vp v with status := (m.pl l).page, anon := true }) :=
    h.setVp_unheld hv
  have hself : (m.setVp v { m.vp v with status := (m.pl l).page, anon := true }).vp v =
      { m.vp v with status := (m.pl l).page, anon := true } := Function.update_self ..
  exact (h1.takeFresh hfree hv hlt (by rw [hself]; rfl) (by rw [hself]) (by rw [hself]; exact hshared)
    (by rw [hself]; exact hcow)).of_eq

theorem pushCached {rest : List ℕ} {key off : ℕ} (h : Books phys held m) (hfree : m.free = l :: rest)
    (hkey : key ≠ 0) : Books phys held ({ m with free := rest }.pushCachedPage l key off) := by
  have hl : l ∈ m.free := by simp [hfree]
  have hpl : ∀ k < m.nextPl, ({ m with free := rest }.pushCachedPage l key off).pl k = m.pl k :=
    fun k hk => Mem.pushCachedPage_pl_of_lt hk
  refine ⟨?_, fun k hk => ?_, fun k hk => ?_, fun k hk hk' => ?_, h.owner, h.share, h.share_nodup,
    h.registered, h.exclusive, h.lt, fun u hu => ?_, h.kind, h.cow, h.sole⟩
  · have hc := h.links
    rw [hfree, List.cons_append, List.cons_append] at hc
    exact (hc.replace (n := ⟨(m.pl l).page, true, key, off⟩) (h.free_live l hl) rfl rfl).perm
      List.perm_middle.symm
  · have hkf : k ∈ m.free := by rw [hfree]; exact List.mem_cons_of_mem _ hk
    rw [hpl k (h.lt_next (by simp [hkf]))]
    exact h.free_live k hkf
  · obtain ⟨hd, hkl⟩ := h.dead k hk
    rw [hpl k hkl]
    exact ⟨hd, Nat.lt_succ_of_lt hkl⟩
  · cases List.mem_cons.mp hk with
    | inl hk => simpa [hk, Mem.pushCachedPage] using hkey
    | inr hk =>
      rw [hpl k (h.lt_next (by simp [hk]))] at hk' ⊢
      exact h.key k hk hk'
  · obtain ⟨k, hk, hklive, hkp⟩ := h.place u hu
    refine ⟨k, ?_, ?_, ?_⟩
    · rw [Mem.home] at hk ⊢
      split at hk
      · next ha => exact (if_pos ha).symm ▸ hk
      · next ha => exact (if_neg ha).symm ▸ List.mem_cons_of_mem _ hk
    · rw [hpl k (h.lt_next (Mem.home_subset _ k hk))]
      exact hklive
    · rw [hpl k (h.lt_next (Mem.home_subset _ k hk))]
      exact hkp

theorem freePage (h : Books phys held m) (hl : l ∈ m.active ++ m.cache) (hlive : (m.pl l).live = true)
    (hno : ∀ v, held v → (m.vp v).status ≠ (m.pl l).page) : Books phys held (m.freePage l) := by
  have hlall : l ∈ m.free ++ m.active ++ m.cache := by
    rw [List.append_assoc]
    exact List.mem_append_right _ hl
  have hlfree : l ∉ m.free := fun hf => by
    have hd := h.links.nodup
    rw [List.append_assoc, List.nodup_append] at hd
    exact hd.2.2 l hf l hl rfl
  have hpl : ∀ k, k < m.nextPl → (m.freePage l).pl k =
      if k = l then { m.pl l with live := false } else m.pl k := fun k hk => by
    simp [Mem.freePage, Mem.pushPage, Function.update_apply, Nat.ne_of_lt hk]
  refine ⟨?_, fun k hk => ?_, fun k hk => ?_, fun k hk hk' => ?_, h.owner, h.share, h.share_nodup,
    h.registered, h.exclusive, h.lt, fun u hu => ?_, h.kind, h.cow, h.sole⟩
  · have hc := h.links.renew (n := { m.pl l with live := true }) hlall hlive rfl rfl
    simpa [Mem.freePage, Mem.pushPage] using hc
  · cases List.mem_cons.mp (show k ∈ m.nextPl :: m.free from hk) with
    | inl hk => simp [hk, Mem.freePage, Mem.pushPage]
    | inr hk =>
      rw [hpl k (h.lt_next (by simp [hk])), if_neg (fun he : k = l => hlfree (he ▸ hk))]
      exact h.free_live k hk
  · cases List.mem_cons.mp (show k ∈ l :: m.plbuf from hk) with
    | inl hk =>
      rw [hk, hpl l (h.lt_next hlall), if_pos rfl]
      exact ⟨rfl, Nat.lt_succ_of_lt (h.lt_next hlall)⟩
    | inr hk =>
      obtain ⟨hd, hkl⟩ := h.dead k hk
      rw [hpl k hkl]
      refine ⟨?_, Nat.lt_succ_of_lt hkl⟩
      split
      · rfl
      · exact hd
  · have hkc : k ∈ m.cache := hk
    rw [hpl k (h.lt_next (by simp [hkc]))] at hk' ⊢
    split at hk'
    · cases hk'
    · next hkl =>
      rw [if_neg hkl]
      exact h.key k hkc hk'
  · obtain ⟨k, hk, hklive, hkp⟩ := h.place u hu
    have hkl : k ≠ l := fun he => hno u hu (by rw [← hkp, he])
    refine ⟨k, hk, ?_, ?_⟩
    · rw [hpl k (h.lt_next (Mem.home_subset _ k hk)), if_neg hkl]
      exact hklive
    · rw [hpl k (h.lt_next (Mem.home_subset _ k hk)), if_neg hkl]
      exact hkp

theorem flushPlbuf (h : Books phys held m) : Books phys held m.flushPlbuf := by
  have hkeep : ∀ k ∈ m.active, (m.pl k).live = true → k ∈ m.active.filter (· ∉ m.plbuf) := fun k hk hlive => by
    refine List.mem_filter.mpr ⟨hk, decide_eq_true fun hb => ?_⟩
    rw [(h.dead k hb).1] at hlive
    cases hlive
  refine ⟨?_, h.free_live, nofun, h.key, h.owner, h.share, h.share_nodup, h.registered, h.exclusive, h.lt,
    fun u hu => ?_, h.kind, h.cow, h.sole⟩
  · refine h.links.sublist ((List.filter_sublist.append_left _).append_right _) fun k hk hlive => ?_
    simp only [List.mem_append] at hk ⊢
    exact hk.imp_left fun hk => hk.imp_right fun hk => hkeep k hk hlive
  · obtain ⟨k, hk, hklive, hkp⟩ := h.place u hu
    refine ⟨k, ?_, hklive, hkp⟩
    rw [Mem.home] at hk ⊢
    split at hk
    · next ha => exact (if_pos ha).symm ▸ hkeep k hk hklive
    · next ha => exact (if_neg ha).symm ▸ hk

theorem removeVp (h : Books phys held m) (hv : held v) (hs : m.removeVp cfg v = some m') :
    Books phys (fun u => held u ∧ u ≠ v) m' := by
  obtain ⟨l, hl, hlink, hlive, hp⟩ := h.link_home hv
  rw [Mem.removeVp] at hs
  simp only [hlink, Option.bind_eq_bind, Option.bind_some] at hs
  split at hs
  · next hpriv =>
    obtain ⟨_, -, hs⟩ := Option.bind_eq_some_iff.mp hs
    obtain ⟨_, -, hs⟩ := Option.bind_eq_some_iff.mp hs
    cases hs
    -- a cached page has a key, so this one is anonymous
    have ha : (m.vp v).anon = true := by
      cases ha : (m.vp v).anon with
      | true => rfl
      | false =>
        rw [Mem.home_of_not_anon ha] at hl
        exact absurd hpriv.1 (h.key l hl hlive)
    rw [Mem.home_of_anon ha] at hl
    have hb := h.dropOwner (h.sole v hv ha hpriv.2).1
    have hf := hb.freePage (l := l) (by simp [Mem.setOwner, hl]) hlive fun u hu he =>
      hu.2 (h.sole_holder hv ha hpriv.2 hu.1 (he.trans hp))
    have he : ({ m with link := Function.update m.link (m.vp v).status none,
                        owner := Function.update m.owner (m.vp v).status none } : Mem).freePage l =
        (m.setOwner (m.vp v).status none).freePage l := by
      simp [Mem.freePage, Mem.pushPage, Mem.setOwner, hp]
    rw [he]
    exact hf
  · obtain ⟨⟨m1, last⟩, hr, hs⟩ := Option.bind_eq_some_iff.mp hs
    cases hs
    obtain ⟨hb, hlast, hvp, hpl, -, -, hactive, hcache, -⟩ := h.rmShare hv hr
    split
    · next hla =>
      rw [Bool.and_eq_true] at hla
      rw [hvp] at hla
      rw [Mem.home_of_anon hla.2] at hl
      refine hb.freePage (by simp [hactive, hl]) (by rw [hpl]; exact hlive) fun u hu he => ?_
      rw [hpl, hp] at he
      exact hlast hla.1 u hu he
    · exact hb

theorem pfCow (h : Books phys held m) (hv : held v) (hs : m.pfCow cfg v = some m') : Books phys held m' := by
  have hback : ∀ u, (held u ∧ u ≠ v) ∨ u = v ↔ held u := fun u => by
    by_cases huv : u = v
    · simp [huv, hv]
    · simp [huv]
  have hheld : ∀ u, held u ↔ (held u ∧ u ≠ v) ∨ u = v := fun u => (hback u).symm
  rw [Mem.pfCow] at hs
  obtain ⟨_, -, hs⟩ := Option.bind_eq_some_iff.mp hs
  obtain ⟨_, -, hs⟩ := Option.bind_eq_some_iff.mp hs
  obtain ⟨m1, hm1, hs⟩ := Option.bind_eq_some_iff.mp hs
  rw [Mem.dropSecondary] at hm1
  split at hm1
  · next ho =>
    cases hm1
    split at hs
    · next hc =>
      obtain ⟨_, -, hs⟩ := Option.bind_eq_some_iff.mp hs
      cases hs
      have he : m.setOwner (m.vp v).status (some v) = m := by
        rw [Mem.setOwner, ← ho, Function.update_eq_self]
      rw [he]
      exact h.setRights (fun _ => rfl) fun _ _ => ⟨ho, hc.2.2⟩
    · have hself := Function.update_self v (m.vp v).copied m.vp
      exact (((h.dropOwner ho).setVp_unheld fun hvv => hvv.2 rfl).attachFresh (fun hvv => hvv.2 rfl)
        (h.lt v hv) (congrArg Vp.shared hself) (fun _ => congrArg Vp.cow hself) hs).congr hheld
  · next ho =>
    split at hm1
    · next hvs =>
      cases hm1
      have hb := h.dropShare hvs
      split at hs
      · next hc =>
        obtain ⟨_, -, hs⟩ := Option.bind_eq_some_iff.mp hs
        cases hs
        have hnone : m.owner (m.vp v).status = none := hc.1.resolve_right ho
        have hb1 := hb.setVp_unheld (v := v) (w := (m.vp v).owned) fun hvv => hvv.2 rfl
        have hself := Function.update_self v (m.vp v).owned m.vp
        have hno : ∀ u, held u ∧ u ≠ v →
            (({ m with shareTable := m.shareTable.erase v }.setVp v (m.vp v).owned).vp u).status ≠
              (m.vp v).status := fun u hu => by
          show (Function.update m.vp v (m.vp v).owned u).status ≠ (m.vp v).status
          rw [Function.update_of_ne hu.2]
          exact hb.unheld hnone hc.2.2 hu
        have hst : (({ m with shareTable := m.shareTable.erase v }.setVp v (m.vp v).owned).vp v).status =
            (m.vp v).status := by
          show (Function.update m.vp v (m.vp v).owned v).status = (m.vp v).status
          rw [hself]
          rfl
        have ht := hb1.takeOwner (v := v) (fun hvv => hvv.2 rfl)
          ⟨h.lt v hv, ?_, ?_, fun _ => congrArg Vp.cow hself⟩ (by rw [hst]; exact hnone)
          fun _ _ => by rw [hst]; exact hb1.hasShares_eq_false hno
        · rw [hst] at ht
          exact ht.congr hheld
        · show ∃ l ∈ Mem.home _ (Function.update m.vp v (m.vp v).owned v), _ ∧
            _ = (Function.update m.vp v (m.vp v).owned v).status
          rw [hself]
          exact h.place v hv
        · show (Function.update m.vp v (m.vp v).owned v).shared = !(Function.update m.vp v (m.vp v).owned v).anon
          rw [hself]
          exact h.kind v hv
      · have hself := Function.update_self v (m.vp v).copied m.vp
        exact ((hb.setVp_unheld fun hvv => hvv.2 rfl).attachFresh (fun hvv => hvv.2 rfl)
          (h.lt v hv) (congrArg Vp.shared hself) (fun _ => congrArg Vp.cow hself) hs).congr hheld
    · cases hm1

end Books

end Sneks.Vm
