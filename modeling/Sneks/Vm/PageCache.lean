import Mathlib.Data.List.Find
import Sneks.Lib.Chains
import Sneks.Vm.Cache
import Sneks.Vm.Conservation
import Sneks.Vm.Freeing

/-!
# Keys of the page cache

A page is known in the cache by a file server, an inode and a page offset. `push_cached_page` takes the
server and the inode packed into `fsid_ino`, and `find_cached_page` from the fields of a mapping: both
come to one bucket, and a link is found for its own key while it is live.
-/

namespace Sneks.Vm
open Lib

variable {cfg : Config} {phys : PhysMem} {s t : State} {m m' : Mem} {mm : LazyMmap} {bump l pid i : ℕ}

-- Keys

structure PageKey where
  fsid : ℕ
  ino : ℕ
  offset : ℕ
  deriving DecidableEq, Repr

def PageKey.hash (k : PageKey) : ℕ :=
  hashCachedPage k.offset (word (k.fsid <<< 16) ||| (k.ino >>> 32) % 2 ^ 16) (k.ino % 2 ^ 32)

def Pl.key (l : Pl) : PageKey := ⟨l.fsid, l.ino, l.offset⟩

def LazyMmap.key (mm : LazyMmap) (bump : ℕ) : PageKey := ⟨pidof mm.fdServ, mm.ino, word (mm.offset + bump)⟩

/-- The server and the inode of the mapping fit into `fsid_ino`. -/
def LazyMmap.Fits (mm : LazyMmap) : Prop := pidof mm.fdServ < 2 ^ 16 ∧ mm.ino < 2 ^ 48

instance (mm : LazyMmap) : Decidable mm.Fits := inferInstanceAs (Decidable (_ ∧ _))

theorem LazyMmap.isAt_iff {l : Pl} : mm.isAt bump l ↔ l.live = true ∧ l.key = mm.key bump := by
  rw [LazyMmap.isAt, Pl.key, LazyMmap.key, PageKey.mk.injEq]
  tauto

theorem packed_words {fsid ino : ℕ} (hfsid : fsid < 2 ^ 16) (hino : ino < 2 ^ 48) :
    (fsid * 2 ^ 48 + ino) >>> 32 = (word (fsid <<< 16) ||| (ino >>> 32) % 2 ^ 16) := by
  have hhigh : ino >>> 32 < 2 ^ 16 := by
    rw [Nat.shiftRight_eq_div_pow]
    omega
  have hword : word (fsid <<< 16) = fsid <<< 16 := by
    rw [word, Nat.shiftLeft_eq]
    omega
  rw [hword, Nat.mod_eq_of_lt hhigh, ← Nat.shiftLeft_add_eq_or_of_lt hhigh, Nat.shiftRight_eq_div_pow,
    Nat.shiftRight_eq_div_pow, Nat.shiftLeft_eq]
  omega

theorem Pl.hash_eq {l : Pl} (h : l.fsidIno < 2 ^ 64) : l.hash = l.key.hash := by
  have hsplit : l.fsid * 2 ^ 48 + l.ino = l.fsidIno := Nat.div_add_mod' l.fsidIno (2 ^ 48)
  have hfsid : l.fsid < 2 ^ 16 := Nat.div_lt_of_lt_mul (by omega)
  have hino : l.ino < 2 ^ 48 := Nat.mod_lt _ (by decide)
  have hlow : l.fsidIno % 2 ^ 32 = l.ino % 2 ^ 32 := by
    rw [Pl.ino]
    omega
  show hashCachedPage l.offset (l.fsidIno >>> 32) (l.fsidIno % 2 ^ 32) = hashCachedPage l.offset _ (l.ino % 2 ^ 32)
  rw [hlow]
  nth_rewrite 1 [← hsplit]
  rw [packed_words hfsid hino]
  rfl

namespace LazyMmap

theorem fsidIno_lt (mm : LazyMmap) : mm.fsidIno < 2 ^ 64 := by
  rw [fsidIno]
  omega

theorem hash_pushed (mm : LazyMmap) (bump p : ℕ) :
    (⟨p, true, mm.fsidIno, word (mm.offset + bump)⟩ : Pl).hash = hashLazyMmap mm bump := by
  have hfsid : pidof mm.fdServ % 2 ^ 16 < 2 ^ 16 := Nat.mod_lt _ (by decide)
  have hino : mm.ino % 2 ^ 48 < 2 ^ 48 := Nat.mod_lt _ (by decide)
  have hserv : word ((pidof mm.fdServ % 2 ^ 16) <<< 16) = word (pidof mm.fdServ <<< 16) := by
    rw [word, word, Nat.shiftLeft_eq, Nat.shiftLeft_eq]
    omega
  have hhigh : (mm.ino % 2 ^ 48) >>> 32 % 2 ^ 16 = mm.ino >>> 32 % 2 ^ 16 := by
    rw [Nat.shiftRight_eq_div_pow, Nat.shiftRight_eq_div_pow]
    omega
  have hlow : mm.fsidIno % 2 ^ 32 = mm.ino % 2 ^ 32 := by
    rw [fsidIno]
    omega
  show hashCachedPage _ (mm.fsidIno >>> 32) (mm.fsidIno % 2 ^ 32) = hashCachedPage _ _ _
  rw [hlow, fsidIno, packed_words hfsid hino, hserv, hhigh]

theorem key_pushed (h : mm.Fits) (bump p : ℕ) :
    (⟨p, true, mm.fsidIno, word (mm.offset + bump)⟩ : Pl).key = mm.key bump := by
  obtain ⟨hpid, hino⟩ := h
  have hfsid : mm.fsidIno / 2 ^ 48 = pidof mm.fdServ := by
    rw [fsidIno]
    omega
  have hmod : mm.fsidIno % 2 ^ 48 = mm.ino := by
    rw [fsidIno]
    omega
  show PageKey.mk (mm.fsidIno / 2 ^ 48) (mm.fsidIno % 2 ^ 48) _ = PageKey.mk _ _ _
  rw [hfsid, hmod]

theorem fits_of_asserted (hfsid : mm.fsidIno / 2 ^ 48 = pidof mm.fdServ) (hino : mm.fsidIno % 2 ^ 48 = mm.ino) :
    mm.Fits := by
  have hlt := mm.fsidIno_lt
  refine ⟨?_, ?_⟩
  · rw [← hfsid]
    omega
  · rw [← hino]
    omega

end LazyMmap

namespace Mem

-- Buckets

def bucket (cfg : Config) (m : Mem) (b : ℕ) : List ℕ := m.cache.filter fun l => cfg.bucket (m.pl l).hash = b

/-- `find_cached_page`, after the top of the bucket that it leaves in `*top_p`. -/
def lookup (cfg : Config) (m : Mem) (mm : LazyMmap) (bump : ℕ) : Option ℕ × Option ℕ :=
  ((m.bucket cfg (cfg.bucket (hashLazyMmap mm bump))).head?, m.findCachedPage cfg mm bump)

/-- `push_cached_page`, and whether it made a link. What came into the bucket since the lookup is
    compared with the new link, whether it is live or not. -/
def pushUnder (cfg : Config) (m : Mem) (lookupTop : Option ℕ) (oldlink fsidIno offset : ℕ) : ℕ × Bool × Mem :=
  let nl : Pl := ⟨(m.pl oldlink).page, true, fsidIno, offset⟩
  match (newer (m.bucket cfg (cfg.bucket nl.hash)) lookupTop).find? fun l =>
      (m.pl l).fsidIno = fsidIno ∧ (m.pl l).offset = offset with
  | some cand => (cand, false, m)
  | none => (m.nextPl, true, m.pushCachedPage oldlink fsidIno offset)

theorem pushUnder_lookup (m : Mem) (mm : LazyMmap) (bump oldlink : ℕ) :
    m.pushUnder cfg (m.lookup cfg mm bump).1 oldlink mm.fsidIno (word (mm.offset + bump)) =
      (m.nextPl, true, m.pushCachedPage oldlink mm.fsidIno (word (mm.offset + bump))) := by
  have htop : newer (m.bucket cfg (cfg.bucket (⟨(m.pl oldlink).page, true, mm.fsidIno, word (mm.offset + bump)⟩ : Pl).hash))
      (m.lookup cfg mm bump).1 = [] := by
    rw [LazyMmap.hash_pushed]
    exact newer_head? _
  rw [pushUnder, htop]
  rfl

-- What is kept

def chains (m : Mem) : Chains ℕ PageKey := ⟨m.cache, fun l => (m.pl l).key, fun l => (m.pl l).live⟩

structure Keyed (m : Mem) : Prop where
  lt : ∀ l ∈ m.cache, l < m.nextPl
  packed : ∀ l ∈ m.cache, (m.pl l).live = true → (m.pl l).fsidIno < 2 ^ 64
  one : m.chains.Keyed

theorem Keyed.findCachedPage_eq (h : m.Keyed) (cfg : Config) (mm : LazyMmap) (bump : ℕ) :
    m.findCachedPage cfg mm bump = m.chains.find (fun k => cfg.bucket k.hash) (mm.key bump) := by
  rw [findCachedPage, Chains.find, Chains.chain, List.find?_filter, List.find?_filter]
  refine List.find?_congr fun l hl => decide_eq_decide.mpr ?_
  rw [decide_eq_true_iff, decide_eq_true_iff, decide_eq_true_iff, decide_eq_true_iff, LazyMmap.isAt_iff]
  refine and_congr_left fun hkey => ?_
  rw [Pl.hash_eq (h.packed l hl hkey.1)]
  rfl

theorem Keyed.findCachedPage_eq_some_iff (h : m.Keyed) :
    m.findCachedPage cfg mm bump = some l ↔ l ∈ m.cache ∧ (m.pl l).live = true ∧ (m.pl l).key = mm.key bump := by
  rw [h.findCachedPage_eq]
  exact h.one.find_eq_some_iff

structure Keeps (m m' : Mem) : Prop where
  cache : m'.cache = m.cache
  next : m.nextPl ≤ m'.nextPl
  pl : ∀ l < m.nextPl, m'.pl l = m.pl l

structure Ages (m m' : Mem) : Prop where
  cache : m'.cache = m.cache
  next : m.nextPl ≤ m'.nextPl
  pl : ∀ l < m.nextPl, m'.pl l = m.pl l ∨ (m'.pl l).live = false

/-- The page at `bump` of a mapping, which was looked up in vain, is added to the cache. -/
structure Loads (cfg : Config) (mm : LazyMmap) (bump : ℕ) (m m' : Mem) : Prop where
  missed : m.findCachedPage cfg mm bump = none
  cache : m'.cache = m.nextPl :: m.cache
  next : m.nextPl < m'.nextPl
  pl : ∀ l < m.nextPl, m'.pl l = m.pl l
  new : ∃ p, m'.pl m.nextPl = ⟨p, true, mm.fsidIno, word (mm.offset + bump)⟩
  fits : cfg.asserts = true → mm.Fits

structure Later (m m' : Mem) : Prop where
  cache : m.cache ⊆ m'.cache
  next : m.nextPl ≤ m'.nextPl
  pl : ∀ l < m.nextPl, m'.pl l = m.pl l ∨ (m'.pl l).live = false

namespace Later

theorem refl (m : Mem) : m.Later m := ⟨List.Subset.refl _, Nat.le_refl _, fun _ _ => .inl rfl⟩

theorem trans {m'' : Mem} (h : m.Later m') (h' : m'.Later m'') : m.Later m'' := by
  refine ⟨fun _ hl => h'.cache (h.cache hl), Nat.le_trans h.next h'.next, fun l hl => ?_⟩
  obtain he | hdead := h'.pl l (Nat.lt_of_lt_of_le hl h.next)
  · rw [he]
    exact h.pl l hl
  · exact .inr hdead

theorem live (h : m.Later m') (hl : l < m.nextPl) (hlive : (m'.pl l).live = true) : m'.pl l = m.pl l :=
  (h.pl l hl).resolve_right fun hdead => Bool.false_ne_true (hdead.symm.trans hlive)

theorem dead (h : m.Later m') (hl : l < m.nextPl) (hdead : (m.pl l).live = false) : (m'.pl l).live = false := by
  obtain he | hd := h.pl l hl
  · rw [he, hdead]
  · exact hd

end Later

theorem Ages.later (h : m.Ages m') : m.Later m' := ⟨h.cache.symm ▸ List.Subset.refl _, h.next, h.pl⟩

theorem Ages.trans {m'' : Mem} (h : m.Ages m') (h' : m'.Ages m'') : m.Ages m'' :=
  ⟨h'.cache.trans h.cache, Nat.le_trans h.next h'.next, (h.later.trans h'.later).pl⟩

theorem Loads.later (h : m.Loads cfg mm bump m') : m.Later m' where
  cache := h.cache ▸ List.subset_cons_self _ _
  next := Nat.le_of_lt h.next
  pl l hl := .inl (h.pl l hl)

theorem Frees.ages (h : m.Frees m') : m.Ages m' := ⟨h.cache, h.next, h.pl⟩

theorem Keeps.ages (h : m.Keeps m') : m.Ages m' := ⟨h.cache, h.next, fun l hl => .inl (h.pl l hl)⟩

theorem Keeps.refl (m : Mem) : m.Keeps m := ⟨rfl, Nat.le_refl _, fun _ _ => rfl⟩

theorem Keeps.trans {m'' : Mem} (h : m.Keeps m') (h' : m'.Keeps m'') : m.Keeps m'' :=
  ⟨h'.cache.trans h.cache, Nat.le_trans h.next h'.next,
    fun l hl => (h'.pl l (Nat.lt_of_lt_of_le hl h.next)).trans (h.pl l hl)⟩

theorem Loads.keeps {m'' : Mem} (h : m.Loads cfg mm bump m') (h' : m'.Keeps m'') : m.Loads cfg mm bump m'' := by
  obtain ⟨p, hp⟩ := h.new
  refine ⟨h.missed, h'.cache.trans h.cache, Nat.lt_of_lt_of_le h.next h'.next, fun l hl => ?_, ⟨p, ?_⟩, h.fits⟩
  · exact (h'.pl l (Nat.lt_trans hl h.next)).trans (h.pl l hl)
  · exact (h'.pl _ h.next).trans hp

theorem Keyed.ages (h : m.Keyed) (ha : m.Ages m') : m'.Keyed := by
  have hlive : ∀ l ∈ m.cache, (m'.pl l).live = true → m'.pl l = m.pl l := fun l hl hlive => ha.later.live (h.lt l hl) hlive
  refine ⟨fun l hl => ?_, fun l hl hl' => ?_, h.one.fade ha.cache fun l hl hl' => ?_⟩
  · exact Nat.lt_of_lt_of_le (h.lt l (ha.cache ▸ hl)) ha.next
  · have he := hlive l (ha.cache ▸ hl) hl'
    rw [he] at hl' ⊢
    exact h.packed l (ha.cache ▸ hl) hl'
  · have he := hlive l hl hl'
    exact ⟨(congrArg Pl.live he).symm.trans hl', congrArg Pl.key he⟩

theorem Keyed.loads (h : m.Keyed) (hl : m.Loads cfg mm bump m') (hfits : mm.Fits) : m'.Keyed := by
  obtain ⟨p, hp⟩ := hl.new
  have hold : ∀ l ∈ m.cache, m'.pl l = m.pl l := fun l hmem => hl.pl l (h.lt l hmem)
  have hkey : m'.chains.key m.nextPl = mm.key bump := by
    show (m'.pl m.nextPl).key = mm.key bump
    rw [hp]
    exact LazyMmap.key_pushed hfits bump p
  have hmissed : m.chains.find (fun k => cfg.bucket k.hash) (m'.chains.key m.nextPl) = none := by
    rw [hkey, ← h.findCachedPage_eq]
    exact hl.missed
  refine ⟨fun l hmem => ?_, fun l hmem hlive => ?_, h.one.push hl.cache (fun l hmem hlive => ?_) hmissed⟩
  · rw [hl.cache] at hmem
    obtain rfl | hmem := List.mem_cons.mp hmem
    · exact hl.next
    · exact Nat.lt_trans (h.lt l hmem) hl.next
  · rw [hl.cache] at hmem
    obtain rfl | hmem := List.mem_cons.mp hmem
    · rw [hp]
      exact mm.fsidIno_lt
    · rw [hold l hmem] at hlive ⊢
      exact h.packed l hmem hlive
  · have he := hold l hmem
    exact ⟨(congrArg Pl.live he).symm.trans hlive, congrArg Pl.key he⟩

-- What the calls do to the cache

theorem attachFresh_keeps {v : ℕ} {b : Page} (hs : m.attachFresh v b = some m') : m.Keeps m' := by
  obtain ⟨⟨l, m1⟩, hl, rfl⟩ := Option.map_eq_some_iff.mp hs
  obtain ⟨rest, -, rfl⟩ := getFreePl_eq_some.mp hl
  exact ⟨rfl, Nat.le_succ _, fun k hk => Function.update_of_ne (Nat.ne_of_lt hk) _ _⟩

theorem addShare_keeps (m : Mem) (p v : ℕ) (ok : Bool) : m.Keeps (m.addShare p v ok).1 := by
  rw [addShare]
  split
  · exact ⟨rfl, Nat.le_refl _, fun _ _ => rfl⟩
  · split <;> exact ⟨rfl, Nat.le_refl _, fun _ _ => rfl⟩

theorem markCow_keeps (m : Mem) (v : ℕ) (rwx : Rights) : m.Keeps (m.markCow v rwx) := by
  rw [markCow]
  split <;> exact ⟨rfl, Nat.le_refl _, fun _ _ => rfl⟩

theorem pfCow_keeps {v : ℕ} (hs : m.pfCow cfg v = some m') : m.Keeps m' := by
  obtain ⟨_, -, hs⟩ := Option.bind_eq_some_iff.mp hs
  obtain ⟨_, -, hs⟩ := Option.bind_eq_some_iff.mp hs
  obtain ⟨m1, hm1, hs⟩ := Option.bind_eq_some_iff.mp hs
  have hdrop : m.Keeps m1 := by
    rw [dropSecondary] at hm1
    split at hm1
    · cases hm1
      exact .refl m
    · split at hm1
      · cases hm1
        exact ⟨rfl, Nat.le_refl _, fun _ _ => rfl⟩
      · cases hm1
  refine hdrop.trans ?_
  split at hs
  · obtain ⟨_, -, hs⟩ := Option.bind_eq_some_iff.mp hs
    cases hs
    exact ⟨rfl, Nat.le_refl _, fun _ _ => rfl⟩
  · refine Keeps.trans ?_ (attachFresh_keeps hs)
    split <;> exact ⟨rfl, Nat.le_refl _, fun _ _ => rfl⟩

theorem forkPage_keeps (m : Mem) (dest cur : ℕ) (share : Bool) : m.Keeps (m.forkPage dest cur share).1 := by
  have hmark : m.Keeps (m.forkMark dest cur) := by
    simp only [forkMark]
    split <;> exact ⟨rfl, Nat.le_refl _, fun _ _ => rfl⟩
  have hshare := hmark.trans (addShare_keeps (m.forkMark dest cur) (m.vp cur).status m.nextVp share)
  simp only [forkPage]
  split
  · next m1 he =>
    rw [he] at hshare
    exact hshare
  · next m1 he =>
    rw [he] at hshare
    split <;> exact ⟨hshare.cache, hshare.next, hshare.pl⟩

theorem forkPages_keeps {dest : ℕ} {ans : ForkAnswer} {copy ok : Bool} {order : List ℕ}
    (hs : forkPages cfg dest ans copy order m = some (m', ok)) : m.Keeps m' := by
  induction order generalizing copy m with
  | nil =>
    cases hs
    exact .refl _
  | cons cur rest ih =>
    rw [forkPages] at hs
    obtain ⟨_, -, hs⟩ := Option.bind_eq_some_iff.mp hs
    split at hs
    · cases hs
      exact .refl _
    split at hs
    · exact ih hs
    split at hs
    · cases hs
    split at hs
    · cases hs
      exact .refl _
    have hpage := forkPage_keeps m dest cur (ans.share cur)
    split at hs
    · next m1 he =>
      cases hs
      rw [he] at hpage
      exact hpage
    · next m1 he =>
      rw [he] at hpage
      exact hpage.trans (ih hs)

theorem loadPage_pushes {off c : ℕ} {ans : PfAnswer} (hs : m.loadPage cfg mm bump off ans = some (c, m')) :
    ∃ (link : ℕ) (m1 : Mem), m1.cache = m.cache ∧ m1.pl = m.pl ∧ m1.nextPl = m.nextPl ∧ (cfg.asserts = true → mm.Fits) ∧
      m1.pushUnder cfg (m.lookup cfg mm bump).1 link mm.fsidIno (word (mm.offset + bump)) = (c, true, m') := by
  obtain ⟨⟨link, m1⟩, hl, hs⟩ := Option.bind_eq_some_iff.mp hs
  obtain ⟨rest, -, rfl⟩ := getFreePl_eq_some.mp hl
  obtain ⟨bytes, -, hs⟩ := Option.bind_eq_some_iff.mp hs
  obtain ⟨_, hfsid, hs⟩ := Option.bind_eq_some_iff.mp hs
  obtain ⟨_, hino, hs⟩ := Option.bind_eq_some_iff.mp hs
  cases hs
  refine ⟨link, { m with free := rest }.setData (m.pl link).page (pageOf bytes), rfl, rfl, rfl, fun ha => ?_, ?_⟩
  · exact LazyMmap.fits_of_asserted (Config.assert_eq_some hfsid ha) (Config.assert_eq_some hino ha)
  · exact pushUnder_lookup ({ m with free := rest }.setData (m.pl link).page (pageOf bytes)) mm bump link

theorem lookup_congr {m1 : Mem} (hcache : m1.cache = m.cache) (hpl : m1.pl = m.pl) (cfg : Config) (mm : LazyMmap) (bump : ℕ) :
    m1.lookup cfg mm bump = m.lookup cfg mm bump := by
  simp only [lookup, bucket, findCachedPage, hcache, hpl]

theorem loadPage_loads {off c : ℕ} {ans : PfAnswer} (hmissed : m.findCachedPage cfg mm bump = none)
    (hs : m.loadPage cfg mm bump off ans = some (c, m')) : m.Loads cfg mm bump m' := by
  obtain ⟨link, m1, hcache, hpl, hnext, hfits, hpush⟩ := loadPage_pushes hs
  rw [← lookup_congr hcache hpl, pushUnder_lookup] at hpush
  obtain ⟨-, hpush⟩ := Prod.mk.inj hpush
  obtain ⟨-, rfl⟩ := Prod.mk.inj hpush
  refine ⟨hmissed, ?_, ?_, fun l hl => ?_, ⟨(m1.pl link).page, ?_⟩, hfits⟩
  · rw [← hnext, ← hcache]
    rfl
  · rw [← hnext]
    exact Nat.lt_succ_self _
  · rw [← hpl]
    exact Function.update_of_ne (Nat.ne_of_lt (hnext ▸ hl)) _ _
  · rw [← hnext]
    exact Function.update_self ..

variable {page v : ℕ} {rwx : Rights} {ans : PfAnswer}

theorem findOrLoad_loads {c : ℕ} (hs : m.findOrLoad cfg mm page ans = some (c, m')) :
    m' = m ∨ m.Loads cfg mm (mm.bump page) m' := by
  rw [findOrLoad] at hs
  split at hs
  · cases hs
    exact .inl rfl
  · next hmissed => exact .inr (loadPage_loads hmissed hs)

theorem fetchCachedPage_loads {c : ℕ} {loaded : Bool} (hs : m.fetchCachedPage cfg mm bump v ans = some (c, loaded, m')) :
    m' = m ∨ m.Loads cfg mm bump m' := by
  rw [fetchCachedPage] at hs
  split at hs
  · cases hs
    exact .inl rfl
  · next hmissed =>
    obtain ⟨⟨c', m1⟩, hl, he⟩ := Option.map_eq_some_iff.mp hs
    cases he
    exact .inr ((loadPage_loads hmissed hl).keeps ⟨rfl, Nat.le_refl _, fun _ _ => rfl⟩)

def Faults (cfg : Config) (mm : LazyMmap) (bump : ℕ) (m m' : Mem) : Prop := m.Keeps m' ∨ m.Loads cfg mm bump m'

theorem Faults.of {m1 : Mem} (h : m1 = m ∨ m.Loads cfg mm bump m1) (hk : m1.Keeps m') : m.Faults cfg mm bump m' := by
  obtain rfl | hl := h
  · exact .inl hk
  · exact .inr (hl.keeps hk)

theorem pfMmapShared_faults (hs : m.pfMmapShared cfg v mm page ans = some m') : m.Faults cfg mm (mm.bump page) m' := by
  obtain ⟨⟨c, m1⟩, hc, hs⟩ := Option.bind_eq_some_iff.mp hs
  refine Faults.of (findOrLoad_loads hc) ?_
  simp only at hs
  split at hs
  · exact attachFresh_keeps hs
  · cases hs
    have hset : m1.Keeps (m1.setVp v { m1.vp v with status := (m1.pl c).page, shared := true }) :=
      ⟨rfl, Nat.le_refl _, fun _ _ => rfl⟩
    exact hset.trans (addShare_keeps _ _ _ _)

theorem pfMmapPrivate_faults (hs : m.pfMmapPrivate cfg v mm page ans = some m') : m.Faults cfg mm (mm.bump page) m' := by
  obtain ⟨⟨c, loaded, m1⟩, hc, hs⟩ := Option.bind_eq_some_iff.mp hs
  obtain ⟨m2, hm2, hs⟩ := Option.bind_eq_some_iff.mp hs
  refine Faults.of (fetchCachedPage_loads hc) ((attachFresh_keeps hm2).trans ?_)
  split at hs
  · obtain ⟨_, -, hs⟩ := Option.bind_eq_some_iff.mp hs
    cases hs
    exact ⟨rfl, Nat.le_refl _, fun _ _ => rfl⟩
  · cases hs
    exact .refl _

end Mem

def LazyMmap.Cached (mm : LazyMmap) : Prop := mm.shared = true ∨ mm.anon = false

instance (mm : LazyMmap) : Decidable mm.Cached := inferInstanceAs (Decidable (_ ∨ _))

theorem Mem.pfMmap_faults {page v : ℕ} {rwx : Rights} {ans : PfAnswer}
    (hs : m.pfMmap cfg pid mm page rwx ans = some (v, m')) : m.Keeps m' ∨ mm.Cached ∧ m.Loads cfg mm (mm.bump page) m' := by
  obtain ⟨m1, hm1, he⟩ := Option.map_eq_some_iff.mp hs
  cases he
  have hnew : m.Keeps (m.newVp ⟨page, mm.rights, false, false, false, 0⟩).2 := ⟨rfl, Nat.le_refl _, fun _ _ => rfl⟩
  have hadd : m1.Keeps (m1.addPage pid m.nextVp) := ⟨rfl, Nat.le_refl _, fun _ _ => rfl⟩
  have hloads : ∀ {m2 : Mem}, (m.newVp ⟨page, mm.rights, false, false, false, 0⟩).2.Faults cfg mm (mm.bump page) m2 →
      m2.Keeps m1 → m.Keeps (m1.addPage pid m.nextVp) ∨ m.Loads cfg mm (mm.bump page) (m1.addPage pid m.nextVp) := by
    rintro m2 (hk | hl) hm2
    · exact .inl ((hnew.trans hk).trans (hm2.trans hadd))
    · have hl' : m.Loads cfg mm (mm.bump page) m2 := ⟨hl.missed, hl.cache, hl.next, hl.pl, hl.new, hl.fits⟩
      exact .inr (hl'.keeps (hm2.trans hadd))
  rw [pfRepair] at hm1
  split at hm1
  · next hshared =>
    obtain ⟨m2, hm2, rfl⟩ := Option.map_eq_some_iff.mp hm1
    refine (hloads (pfMmapShared_faults hm2) (markCow_keeps _ _ _)).imp_right fun hl => ⟨?_, hl⟩
    exact hshared.imp_right And.right
  · split at hm1
    · exact .inl ((hnew.trans (attachFresh_keeps hm1)).trans hadd)
    · next hanon =>
      exact (hloads (pfMmapPrivate_faults hm1) (.refl _)).imp_right fun hl => ⟨.inr (Bool.eq_false_iff.mpr hanon), hl⟩

def State.Caches (cfg : Config) (s t : State) (call : Call) : Prop :=
  s.mem.Ages t.mem ∨ ∃ pid faddr rwx ans i, call = .fault pid faddr rwx ans ∧ (s.findLazyMmap pid faddr).1 = some i ∧
    (s.mm i).Cached ∧ s.mem.Loads cfg (s.mm i) ((s.mm i).bump (pageFloor faddr)) t.mem

theorem Edits.ages (h : Edits cfg s t) : s.mem.Ages t.mem := h.frees.ages

namespace State

theorem vmFork_ages {sender srcpid destpid id : ℕ} {order : List ℕ} {ans : ForkAnswer} {r : Result ℕ}
    (hs : s.vmFork cfg sender srcpid destpid id order ans = some (t, r)) : s.mem.Ages t.mem := by
  obtain rfl | ⟨pid, -, hcases⟩ := vmFork_cases hs
  · exact (Mem.Keeps.refl _).ages
  have hclear : s.mem.Keeps (s.clearPages pid).mem := ⟨rfl, Nat.le_refl _, fun _ _ => rfl⟩
  obtain rfl | ⟨-, -, u, ok, hu, hcases⟩ := hcases
  · exact hclear.ages
  have hcopied := forkMaps_mem hu
  have hmem : u.mem = (s.clearPages pid).mem := hcopied
  rw [← hmem] at hclear
  obtain rfl | ⟨m, ok', hm, rfl⟩ := hcases
  · exact hclear.ages
  · exact (hclear.trans (Mem.forkPages_keeps hm)).ages

theorem vmConfigure_ages {utcb kip : Fpage} {malloc : Bool} {r : Result ℕ}
    (hs : s.vmConfigure cfg pid utcb kip malloc = some (t, r)) : s.mem.Ages t.mem := by
  obtain rfl | ⟨-, rfl | ⟨-, r', hu⟩⟩ := vmConfigure_cases hs
  · exact (Mem.Keeps.refl _).ages
  · exact (Mem.Keeps.refl _).ages
  · have hedits := ((Edits.refl cfg _).newPrivate rfl).reserveMmap hu
    exact hedits.ages

theorem dropOld_ages {target addr : ℕ} (hs : s.dropOld cfg target addr = some m) : s.mem.Ages m := by
  rw [dropOld] at hs
  split at hs
  · cases hs
    exact (Mem.Keeps.refl _).ages
  · next old m1 hpop =>
    obtain ⟨m2, hm2, rfl⟩ := Option.map_eq_some_iff.mp hs
    obtain ⟨-, -, hm1⟩ := Mem.popPage_eq_some hpop
    rw [show m1 = s.mem.dropPage target old from hm1] at hm2
    exact ((Mem.Frees.dropPage _ _ _).trans ((Mem.Frees.removeVp hm2).trans (.flushPlbuf m2))).ages

theorem vmUploadPage_ages {target addr prot : ℕ} {data : List UInt8} {flags : MapFlags} {malloc : Bool} {r : Result Unit}
    (hs : s.vmUploadPage cfg target addr data prot flags malloc = some (t, r)) : s.mem.Ages t.mem := by
  have hstart : s.mem.Keeps (s.uploadStart addr prot).mem := ⟨rfl, Nat.le_refl _, fun _ _ => rfl⟩
  obtain rfl | ⟨-, ⟨e, hu⟩ | ⟨u, m, m', hu, hm, hm', rfl⟩⟩ := vmUploadPage_cases hs
  · exact (Mem.Keeps.refl _).ages
  · exact hstart.ages.trans ((Edits.refl cfg _).reserveMmap hu).ages
  · have hadd : m'.Keeps (m'.addPage target s.mem.nextVp) := ⟨rfl, Nat.le_refl _, fun _ _ => rfl⟩
    have hattach := (Mem.attachFresh_keeps hm').trans hadd
    exact (hstart.ages.trans ((Edits.refl cfg _).reserveMmap hu).ages).trans ((dropOld_ages hm).trans hattach.ages)

theorem vmErase_ages {sender target : ℕ} {order : List ℕ} {r : Result Unit}
    (hs : s.vmErase cfg sender target order = some (t, r)) : s.mem.Ages t.mem := by
  obtain rfl | ⟨m, u, -, hm, hu, rfl⟩ := vmErase_cases hs
  · exact (Mem.Keeps.refl _).ages
  · have hfree := ((Mem.Frees.eraseVps hm).trans (.flushPlbuf m)).ages
    have hedits := ((Edits.refl cfg _).eraseMmaps hu).ages
    exact hfree.trans hedits

theorem vmPf_caches {faddr : ℕ} {rwx : Rights} {ans : PfAnswer} {r : Option (ℕ × Rights)}
    (hs : s.vmPf cfg pid faddr rwx ans = some (t, r)) : s.Caches cfg t (.fault pid faddr rwx ans) := by
  obtain rfl | ⟨-, ⟨old, m, -, hm, rfl⟩ | rfl | ⟨i, v, m, -, -, -, hi, -, hm, rfl, -⟩⟩ := vmPf_cases hs
  · exact .inl (Mem.Keeps.refl _).ages
  · exact .inl (Mem.pfCow_keeps hm).ages
  · rw [Caches, findLazyMmap_mem]
    exact .inl (Mem.Keeps.refl _).ages
  · obtain hk | ⟨hcached, hl⟩ := Mem.pfMmap_faults hm
    · exact .inl hk.ages
    · exact .inr ⟨pid, faddr, rwx, ans, i, rfl, hi, hcached, hl⟩

end State

/-- **Step lemma**: a call adds no link to the page cache, or is a fault that adds one. -/
theorem State.exec_caches {call : Call} (hs : exec cfg s call = some t) : s.Caches cfg t call := by
  cases call with
  | mmap =>
    obtain ⟨⟨u, r⟩, hu, rfl⟩ := Option.map_eq_some_iff.mp hs
    exact .inl (Edits.vmMmap hu).ages
  | munmap =>
    obtain ⟨⟨u, r⟩, hu, rfl⟩ := Option.map_eq_some_iff.mp hs
    exact .inl (Edits.vmMunmap hu).ages
  | brk =>
    obtain ⟨⟨u, r⟩, hu, rfl⟩ := Option.map_eq_some_iff.mp hs
    exact .inl (Edits.vmBrk hu).ages
  | fork =>
    obtain ⟨⟨u, r⟩, hu, rfl⟩ := Option.map_eq_some_iff.mp hs
    exact .inl (vmFork_ages hu)
  | configure =>
    obtain ⟨⟨u, r⟩, hu, rfl⟩ := Option.map_eq_some_iff.mp hs
    exact .inl (vmConfigure_ages hu)
  | uploadPage =>
    obtain ⟨⟨u, r⟩, hu, rfl⟩ := Option.map_eq_some_iff.mp hs
    exact .inl (vmUploadPage_ages hu)
  | erase =>
    obtain ⟨⟨u, r⟩, hu, rfl⟩ := Option.map_eq_some_iff.mp hs
    exact .inl (vmErase_ages hu)
  | fault =>
    obtain ⟨⟨u, r⟩, hu, rfl⟩ := Option.map_eq_some_iff.mp hs
    exact vmPf_caches hu

-- Runs

def KeysFit (cfg : Config) (s : State) : Call → Prop
  | .fault pid faddr _ _ => cfg.asserts = true ∨
      ∀ i ∈ (s.findLazyMmap pid faddr).1, (s.mm i).Cached → (s.mm i).Fits
  | _ => True

instance (s : State) : (call : Call) → Decidable (KeysFit cfg s call)
  | .fault .. => inferInstanceAs (Decidable (_ ∨ ∀ i ∈ (_ : Option ℕ), _))
  | .mmap .. | .munmap .. | .brk .. | .fork .. | .configure .. | .uploadPage .. | .erase .. => inferInstanceAs (Decidable True)

theorem KeysFit.loads {faddr : ℕ} {rwx : Rights} {ans : PfAnswer} (h : KeysFit cfg s (.fault pid faddr rwx ans))
    (hi : (s.findLazyMmap pid faddr).1 = some i) (hcached : (s.mm i).Cached)
    (hl : s.mem.Loads cfg (s.mm i) bump t.mem) : (s.mm i).Fits := by
  obtain ha | hfits := h
  · exact hl.fits ha
  · exact hfits i hi hcached

theorem State.Caches.later {call : Call} (h : s.Caches cfg t call) : s.mem.Later t.mem := by
  obtain ha | ⟨_, _, _, _, _, -, -, -, hl⟩ := h
  · exact ha.later
  · exact hl.later

theorem Mem.Keyed.exec {call : Call} (h : s.mem.Keyed) (hfit : KeysFit cfg s call) (hs : Vm.exec cfg s call = some t) :
    t.mem.Keyed := by
  obtain ha | ⟨pid, faddr, rwx, ans, i, rfl, hi, hcached, hl⟩ := State.exec_caches hs
  · exact h.ages ha
  · exact h.loads hl (hfit.loads hi hcached hl)

theorem keyed_of_run {calls : List Call} (h : Run (exec cfg) (KeysFit cfg) (bootState phys) calls s) : s.mem.Keyed :=
  h.invariant (I := fun s : State => s.mem.Keyed) (fun _ _ _ hok hs hk => hk.exec hok hs) ⟨nofun, nofun, nofun⟩

theorem later_of_run {P : State → Call → Prop} {calls : List Call} (h : Run (exec cfg) P s calls t) : s.mem.Later t.mem :=
  h.invariant (I := fun u : State => s.mem.Later u.mem) (fun _ _ _ _ hs hl => hl.trans (State.exec_caches hs).later) (.refl _)

-- The law

structure KeyLaw (cfg : Config) (m : Mem) : Prop where
  bucket : ∀ l ∈ m.cache, (m.pl l).live = true → ∀ mm bump, (m.pl l).key = LazyMmap.key mm bump →
    cfg.bucket (m.pl l).hash = cfg.bucket (hashLazyMmap mm bump)
  found : ∀ mm bump l, m.findCachedPage cfg mm bump = some l ↔
    l ∈ m.cache ∧ (m.pl l).live = true ∧ (m.pl l).key = mm.key bump
  one : ∀ l ∈ m.cache, ∀ k ∈ m.cache, (m.pl l).live = true → (m.pl k).live = true → (m.pl l).key = (m.pl k).key → l = k
  pushed : ∀ mm bump oldlink, LazyMmap.Fits mm → m.findCachedPage cfg mm bump = none →
    ∃ m', m.pushUnder cfg (m.lookup cfg mm bump).1 oldlink mm.fsidIno (word (mm.offset + bump)) = (m.nextPl, true, m') ∧
      ∀ mm' bump', m'.findCachedPage cfg mm' bump' =
        if mm'.key bump' = mm.key bump then some m.nextPl else m.findCachedPage cfg mm' bump'

namespace Mem

theorem Keyed.find_loaded (h : m.Keyed) (hl : m.Loads cfg mm bump m') (hfits : mm.Fits) (mm' : LazyMmap) (bump' : ℕ) :
    m'.findCachedPage cfg mm' bump' =
      if mm'.key bump' = mm.key bump then some m.nextPl else m.findCachedPage cfg mm' bump' := by
  have h' := h.loads hl hfits
  obtain ⟨p, hp⟩ := hl.new
  have hkey : (m'.pl m.nextPl).key = mm.key bump := by
    rw [hp]
    exact LazyMmap.key_pushed hfits bump p
  split
  · next hsame =>
    rw [h'.findCachedPage_eq_some_iff, hl.cache, hkey, hp]
    exact ⟨List.mem_cons_self, rfl, hsame.symm⟩
  · next hother =>
    ext l
    rw [h'.findCachedPage_eq_some_iff, h.findCachedPage_eq_some_iff, hl.cache]
    constructor
    · rintro ⟨hmem, hlive, hk⟩
      obtain rfl | hmem := List.mem_cons.mp hmem
      · exact absurd (hk.symm.trans hkey) hother
      · rw [hl.pl l (h.lt l hmem)] at hlive hk
        exact ⟨hmem, hlive, hk⟩
    · rintro ⟨hmem, hlive, hk⟩
      rw [hl.pl l (h.lt l hmem)]
      exact ⟨List.mem_cons_of_mem _ hmem, hlive, hk⟩

theorem pushCachedPage_loads {oldlink : ℕ} (hmissed : m.findCachedPage cfg mm bump = none) (hfits : mm.Fits) :
    m.Loads cfg mm bump (m.pushCachedPage oldlink mm.fsidIno (word (mm.offset + bump))) where
  missed := hmissed
  cache := rfl
  next := Nat.lt_succ_self _
  pl _ hl := Function.update_of_ne (Nat.ne_of_lt hl) _ _
  new := ⟨(m.pl oldlink).page, Function.update_self ..⟩
  fits _ := hfits

theorem Keyed.law (h : m.Keyed) (cfg : Config) : KeyLaw cfg m where
  bucket l hl hlive mm bump hk := by
    rw [Pl.hash_eq (h.packed l hl hlive), hk]
    rfl
  found _ _ _ := h.findCachedPage_eq_some_iff
  one := h.one
  pushed mm bump oldlink hfits hmissed :=
    ⟨_, pushUnder_lookup m mm bump oldlink, h.find_loaded (pushCachedPage_loads hmissed hfits) hfits⟩

end Mem

theorem Sound.found_held {phys : List ℕ} (h : Sound phys m) (hfound : m.findCachedPage cfg mm bump = some l) :
    m.link (m.pl l).page = some l ∧ ∀ k ∈ m.free, (m.pl k).page ≠ (m.pl l).page := by
  obtain ⟨hmem, hlive, -⟩ := Mem.findCachedPage_spec hfound
  have hlinks := h.books.links
  have hall : l ∈ m.free ++ m.active ++ m.cache := List.mem_append_right _ hmem
  refine ⟨hlinks.link l hall hlive, fun k hk he => ?_⟩
  have hfree : k ∈ m.free ++ m.active := List.mem_append_left _ hk
  have hsame : k = l :=
    hlinks.unique (List.mem_append_left _ hfree) hall (h.books.free_live k hk) hlive he
  exact List.disjoint_of_nodup_append hlinks.nodup hfree (hsame ▸ hmem)

/-- What a run keeps of the links of the cache, and what its last call does. `m` is any memory that a
    lookup of a later call may see. -/
structure CacheRun (cfg : Config) (s t : State) : Prop where
  law : ∀ m, t.mem.Ages m → KeyLaw cfg m
  stays : ∀ l ∈ s.mem.cache, ∀ m, t.mem.Ages m → (m.pl l).live = true → ∀ mm bump,
    m.findCachedPage cfg mm bump = some l ↔ (s.mem.pl l).key = mm.key bump
  freed : ∀ m l m', t.mem.Ages m → l < m.nextPl → (m.freePage l).Ages m' → ∀ mm bump, m'.findCachedPage cfg mm bump ≠ some l
  dead : ∀ l < s.mem.nextPl, (s.mem.pl l).live = false → ∀ m, t.mem.Ages m → ∀ mm bump, m.findCachedPage cfg mm bump ≠ some l
  inserts : ∀ call u, KeysFit cfg t call → exec cfg t call = some u → t.mem.Ages u.mem ∨
    ∃ i bump, t.mem.Loads cfg (t.mm i) bump u.mem ∧ ∀ mm bump', u.mem.findCachedPage cfg mm bump' =
      if mm.key bump' = (t.mm i).key bump then some t.mem.nextPl else t.mem.findCachedPage cfg mm bump'

theorem Mem.Keyed.cacheRun (hs : s.mem.Keyed) (ht : t.mem.Keyed) (hl : s.mem.Later t.mem) : CacheRun cfg s t where
  law m hm := (ht.ages hm).law cfg
  stays l hmem m hm hlive mm bump := by
    have hage := hl.trans hm.later
    rw [(ht.ages hm).findCachedPage_eq_some_iff, hage.live (hs.lt l hmem) hlive]
    have hlive' : (s.mem.pl l).live = true := hage.live (hs.lt l hmem) hlive ▸ hlive
    exact ⟨fun h => h.2.2, fun h => ⟨hage.cache hmem, hlive', h⟩⟩
  freed m l m' hm hlt hm' mm bump hfound := by
    have hdead : ((m.freePage l).pl l).live = false := by
      have hpl : (m.freePage l).pl l = Function.update m.pl l { m.pl l with live := false } l :=
        Function.update_of_ne (Nat.ne_of_lt hlt) _ _
      rw [hpl, Function.update_self]
    obtain ⟨-, hlive, -⟩ := Mem.findCachedPage_spec hfound
    rw [hm'.later.dead (Nat.lt_succ_of_lt hlt) hdead] at hlive
    cases hlive
  dead l hlt hd m hm mm bump hfound := by
    obtain ⟨-, hlive, -⟩ := Mem.findCachedPage_spec hfound
    rw [(hl.trans hm.later).dead hlt hd] at hlive
    cases hlive
  inserts call u hfit hu := by
    obtain ha | ⟨pid, faddr, rwx, ans, i, rfl, hi, hcached, hload⟩ := State.exec_caches hu
    · exact .inl ha
    · exact .inr ⟨i, _, hload, ht.find_loaded hload (hfit.loads hi hcached hload)⟩

/-- **The page cache.** In every run, at every lookup, a live link of the cache is found for its key and
    no other, in the bucket that both sides come to, and no two live links have one key; a page that is
    pushed is found for its key until its link is freed, and then no more. While calls are sparing a link
    that is found is the one its page has, which is not free. -/
theorem page_cache_keys {calls later : List Call} (h : Run (exec cfg) (KeysFit cfg) (bootState phys) calls s)
    (h' : Run (exec cfg) (KeysFit cfg) s later t) :
    CacheRun cfg s t ∧ (Run (exec cfg) (Sparing cfg) (bootState phys) (calls ++ later) t →
      ∀ mm bump l, t.mem.findCachedPage cfg mm bump = some l →
        t.mem.link (t.mem.pl l).page = some l ∧ ∀ k ∈ t.mem.free, (t.mem.pl k).page ≠ (t.mem.pl l).page) := by
  have hs := keyed_of_run h
  have ht := keyed_of_run (h.append h')
  exact ⟨hs.cacheRun ht (later_of_run h'), fun hspare _ _ _ hfound => (inv_of_run hspare).sound.found_held hfound⟩

/-- A page of shared memory is found for its key until it is unmapped. -/
theorem page_cache_unmapped : ∃ s t : State,
    (∀ mm bump, s.mem.findCachedPage plainConfig mm bump = some 4 ↔ (s.mem.pl 4).key = mm.key bump) ∧
      (t.mem.pl 4).live = false ∧ ∀ mm bump, t.mem.findCachedPage plainConfig mm bump ≠ some 4 := by
  obtain ⟨s, h, hread⟩ := Run.exists_of_evalRun (exec plainConfig) (KeysFit plainConfig) (bootState threePhys) State.sharedCalls
    (fun s : State => (s.mem.cache, (s.mem.pl 4).live, (exec plainConfig s (.munmap 5 0x400000 0x2000)).map fun t : State =>
      ((t.mem.pl 4).live, decide (4 < t.mem.nextPl)))) ([4], true, some (false, true)) (by decide)
  obtain ⟨hcache, hread⟩ := Prod.mk.inj hread
  obtain ⟨hlive, hread⟩ := Prod.mk.inj hread
  obtain ⟨t, ht, hread⟩ := Option.map_eq_some_iff.mp hread
  obtain ⟨hdead, hlt⟩ := Prod.mk.inj hread
  have hstep : Run (exec plainConfig) (KeysFit plainConfig) s [.munmap 5 0x400000 0x2000] t := .cons trivial ht (.nil t)
  have hs := (page_cache_keys h (.nil s)).1
  have hrun := (page_cache_keys (h.append hstep) (.nil t)).1
  refine ⟨s, t, hs.stays 4 (hcache ▸ List.mem_singleton_self 4) s.mem (Mem.Keeps.refl _).ages hlive, hdead, ?_⟩
  exact hrun.dead 4 (of_decide_eq_true hlt) hdead t.mem (Mem.Keeps.refl _).ages

end Sneks.Vm
