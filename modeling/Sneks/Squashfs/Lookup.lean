import Sneks.Squashfs.Directory
import Sneks.Stdlib.Strcmp

/-!
# Looking up names

`lookup` of `sys/fs.squashfs/squashfs.c`: a name is looked for among the cached entries of a directory,
and else in the directory from its start. Entries are taken to be in the order of `strcmp`, so that the
first one after the name ends it; the order that they are stored in is that of unsigned bytes.
-/

namespace Sneks.Squashfs
open Lib Stdlib

/-- What `lookup` gives: a type and an inode. -/
abbrev LookupResult := Except ResolveError (DType × ℕ)

/-- The loop of `lookup`, for at most `n` entries. `past` is what is in memory past the ends of strings. -/
def lookupScan (v : Volume) (past : ℕ → UInt8) (dirIno : ℕ) (d : DirInode) (name : CText) :
    ℕ → ℕ → Cursor → Caches → Option (Caches × LookupResult)
  | 0, _, _, _ => none
  | n + 1, dix, c, s =>
    match getDentry v dirIno d c dix s with
    | none => none
    | some (s, _, .error e) => some (s, .error e)
    | some (s, _, .ok none) => some (s, .error .ENOENT)
    | some (s, c, .ok (some dent)) =>
      match strcmp past name dent.name with
      | none => none
      | some cmp =>
        if cmp.toInt < 0 ∧ 2 ≤ dent.index then some (s, .error .ENOENT)
        else if cmp = 0 then some (s, .ok (dent.type, dent.ino))
        else lookupScan v past dirIno d name n (dix + 1) c s

/-- `lookup`; `nod` is what `get_inode` gives for the directory. -/
def lookup (v : Volume) (past : ℕ → UInt8) (nod : Option DirInode) (n dirIno : ℕ) (name : CText) (s : Caches) :
    Option (Caches × LookupResult) :=
  if name.text = [] then none
  else
    match findDentry s dirIno name.text with
    | some dent => some (s, .ok (dent.type, dent.ino))
    | none =>
      match nod with
      | none => some (s, .error ResolveError.EIO)
      | some d => lookupScan v past dirIno d name n 0 (rewindDirectory v d) s

structure LooksUp (v : Volume) (dirIno : ℕ) (d : DirInode) (runs : List DirRun) (name : List UInt8) (r : LookupResult) :
    Prop where
  found : ∀ i dent, dentryAt v dirIno d runs i = some dent → dent.name.text = name → r = .ok (dent.type, dent.ino)
  absent : (∀ i dent, dentryAt v dirIno d runs i = some dent → dent.name.text ≠ name) → r = .error .ENOENT

def Sorted (runs : List DirRun) : Prop := ((flatEntries runs).map (·.2.name)).Pairwise (· < ·)

def Misordered (name other : List UInt8) : Prop :=
  ∃ k, (∀ i < k, wordAt name i = wordAt other i) ∧ wordAt other k + 2 ^ 31 ≤ wordAt name k

def Hidden (runs : List DirRun) (name : List UInt8) : Prop :=
  ∃ i j other, nameAt runs i = some name ∧ 2 ≤ j ∧ j < i ∧ nameAt runs j = some other ∧ Misordered name other

variable {v : Volume} {inodePlace : ℕ → ℕ} {D : Directories v inodePlace} {past : ℕ → UInt8} {d : DirInode}
  {runs : List DirRun} {c : Cursor} {s : Caches} {name other : CText} {dirIno dix n i j : ℕ}

theorem sign_of_lt {cmp : BitVec 32} (h : Compared name.text other.text cmp) (hlt : other.text < name.text) :
    cmp.toInt < 0 ↔ Misordered name.text other.text := by
  obtain ⟨k, hsame, hword⟩ := exists_word_lt name.nonul hlt
  rw [h.sign k (fun i hi => (hsame i hi).symm) hword]
  refine ⟨fun hle => ⟨k, fun i hi => (hsame i hi).symm, hle⟩, fun ⟨k', hsame', hle⟩ => ?_⟩
  obtain hk | rfl | hk := Nat.lt_trichotomy k k'
  · exact absurd (hsame' k hk) (Nat.ne_of_gt hword)
  · exact hle
  · have heq := hsame k' hk
    omega

def Stops (v : Volume) (past : ℕ → UInt8) (dirIno : ℕ) (d : DirInode) (runs : List DirRun) (name : CText) (j : ℕ) : Prop :=
  2 ≤ j ∧ ∃ dent cmp, dentryAt v dirIno d runs j = some dent ∧ strcmp past name dent.name = some cmp ∧ cmp.toInt < 0

theorem nameAt_length (hd : WellFormed v inodePlace d runs) {text : List UInt8} (h : nameAt runs i = some text) :
    text.length ≤ nameLen := by
  rw [nameAt] at h
  split at h
  · cases h
    decide
  · split at h
    · cases h
      decide
    · obtain ⟨p, hp, rfl⟩ := Option.map_eq_some_iff.mp h
      exact (hd.entry p (List.mem_of_getElem? hp)).name_le

theorem strcmp_dentry (hd : WellFormed v inodePlace d runs) {dent : Dentry}
    (h : dentryAt v dirIno d runs i = some dent) :
    ∃ cmp, strcmp past name dent.name = some cmp ∧ Compared name.text dent.name.text cmp := by
  refine strcmp_spec past name dent.name (Nat.lt_of_le_of_lt (Nat.min_le_right _ _) ?_)
  exact Nat.lt_of_le_of_lt (nameAt_length hd (dentryAt_name h)) (by decide)

theorem lookupScan_spec (hs : Valid D s) (hdir : D.dir dirIno = some (d, runs)) (hgood : Readable runs)
    (hc : Placed v runs c) (hdix : dix ≤ (flatEntries runs).length + 2) (hn : (flatEntries runs).length + 3 ≤ dix + n) :
    ∃ s' r, lookupScan v past dirIno d name n dix c s = some (s', r) ∧ Valid D s' ∧
      ((∃ i dent, dix ≤ i ∧ dentryAt v dirIno d runs i = some dent ∧ dent.name.text = name.text ∧
          (∀ j, dix ≤ j → j < i → ¬ Stops v past dirIno d runs name j) ∧ r = .ok (dent.type, dent.ino)) ∨
        r = .error .ENOENT ∧ ∀ i, dix ≤ i → nameAt runs i = some name.text →
          ∃ j, j < i ∧ Stops v past dirIno d runs name j) := by
  have hd := D.wellFormed _ _ _ hdir
  induction n generalizing dix c s with
  | zero => omega
  | succ n ih =>
    obtain ⟨s₁, c₁, hget, hc₁, hs₁, -⟩ := @getDentry_spec _ _ _ _ _ _ _ dix _ hs hdir hgood hc
    rw [lookupScan, hget]
    cases hat : dentryAt v dirIno d runs dix with
    | none =>
      refine ⟨s₁, _, rfl, hs₁, .inr ⟨rfl, fun i hi hname => ?_⟩⟩
      obtain ⟨dent, hdent, -⟩ := dentryAt_of_nameAt hd dirIno hname
      have hend := (dentryAt_eq_none hd dirIno dix).mp hat
      have hnone := (dentryAt_eq_none hd dirIno i).mpr (by omega)
      cases hdent.symm.trans hnone
    | some dent =>
      obtain ⟨cmp, hcmp, hcompared⟩ := @strcmp_dentry _ _ past _ _ name _ _ hd dent hat
      obtain ⟨-, hindex⟩ := dentryAt_dirIno hat
      have hhere : nameAt runs dix = some name.text → cmp = 0 := fun hname =>
        hcompared.zero.mpr (Option.some.inj (hname.symm.trans (dentryAt_name hat)))
      dsimp only
      rw [hcmp, hindex]
      dsimp only
      by_cases hstop : cmp.toInt < 0 ∧ 2 ≤ dix
      · rw [if_pos hstop]
        refine ⟨s₁, _, rfl, hs₁, .inr ⟨rfl, fun i hi hname => ?_⟩⟩
        obtain rfl | hlt := Nat.eq_or_lt_of_le hi
        · rw [hhere hname] at hstop
          exact absurd hstop.1 (by decide)
        · exact ⟨dix, hlt, hstop.2, dent, cmp, hat, hcmp, hstop.1⟩
      · rw [if_neg hstop]
        by_cases hzero : cmp = 0
        · rw [if_pos hzero]
          exact ⟨s₁, _, rfl, hs₁, .inl ⟨dix, dent, Nat.le_refl _, hat, (hcompared.zero.mp hzero).symm,
            fun j hj hlt => absurd hlt (Nat.not_lt.mpr hj), rfl⟩⟩
        · have hin : dix < (flatEntries runs).length + 2 := by
            by_contra hge
            have hnone := (dentryAt_eq_none hd dirIno dix).mpr (Nat.le_of_not_lt hge)
            cases hat.symm.trans hnone
          have hgo : ¬ Stops v past dirIno d runs name dix := by
            rintro ⟨htwo, dent', cmp', hat', hcmp', hneg⟩
            obtain rfl := Option.some.inj (hat.symm.trans hat')
            obtain rfl := Option.some.inj (hcmp.symm.trans hcmp')
            exact hstop ⟨hneg, htwo⟩
          obtain ⟨s', r, hscan, hs', hr⟩ := @ih c₁ s₁ (dix + 1) hs₁ hc₁ (by omega) (by omega)
          rw [if_neg hzero, hscan]
          refine ⟨s', r, rfl, hs', hr.imp ?_ ?_⟩
          · rintro ⟨i, dent', hi, hat', hname, hbefore, rfl⟩
            refine ⟨i, dent', by omega, hat', hname, fun j hj hlt => ?_, rfl⟩
            obtain rfl | hgt := Nat.eq_or_lt_of_le hj
            · exact hgo
            · exact hbefore j hgt hlt
          · rintro ⟨rfl, hafter⟩
            refine ⟨rfl, fun i hi hname => ?_⟩
            obtain rfl | hgt := Nat.eq_or_lt_of_le hi
            · exact absurd (hhere hname) hzero
            · exact hafter i hgt hname

theorem stops_iff (hd : WellFormed v inodePlace d runs) (hsorted : Sorted runs) (hname : nameAt runs i = some name.text)
    (hlt : j < i) : Stops v past dirIno d runs name j ↔
      2 ≤ j ∧ ∃ other, nameAt runs j = some other ∧ Misordered name.text other := by
  have hbefore : ∀ other, 2 ≤ j → nameAt runs j = some other → other < name.text := by
    intro other htwo hother
    rw [nameAt, if_neg (by omega), if_neg (by omega), ← List.getElem?_map] at hname hother
    obtain ⟨hi, heq⟩ := List.getElem?_eq_some_iff.mp hname
    obtain ⟨hj, heq'⟩ := List.getElem?_eq_some_iff.mp hother
    rw [← heq, ← heq']
    exact List.pairwise_iff_getElem.mp hsorted (j - 2) (i - 2) hj hi (by omega)
  constructor
  · rintro ⟨htwo, dent, cmp, hat, hcmp, hneg⟩
    obtain ⟨cmp', hcmp', hcompared⟩ := @strcmp_dentry _ _ past _ _ name _ _ hd dent hat
    obtain rfl := Option.some.inj (hcmp.symm.trans hcmp')
    have hother := dentryAt_name hat
    exact ⟨htwo, _, hother, (sign_of_lt hcompared (hbefore _ htwo hother)).mp hneg⟩
  · rintro ⟨htwo, other, hother, hmis⟩
    obtain ⟨dent, hat, rfl⟩ := dentryAt_of_nameAt hd dirIno hother
    obtain ⟨cmp, hcmp, hcompared⟩ := @strcmp_dentry _ _ past _ _ name _ _ hd dent hat
    exact ⟨htwo, dent, cmp, hat, hcmp, (sign_of_lt hcompared (hbefore _ htwo hother)).mpr hmis⟩

theorem looksUp_of_dentry (hd : WellFormed v inodePlace d runs) {dent : Dentry} {text : List UInt8}
    (hat : dentryAt v dirIno d runs i = some dent) (hname : dent.name.text = text) :
    LooksUp v dirIno d runs text (.ok (dent.type, dent.ino)) := by
  refine ⟨fun j dent' hat' hname' => ?_, fun hnone => absurd hname (hnone i dent hat)⟩
  have hsame := nameAt_inj hd (dentryAt_name hat) ((dentryAt_name hat').trans (congrArg some (hname'.trans hname.symm)))
  subst hsame
  rw [Option.some.inj (hat.symm.trans hat')]

def accented : List DirRun := [⟨0, 2, [⟨32, 0, 2, [0x41]⟩, ⟨64, 1, 2, [0xc3, 0xa9]⟩]⟩]

def accentedImage : Image where
  length := 64
  blockLog := 12
  block addr word := if addr = 8 ∧ word = 0 then some ⟨dirBytes accented, 64⟩ else none
  next_gt addr word b hb := by
    split at hb
    · next haddr =>
      cases hb
      exact haddr.1 ▸ by decide
    · cases hb

def accentedVolume : Volume where
  img := accentedImage
  inodes := 4
  inodes_lt := by decide
  dirTable := 8
  rootIno := 4
  place dir index := 512 * (256 * dir + index)

def accentedRoot : DirInode := ⟨0, 34, 0, 5⟩

def accentedPlace (ino : ℕ) : ℕ := if ino = 2 then 32 else 64

theorem accentedRoot_wellFormed : WellFormed accentedVolume accentedPlace accentedRoot accented where
  follows := @Follows.rest accentedImage ⟨8, 0⟩ ⟨dirBytes accented, 64⟩ (by decide) rfl
  fileSize := by decide
  fileSize_lt := by decide
  run r hr := by
    cases List.mem_singleton.mp hr
    exact ⟨List.cons_ne_nil _ _, by decide, by decide, by decide⟩
  entry p hp := by
    have hp' : p ∈ [(⟨0, 2, [⟨32, 0, 2, [0x41]⟩, ⟨64, 1, 2, [0xc3, 0xa9]⟩]⟩, ⟨32, 0, 2, [0x41]⟩),
      ((⟨0, 2, [⟨32, 0, 2, [0x41]⟩, ⟨64, 1, 2, [0xc3, 0xa9]⟩]⟩ : DirRun), (⟨64, 1, 2, [0xc3, 0xa9]⟩ : DirEntry))] := hp
    obtain rfl | hp' := List.mem_cons.mp hp'
    · exact ⟨by decide, by decide, by decide, by decide, by decide, by decide, by decide, by decide, by decide, by decide⟩
    · cases List.mem_singleton.mp hp'
      exact ⟨by decide, by decide, by decide, by decide, by decide, by decide, by decide, by decide, by decide, by decide⟩
  names := by decide

def accentedDirectories : Directories accentedVolume accentedPlace where
  dir ino := if ino = 4 then some (accentedRoot, accented) else none
  wellFormed ino d runs h := by
    split at h
    · cases h
      exact accentedRoot_wellFormed
    · cases h

def noCaches : Caches := ⟨[], fun _ => notYetSeen, fun _ => intMax⟩

theorem noCaches_valid : Valid accentedDirectories noCaches := by
  refine ⟨fun _ => .inl rfl, nofun, fun ino d runs h => ?_⟩
  rw [accentedDirectories] at h
  dsimp only at h
  split at h
  · cases h
    exact (by decide : ((flatEntries accented).length : ℤ) ≤ intMax + 1)
  · cases h

end Sneks.Squashfs
