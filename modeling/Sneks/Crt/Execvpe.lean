import Mathlib.Data.List.TakeWhile
import Mathlib.Tactic.Common
import Sneks.Crt.File

/-!
# The search path

`execvpe` (`user/crt/exec.c`). It cuts a copy of `PATH` at the colons and has `execve` try the file under
each part. The pointer is moved past a part and its NUL, which is past the end of `PATH` for the last part.
-/

namespace Sneks.Crt

def ENOENT : ℤ := 2

def EACCES : ℤ := 13

abbrev Pathname := List Char

inductive Ending
  | executed
  /-- Returns -1, with `errno`. -/
  | failed (errno : ℤ)
  /-- Reads past the end of `PATH`. -/
  | overran

/-- The pathnames that `execve` was called with, and how it went on from there. -/
structure Search where
  tried : List Pathname
  ending : Ending

def Search.cons (path : Pathname) (s : Search) : Search := ⟨path :: s.tried, s.ending⟩

/-- What comes of the calls of `execve`, by how many there were before: none for one that executes, else `errno`. -/
abbrev Execve := ℕ → Pathname → Option ℤ

/-- The loop of `execvpe`, where `path` is what is left of `PATH` and `size` is how large `tmp` is. -/
def execvpeLoop (execve : Execve) (size : ℕ) (file : List Char) (k : ℕ) (eacces : Bool) (path : List Char) : Search :=
  if path = [] then ⟨[], .failed (if eacces then EACCES else ENOENT)⟩
  else
    let part := path.takeWhile (· ≠ ':')
    let tmp := (part ++ '/' :: file).take (size - 1)
    match execve k tmp with
    | none => ⟨[tmp], .executed⟩
    | some errno =>
      let eacces := eacces || errno = EACCES
      if errno ≠ EACCES ∧ errno ≠ ENOENT then ⟨[tmp], .failed (if eacces then EACCES else ENOENT)⟩
      else if part.length < path.length then (execvpeLoop execve size file (k + 1) eacces (path.drop (part.length + 1))).cons tmp
      else ⟨[tmp], .overran⟩
termination_by path.length
decreasing_by rw [List.length_drop]; omega

def execOne (execve : Execve) (file : Pathname) : Search :=
  match execve 0 file with
  | none => ⟨[file], .executed⟩
  | some errno => ⟨[file], .failed errno⟩

/-- `execvpe`. `var` is what `PATH` has, and `copied` whether there is memory for its copy. -/
def execvpe (execve : Execve) (copied : Bool) (var : Option (List Char)) (file : List Char) : Search :=
  if file.head? = some '/' then execOne execve file
  else
    match var with
    | none => execOne execve file
    | some var =>
      if copied then execvpeLoop execve (var.length + file.length + 2) file 0 false var else ⟨[], .failed ENOMEM⟩

-- What PATH says

/-- The file under one part of `PATH`. An empty part is the current directory. -/
def candidate (file part : List Char) : Pathname := if part = [] then file else part ++ '/' :: file

def parts (var : List Char) : List (List Char) := if var = [] then [] else var.splitOn ':'

/-- Where there is no `PATH` the file is looked for in the current directory. -/
def candidates (var : Option (List Char)) (file : List Char) : List Pathname :=
  match var with
  | none => [file]
  | some var => (parts var).map (candidate file)

inductive Searched (execve : Execve) : ℕ → List Pathname → Search → Prop
  | fails (k : ℕ) (errno : ℤ) : Searched execve k [] ⟨[], .failed errno⟩
  | executes {k : ℕ} {path : Pathname} (paths : List Pathname) :
      execve k path = none → Searched execve k (path :: paths) ⟨[path], .executed⟩
  | next {k : ℕ} {path : Pathname} {paths : List Pathname} {s : Search} :
      execve k path ≠ none → Searched execve (k + 1) paths s → Searched execve k (path :: paths) (s.cons path)

/-- No part is empty, up to one under which the file executes, or to the last one where the search is given
up for the file there. The parts before do not have the file, or it may not be executed. -/
inductive Decided (execve : Execve) (file : List Char) : ℕ → List (List Char) → Prop
  | executes {k : ℕ} {part : List Char} (rest : List (List Char)) :
      part ≠ [] → execve k (part ++ '/' :: file) = none → Decided execve file k (part :: rest)
  | givenUp {k : ℕ} {part : List Char} {errno : ℤ} :
      part ≠ [] → execve k (part ++ '/' :: file) = some errno → errno ≠ EACCES → errno ≠ ENOENT → Decided execve file k [part]
  | next {k : ℕ} {part : List Char} {rest : List (List Char)} {errno : ℤ} :
      part ≠ [] → execve k (part ++ '/' :: file) = some errno → errno = EACCES ∨ errno = ENOENT →
        Decided execve file (k + 1) rest → Decided execve file k (part :: rest)

variable {execve : Execve} {file part path : List Char} {k size : ℕ} {eacces : Bool} {errno : ℤ} {rest : List (List Char)} {paths : List Pathname}
  {s : Search}

theorem searched_cons_iff {p : Pathname} : Searched execve k (p :: paths) s ↔
    execve k p = none ∧ s = ⟨[p], .executed⟩ ∨ execve k p ≠ none ∧ ∃ t, Searched execve (k + 1) paths t ∧ s = t.cons p := by
  constructor
  · rintro (_ | ⟨_, hnone⟩ | ⟨hsome, ht⟩)
    · exact .inl ⟨hnone, rfl⟩
    · exact .inr ⟨hsome, _, ht, rfl⟩
  · rintro (⟨hnone, rfl⟩ | ⟨hsome, t, ht, rfl⟩)
    · exact .executes paths hnone
    · exact .next hsome ht

theorem not_decided_empty : ¬ Decided execve file k ([] :: rest) := by
  rintro (⟨_, hpart, -⟩ | ⟨hpart, -, -, -⟩ | ⟨hpart, -, -, -⟩) <;> exact hpart rfl

theorem decided_cons_iff (hpart : part ≠ []) (hk : execve k (part ++ '/' :: file) = some errno) :
    Decided execve file k (part :: rest) ↔
      (errno ≠ EACCES ∧ errno ≠ ENOENT) ∧ rest = [] ∨ (errno = EACCES ∨ errno = ENOENT) ∧ Decided execve file (k + 1) rest := by
  constructor
  · rintro (⟨_, -, hnone⟩ | ⟨-, hsome, hacces, hnoent⟩ | ⟨-, hsome, herrno, hrest⟩)
    · cases hk.symm.trans hnone
    · obtain rfl := Option.some.inj (hk.symm.trans hsome)
      exact .inl ⟨⟨hacces, hnoent⟩, rfl⟩
    · obtain rfl := Option.some.inj (hk.symm.trans hsome)
      exact .inr ⟨herrno, hrest⟩
  · rintro (⟨⟨hacces, hnoent⟩, rfl⟩ | ⟨herrno, hrest⟩)
    · exact .givenUp hpart hk hacces hnoent
    · exact .next hpart hk herrno hrest

theorem splitOn_cases (path : List Char) (hpart : part = path.takeWhile (· ≠ ':')) :
    part = path ∧ path.splitOn ':' = [part] ∨
      ∃ rest, part.length < path.length ∧ path.drop (part.length + 1) = rest ∧ path.splitOn ':' = part :: rest.splitOn ':' := by
  have hcut : part ++ path.dropWhile (· ≠ ':') = path := hpart ▸ List.takeWhile_append_dropWhile
  have hcolon : ':' ∉ part := by
    intro hmem
    rw [hpart] at hmem
    have hne := List.mem_takeWhile_imp hmem
    exact absurd hne (by decide)
  cases hdrop : path.dropWhile (· ≠ ':') with
  | nil =>
    rw [hdrop, List.append_nil] at hcut
    exact .inl ⟨hcut, hcut ▸ List.splitOn_eq_singleton hcolon⟩
  | cons c rest =>
    have hc : c = ':' := by
      have hhead := List.head?_dropWhile_not (· ≠ ':') path
      rw [hdrop] at hhead
      simpa using hhead
    subst hc
    rw [hdrop] at hcut
    refine .inr ⟨rest, ?_, ?_, ?_⟩
    · rw [← hcut]
      simp
    · rw [← hcut, ← List.drop_drop]
      simp
    · rw [← hcut, List.splitOn_append_cons_self, List.splitOn_eq_singleton hcolon]
      rfl

theorem Searched.head {p : Pathname} (h : Searched execve k (p :: paths) s) : s.tried.head? = some p := by
  obtain ⟨-, rfl⟩ | ⟨-, t, -, rfl⟩ := searched_cons_iff.mp h <;> rfl

theorem Searched.ending (h : Searched execve k paths s) : s.ending ≠ .overran := by
  induction h with
  | fails => nofun
  | executes => nofun
  | next _ _ ih => exact ih

theorem tmp_eq (hpart : part = path.takeWhile (· ≠ ':')) (hsize : path.length + file.length + 2 ≤ size) :
    (part ++ '/' :: file).take (size - 1) = part ++ '/' :: file := by
  have hlen : part.length ≤ path.length := hpart ▸ (List.takeWhile_sublist _).length_le
  refine List.take_of_length_le ?_
  rw [List.length_append, List.length_cons]
  omega

theorem execvpeLoop_eq (hpath : path ≠ []) (hpart : part = path.takeWhile (· ≠ ':')) (hsize : path.length + file.length + 2 ≤ size) :
    execvpeLoop execve size file k eacces path = match execve k (part ++ '/' :: file) with
      | none => ⟨[part ++ '/' :: file], .executed⟩
      | some errno =>
        if errno ≠ EACCES ∧ errno ≠ ENOENT then
          ⟨[part ++ '/' :: file], .failed (if eacces || errno = EACCES then EACCES else ENOENT)⟩
        else if part.length < path.length then
          (execvpeLoop execve size file (k + 1) (eacces || errno = EACCES) (path.drop (part.length + 1))).cons (part ++ '/' :: file)
        else ⟨[part ++ '/' :: file], .overran⟩ := by
  rw [execvpeLoop, if_neg hpath]
  simp only [← hpart, tmp_eq hpart hsize]

theorem execvpeLoop_head (hpath : path ≠ []) (hpart : part = path.takeWhile (· ≠ ':')) (hsize : path.length + file.length + 2 ≤ size) :
    (execvpeLoop execve size file k eacces path).tried.head? = some (part ++ '/' :: file) := by
  rw [execvpeLoop_eq hpath hpart hsize]
  split
  · rfl
  · split
    · rfl
    · split <;> rfl

theorem searched_failed_iff {p : Pathname} (hsome : execve k p ≠ none) :
    Searched execve k (p :: paths) ⟨[p], .failed errno⟩ ↔ paths = [] := by
  rw [searched_cons_iff, or_iff_right fun h => hsome h.1, and_iff_right hsome]
  constructor
  · rintro ⟨t, ht, hcons⟩
    obtain rfl : t = ⟨[], .failed errno⟩ := by
      cases t
      cases hcons
      rfl
    cases paths with
    | nil => rfl
    | cons => cases ht.head
  · rintro rfl
    exact ⟨⟨[], .failed errno⟩, .fails _ errno, rfl⟩

theorem searched_next_iff {p : Pathname} (hsome : execve k p ≠ none) :
    Searched execve k (p :: paths) (s.cons p) ↔ Searched execve (k + 1) paths s := by
  rw [searched_cons_iff, or_iff_right fun h => hsome h.1, and_iff_right hsome]
  constructor
  · rintro ⟨t, ht, hcons⟩
    cases s
    cases t
    cases hcons
    exact ht
  · exact fun h => ⟨s, h, rfl⟩

theorem not_searched_empty (hpart : path.takeWhile (· ≠ ':') = []) (hsize : path.length + file.length + 2 ≤ size) :
    ¬ Searched execve k (file :: paths) (execvpeLoop execve size file k eacces path) := by
  intro hsearched
  have hhead := hsearched.head
  by_cases hnil : path = []
  · rw [execvpeLoop, if_pos hnil] at hhead
    cases hhead
  · rw [execvpeLoop_head hnil hpart.symm hsize] at hhead
    exact List.cons_ne_self _ _ (Option.some.inj hhead)

theorem execvpeLoop_searches_iff (hsize : path.length + file.length + 2 ≤ size) :
    Searched execve k ((path.splitOn ':').map (candidate file)) (execvpeLoop execve size file k eacces path) ↔
      Decided execve file k (path.splitOn ':') := by
  induction h : path.length using Nat.strongRecOn generalizing path k eacces with
  | ind n ih =>
    subst h
    obtain ⟨part, hpart⟩ : ∃ part, part = path.takeWhile (· ≠ ':') := ⟨_, rfl⟩
    obtain ⟨rest, hrest⟩ : ∃ rest, path.splitOn ':' = part :: rest := by
      obtain ⟨-, hsplit⟩ | ⟨rest, -, -, hsplit⟩ := splitOn_cases path hpart
      · exact ⟨[], hsplit⟩
      · exact ⟨_, hsplit⟩
    rw [hrest, List.map_cons]
    by_cases hempty : part = []
    · subst hempty
      exact iff_of_false (not_searched_empty hpart.symm hsize) not_decided_empty
    · have hnil : path ≠ [] := by
        rintro rfl
        exact hempty hpart
      have hcandidate : candidate file part = part ++ '/' :: file := if_neg hempty
      rw [execvpeLoop_eq hnil hpart hsize, hcandidate]
      cases hk : execve k (part ++ '/' :: file) with
      | none => exact iff_of_true (.executes _ hk) (.executes _ hempty hk)
      | some errno =>
        have hsome : execve k (part ++ '/' :: file) ≠ none := by simp [hk]
        rw [decided_cons_iff hempty hk]
        dsimp only
        by_cases herrno : errno ≠ EACCES ∧ errno ≠ ENOENT
        · rw [if_pos herrno, searched_failed_iff hsome, List.map_eq_nil_iff, or_iff_left fun h => not_or.mpr herrno h.1,
            and_iff_right herrno]
        · have hgo : errno = EACCES ∨ errno = ENOENT := by
            rwa [← not_or, not_not] at herrno
          rw [if_neg herrno, or_iff_right fun h => herrno h.1, and_iff_right hgo]
          obtain ⟨heq, hsplit⟩ | ⟨left, hlt, hdrop, hsplit⟩ := splitOn_cases path hpart
          · -- behind the last part the loop runs on
            obtain rfl : rest = [] := (List.cons.inj (hrest.symm.trans hsplit)).2
            rw [if_neg (by rw [heq]; exact Nat.lt_irrefl _)]
            exact iff_of_false (fun h => h.ending rfl) nofun
          · obtain rfl : rest = left.splitOn ':' := (List.cons.inj (hrest.symm.trans hsplit)).2
            have hleft : left.length < path.length := by
              rw [← hdrop, List.length_drop]
              omega
            rw [if_pos hlt, hdrop, searched_next_iff hsome, ih left.length hleft (by omega) rfl]

theorem execOne_searched (execve : Execve) (file : Pathname) : Searched execve 0 [file] (execOne execve file) := by
  unfold execOne
  split
  · next hnone => exact .executes [] hnone
  · next errno hsome => exact .next (by simp [hsome]) (.fails _ errno)

/-- **The search path**: the file is searched for in each part of `PATH` just if there is no `PATH` or an empty
one, or there is memory and its parts lead to an end other than that of `PATH`. -/
theorem execvpe_searches_iff (execve : Execve) (copied : Bool) (var : Option (List Char)) (hfile : '/' ∉ file) :
    Searched execve 0 (candidates var file) (execvpe execve copied var file) ↔
      var = none ∨ var = some [] ∨ ∃ v, var = some v ∧ copied ∧ Decided execve file 0 (v.splitOn ':') := by
  have hhead : file.head? ≠ some '/' := fun h => hfile (List.mem_of_head? h)
  unfold execvpe
  rw [if_neg hhead]
  cases var with
  | none => exact iff_of_true (execOne_searched execve file) (.inl rfl)
  | some v =>
    by_cases hv : v = []
    · subst hv
      refine iff_of_true ?_ (.inr (.inl rfl))
      cases copied
      · exact .fails 0 ENOMEM
      · dsimp only
        rw [if_pos rfl, execvpeLoop, if_pos rfl]
        exact .fails 0 _
    · have hcandidates : candidates (some v) file = (v.splitOn ':').map (candidate file) := by
        rw [candidates, parts, if_neg hv]
      simp only [hcandidates, reduceCtorEq, Option.some.injEq, hv, false_or, exists_eq_left']
      cases copied
      · refine iff_of_false (fun h => ?_) (by simp)
        obtain ⟨part, rest, hsplit⟩ := List.exists_cons_of_ne_nil (List.splitOn_ne_nil ':' v)
        rw [hsplit] at h
        cases h.head
      · rw [and_iff_right rfl]
        exact execvpeLoop_searches_iff (Nat.le_refl _)

def binSh : Execve := fun _ path => if path = "/bin/sh".toList then none else some ENOENT

theorem execvpe_searches_bin : '/' ∉ "sh".toList ∧
    Searched binSh 0 (candidates (some "/usr:/bin".toList) "sh".toList) (execvpe binSh true (some "/usr:/bin".toList) "sh".toList) := by
  have hsplit : "/usr:/bin".toList.splitOn ':' = ["/usr".toList, "/bin".toList] := by decide
  refine ⟨by decide, (execvpe_searches_iff binSh true _ (by decide)).mpr (.inr (.inr ⟨_, rfl, rfl, ?_⟩))⟩
  rw [hsplit]
  exact .next (by decide) (show _ = some ENOENT by decide) (.inr rfl) (.executes [] (by decide) (by decide))

/-- A file that is nowhere. -/
theorem execvpe_overruns : ¬ Searched (fun _ _ => some ENOENT) 0 (candidates (some "/bin".toList) "sh".toList)
    (execvpe (fun _ _ => some ENOENT) true (some "/bin".toList) "sh".toList) := by
  have hrun : (execvpe (fun _ _ => some ENOENT) true (some "/bin".toList) "sh".toList).ending = .overran := by
    simp [execvpe, execvpeLoop]
  exact fun h => h.ending hrun

end Sneks.Crt
