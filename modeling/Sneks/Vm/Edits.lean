import Mathlib.Logic.Relation
import Sneks.Vm.Calls

/-!
# What calls do to the mappings

Apart from `vm_fork`, `vm_upload_page`, `vm_erase` and page faults, the calls change records and trees
of mappings, give up virtual pages, and cut shared anonymous memory. What each of these steps keeps,
they keep.
-/

namespace Sneks.Vm
open Lib

def LazyMmap.resize (mm : LazyMmap) (addr length tailsz : ℕ) : LazyMmap :=
  { mm with addr := addr, length := length, tailsz := tailsz }

inductive Edit (cfg : Config) (s : State) : State → Prop
  | space (pid : ℕ) (sp : Space) (used : sp.used = (s.spaces pid).used) (kip : sp.kipArea = (s.spaces pid).kipArea)
      (utcb : sp.utcbArea = (s.spaces pid).utcbArea) : Edit cfg s (s.setSpace pid sp)
  | resize (i addr length tailsz : ℕ) : Edit cfg s (s.setMm i ((s.mm i).resize addr length tailsz))
  | copy (i addr length tailsz : ℕ) : Edit cfg s (s.newMm ((s.mm i).resize addr length tailsz)).2
  | new (mm : LazyMmap) (self : mm.isAnonMmap = true → mm.fdServ = cfg.self)
      (zero : mm.isAnonMmap = true → mm.offset = 0) : Edit cfg s (s.newMm mm).2
  | table (l : List ℕ) : Edit cfg s { s with anonMmapTable := l }
  | anonIno (n : ℕ) : Edit cfg s { s with nextAnonIno := n }
  | remove (pid addr size : ℕ) (m : Mem) (h : s.mem.removeVpRange cfg pid addr size = some m) :
      Edit cfg s { s with mem := m }
  | cut (i first last : ℕ) (t : State) (h : s.cutAnonMmap cfg i first last = some t) : Edit cfg s t

def Edits (cfg : Config) (s t : State) : Prop := Relation.ReflTransGen (Edit cfg) s t

variable {cfg : Config} {s t u : State} {pid i : ℕ}

namespace State

theorem insertLazyMmap_mem : (s.insertLazyMmap cfg pid i).1.mem = s.mem := by
  rw [insertLazyMmap]
  split <;> rfl

theorem findLazyMmap_mem {addr : ℕ} : (s.findLazyMmap pid addr).2.mem = s.mem := by
  rw [findLazyMmap]
  split
  · rfl
  · split <;> rfl

theorem forkMaps_mem {dest : ℕ} {ans : ForkAnswer} {maps : List ℕ} {ok : Bool}
    (hs : forkMaps cfg dest ans maps s = some (t, ok)) : t.mem = s.mem := by
  induction maps generalizing s with
  | nil =>
    cases hs
    rfl
  | cons orig rest ih =>
    rw [forkMaps] at hs
    split at hs
    · cases hs
      rfl
    dsimp only at hs
    split at hs
    · obtain ⟨_, -, hs⟩ := Option.bind_eq_some_iff.mp hs
      split at hs
      · cases hs
        rfl
      · obtain ⟨_, -, hs⟩ := Option.bind_eq_some_iff.mp hs
        exact (ih hs).trans insertLazyMmap_mem
    · obtain ⟨_, -, hs⟩ := Option.bind_eq_some_iff.mp hs
      exact (ih hs).trans insertLazyMmap_mem

end State

namespace Edits

theorem refl (cfg : Config) (s : State) : Edits cfg s s := Relation.ReflTransGen.refl

theorem tail (h : Edits cfg s t) (he : Edit cfg t u) : Edits cfg s u := Relation.ReflTransGen.tail h he

theorem keeps {P : State → Prop} (h : Edits cfg s t) (hstep : ∀ u v, Edit cfg u v → P u → P v) (hs : P s) : P t := by
  induction h with
  | refl => exact hs
  | tail _ he ih => exact hstep _ _ he ih

theorem setMaps (h : Edits cfg s t) (pid : ℕ) (tree : RbTree) : Edits cfg s (t.setMaps pid tree) :=
  h.tail (.space pid _ rfl rfl rfl)

theorem setLast (h : Edits cfg s t) (pid : ℕ) (o : Option ℕ) : Edits cfg s (t.setLast pid o) :=
  h.tail (.space pid _ rfl rfl rfl)

theorem table (h : Edits cfg s t) (l : List ℕ) : Edits cfg s { t with anonMmapTable := l } := h.tail (.table l)

theorem insertLazyMmap (h : Edits cfg s t) (pid i : ℕ) : Edits cfg s (t.insertLazyMmap cfg pid i).1 := by
  rw [State.insertLazyMmap]
  split
  · exact h
  · exact h.setMaps _ _

theorem findLazyMmap (h : Edits cfg s t) (pid addr : ℕ) : Edits cfg s (t.findLazyMmap pid addr).2 := by
  rw [State.findLazyMmap]
  split
  · exact h
  · split
    · exact h.setLast _ _
    · exact h

theorem dropAnon (h : Edits cfg s t) (hu : t.dropAnon cfg i = some u) : Edits cfg s u := by
  obtain ⟨v, hv, rfl⟩ := Option.map_eq_some_iff.mp hu
  exact (h.tail (.cut _ _ _ _ hv)).table _

-- Unmapping

theorem unmapWhole (h : Edits cfg s t) (hu : t.unmapWhole cfg pid i = some u) : Edits cfg s u := by
  obtain ⟨v, hv, hu⟩ := Option.bind_eq_some_iff.mp hu
  have hdrop : Edits cfg s v := by
    split at hv
    · exact h.dropAnon hv
    · cases hv
      exact h
  cases hu
  split
  · exact (hdrop.setMaps _ _).setLast _ _
  · exact hdrop.setMaps _ _

theorem splitMmap (h : Edits cfg s t) (pid addr fin i : ℕ) : Edits cfg s (t.splitMmap cfg pid addr fin i).1 := by
  have hcopy : Edits cfg s (t.newMm ((t.mm i).moveUp fin)).2 := h.tail (.copy i _ _ _)
  have hcut : (t.mm i).cutTo addr = ((t.newMm ((t.mm i).moveUp fin)).2.mm i).resize (t.mm i).addr
      (wordSub addr (t.mm i).addr) pageSize := by
    by_cases hi : i = t.nextMm
    · rw [hi, show (t.newMm ((t.mm t.nextMm).moveUp fin)).2.mm t.nextMm = _ from Function.update_self ..]
      rfl
    · rw [show (t.newMm ((t.mm i).moveUp fin)).2.mm i = t.mm i from Function.update_of_ne hi _ _]
      rfl
  refine insertLazyMmap ?_ pid t.nextMm
  rw [hcut]
  exact hcopy.tail (.resize i _ _ _)

theorem unmapMiddle {addr fin : ℕ} (h : Edits cfg s t) (hu : t.unmapMiddle cfg pid addr fin i = some u) :
    Edits cfg s u := by
  have hsplit := h.splitMmap pid addr fin i
  obtain ⟨_, -, hu⟩ := Option.bind_eq_some_iff.mp hu
  split at hu
  · obtain ⟨v, hv, he⟩ := Option.bind_eq_some_iff.mp hu
    cases he
    exact (hsplit.tail (.cut _ _ _ _ hv)).table _
  · cases hu
    exact hsplit

theorem unmapLeft {addr : ℕ} (h : Edits cfg s t) (hu : t.unmapLeft cfg addr i = some u) : Edits cfg s u := by
  obtain ⟨_, -, hu⟩ := Option.bind_eq_some_iff.mp hu
  have hcut : Edits cfg s (t.setMm i ((t.mm i).cutTo addr)) := h.tail (.resize i _ _ _)
  split at hu
  · exact hcut.tail (.cut _ _ _ _ hu)
  · cases hu
    exact hcut

theorem unmapRight {addr fin : ℕ} (h : Edits cfg s t) (hu : t.unmapRight cfg addr fin i = some u) : Edits cfg s u := by
  obtain ⟨_, -, hu⟩ := Option.bind_eq_some_iff.mp hu
  obtain ⟨_, -, hu⟩ := Option.bind_eq_some_iff.mp hu
  obtain ⟨v, hv, hu⟩ := Option.bind_eq_some_iff.mp hu
  cases hu
  split at hv
  · -- what is cut is the page cache only
    have hmm : v.mm i = t.mm i := by
      obtain ⟨_, -, hv⟩ := Option.bind_eq_some_iff.mp hv
      obtain ⟨m, -, he⟩ := Option.bind_eq_some_iff.mp hv
      cases he
      rfl
    rw [← hmm]
    exact (h.tail (.cut _ _ _ _ hv)).tail (.resize i _ _ _)
  · cases hv
    exact h.tail (.resize i _ _ _)

theorem unmapOne {addr fin : ℕ} (h : Edits cfg s t) (hu : t.unmapOne cfg pid addr fin i = some u) : Edits cfg s u := by
  simp only [State.unmapOne] at hu
  split at hu
  · exact h.unmapWhole hu
  split at hu
  · exact h.unmapMiddle hu
  split at hu
  · exact h.unmapLeft hu
  · exact h.unmapRight hu

theorem munmapLoop {addr fin n : ℕ} {cur : Option ℕ} (h : Edits cfg s t)
    (hu : State.munmapLoop cfg pid addr fin n t cur = some u) : Edits cfg s u := by
  induction n generalizing t cur with
  | zero =>
    cases cur with
    | none =>
      cases hu
      exact h
    | some i => cases hu
  | succ n ih =>
    cases cur with
    | none =>
      cases hu
      exact h
    | some i =>
      obtain ⟨_, -, hu⟩ := Option.bind_eq_some_iff.mp hu
      split at hu
      · cases hu
        exact h
      · obtain ⟨v, hv, hu⟩ := Option.bind_eq_some_iff.mp hu
        exact ih (h.unmapOne hv) hu

theorem munmapSpace {addr size : ℕ} (h : Edits cfg s t) (hu : t.munmapSpace cfg pid addr size = some u) :
    Edits cfg s u := by
  obtain ⟨_, -, hu⟩ := Option.bind_eq_some_iff.mp hu
  obtain ⟨_, -, hu⟩ := Option.bind_eq_some_iff.mp hu
  obtain ⟨m, hm, hu⟩ := Option.bind_eq_some_iff.mp hu
  obtain ⟨v, hv, hu⟩ := Option.bind_eq_some_iff.mp hu
  obtain ⟨_, -, hu⟩ := Option.bind_eq_some_iff.mp hu
  cases hu
  exact (h.tail (.remove _ _ _ _ hm)).munmapLoop hv

-- Placing

theorem placeHint {address length : ℕ} (h : Edits cfg s t) : Edits cfg s (t.placeHint cfg pid i address length).1 := by
  have hhint : Edits cfg s (if address = 0 then (t, false) else t.insertLazyMmap cfg pid i).1 := by
    split
    · exact h
    · exact h.insertLazyMmap pid i
  rw [State.placeHint]
  generalize (if address = 0 then (t, false) else t.insertLazyMmap cfg pid i) = hint at hhint ⊢
  by_cases hok : hint.2 = true
  · rw [if_pos hok]
    exact hhint
  · rw [if_neg hok]
    have hbot : Edits cfg s (t.setSpace pid { t.spaces pid with mmapBot := wordSub (t.spaces pid).mmapBot length }) :=
      h.tail (.space pid _ rfl rfl rfl)
    exact insertLazyMmap (hbot.tail (.resize i _ _ _)) pid i

theorem placeFixed {address length : ℕ} {r : State × Bool} (h : Edits cfg s t)
    (hr : t.placeFixed cfg pid i address length = some r) : Edits cfg s r.1 := by
  have hfirst := h.insertLazyMmap pid i
  rw [State.placeFixed] at hr
  generalize t.insertLazyMmap cfg pid i = first at hfirst hr
  by_cases hok : first.2 = true
  · rw [if_pos hok, Option.some.injEq] at hr
    exact hr ▸ hfirst
  · rw [if_neg hok] at hr
    obtain ⟨v, hv, rfl⟩ := Option.map_eq_some_iff.mp hr
    exact (h.munmapSpace hv).insertLazyMmap pid i

theorem place {address length : ℕ} {fixed : Bool} {r : State × Bool} (h : Edits cfg s t)
    (hr : t.place cfg pid i address length fixed = some r) : Edits cfg s r.1 := by
  rw [State.place] at hr
  split at hr
  · exact h.placeFixed hr
  · rw [Option.some.injEq] at hr
    exact hr ▸ h.placeHint

theorem reserveMmap {address length : ℕ} {fixed ok : Bool} {r : Result Unit} (h : Edits cfg s t)
    (hu : t.reserveMmap cfg pid i address length fixed ok = some (u, r)) : Edits cfg s u := by
  simp only [State.reserveMmap, Option.bind_eq_bind, Option.bind_eq_some_iff] at hu
  obtain ⟨_, -, _, -, hu⟩ := hu
  split at hu
  · cases hu
    exact h
  split at hu
  · cases hu
    exact h
  obtain ⟨r', hr', hu⟩ := Option.bind_eq_some_iff.mp hu
  obtain ⟨_, -, he⟩ := Option.bind_eq_some_iff.mp hu
  cases he
  refine place ?_ hr'
  rw [State.addAnon]
  split
  · exact (h.table _).tail (.resize i _ _ _)
  · exact h.tail (.resize i _ _ _)

theorem newPrivate {mm : LazyMmap} (h : Edits cfg s t) (hmm : mm.shared = false) : Edits cfg s (t.newMm mm).2 := by
  have hnot : mm.isAnonMmap ≠ true := by
    rw [LazyMmap.isAnonMmap, hmm, Bool.and_false]
    exact Bool.false_ne_true
  exact h.tail (.new mm (fun hanon => absurd hanon hnot) fun hanon => absurd hanon hnot)

theorem vmMmap {sender target addr length prot offset : ℕ} {flags : MapFlags} {fdServ : Tid} {fd : ℤ}
    {ans : State.MmapAnswer} {r : Result ℕ}
    (hs : s.vmMmap cfg sender target addr length prot flags fdServ fd offset ans = some (t, r)) : Edits cfg s t := by
  simp only [State.vmMmap] at hs
  generalize (if target = 0 then sender else target) = target at hs
  split at hs
  · cases hs
    exact .refl cfg s
  split at hs
  · cases hs
    exact .refl cfg s
  split at hs
  · cases hs
    exact .refl cfg s
  obtain ⟨⟨u, r'⟩, hr, he⟩ := Option.bind_eq_some_iff.mp hs
  cases he
  refine reserveMmap ?_ hr
  have hnew (mm : LazyMmap) (hself : mm.isAnonMmap = true → mm.fdServ = cfg.self)
      (hzero : mm.isAnonMmap = true → mm.offset = 0) : Edits cfg s (s.newMm mm).2 :=
    (Edits.refl cfg s).tail (.new mm hself hzero)
  split
  · exact (hnew _ (fun _ => rfl) fun _ => rfl).tail (.anonIno _)
  · next hshared => exact hnew _ (fun hanon => absurd hanon hshared) fun hanon => absurd hanon hshared

theorem vmMunmap {sender addr size : ℕ} {r : Result Unit} (hs : s.vmMunmap cfg sender addr size = some (t, r)) :
    Edits cfg s t := by
  simp only [State.vmMunmap] at hs
  split at hs
  · cases hs
    exact .refl cfg s
  · obtain ⟨u, hu, he⟩ := Option.map_eq_some_iff.mp hs
    cases he
    exact (Edits.refl cfg s).munmapSpace hu

theorem brkGrow {addr : ℕ} {malloc : Bool} {r : Result Unit} (hs : s.brkGrow cfg pid addr malloc = some (t, r)) :
    Edits cfg s t := by
  have hfind := (Edits.refl cfg s).findLazyMmap pid (s.spaces pid).brk
  simp only [State.brkGrow] at hs
  generalize s.findLazyMmap pid (s.spaces pid).brk = found at hfind hs
  split at hs
  · cases hs
    exact hfind
  · cases hs
    exact hfind.tail (.resize _ _ _ _)
  · split at hs
    · cases hs
      exact hfind
    · exact (hfind.newPrivate rfl).reserveMmap hs

theorem brkShrink {addr : ℕ} (hs : s.brkShrink cfg pid addr = some t) : Edits cfg s t := by
  have hfind := (Edits.refl cfg s).findLazyMmap pid (wordSub (s.spaces pid).brk 1)
  simp only [State.brkShrink] at hs
  generalize s.findLazyMmap pid (wordSub (s.spaces pid).brk 1) = found at hfind hs
  split at hs
  · next i _ =>
    obtain ⟨m, hm, rfl⟩ := Option.map_eq_some_iff.mp hs
    exact (hfind.tail (.resize i _ _ _)).tail (.remove _ _ _ _ hm)
  · exact hfind.munmapSpace hs

theorem vmBrk {sender addr : ℕ} {malloc : Bool} {r : Result Unit} (hs : s.vmBrk cfg sender addr malloc = some (t, r)) :
    Edits cfg s t := by
  rw [State.vmBrk] at hs
  split at hs
  · cases hs
    exact .refl cfg s
  obtain ⟨_, -, hs⟩ := Option.bind_eq_some_iff.mp hs
  obtain ⟨⟨u, r'⟩, hu, hs⟩ := Option.bind_eq_some_iff.mp hs
  have hmove : Edits cfg s u := by
    simp only [State.brkMove] at hu
    split at hu
    · cases hu
      exact .refl cfg s
    split at hu
    · exact brkGrow hu
    · obtain ⟨u', hu', he⟩ := Option.map_eq_some_iff.mp hu
      cases he
      exact brkShrink hu'
  cases r' with
  | error e =>
    cases hs
    exact hmove
  | ok =>
    cases hs
    exact hmove.tail (.space sender _ rfl rfl rfl)

theorem eraseMmaps {maps : List ℕ} (h : Edits cfg s t) (hu : State.eraseMmaps cfg pid maps t = some u) :
    Edits cfg s u := by
  induction maps generalizing t with
  | nil =>
    cases hu
    exact h
  | cons i rest ih =>
    obtain ⟨v, hv, hu⟩ := Option.bind_eq_some_iff.mp hu
    have hcut : Edits cfg s v := by
      rw [State.eraseAnon] at hv
      split at hv
      · obtain ⟨_, -, hv⟩ := Option.bind_eq_some_iff.mp hv
        exact h.dropAnon hv
      · cases hv
        exact h
    exact ih (hcut.setMaps _ _) hu

end Edits

end Sneks.Vm
