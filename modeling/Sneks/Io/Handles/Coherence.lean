import Sneks.Io.Handles.Defs
import Mathlib.Data.Finset.Card
import Mathlib.Order.Interval.Finset.Nat

/-!
# The arrays of handles are coherent

Every operation keeps the two families of arrays, the clients' and the files',
in agreement with the owner, file and positions recorded in each handle, and the
close callback of a file runs when its last handle goes.
-/

namespace Sneks.Io.Handles
open Lib

def Fd.onFile (f : Fd) : Option ℕ := f.owner.map fun _ => f.file

def Fd.core (f : Fd) : Fd := { f with fileIx := 0, clientIx := 0 }

namespace State

variable (s : State)

def clientHandles : ℕ → Option (List ℕ) := Option.map Client.handles ∘ s.clients

def tables : ℕ → Option (List ℕ) := Option.map Client.fdTable ∘ s.clients

def ownerOf : ℕ → Option ℕ := Fd.owner ∘ s.fd

def fileOf : ℕ → Option ℕ := Fd.onFile ∘ s.fd

def clientIx : ℕ → ℕ := Fd.clientIx ∘ s.fd

def fileIx : ℕ → ℕ := Fd.fileIx ∘ s.fd

end State

structure HandlesCoherent (s : State) : Prop where
  owner : ∀ id pid, (s.fd id).owner = some pid → ∃ c, s.clients pid = some c ∧
    ∀ n, c.handles[n]? = some id ↔ n = (s.fd id).clientIx
  file : ∀ id, (s.fd id).owner.isSome → ∃ hs, s.files (s.fd id).file = some hs ∧
    ∀ n, hs[n]? = some id ↔ n = (s.fd id).fileIx
  client_live : ∀ pid c, s.clients pid = some c → ∀ id ∈ c.handles, (s.fd id).owner = some pid
  file_live : ∀ f hs, s.files f = some hs → ∀ id ∈ hs, (s.fd id).owner.isSome ∧ (s.fd id).file = f
  close_once : ∀ f, s.closed.count f ≤ 1
  close_last : ∀ f, f ∈ s.closed ↔
    s.attached f ≠ 0 ∧ ∀ id, (s.fd id).owner.isSome → (s.fd id).file ≠ f

/-- The invariant. A file that is there has handles unless it never had any, and one
    that is gone was closed. -/
structure Coherent (s : State) : Prop where
  clients : BackIndexed s.clientHandles s.ownerOf s.clientIx
  files : BackIndexed s.files s.fileOf s.fileIx
  range : ∀ id, (s.fd id).owner.isSome → 1 ≤ id ∧ id ≤ maxFd
  unborn : ∀ f, s.nextFile ≤ f → s.files f = none ∧ s.attached f = 0
  used : ∀ f hs, s.files f = some hs → (hs = [] ↔ s.attached f = 0)
  closed : ∀ f, s.closed.count f = if s.attached f ≠ 0 ∧ s.files f = none then 1 else 0

variable {s t : State} {id pid file : ℕ}

theorem Coherent.handlesCoherent (h : Coherent s) : HandlesCoherent s where
  owner id pid ho := by
    obtain ⟨l, hl, hn⟩ := h.clients.held (i := id) ho
    obtain ⟨c, hc, rfl⟩ := Option.map_eq_some_iff.mp hl
    exact ⟨c, hc, fun n => ⟨fun he => (h.clients.back hl he).2.symm, fun he => he ▸ hn⟩⟩
  file id hlive := by
    obtain ⟨pid, ho⟩ := Option.isSome_iff_exists.mp hlive
    have hkey : s.fileOf id = some (s.fd id).file := by simp [State.fileOf, Fd.onFile, ho]
    obtain ⟨hs, hl, hn⟩ := h.files.held hkey
    exact ⟨hs, hl, fun n => ⟨fun he => (h.files.back hl he).2.symm, fun he => he ▸ hn⟩⟩
  client_live pid c hc id hm := by
    have hl : s.clientHandles pid = some c.handles := by simp [State.clientHandles, hc]
    exact (h.clients.mem_iff hl).mp hm
  file_live f hs hf id hm := by
    have hkey := (h.files.mem_iff hf).mp hm
    obtain ⟨pid, ho, he⟩ := Option.map_eq_some_iff.mp hkey
    exact ⟨Option.isSome_iff_exists.mpr ⟨pid, ho⟩, he⟩
  close_once f := by
    rw [h.closed]
    split <;> simp
  close_last f := by
    rw [← List.count_pos_iff, h.closed]
    constructor
    · intro hpos
      split at hpos
      · next hgone =>
        refine ⟨hgone.1, fun id hlive hf => ?_⟩
        obtain ⟨pid, ho⟩ := Option.isSome_iff_exists.mp hlive
        have hkey : s.fileOf id = some f := by simp [State.fileOf, Fd.onFile, ho, hf]
        obtain ⟨hs, hl, -⟩ := h.files.held hkey
        rw [hgone.2] at hl
        cases hl
      · simp at hpos
    · rintro ⟨hatt, hno⟩
      have hgone : s.files f = none := by
        cases hf : s.files f with
        | none => rfl
        | some hs =>
          have hne : hs ≠ [] := fun he => hatt ((h.used f hs hf).mp he)
          obtain ⟨id, hm⟩ := List.exists_mem_of_ne_nil hs hne
          obtain ⟨pid, ho, he⟩ := Option.map_eq_some_iff.mp ((h.files.mem_iff hf).mp hm)
          exact absurd he (hno id (Option.isSome_iff_exists.mpr ⟨pid, ho⟩))
      simp [hatt, hgone]

-- Adding a handle

theorem length_lt_ushort {l : List ℕ} (hnodup : l.Nodup) (hrange : ∀ i ∈ l, 1 ≤ i ∧ i ≤ maxFd) :
    l.length < 2 ^ 16 := by
  have hsub : l.toFinset ⊆ Finset.Icc 1 maxFd := by
    intro i hi
    rw [List.mem_toFinset] at hi
    exact Finset.mem_Icc.mpr (hrange i hi)
  have hcard := Finset.card_le_card hsub
  rw [List.toFinset_card_of_nodup hnodup, Nat.card_Icc] at hcard
  simp only [maxFd] at hcard
  omega

theorem ushort_length {arr : ℕ → Option (List ℕ)} {key : ℕ → Option ℕ} {ix : ℕ → ℕ} {k : ℕ}
    {l : List ℕ} (h : BackIndexed arr key ix) (hrange : ∀ i, (key i).isSome → 1 ≤ i ∧ i ≤ maxFd)
    (hk : arr k = some l) : ushort l.length = l.length := by
  refine Nat.mod_eq_of_lt (length_lt_ushort (h.nodup hk) fun i hi => hrange i ?_)
  rw [(h.mem_iff hk).mp hi]
  rfl

theorem Coherent.range_file (h : Coherent s) (i : ℕ) (hi : (s.fileOf i).isSome) :
    1 ≤ i ∧ i ≤ maxFd := by
  refine h.range i ?_
  simpa [State.fileOf, Fd.onFile] using hi

theorem Coherent.setNewClient (h : Coherent s) (hc : s.clients pid = none) (table : List ℕ) :
    Coherent (s.setClient pid ⟨[], table⟩) := by
  refine ⟨?_, h.files, h.range, h.unborn, h.used, h.closed⟩
  have hnew := h.clients.create (k := pid) (by simp [State.clientHandles, hc])
  simpa only [State.clientHandles, State.ownerOf, State.clientIx, State.setClient,
    Function.comp_update, Option.map_some] using hnew

theorem Coherent.getClient (h : Coherent s) (pid : ℕ) : Coherent (s.getClient pid) := by
  simp only [State.getClient]
  split
  · exact h
  · next hc => exact h.setNewClient hc []

theorem Coherent.attach {f : Fd} (h : Coherent s) (hfree : (s.fd id).owner = none)
    (hid : 1 ≤ id ∧ id ≤ maxFd) (hs : s.attach id pid f = some t) : Coherent t := by
  simp only [State.attach] at hs
  split at hs
  · next c hs' hc hf =>
    cases hs
    have hl : s.clientHandles pid = some c.handles := by simp [State.clientHandles, hc]
    have hclient := h.clients.attach (i := id) hfree hl
    have hfile := h.files.attach (i := id) (k := f.file) (l := hs')
      (by simp [State.fileOf, Fd.onFile, hfree]) hf
    have hatt : ∀ g, Function.update s.attached f.file (s.attached f.file + 1) g =
        if g = f.file then s.attached g + 1 else s.attached g := by
      intro g
      by_cases hg : g = f.file
      · subst hg
        simp
      · simp [hg]
    constructor
    case clients =>
      simpa only [State.clientHandles, State.ownerOf, State.clientIx, Function.comp_update,
        Option.map_some, ushort_length h.clients h.range hl] using hclient
    case files =>
      simpa only [State.fileOf, State.fileIx, Fd.onFile, Function.comp_update, Option.map_some,
        ushort_length h.files h.range_file hf] using hfile
    case range =>
      intro j hj
      by_cases hji : j = id
      · exact hji ▸ hid
      · exact h.range j (by simpa [hji] using hj)
    case unborn =>
      intro g hg
      have hne : g ≠ f.file := by
        rintro rfl
        rw [(h.unborn _ hg).1] at hf
        cases hf
      simpa [Function.update_of_ne hne] using h.unborn g hg
    case used =>
      intro g l hg
      simp only [hatt]
      by_cases hgf : g = f.file
      · subst hgf
        simp only [Function.update_self, Option.some.injEq] at hg
        simp [← hg]
      · simp only [Function.update_of_ne hgf] at hg
        rw [if_neg hgf]
        exact h.used g l hg
    case closed =>
      intro g
      simp only [h.closed, hatt]
      by_cases hgf : g = f.file
      · subst hgf
        simp [hf]
      · simp [hgf]
  · cases hs

-- Removing a handle

theorem setFd_self (s : State) {f : Fd} : (s.setFd id f).fd id = f := Function.update_self ..

theorem setFd_of_ne (s : State) {f : Fd} {j : ℕ} (hj : j ≠ id) : (s.setFd id f).fd j = s.fd j :=
  Function.update_of_ne hj ..

theorem core_setFd (s : State) {id : ℕ} {f : Fd} (hf : f.core = (s.fd id).core) (j : ℕ) :
    ((s.setFd id f).fd j).core = (s.fd j).core := by
  by_cases hj : j = id
  · subst hj
    rwa [setFd_self]
  · rw [setFd_of_ne s hj]

theorem eq_of_core {α : Type*} (g : Fd → α) (hg : ∀ f, g f.core = g f) {f f' : Fd}
    (hcore : f.core = f'.core) : g f = g f' := by
  rw [← hg f, hcore, hg f']

theorem ownerOf_eq (hcore : ∀ j, (t.fd j).core = (s.fd j).core) : t.ownerOf = s.ownerOf :=
  funext fun j => eq_of_core Fd.owner (fun _ => rfl) (hcore j)

theorem fileOf_eq (hcore : ∀ j, (t.fd j).core = (s.fd j).core) : t.fileOf = s.fileOf :=
  funext fun j => eq_of_core Fd.onFile (fun _ => rfl) (hcore j)

theorem removeFromClient_spec
    (h : BackIndexed s.clientHandles s.ownerOf s.clientIx) (hs : s.removeFromClient id = some t) :
    BackIndexed t.clientHandles (Function.update s.ownerOf id none) t.clientIx ∧
    t = { s with fd := t.fd, clients := t.clients } ∧
    (∀ j, (t.fd j).core = (s.fd j).core) ∧ t.fileIx = s.fileIx ∧
    ∃ pid c, (s.fd id).owner = some pid ∧ s.clients pid = some c ∧
      t.clients = Function.update s.clients pid
        (some { c with handles := removeFast c.handles (s.fd id).clientIx }) := by
  simp only [State.removeFromClient] at hs
  split at hs
  · cases hs
  next pid ho =>
  split at hs
  · cases hs
  next c hc =>
  split at hs
  · cases hs
  have hl : s.clientHandles pid = some c.handles := by simp [State.clientHandles, hc]
  split at hs
  · next j hj =>
    cases hs
    refine ⟨?_, rfl, fun i => ?_, ?_, pid, c, ho, hc, rfl⟩
    · have hdetach := h.detach (Function.update s.clientIx j (s.clientIx id)) ho hl
        (fun i hi => ?_) (fun i hne hi => ?_)
      · simpa only [State.clientHandles, State.clientIx, State.setClient, State.setFd,
          Function.comp_update, Function.comp_apply, Option.map_some] using hdetach
      · obtain rfl : j = i := Option.some.inj (hj.symm.trans hi)
        rw [Function.update_self]
      · have hij : i ≠ j := by
          rintro rfl
          exact hi hj
        rw [Function.update_of_ne hij]
    · exact core_setFd (s.setClient pid _) (by rfl) i
    · simp only [State.fileIx, State.setClient, State.setFd, Function.comp_update]
      exact Function.update_eq_self ..
  · next hnone =>
    cases hs
    refine ⟨?_, rfl, fun i => rfl, rfl, pid, c, ho, hc, rfl⟩
    have hdetach := h.detach s.clientIx ho hl (fun i hi => ?_) (fun _ _ _ => rfl)
    · simpa only [State.clientHandles, State.clientIx, State.setClient, Function.comp_update,
        Function.comp_apply, Option.map_some] using hdetach
    · exact absurd (hnone.symm.trans hi) (by simp)

theorem removeFromFile_spec (h : BackIndexed s.files s.fileOf s.fileIx)
    (hlive : (s.fd id).owner.isSome) (hs : s.removeFromFile id = some t) :
    BackIndexed t.files (Function.update s.fileOf id none) t.fileIx ∧
    t = { s with fd := t.fd, files := t.files } ∧
    (∀ j, (t.fd j).core = (s.fd j).core) ∧ t.clientIx = s.clientIx ∧
    ∃ hs, s.files (s.fd id).file = some hs ∧ id ∈ hs ∧
      t.files = Function.update s.files (s.fd id).file (some (removeFast hs (s.fd id).fileIx)) := by
  obtain ⟨pid, ho⟩ := Option.isSome_iff_exists.mp hlive
  have hkey : s.fileOf id = some (s.fd id).file := by simp [State.fileOf, Fd.onFile, ho]
  simp only [State.removeFromFile] at hs
  split at hs
  · cases hs
  next hs' hf =>
  split at hs
  · cases hs
  next hat =>
  have hm : id ∈ hs' := List.mem_of_getElem? (not_not.mp hat)
  split at hs
  · next j hj =>
    cases hs
    refine ⟨?_, rfl, fun i => ?_, ?_, hs', hf, hm, rfl⟩
    · have hdetach := h.detach (Function.update s.fileIx j (s.fileIx id)) hkey hf
        (fun i hi => ?_) (fun i hne hi => ?_)
      · simpa only [State.fileIx, State.setFd, Function.comp_update, Function.comp_apply] using hdetach
      · obtain rfl : j = i := Option.some.inj (hj.symm.trans hi)
        rw [Function.update_self]
      · have hij : i ≠ j := by
          rintro rfl
          exact hi hj
        rw [Function.update_of_ne hij]
    · exact core_setFd { s with files := _ } (by rfl) i
    · simp only [State.clientIx, State.setFd, Function.comp_update]
      exact Function.update_eq_self ..
  · next hnone =>
    cases hs
    refine ⟨?_, rfl, fun i => rfl, rfl, hs', hf, hm, rfl⟩
    exact h.detach s.fileIx hkey hf
      (fun i hi => absurd (hnone.symm.trans hi) (by simp)) (fun _ _ _ => rfl)

theorem closeFile_spec {key : ℕ → Option ℕ} {l : List ℕ} {destroyFile : Bool}
    (h : BackIndexed s.files key s.fileIx) (hf : s.files file = some l)
    (hlast : destroyFile = true ∨ l ≠ []) (ht : s.closeFile file destroyFile = t) :
    BackIndexed t.files key t.fileIx ∧ t = { s with files := t.files, closed := t.closed } ∧
    t.files = Function.update s.files file (if l = [] then none else some l) ∧
    t.closed = s.closed ++ if l = [] then [file] else [] := by
  subst ht
  by_cases hl : l = []
  · subst hl
    have hd : destroyFile = true := hlast.resolve_right (by simp)
    have hclose : s.closeFile file destroyFile =
        { s with files := Function.update s.files file none, closed := s.closed ++ [file] } := by
      simp [State.closeFile, hf, hd]
    rw [hclose]
    exact ⟨h.drop hf, rfl, rfl, rfl⟩
  · have hkeep : s.closeFile file destroyFile = s := by simp [State.closeFile, hf, hl]
    rw [hkeep, if_neg hl, if_neg hl, List.append_nil, ← hf, Function.update_eq_self]
    exact ⟨h, rfl, rfl, rfl⟩

/-- What destroying a handle does: its owner and its file forget it, and a file that has
    no handles left is closed. -/
structure Destroyed (s t : State) (id : ℕ) : Prop where
  dead : (t.fd id).owner = none
  frame : ∀ j, j ≠ id → (t.fd j).core = (s.fd j).core
  others : t = { s with
    fd := t.fd, clients := t.clients, files := t.files
    transfers := t.transfers, closed := t.closed }
  byClient : BackIndexed t.clientHandles (Function.update s.ownerOf id none) t.clientIx
  clients : ∃ pid c, (s.fd id).owner = some pid ∧ s.clients pid = some c ∧
    t.clients = Function.update s.clients pid
      (some { c with handles := removeFast c.handles (s.fd id).clientIx })
  byFile : BackIndexed t.files (Function.update s.fileOf id none) t.fileIx
  files : ∃ l l', s.files (s.fd id).file = some l ∧ id ∈ l ∧
    t.files = Function.update s.files (s.fd id).file (if l' = [] then none else some l') ∧
    t.closed = s.closed ++ if l' = [] then [(s.fd id).file] else []

theorem fdDtor_spec {destroyFile : Bool} (h : Coherent s)
    (hlast : destroyFile = true ∨ ∃ j, j ≠ id ∧ s.fileOf j = some (s.fd id).file)
    (hs : s.fdDtor id destroyFile = some t) : Destroyed s t id := by
  simp only [State.fdDtor, Option.bind_eq_bind, Option.bind_eq_some_iff] at hs
  obtain ⟨pid, ho, c, hc, hs⟩ := hs
  split at hs
  · cases hs
  simp only [Option.bind_eq_some_iff, Option.some.injEq] at hs
  obtain ⟨s₁, h₁, s₂, h₂, rfl⟩ := hs
  obtain ⟨hclients, he₁, hcore₁, hfix₁, hupd⟩ := removeFromClient_spec h.clients h₁
  have hfile₁ : (s₁.fd id).file = (s.fd id).file := eq_of_core Fd.file (fun _ => rfl) (hcore₁ id)
  have ho₁ : (s₁.fd id).owner = some pid := (eq_of_core Fd.owner (fun _ => rfl) (hcore₁ id)).trans ho
  have hfiles₁ : BackIndexed s₁.files s₁.fileOf s₁.fileIx := by
    rw [show s₁.files = s.files by rw [he₁], fileOf_eq hcore₁, hfix₁]
    exact h.files
  obtain ⟨hfiles, he₂, hcore₂, hcix₂, l, hf, hm, hupd₂⟩ :=
    removeFromFile_spec hfiles₁ (by rw [ho₁]; rfl) h₂
  have hcore : ∀ j, (s₂.fd j).core = (s.fd j).core := fun j => (hcore₂ j).trans (hcore₁ j)
  rw [hfile₁] at hf hupd₂
  rw [fileOf_eq hcore₁] at hfiles
  set l' := removeFast l (s₁.fd id).fileIx
  have hf₂ : s₂.files (s.fd id).file = some l' := by rw [hupd₂, Function.update_self]
  have hlast' : destroyFile = true ∨ l' ≠ [] := by
    refine hlast.imp_right ?_
    rintro ⟨j, hj, hfj⟩ hnil
    have hkey : Function.update s.fileOf id none j = some (s.fd id).file := by
      rw [Function.update_of_ne hj, hfj]
    obtain ⟨m, hm, hjm⟩ := hfiles.held hkey
    obtain rfl : l' = m := Option.some.inj (hf₂.symm.trans hm)
    simp [hnil] at hjm
  obtain ⟨hclosed, he₃, hupd₃, hcl₃⟩ := closeFile_spec hfiles hf₂ hlast' rfl
  set s₃ := s₂.closeFile (s.fd id).file destroyFile
  rw [show (if (s.fd id).transfer = true then
      { s₃ with transfers := s₃.transfers.filter (·.fd ≠ id) } else s₃) = { s₃ with
        transfers := if (s.fd id).transfer = true then s₃.transfers.filter (·.fd ≠ id)
          else s₃.transfers } by split <;> rfl]
  have hfd₃ : s₃.fd = s₂.fd := by rw [he₃]
  have hclients₃ : s₃.clients = s₁.clients := by rw [he₃, he₂]
  refine ⟨?_, fun j hj => ?_, ?_, ?_, ?_, ?_, l, l', ?_, hm, ?_, ?_⟩
  · simp [State.setFd]
  · simp only [State.setFd, Function.update_of_ne hj, hfd₃, hcore]
  · rw [he₃, he₂, he₁]
    rfl
  · have hix : Function.update (Fd.clientIx ∘ s₂.fd) id (s₂.fd id).clientIx = s₁.clientIx :=
      (Function.update_eq_self ..).trans hcix₂
    simp only [State.clientHandles, State.clientIx, State.setFd, Function.comp_update, hclients₃, hfd₃,
      hix]
    exact hclients
  · obtain ⟨pid, c, ho, hc, hupd⟩ := hupd
    exact ⟨pid, c, ho, hc, hclients₃.trans hupd⟩
  · have hix : Function.update (Fd.fileIx ∘ s₃.fd) id (s₃.fd id).fileIx = Fd.fileIx ∘ s₃.fd :=
      Function.update_eq_self ..
    simp only [State.fileIx, State.setFd, Function.comp_update, hix]
    exact hclosed
  · rw [he₁] at hf
    exact hf
  · exact hupd₃.trans (by rw [hupd₂, Function.update_idem, he₁])
  · exact hcl₃.trans (by rw [he₂, he₁])

theorem Coherent.destroyed (h : Coherent s) (hd : Destroyed s t id) : Coherent t := by
  have howner : t.ownerOf = Function.update s.ownerOf id none := by
    funext j
    by_cases hj : j = id
    · subst hj
      simp [State.ownerOf, hd.dead]
    · rw [Function.update_of_ne hj]
      exact eq_of_core Fd.owner (fun _ => rfl) (hd.frame j hj)
  have hfile : t.fileOf = Function.update s.fileOf id none := by
    funext j
    by_cases hj : j = id
    · subst hj
      simp [State.fileOf, Fd.onFile, hd.dead]
    · rw [Function.update_of_ne hj]
      exact eq_of_core Fd.onFile (fun _ => rfl) (hd.frame j hj)
  obtain ⟨l, l', hl, hm, hfiles, hclosed⟩ := hd.files
  have hatt : t.attached = s.attached := by rw [hd.others]
  have hused : s.attached (s.fd id).file ≠ 0 :=
    fun he => List.ne_nil_of_mem hm ((h.used _ l hl).mpr he)
  refine ⟨howner ▸ hd.byClient, hfile ▸ hd.byFile, fun j hj => ?_, fun g hg => ?_, fun g m hg => ?_,
    fun g => ?_⟩
  · have hj' : (t.ownerOf j).isSome := hj
    rw [howner] at hj'
    by_cases hji : j = id
    · simp [hji] at hj'
    · rw [Function.update_of_ne hji] at hj'
      exact h.range j hj'
  · rw [show t.nextFile = s.nextFile by rw [hd.others]] at hg
    have hne : g ≠ (s.fd id).file := by
      rintro rfl
      rw [(h.unborn _ hg).1] at hl
      cases hl
    rw [hfiles, Function.update_of_ne hne, hatt]
    exact h.unborn g hg
  · rw [hatt]
    rw [hfiles] at hg
    by_cases hgf : g = (s.fd id).file
    · subst hgf
      rw [Function.update_self] at hg
      split at hg
      · cases hg
      · next hne =>
        cases hg
        simp [hne, hused]
    · rw [Function.update_of_ne hgf] at hg
      exact h.used g m hg
  · rw [hclosed, List.count_append, h.closed, hatt, hfiles]
    by_cases hgf : g = (s.fd id).file
    · subst hgf
      by_cases hl' : l' = [] <;> simp [hl', hused, hl]
    · rw [Function.update_of_ne hgf]
      by_cases hl' : l' = [] <;> simp [hl', Ne.symm hgf]

end Sneks.Io.Handles
