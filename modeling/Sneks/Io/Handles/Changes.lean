import Sneks.Io.Handles.Tables

/-!
# What a step changes

Every call and event of the server is a sequence of small changes to handles, tables
and transfer records. Each is stated by what it needs and what it leaves, so that an
invariant is kept by a step when it is kept by each change. Offering a handle to another
client and taking it over stand apart: each is the work of one call.
-/

namespace Sneks.Io.Handles
open Lib Relation

def Fd.ident (f : Fd) : Fd := { f with fileIx := 0, clientIx := 0, cloexec := false }

/-- The handle `id` goes; an inherited one may be taken from its owner's table at that. -/
structure Dropped (s t : State) (id : ℕ) : Prop where
  live : (s.fd id).owner.isSome
  dead : (t.fd id).owner = none
  frame : ∀ j, j ≠ id → (t.fd j).ident = (s.fd j).ident
  tables : t.tables = s.tables ∨ (s.fd id).shadow = true ∧ ∃ pid tbl,
    (s.fd id).owner = some pid ∧ s.tables pid = some tbl ∧
      t.tables = Function.update s.tables pid (some (tbl.set (s.fd id).origFd 0))
  transfers : t.transfers =
    if (s.fd id).transfer then s.transfers.filter (·.fd ≠ id) else s.transfers

/-- A free slot becomes a handle of `pid` under its own number. -/
structure Opened (s t : State) (pid id : ℕ) : Prop where
  free : (s.fd id).owner = none
  pos : 0 < id
  owner : (t.fd id).owner = some pid
  shadow : (t.fd id).shadow = false
  transfer : (t.fd id).transfer = false
  frame : ∀ j, j ≠ id → (t.fd j).ident = (s.fd j).ident
  tables : t.tables = s.tables
  unshadowed : ∀ tbl, s.tables pid = some tbl → tbl.getD id 0 = 0
  transfers : t.transfers = s.transfers

/-- A free slot becomes the child's copy of `id`. -/
structure Copied (s t : State) (child id newfd : ℕ) : Prop where
  free : (s.fd newfd).owner = none
  pos : 0 < newfd
  live : (s.fd id).owner.isSome
  other : (s.fd id).owner ≠ some child
  owner : (t.fd newfd).owner = some child
  shadow : (t.fd newfd).shadow = true
  transfer : (t.fd newfd).transfer = false
  origFd : (t.fd newfd).origFd = id
  frame : ∀ j, j ≠ newfd → (t.fd j).ident = (s.fd j).ident
  tables : ∃ tbl, s.tables child = some tbl ∧ tbl[id]? = some 0 ∧ tbl.getD newfd 0 = 0 ∧
    t.tables = Function.update s.tables child (some (tbl.set id newfd))
  transfers : t.transfers = s.transfers

structure Offered (s t : State) (id target : ℕ) : Prop where
  live : (s.fd id).owner.isSome
  shadow : (s.fd id).shadow = false
  before : (s.fd id).transfer = false
  after : (t.fd id).ident = { s.fd id with transfer := true }.ident
  frame : ∀ j, j ≠ id → (t.fd j).ident = (s.fd j).ident
  tables : t.tables = s.tables
  transfers : t.transfers = s.transfers ++ [⟨id, target⟩]

/-- The handle `id` goes to client `pid`, for whom there was a record. -/
structure Touched (s t : State) (pid id : ℕ) : Prop where
  live : (s.fd id).owner.isSome
  shadow : (s.fd id).shadow = false
  before : (s.fd id).transfer = true
  after : (t.fd id).ident = { s.fd id with owner := some pid, transfer := false }.ident
  frame : ∀ j, j ≠ id → (t.fd j).ident = (s.fd j).ident
  tables : t.tables = s.tables
  transfers : ∃ tr ∈ s.transfers, tr.fd = id ∧ State.transferMatch tr pid = true ∧
    t.transfers = s.transfers.erase tr

inductive Change (s t : State) : Prop
  /-- Nothing of interest here, or the flag for exec. -/
  | same (hfd : ∀ j, (t.fd j).ident = (s.fd j).ident) (htables : t.tables = s.tables)
      (htransfers : t.transfers = s.transfers)
  /-- A client without handles comes or goes. -/
  | client (pid : ℕ) (hnone : ∀ j, (s.fd j).owner ≠ some pid) (hfd : t.fd = s.fd)
      (htables : ∃ tbl, t.tables = Function.update s.tables pid tbl)
      (htransfers : t.transfers = s.transfers)
  | dropped (id : ℕ) (h : Dropped s t id)
  | opened (pid id : ℕ) (h : Opened s t pid id)
  | copied (child id newfd : ℕ) (h : Copied s t child id newfd)
  /-- A record goes whose handle is gone. -/
  | stale (tr : Transfer) (hstale : (s.fd tr.fd).owner = none ∨ (s.fd tr.fd).transfer = false)
      (hmem : tr ∈ s.transfers) (hfd : t.fd = s.fd) (htables : t.tables = s.tables)
      (htransfers : t.transfers = s.transfers.erase tr)

abbrev Changes : State → State → Prop := ReflTransGen Change

variable {s t u : State} {id pid file : ℕ}

theorem ident_of_core {f g : Fd} (h : f.core = g.core) : f.ident = g.ident :=
  eq_of_core Fd.ident (fun _ => rfl) h

theorem eq_of_ident {α : Type*} (g : Fd → α) (hg : ∀ f, g f.ident = g f) {f f' : Fd}
    (hident : f.ident = f'.ident) : g f = g f' := by
  rw [← hg f, hident, hg f']

theorem owner_of_ident {f g : Fd} (h : f.ident = g.ident) : f.owner = g.owner :=
  eq_of_ident Fd.owner (fun _ => rfl) h

theorem shadow_of_ident {f g : Fd} (h : f.ident = g.ident) : f.shadow = g.shadow :=
  eq_of_ident Fd.shadow (fun _ => rfl) h

theorem origFd_of_ident {f g : Fd} (h : f.ident = g.ident) : f.origFd = g.origFd :=
  eq_of_ident Fd.origFd (fun _ => rfl) h

theorem transfer_of_ident {f g : Fd} (h : f.ident = g.ident) : f.transfer = g.transfer :=
  eq_of_ident Fd.transfer (fun _ => rfl) h

theorem Change.of_eq (hfd : t.fd = s.fd) (hclients : t.clients = s.clients)
    (htransfers : t.transfers = s.transfers) : Change s t :=
  .same (fun j => by rw [hfd]) (by rw [State.tables, hclients, State.tables]) htransfers

theorem Coherent.no_handle (h : Coherent s) (hc : s.clients pid = none) (j : ℕ) :
    (s.fd j).owner ≠ some pid := by
  intro ho
  obtain ⟨l, hl, -⟩ := h.clients.held (i := j) ho
  simp [State.clientHandles, hc] at hl

theorem Coherent.changes_setNewClient {table : List ℕ} (h : Coherent s) (hc : s.clients pid = none) :
    Change s (s.setClient pid ⟨[], table⟩) :=
  .client pid (h.no_handle hc) rfl ⟨some table, tables_setClient⟩ rfl

theorem Coherent.changes_getClient (h : Coherent s) (pid : ℕ) : Changes s (s.getClient pid) := by
  simp only [State.getClient]
  split
  · exact .refl
  · next hc => exact .single (h.changes_setNewClient hc)

theorem getElem?_zero_of_shadows {c : Client} {n : ℕ} (h : c.shadows n = false) :
    c.fdTable.getD n 0 = 0 := by
  simpa [Client.shadows] using h

theorem Inv.changes_ioAddFd {cloexec : Bool} {ids : List ℕ} {r : Result} (h : Inv s)
    (hs : s.ioAddFd pid file cloexec ids = some (t, r)) :
    Changes s t ∧ ∀ id, r = .ok id → (t.fd id).transfer = false := by
  have hg := h.coherent.changes_getClient pid
  simp only [State.ioAddFd] at hs
  split at hs
  · next c l hc hf =>
    split at hs
    · cases hs
      exact ⟨hg, by rintro _ ⟨⟩⟩
    split at hs
    · cases hs
      exact ⟨hg, by rintro _ ⟨⟩⟩
    split at hs
    · cases hs
    · cases hs
      exact ⟨hg, by rintro _ ⟨⟩⟩
    next id rest halloc =>
    split at hs
    · cases hs
    next u hu =>
    cases hs
    obtain ⟨hfree, hrange, hunsh⟩ := allocFd_spec halloc
    obtain ⟨hcore, hframe, he, c', hc', hclients⟩ := attach_spec hu
    have htransfer : (t.fd id).transfer = false := eq_of_core Fd.transfer (fun _ => rfl) hcore
    constructor
    · refine hg.tail (.opened pid id ?_)
      refine ⟨hfree, hrange.1, eq_of_core Fd.owner (fun _ => rfl) hcore, eq_of_core Fd.shadow (fun _ => rfl) hcore,
        htransfer, fun j hj => by rw [hframe j hj], tables_update hc' (by rfl) hclients,
        fun tbl htbl => ?_, by rw [he]⟩
      simp only [State.tables, Function.comp_apply, hc, Option.map_some, Option.some.injEq] at htbl
      rw [← htbl]
      exact getElem?_zero_of_shadows hunsh
    · rintro _ ⟨⟩
      exact htransfer
  · cases hs

theorem fdDtor_transfers {destroyFile : Bool} (h : Coherent s) (hs : s.fdDtor id destroyFile = some t) :
    t.transfers = if (s.fd id).transfer then s.transfers.filter (·.fd ≠ id) else s.transfers := by
  simp only [State.fdDtor, Option.bind_eq_bind, Option.bind_eq_some_iff] at hs
  obtain ⟨pid, ho, c, hc, hs⟩ := hs
  split at hs
  · cases hs
  simp only [Option.bind_eq_some_iff, Option.some.injEq] at hs
  obtain ⟨s₁, h₁, s₂, h₂, rfl⟩ := hs
  obtain ⟨-, he₁, hcore₁, hfix₁, -⟩ := removeFromClient_spec h.clients h₁
  have ho₁ : (s₁.fd id).owner = some pid := (eq_of_core Fd.owner (fun _ => rfl) (hcore₁ id)).trans ho
  have hfiles₁ : BackIndexed s₁.files s₁.fileOf s₁.fileIx := by
    rw [show s₁.files = s.files by rw [he₁], fileOf_eq hcore₁, hfix₁]
    exact h.files
  obtain ⟨-, he₂, -⟩ := removeFromFile_spec hfiles₁ (by rw [ho₁]; rfl) h₂
  have h₃ : (s₂.closeFile (s.fd id).file destroyFile).transfers = s.transfers := by
    rw [show s.transfers = s₂.transfers by rw [he₂, he₁]]
    simp only [State.closeFile]
    split <;> rfl
  split <;> simp only [State.setFd, h₃]

theorem fdDtor_dropped {destroyFile : Bool} (h : Coherent s)
    (hlast : destroyFile = true ∨ ∃ j, j ≠ id ∧ s.fileOf j = some (s.fd id).file)
    (hs : s.fdDtor id destroyFile = some t) : Dropped s t id := by
  have hd := fdDtor_spec h hlast hs
  obtain ⟨pid, c, ho, -⟩ := hd.clients
  exact ⟨by rw [ho]; rfl, hd.dead, fun j hj => ident_of_core (hd.frame j hj), .inl hd.tables,
    fdDtor_transfers h hs⟩

theorem Inv.lateCloseFd_dropped (h : Inv s) (hs : s.lateCloseFd id = some t) : Dropped s t id := by
  simp only [State.lateCloseFd] at hs
  split at hs
  · cases hs
  next pid ho =>
  split at hs
  · next hsh =>
    split at hs
    · cases hs
    next c hc =>
    split at hs
    · have hcoh := h.coherent.setTable hc (c.fdTable.set (s.fd id).origFd 0)
      have hd := fdDtor_spec hcoh (.inl rfl) hs
      refine ⟨by rw [ho]; rfl, hd.dead, fun j hj => ident_of_core (hd.frame j hj),
        .inr ⟨hsh, pid, c.fdTable, ho, by simp [State.tables, hc], ?_⟩, (fdDtor_transfers hcoh hs :)⟩
      rw [hd.tables, tables_setClient]
    · cases hs
  · exact fdDtor_dropped h.coherent (.inl rfl) hs

theorem Inv.changes_addTransfer {target : ℕ} {hashOk : Bool} {r : Result} (h : Inv s)
    (hlive : (s.fd id).owner.isSome) (hsh : (s.fd id).shadow = false)
    (htransfer : (s.fd id).transfer = false)
    (hlast : ∃ j, j ≠ id ∧ s.fileOf j = some (s.fd id).file)
    (hs : s.addTransfer id target hashOk = some (t, r)) :
    (r = .error .ENOMEM ∧ Dropped s t id) ∨ (r = .ok id ∧ Offered s t id target) := by
  simp only [State.addTransfer] at hs
  split at hs
  · cases hs
    refine .inr ⟨rfl, hlive, hsh, htransfer, ?_, fun j hj => ?_, rfl, rfl⟩
    · rw [setFd_self]
    · rw [setFd_of_ne _ hj]
  · simp only [Option.bind_eq_bind, Option.bind_eq_some_iff, Option.some.injEq, Prod.mk.injEq] at hs
    obtain ⟨u, hu, rfl, rfl⟩ := hs
    exact .inl ⟨rfl, fdDtor_dropped h.coherent (.inr hlast) hu⟩

def Offers (s t : State) (id : ℕ) : Prop :=
  ∃ u v target, Changes s u ∧ Offered u v id target ∧ t = { v with rb := t.rb }

theorem Inv.changes_internalDup {sender : Tid} {tag : Tag} {oldfd : ℕ} {receiver : Option ℕ}
    {cloexec hashOk : Bool} {ids : List ℕ} {r : Result} (h : Inv s)
    (hs : s.internalDup sender tag oldfd receiver cloexec hashOk ids = some (t, r)) :
    Changes s t ∨ receiver ≠ none ∧ ∃ id, r = .ok id ∧ Offers s t id := by
  simp only [State.internalDup] at hs
  split at hs
  · cases hs
  · cases hs
    exact .inl .refl
  next old hold =>
  have ho := h.getFd_owner hold
  split at hs
  · cases hs
    exact .inl .refl
  simp only [Option.bind_eq_bind, Option.bind_eq_some_iff] at hs
  obtain ⟨⟨u, q⟩, hadd, hs⟩ := hs
  obtain ⟨hu, hadded⟩ := h.ioAddFd hadd
  obtain ⟨hsu, hnew⟩ := h.changes_ioAddFd hadd
  split at hs
  · cases hs
    exact .inl hsu
  next id hq =>
  obtain ⟨hfree, hframe, hown, hfile, hsh⟩ := hadded id hq
  split at hs
  · cases hs
    exact .inl (hsu.tail (.of_eq rfl rfl rfl))
  simp only [Option.bind_eq_some_iff] at hs
  obtain ⟨⟨v, q⟩, htrans, hs⟩ := hs
  have hne : old ≠ id := by
    rintro rfl
    rw [ho] at hfree
    cases hfree
  have hlast : u.fileOf old = some (u.fd id).file := by
    simp [State.fileOf, Fd.onFile, hframe old hne, ho, hfile]
  rcases hu.changes_addTransfer (by rw [hown]; rfl) hsh (hnew id hq) ⟨old, hne, hlast⟩ htrans with
    ⟨rfl, hd⟩ | ⟨rfl, ho⟩
  · cases hs
    exact .inl (hsu.tail (.dropped id hd))
  · cases hs
    exact .inr ⟨by rintro ⟨⟩, id, rfl, u, v, _, hsu, ho, rfl⟩

theorem changes_setHandleFlags {sender : Tid} {fd : ℕ} {orCloexec andCloexec : Bool} {r : Result}
    (hs : s.setHandleFlags sender fd orCloexec andCloexec = some (t, r)) : Changes s t := by
  simp only [State.setHandleFlags] at hs
  split at hs
  · cases hs
  · cases hs
    exact .refl
  next id hid =>
  cases hs
  refine .single (.same (fun j => ?_) rfl rfl)
  by_cases hj : j = id
  · subst hj
    rw [setFd_self]
    rfl
  · rw [setFd_of_ne s hj]

theorem getClient_transfers : (s.getClient pid).transfers = s.transfers := by
  simp only [State.getClient]
  split <;> rfl

theorem Inv.changes_touch {sender : Tid} {newfd : ℕ} {r : Result} (h : Inv s)
    (hs : s.touch sender newfd = some (t, r)) :
    (r = .error .EBADF ∧ Changes s t) ∨
      (r = .ok 0 ∧ Touched (s.getClient (pidof sender)) t (pidof sender) newfd) := by
  have hg := h.coherent.changes_getClient (pidof sender)
  have hinv := h.getClient (pidof sender)
  simp only [State.touch] at hs
  generalize s.getClient (pidof sender) = u at *
  split at hs
  · cases hs
    exact .inl ⟨rfl, hg⟩
  next tr htr =>
  have hmem := List.mem_of_find?_eq_some htr
  obtain ⟨hfdeq, hmatch⟩ : tr.fd = newfd ∧ State.transferMatch tr (pidof sender) = true := by
    simpa using List.find?_some htr
  split at hs
  · next hstale =>
    cases hs
    refine .inl ⟨rfl, hg.tail (.stale tr ?_ hmem rfl rfl rfl)⟩
    simpa [hfdeq] using hstale
  next hlive =>
  simp only [Option.bind_eq_bind, Option.bind_eq_some_iff, Option.some.injEq, Prod.mk.injEq] at hs
  obtain ⟨v, hv, c, hc, rfl, rfl⟩ := hs
  simp only [Bool.or_eq_true, Option.isNone_iff_eq_none, Bool.not_eq_true', not_or,
    Bool.not_eq_false] at hlive
  have hown : (u.fd newfd).owner.isSome := Option.isSome_iff_ne_none.mpr hlive.1
  obtain ⟨-, he, hcore, -, p, c₀, ho₀, hc₀, hupd⟩ :=
    removeFromClient_spec (s := { u with transfers := u.transfers.erase tr }) hinv.coherent.clients hv
  refine .inr ⟨rfl, hown, hinv.tabled.transfer newfd hown hlive.2, hlive.2,
    ?_, fun j hj => ?_, ?_, tr, hmem, hfdeq, hmatch, ?_⟩
  · rw [setFd_self]
    exact ident_of_core (congrArg (fun f : Fd => { f with owner := some (pidof sender), transfer := false })
      (hcore newfd))
  · rw [setFd_of_ne _ hj]
    exact ident_of_core (hcore j)
  · have hvu : v.tables = u.tables :=
      tables_update (s := { u with transfers := u.transfers.erase tr }) hc₀ (by rfl) hupd
    rw [← hvu]
    exact tables_update hc (by rfl) rfl
  · rw [he]
    rfl

theorem forkOne_transfers {child : ℕ} {ids rest : List ℕ} (hs : s.forkOne child id ids = some (t, rest)) :
    t.transfers = s.transfers := by
  simp only [State.forkOne, Option.bind_eq_bind, Option.bind_eq_some_iff] at hs
  obtain ⟨c, hc, ⟨_, rest'⟩, halloc, newfd, rfl, u, hu, c', hc', hs⟩ := hs
  split at hs
  · cases hs
    obtain ⟨-, -, he, -⟩ := attach_spec hu
    show u.transfers = s.transfers
    rw [he]
  · cases hs

theorem Inv.changes_forkOne {child : ℕ} {ids rest : List ℕ} (h : Inv s)
    (hlive : (s.fd id).owner.isSome) (hother : (s.fd id).owner ≠ some child)
    (hs : s.forkOne child id ids = some (t, rest)) :
    Inv t ∧ ∃ newfd, Copied s t child id newfd := by
  obtain ⟨hinv, newfd, c, hf⟩ := h.forkOne hs
  refine ⟨hinv, newfd, hf.free, hf.pos, hlive, hother, eq_of_core Fd.owner (fun _ => rfl) hf.copy,
    eq_of_core Fd.shadow (fun _ => rfl) hf.copy, eq_of_core Fd.transfer (fun _ => rfl) hf.copy,
    eq_of_core Fd.origFd (fun _ => rfl) hf.copy, fun j hj => by rw [hf.frame j hj],
    ⟨c.fdTable, by simp [State.tables, hf.client], hf.entry, getElem?_zero_of_shadows hf.unshadowed, ?_⟩,
    forkOne_transfers hs⟩
  simp only [State.tables, hf.clients, Function.comp_update, Option.map_some]

structure Forking (s t : State) (child : ℕ) : Prop where
  inv : Inv t
  changes : Changes s t
  copies : ∀ j, (t.fd j).owner = some child → (t.fd j).shadow = true
  frame : ∀ j, (s.fd j).owner.isSome → (t.fd j).ident = (s.fd j).ident

theorem Forking.forkOne {child : ℕ} {ids rest : List ℕ} (h : Forking s t child)
    (hlive : (t.fd id).owner.isSome) (hother : (t.fd id).owner ≠ some child)
    (ht : t.forkOne child id ids = some (u, rest)) : Forking s u child := by
  obtain ⟨hinv, newfd, hc⟩ := h.inv.changes_forkOne hlive hother ht
  refine ⟨hinv, h.changes.tail (.copied child id newfd hc), fun j hj => ?_, fun j hj => ?_⟩
  · by_cases hjn : j = newfd
    · rw [hjn]
      exact hc.shadow
    · rw [owner_of_ident (hc.frame j hjn)] at hj
      rw [shadow_of_ident (hc.frame j hjn)]
      exact h.copies j hj
  · have hjn : j ≠ newfd := by
      rintro rfl
      have ho := owner_of_ident (h.frame j hj)
      rw [hc.free] at ho
      rw [← ho] at hj
      cases hj
    rw [hc.frame j hjn]
    exact h.frame j hj

theorem Forking.forkAll {child parent : ℕ} {hs ids rest : List ℕ} (hne : parent ≠ child)
    (h : Forking s t child) (howner : ∀ id ∈ hs, (s.fd id).owner = some parent)
    (hu : t.forkAll child hs ids = some (u, rest)) : Forking s u child := by
  induction hs generalizing t ids with
  | nil =>
    cases hu
    exact h
  | cons id hs ih =>
    simp only [State.forkAll, Option.bind_eq_bind, Option.bind_eq_some_iff] at hu
    obtain ⟨⟨v, ids'⟩, hone, hu⟩ := hu
    have ho := howner id List.mem_cons_self
    have hot : (t.fd id).owner = some parent :=
      (owner_of_ident (h.frame id (by rw [ho]; rfl))).trans ho
    have hv := h.forkOne (by rw [hot]; rfl) (by rw [hot]; simpa using hne) hone
    exact ih hv (fun j hj => howner j (List.mem_cons_of_mem _ hj)) hu

theorem Forking.forkShadowed {child : ℕ} {ns ids rest : List ℕ} (h : Forking s t child)
    (hu : t.forkShadowed child ns ids = some (u, rest)) : Forking s u child := by
  induction ns generalizing t ids with
  | nil =>
    cases hu
    exact h
  | cons i ns ih =>
    simp only [State.forkShadowed] at hu
    split at hu
    · exact ih h hu
    next hlive =>
    split at hu
    · cases hu
    next hsh =>
    simp only [Option.bind_eq_bind, Option.bind_eq_some_iff] at hu
    obtain ⟨⟨v, ids'⟩, hone, hu⟩ := hu
    -- the child has no handle of its own yet, so one that is no copy is another client's
    have hother : (t.fd i).owner ≠ some child := fun ho => hsh (h.copies i ho)
    refine ih (h.forkOne ?_ hother hone) hu
    rwa [Option.isNone_iff_eq_none, ← ne_eq, ← Option.isSome_iff_ne_none] at hlive

theorem Inv.changes_forkClient {parent child : ℕ} {ids : List ℕ} (h : Inv s)
    (hchild : s.clients child = none) (hs : s.forkClient parent child ids = some t) : Changes s t := by
  simp only [State.forkClient, Option.bind_eq_bind, Option.bind_eq_some_iff] at hs
  obtain ⟨p, hp, ⟨u, ids'⟩, hu, ⟨v, ids''⟩, hv, c, hc, hs⟩ := hs
  split at hs
  · cases hs
    have hne : parent ≠ child := by
      rintro rfl
      rw [hp] at hchild
      cases hchild
    have hzero : ∀ m ∈ List.replicate (s.tableLen p) 0, m = 0 := fun m hm => (List.mem_replicate.mp hm).2
    have hstart : Forking s (s.setClient child ⟨[], List.replicate (s.tableLen p) 0⟩) child := by
      refine ⟨⟨h.coherent.setNewClient hchild _, h.tabled.setNewClient hzero⟩,
        .single (h.coherent.changes_setNewClient hchild), fun j hj => ?_, fun j _ => rfl⟩
      exact absurd hj (h.coherent.no_handle hchild j)
    have hown : ∀ id ∈ s.ownHandles p, (s.fd id).owner = some parent := by
      intro id hid
      have hl : s.clientHandles parent = some p.handles := by simp [State.clientHandles, hp]
      exact (h.coherent.clients.mem_iff hl).mp (List.mem_filter.mp hid).1
    exact ((hstart.forkAll hne hown hu).forkShadowed hv).changes
  · cases hs

theorem Coherent.changes_dropClient {c : Client} (h : Coherent s) (hc : s.clients pid = some c)
    (hnil : c.handles = []) : Change s { s with clients := Function.update s.clients pid none } := by
  refine .client pid (fun j ho => ?_) rfl ⟨none, ?_⟩ rfl
  · obtain ⟨l, hl, hn⟩ := h.clients.held (i := j) ho
    simp only [State.clientHandles, Function.comp_apply, hc, Option.map_some, Option.some.injEq, hnil] at hl
    rw [← hl] at hn
    cases hn
  · simp only [State.tables, Function.comp_update, Option.map_none]

theorem Coherent.changes_clientDtor {n : ℕ} {c : Client} (h : Coherent s)
    (hc : s.clients pid = some c) (hn : c.handles.length ≤ n) (hs : s.clientDtor pid n = some t) :
    Changes s t := by
  induction n generalizing s c with
  | zero =>
    cases hs
    exact .single (h.changes_dropClient hc (List.length_eq_zero_iff.mp (Nat.le_zero.mp hn)))
  | succ n ih =>
    simp only [State.clientDtor, hc] at hs
    split at hs
    · next hnil =>
      cases hs
      exact .single (h.changes_dropClient hc hnil)
    next id rest hcons =>
    simp only [Option.bind_eq_bind, Option.bind_eq_some_iff] at hs
    obtain ⟨u, hu, hs⟩ := hs
    have hd := fdDtor_spec h (.inl rfl) hu
    have hown : (s.fd id).owner = some pid := by
      have hl : s.clientHandles pid = some c.handles := by simp [State.clientHandles, hc]
      exact (h.clients.mem_iff hl).mp (hcons ▸ List.mem_cons_self)
    obtain ⟨p, c', ho, hc', hclients⟩ := hd.clients
    obtain rfl : p = pid := Option.some.inj (ho.symm.trans hown)
    obtain rfl : c' = c := Option.some.inj (hc'.symm.trans hc)
    refine (ReflTransGen.single (.dropped id (fdDtor_dropped h (.inl rfl) hu))).trans
      (ih (h.destroyed hd) (by rw [hclients, Function.update_self]) ?_ hs)
    rw [length_removeFast]
    omega

theorem Inv.changes_execLoop {n i : ℕ} (h : Inv s) (hs : s.execLoop pid n i = some t) : Changes s t := by
  induction n generalizing s i with
  | zero =>
    cases hs
    exact .refl
  | succ n ih =>
    simp only [State.execLoop] at hs
    split at hs
    · cases hs
    split at hs
    · cases hs
      exact .refl
    split at hs
    · simp only [Option.bind_eq_bind, Option.bind_eq_some_iff] at hs
      obtain ⟨u, hu, hs⟩ := hs
      exact (ReflTransGen.single (.dropped _ (h.lateCloseFd_dropped hu))).trans (ih (h.lateCloseFd hu) hs)
    · exact ih h hs

theorem Inv.changes_event {ev : Event} (h : Inv s) (hs : s.event ev = some t) : Changes s t := by
  cases ev with
  | fork parent child ids =>
    simp only [State.event] at hs
    split at hs
    · cases hs
      exact .refl
    · next hclients =>
      simp only [Bool.or_eq_true, not_or, Option.not_isSome_iff_eq_none] at hclients
      exact h.changes_forkClient hclients.2 hs
  | exec pid =>
    simp only [State.event] at hs
    split at hs
    · cases hs
      exact .refl
    · exact h.changes_execLoop hs
  | exit pid =>
    simp only [State.event] at hs
    split at hs
    · cases hs
      exact .refl
    · next c hc => exact h.coherent.changes_clientDtor hc (Nat.le_refl _) hs

theorem changes_close {sender : Tid} {fd : ℕ} {r : Result} (hs : s.close sender fd = some (t, r)) :
    Changes s t := by
  simp only [State.close] at hs
  split at hs
  · cases hs
    exact .refl
  split at hs
  · cases hs
  · cases hs
    exact .refl
  · cases hs
    exact .single (.of_eq rfl rfl rfl)

/-- Every call but `dup_to` and `touch` is a sequence of changes. -/
theorem Inv.changes_handle {sender : Tid} {call : Call} {r : Result} (h : Inv s)
    (hs : s.handle sender call = some (t, r)) :
    Changes s t ∨ (∃ oldfd receiver hashOk ids id, call = .dupTo oldfd receiver hashOk ids ∧
        r = .ok id ∧ Offers s t id) ∨
      ∃ newfd, call = .touch newfd ∧ r = .ok 0 ∧
        Touched (s.getClient (pidof sender)) t (pidof sender) newfd := by
  cases call with
  | iofNew =>
    cases hs
    exact .inl (.single (.of_eq rfl rfl rfl))
  | addFd file cloexec ids => exact .inl (h.changes_ioAddFd hs).1
  | close fd => exact .inl (changes_close hs)
  | dup oldfd cloexec ids =>
    simp only [State.handle] at hs
    rcases h.changes_internalDup hs with hc | ⟨hne, -⟩
    · exact .inl hc
    · exact absurd rfl hne
  | dupTo oldfd receiver hashOk ids =>
    rcases h.changes_internalDup hs with hc | ⟨-, id, hr, ho⟩
    · exact .inl hc
    · exact .inr (.inl ⟨oldfd, receiver, hashOk, ids, id, rfl, hr, ho⟩)
  | touch newfd =>
    rcases h.changes_touch hs with ⟨-, hc⟩ | ⟨hr, ht⟩
    · exact .inl hc
    · exact .inr (.inr ⟨newfd, rfl, hr, ht⟩)
  | setHandleFlags fd orCloexec andCloexec => exact .inl (changes_setHandleFlags hs)

theorem Inv.changes_lateClose {v : State} (h : Inv s) (hs : v.lateCloseFd id = some t)
    (hv : v = { s with rb := v.rb }) : Changes s t := by
  have hinv : Inv v := by
    rw [hv]
    exact h.congr rfl
  refine (ReflTransGen.single ?_).tail (.dropped id (hinv.lateCloseFd_dropped hs))
  rw [hv]
  exact .of_eq rfl rfl rfl

/-- The step is a call that hands out a transfer of `id`. -/
def offering (s : State) (id : ℕ) : Step → Prop
  | .call sender (.dupTo oldfd receiver hashOk ids) =>
    ∃ t, s.handle sender (.dupTo oldfd receiver hashOk ids) = some (t, .ok id)
  | _ => False

/-- **What a step does**: a sequence of changes, a transfer's offer, or its taking over. -/
theorem Inv.step_changes {a : Step} (h : Inv s) (hs : Handles.exec s a = some t) :
    Changes s t ∨ (∃ id, offering s id a ∧ Offers s t id) ∨
      ∃ sender newfd, a = .call sender (.touch newfd) ∧
        Touched (s.getClient (pidof sender)) t (pidof sender) newfd := by
  cases a with
  | call sender call =>
    simp only [Handles.exec] at hs
    split at hs
    · cases hs
    obtain ⟨⟨u, r⟩, hu, rfl⟩ := Option.map_eq_some_iff.mp hs
    rcases h.changes_handle hu with hc | ⟨oldfd, receiver, hashOk, ids, id, rfl, rfl, ho⟩ |
      ⟨newfd, rfl, -, ht⟩
    · exact .inl hc
    · exact .inr (.inl ⟨id, ⟨u, hu⟩, ho⟩)
    · exact .inr (.inr ⟨sender, newfd, rfl, ht⟩)
  | event ev =>
    simp only [Handles.exec] at hs
    split at hs
    · cases hs
    exact .inl (h.changes_event hs)
  | confirm =>
    simp only [Handles.exec, State.syncConfirm] at hs
    split at hs
    · cases hs
      exact .inl .refl
    · exact .inl (h.changes_lateClose hs rfl)
  | replyFailed sender tag =>
    simp only [Handles.exec, State.checkRollback] at hs
    split at hs
    · split at hs
      · cases hs
        exact .inl (.single (.of_eq rfl rfl rfl))
      · exact .inl (h.changes_lateClose hs rfl)
    · cases hs
      exact .inl (.single (.of_eq rfl rfl rfl))

end Sneks.Io.Handles
