import Sneks.Io.Handles.Coherence

/-!
# The indirection tables of forked clients

An entry of a client's `fd_table` is a live shadow handle of that client, made
for the number it stands at. Together with the coherence of the arrays this is
kept by every call and event, and so holds in every state that is reached.
-/

namespace Sneks.Io.Handles
open Lib

/-- The tables' part of the invariant. While a client is destroyed its handles go one by
    one and its table stays as it is, so the table of `exiting` is left out. -/
structure Tabled (s : State) (exiting : Option ℕ) : Prop where
  entry : ∀ {pid tbl n m}, some pid ≠ exiting → s.tables pid = some tbl → tbl[n]? = some m → 0 < m →
    (s.fd m).owner = some pid ∧ (s.fd m).shadow = true ∧ (s.fd m).origFd = n
  transfer : ∀ m, (s.fd m).owner.isSome → (s.fd m).transfer = true → (s.fd m).shadow = false

/-- The handle is in no table but that of `exiting`. -/
def Untabled (s : State) (exiting : Option ℕ) (id : ℕ) : Prop :=
  ∀ (pid n : ℕ) (tbl : List ℕ), some pid ≠ exiting → s.tables pid = some tbl → tbl[n]? = some id →
    id = 0

structure Inv (s : State) : Prop where
  coherent : Coherent s
  tabled : Tabled s none

variable {s t : State} {id pid file : ℕ} {x : Option ℕ}

-- Adding and destroying handles

theorem tables_update {c c' : Client} (hc : s.clients pid = some c) (hfd : c'.fdTable = c.fdTable)
    (ht : t.clients = Function.update s.clients pid (some c')) : t.tables = s.tables := by
  simp only [State.tables, ht, Function.comp_update, Option.map_some, hfd]
  rw [Function.update_eq_self_iff]
  simp [hc]

theorem attach_spec {f : Fd} (hs : s.attach id pid f = some t) :
    (t.fd id).core = { f with owner := some pid }.core ∧ (∀ j, j ≠ id → t.fd j = s.fd j) ∧
    t = { s with fd := t.fd, clients := t.clients, files := t.files, attached := t.attached } ∧
    ∃ c, s.clients pid = some c ∧
      t.clients = Function.update s.clients pid (some { c with handles := c.handles ++ [id] }) := by
  simp only [State.attach] at hs
  split at hs
  · next c l hc hf =>
    cases hs
    refine ⟨?_, fun j hj => Function.update_of_ne hj .., rfl, c, hc, rfl⟩
    simp only [Function.update_self]
    rfl
  · cases hs

theorem Tabled.change (h : Tabled s x) (htab : t.tables = s.tables)
    (hframe : ∀ j, j ≠ id → (t.fd j).core = (s.fd j).core)
    (hno : Untabled s x id)
    (htransfer : (t.fd id).owner.isSome → (t.fd id).transfer = true → (t.fd id).shadow = false) :
    Tabled t x where
  entry {pid tbl n m} hx htbl hn hm := by
    rw [htab] at htbl
    have hmid : m ≠ id := by
      rintro rfl
      exact Nat.ne_of_gt hm (hno pid n tbl hx htbl hn)
    have he := h.entry hx htbl hn hm
    rwa [eq_of_core Fd.owner (fun _ => rfl) (hframe m hmid),
      eq_of_core Fd.shadow (fun _ => rfl) (hframe m hmid),
      eq_of_core Fd.origFd (fun _ => rfl) (hframe m hmid)]
  transfer m := by
    by_cases hmid : m = id
    · subst hmid
      exact htransfer
    · rw [eq_of_core Fd.owner (fun _ => rfl) (hframe m hmid),
        eq_of_core Fd.shadow (fun _ => rfl) (hframe m hmid),
        eq_of_core Fd.transfer (fun _ => rfl) (hframe m hmid)]
      exact h.transfer m

theorem Tabled.untabled (h : Tabled s x) (hid : (s.fd id).owner = none ∨ (s.fd id).shadow = false) :
    Untabled s x id := by
  intro pid n tbl hx htbl hn
  by_contra hpos
  obtain ⟨ho, hsh, -⟩ := h.entry hx htbl hn (Nat.pos_of_ne_zero hpos)
  rcases hid with hid | hid
  · rw [ho] at hid
    cases hid
  · rw [hsh] at hid
    cases hid

theorem Tabled.attach {f : Fd} (h : Tabled s x) (hfree : (s.fd id).owner = none)
    (hf : f.transfer = true → f.shadow = false) (hs : s.attach id pid f = some t) : Tabled t x := by
  obtain ⟨hcore, hframe, -, c, hc, hclients⟩ := attach_spec hs
  refine h.change (tables_update hc (by rfl) hclients)
    (fun j hj => congrArg Fd.core (hframe j hj)) (h.untabled (.inl hfree)) fun _ => ?_
  rw [eq_of_core Fd.transfer (fun _ => rfl) hcore, eq_of_core Fd.shadow (fun _ => rfl) hcore]
  exact hf

theorem Destroyed.tables (hd : Destroyed s t id) : t.tables = s.tables := by
  obtain ⟨pid, c, -, hc, hclients⟩ := hd.clients
  exact tables_update hc (by rfl) hclients

theorem Tabled.destroyed (h : Tabled s x) (hd : Destroyed s t id)
    (hno : Untabled s x id) : Tabled t x := by
  refine h.change hd.tables hd.frame hno ?_
  rw [hd.dead]
  simp

theorem Tabled.setNewClient (h : Tabled s x) {table : List ℕ} (htable : ∀ m ∈ table, m = 0) :
    Tabled (s.setClient pid ⟨[], table⟩) x where
  entry {p tbl n m} hx htbl hn hm := by
    by_cases hp : p = pid
    · subst hp
      simp only [State.tables, State.setClient, Function.comp_update, Function.update_self,
        Option.map_some, Option.some.injEq] at htbl
      have := htable m (htbl ▸ List.mem_of_getElem? hn)
      omega
    · simp only [State.tables, State.setClient, Function.comp_update, Function.update_of_ne hp] at htbl
      exact h.entry hx htbl hn hm
  transfer := h.transfer

theorem Inv.getClient (h : Inv s) (pid : ℕ) : Inv (s.getClient pid) := by
  refine ⟨h.coherent.getClient pid, ?_⟩
  simp only [State.getClient]
  split
  · exact h.tabled
  · exact h.tabled.setNewClient (by simp)

theorem Inv.congr (h : Inv s) (ht : t = { s with transfers := t.transfers, rb := t.rb }) : Inv t := by
  rw [ht]
  obtain ⟨⟨hclients, hfiles, hrange, hunborn, hused, hclosed⟩, hentry, htransfer⟩ := h
  exact ⟨⟨hclients, hfiles, hrange, hunborn, hused, hclosed⟩, hentry, htransfer⟩

theorem Inv.destroyed (h : Inv s) (hd : Destroyed s t id) (hno : Untabled s none id) : Inv t :=
  ⟨h.coherent.destroyed hd, h.tabled.destroyed hd hno⟩

theorem allocFd_spec {c : Client} {ids rest : List ℕ} (hs : s.allocFd c ids = some (some id, rest)) :
    (s.fd id).owner = none ∧ (1 ≤ id ∧ id ≤ maxFd) ∧ c.shadows id = false := by
  induction ids with
  | nil => simp [State.allocFd] at hs
  | cons j ids ih =>
    simp only [State.allocFd] at hs
    split at hs
    · cases hs
    next hj =>
    split at hs
    · exact ih hs
    next hsh =>
    cases hs
    simp only [not_or, Option.not_isSome_iff_eq_none] at hj
    exact ⟨hj.2.2, by omega, by simpa using hsh⟩

theorem getClient_fd : (s.getClient pid).fd = s.fd := by
  simp only [State.getClient]
  split <;> rfl

/-- What `io_add_fd` does when it makes a handle. -/
structure Added (s t : State) (pid file id : ℕ) : Prop where
  free : (s.fd id).owner = none
  frame : ∀ j, j ≠ id → t.fd j = s.fd j
  owner : (t.fd id).owner = some pid
  file : (t.fd id).file = file
  shadow : (t.fd id).shadow = false

theorem Inv.ioAddFd {cloexec : Bool} {ids : List ℕ} {r : Result} (h : Inv s)
    (hs : s.ioAddFd pid file cloexec ids = some (t, r)) :
    Inv t ∧ ∀ id, r = .ok id → Added s t pid file id := by
  have hg := h.getClient pid
  simp only [State.ioAddFd] at hs
  split at hs
  · next c l hc hf =>
    split at hs
    · cases hs
      exact ⟨hg, nofun⟩
    split at hs
    · cases hs
      exact ⟨hg, nofun⟩
    split at hs
    · cases hs
    · cases hs
      exact ⟨hg, nofun⟩
    next id rest halloc =>
    split at hs
    · cases hs
    next u hu =>
    cases hs
    obtain ⟨hfree, hrange, -⟩ := allocFd_spec halloc
    obtain ⟨hcore, hframe, -⟩ := attach_spec hu
    refine ⟨⟨hg.coherent.attach hfree hrange hu, hg.tabled.attach hfree (by simp) hu⟩, ?_⟩
    rintro _ ⟨⟩
    rw [getClient_fd] at hfree hframe
    exact ⟨hfree, hframe, eq_of_core Fd.owner (fun _ => rfl) hcore,
      eq_of_core Fd.file (fun _ => rfl) hcore, eq_of_core Fd.shadow (fun _ => rfl) hcore⟩
  · cases hs

theorem Client.shadows_spec {c : Client} {n : ℕ} (h : c.shadows n = true) :
    c.fdTable[n]? = some (c.fdTable.getD n 0) ∧ 0 < c.fdTable.getD n 0 := by
  simp only [Client.shadows, decide_eq_true_eq] at h
  refine ⟨?_, h⟩
  rw [List.getD_eq_getElem?_getD] at h ⊢
  cases hn : c.fdTable[n]? with
  | none => simp [hn] at h
  | some m => rfl

theorem Coherent.setTable (h : Coherent s) {c : Client} (hc : s.clients pid = some c) (tbl : List ℕ) :
    Coherent (s.setClient pid { c with fdTable := tbl }) := by
  refine ⟨?_, h.files, h.range, h.unborn, h.used, h.closed⟩
  have hsame : (s.setClient pid { c with fdTable := tbl }).clientHandles = s.clientHandles := by
    simp only [State.clientHandles, State.setClient, Function.comp_update, Option.map_some]
    rw [Function.update_eq_self_iff]
    simp [hc]
  rw [hsame]
  exact h.clients

theorem tables_setClient {c : Client} :
    (s.setClient pid c).tables = Function.update s.tables pid (some c.fdTable) := by
  simp only [State.tables, State.setClient, Function.comp_update, Option.map_some]

theorem getD_set_self {l : List ℕ} {n a : ℕ} (hn : n < l.length) : (l.set n a).getD n 0 = a := by
  rw [List.getD_eq_getElem?_getD, List.getElem?_set_self hn]
  rfl

theorem getD_set_ne {l : List ℕ} {n m a : ℕ} (hnm : n ≠ m) : (l.set n a).getD m 0 = l.getD m 0 := by
  rw [List.getD_eq_getElem?_getD, List.getElem?_set_ne hnm, List.getD_eq_getElem?_getD]

theorem getD_set_zero {l : List ℕ} {n : ℕ} : (l.set n 0).getD n 0 = 0 := by
  by_cases hn : n < l.length
  · exact getD_set_self hn
  · rw [List.getD_eq_getElem?_getD, List.getElem?_eq_none (by simpa using hn)]
    rfl

theorem getElem?_of_clear {tbl : List ℕ} {n k m : ℕ} (hk : (tbl.set n 0)[k]? = some m) (hm : 0 < m) :
    n ≠ k ∧ tbl[k]? = some m := by
  have hne : n ≠ k := by
    rintro rfl
    rw [List.getElem?_set_self'] at hk
    obtain ⟨_, -, hzero⟩ := Option.map_eq_some_iff.mp hk
    exact Nat.ne_of_lt hm hzero
  exact ⟨hne, by rwa [List.getElem?_set_ne hne] at hk⟩

theorem Tabled.clear (h : Tabled s x) {c : Client} (hc : s.clients pid = some c) (n : ℕ) :
    Tabled (s.setClient pid { c with fdTable := c.fdTable.set n 0 }) x where
  entry {p tbl k m} hx htbl hk hm := by
    rw [tables_setClient] at htbl
    by_cases hp : p = pid
    · subst hp
      rw [Function.update_self, Option.some.injEq] at htbl
      subst htbl
      exact h.entry hx (by simp [State.tables, hc]) (getElem?_of_clear hk hm).2 hm
    · rw [Function.update_of_ne hp] at htbl
      exact h.entry hx htbl hk hm
  transfer := h.transfer

theorem Inv.lateCloseFd (h : Inv s) (hs : s.lateCloseFd id = some t) : Inv t := by
  simp only [State.lateCloseFd] at hs
  split at hs
  · cases hs
  next pid ho =>
  split at hs
  · next hsh =>
    split at hs
    · cases hs
    next c hc =>
    split at hs
    · have hinv : Inv (s.setClient pid { c with fdTable := c.fdTable.set (s.fd id).origFd 0 }) :=
        ⟨h.coherent.setTable hc _, h.tabled.clear hc _⟩
      refine hinv.destroyed (fdDtor_spec hinv.coherent (.inl rfl) hs) fun p n tbl hx htbl hn => ?_
      rw [tables_setClient] at htbl
      by_contra hid
      by_cases hp : p = pid
      · subst hp
        rw [Function.update_self, Option.some.injEq] at htbl
        subst htbl
        obtain ⟨hne, hat⟩ := getElem?_of_clear hn (Nat.pos_of_ne_zero hid)
        exact hne (h.tabled.entry hx (by simp [State.tables, hc]) hat (Nat.pos_of_ne_zero hid)).2.2
      · rw [Function.update_of_ne hp] at htbl
        have hown := (h.tabled.entry hx htbl hn (Nat.pos_of_ne_zero hid)).1
        exact hp (Option.some.inj (hown.symm.trans ho))
    · cases hs
  · next hsh =>
    have hd := fdDtor_spec h.coherent (.inl rfl) hs
    exact h.destroyed hd (h.tabled.untabled (.inr (by simpa using hsh)))

theorem Inv.getFd_owner {n : ℕ} (h : Inv s) (hs : s.getFd pid n = some (some id)) :
    (s.fd id).owner = some pid := by
  simp only [State.getFd] at hs
  split at hs
  · cases hs
  split at hs
  · next ho =>
    split at hs
    · cases hs
    · cases hs
      exact ho
  split at hs
  · cases hs
  next c hc =>
  split at hs
  · next hn =>
    split at hs
    · cases hs
      obtain ⟨hat, hpos⟩ := Client.shadows_spec hn
      exact (h.tabled.entry nofun (by simp [State.tables, hc]) hat hpos).1
    · cases hs
  · cases hs

theorem Inv.setFlags {f : Fd} (h : Inv s)
    (hf : f = { s.fd id with cloexec := f.cloexec, transfer := f.transfer })
    (htransfer : (s.fd id).owner.isSome → f.transfer = true → (s.fd id).shadow = false) :
    Inv (s.setFd id f) := by
  have hfield : ∀ {α : Type} (g : Fd → α), g f = g (s.fd id) → g ∘ (s.setFd id f).fd = g ∘ s.fd := by
    intro α g hg
    rw [State.setFd, Function.comp_update, hg, Function.update_eq_self_iff]
    rfl
  have howner : (s.setFd id f).ownerOf = s.ownerOf := hfield Fd.owner (by rw [hf])
  have hshadow : Fd.shadow ∘ (s.setFd id f).fd = Fd.shadow ∘ s.fd := hfield Fd.shadow (by rw [hf])
  have horig : Fd.origFd ∘ (s.setFd id f).fd = Fd.origFd ∘ s.fd := hfield Fd.origFd (by rw [hf])
  constructor
  case coherent =>
    have hfile : (s.setFd id f).fileOf = s.fileOf := hfield Fd.onFile (by rw [hf]; rfl)
    have hcix : (s.setFd id f).clientIx = s.clientIx := hfield Fd.clientIx (by rw [hf])
    have hfix : (s.setFd id f).fileIx = s.fileIx := hfield Fd.fileIx (by rw [hf])
    refine ⟨?_, ?_, fun j hj => h.coherent.range j ?_, h.coherent.unborn, h.coherent.used,
      h.coherent.closed⟩
    · rw [howner, hcix]
      exact h.coherent.clients
    · rw [hfile, hfix]
      exact h.coherent.files
    · rwa [← show (s.setFd id f).ownerOf j = (s.fd j).owner from congrFun howner j]
  case tabled =>
    constructor
    · intro pid tbl n m hx htbl hn hm
      have he := h.tabled.entry hx htbl hn hm
      rwa [← show (s.setFd id f).ownerOf m = (s.fd m).owner from congrFun howner m,
        ← show (Fd.shadow ∘ (s.setFd id f).fd) m = (s.fd m).shadow from congrFun hshadow m,
        ← show (Fd.origFd ∘ (s.setFd id f).fd) m = (s.fd m).origFd from congrFun horig m] at he
    · intro m
      by_cases hm : m = id
      · subst hm
        rw [setFd_self, hf]
        exact htransfer
      · rw [setFd_of_ne s hm]
        exact h.tabled.transfer m

theorem Inv.addTransfer {target : ℕ} {hashOk : Bool} {r : Result} (h : Inv s)
    (hsh : (s.fd id).shadow = false) (hlast : ∃ j, j ≠ id ∧ s.fileOf j = some (s.fd id).file)
    (hs : s.addTransfer id target hashOk = some (t, r)) : Inv t := by
  simp only [State.addTransfer] at hs
  split at hs
  · cases hs
    exact Inv.setFlags (h.congr rfl) rfl fun _ _ => hsh
  · simp only [Option.bind_eq_bind, Option.bind_eq_some_iff, Option.some.injEq, Prod.mk.injEq] at hs
    obtain ⟨u, hu, rfl, -⟩ := hs
    exact h.destroyed (fdDtor_spec h.coherent (.inr hlast) hu) (h.tabled.untabled (.inr hsh))

theorem Inv.internalDup {sender : Tid} {tag : Tag} {oldfd : ℕ} {receiver : Option ℕ}
    {cloexec hashOk : Bool} {ids : List ℕ} {r : Result} (h : Inv s)
    (hs : s.internalDup sender tag oldfd receiver cloexec hashOk ids = some (t, r)) : Inv t := by
  simp only [State.internalDup] at hs
  split at hs
  · cases hs
  · cases hs
    exact h
  next old hold =>
  have ho := h.getFd_owner hold
  split at hs
  · cases hs
    exact h
  simp only [Option.bind_eq_bind, Option.bind_eq_some_iff] at hs
  obtain ⟨⟨u, q⟩, hadd, hs⟩ := hs
  obtain ⟨hu, hadded⟩ := h.ioAddFd hadd
  split at hs
  · cases hs
    exact hu
  next id hq =>
  obtain ⟨hfree, hframe, hown, hfile, hsh⟩ := hadded id hq
  split at hs
  · cases hs
    exact hu.congr rfl
  next target =>
  simp only [Option.bind_eq_some_iff] at hs
  obtain ⟨⟨v, q⟩, htrans, hs⟩ := hs
  have hv : Inv v := by
    refine hu.addTransfer hsh ⟨old, ?_, ?_⟩ htrans
    · rintro rfl
      rw [ho] at hfree
      cases hfree
    · have hne : old ≠ id := by
        rintro rfl
        rw [ho] at hfree
        cases hfree
      simp [State.fileOf, Fd.onFile, hframe old hne, ho, hfile]
  split at hs
  · cases hs
    exact hv
  · cases hs
    exact hv.congr rfl

theorem Inv.setHandleFlags {sender : Tid} {fd : ℕ} {orCloexec andCloexec : Bool} {r : Result}
    (h : Inv s) (hs : s.setHandleFlags sender fd orCloexec andCloexec = some (t, r)) : Inv t := by
  simp only [State.setHandleFlags] at hs
  split at hs
  · cases hs
  · cases hs
    exact h
  next id hid =>
  cases hs
  exact h.setFlags rfl (h.tabled.transfer id)

theorem Inv.move {u : State} {c : Client} (h : Inv s) (hlive : (s.fd id).owner.isSome)
    (hsh : (s.fd id).shadow = false) (hs : s.removeFromClient id = some u)
    (hc : u.clients pid = some c) :
    Inv ((u.setClient pid { c with handles := c.handles ++ [id] }).setFd id { u.fd id with
      owner := some pid, clientIx := ushort c.handles.length, transfer := false }) := by
  obtain ⟨hclients, he, hcore, hfix, p, c₀, ho₀, hc₀, hupd⟩ := removeFromClient_spec h.coherent.clients hs
  have hrange : ∀ i, (Function.update s.ownerOf id none i).isSome → 1 ≤ i ∧ i ≤ maxFd := by
    intro i hi
    by_cases hid : i = id
    · simp [hid] at hi
    · rw [Function.update_of_ne hid] at hi
      exact h.coherent.range i hi
  have hl : u.clientHandles pid = some c.handles := by simp [State.clientHandles, hc]
  have hattach := hclients.attach (i := id) (by simp) hl
  rw [Function.update_idem] at hattach
  set v := (u.setClient pid { c with handles := c.handles ++ [id] }).setFd id { u.fd id with
      owner := some pid, clientIx := ushort c.handles.length, transfer := false } with hv
  have htables : v.tables = s.tables := by
    have hu : u.tables = s.tables := tables_update hc₀ (by rfl) hupd
    have hvu : v.tables = u.tables := tables_update hc (by rfl) rfl
    rw [hvu, hu]
  have hrest : v = { s with fd := v.fd, clients := v.clients } := by
    rw [hv, he]
    rfl
  have hframe : ∀ j, j ≠ id → (v.fd j).core = (s.fd j).core := by
    intro j hj
    rw [hv, setFd_of_ne _ hj]
    exact hcore j
  have howner : v.ownerOf = Function.update s.ownerOf id (some pid) := by
    rw [← ownerOf_eq hcore, hv]
    simp only [State.ownerOf, State.setFd, State.setClient, Function.comp_update]
  have hfile : v.fileOf = s.fileOf := by
    funext j
    by_cases hj : j = id
    · subst hj
      have hf : (u.fd j).file = (s.fd j).file := eq_of_core Fd.file (fun _ => rfl) (hcore j)
      simp [State.fileOf, Fd.onFile, hv, setFd_self, hf, ho₀]
    · exact eq_of_core Fd.onFile (fun _ => rfl) (hframe j hj)
  constructor
  case coherent =>
    refine ⟨?_, ?_, fun j hj => ?_, ?_, ?_, ?_⟩
    · rw [howner]
      simpa only [State.clientHandles, State.clientIx, State.setClient, State.setFd, hv,
        Function.comp_update, Option.map_some, ushort_length hclients hrange hl] using hattach
    · have hix : v.fileIx = s.fileIx := by
        rw [← hfix, hv]
        simp only [State.fileIx, State.setFd, State.setClient, Function.comp_update]
        exact Function.update_eq_self ..
      rw [hfile, hix, hrest]
      exact h.coherent.files
    · have hj' : (v.ownerOf j).isSome := hj
      rw [howner] at hj'
      by_cases hji : j = id
      · exact hji ▸ h.coherent.range id hlive
      · rw [Function.update_of_ne hji] at hj'
        exact h.coherent.range j hj'
    · rw [hrest]
      exact h.coherent.unborn
    · rw [hrest]
      exact h.coherent.used
    · rw [hrest]
      exact h.coherent.closed
  case tabled =>
    refine h.tabled.change htables hframe (h.tabled.untabled (.inr hsh)) fun _ => ?_
    simp [hv, setFd_self]

theorem Inv.touch {sender : Tid} {newfd : ℕ} {r : Result} (h : Inv s)
    (hs : s.touch sender newfd = some (t, r)) : Inv t := by
  have hg := h.getClient (pidof sender)
  simp only [State.touch] at hs
  split at hs
  · cases hs
    exact hg
  next tr _ =>
  replace hg : Inv { s.getClient (pidof sender) with
    transfers := (s.getClient (pidof sender)).transfers.erase tr } := hg.congr rfl
  split at hs
  · cases hs
    exact hg
  next hlive =>
  simp only [Option.bind_eq_bind, Option.bind_eq_some_iff, Option.some.injEq, Prod.mk.injEq] at hs
  obtain ⟨v, hv, c, hc, rfl, -⟩ := hs
  simp only [Bool.or_eq_true, Option.isNone_iff_eq_none, Bool.not_eq_true', not_or,
    Bool.not_eq_false] at hlive
  have hown : ((s.getClient (pidof sender)).fd newfd).owner.isSome := Option.isSome_iff_ne_none.mpr hlive.1
  exact hg.move hown (hg.tabled.transfer newfd hown hlive.2) hv hc

-- Fork, exec and exit

/-- What forking one handle does: a free slot becomes the child's copy, under the number
    of the original. -/
structure Forked (s t : State) (child id newfd : ℕ) (c : Client) : Prop where
  client : s.clients child = some c
  free : (s.fd newfd).owner = none
  pos : 0 < newfd
  unshadowed : c.shadows newfd = false
  entry : c.fdTable[id]? = some 0
  frame : ∀ j, j ≠ newfd → t.fd j = s.fd j
  copy : (t.fd newfd).core =
    { s.fd id with owner := some child, origFd := id, transfer := false, shadow := true }.core
  clients : t.clients = Function.update s.clients child
    (some ⟨c.handles ++ [newfd], c.fdTable.set id newfd⟩)

theorem Inv.forkOne {child : ℕ} {ids rest : List ℕ} (h : Inv s)
    (hs : s.forkOne child id ids = some (t, rest)) :
    Inv t ∧ ∃ newfd c, Forked s t child id newfd c := by
  simp only [State.forkOne, Option.bind_eq_bind, Option.bind_eq_some_iff] at hs
  obtain ⟨c, hc, ⟨_, rest'⟩, halloc, newfd, rfl, u, hu, c', hc', hs⟩ := hs
  split at hs
  · next hentry =>
    cases hs
    obtain ⟨hfree, hrange, hunsh⟩ := allocFd_spec halloc
    obtain ⟨hcore, hframe, -, c₀, hc₀, hclients⟩ := attach_spec hu
    obtain rfl : c = c₀ := Option.some.inj (hc.symm.trans hc₀)
    have hc'' : c' = { c with handles := c.handles ++ [newfd] } := by
      rw [hclients, Function.update_self] at hc'
      exact (Option.some.inj hc').symm
    subst hc''
    have hcoh := h.coherent.attach hfree hrange hu
    have htab := h.tabled.attach hfree (by simp) hu
    refine ⟨⟨hcoh.setTable hc' _, ?_, htab.transfer⟩, newfd, c, hc, hfree, hrange.1, hunsh, hentry,
      hframe, hcore, ?_⟩
    · intro p tbl n m hx htbl hn hm
      rw [tables_setClient] at htbl
      by_cases hp : p = child
      · subst hp
        rw [Function.update_self, Option.some.injEq] at htbl
        subst htbl
        by_cases hnid : id = n
        · subst hnid
          rw [List.getElem?_set_self (List.getElem?_eq_some_iff.mp hentry).1] at hn
          cases hn
          exact ⟨eq_of_core Fd.owner (fun _ => rfl) hcore, eq_of_core Fd.shadow (fun _ => rfl) hcore,
            eq_of_core Fd.origFd (fun _ => rfl) hcore⟩
        · rw [List.getElem?_set_ne hnid] at hn
          exact htab.entry hx (by simp [State.tables, hc']) hn hm
      · rw [Function.update_of_ne hp] at htbl
        exact htab.entry hx htbl hn hm
    · rw [State.setClient, hclients, Function.update_idem]
  · cases hs

theorem Inv.forkAll {child : ℕ} {hs ids rest : List ℕ} (h : Inv s)
    (ht : s.forkAll child hs ids = some (t, rest)) : Inv t := by
  induction hs generalizing s ids with
  | nil =>
    cases ht
    exact h
  | cons id hs ih =>
    simp only [State.forkAll, Option.bind_eq_bind, Option.bind_eq_some_iff] at ht
    obtain ⟨⟨u, ids'⟩, hone, ht⟩ := ht
    exact ih (h.forkOne hone).1 ht

theorem Inv.forkShadowed {child : ℕ} {ns ids rest : List ℕ} (h : Inv s)
    (ht : s.forkShadowed child ns ids = some (t, rest)) : Inv t := by
  induction ns generalizing s ids with
  | nil =>
    cases ht
    exact h
  | cons i ns ih =>
    simp only [State.forkShadowed] at ht
    split at ht
    · exact ih h ht
    split at ht
    · cases ht
    simp only [Option.bind_eq_bind, Option.bind_eq_some_iff] at ht
    obtain ⟨⟨u, ids'⟩, hone, ht⟩ := ht
    exact ih (h.forkOne hone).1 ht

theorem Inv.forkClient {parent child : ℕ} {ids : List ℕ} (h : Inv s)
    (hchild : s.clients child = none) (hs : s.forkClient parent child ids = some t) : Inv t := by
  simp only [State.forkClient, Option.bind_eq_bind, Option.bind_eq_some_iff] at hs
  obtain ⟨p, hp, ⟨u, ids'⟩, hu, ⟨v, ids''⟩, hv, c, hc, hs⟩ := hs
  split at hs
  · cases hs
    have hnew : Inv (s.setClient child ⟨[], List.replicate (s.tableLen p) 0⟩) :=
      ⟨h.coherent.setNewClient hchild _,
        h.tabled.setNewClient fun m hm => (List.mem_replicate.mp hm).2⟩
    exact (hnew.forkAll hu).forkShadowed hv
  · cases hs

theorem Inv.dropClient {c : Client} (h : Coherent s) (htab : Tabled s (some pid))
    (hc : s.clients pid = some c) (hnil : c.handles = []) :
    Inv { s with clients := Function.update s.clients pid none } := by
  constructor
  case coherent =>
    refine ⟨?_, h.files, h.range, h.unborn, h.used, h.closed⟩
    have hdrop := h.clients.drop (k := pid) (by simp [State.clientHandles, hc, hnil])
    simpa only [State.clientHandles, State.ownerOf, State.clientIx, Function.comp_update,
      Option.map_none] using hdrop
  case tabled =>
    refine ⟨fun {p tbl n m} hx htbl hn hm => ?_, htab.transfer⟩
    have hp : p ≠ pid := by
      rintro rfl
      simp [State.tables] at htbl
    simp only [State.tables, Function.comp_update, Function.update_of_ne hp] at htbl
    exact htab.entry (by simpa using hp) htbl hn hm

theorem Inv.clientDtor {n : ℕ} {c : Client} (h : Coherent s) (htab : Tabled s (some pid))
    (hc : s.clients pid = some c) (hn : c.handles.length ≤ n) (hs : s.clientDtor pid n = some t) :
    Inv t := by
  induction n generalizing s c with
  | zero =>
    cases hs
    exact Inv.dropClient h htab hc (List.length_eq_zero_iff.mp (Nat.le_zero.mp hn))
  | succ n ih =>
    simp only [State.clientDtor, hc] at hs
    split at hs
    · next hnil =>
      cases hs
      exact Inv.dropClient h htab hc hnil
    next id rest hcons =>
    simp only [Option.bind_eq_bind, Option.bind_eq_some_iff] at hs
    obtain ⟨u, hu, hs⟩ := hs
    have hd := fdDtor_spec h (.inl rfl) hu
    have hown : (s.fd id).owner = some pid := by
      have hl : s.clientHandles pid = some c.handles := by simp [State.clientHandles, hc]
      exact (h.clients.mem_iff hl).mp (hcons ▸ List.mem_cons_self)
    obtain ⟨p, c', ho, hc', hclients⟩ := hd.clients
    obtain rfl : p = pid := Option.some.inj (ho.symm.trans hown)
    obtain rfl : c' = c := Option.some.inj (hc'.symm.trans hc)
    refine ih (h.destroyed hd) (htab.destroyed hd fun p n tbl hx htbl hn => ?_)
      (by rw [hclients, Function.update_self]) ?_ hs
    · by_contra hid
      have hp := (htab.entry hx htbl hn (Nat.pos_of_ne_zero hid)).1
      rw [hown] at hp
      exact hx hp.symm
    · rw [length_removeFast]
      omega

theorem Inv.execLoop {n i : ℕ} (h : Inv s) (hs : s.execLoop pid n i = some t) : Inv t := by
  induction n generalizing s i with
  | zero =>
    cases hs
    exact h
  | succ n ih =>
    simp only [State.execLoop] at hs
    split at hs
    · cases hs
    split at hs
    · cases hs
      exact h
    split at hs
    · simp only [Option.bind_eq_bind, Option.bind_eq_some_iff] at hs
      obtain ⟨u, hu, hs⟩ := hs
      exact ih (h.lateCloseFd hu) hs
    · exact ih h hs

theorem Inv.event {ev : Event} (h : Inv s) (hs : s.event ev = some t) : Inv t := by
  cases ev with
  | fork parent child ids =>
    simp only [State.event] at hs
    split at hs
    · cases hs
      exact h
    · next hclients =>
      simp only [Bool.or_eq_true, not_or, Option.not_isSome_iff_eq_none] at hclients
      exact h.forkClient hclients.2 hs
  | exec pid =>
    simp only [State.event] at hs
    split at hs
    · cases hs
      exact h
    · exact h.execLoop hs
  | exit pid =>
    simp only [State.event] at hs
    split at hs
    · cases hs
      exact h
    · next c hc =>
      refine Inv.clientDtor h.coherent ⟨fun hx => ?_, h.tabled.transfer⟩ hc (Nat.le_refl _) hs
      exact h.tabled.entry nofun

theorem Inv.iofNew (h : Inv s) : Inv { s with
    files := Function.update s.files s.nextFile (some []), nextFile := s.nextFile + 1 } := by
  obtain ⟨hfiles, hatt⟩ := h.coherent.unborn s.nextFile (Nat.le_refl _)
  refine ⟨⟨h.coherent.clients, h.coherent.files.create hfiles, h.coherent.range, fun f hf => ?_,
    fun f hs hf => ?_, fun f => ?_⟩, h.tabled.entry, h.tabled.transfer⟩
  · have hne : f ≠ s.nextFile := Nat.ne_of_gt hf
    simp only [Function.update_of_ne hne]
    exact h.coherent.unborn f (Nat.le_of_lt hf)
  · by_cases hne : f = s.nextFile
    · subst hne
      simp only [Function.update_self, Option.some.injEq] at hf
      simp [← hf, hatt]
    · simp only [Function.update_of_ne hne] at hf
      exact h.coherent.used f hs hf
  · rw [h.coherent.closed]
    by_cases hne : f = s.nextFile
    · subst hne
      simp [hatt]
    · simp only [Function.update_of_ne hne]

theorem Inv.handle {sender : Tid} {call : Call} {r : Result} (h : Inv s)
    (hs : s.handle sender call = some (t, r)) : Inv t := by
  cases call with
  | iofNew =>
    cases hs
    exact h.iofNew
  | addFd file cloexec ids => exact (h.ioAddFd hs).1
  | close fd =>
    simp only [State.handle, State.close] at hs
    split at hs
    · cases hs
      exact h
    split at hs
    · cases hs
    · cases hs
      exact h
    · cases hs
      exact h.congr rfl
  | dup oldfd cloexec ids =>
    simp only [State.handle] at hs
    exact h.internalDup hs
  | dupTo oldfd receiver hashOk ids => exact h.internalDup hs
  | touch newfd => exact h.touch hs
  | setHandleFlags fd orCloexec andCloexec => exact h.setHandleFlags hs

theorem Inv.exec {a : Step} (h : Inv s) (hs : exec s a = some t) : Inv t := by
  cases a with
  | call sender call =>
    simp only [Handles.exec] at hs
    split at hs
    · cases hs
    obtain ⟨⟨u, r⟩, hu, rfl⟩ := Option.map_eq_some_iff.mp hs
    exact h.handle hu
  | event ev =>
    simp only [Handles.exec] at hs
    split at hs
    · cases hs
    exact h.event hs
  | confirm =>
    simp only [Handles.exec, State.syncConfirm] at hs
    split at hs
    · cases hs
      exact h
    · exact Inv.lateCloseFd (h.congr rfl) hs
  | replyFailed sender tag =>
    simp only [Handles.exec, State.checkRollback] at hs
    split at hs
    · split at hs
      · cases hs
        exact h.congr rfl
      · exact Inv.lateCloseFd (h.congr rfl) hs
    · cases hs
      exact h.congr rfl

theorem Inv.init : Inv State.init where
  coherent := ⟨⟨nofun, nofun⟩, ⟨nofun, nofun⟩, nofun, fun _ _ => ⟨rfl, rfl⟩, nofun, fun _ => by simp [State.init]⟩
  tabled := ⟨nofun, nofun⟩

theorem Inv.of_run {as : List Step} (h : Run Handles.exec free State.init as s) : Inv s :=
  h.invariant (fun _ _ _ _ he hi => hi.exec he) Inv.init

/-- **Coherence**: in every state that the server reaches, the arrays of clients and files
    hold their live handles at the recorded positions and nowhere else, and a file has been
    closed, once, just when it had handles and has none any more. -/
theorem handles_coherent {as : List Step} (h : Run Handles.exec free State.init as s) :
    HandlesCoherent s :=
  (Inv.of_run h).coherent.handlesCoherent

def userTid (pid : ℕ) : Tid := ⟨pid, pid * 2 + 1⟩

/-- Process 7 opens a file, duplicates the handle, forks 8 and closes both of its own;
    8 exits. -/
def shareRun : List Step :=
  [.call (userTid 7) .iofNew, .call (userTid 7) (.addFd 0 false [1]),
    .call (userTid 7) (.dup 1 false [2]), .event (.fork 7 8 [3, 4]), .call (userTid 7) (.close 1),
    .confirm, .call (userTid 7) (.close 2), .confirm, .event (.exit 8)]

theorem handles_coherent_shared :
    ∃ s, Run Handles.exec free State.init shareRun s ∧ HandlesCoherent s ∧ s.closed = [0] := by
  obtain ⟨s, hrun, hclosed⟩ := Run.exists_of_evalRun Handles.exec free State.init
    shareRun State.closed [0] (by decide +kernel)
  exact ⟨s, hrun, handles_coherent hrun, hclosed⟩

end Sneks.Io.Handles
