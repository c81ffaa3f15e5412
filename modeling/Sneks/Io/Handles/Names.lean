import Sneks.Io.Handles.Changes

/-!
# Descriptor numbers name handles

A number is first tried as the global id of a handle and then in the client's
indirection table. So a client reaches all its handles, each under one number, as long
as no number of its table is also the id of a handle of its own. `alloc_fd` avoids such
ids, and taking over a transferred handle does not.
-/

namespace Sneks.Io.Handles
open Lib

def State.shadowed (s : State) (pid n : ℕ) : Bool := (s.clients pid).any (·.shadows n)

/-- Is there a record for `pid` to take over `newfd`? -/
def State.offers (s : State) (pid newfd : ℕ) : Bool :=
  s.transfers.any fun t => t.fd = newfd && State.transferMatch t pid

def touchClear (s : State) : Step → Prop
  | .call sender (.touch newfd) =>
    s.offers (pidof sender) newfd = true → s.shadowed (pidof sender) newfd = false
  | _ => True

instance (s : State) : (a : Step) → Decidable (touchClear s a)
  | .call sender (.touch newfd) =>
    inferInstanceAs (Decidable (s.offers (pidof sender) newfd = true →
      s.shadowed (pidof sender) newfd = false))
  | .call _ .iofNew | .call _ (.addFd ..) | .call _ (.close _) | .call _ (.dup ..)
  | .call _ (.dupTo ..) | .call _ (.setHandleFlags ..) | .event _ | .confirm
  | .replyFailed .. => inferInstanceAs (Decidable True)

structure NamesHandles (s : State) : Prop where
  number : ∀ pid id, (s.fd id).owner = some pid → ∃! n, s.getFd pid n = some (some id)
  own : ∀ pid n id, s.getFd pid n = some (some id) → (s.fd id).owner = some pid
  answer : ∀ pid c, s.clients pid = some c → ∀ n, 0 < n → ∃ r, s.getFd pid n = some r
  direct : ∀ pid id, (s.fd id).owner = some pid → (s.fd id).shadow = false →
    s.getFd pid id = some (some id)
  received : ∀ sender newfd t, s.touch sender newfd = some (t, .ok 0) →
    t.getFd (pidof sender) newfd = some (some newfd)

/-- The invariant: inherited handles are in their owner's table, and no number of a table is
    the id of a handle of that client. -/
structure Named (s : State) : Prop where
  pos : ∀ {id}, (s.fd id).owner.isSome → 0 < id
  backed : ∀ {pid id}, (s.fd id).owner = some pid → (s.fd id).shadow = true →
    0 < (s.fd id).origFd ∧ ∃ tbl, s.tables pid = some tbl ∧ tbl.getD (s.fd id).origFd 0 = id
  clear : ∀ {pid tbl n}, s.tables pid = some tbl → 0 < tbl.getD n 0 → (s.fd n).owner ≠ some pid

variable {s t u : State} {id pid newfd : ℕ}

theorem Named.congr (h : Named s) (howner : ∀ j, (t.fd j).owner = (s.fd j).owner)
    (hshadow : ∀ j, (t.fd j).shadow = (s.fd j).shadow) (horig : ∀ j, (t.fd j).origFd = (s.fd j).origFd)
    (htables : t.tables = s.tables) : Named t where
  pos {j} hj := h.pos (howner j ▸ hj)
  backed {p j} ho hsh := by
    rw [horig j, htables]
    exact h.backed (howner j ▸ ho) (hshadow j ▸ hsh)
  clear {p tbl n} htbl hn := by
    rw [howner n]
    exact h.clear (htables ▸ htbl) hn

theorem Named.offered {target : ℕ} (h : Named s) (ho : Offered s t id target) : Named t := by
  have hall : ∀ j, (t.fd j).ident = (s.fd j).ident ∨ (t.fd j).ident = { s.fd j with transfer := true }.ident := by
    intro j
    by_cases hj : j = id
    · exact .inr (hj ▸ ho.after)
    · exact .inl (ho.frame j hj)
  refine h.congr (fun j => ?_) (fun j => ?_) (fun j => ?_) ho.tables
  · exact (hall j).elim owner_of_ident owner_of_ident
  · exact (hall j).elim shadow_of_ident shadow_of_ident
  · exact (hall j).elim origFd_of_ident origFd_of_ident

theorem Named.client {tbl : Option (List ℕ)} (h : Named s) (hnone : ∀ j, (s.fd j).owner ≠ some pid)
    (hfd : t.fd = s.fd) (htables : t.tables = Function.update s.tables pid tbl) : Named t where
  pos {j} hj := h.pos (hfd ▸ hj)
  backed {p j} ho hsh := by
    rw [hfd] at ho hsh ⊢
    have hp : p ≠ pid := by
      rintro rfl
      exact hnone j ho
    rw [htables, Function.update_of_ne hp]
    exact h.backed ho hsh
  clear {p tbl' n} htbl hn := by
    rw [hfd]
    by_cases hp : p = pid
    · rw [hp]
      exact hnone n
    · rw [htables, Function.update_of_ne hp] at htbl
      exact h.clear htbl hn

theorem Named.dropped (h : Named s) (hd : Dropped s t id) : Named t := by
  have howner : ∀ {j p}, (t.fd j).owner = some p → j ≠ id ∧ (s.fd j).owner = some p := by
    intro j p ho
    have hj : j ≠ id := by
      rintro rfl
      rw [hd.dead] at ho
      cases ho
    rw [owner_of_ident (hd.frame j hj)] at ho
    exact ⟨hj, ho⟩
  constructor
  case pos =>
    intro j hj
    obtain ⟨p, ho⟩ := Option.isSome_iff_exists.mp hj
    exact h.pos (by rw [(howner ho).2]; rfl)
  case backed =>
    intro p j ho hsh
    obtain ⟨hj, ho⟩ := howner ho
    rw [shadow_of_ident (hd.frame j hj)] at hsh
    rw [origFd_of_ident (hd.frame j hj)]
    obtain ⟨hpos, tbl, htbl, hat⟩ := h.backed ho hsh
    refine ⟨hpos, ?_⟩
    rcases hd.tables with he | ⟨hshid, q, tbl', hoid, htbl', he⟩
    · exact ⟨tbl, he ▸ htbl, hat⟩
    rw [he]
    by_cases hp : p = q
    · subst hp
      obtain rfl : tbl = tbl' := Option.some.inj (htbl.symm.trans htbl')
      obtain ⟨-, tbl₀, htbl₀, hatid⟩ := h.backed hoid hshid
      obtain rfl : tbl = tbl₀ := Option.some.inj (htbl.symm.trans htbl₀)
      -- two handles are not under one number
      have hne : (s.fd id).origFd ≠ (s.fd j).origFd := by
        intro heq
        rw [heq, hat] at hatid
        exact hj hatid
      refine ⟨_, Function.update_self .., ?_⟩
      rw [getD_set_ne hne, hat]
    · exact ⟨tbl, by rw [Function.update_of_ne hp, htbl], hat⟩
  case clear =>
    intro p tbl n htbl hn ho
    obtain ⟨-, ho⟩ := howner ho
    rcases hd.tables with he | ⟨-, q, tbl', -, htbl', he⟩
    · exact h.clear (he ▸ htbl) hn ho
    rw [he] at htbl
    by_cases hp : p = q
    · subst hp
      rw [Function.update_self, Option.some.injEq] at htbl
      subst htbl
      have hne : (s.fd id).origFd ≠ n := by
        rintro rfl
        rw [getD_set_zero] at hn
        cases hn
      rw [getD_set_ne hne] at hn
      exact h.clear htbl' hn ho
    · rw [Function.update_of_ne hp] at htbl
      exact h.clear htbl hn ho

theorem Named.opened (h : Named s) (ho : Opened s t pid id) : Named t where
  pos {j} hj := by
    by_cases hjid : j = id
    · exact hjid ▸ ho.pos
    · rw [owner_of_ident (ho.frame j hjid)] at hj
      exact h.pos hj
  backed {p j} hown hsh := by
    have hjid : j ≠ id := by
      rintro rfl
      rw [ho.shadow] at hsh
      cases hsh
    rw [owner_of_ident (ho.frame j hjid)] at hown
    rw [shadow_of_ident (ho.frame j hjid)] at hsh
    rw [origFd_of_ident (ho.frame j hjid), ho.tables]
    exact h.backed hown hsh
  clear {p tbl n} htbl hn hown := by
    rw [ho.tables] at htbl
    by_cases hnid : n = id
    · subst hnid
      obtain rfl : pid = p := Option.some.inj (ho.owner.symm.trans hown)
      exact Nat.ne_of_gt hn (ho.unshadowed tbl htbl)
    · rw [owner_of_ident (ho.frame n hnid)] at hown
      exact h.clear htbl hn hown

theorem Named.copied {child : ℕ} (h : Named s) (hc : Copied s t child id newfd) : Named t := by
  obtain ⟨tbl, htbl, hentry, hunsh, htables⟩ := hc.tables
  have hlen : id < tbl.length := (List.getElem?_eq_some_iff.mp hentry).1
  have hzero : tbl.getD id 0 = 0 := by
    rw [List.getD_eq_getElem?_getD, hentry]
    rfl
  have hidnew : id ≠ newfd := by
    rintro rfl
    exact absurd hc.free (Option.isSome_iff_ne_none.mp hc.live)
  constructor
  case pos =>
    intro j hj
    by_cases hjn : j = newfd
    · exact hjn ▸ hc.pos
    · rw [owner_of_ident (hc.frame j hjn)] at hj
      exact h.pos hj
  case backed =>
    intro p j ho hsh
    rw [htables]
    by_cases hjn : j = newfd
    · subst hjn
      obtain rfl : child = p := Option.some.inj (hc.owner.symm.trans ho)
      rw [hc.origFd]
      exact ⟨h.pos hc.live, _, Function.update_self .., getD_set_self hlen⟩
    · rw [owner_of_ident (hc.frame j hjn)] at ho
      rw [shadow_of_ident (hc.frame j hjn)] at hsh
      rw [origFd_of_ident (hc.frame j hjn)]
      obtain ⟨hpos, tbl', htbl', hat⟩ := h.backed ho hsh
      refine ⟨hpos, ?_⟩
      by_cases hp : p = child
      · subst hp
        obtain rfl : tbl = tbl' := Option.some.inj (htbl.symm.trans htbl')
        -- the entry that is written was empty
        have hne : id ≠ (s.fd j).origFd := by
          intro heq
          rw [← heq, hzero] at hat
          exact Nat.ne_of_lt (h.pos (by rw [ho]; rfl)) hat
        exact ⟨_, Function.update_self .., by rw [getD_set_ne hne, hat]⟩
      · exact ⟨tbl', by rw [Function.update_of_ne hp, htbl'], hat⟩
  case clear =>
    intro p tbl' n htbl' hn ho
    rw [htables] at htbl'
    by_cases hp : p = child
    · subst hp
      rw [Function.update_self, Option.some.injEq] at htbl'
      subst htbl'
      by_cases hnid : id = n
      · subst hnid
        rw [owner_of_ident (hc.frame id hidnew)] at ho
        exact hc.other ho
      · rw [getD_set_ne hnid] at hn
        have hnn : n ≠ newfd := by
          rintro rfl
          exact Nat.ne_of_gt hn hunsh
        rw [owner_of_ident (hc.frame n hnn)] at ho
        exact h.clear htbl hn ho
    · rw [Function.update_of_ne hp] at htbl'
      by_cases hnn : n = newfd
      · subst hnn
        exact hp (Option.some.inj (ho.symm.trans hc.owner))
      · rw [owner_of_ident (hc.frame n hnn)] at ho
        exact h.clear htbl' hn ho

theorem Named.touched (h : Named s) (ht : Touched s t pid id)
    (hclear : ∀ tbl, s.tables pid = some tbl → tbl.getD id 0 = 0) : Named t := by
  have hafter : (t.fd id).shadow = false :=
    (shadow_of_ident ht.after).trans ht.shadow
  constructor
  case pos =>
    intro j hj
    by_cases hjid : j = id
    · exact hjid ▸ h.pos ht.live
    · rw [owner_of_ident (ht.frame j hjid)] at hj
      exact h.pos hj
  case backed =>
    intro p j ho hsh
    have hjid : j ≠ id := by
      rintro rfl
      rw [hafter] at hsh
      cases hsh
    rw [owner_of_ident (ht.frame j hjid)] at ho
    rw [shadow_of_ident (ht.frame j hjid)] at hsh
    rw [origFd_of_ident (ht.frame j hjid), ht.tables]
    exact h.backed ho hsh
  case clear =>
    intro p tbl n htbl hn ho
    rw [ht.tables] at htbl
    by_cases hnid : n = id
    · subst hnid
      rw [owner_of_ident ht.after] at ho
      obtain rfl : pid = p := Option.some.inj ho
      exact Nat.ne_of_gt hn (hclear tbl htbl)
    · rw [owner_of_ident (ht.frame n hnid)] at ho
      exact h.clear htbl hn ho

theorem Named.change (h : Named s) (hc : Change s t) : Named t := by
  cases hc with
  | same hfd htables _ =>
    exact h.congr (fun j => owner_of_ident (hfd j)) (fun j => shadow_of_ident (hfd j))
      (fun j => origFd_of_ident (hfd j)) htables
  | client pid hnone hfd htables _ =>
    obtain ⟨tbl, htables⟩ := htables
    exact h.client hnone hfd htables
  | dropped id hd => exact h.dropped hd
  | opened pid id ho => exact h.opened ho
  | copied child id newfd hc => exact h.copied hc
  | stale tr _ _ hfd htables _ =>
    exact h.congr (fun j => by rw [hfd]) (fun j => by rw [hfd]) (fun j => by rw [hfd]) htables

theorem Named.changes (h : Named s) (hc : Changes s t) : Named t := by
  induction hc with
  | refl => exact h
  | tail _ hstep ih => exact ih.change hstep

theorem tables_of_shadowed {n : ℕ} (h : s.shadowed pid n = false) (tbl : List ℕ)
    (htbl : s.tables pid = some tbl) : tbl.getD n 0 = 0 := by
  obtain ⟨c, hc, rfl⟩ := Option.map_eq_some_iff.mp htbl
  simp only [State.shadowed, hc, Option.any_some] at h
  exact getElem?_zero_of_shadows h

theorem shadowed_getClient {n : ℕ} : (s.getClient pid).shadowed pid n = s.shadowed pid n := by
  simp only [State.getClient]
  split
  · rfl
  · next hc => simp [State.shadowed, State.setClient, hc, Client.shadows]

theorem Named.exec {a : Step} (hi : Inv s) (h : Named s) (hok : touchClear s a)
    (hs : Handles.exec s a = some t) : Named t := by
  rcases hi.step_changes hs with hc | ⟨id, -, u, v, target, hu, ho, he⟩ | ⟨sender, newfd, rfl, htouched⟩
  · exact h.changes hc
  · have hv := (h.changes hu).offered ho
    rw [he]
    exact ⟨hv.pos, hv.backed, hv.clear⟩
  have hoffers : s.offers (pidof sender) newfd = true := by
    obtain ⟨tr, hmem, hfdeq, hmatch, -⟩ := htouched.transfers
    rw [getClient_transfers] at hmem
    exact List.any_eq_true.mpr ⟨tr, hmem, by simp [hfdeq, hmatch]⟩
  have hclear := hok hoffers
  rw [← shadowed_getClient] at hclear
  exact (h.changes (hi.coherent.changes_getClient _)).touched htouched (tables_of_shadowed hclear)

theorem Named.init : Named State.init := ⟨nofun, nofun, nofun⟩

-- Lookups

theorem getFd_direct (hpos : 0 < id) (ho : (s.fd id).owner = some pid) (hsh : (s.fd id).shadow = false) :
    s.getFd pid id = some (some id) := by
  simp only [State.getFd, if_neg (Nat.ne_of_gt hpos), ho, if_true, hsh]
  rfl

theorem Named.getFd_backed (h : Named s) (ho : (s.fd id).owner = some pid)
    (hsh : (s.fd id).shadow = true) : s.getFd pid (s.fd id).origFd = some (some id) := by
  obtain ⟨hpos, tbl, htbl, hat⟩ := h.backed ho hsh
  have hid : 0 < id := h.pos (by rw [ho]; rfl)
  obtain ⟨c, hc, rfl⟩ := Option.map_eq_some_iff.mp htbl
  have hother := h.clear htbl (by rw [hat]; exact hid)
  have hshadows : c.shadows (s.fd id).origFd = true := by
    rw [Client.shadows, hat]
    exact decide_eq_true hid
  simp only [State.getFd, if_neg (Nat.ne_of_gt hpos), if_neg hother, hc, hshadows, if_true, hat, hsh]

theorem Tabled.entry_of_shadows {c : Client} {n : ℕ} (h : Tabled s none) (hc : s.clients pid = some c)
    (hn : c.shadows n = true) : (s.fd (c.fdTable.getD n 0)).owner = some pid ∧
      (s.fd (c.fdTable.getD n 0)).shadow = true ∧ (s.fd (c.fdTable.getD n 0)).origFd = n := by
  obtain ⟨hat, hpos⟩ := Client.shadows_spec hn
  have htbl : s.tables pid = some c.fdTable := by simp [State.tables, hc]
  exact h.entry (by rintro ⟨⟩) htbl hat hpos

theorem Inv.eq_of_getFd {n : ℕ} (h : Inv s) (hs : s.getFd pid n = some (some id)) :
    ((s.fd id).shadow = false ∧ n = id) ∨ ((s.fd id).shadow = true ∧ n = (s.fd id).origFd) := by
  simp only [State.getFd] at hs
  split at hs
  · cases hs
  split at hs
  · split at hs
    · cases hs
    · next hsh =>
      cases hs
      exact .inl ⟨by simpa using hsh, rfl⟩
  split at hs
  · cases hs
  next c hc =>
  split at hs
  · next hn =>
    split at hs
    · next hsh =>
      cases hs
      exact .inr ⟨hsh, (h.tabled.entry_of_shadows hc hn).2.2.symm⟩
    · cases hs
  · cases hs

theorem Inv.getFd_answer {c : Client} {n : ℕ} (h : Inv s) (hc : s.clients pid = some c) (hn : 0 < n) :
    ∃ r, s.getFd pid n = some r := by
  simp only [State.getFd, if_neg (Nat.ne_of_gt hn), hc]
  split
  · exact ⟨_, rfl⟩
  split
  · next hsh =>
    exact ⟨_, if_pos (h.tabled.entry_of_shadows hc hsh).2.1⟩
  · exact ⟨_, rfl⟩

theorem Named.namesHandles (hi : Inv s) (h : Named s) : NamesHandles s where
  number pid id ho := by
    cases hsh : (s.fd id).shadow with
    | false =>
      refine ⟨id, getFd_direct (h.pos (by rw [ho]; rfl)) ho hsh, fun n hn => ?_⟩
      rcases hi.eq_of_getFd hn with ⟨-, he⟩ | ⟨hsh', -⟩
      · exact he
      · rw [hsh] at hsh'
        cases hsh'
    | true =>
      refine ⟨(s.fd id).origFd, h.getFd_backed ho hsh, fun n hn => ?_⟩
      rcases hi.eq_of_getFd hn with ⟨hsh', -⟩ | ⟨-, he⟩
      · rw [hsh] at hsh'
        cases hsh'
      · exact he
  own pid n id hs := hi.getFd_owner hs
  answer pid c hc n hn := hi.getFd_answer hc hn
  direct pid id ho hsh := getFd_direct (h.pos (by rw [ho]; rfl)) ho hsh
  received sender newfd t hs := by
    rcases hi.changes_touch hs with ⟨hr, -⟩ | ⟨-, ht⟩
    · cases hr
    · have hpos : 0 < newfd := (h.changes (hi.coherent.changes_getClient _)).pos ht.live
      exact getFd_direct hpos (owner_of_ident ht.after) ((shadow_of_ident ht.after).trans ht.shadow)

/-- **Numbers name handles**: in every run in which no transferred handle is taken over under
    a number that the receiver inherited, every state gives each handle of each client one number. -/
theorem names_handles {as : List Step} (h : Run Handles.exec touchClear State.init as s) :
    NamesHandles s := by
  have hboth : Inv s ∧ Named s := Run.invariant (I := fun s => Inv s ∧ Named s)
    (fun _ _ _ hok he hi => ⟨hi.1.exec he, hi.2.exec hi.1 hok he⟩) h ⟨Inv.init, Named.init⟩
  exact hboth.2.namesHandles hboth.1

/-- Process 5 opens file 0 as 1, forks 6 and closes 1. Process 9 opens file 1 and passes a copy
    of its handle to 6. -/
def transferRun (copy : ℕ) : List Step :=
  [.call (userTid 5) .iofNew, .call (userTid 5) (.addFd 0 false [1]), .event (.fork 5 6 [2]),
    .call (userTid 5) (.close 1), .confirm, .call (userTid 9) .iofNew,
    .call (userTid 9) (.addFd 1 false [3]), .call (userTid 9) (.dupTo 3 6 true [copy]),
    .call (userTid 6) (.touch copy)]

theorem names_handles_touch : ∃ s, Run Handles.exec touchClear State.init (transferRun 4) s ∧
    NamesHandles s ∧ s.clientHandles 6 = some [2, 4] := by
  obtain ⟨s, hrun, hs⟩ := Run.exists_of_evalRun Handles.exec touchClear State.init (transferRun 4)
    (fun s => s.clientHandles 6) (some [2, 4]) (by decide +kernel)
  exact ⟨s, hrun, names_handles hrun, hs⟩

/-- The id of the closed handle is taken by the copy: 6 takes it over and cannot reach what it
    inherited under that number. -/
theorem touch_hides_inherited :
    ∃ s, Run Handles.exec free State.init (transferRun 1) s ∧ (s.fd 2).owner = some 6 ∧
      (∀ n, s.getFd 6 n ≠ some (some 2)) ∧ ¬ NamesHandles s := by
  obtain ⟨s, hrun, hs⟩ := Run.exists_of_evalRun Handles.exec free State.init (transferRun 1)
    (fun s => ((s.fd 1).owner, (s.fd 2).owner, (s.fd 2).shadow, (s.fd 2).origFd))
    (some 6, some 6, true, 1) (by decide +kernel)
  simp only [Prod.mk.injEq] at hs
  obtain ⟨ho1, ho2, hsh2, horig⟩ := hs
  have hno : ∀ n, s.getFd 6 n ≠ some (some 2) := by
    intro n hn
    rcases (Inv.of_run hrun).eq_of_getFd hn with ⟨hsh, -⟩ | ⟨-, rfl⟩
    · rw [hsh2] at hsh
      cases hsh
    · rw [horig] at hn
      simp only [State.getFd, ho1] at hn
      split at hn <;> simp at hn
  refine ⟨s, hrun, ho2, hno, fun hnames => ?_⟩
  obtain ⟨n, hn, -⟩ := hnames.number 6 2 ho2
  exact hno n hn

end Sneks.Io.Handles
