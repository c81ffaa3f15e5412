import Sneks.Io.Handles.Tables

/-!
# What a child inherits

After a fork a number should mean the same file to the child as to its parent.
`fork_client` copies the parent's own handles by their numbers; for a number that the
parent has inherited itself it copies whatever handle has that number now, where the
parent's copy is another handle. The child inherits what the parent has just when the
two are on one file.
-/

namespace Sneks.Io.Handles
open Lib

def SameFile (t : State) : Option (Option ℕ) → Option (Option ℕ) → Prop
  | some none, some none => True
  | some (some a), some (some b) => (t.fd a).file = (t.fd b).file
  | _, _ => False

def Inherits (t : State) (parent child : ℕ) : Prop :=
  ∀ n, 0 < n → SameFile t (t.getFd parent n) (t.getFd child n)

/-- Each number that the parent has inherited is, as a number of its own, a live handle on
    the file that it is on to the parent. -/
def Sound (s : State) (p : Client) : Prop :=
  ∀ n, 0 < p.fdTable.getD n 0 → s.fileOf n = some (s.fd (p.fdTable.getD n 0)).file

variable {s t u : State} {id pid child parent : ℕ} {p : Client} {done : List ℕ}

/-- The handles `done` of `s` have been copied for the child. -/
structure Progress (s t : State) (child : ℕ) (c : Client) (done : List ℕ) : Prop where
  client : t.clients child = some c
  others : ∀ q, q ≠ child → t.clients q = s.clients q
  count : c.handles.length = done.length
  nodup : done.Nodup
  frame : ∀ j, (s.fd j).owner.isSome → t.fd j = s.fd j
  copies : ∀ j, (t.fd j).owner = some child → (t.fd j).shadow = true
  fresh : ∀ j, (s.fd j).owner = none → (t.fd j).owner = none ∨ (t.fd j).owner = some child
  copied : ∀ n ∈ done, 0 < c.fdTable.getD n 0 ∧ (t.fd (c.fdTable.getD n 0)).owner = some child ∧
    (t.fd (c.fdTable.getD n 0)).file = (s.fd n).file
  rest : ∀ n, n ∉ done → c.fdTable.getD n 0 = 0

theorem Progress.forked {c c' : Client} {newfd : ℕ} (h : Progress s t child c done)
    (hlive : (s.fd id).owner.isSome) (hf : Forked t u child id newfd c') :
    Progress s u child ⟨c.handles ++ [newfd], c.fdTable.set id newfd⟩ (done ++ [id]) := by
  obtain rfl : c' = c := Option.some.inj (hf.client.symm.trans h.client)
  have hzero : c'.fdTable.getD id 0 = 0 := by
    rw [List.getD_eq_getElem?_getD, hf.entry]
    rfl
  have hnew : id ∉ done := fun hm => Nat.ne_of_gt (h.copied id hm).1 hzero
  have hlen : id < c'.fdTable.length := (List.getElem?_eq_some_iff.mp hf.entry).1
  have hne : ∀ {j}, (t.fd j).owner ≠ none → j ≠ newfd := by
    rintro j hj rfl
    exact hj hf.free
  constructor
  case client => rw [hf.clients, Function.update_self]
  case others =>
    intro q hq
    rw [hf.clients, Function.update_of_ne hq, h.others q hq]
  case count => simp [h.count]
  case nodup => simpa using h.nodup.concat hnew
  case frame =>
    intro j hj
    have hjt := h.frame j hj
    rw [hf.frame j (hne (by rw [hjt]; exact Option.isSome_iff_ne_none.mp hj)), hjt]
  case copies =>
    intro j hj
    by_cases hjn : j = newfd
    · rw [hjn]
      exact eq_of_core Fd.shadow (fun _ => rfl) hf.copy
    · rw [hf.frame j hjn] at hj ⊢
      exact h.copies j hj
  case fresh =>
    intro j hj
    by_cases hjn : j = newfd
    · rw [hjn]
      exact .inr (eq_of_core Fd.owner (fun _ => rfl) hf.copy)
    · rw [hf.frame j hjn]
      exact h.fresh j hj
  case copied =>
    intro n hn
    rcases List.mem_append.mp hn with hn | hn
    · have hnid : id ≠ n := by
        rintro rfl
        exact hnew hn
      obtain ⟨hpos, hown, hfile⟩ := h.copied n hn
      rw [getD_set_ne hnid, hf.frame _ (hne (by rw [hown]; simp))]
      exact ⟨hpos, hown, hfile⟩
    · obtain rfl : n = id := List.mem_singleton.mp hn
      rw [getD_set_self hlen]
      refine ⟨hf.pos, eq_of_core Fd.owner (fun _ => rfl) hf.copy, ?_⟩
      rw [eq_of_core Fd.file (fun _ => rfl) hf.copy, ← h.frame n hlive]
  case rest =>
    intro n hn
    simp only [List.mem_append, List.mem_singleton, not_or] at hn
    rw [getD_set_ne (Ne.symm hn.2)]
    exact h.rest n hn.1

theorem Progress.forkAll {c : Client} {hs ids rest : List ℕ} (h : Progress s t child c done) (hi : Inv t)
    (hlive : ∀ id ∈ hs, (s.fd id).owner.isSome) (hu : t.forkAll child hs ids = some (u, rest)) :
    ∃ c', Progress s u child c' (done ++ hs) := by
  induction hs generalizing t ids c done with
  | nil =>
    cases hu
    exact ⟨c, by rwa [List.append_nil]⟩
  | cons id hs ih =>
    simp only [State.forkAll, Option.bind_eq_bind, Option.bind_eq_some_iff] at hu
    obtain ⟨⟨v, ids'⟩, hone, hu⟩ := hu
    obtain ⟨hv, newfd, c', hf⟩ := hi.forkOne hone
    have hstep := h.forked (hlive id List.mem_cons_self) hf
    rw [List.append_cons]
    exact ih hstep hv (fun j hj => hlive j (List.mem_cons_of_mem _ hj)) hu

theorem Progress.forkShadowed {c : Client} {ns ids rest : List ℕ} (h : Progress s t child c done)
    (hi : Inv t) (hu : t.forkShadowed child ns ids = some (u, rest)) :
    (∀ n ∈ ns, (s.fd n).owner.isSome → (s.fd n).shadow = false) ∧
    ∃ c', Progress s u child c' (done ++ ns.filter fun n => (s.fd n).owner.isSome) := by
  induction ns generalizing t ids c done with
  | nil =>
    cases hu
    exact ⟨by simp, c, by rwa [List.filter_nil, List.append_nil]⟩
  | cons i ns ih =>
    simp only [State.forkShadowed] at hu
    split at hu
    · next hnone =>
      have hdead : (s.fd i).owner.isSome = false := by
        by_contra hlive
        rw [Bool.not_eq_false] at hlive
        rw [h.frame i hlive, Option.isNone_iff_eq_none] at hnone
        rw [hnone] at hlive
        cases hlive
      obtain ⟨hsh, hprog⟩ := ih h hi hu
      refine ⟨fun n hn hlive => ?_, by simpa [hdead] using hprog⟩
      rcases List.mem_cons.mp hn with rfl | hn
      · simp [hdead] at hlive
      · exact hsh n hn hlive
    split at hu
    · cases hu
    next hnone hshadow =>
    have hlive : (s.fd i).owner.isSome := by
      by_contra hdead
      rcases h.fresh i (by simpa using hdead) with hd | hd
      · simp [hd] at hnone
      · exact hshadow (h.copies i hd)
    simp only [Option.bind_eq_bind, Option.bind_eq_some_iff] at hu
    obtain ⟨⟨v, ids'⟩, hone, hu⟩ := hu
    obtain ⟨hv, newfd, c', hf⟩ := hi.forkOne hone
    obtain ⟨hsh, c'', hprog⟩ := ih (h.forked hlive hf) hv hu
    refine ⟨fun n hn hl => ?_, c'', ?_⟩
    · rcases List.mem_cons.mp hn with rfl | hn
      · rw [h.frame n hl] at hshadow
        simpa using hshadow
      · exact hsh n hn hl
    · rwa [List.filter_cons_of_pos (by simpa using hlive), List.append_cons]

theorem Inv.not_owner (h : Inv s) (hchild : s.clients child = none) (j : ℕ) :
    (s.fd j).owner ≠ some child := by
  intro hj
  obtain ⟨l, hl, -⟩ := h.coherent.clients.held (i := j) hj
  simp [State.clientHandles, hchild] at hl

theorem Progress.start (h : Inv s) (hchild : s.clients child = none) (len : ℕ) :
    Progress s (s.setClient child ⟨[], List.replicate len 0⟩) child ⟨[], List.replicate len 0⟩ [] where
  client := Function.update_self ..
  others q hq := Function.update_of_ne hq ..
  count := rfl
  nodup := List.nodup_nil
  frame _ _ := rfl
  copies j hj := absurd hj (h.not_owner hchild j)
  fresh _ hj := .inl hj
  copied := nofun
  rest n _ := by
    rw [List.getD_eq_getElem?_getD, List.getElem?_replicate]
    split <;> rfl

-- The parent's numbers

theorem mem_tableNumbers {n : ℕ} : n ∈ p.tableNumbers ↔ 0 < p.fdTable.getD n 0 := by
  simp only [Client.tableNumbers, Client.shadows, List.mem_filter, List.mem_range, decide_eq_true_eq,
    and_iff_right_iff_imp]
  intro hn
  by_contra hlen
  rw [List.getD_eq_getElem?_getD, List.getElem?_eq_none (Nat.not_lt.mp hlen)] at hn
  exact Nat.lt_irrefl 0 hn

theorem Inv.entry {n : ℕ} (h : Inv s) (hp : s.clients parent = some p) (hn : 0 < p.fdTable.getD n 0) :
    (s.fd (p.fdTable.getD n 0)).owner = some parent ∧ (s.fd (p.fdTable.getD n 0)).shadow = true ∧
      (s.fd (p.fdTable.getD n 0)).origFd = n := by
  have hshadows : p.shadows n = true := by simpa only [Client.shadows, decide_eq_true_eq] using hn
  exact h.tabled.entry (by rintro ⟨⟩) (by simp [State.tables, hp]) (Client.shadows_spec hshadows).1 hn

theorem Inv.length_le_handles (h : Inv s) (hp : s.clients parent = some p) :
    (s.ownHandles p).length + p.tableNumbers.length ≤ p.handles.length := by
  have hl : s.clientHandles parent = some p.handles := by simp [State.clientHandles, hp]
  have hsplit := List.length_eq_length_filter_add (l := p.handles) fun id => !(s.fd id).shadow
  have hnodup : (p.tableNumbers.map (p.fdTable.getD · 0)).Nodup := by
    refine List.Nodup.map_on (fun n hn m hm he => ?_) (List.nodup_range.filter _)
    have hn' := (h.entry hp (mem_tableNumbers.mp hn)).2.2
    have hm' := (h.entry hp (mem_tableNumbers.mp hm)).2.2
    rw [← hn', ← hm', he]
  have hsub : p.tableNumbers.map (p.fdTable.getD · 0) ⊆
      p.handles.filter fun id => !!(s.fd id).shadow := by
    intro m hm
    obtain ⟨n, hn, rfl⟩ := List.mem_map.mp hm
    obtain ⟨hown, hsh, -⟩ := h.entry hp (mem_tableNumbers.mp hn)
    exact List.mem_filter.mpr ⟨(h.coherent.clients.mem_iff hl).mpr hown, by rw [hsh]; rfl⟩
  have hle := (List.subperm_of_subset hnodup hsub).length_le
  rw [List.length_map] at hle
  rw [hsplit, State.ownHandles]
  omega

theorem mem_ownHandles (h : Inv s) (hp : s.clients parent = some p) {n : ℕ} :
    n ∈ s.ownHandles p ↔ (s.fd n).owner = some parent ∧ (s.fd n).shadow = false := by
  have hl : s.clientHandles parent = some p.handles := by simp [State.clientHandles, hp]
  simp only [State.ownHandles, List.mem_filter, h.coherent.clients.mem_iff hl, Bool.not_eq_true']
  rfl

-- The child's numbers

theorem forkClient_progress {ids : List ℕ} (h : Inv s) (hp : s.clients parent = some p)
    (hchild : s.clients child = none) (hs : s.forkClient parent child ids = some t) :
    (∀ n ∈ p.tableNumbers, (s.fd n).owner.isSome ∧ (s.fd n).shadow = false) ∧
    ∃ c, Progress s t child c (s.ownHandles p ++ p.tableNumbers) := by
  simp only [State.forkClient, Option.bind_eq_bind, Option.bind_eq_some_iff] at hs
  obtain ⟨p', hp', ⟨u, ids'⟩, hu, ⟨v, ids''⟩, hv, c, hc, hs⟩ := hs
  obtain rfl : p' = p := Option.some.inj (hp'.symm.trans hp)
  split at hs
  · next hlen =>
    cases hs
    have hnew : Inv (s.setClient child ⟨[], List.replicate (s.tableLen p') 0⟩) :=
      ⟨h.coherent.setNewClient hchild _,
        h.tabled.setNewClient fun m hm => (List.mem_replicate.mp hm).2⟩
    have hlive : ∀ id ∈ s.ownHandles p', (s.fd id).owner.isSome := by
      intro id hid
      rw [((mem_ownHandles h hp).mp hid).1]
      rfl
    obtain ⟨c₁, h₁⟩ := (Progress.start h hchild _).forkAll hnew hlive hu
    obtain ⟨hsh, c₂, h₂⟩ := h₁.forkShadowed (hnew.forkAll hu) hv
    obtain rfl : c = c₂ := Option.some.inj (hc.symm.trans h₂.client)
    have hcount := h₂.count
    rw [hlen, List.length_append, List.nil_append] at hcount
    have hle := h.length_le_handles hp
    have hall : p'.tableNumbers.filter (fun n => (s.fd n).owner.isSome) = p'.tableNumbers :=
      (List.filter_sublist ..).eq_of_length_le (by omega)
    have halive : ∀ n ∈ p'.tableNumbers, (s.fd n).owner.isSome := List.filter_eq_self.mp hall
    refine ⟨fun n hn => ⟨halive n hn, hsh n hn (halive n hn)⟩, c, ?_⟩
    rwa [hall, List.nil_append] at h₂
  · cases hs

theorem Progress.getFd_child {c : Client} {n : ℕ} (h : Progress s t child c done) (hi : Inv s)
    (hchild : s.clients child = none) (hlive : ∀ n ∈ done, (s.fd n).owner.isSome) (hn : 0 < n) :
    t.getFd child n = some (if n ∈ done then some (c.fdTable.getD n 0) else none) := by
  have hn0 : n ≠ 0 := Nat.ne_of_gt hn
  by_cases hdone : n ∈ done
  · have hown : (t.fd n).owner ≠ some child := by
      rw [h.frame n (hlive n hdone)]
      exact hi.not_owner hchild n
    obtain ⟨hpos, hown', -⟩ := h.copied n hdone
    have hshadows : c.shadows n = true := by simpa only [Client.shadows, decide_eq_true_eq] using hpos
    simp only [State.getFd, if_neg hn0, if_neg hown, h.client, hshadows, if_true, h.copies _ hown',
      if_pos hdone]
  · have hzero := h.rest n hdone
    have hshadows : c.shadows n = false := by simp only [Client.shadows, hzero]; rfl
    by_cases hown : (t.fd n).owner = some child
    · simp only [State.getFd, if_neg hn0, if_pos hown, h.copies n hown, if_true, if_neg hdone]
    · simp [State.getFd, hn0, hown, h.client, hshadows, hdone]

theorem Progress.getFd_parent {c : Client} {n : ℕ} (h : Progress s t child c done) (hi : Inv s)
    (hp : s.clients parent = some p) (hchild : s.clients child = none)
    (htable : ∀ n ∈ p.tableNumbers, (s.fd n).owner.isSome ∧ (s.fd n).shadow = false) (hn : 0 < n) :
    t.getFd parent n = some (if n ∈ s.ownHandles p then some n
      else if n ∈ p.tableNumbers then some (p.fdTable.getD n 0) else none) := by
  have hn0 : n ≠ 0 := Nat.ne_of_gt hn
  have hne : parent ≠ child := by
    rintro rfl
    cases hchild.symm.trans hp
  have hsame : (t.fd n).owner = some parent → t.fd n = s.fd n := by
    intro ho
    refine h.frame n ?_
    by_contra hdead
    rcases h.fresh n (by simpa using hdead) with hd | hd
    · cases hd.symm.trans ho
    · exact hne (Option.some.inj (ho.symm.trans hd))
  by_cases ho : (t.fd n).owner = some parent
  · have hs := hsame ho
    rw [hs] at ho
    by_cases hsh : (s.fd n).shadow = true
    · have hown : n ∉ s.ownHandles p := by
        rw [mem_ownHandles hi hp, hsh]
        simp
      have htab : n ∉ p.tableNumbers := by
        intro hm
        rw [(htable n hm).2] at hsh
        cases hsh
      simp only [State.getFd, if_neg hn0, hs, if_pos ho, hsh, if_true, if_neg hown, if_neg htab]
    · have hown : n ∈ s.ownHandles p := (mem_ownHandles hi hp).mpr ⟨ho, by simpa using hsh⟩
      simp only [State.getFd, if_neg hn0, hs, if_pos ho, if_neg hsh, if_pos hown]
  · have hown : n ∉ s.ownHandles p := by
      intro hm
      have hs := ((mem_ownHandles hi hp).mp hm).1
      rw [h.frame n (by rw [hs]; rfl)] at ho
      exact ho hs
    have hclient : t.clients parent = some p := by rw [h.others parent hne, hp]
    by_cases hm : n ∈ p.tableNumbers
    · have hpos := mem_tableNumbers.mp hm
      have hshadows : p.shadows n = true := by simpa only [Client.shadows, decide_eq_true_eq] using hpos
      obtain ⟨hown', hsh, -⟩ := hi.entry hp hpos
      have hentry : (t.fd (p.fdTable.getD n 0)).shadow = true := by
        rw [h.frame _ (by rw [hown']; rfl), hsh]
      simp only [State.getFd, if_neg hn0, if_neg ho, hclient, hshadows, if_true, hentry, if_neg hown,
        if_pos hm]
    · have hshadows : p.shadows n = false := by
        have := mt mem_tableNumbers.mpr hm
        simpa only [Client.shadows, decide_eq_false_iff_not] using this
      simp [State.getFd, hn0, ho, hclient, hshadows, hown, hm]

-- Inheritance

/-- **Inheritance**: in every state that the server reaches, a fork that succeeds makes every
    number to the child what it is to the parent if and only if each number that the parent
    has inherited is also the number of a live handle on the same file. -/
theorem fork_inherits_iff {as : List Step} {ids : List ℕ} (h : Run exec free State.init as s)
    (hp : s.clients parent = some p) (hchild : s.clients child = none)
    (hs : s.forkClient parent child ids = some t) :
    Inherits t parent child ↔ Sound s p := by
  have hi := Inv.of_run h
  obtain ⟨htable, c, hprog⟩ := forkClient_progress hi hp hchild hs
  have hlive : ∀ n ∈ s.ownHandles p ++ p.tableNumbers, (s.fd n).owner.isSome := by
    intro n hn
    rcases List.mem_append.mp hn with hn | hn
    · rw [((mem_ownHandles hi hp).mp hn).1]
      rfl
    · exact (htable n hn).1
  have hdisj : ∀ n ∈ p.tableNumbers, n ∉ s.ownHandles p :=
    fun n hm hown => (List.nodup_append.mp hprog.nodup).2.2 n hown n hm rfl
  -- for an inherited number the child's copy and the parent's are on the files below
  have hfiles : ∀ n ∈ p.tableNumbers,
      (t.fd (p.fdTable.getD n 0)).file = (s.fd (p.fdTable.getD n 0)).file ∧
      (t.fd (c.fdTable.getD n 0)).file = (s.fd n).file := by
    intro n hm
    obtain ⟨hown, -, -⟩ := hi.entry hp (mem_tableNumbers.mp hm)
    exact ⟨by rw [hprog.frame _ (by rw [hown]; rfl)],
      (hprog.copied n (List.mem_append_right _ hm)).2.2⟩
  have hlookup : ∀ n, 0 < n → t.getFd child n =
      some (if n ∈ s.ownHandles p ++ p.tableNumbers then some (c.fdTable.getD n 0) else none) :=
    fun n hn => hprog.getFd_child hi hchild hlive hn
  constructor
  · intro hin n hpos
    have hm := mem_tableNumbers.mpr hpos
    obtain ⟨q, hq⟩ := Option.isSome_iff_exists.mp (htable n hm).1
    have hn : 0 < n := (hi.coherent.range n (htable n hm).1).1
    have hsame := hin n hn
    rw [hlookup n hn, hprog.getFd_parent hi hp hchild htable hn, if_neg (hdisj n hm), if_pos hm,
      if_pos (List.mem_append_right _ hm), SameFile, (hfiles n hm).1, (hfiles n hm).2] at hsame
    rw [hsame]
    simp [State.fileOf, Fd.onFile, hq]
  · intro hsound n hn
    rw [hlookup n hn, hprog.getFd_parent hi hp hchild htable hn]
    by_cases hown : n ∈ s.ownHandles p
    · have hdone := List.mem_append_left p.tableNumbers hown
      rw [if_pos hown, if_pos hdone, SameFile, (hprog.copied n hdone).2.2,
        hprog.frame n (hlive n hdone)]
    · by_cases hm : n ∈ p.tableNumbers
      · rw [if_neg hown, if_pos hm, if_pos (List.mem_append_right _ hm), SameFile, (hfiles n hm).1,
          (hfiles n hm).2]
        obtain ⟨q, -, hq⟩ := Option.map_eq_some_iff.mp (hsound n (mem_tableNumbers.mp hm))
        exact hq.symm
      · rw [if_neg hown, if_neg hm, if_neg (by simp [hown, hm])]
        trivial

def openFork : List Step :=
  [.call (userTid 5) .iofNew, .call (userTid 5) (.addFd 0 false [1]), .event (.fork 5 6 [2])]

/-- A grandchild, forked while the number is still that of its grandparent's handle. -/
theorem fork_inherits_grandchild : ∃ s p t, Run exec free State.init openFork s ∧
    s.clients 6 = some p ∧ s.clients 7 = none ∧ s.forkClient 6 7 [3] = some t ∧ Sound s p ∧
    Inherits t 6 7 := by
  obtain ⟨s, hs, he⟩ := Run.exists_of_evalRun exec free State.init openFork
    (fun s => ((s.clients 6).map (·.fdTable), (s.clients 7).isNone, (s.forkClient 6 7 [3]).isSome,
      s.fileOf 1, (s.fd 2).file)) (some [0, 2], true, true, some 0, 0) (by decide +kernel)
  simp only [Prod.mk.injEq] at he
  obtain ⟨htable, hchild, hfork, hfile, hcopy⟩ := he
  obtain ⟨p, hp, htable⟩ := Option.map_eq_some_iff.mp htable
  obtain ⟨t, ht⟩ := Option.isSome_iff_exists.mp hfork
  have hchild := Option.isNone_iff_eq_none.mp hchild
  have hsound : Sound s p := by
    intro n hn
    rw [htable] at hn ⊢
    match n with
    | 0 => exact absurd hn (by decide)
    | 1 => exact hfile.trans (congrArg some hcopy.symm)
    | _ + 2 => exact absurd hn (by simp)
  exact ⟨s, p, t, hs, hp, hchild, ht, hsound, (fork_inherits_iff hs hp hchild ht).mpr hsound⟩

def reuse : List Step := openFork ++
  [.call (userTid 5) (.close 1), .confirm, .call (userTid 9) .iofNew,
    .call (userTid 9) (.addFd 1 false [1])]

/-- The grandchild now gets a handle on the file of process 9. -/
theorem fork_not_inherits : ¬ ∀ as s parent child ids t, Run exec free State.init as s →
    s.clients child = none → s.forkClient parent child ids = some t → Inherits t parent child := by
  intro h
  obtain ⟨s, hs, he⟩ := Run.exists_of_evalRun exec free State.init reuse
    (fun s => ((s.clients 7).isNone, (s.forkClient 6 7 [3]).map fun (t : State) =>
      decide (t.getFd 6 1 = some (some 2) ∧ t.getFd 7 1 = some (some 3) ∧ (t.fd 2).file = 0 ∧
        (t.fd 3).file = 1))) (true, some true) (by decide +kernel)
  simp only [Prod.mk.injEq] at he
  obtain ⟨hchild, hfork⟩ := he
  obtain ⟨t, ht, hlook⟩ := Option.map_eq_some_iff.mp hfork
  obtain ⟨hparent, hgot, hfile, hfile'⟩ := of_decide_eq_true hlook
  have hsame := h _ s 6 7 [3] t hs (Option.isNone_iff_eq_none.mp hchild) ht 1 Nat.one_pos
  rw [hparent, hgot, SameFile, hfile, hfile'] at hsame
  cases hsame

end Sneks.Io.Handles
