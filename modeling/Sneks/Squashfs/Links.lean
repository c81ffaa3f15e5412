import Sneks.Squashfs.Resolve

/-!
# The symlinks that a resolution follows

Which symlinks `squashfs_resolve` follows in one call. The last of them may be absolute: the call is
passed on there, and its inode is not entered in `symlink_loop_hash`. Where none is followed a call is
passed on at a mount point only, with less text than it had.
-/

namespace Sneks.Squashfs

variable {σ : Type} {t : Tree σ} {flags : ResolveFlags} {isLast : Bool} {w w' : Walk σ} {part path text : Name} {fs : σ}
  {ino dirIno n m : ℕ} {r : Resolved}

def goOnLink (t : Tree σ) (flags : ResolveFlags) (isLast : Bool) (w : Walk σ) (part : Name) : Option ℕ :=
  match t.devices.filter fun dev => isLast && w.dirIno == dev.1 && !streq part deviceNodesName with
  | some _ => none
  | none =>
    match (t.lookup w.dirIno part w.fs).1 with
    | .ok (type, ino) => if type = .lnk ∧ (¬ isLast ∨ ¬ flags.nofollow) then some ino else none
    | .error _ => none

def turnLink (t : Tree σ) (flags : ResolveFlags) (w : Walk σ) (path : Name) : Option ℕ :=
  let comp := path.takeWhile (· != slash)
  match path.dropWhile (· != slash) with
  | [] =>
    match w.stack with
    | [] => goOnLink t flags true w comp
    | _ :: rest => if stackSize ≤ rest.length then none else goOnLink t flags false w comp
  | _ :: _ => if nameLen < comp.length then none else if comp = [] then none else goOnLink t flags false w comp

/-- The symlinks that are followed in at most `n` turns. -/
def links (t : Tree σ) (flags : ResolveFlags) : ℕ → Walk σ → List ℕ
  | 0, _ => []
  | n + 1, w =>
    match w.path with
    | some (c :: cs) =>
      (turnLink t flags w (c :: cs)).toList ++
        match turn t flags w (c :: cs) with
        | .again w => links t flags n w
        | .ended .. => []
    | _ => []

def Relative (t : Tree σ) (ino : ℕ) (fs : σ) : Prop := ∃ text, (t.getInode ino fs).1 = some text ∧ text.head? ≠ some slash

def Linked (t : Tree σ) (w : Walk σ) : Option ℕ → Turn σ → Prop
  | none, .again w' => w'.loopHash = w.loopHash ∧ w'.path = w.path ∧ w'.stack = w.stack
  | some ino, .again w' => ino ∉ w.loopHash ∧ w'.loopHash = ino :: w.loopHash ∧ ∃ fs, Relative t ino fs
  | none, .ended (.propagate dest text rem stack) _ =>
    dest ≠ none ∧ rem = none ∧ text = w.path.getD [] ∧ stack = w.stack
  | some ino, .ended (.propagate ..) _ => ino ≤ t.inodes
  | _, .ended .. => True

theorem enter_linked_none {type : DType} (h : ¬ (type = .lnk ∧ (¬ isLast ∨ ¬ flags.nofollow))) :
    Linked t w none (enter t flags isLast { w with type, fs } ino none) := by
  rw [enter]
  dsimp only
  split
  · cases t.otherfs ino fs
    · trivial
    · exact ⟨by rintro ⟨⟩, rfl, rfl, rfl⟩
  · cases isLast with
    | true =>
      rw [if_pos rfl]
      split
      · trivial
      · rw [if_neg fun hlnk => h ⟨hlnk.1, .inr hlnk.2⟩]
        trivial
    | false =>
      rw [if_neg Bool.false_ne_true]
      cases type with
      | dir => exact ⟨rfl, rfl, rfl⟩
      | _ => trivial

theorem enter_linked_some (hnew : ino ∉ w.loopHash) (hrel : ∃ fs, Relative t ino fs) :
    Linked t w (some ino)
      (enter t flags isLast { w with type := .lnk, loopHash := ino :: w.loopHash, fs } ino (some text)) := by
  rw [enter, if_neg (by rintro ⟨⟨⟩, -⟩)]
  cases isLast with
  | true =>
    rw [if_pos rfl]
    split
    · trivial
    · split
      · exact ⟨hnew, rfl, hrel⟩
      · trivial
  | false =>
    rw [if_neg Bool.false_ne_true]
    dsimp only
    cases w.path with
    | none => trivial
    | some path =>
      dsimp only
      split
      · trivial
      · split
        · trivial
        · exact ⟨hnew, rfl, hrel⟩

theorem goOn_linked : Linked t w (goOnLink t flags isLast w part) (goOn t flags isLast w part) := by
  rw [goOnLink, goOn]
  cases t.devices.filter fun dev => isLast && w.dirIno == dev.1 && !streq part deviceNodesName with
  | some dev =>
    dsimp only
    cases dev.2 part <;> trivial
  | none =>
    obtain ⟨found, fs⟩ := t.lookup w.dirIno part w.fs
    cases found with
    | error e => trivial
    | ok found =>
      obtain ⟨type, ino⟩ := found
      dsimp only
      split
      · next hlnk =>
        obtain ⟨rfl, -⟩ := hlnk
        split
        · trivial
        · next text fs' hget =>
          split
          · exact t.getInode_le _ _ text (by rw [hget])
          · next habs =>
            split
            · trivial
            · next hnew => exact enter_linked_some hnew ⟨fs, text, by rw [hget], habs⟩
      · next hplain => exact enter_linked_none hplain

theorem goOn_seen (hlink : goOnLink t flags isLast w part = some ino) (hseen : ino ∈ w.loopHash)
    (hrel : ∀ fs, Relative t ino fs) : ∃ fs, goOn t flags isLast w part = .ended (.error .ELOOP) fs := by
  rw [goOnLink] at hlink
  rw [goOn]
  cases hdev : t.devices.filter fun dev => isLast && w.dirIno == dev.1 && !streq part deviceNodesName with
  | some dev =>
    rw [hdev] at hlink
    cases hlink
  | none =>
    rw [hdev] at hlink
    cases hlookup : t.lookup w.dirIno part w.fs with
    | mk found fs =>
      rw [hlookup] at hlink
      cases found with
      | error e => cases hlink
      | ok found =>
        obtain ⟨type, ino'⟩ := found
        dsimp only at hlink ⊢
        split at hlink
        · next hlnk =>
          cases hlink
          rw [if_pos hlnk]
          obtain ⟨text, hget, habs⟩ := hrel fs
          cases hnod : t.getInode ino fs with
          | mk nod fs' =>
            rw [hnod] at hget
            obtain rfl : nod = some text := hget
            dsimp only
            rw [if_neg habs, if_pos hseen]
            exact ⟨fs', rfl⟩
        · cases hlink

theorem turn_cases (t : Tree σ) (flags : ResolveFlags) (w : Walk σ) (hne : path ≠ []) :
    (turnLink t flags w path = none ∧
      (turn t flags w path = .ended .fault w.fs ∨ turn t flags w path = .ended (.error .ENOENT) w.fs)) ∨
    (∃ after, turnLink t flags w path = none ∧ turn t flags w path = .again { w with path := some after } ∧
      after.length < path.length) ∨
    ∃ isLast w₀ part, turnLink t flags w path = goOnLink t flags isLast w₀ part ∧
      turn t flags w path = goOn t flags isLast w₀ part ∧ w₀.loopHash = w.loopHash ∧ w₀.fs = w.fs ∧
      (w.stack = [] → w₀.stack = [] ∧ (w₀.path.getD []).length < path.length) := by
  have hsplit : (path.takeWhile (· != slash)).length + (path.dropWhile (· != slash)).length = path.length := by
    rw [← List.length_append, List.takeWhile_append_dropWhile]
  rw [turnLink, turn]
  cases hdrop : path.dropWhile (· != slash) with
  | nil =>
    dsimp only
    cases hstack : w.stack with
    | nil =>
      dsimp only
      exact .inr (.inr ⟨true, { w with path := none }, _, rfl, by rw [hstack], rfl, rfl,
        fun _ => ⟨hstack, List.length_pos_iff.mpr hne⟩⟩)
    | cons top rest =>
      dsimp only
      split
      · exact .inl ⟨rfl, .inl rfl⟩
      · exact .inr (.inr ⟨false, { w with path := some top, stack := rest }, _, rfl, rfl, rfl, rfl, by rintro ⟨⟩⟩)
  | cons c after =>
    rw [hdrop, List.length_cons] at hsplit
    have hless : after.length < path.length := by omega
    dsimp only
    split
    · exact .inl ⟨rfl, .inr rfl⟩
    · split
      · exact .inr (.inl ⟨after, rfl, rfl, hless⟩)
      · exact .inr (.inr ⟨false, { w with path := some after }, _, rfl, rfl, rfl, rfl, fun hstack => ⟨hstack, hless⟩⟩)

inductive Turned (t : Tree σ) (w : Walk σ) (path : Name) : Option ℕ → Turn σ → Prop
  | down (w' : Walk σ) (hloop : w'.loopHash = w.loopHash)
      (hleft : w.stack = [] → w'.stack = [] ∧ (w'.path.getD []).length < path.length) : Turned t w path none (.again w')
  | follow (ino : ℕ) (w' : Walk σ) (hnew : ino ∉ w.loopHash) (hloop : w'.loopHash = ino :: w.loopHash)
      (hrel : ∃ fs, Relative t ino fs) : Turned t w path (some ino) (.again w')
  | mount (dest : Option OtherFs) (text : Name) (rem : Option Name) (stack : List Name) (fs : σ)
      (hleft : w.stack = [] → dest ≠ none ∧ rem = none ∧ stack = [] ∧ text.length < path.length) :
      Turned t w path none (.ended (.propagate dest text rem stack) fs)
  | pass (ino : ℕ) (dest : Option OtherFs) (text : Name) (rem : Option Name) (stack : List Name) (fs : σ)
      (hino : ino ≤ t.inodes) : Turned t w path (some ino) (.ended (.propagate dest text rem stack) fs)
  | stop (link : Option ℕ) (r : Resolved) (fs : σ) (hr : ∀ dest text rem stack, r ≠ .propagate dest text rem stack) :
      Turned t w path link (.ended r fs)

theorem turn_turned (t : Tree σ) (flags : ResolveFlags) (w : Walk σ) (hne : path ≠ []) :
    Turned t w path (turnLink t flags w path) (turn t flags w path) := by
  obtain ⟨-, hturn | hturn⟩ | ⟨after, hlink, hturn, hless⟩ | ⟨isLast, w₀, part, hlink, hturn, hloop, -, hleft⟩ :=
    turn_cases t flags w hne
  · rw [hturn]
    exact .stop _ _ _ nofun
  · rw [hturn]
    exact .stop _ _ _ nofun
  · rw [hlink, hturn]
    exact .down _ rfl fun hstack => ⟨hstack, hless⟩
  · rw [hlink, hturn]
    have hlinked := @goOn_linked σ t flags isLast w₀ part
    generalize goOnLink t flags isLast w₀ part = link at hlinked ⊢
    generalize goOn t flags isLast w₀ part = u at hlinked ⊢
    cases u with
    | again w' =>
      cases link with
      | none =>
        obtain ⟨hloop', hpath, hstack'⟩ := hlinked
        refine .down w' (hloop'.trans hloop) fun hstack => ?_
        rw [hpath, hstack']
        exact hleft hstack
      | some ino =>
        obtain ⟨hnew, hloop', hrel⟩ := hlinked
        rw [hloop] at hnew hloop'
        exact .follow ino w' hnew hloop' hrel
    | ended r fs =>
      cases r with
      | propagate dest text rem stack =>
        cases link with
        | none =>
          obtain ⟨hdest, rfl, rfl, rfl⟩ := hlinked
          exact .mount _ _ _ _ _ fun hstack => ⟨hdest, rfl, hleft hstack⟩
        | some ino => exact .pass ino _ _ _ _ _ hlinked
      | _ => exact .stop _ _ _ nofun

-- What a call follows

theorem walk_succ {c : UInt8} {cs : Name} (hpath : w.path = some (c :: cs)) : walk t flags (n + 1) w =
    match turn t flags w (c :: cs) with
    | .again w => walk t flags n w
    | .ended r fs => some (r, fs) := by
  rewrite [walk, hpath]
  rfl

theorem links_succ {c : UInt8} {cs : Name} (hpath : w.path = some (c :: cs)) : links t flags (n + 1) w =
    (turnLink t flags w (c :: cs)).toList ++
      match turn t flags w (c :: cs) with
      | .again w => links t flags n w
      | .ended .. => [] := by
  rw [links, hpath]

theorem walk_cases (h : walk t flags n w = some (r, fs)) :
    ((r = .fault ∨ r = .ok w.finalIno w.type) ∧ links t flags n w = []) ∨
      ∃ m path, n = m + 1 ∧ w.path = some path ∧ path ≠ [] ∧
        links t flags n w = (turnLink t flags w path).toList ++
          (match turn t flags w path with
            | .again w' => links t flags m w'
            | .ended .. => []) ∧
        match turn t flags w path with
        | .again w' => walk t flags m w' = some (r, fs)
        | .ended r' fs' => r' = r ∧ fs' = fs := by
  cases n with
  | zero => cases h
  | succ n =>
    cases hpath : w.path with
    | none =>
      rw [walk, hpath] at h
      cases h
      exact .inl ⟨.inl rfl, by rw [links, hpath]⟩
    | some path =>
      cases path with
      | nil =>
        rw [walk, hpath] at h
        cases h
        exact .inl ⟨.inr rfl, by rw [links, hpath]⟩
      | cons c cs =>
        refine .inr ⟨n, c :: cs, rfl, rfl, List.cons_ne_nil c cs, links_succ hpath, ?_⟩
        rw [walk_succ hpath] at h
        cases hturn : turn t flags w (c :: cs) with
        | again w' =>
          rw [hturn] at h
          exact h
        | ended r' fs' =>
          rw [hturn] at h
          exact Prod.mk.inj (Option.some.inj h)

theorem walk_propagate {dest : Option OtherFs} {rem : Option Name} {stack : List Name}
    (h : walk t flags n w = some (.propagate dest text rem stack, fs)) :
    (∃ ino ∈ links t flags n w, ino ≤ t.inodes) ∨
      (w.stack = [] → dest ≠ none ∧ rem = none ∧ stack = [] ∧ text.length < (w.path.getD []).length) := by
  induction n generalizing w with
  | zero => cases h
  | succ n ih =>
    obtain ⟨hno | hno, -⟩ | ⟨m, path, hm, hpath, hne, hlinks, hwalk⟩ := walk_cases h
    · cases hno
    · cases hno
    · cases hm
      have hturned := turn_turned t flags w hne
      rw [hlinks, hpath, Option.getD_some]
      generalize turnLink t flags w path = link at hturned ⊢
      generalize turn t flags w path = u at hturned hwalk ⊢
      cases hturned with
      | down w' hloop hleft =>
        refine (ih hwalk).imp_right fun hpass hstack => ?_
        obtain ⟨hstack', hless⟩ := hleft hstack
        obtain ⟨hdest, hrem, hnil, htext⟩ := hpass hstack'
        exact ⟨hdest, hrem, hnil, Nat.lt_trans htext hless⟩
      | follow ino w' hnew hloop hrel =>
        obtain ⟨fs', text', hget, -⟩ := hrel
        exact .inl ⟨ino, List.mem_append_left _ (List.mem_singleton_self ino), t.getInode_le ino fs' text' hget⟩
      | mount _ _ _ _ _ hleft =>
        cases hwalk.1
        exact .inr hleft
      | pass ino _ _ _ _ _ hino => exact .inl ⟨ino, List.mem_append_left _ (List.mem_singleton_self ino), hino⟩
      | stop _ _ _ hr => exact absurd hwalk.1 (hr _ _ _ _)

theorem turn_seen (hne : path ≠ []) (hlink : turnLink t flags w path = some ino) (hseen : ino ∈ w.loopHash)
    (hrel : ∀ fs, Relative t ino fs) : ∃ fs, turn t flags w path = .ended (.error .ELOOP) fs := by
  obtain ⟨hno, -⟩ | ⟨-, hno, -⟩ | ⟨isLast, w₀, part, hlink', hturn, hloop, -⟩ := turn_cases t flags w hne
  · cases hno.symm.trans hlink
  · cases hno.symm.trans hlink
  · rw [hturn]
    exact goOn_seen (hlink'.symm.trans hlink) (hloop ▸ hseen) hrel

/-- **A symlink that one call follows twice is `-ELOOP`**, where symlinks keep their texts. -/
theorem walk_eloop (hsteady : ∀ ino fs fs', Relative t ino fs → Relative t ino fs')
    (hrel : ∀ ino ∈ w.loopHash, ∃ fs, Relative t ino fs) (h : walk t flags n w = some (r, fs))
    (htwice : (∃ ino ∈ links t flags n w, ino ∈ w.loopHash) ∨ ¬ (links t flags n w).Nodup) : r = .error .ELOOP := by
  induction n generalizing w with
  | zero => cases h
  | succ n ih =>
    obtain ⟨-, hnil⟩ | ⟨m, path, hm, hpath, hne, hlinks, hwalk⟩ := walk_cases h
    · rw [hnil] at htwice
      simp at htwice
    · cases hm
      -- a turn that ends the call has one symlink at most, and it was followed before
      have hend : ∀ link r' fs', turnLink t flags w path = link → turn t flags w path = .ended r' fs' → r = .error .ELOOP := by
        intro link r' fs' hlink hturn
        rw [hlinks, hlink, hturn] at htwice
        rw [hturn] at hwalk
        cases link with
        | none => simp at htwice
        | some ino =>
          have hmem : ino ∈ w.loopHash := by simpa using htwice
          obtain ⟨fs'', hloop⟩ := turn_seen hne hlink hmem fun fs => (hrel ino hmem).elim fun _ => hsteady ino _ fs
          cases hturn.symm.trans hloop
          exact hwalk.1.symm
      have hturned := turn_turned t flags w hne
      generalize hlink : turnLink t flags w path = link at hturned hlinks
      generalize hturn : turn t flags w path = u at hturned hlinks hwalk
      rw [hlinks] at htwice
      cases hturned with
      | down w' hloop =>
        rw [← hloop] at hrel htwice
        exact ih hrel hwalk htwice
      | follow ino w' hnew hloop hino =>
        refine ih (fun ino' hmem => ?_) hwalk ?_
        · rw [hloop] at hmem
          obtain rfl | hmem := List.mem_cons.mp hmem
          · exact hino
          · exact hrel ino' hmem
        · rw [hloop]
          obtain ⟨x, hx, hmem⟩ | hdup := htwice
          · obtain rfl | hx := List.mem_cons.mp hx
            · exact absurd hmem hnew
            · exact .inl ⟨x, hx, List.mem_cons_of_mem _ hmem⟩
          · by_cases hin : ino ∈ links t flags n w'
            · exact .inl ⟨ino, hin, List.mem_cons_self⟩
            · exact .inr fun hnodup => hdup (List.nodup_cons.mpr ⟨hin, hnodup⟩)
      | mount => exact hend _ _ _ hlink hturn
      | pass => exact hend _ _ _ hlink hturn
      | stop => exact hend _ _ _ hlink hturn

theorem walk_mono (h : walk t flags n w = some (r, fs)) (hle : n ≤ m) :
    walk t flags m w = some (r, fs) ∧ links t flags m w = links t flags n w := by
  induction n generalizing w m with
  | zero => cases h
  | succ n ih =>
    obtain ⟨m, rfl⟩ := Nat.exists_eq_succ_of_ne_zero (Nat.ne_of_gt (Nat.lt_of_lt_of_le (Nat.succ_pos n) hle))
    cases hpath : w.path with
    | none =>
      rw [walk, hpath] at h ⊢
      rw [links, links, hpath]
      exact ⟨h, rfl⟩
    | some path =>
      cases path with
      | nil =>
        rw [walk, hpath] at h ⊢
        rw [links, links, hpath]
        exact ⟨h, rfl⟩
      | cons c cs =>
        rw [walk_succ hpath] at h ⊢
        rw [links_succ hpath, links_succ hpath]
        cases hturn : turn t flags w (c :: cs) with
        | again w' =>
          rw [hturn] at h
          obtain ⟨hwalk, hlinks⟩ := ih h (Nat.le_of_succ_le_succ hle)
          exact ⟨hwalk, congrArg _ hlinks⟩
        | ended r' fs' =>
          rw [hturn] at h
          exact ⟨h, rfl⟩

theorem links_sublist (h : n ≤ m) : (links t flags n w).Sublist (links t flags m w) := by
  induction n generalizing w m with
  | zero => exact List.nil_sublist _
  | succ n ih =>
    obtain ⟨m, rfl⟩ := Nat.exists_eq_succ_of_ne_zero (Nat.ne_of_gt (Nat.lt_of_lt_of_le (Nat.succ_pos n) h))
    cases hpath : w.path with
    | none =>
      rw [links, hpath]
      exact List.nil_sublist _
    | some path =>
      cases path with
      | nil =>
        rw [links, hpath]
        exact List.nil_sublist _
      | cons c cs =>
        rw [links_succ hpath, links_succ hpath]
        cases turn t flags w (c :: cs) with
        | again w' => exact List.Sublist.append_left (ih (Nat.le_of_succ_le_succ h)) _
        | ended r fs => exact .refl _

end Sneks.Squashfs
