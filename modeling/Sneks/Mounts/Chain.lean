import Sneks.Lib.Once
import Sneks.Mounts.Servers
import Sneks.Squashfs.Links
import Mathlib.Data.Set.Finite.Lattice

/-!
# Resolution that goes from server to server

At a mount point and at an absolute symlink `squashfs_resolve` passes the call on. Each server looks for
loops in its own call only: `symlink_loop_hash` is emptied when a message comes in, and an absolute symlink
is never entered there.
-/

namespace Sneks.Mounts
open Io Squashfs Stdlib Relation

-- The text that is sent

/-- What is sent is what `propagate_resolve` sends, wherever the texts are in memory. -/
def AsPropagated (sent : Name → Option Name → List Name → Option Name) : Prop :=
  ∀ link rem stack text, sent link rem stack = some text →
    ∃ (l : CText) (r : Option CText) (st : List CText) (items : List (List UInt8)), l.text = link ∧
      r.map (·.text) = rem ∧ st.map (·.text) = stack ∧ propagateResolve l r st = some (.ok items) ∧ items.flatten = text

def stringAt (addr : Name → ℕ) (s : Name) : Option CText := if h : 0 ∉ s then some ⟨addr s, s, h⟩ else none

def sentFrom (addr : Name → ℕ) (link : Name) (rem : Option Name) (stack : List Name) : Option Name := do
  let l ← stringAt addr link
  let r ← rem.mapM (stringAt addr)
  let st ← stack.mapM (stringAt addr)
  match ← propagateResolve l r st with
  | .ok items => some items.flatten
  | .error _ => none

theorem stringAt_text {addr : Name → ℕ} {s : Name} {l : CText} (h : stringAt addr s = some l) : l.text = s := by
  rw [stringAt] at h
  split at h
  · cases h
    rfl
  · cases h

theorem stringsAt_text {addr : Name → ℕ} {stack : List Name} {st : List CText} (h : stack.mapM (stringAt addr) = some st) :
    st.map (·.text) = stack := by
  induction stack generalizing st with
  | nil =>
    cases h
    rfl
  | cons s stack ih =>
    simp only [List.mapM_cons, Option.bind_eq_bind, Option.bind_eq_some_iff] at h
    obtain ⟨l, hl, ls, hls, h⟩ := h
    cases h
    rw [List.map_cons, stringAt_text hl, ih hls]

theorem asPropagated_sentFrom (addr : Name → ℕ) : AsPropagated (sentFrom addr) := by
  intro link rem stack text h
  simp only [sentFrom, Option.bind_eq_bind, Option.bind_eq_some_iff] at h
  obtain ⟨l, hl, r, hr, st, hst, sent, hsent, h⟩ := h
  refine ⟨l, r, st, ?_⟩
  cases sent with
  | error e => cases h
  | ok items =>
    refine ⟨items, stringAt_text hl, ?_, ?_, hsent, Option.some.inj h⟩
    · cases rem with
      | none =>
        cases hr
        rfl
      | some s =>
        obtain ⟨c, hc, rfl⟩ := Option.map_eq_some_iff.mp hr
        exact congrArg some (stringAt_text hc)
    · exact stringsAt_text hst

theorem AsPropagated.alone {sent : Name → Option Name → List Name → Option Name} (h : AsPropagated sent) {link text : Name}
    (hsent : sent link none [] = some text) : text.length ≤ link.length := by
  obtain ⟨l, r, st, items, rfl, hr, hst, hitems, rfl⟩ := h _ _ _ _ hsent
  obtain rfl := Option.map_eq_none_iff.mp hr
  obtain rfl := List.map_eq_nil_iff.mp hst
  have hone : propagateResolve l none [] = some (.ok [(skipSlashes l).text]) := rfl
  cases hone.symm.trans hitems
  rw [List.flatten_singleton]
  exact (List.dropWhile_sublist _).length_le

-- Calls

/-- A call of `squashfs_resolve` by a process, at the server of a filesystem. -/
structure Asked where
  fs : ℕ
  pid : ℕ
  dirfd : ℕ
  path : Name
  deriving DecidableEq

namespace System

variable (sys : System) (turns : ℕ) (flags : ResolveFlags) (c : Asked)

def loopOf : Option (Server × ℕ) :=
  (sys.server c.fs).bind fun s =>
    match s.start c.pid c.dirfd with
    | .ok dirIno => if c.path.head? = some slash then none else some (s, dirIno)
    | .error _ => none

def followed : List (ℕ × ℕ) :=
  match sys.loopOf c with
  | some (s, dirIno) => (links s.view flags turns (.start dirIno c.path ())).map (c.fs, ·)
  | none => []

def passTo (dest : Option OtherFs) (link : Name) (rem : Option Name) (stack : List Name) : Option Asked :=
  let dest := dest.getD ⟨sys.rootfs, 0⟩
  (sys.sent link rem stack).bind fun text =>
    if (sys.server dest.tid).isNone then none else some ⟨dest.tid, pidof (tidOf c.fs), dest.dir, text⟩

def pass : Option Asked :=
  (sys.loopOf c).bind fun l =>
    match walk l.1.view flags turns (.start l.2 c.path ()) with
    | some (.propagate dest link rem stack, _) => sys.passTo c dest link rem stack
    | _ => none

def resolveCall (n : ℕ) : Option (Except PathError Target) := sys.resolve turns flags n c.fs c.pid c.dirfd c.path

def Passes (c c' : Asked) : Prop := ∃ turns, sys.pass turns flags c = some c'

def Follows : Set (ℕ × ℕ) := { l | ∃ turns, l ∈ sys.followed turns flags c }

/-- **The condition**: no call of the resolution follows a symlink that an earlier call of it followed. -/
def Fresh : Prop := Lib.UsedOnce (sys.Passes flags) (sys.Follows flags) c

def Repeats : Prop := ∃ turns, ¬ (sys.followed turns flags c).Nodup

end System

-- One call

variable {sys : System} {turns turns' n m : ℕ} {flags : ResolveFlags} {c c' : Asked} {r : Except PathError Target}

theorem resolveCall_succ (sys : System) (turns : ℕ) (flags : ResolveFlags) (c : Asked) :
    (∃ r, ∀ m, turns ≤ m → sys.pass m flags c = none ∧ ∀ n, sys.resolveCall m flags c (n + 1) = some r) ∨
    (∃ c', ∀ m, turns ≤ m →
      sys.pass m flags c = some c' ∧ ∀ n, sys.resolveCall m flags c (n + 1) = sys.resolveCall m flags c' n) ∨
    ∃ s dirIno, sys.loopOf c = some (s, dirIno) ∧ walk s.view flags turns (.start dirIno c.path ()) = none ∧
      ∀ n, sys.resolveCall turns flags c (n + 1) = none := by
  simp only [System.resolveCall, System.resolve, System.pass, System.loopOf]
  cases sys.server c.fs with
  | none => exact .inl ⟨_, fun _ _ => ⟨rfl, fun _ => rfl⟩⟩
  | some s =>
    simp only [Option.bind_some]
    cases s.start c.pid c.dirfd with
    | error e => exact .inl ⟨_, fun _ _ => ⟨rfl, fun _ => rfl⟩⟩
    | ok dirIno =>
      dsimp only
      by_cases habs : c.path.head? = some slash
      · simp only [Squashfs.resolve, if_pos habs]
        exact .inl ⟨_, fun _ _ => ⟨rfl, fun _ => rfl⟩⟩
      simp only [Squashfs.resolve, if_neg habs, Option.bind_some]
      cases hwalk : walk s.view flags turns (.start dirIno c.path ()) with
      | none => exact .inr (.inr ⟨s, dirIno, rfl, hwalk, fun _ => rfl⟩)
      | some w =>
        obtain ⟨r, fs⟩ := w
        have hstay : ∀ m, turns ≤ m → walk s.view flags m (.start dirIno c.path ()) = some (r, fs) := fun m hle =>
          (walk_mono hwalk hle).1
        cases r with
        | propagate dest link rem stack =>
          simp only [System.passTo]
          cases hsent : sys.sent link rem stack with
          | none =>
            refine .inl ⟨.error .ENAMETOOLONG, fun m hle => ?_⟩
            simp only [hstay m hle, hsent]
            exact ⟨rfl, fun _ => trivial⟩
          | some text =>
            by_cases hgone : (sys.server (dest.getD ⟨sys.rootfs, 0⟩).tid).isNone = true
            · refine .inl ⟨.error .ESRCH, fun m hle => ?_⟩
              simp only [hstay m hle, hsent, if_pos hgone]
              exact ⟨rfl, fun _ => trivial⟩
            · refine .inr (.inl ⟨⟨(dest.getD ⟨sys.rootfs, 0⟩).tid, pidof (tidOf c.fs), (dest.getD ⟨sys.rootfs, 0⟩).dir, text⟩,
                fun m hle => ?_⟩)
              simp only [hstay m hle, hsent, if_neg hgone]
              exact ⟨rfl, fun _ => trivial⟩
        | ok ino type =>
          refine .inl ⟨.ok ⟨c.fs, ino, type⟩, fun m hle => ?_⟩
          simp only [hstay m hle]
          exact ⟨trivial, fun _ => trivial⟩
        | error e =>
          refine .inl ⟨.error (.own e), fun m hle => ?_⟩
          simp only [hstay m hle]
          exact ⟨trivial, fun _ => trivial⟩
        | fault =>
          refine .inl ⟨.error .ipc, fun m hle => ?_⟩
          simp only [hstay m hle]
          exact ⟨trivial, fun _ => trivial⟩

theorem enough_turns (sys : System) (flags : ResolveFlags) (c : Asked) :
    ∃ turns, ∀ s dirIno, sys.loopOf c = some (s, dirIno) → walk s.view flags turns (.start dirIno c.path ()) ≠ none := by
  cases hloop : sys.loopOf c with
  | none => exact ⟨0, nofun⟩
  | some l =>
    obtain ⟨n, r, fs, hwalk, -⟩ := walk_ends flags (sound_start l.1.view l.2 c.path ())
    refine ⟨n, fun s dirIno heq => ?_⟩
    cases heq
    rw [hwalk]
    exact nofun

theorem resolveCall_mono (h : sys.resolveCall turns flags c n = some r) (hturns : turns ≤ turns') (hn : n ≤ m) :
    sys.resolveCall turns' flags c m = some r := by
  induction n generalizing c m with
  | zero => cases h
  | succ n ih =>
    obtain ⟨m, rfl⟩ := Nat.exists_eq_succ_of_ne_zero (Nat.ne_of_gt (Nat.lt_of_lt_of_le (Nat.succ_pos n) hn))
    obtain ⟨r', hans⟩ | ⟨c', hpass⟩ | ⟨_, _, -, -, hnone⟩ := resolveCall_succ sys turns flags c
    · rw [(hans turns le_rfl).2] at h
      rw [(hans turns' hturns).2]
      exact h
    · rw [(hpass turns le_rfl).2] at h
      rw [(hpass turns' hturns).2]
      exact ih h (Nat.le_of_succ_le_succ hn)
    · rw [hnone] at h
      cases h

theorem resolveCall_passes (h : sys.Passes flags c c') (hr : sys.resolveCall turns flags c n = some r) :
    ∃ m, n = m + 1 ∧ sys.resolveCall turns flags c' m = some r := by
  obtain ⟨turns', hpass⟩ := h
  cases n with
  | zero => cases hr
  | succ m =>
    have hmax : sys.pass (max turns turns') flags c = some c' := by
      obtain ⟨l, hl, hwalk⟩ := Option.bind_eq_some_iff.mp hpass
      rw [System.pass, hl, Option.bind_some]
      split at hwalk
      · next dest link rem stack fs heq =>
        rw [(walk_mono heq (Nat.le_max_right turns turns')).1]
        exact hwalk
      · cases hwalk
    obtain ⟨r', hans⟩ | ⟨d, hd⟩ | ⟨_, _, -, -, hnone⟩ := resolveCall_succ sys turns flags c
    · cases ((hans _ (Nat.le_max_left turns turns')).1).symm.trans hmax
    · obtain rfl := Option.some.inj ((hd _ (Nat.le_max_left turns turns')).1.symm.trans hmax)
      exact ⟨m, rfl, ((hd turns le_rfl).2 m).symm.trans hr⟩
    · rw [hnone] at hr
      cases hr

theorem resolveCall_reaches (h : ReflTransGen (sys.Passes flags) c c') (hr : sys.resolveCall turns flags c n = some r) :
    ∃ m, sys.resolveCall turns flags c' m = some r := by
  induction h with
  | refl => exact ⟨n, hr⟩
  | tail _ hpass ih =>
    obtain ⟨m, hm⟩ := ih
    obtain ⟨k, -, hk⟩ := resolveCall_passes hpass hm
    exact ⟨k, hk⟩

theorem resolveCall_endless (h : sys.Passes flags c c) (turns n : ℕ) : sys.resolveCall turns flags c n = none := by
  induction n with
  | zero => rfl
  | succ n ih =>
    cases hr : sys.resolveCall turns flags c (n + 1) with
    | none => rfl
    | some r =>
      obtain ⟨m, hm, hanswer⟩ := resolveCall_passes h hr
      cases hm
      cases ih.symm.trans hanswer

theorem resolveCall_repeats (h : sys.Repeats flags c) (hr : sys.resolveCall turns flags c n = some r) :
    r = .error (.own .ELOOP) := by
  obtain ⟨turns', hdup⟩ := h
  cases hloop : sys.loopOf c with
  | none =>
    rw [System.followed, hloop] at hdup
    exact absurd List.nodup_nil hdup
  | some l =>
    obtain ⟨s, dirIno⟩ := l
    rw [System.followed, hloop] at hdup
    obtain ⟨s', hs, hstart⟩ := Option.bind_eq_some_iff.mp hloop
    cases n with
    | zero => cases hr
    | succ n =>
      rw [System.resolveCall, System.resolve, hs] at hr
      dsimp only at hr hstart
      split at hstart
      · next dirIno' hdir =>
        split at hstart
        · cases hstart
        · next habs =>
          cases hstart
          rw [hdir] at hr
          dsimp only at hr
          rw [Squashfs.resolve, if_neg habs] at hr
          cases hwalk : walk s.view flags turns (.start dirIno c.path ()) with
          | none =>
            rw [hwalk] at hr
            cases hr
          | some w =>
            obtain ⟨r', fs⟩ := w
            have hlinks : ¬ (links s.view flags turns (.start dirIno c.path ())).Nodup := by
              rw [← (walk_mono hwalk (Nat.le_max_left turns turns')).2]
              intro hnodup
              exact hdup (((links_sublist (Nat.le_max_right turns turns')).nodup hnodup).map fun _ _ he => (Prod.mk.inj he).2)
            have hsteady : ∀ ino (fs fs' : Unit), Relative s.view ino fs → Relative s.view ino fs' := fun _ _ _ h => h
            have heloop := walk_eloop hsteady (fun _ hmem => absurd hmem List.not_mem_nil) hwalk (.inr hlinks)
            rw [hwalk, heloop] at hr
            cases hr
            rfl
      · cases hstart

-- The whole resolution

def System.allLinks (sys : System) : Set (ℕ × ℕ) := { l | ∃ s, sys.server l.1 = some s ∧ l.2 ≤ s.view.inodes }

theorem allLinks_finite (hwords : ∀ fs, sys.servers fs ≠ none → fs < 2 ^ 32) : sys.allLinks.Finite := by
  have hbound : ∀ fs, { l : ℕ × ℕ | l.1 = fs ∧ l.2 ≤ ((sys.server fs).map (·.view.inodes)).getD 0 }.Finite := fun fs =>
    Set.Finite.subset (Set.Finite.image (fun ino => (fs, ino)) (Set.finite_le_nat _)) fun _ hl => ⟨_, hl.2, by rw [← hl.1]⟩
  refine Set.Finite.subset (Set.Finite.biUnion (Set.finite_lt_nat (2 ^ 32)) fun fs _ => hbound fs) ?_
  rintro ⟨fs, ino⟩ ⟨s, hs, hino⟩
  have hne : sys.servers fs ≠ none := fun hnone => by
    rw [System.server, hnone] at hs
    cases hs
  refine Set.mem_biUnion (hwords fs hne) ⟨rfl, ?_⟩
  rw [hs]
  exact hino

/-- **Step lemma**: what is passed on comes from symlinks, or is less text. -/
theorem passes_step (hsent : AsPropagated sys.sent) (h : sys.Passes flags c c') :
    (∃ l ∈ sys.allLinks, l ∈ sys.Follows flags c) ∨ c'.path.length < c.path.length := by
  obtain ⟨turns, h⟩ := h
  obtain ⟨⟨s, dirIno⟩, hloop, hwalk⟩ := Option.bind_eq_some_iff.mp h
  obtain ⟨s', hs, hstart⟩ := Option.bind_eq_some_iff.mp hloop
  have hsame : s' = s := by
    split at hstart
    · split at hstart
      · cases hstart
      · cases hstart
        rfl
    · cases hstart
  subst hsame
  split at hwalk
  · next dest link rem stack fs heq =>
    refine (walk_propagate heq).imp (fun hlink => ?_) fun hleft => ?_
    · obtain ⟨ino, hmem, hino⟩ := hlink
      refine ⟨(c.fs, ino), ⟨s', hs, hino⟩, turns, ?_⟩
      rw [System.followed, hloop]
      exact List.mem_map_of_mem hmem
    · obtain ⟨-, rfl, rfl, hless⟩ := hleft rfl
      obtain ⟨text, htext, hto⟩ := Option.bind_eq_some_iff.mp hwalk
      split at hto
      · cases hto
      · cases hto
        exact Nat.lt_of_le_of_lt (hsent.alone htext) hless
  · cases hwalk

theorem resolveCall_ends (h : Acc (flip (sys.Passes flags)) c) : ∃ turns n r, sys.resolveCall turns flags c n = some r := by
  induction h with
  | intro c _ ih =>
    obtain ⟨turns, henough⟩ := enough_turns sys flags c
    obtain ⟨r, hans⟩ | ⟨c', hpass⟩ | ⟨s, dirIno, hloop, hnone, -⟩ := resolveCall_succ sys turns flags c
    · exact ⟨turns, 1, r, (hans turns le_rfl).2 0⟩
    · obtain ⟨turns', n, r, hr⟩ := ih c' ⟨turns, (hpass turns le_rfl).1⟩
      refine ⟨max turns turns', n + 1, r, ?_⟩
      rw [(hpass _ (Nat.le_max_left turns turns')).2]
      exact resolveCall_mono hr (Nat.le_max_right turns turns') le_rfl
    · exact absurd hnone (henough s dirIno hloop)

/-- **Resolution ends where no two calls follow the same symlink**, and a symlink that one call follows
twice is `-ELOOP`. -/
theorem resolution_ends (sys : System) (flags : ResolveFlags) (c : Asked) (hsent : AsPropagated sys.sent)
    (hwords : ∀ fs, sys.servers fs ≠ none → fs < 2 ^ 32) (hfresh : sys.Fresh flags c) :
    ∃ turns n r, sys.resolveCall turns flags c n = some r ∧
      ∀ c', ReflTransGen (sys.Passes flags) c c' → sys.Repeats flags c' → r = .error (.own .ELOOP) := by
  have hacc : Acc (flip (sys.Passes flags)) c :=
    Lib.UsedOnce.acc hfresh (allLinks_finite hwords) fun _ _ => passes_step hsent
  obtain ⟨turns, n, r, hr⟩ := resolveCall_ends hacc
  refine ⟨turns, n, r, hr, fun c' hreach hrep => ?_⟩
  obtain ⟨m, hm⟩ := resolveCall_reaches hreach hr
  exact resolveCall_repeats hrep hm

/-- A filesystem with the symlinks `a` to `/a` and `c` to `/d` and the directory `d` at its root. -/
def linkTree : Squashfs.Tree Unit where
  inodes := 4
  lookup _ name s :=
    (if name = [97] then .ok (.lnk, 2) else if name = [99] then .ok (.lnk, 3)
      else if name = [100] then .ok (.dir, 4) else .error .ENOENT, s)
  getInode ino s := (if ino = 2 then some [47, 97] else if ino = 3 then some [47, 100] else none, s)
  otherfs _ _ := none
  devices := none
  getInode_le ino s text h := by
    by_contra hlt
    have hne : ino ≠ 2 ∧ ino ≠ 3 := by omega
    simp [hne] at h

def linked : System where
  servers fs := if fs = 16386 then some ⟨Handles.State.init, [], 1, fun _ => 1, linkTree⟩ else none
  rootfs := 16386
  mounts := [⟨16386, 0, 0, []⟩]
  sent := sentFrom fun _ => 0

/-- Through `c` two calls are made, of which one follows a symlink. -/
theorem resolution_ends_linked : ∃ turns n r, linked.resolveCall turns ⟨false, false⟩ ⟨16386, 9, 0, [99]⟩ n = some r ∧
    ∀ c', ReflTransGen (linked.Passes ⟨false, false⟩) ⟨16386, 9, 0, [99]⟩ c' → linked.Repeats ⟨false, false⟩ c' →
      r = .error (.own .ELOOP) := by
  refine resolution_ends linked ⟨false, false⟩ ⟨16386, 9, 0, [99]⟩ (asPropagated_sentFrom _) (fun fs hfs => ?_) ?_
  · by_contra hlt
    refine hfs (if_neg fun he => hlt ?_)
    rw [he]
    decide
  · have hfirst : ∀ x, linked.Passes ⟨false, false⟩ ⟨16386, 9, 0, [99]⟩ x → x = ⟨16386, 50000, 0, [100]⟩ := by
      rintro x ⟨turns, h⟩
      cases turns with
      | zero => cases h
      | succ turns => exact (Option.some.inj h).symm
    have hlast : ∀ x, ¬ linked.Passes ⟨false, false⟩ ⟨16386, 50000, 0, [100]⟩ x := by
      rintro x ⟨turns, h⟩
      cases turns with
      | zero => cases h
      | succ turns => cases h
    have hnone : linked.Follows ⟨false, false⟩ ⟨16386, 50000, 0, [100]⟩ = ∅ := by
      refine Set.eq_empty_iff_forall_notMem.mpr ?_
      rintro l ⟨turns, h⟩
      cases turns with
      | zero => cases h
      | succ turns => cases h
    have hreach : ∀ x, ReflTransGen (linked.Passes ⟨false, false⟩) ⟨16386, 9, 0, [99]⟩ x →
        x = ⟨16386, 9, 0, [99]⟩ ∨ x = ⟨16386, 50000, 0, [100]⟩ := by
      intro x h
      induction h with
      | refl => exact .inl rfl
      | tail _ hpass ih =>
        obtain rfl | rfl := ih
        · exact .inr (hfirst _ hpass)
        · exact absurd hpass (hlast _)
    intro b d hb hd
    obtain ⟨e, he, hpass⟩ := TransGen.tail'_iff.mp (TransGen.trans_right hb hd)
    obtain rfl | rfl := hreach e he
    · rw [hfirst d hpass, hnone]
      exact Set.disjoint_empty _
    · exact absurd hpass (hlast d)

/-- The symlink `a` leads to itself by way of the root, and its resolution has no end. -/
theorem absolute_loop : AsPropagated linked.sent ∧ (∀ fs, linked.servers fs ≠ none → fs < 2 ^ 32) ∧
    ∀ turns n, linked.resolveCall turns ⟨false, false⟩ ⟨16386, 9, 0, [97]⟩ n = none := by
  have hfirst : linked.Passes ⟨false, false⟩ ⟨16386, 9, 0, [97]⟩ ⟨16386, 50000, 0, [97]⟩ := ⟨2, by decide +kernel⟩
  have hagain : linked.Passes ⟨false, false⟩ ⟨16386, 50000, 0, [97]⟩ ⟨16386, 50000, 0, [97]⟩ := ⟨2, by decide +kernel⟩
  refine ⟨asPropagated_sentFrom _, fun fs hfs => ?_, fun turns n => ?_⟩
  · by_contra hlt
    refine hfs (if_neg fun he => hlt ?_)
    rw [he]
    decide
  · cases hr : linked.resolveCall turns ⟨false, false⟩ ⟨16386, 9, 0, [97]⟩ n with
    | none => rfl
    | some r =>
      obtain ⟨m, -, hm⟩ := resolveCall_passes hfirst hr
      cases (resolveCall_endless hagain turns m).symm.trans hm

end Sneks.Mounts
