import Sneks.Lib.Htable
import Sneks.Sysmsg.Handlers

/-!
# The subscription index

`setmask` of `sys/msg/sysmsg.c` with the records that it keeps: the objects of the clients and of their
subscriptions, the two hash tables that have pointers to them, and each client's list. `rmsub` deletes
from the table that it walks.

The tables are CCAN's. `malloc` and `htable_add` answer with what is given: an object that is not in use,
and whether the pointer to it was added to the table. The server aborts where there is no answer.
-/

namespace Sneks.Sysmsg.Subs
open Lib

abbrev Ptr := ℕ

/-- `struct msgclient`, without its filter. `subs` has the records in the order of the list. -/
structure Msgclient where
  recvTid : Tid
  subsMask : Word
  filterMask : Word
  subs : List Ptr

structure Sub where
  client : Ptr
  bit : ℕ
  deriving DecidableEq

structure State where
  client : Ptr → Option Msgclient
  sub : Ptr → Option Sub
  clientHt : Places Word Ptr
  subsHt : Places Word Ptr

def State.init : State := ⟨fun _ => none, fun _ => none, [], []⟩

inductive Stop
  | abort
  /-- An access to an object that there is not, or `list_del_from` of what is not on the list. -/
  | fault
  /-- A loop does not end in the rounds that it is given. -/
  | unfinished
  deriving DecidableEq

/-- What `malloc` gives, and what `htable_add` of it. -/
abbrev Answer := Ptr × Bool

def State.Free (s : State) (p : Ptr) : Prop := s.client p = none ∧ s.sub p = none

instance (s : State) (p : Ptr) : Decidable (s.Free p) :=
  decidable_of_iff ((s.client p).isNone ∧ (s.sub p).isNone) (by rw [State.Free, Option.isNone_iff_eq_none, Option.isNone_iff_eq_none])

/-- `malloc`: the next of the answers that is not in use, and those after it. -/
def malloc (s : State) : List Answer → Except Stop (Answer × List Answer)
  | [] => .error .abort
  | a :: mem => if s.Free a.1 then .ok (a, mem) else malloc s mem

def State.getClient (s : State) (p : Ptr) : Except Stop Msgclient := match s.client p with
  | some c => .ok c
  | none => .error .fault

def State.getSub (s : State) (p : Ptr) : Except Stop Sub := match s.sub p with
  | some x => .ok x
  | none => .error .fault

def State.putClient (s : State) (p : Ptr) (c : Msgclient) : State := { s with client := Function.update s.client p (some c) }

def hashOf (n : ℕ) : Word := intHash (BitVec.ofNat 32 n)

def forEachBit {σ : Type} (body : ℕ → σ → Except Stop σ) : ℕ → Word → σ → Except Stop σ
  | 0, _, _ => .error .unfinished
  | n + 1, acc, s =>
    if acc ≠ 0#32 then
      let b := Handlers.ffsl acc - 1
      (body b s).bind (forEachBit body n (acc &&& ~~~(1#32 <<< b)))
    else .ok s

section

variable (ht : Htable Word Ptr)

/-- The comparisons of `htable_get` in `get_client`. -/
def getIn (s : State) (pid : ℕ) : List Ptr → Except Stop (Option Ptr)
  | [] => .ok none
  | p :: ps => do
    let c ← s.getClient p
    if pidof c.recvTid = pid then .ok (some p) else getIn s pid ps

def getClient (s : State) (tid : Tid) : Except Stop (Option Ptr) :=
  getIn s (pidof tid) (ht.candidates (hashOf (pidof tid)) s.clientHt)

/-- What `rmsub` does with an entry of the table. -/
def rmsubEntry (c : Ptr) (bit : ℕ) (p : Ptr) (s : State) : Except Stop State := do
  let x ← s.getSub p
  if x.bit ≠ bit ∨ x.client ≠ c then return s
  let cl ← s.getClient c
  if p ∉ cl.subs then throw .fault
  let s := s.putClient c { cl with subs := cl.subs.erase p }
  return { s with subsHt := ht.del (hashOf bit) p s.subsHt, sub := Function.update s.sub p none }

def rmsub (c : Ptr) (bit : ℕ) (s : State) : Except Stop State :=
  ht.walk State.subsHt .unfinished (hashOf bit) (rmsubEntry ht c bit) (s.subsHt.length + 1) 0 s

def addsub (c : Ptr) (bit : ℕ) (t : State × List Answer) : Except Stop (State × List Answer) := do
  let ((p, added), mem) ← malloc t.1 t.2
  let s := { t.1 with sub := Function.update t.1.sub p (some ⟨c, bit⟩) }
  if ¬ added then throw .abort
  let s := { s with subsHt := ht.put s.subsHt (hashOf bit, p) }
  let cl ← s.getClient c
  return (s.putClient c { cl with subs := cl.subs ++ [p] }, mem)

def setmaskOf (s : State) (c : Ptr) (or and : Word) (mem : List Answer) : Except Stop (State × Word) := do
  let cl ← s.getClient c
  let oldMask := cl.subsMask
  let new := (oldMask &&& and) ||| or
  let removed := oldMask &&& ~~~new
  let added := ~~~oldMask &&& new
  let s := s.putClient c { cl with subsMask := new, filterMask := cl.filterMask &&& ~~~removed }
  let s ← forEachBit (rmsub ht c) 33 removed s
  let (s, _) ← forEachBit (addsub ht c) 33 added (s, mem)
  return (s, oldMask)

def setmask (s : State) (recvTid : Tid) (or and : Word) (mem : List Answer) : Except Stop (State × Word) := do
  match ← getClient ht s recvTid with
  | some c => setmaskOf ht s c or and mem
  | none =>
    if and = 0 ∧ or = 0 then return (s, 0)
    let ((c, added), mem) ← malloc s mem
    let s := s.putClient c ⟨recvTid, 0, 0, []⟩
    if ¬ added then throw .abort
    setmaskOf ht { s with clientHt := ht.put s.clientHt (hashOf (pidof recvTid), c) } c or and mem

structure Call where
  sender : Tid
  or : Word
  and : Word
  mem : List Answer

def exec (s : State) (call : Call) : Option State :=
  ((setmask ht s call.sender call.or call.and call.mem).map (·.1)).toOption

end

def State.records (s : State) (l : List Ptr) (c : Ptr) (bit : ℕ) : List Ptr := l.filter fun p => s.sub p = some ⟨c, bit⟩

def Indexed (s : State) (c : Ptr) (cl : Msgclient) (bit : ℕ) : Prop :=
  if cl.subsMask.getLsbD bit = true then
    ∃ p, s.records (Places.items s.subsHt) c bit = [p] ∧ s.records cl.subs c bit = [p] ∧
      ∀ q, s.sub q = some ⟨c, bit⟩ ↔ q = p
  else
    s.records (Places.items s.subsHt) c bit = [] ∧ s.records cl.subs c bit = [] ∧ ∀ q, s.sub q ≠ some ⟨c, bit⟩

variable {ht : Htable Word Ptr} {s s' : State} {c p q : Ptr} {cl : Msgclient} {bit n : ℕ} {mask : Word}
  {mem : List Answer}

-- What returns, unless the server aborts

theorem ok_bind {α β : Type} (x : α) (f : α → Except Stop β) : (Except.ok x >>= f) = f x := rfl

def Returns {α : Type} (P : α → Prop) : Except Stop α → Prop
  | .ok x => P x
  | .error e => e = .abort

namespace Returns

variable {α β : Type} {P Q : α → Prop} {R : β → Prop} {r : Except Stop α} {f : α → Except Stop β}

theorem mono (h : Returns P r) (hPQ : ∀ x, P x → Q x) : Returns Q r := by
  cases r with
  | ok x => exact hPQ x h
  | error e => exact h

theorem bind (h : Returns P r) (hf : ∀ x, P x → Returns R (f x)) : Returns R (r.bind f) := by
  cases r with
  | ok x => exact hf x h
  | error e => exact h

end Returns

theorem length_bits_le (mask : Word) : (bits mask).length ≤ 32 := by
  have hle := List.length_filter_le (mask.getLsbD ·) (List.range 32)
  rwa [List.length_range] at hle

theorem forEachBit_eq {σ : Type} {body : ℕ → σ → Except Stop σ} {x : σ} (hn : (bits mask).length < n) :
    forEachBit body n mask x = (bits mask).foldlM (fun x b => body b x) x := by
  induction n generalizing mask x with
  | zero => exact absurd hn (Nat.not_lt_zero _)
  | succ n ih =>
    rw [forEachBit]
    by_cases hmask : mask = 0#32
    · subst hmask
      rfl
    · have hbits := Handlers.bits_of_ne_zero hmask
      rw [hbits, List.length_cons, Nat.succ_lt_succ_iff] at hn
      rw [if_pos hmask, hbits, List.foldlM_cons]
      refine congrArg (Except.bind _) ?_
      funext y
      exact ih hn

-- The invariant

/-- There is one record for each client and bit of `K`, and each is on its client's list. -/
structure Index (s : State) (K : Ptr → ℕ → Prop) : Prop where
  nodup : (Places.items s.subsHt).Nodup
  live : ∀ h p, (h, p) ∈ s.subsHt.reduceOption → ∃ x, s.sub p = some x ∧ h = hashOf x.bit ∧ (s.client x.client).isSome
  kept : ∀ p x, s.sub p = some x → p ∈ Places.items s.subsHt
  keeps : ∀ c bit, K c bit ↔ ∃ p ∈ Places.items s.subsHt, s.sub p = some ⟨c, bit⟩
  unique : ∀ p ∈ Places.items s.subsHt, ∀ q ∈ Places.items s.subsHt, s.sub p = s.sub q → p = q
  list : ∀ c cl, s.client c = some cl →
    cl.subs.Nodup ∧ ∀ p, p ∈ cl.subs ↔ p ∈ Places.items s.subsHt ∧ ∃ bit, s.sub p = some ⟨c, bit⟩

def Msgclient.info (cl : Msgclient) : Tid × Word × Word := (cl.recvTid, cl.subsMask, cl.filterMask)

structure Frame (s s' : State) : Prop where
  clientHt : s'.clientHt = s.clientHt
  info : ∀ c, (s'.client c).map Msgclient.info = (s.client c).map Msgclient.info

variable {K : Ptr → ℕ → Prop}

theorem Frame.refl (s : State) : Frame s s := ⟨rfl, fun _ => rfl⟩

theorem Frame.trans {t : State} (h : Frame s s') (h' : Frame s' t) : Frame s t :=
  ⟨h'.clientHt.trans h.clientHt, fun c => (h'.info c).trans (h.info c)⟩

theorem Frame.client (h : Frame s s') (hc : s.client c = some cl) : ∃ cl', s'.client c = some cl' ∧ cl'.info = cl.info := by
  have hinfo := h.info c
  rw [hc, Option.map_some] at hinfo
  exact Option.map_eq_some_iff.mp hinfo

theorem mem_items {h : Word} (hp : (h, p) ∈ s.subsHt.reduceOption) : p ∈ Places.items s.subsHt :=
  List.mem_map.mpr ⟨(h, p), hp, rfl⟩

theorem Index.entry (h : Index s K) (hp : p ∈ Places.items s.subsHt) :
    ∃ x, s.sub p = some x ∧ (hashOf x.bit, p) ∈ s.subsHt.reduceOption := by
  obtain ⟨⟨g, q⟩, hmem, rfl⟩ := List.mem_map.mp hp
  obtain ⟨x, hx, rfl, -⟩ := h.live g q hmem
  exact ⟨x, hx, hmem⟩

-- Removing and adding records

def State.without (ht : Htable Word Ptr) (s : State) (c : Ptr) (cl : Msgclient) (p : Ptr) (bit : ℕ) : State :=
  { s.putClient c { cl with subs := cl.subs.erase p } with
    subsHt := ht.del (hashOf bit) p s.subsHt, sub := Function.update s.sub p none }

theorem frame_putClient (hc : s.client c = some cl) (cl' : Msgclient) (hinfo : cl'.info = cl.info) {sub : Ptr → Option Sub}
    {t : Places Word Ptr} : Frame s { s.putClient c cl' with sub := sub, subsHt := t } := by
  refine ⟨rfl, fun c' => ?_⟩
  show (Function.update s.client c (some cl') c').map Msgclient.info = _
  by_cases hcc : c' = c
  · rw [hcc, Function.update_self, hc, Option.map_some, Option.map_some, hinfo]
  · rw [Function.update_of_ne hcc]

theorem isSome_of_frame (h : Frame s s') (hc : (s.client c).isSome) : (s'.client c).isSome := by
  obtain ⟨cl, hcl⟩ := Option.isSome_iff_exists.mp hc
  obtain ⟨cl', hcl', -⟩ := h.client hcl
  rw [hcl']
  rfl

theorem Index.without (h : Index s K) (hc : s.client c = some cl) (hp : p ∈ Places.items s.subsHt)
    (hsub : s.sub p = some ⟨c, bit⟩) : Index (s.without ht c cl p bit) fun c' b => K c' b ∧ ¬ (c' = c ∧ b = bit) := by
  have hframe : Frame s (s.without ht c cl p bit) := frame_putClient hc { cl with subs := cl.subs.erase p } rfl
  have hclient : (s.without ht c cl p bit).client = Function.update s.client c (some { cl with subs := cl.subs.erase p }) := rfl
  have hsame : ∀ g, (g, p) ∈ s.subsHt.reduceOption → ht.same g (hashOf bit) = true := by
    intro g hg
    obtain ⟨x, hx, rfl, -⟩ := h.live g p hg
    rw [hsub, Option.some.injEq] at hx
    rw [← hx]
    exact ht.same_self _
  have hplaces : (s.without ht c cl p bit).subsHt.reduceOption = s.subsHt.reduceOption.filter (·.2 ≠ p) :=
    ht.reduceOption_del hsame h.nodup
  have hitems : Places.items (s.without ht c cl p bit).subsHt = (Places.items s.subsHt).filter (· ≠ p) :=
    ht.items_del hsame h.nodup
  have hmem : ∀ q, q ∈ Places.items (s.without ht c cl p bit).subsHt ↔ q ∈ Places.items s.subsHt ∧ q ≠ p := by
    intro q
    rw [hitems, List.mem_filter, decide_eq_true_iff]
  have hother : ∀ q, q ≠ p → (s.without ht c cl p bit).sub q = s.sub q := fun q hq => Function.update_of_ne hq _ _
  refine ⟨?_, fun g q hq => ?_, fun q x hx => ?_, fun c' b => ?_, fun q hq r hr heq => ?_, fun c' cl' hc' => ?_⟩
  · rw [hitems]
    exact h.nodup.filter _
  · rw [hplaces, List.mem_filter, decide_eq_true_iff] at hq
    obtain ⟨x, hx, hg, hclient⟩ := h.live g q hq.1
    exact ⟨x, (hother q hq.2).trans hx, hg, isSome_of_frame hframe hclient⟩
  · have hqp : q ≠ p := by
      rintro rfl
      have hgone : (s.without ht c cl q bit).sub q = none := Function.update_self ..
      rw [hgone] at hx
      cases hx
    rw [hother q hqp] at hx
    exact (hmem q).mpr ⟨h.kept q x hx, hqp⟩
  · rw [h.keeps]
    constructor
    · rintro ⟨⟨q, hq, hx⟩, hne⟩
      have hqp : q ≠ p := by
        rintro rfl
        rw [hsub, Option.some.injEq, Sub.mk.injEq] at hx
        exact hne ⟨hx.1.symm, hx.2.symm⟩
      exact ⟨q, (hmem q).mpr ⟨hq, hqp⟩, (hother q hqp).trans hx⟩
    · rintro ⟨q, hmemq, hx⟩
      obtain ⟨hq, hqp⟩ := (hmem q).mp hmemq
      rw [hother q hqp] at hx
      refine ⟨⟨q, hq, hx⟩, fun hcb => hqp (h.unique q hq p hp ?_)⟩
      rw [hx, hsub, hcb.1, hcb.2]
  · obtain ⟨hq, hqp⟩ := (hmem q).mp hq
    obtain ⟨hr, hrp⟩ := (hmem r).mp hr
    rw [hother q hqp, hother r hrp] at heq
    exact h.unique q hq r hr heq
  · by_cases hcc : c' = c
    · subst hcc
      obtain ⟨hnodup, hlist⟩ := h.list c' cl hc
      rw [hclient, Function.update_self, Option.some.injEq] at hc'
      subst hc'
      refine ⟨hnodup.erase p, fun q => ?_⟩
      rw [hnodup.mem_erase_iff, hlist, hmem]
      constructor
      · rintro ⟨hqp, hq, b, hx⟩
        exact ⟨⟨hq, hqp⟩, b, (hother q hqp).trans hx⟩
      · rintro ⟨⟨hq, hqp⟩, b, hx⟩
        exact ⟨hqp, hq, b, (hother q hqp).symm.trans hx⟩
    · rw [hclient, Function.update_of_ne hcc] at hc'
      obtain ⟨hnodup, hlist⟩ := h.list c' cl' hc'
      refine ⟨hnodup, fun q => ?_⟩
      rw [hlist, hmem]
      constructor
      · rintro ⟨hq, b, hx⟩
        have hqp : q ≠ p := by
          rintro rfl
          rw [hsub, Option.some.injEq, Sub.mk.injEq] at hx
          exact hcc hx.1.symm
        exact ⟨⟨hq, hqp⟩, b, (hother q hqp).trans hx⟩
      · rintro ⟨⟨hq, hqp⟩, b, hx⟩
        exact ⟨hq, b, (hother q hqp).symm.trans hx⟩

theorem rmsubEntry_skip {x : Sub} (hx : s.sub p = some x) (hne : x ≠ ⟨c, bit⟩) : rmsubEntry ht c bit p s = .ok s := by
  have hor : x.bit ≠ bit ∨ x.client ≠ c := by
    by_contra hnot
    rw [not_or, not_not, not_not] at hnot
    obtain ⟨client, b⟩ := x
    exact hne ((Sub.mk.injEq ..).mpr ⟨hnot.2, hnot.1⟩)
  show (s.getSub p).bind _ = _
  rw [State.getSub, hx]
  exact if_pos hor

theorem rmsubEntry_eq (hsub : s.sub p = some ⟨c, bit⟩) : rmsubEntry ht c bit p s =
    (s.getClient c).bind fun cl => if p ∉ cl.subs then .error .fault else .ok (s.without ht c cl p bit) := by
  have hnor : ¬ ((⟨c, bit⟩ : Sub).bit ≠ bit ∨ (⟨c, bit⟩ : Sub).client ≠ c) := by
    rintro (h | h)
    · exact h rfl
    · exact h rfl
  show (s.getSub p).bind _ = _
  rw [State.getSub, hsub]
  exact if_neg hnor

theorem rmsubEntry_remove (hsub : s.sub p = some ⟨c, bit⟩) (hc : s.client c = some cl) (hp : p ∈ cl.subs) :
    rmsubEntry ht c bit p s = .ok (s.without ht c cl p bit) := by
  rw [rmsubEntry_eq hsub, State.getClient, hc]
  exact if_neg (not_not_intro hp)

theorem rmsubEntry_places (h : rmsubEntry ht c bit p s = .ok s') :
    s'.subsHt = s.subsHt ∨ s'.subsHt = ht.del (hashOf bit) p s.subsHt := by
  cases hsub : s.sub p with
  | none =>
    have hfault : rmsubEntry ht c bit p s = .error .fault := by
      show (s.getSub p).bind _ = _
      rw [State.getSub, hsub]
      rfl
    rw [hfault] at h
    cases h
  | some x =>
    by_cases hx : x = ⟨c, bit⟩
    · subst hx
      rw [rmsubEntry_eq hsub] at h
      cases hc : s.getClient c with
      | error e =>
        rw [hc] at h
        cases h
      | ok cl =>
        rw [hc] at h
        change (if p ∉ cl.subs then _ else _) = _ at h
        split at h
        · cases h
        · cases h
          exact .inr rfl
    · rw [rmsubEntry_skip hsub hx] at h
      cases h
      exact .inl rfl

theorem foldlM_skip {l : List Ptr} (h : ∀ p ∈ l, ∃ x, s.sub p = some x ∧ x ≠ ⟨c, bit⟩) :
    l.foldlM (fun s p => rmsubEntry ht c bit p s) s = .ok s := by
  induction l with
  | nil => rfl
  | cons p l ih =>
    obtain ⟨x, hx, hne⟩ := h p List.mem_cons_self
    rw [List.foldlM_cons, rmsubEntry_skip hx hne]
    exact ih fun q hq => h q (List.mem_cons_of_mem p hq)

theorem Index.congr {K' : Ptr → ℕ → Prop} (h : Index s K) (hK : ∀ c bit, K' c bit ↔ K c bit) : Index s K' :=
  { h with keeps := fun c bit => (hK c bit).trans (h.keeps c bit) }

theorem Index.rmsub (h : Index s K) (hc : (s.client c).isSome) (bit : ℕ) :
    ∃ s', Subs.rmsub ht c bit s = .ok s' ∧ Frame s s' ∧ Index s' fun c' b => K c' b ∧ ¬ (c' = c ∧ b = bit) := by
  obtain ⟨cl, hcl⟩ := Option.isSome_iff_exists.mp hc
  have hwalk : Subs.rmsub ht c bit s =
      (ht.candidates (hashOf bit) s.subsHt).foldlM (fun s p => rmsubEntry ht c bit p s) s :=
    ht.walk_eq [] (fun p s s' => rmsubEntry_places) rfl h.nodup (Nat.lt_succ_self _)
  have hlive : ∀ p ∈ ht.candidates (hashOf bit) s.subsHt, p ∈ Places.items s.subsHt := by
    intro p hp
    obtain ⟨g, hg, -⟩ := ht.mem_candidates.mp hp
    exact mem_items hg
  rw [hwalk]
  by_cases hK : K c bit
  · obtain ⟨p, hp, hsub⟩ := (h.keeps c bit).mp hK
    have hpsubs : p ∈ cl.subs := ((h.list c cl hcl).2 p).mpr ⟨hp, bit, hsub⟩
    have hcand : p ∈ ht.candidates (hashOf bit) s.subsHt := by
      obtain ⟨x, hx, hmem⟩ := h.entry hp
      rw [hsub, Option.some.injEq] at hx
      rw [← hx] at hmem
      exact ht.mem_candidates.mpr ⟨hashOf bit, hmem, ht.same_self _⟩
    -- only at `p` is there anything to be done
    have hskip : ∀ q ∈ ht.candidates (hashOf bit) s.subsHt, q ≠ p → ∃ x, s.sub q = some x ∧ x ≠ ⟨c, bit⟩ := by
      intro q hq hqp
      obtain ⟨x, hx, -⟩ := h.entry (hlive q hq)
      refine ⟨x, hx, ?_⟩
      rintro rfl
      exact hqp (h.unique q (hlive q hq) p hp (hx.trans hsub.symm))
    obtain ⟨before, after, hsplit⟩ := List.append_of_mem hcand
    have hnodup := ht.nodup_candidates h.nodup (hashOf bit)
    rw [hsplit] at hnodup hskip
    have hpbefore : p ∉ before := fun hmem => (List.disjoint_of_nodup_append hnodup) hmem List.mem_cons_self
    have hpafter : p ∉ after := (List.nodup_cons.mp (List.nodup_append.mp hnodup).2.1).1
    refine ⟨s.without ht c cl p bit, ?_, frame_putClient hcl { cl with subs := cl.subs.erase p } rfl, h.without hcl hp hsub⟩
    have hbefore : before.foldlM (fun s p => rmsubEntry ht c bit p s) s = .ok s := foldlM_skip fun q hq =>
      hskip q (List.mem_append_left _ hq) (ne_of_mem_of_not_mem hq hpbefore)
    rw [hsplit, List.foldlM_append, hbefore, ok_bind, List.foldlM_cons, rmsubEntry_remove hsub hcl hpsubs, ok_bind]
    refine foldlM_skip fun q hq => ?_
    have hqp : q ≠ p := ne_of_mem_of_not_mem hq hpafter
    obtain ⟨x, hx, hne⟩ := hskip q (List.mem_append_right _ (List.mem_cons_of_mem p hq)) hqp
    exact ⟨x, (Function.update_of_ne hqp _ _).trans hx, hne⟩
  · have hskip : ∀ q ∈ ht.candidates (hashOf bit) s.subsHt, ∃ x, s.sub q = some x ∧ x ≠ ⟨c, bit⟩ := by
      intro q hq
      obtain ⟨x, hx, -⟩ := h.entry (hlive q hq)
      refine ⟨x, hx, ?_⟩
      rintro rfl
      exact hK ((h.keeps c bit).mpr ⟨q, hlive q hq, hx⟩)
    refine ⟨s, foldlM_skip hskip, .refl s, h.congr fun c' b => and_iff_left_of_imp fun hcb hnot => hK ?_⟩
    rw [← hnot.1, ← hnot.2]
    exact hcb

theorem malloc_free (s : State) (mem : List Answer) : Returns (fun r => s.Free r.1.1) (malloc s mem) := by
  induction mem with
  | nil => exact rfl
  | cons a mem ih =>
    rw [malloc]
    split
    · next hfree => exact hfree
    · exact ih

def State.gain (ht : Htable Word Ptr) (s : State) (c : Ptr) (cl : Msgclient) (p : Ptr) (bit : ℕ) : State :=
  { s.putClient c { cl with subs := cl.subs ++ [p] } with
    subsHt := ht.put s.subsHt (hashOf bit, p), sub := Function.update s.sub p (some ⟨c, bit⟩) }

theorem Index.gain (h : Index s K) (hc : s.client c = some cl) (hfree : s.Free p) (hK : ¬ K c bit) :
    Index (s.gain ht c cl p bit) fun c' b => K c' b ∨ c' = c ∧ b = bit := by
  have hframe : Frame s (s.gain ht c cl p bit) := frame_putClient hc { cl with subs := cl.subs ++ [p] } rfl
  have hclient : (s.gain ht c cl p bit).client = Function.update s.client c (some { cl with subs := cl.subs ++ [p] }) := rfl
  have hplaces : (s.gain ht c cl p bit).subsHt.reduceOption.Perm ((hashOf bit, p) :: s.subsHt.reduceOption) :=
    ht.put_perm s.subsHt (hashOf bit, p)
  have hitems : (Places.items (s.gain ht c cl p bit).subsHt).Perm (p :: Places.items s.subsHt) :=
    ht.items_put s.subsHt (hashOf bit) p
  have hself : (s.gain ht c cl p bit).sub p = some ⟨c, bit⟩ := Function.update_self ..
  have hother : ∀ q, q ≠ p → (s.gain ht c cl p bit).sub q = s.sub q := fun q hq => Function.update_of_ne hq _ _
  have hp : ∀ q ∈ Places.items s.subsHt, q ≠ p := by
    rintro q hq rfl
    obtain ⟨x, hx, -⟩ := h.entry hq
    rw [hfree.2] at hx
    cases hx
  have hmem : ∀ q, q ∈ Places.items (s.gain ht c cl p bit).subsHt ↔ q = p ∨ q ∈ Places.items s.subsHt := fun q => by
    rw [hitems.mem_iff, List.mem_cons]
  have hold : ∀ q ∈ Places.items s.subsHt, (s.gain ht c cl p bit).sub q = s.sub q := fun q hq => hother q (hp q hq)
  have hnew : ∀ q ∈ Places.items s.subsHt, s.sub q ≠ some ⟨c, bit⟩ := fun q hq hx => hK ((h.keeps c bit).mpr ⟨q, hq, hx⟩)
  refine ⟨?_, fun g q hq => ?_, fun q x hx => ?_, fun c' b => ?_, fun q hq r hr heq => ?_, fun c' cl' hc' => ?_⟩
  · rw [hitems.nodup_iff, List.nodup_cons]
    exact ⟨fun hmem => hp p hmem rfl, h.nodup⟩
  · rw [hplaces.mem_iff, List.mem_cons, Prod.mk.injEq] at hq
    rcases hq with ⟨rfl, rfl⟩ | hq
    · exact ⟨_, hself, rfl, isSome_of_frame hframe (by rw [hc]; rfl)⟩
    · obtain ⟨x, hx, hg, hsome⟩ := h.live g q hq
      exact ⟨x, (hold q (mem_items hq)).trans hx, hg, isSome_of_frame hframe hsome⟩
  · by_cases hqp : q = p
    · exact (hmem q).mpr (.inl hqp)
    · rw [hother q hqp] at hx
      exact (hmem q).mpr (.inr (h.kept q x hx))
  · rw [h.keeps]
    constructor
    · rintro (⟨q, hq, hx⟩ | ⟨rfl, rfl⟩)
      · exact ⟨q, (hmem q).mpr (.inr hq), (hold q hq).trans hx⟩
      · exact ⟨p, (hmem p).mpr (.inl rfl), hself⟩
    · rintro ⟨q, hq, hx⟩
      rcases (hmem q).mp hq with rfl | hq
      · rw [hself, Option.some.injEq, Sub.mk.injEq] at hx
        exact .inr ⟨hx.1.symm, hx.2.symm⟩
      · exact .inl ⟨q, hq, (hold q hq).symm.trans hx⟩
  · rcases (hmem q).mp hq, (hmem r).mp hr with ⟨hqp | hqs, hrp | hrs⟩
    · exact hqp.trans hrp.symm
    · rw [hqp, hself, hold r hrs] at heq
      exact absurd heq.symm (hnew r hrs)
    · rw [hrp, hself, hold q hqs] at heq
      exact absurd heq (hnew q hqs)
    · rw [hold q hqs, hold r hrs] at heq
      exact h.unique q hqs r hrs heq
  · by_cases hcc : c' = c
    · subst hcc
      obtain ⟨hnodup, hlist⟩ := h.list c' cl hc
      rw [hclient, Function.update_self, Option.some.injEq] at hc'
      subst hc'
      have hpsubs : p ∉ cl.subs := fun hmem => hp p ((hlist p).mp hmem).1 rfl
      refine ⟨?_, fun q => ?_⟩
      · rw [← List.concat_eq_append]
        exact hnodup.concat hpsubs
      · rw [List.mem_append, List.mem_singleton, hlist, hmem]
        constructor
        · rintro (⟨hq, b, hx⟩ | rfl)
          · exact ⟨.inr hq, b, (hold q hq).trans hx⟩
          · exact ⟨.inl rfl, bit, hself⟩
        · rintro ⟨rfl | hq, b, hx⟩
          · exact .inr rfl
          · exact .inl ⟨hq, b, (hold q hq).symm.trans hx⟩
    · rw [hclient, Function.update_of_ne hcc] at hc'
      obtain ⟨hnodup, hlist⟩ := h.list c' cl' hc'
      refine ⟨hnodup, fun q => ?_⟩
      rw [hlist, hmem]
      constructor
      · rintro ⟨hq, b, hx⟩
        exact ⟨.inr hq, b, (hold q hq).trans hx⟩
      · rintro ⟨rfl | hq, b, hx⟩
        · rw [hself, Option.some.injEq, Sub.mk.injEq] at hx
          exact absurd hx.1.symm hcc
        · exact ⟨hq, b, (hold q hq).symm.trans hx⟩

theorem Index.addsub (h : Index s K) (hc : (s.client c).isSome) (hK : ¬ K c bit) :
    Returns (fun t => Frame s t.1 ∧ Index t.1 fun c' b => K c' b ∨ c' = c ∧ b = bit) (Subs.addsub ht c bit (s, mem)) := by
  obtain ⟨cl, hcl⟩ := Option.isSome_iff_exists.mp hc
  refine (malloc_free s mem).bind ?_
  rintro ⟨⟨p, added⟩, mem⟩ hfree
  cases added with
  | false => exact rfl
  | true =>
    have hget : State.getClient { s with sub := Function.update s.sub p (some ⟨c, bit⟩), subsHt := ht.put s.subsHt (hashOf bit, p) } c =
        .ok cl := by
      rw [State.getClient, hcl]
    show Returns _ (Except.bind _ _)
    rw [hget]
    exact ⟨frame_putClient hcl { cl with subs := cl.subs ++ [p] } rfl, h.gain hcl hfree hK⟩

-- setmask

theorem Index.rmsubs (h : Index s K) (hc : (s.client c).isSome) (l : List ℕ) :
    Returns (fun t => Frame s t ∧ Index t fun c' b => K c' b ∧ ¬ (c' = c ∧ b ∈ l))
      (l.foldlM (fun s b => Subs.rmsub ht c b s) s) := by
  induction l generalizing s K with
  | nil => exact ⟨.refl s, h.congr fun c' b => and_iff_left fun hmem => List.not_mem_nil hmem.2⟩
  | cons bit l ih =>
    obtain ⟨t, ht', hframe, hindex⟩ : ∃ t, Subs.rmsub ht c bit s = .ok t ∧ Frame s t ∧
        Index t fun c' b => K c' b ∧ ¬ (c' = c ∧ b = bit) := h.rmsub hc bit
    rw [List.foldlM_cons, ht', ok_bind]
    refine (ih hindex (isSome_of_frame hframe hc)).mono fun u hu => ⟨hframe.trans hu.1, hu.2.congr fun c' b => ?_⟩
    rw [List.mem_cons]
    tauto

theorem Index.addsubs (h : Index s K) (hc : (s.client c).isSome) {l : List ℕ} (hl : l.Nodup) (hK : ∀ b ∈ l, ¬ K c b) :
    Returns (fun t => Frame s t.1 ∧ Index t.1 fun c' b => K c' b ∨ c' = c ∧ b ∈ l)
      (l.foldlM (fun t b => Subs.addsub ht c b t) (s, mem)) := by
  induction l generalizing s K mem with
  | nil => exact ⟨.refl s, h.congr fun c' b => or_iff_left fun hmem => List.not_mem_nil hmem.2⟩
  | cons bit l ih =>
    obtain ⟨hbit, hl⟩ := List.nodup_cons.mp hl
    rw [List.foldlM_cons]
    refine (h.addsub hc (hK bit List.mem_cons_self)).bind ?_
    rintro ⟨t, mem⟩ ⟨hframe, hindex⟩
    have hrest : ∀ b ∈ l, ¬ (K c b ∨ c = c ∧ b = bit) := by
      rintro b hb (hKb | ⟨-, rfl⟩)
      · exact hK b (List.mem_cons_of_mem bit hb) hKb
      · exact hbit hb
    refine (ih hindex (isSome_of_frame hframe hc) hl hrest).mono fun u hu => ⟨hframe.trans hu.1, hu.2.congr fun c' b => ?_⟩
    rw [List.mem_cons]
    tauto

def State.Held (s : State) (c : Ptr) (bit : ℕ) : Prop := ∃ cl, s.client c = some cl ∧ cl.subsMask.getLsbD bit = true

theorem Frame.held (h : Frame s s') (c : Ptr) (bit : ℕ) : s'.Held c bit ↔ s.Held c bit := by
  have hmask : (s'.client c).map (·.subsMask) = (s.client c).map (·.subsMask) := by
    have hinfo := congrArg (Option.map (·.2.1)) (h.info c)
    rwa [Option.map_map, Option.map_map] at hinfo
  have hheld : ∀ t : State, t.Held c bit ↔ ∃ m, (t.client c).map (·.subsMask) = some m ∧ m.getLsbD bit = true := by
    intro t
    constructor
    · rintro ⟨cl, hcl, hbit⟩
      exact ⟨cl.subsMask, by rw [hcl]; rfl, hbit⟩
    · rintro ⟨m, hm, hbit⟩
      obtain ⟨cl, hcl, rfl⟩ := Option.map_eq_some_iff.mp hm
      exact ⟨cl, hcl, hbit⟩
  rw [hheld, hheld, hmask]

structure Known (s : State) : Prop where
  live : ∀ h p, (h, p) ∈ s.clientHt.reduceOption → ∃ cl, s.client p = some cl ∧ h = hashOf (pidof cl.recvTid)
  nodup : (Places.items s.clientHt).Nodup
  one : ∀ p ∈ Places.items s.clientHt, ∀ q ∈ Places.items s.clientHt,
    (s.client p).map (pidof ·.recvTid) = (s.client q).map (pidof ·.recvTid) → p = q

theorem Known.congr (h : Known s) (hht : s'.clientHt = s.clientHt)
    (htid : ∀ p, (s'.client p).map (·.recvTid) = (s.client p).map (·.recvTid)) : Known s' := by
  have hpid : ∀ p, (s'.client p).map (pidof ·.recvTid) = (s.client p).map (pidof ·.recvTid) := by
    intro p
    have hp := congrArg (Option.map pidof) (htid p)
    rwa [Option.map_map, Option.map_map] at hp
  refine ⟨fun g p hp => ?_, hht ▸ h.nodup, fun p hp q hq heq => ?_⟩
  · rw [hht] at hp
    obtain ⟨cl, hcl, rfl⟩ := h.live g p hp
    have hp' := htid p
    rw [hcl, Option.map_some] at hp'
    obtain ⟨cl', hcl', htid'⟩ := Option.map_eq_some_iff.mp hp'
    exact ⟨cl', hcl', by rw [htid']⟩
  · rw [hht] at hp hq
    rw [hpid, hpid] at heq
    exact h.one p hp q hq heq

structure Inv (s : State) : Prop where
  index : Index s s.Held
  known : Known s

theorem held_new (old new : Word) {b : ℕ} : (old.getLsbD b = true ∧ ¬ b ∈ bits (old &&& ~~~new)) ∨ b ∈ bits (~~~old &&& new) ↔
    new.getLsbD b = true := by
  rw [mem_bits, mem_bits, BitVec.getLsbD_and, BitVec.getLsbD_and, BitVec.getLsbD_not, BitVec.getLsbD_not]
  by_cases hb : b < 32
  · rw [decide_eq_true hb]
    cases old.getLsbD b <;> cases new.getLsbD b <;> decide
  · rw [BitVec.getLsbD_of_ge old b (Nat.not_lt.mp hb), BitVec.getLsbD_of_ge new b (Nat.not_lt.mp hb)]
    simp

theorem putClient_self : (s.putClient c cl).client c = some cl := Function.update_self ..

theorem putClient_of_ne (h : p ≠ c) : (s.putClient c cl).client p = s.client p := Function.update_of_ne h _ _

theorem isSome_putClient (h : (s.client p).isSome) : ((s.putClient c cl).client p).isSome := by
  by_cases hpc : p = c
  · rw [hpc, putClient_self]
    rfl
  · rwa [putClient_of_ne hpc]

theorem Index.put {subs : List Ptr} (h : Index s K)
    (hlist : subs.Nodup ∧ ∀ p, p ∈ subs ↔ p ∈ Places.items s.subsHt ∧ ∃ bit, s.sub p = some ⟨c, bit⟩)
    (hsubs : cl.subs = subs) {t : Places Word Ptr} : Index { s.putClient c cl with clientHt := t } K where
  nodup := h.nodup
  live g p hp := by
    obtain ⟨x, hx, hg, hsome⟩ := h.live g p hp
    exact ⟨x, hx, hg, isSome_putClient hsome⟩
  kept := h.kept
  keeps := h.keeps
  unique := h.unique
  list c' cl' hc' := by
    by_cases hcc : c' = c
    · subst hcc
      have hcl := putClient_self.symm.trans hc'
      rw [Option.some.injEq] at hcl
      rw [← hcl, hsubs]
      exact hlist
    · have hc' := (putClient_of_ne hcc).symm.trans hc'
      exact h.list c' cl' hc'

theorem held_self (hc : s.client c = some cl) : s.Held c bit ↔ cl.subsMask.getLsbD bit = true := by
  refine ⟨fun ⟨cl', hcl', hbit⟩ => ?_, fun hbit => ⟨cl, hc, hbit⟩⟩
  rw [hc, Option.some.injEq] at hcl'
  rwa [hcl']

theorem held_putClient_of_ne (h : p ≠ c) : (s.putClient c cl).Held p bit ↔ s.Held p bit := by
  rw [State.Held, State.Held, putClient_of_ne h]

theorem recvTid_putClient {cl' : Msgclient} (hc : s.client c = some cl) (htid : cl'.recvTid = cl.recvTid) (p : Ptr) :
    ((s.putClient c cl').client p).map (·.recvTid) = (s.client p).map (·.recvTid) := by
  by_cases hpc : p = c
  · rw [hpc, putClient_self, hc, Option.map_some, Option.map_some, htid]
  · rw [putClient_of_ne hpc]

def Msgclient.masked (cl : Msgclient) (or and : Word) : Msgclient :=
  let new := (cl.subsMask &&& and) ||| or
  { cl with subsMask := new, filterMask := cl.filterMask &&& ~~~(cl.subsMask &&& ~~~new) }

theorem Inv.setmaskOf (h : Inv s) (hc : s.client c = some cl) (or and : Word) (mem : List Answer) :
    Returns (fun r => Inv r.1 ∧ r.2 = cl.subsMask ∧ Frame (s.putClient c (cl.masked or and)) r.1)
      (Subs.setmaskOf ht s c or and mem) := by
  have hget : s.getClient c = .ok cl := by rw [State.getClient, hc]
  show Returns _ ((s.getClient c).bind _)
  rw [hget]
  generalize hnew : (cl.subsMask &&& and) ||| or = new
  show Returns _ (Except.bind (forEachBit (Subs.rmsub ht c) 33 (cl.subsMask &&& ~~~((cl.subsMask &&& and) ||| or)) _) _)
  rw [hnew, forEachBit_eq (Nat.lt_succ_of_le (length_bits_le _))]
  have hmasked : cl.masked or and = ⟨cl.recvTid, new, cl.filterMask &&& ~~~(cl.subsMask &&& ~~~new), cl.subs⟩ := by
    rw [← hnew]
    rfl
  rw [hmasked]
  generalize hcl' : Msgclient.mk cl.recvTid new (cl.filterMask &&& ~~~(cl.subsMask &&& ~~~new)) cl.subs = cl'
  have hmask : cl'.subsMask = new := by rw [← hcl']
  have htid : cl'.recvTid = cl.recvTid := by rw [← hcl']
  have hput : Index (s.putClient c cl') s.Held := h.index.put (h.index.list c cl hc) (by rw [← hcl'])
  have hsome : ((s.putClient c cl').client c).isSome := by
    rw [putClient_self]
    rfl
  refine (hput.rmsubs hsome (bits (cl.subsMask &&& ~~~new))).bind ?_
  rintro t ⟨hframe, hindex⟩
  show Returns _ (Except.bind (forEachBit (Subs.addsub ht c) 33 (~~~cl.subsMask &&& new) (t, mem)) _)
  rw [forEachBit_eq (Nat.lt_succ_of_le (length_bits_le _))]
  have hadded : ∀ b ∈ bits (~~~cl.subsMask &&& new), ¬ (s.Held c b ∧ ¬ (c = c ∧ b ∈ bits (cl.subsMask &&& ~~~new))) := by
    rintro b hb ⟨hold, -⟩
    rw [held_self hc] at hold
    rw [mem_bits, BitVec.getLsbD_and, BitVec.getLsbD_not, hold, Bool.not_true, Bool.and_false, Bool.false_and] at hb
    cases hb
  refine (hindex.addsubs (isSome_of_frame hframe hsome) (Handlers.nodup_bits _) hadded).bind ?_
  rintro ⟨u, mem⟩ ⟨hframe', hindex'⟩
  have hall := hframe.trans hframe'
  refine ⟨⟨hindex'.congr fun c' b => ?_, h.known.congr hall.clientHt fun p => ?_⟩, rfl, hall⟩
  · -- the client's mask is the new one, and those of the others are as before
    rw [hall.held]
    by_cases hcc : c' = c
    · rw [hcc, held_self putClient_self, held_self hc, hmask, ← held_new cl.subsMask]
      simp only [true_and]
    · rw [held_putClient_of_ne hcc]
      simp only [hcc, false_and, not_false_eq_true, and_true, or_false]
  · have hinfo := congrArg (Option.map (·.1)) (hall.info p)
    rw [Option.map_map, Option.map_map] at hinfo
    exact hinfo.trans (recvTid_putClient hc htid p)

theorem getIn_spec (pid : ℕ) {l : List Ptr} (hlive : ∀ p ∈ l, ∃ cl, s.client p = some cl) :
    (∃ p ∈ l, ∃ cl, s.client p = some cl ∧ pidof cl.recvTid = pid ∧ getIn s pid l = .ok (some p)) ∨
      getIn s pid l = .ok none ∧ ∀ p ∈ l, ∀ cl, s.client p = some cl → pidof cl.recvTid ≠ pid := by
  induction l with
  | nil => exact .inr ⟨rfl, fun p hp => (List.not_mem_nil hp).elim⟩
  | cons p l ih =>
    obtain ⟨cl, hcl⟩ := hlive p List.mem_cons_self
    have hstep : getIn s pid (p :: l) = if pidof cl.recvTid = pid then .ok (some p) else getIn s pid l := by
      show (s.getClient p).bind _ = _
      rw [State.getClient, hcl]
      rfl
    rw [hstep]
    by_cases hpid : pidof cl.recvTid = pid
    · rw [if_pos hpid]
      exact .inl ⟨p, List.mem_cons_self, cl, hcl, hpid, rfl⟩
    · rw [if_neg hpid]
      obtain ⟨q, hq, hfound⟩ | ⟨hnone, hall⟩ := ih fun q hq => hlive q (List.mem_cons_of_mem p hq)
      · exact .inl ⟨q, List.mem_cons_of_mem p hq, hfound⟩
      · refine .inr ⟨hnone, fun q hq cl' hcl' => ?_⟩
        rcases List.mem_cons.mp hq with rfl | hq
        · rw [hcl, Option.some.injEq] at hcl'
          rwa [← hcl']
        · exact hall q hq cl' hcl'

/-- `get_client` finds a client of the process, unless the table has none. -/
theorem Known.getClient (h : Known s) (tid : Tid) :
    (∃ c ∈ Places.items s.clientHt, ∃ cl, s.client c = some cl ∧ pidof cl.recvTid = pidof tid ∧
        Subs.getClient ht s tid = .ok (some c)) ∨
      Subs.getClient ht s tid = .ok none ∧
        ∀ p ∈ Places.items s.clientHt, ∀ cl, s.client p = some cl → pidof cl.recvTid ≠ pidof tid := by
  have hlive : ∀ p ∈ ht.candidates (hashOf (pidof tid)) s.clientHt, ∃ cl, s.client p = some cl := by
    intro p hp
    obtain ⟨g, hg, -⟩ := ht.mem_candidates.mp hp
    obtain ⟨cl, hcl, -⟩ := h.live g p hg
    exact ⟨cl, hcl⟩
  obtain ⟨p, hp, hfound⟩ | ⟨hnone, hall⟩ := getIn_spec (s := s) (l := ht.candidates (hashOf (pidof tid)) s.clientHt) (pidof tid) hlive
  · obtain ⟨g, hg, -⟩ := ht.mem_candidates.mp hp
    exact .inl ⟨p, List.mem_map.mpr ⟨_, hg, rfl⟩, hfound⟩
  · refine .inr ⟨hnone, fun p hp cl hcl hpid => ?_⟩
    obtain ⟨⟨g, q⟩, hmem, rfl⟩ := List.mem_map.mp hp
    obtain ⟨cl', hcl', rfl⟩ := h.live g q hmem
    obtain rfl : cl' = cl := Option.some.inj (hcl'.symm.trans hcl)
    exact hall q (ht.mem_candidates.mpr ⟨_, hmem, hpid ▸ ht.same_self _⟩) cl' hcl hpid

theorem Known.ne_of_free (h : Known s) (hfree : s.Free c) : ∀ p ∈ Places.items s.clientHt, p ≠ c := by
  rintro p hp rfl
  obtain ⟨⟨g, q⟩, hmem, rfl⟩ := List.mem_map.mp hp
  obtain ⟨cl, hcl, -⟩ := h.live g q hmem
  rw [hfree.1] at hcl
  cases hcl

theorem Inv.newClient (h : Inv s) {tid : Tid} (hfree : s.Free c)
    (hnew : ∀ p ∈ Places.items s.clientHt, ∀ cl, s.client p = some cl → pidof cl.recvTid ≠ pidof tid) :
    Inv { s.putClient c ⟨tid, 0, 0, []⟩ with clientHt := ht.put s.clientHt (hashOf (pidof tid), c) } := by
  have hnorecord : ∀ p, p ∈ ([] : List Ptr) ↔ p ∈ Places.items s.subsHt ∧ ∃ bit, s.sub p = some ⟨c, bit⟩ := by
    refine fun p => ⟨fun hp => (List.not_mem_nil hp).elim, ?_⟩
    rintro ⟨hp, bit, hsub⟩
    obtain ⟨x, hx, hmem⟩ := h.index.entry hp
    obtain ⟨y, hy, -, hsome⟩ := h.index.live _ _ hmem
    rw [hsub, Option.some.injEq] at hy
    rw [← hy, hfree.1] at hsome
    cases hsome
  have hlive := h.known.ne_of_free hfree
  have hperm := ht.put_perm s.clientHt (hashOf (pidof tid), c)
  have hitems := ht.items_put s.clientHt (hashOf (pidof tid)) c
  refine ⟨(h.index.put ⟨.nil, hnorecord⟩ rfl).congr fun c' bit => ?_, ⟨fun g p hp => ?_, ?_, fun p hp q hq heq => ?_⟩⟩
  · show (s.putClient c ⟨tid, 0, 0, []⟩).Held c' bit ↔ _
    by_cases hcc : c' = c
    · rw [hcc, held_self putClient_self, State.Held, hfree.1]
      simp
    · exact held_putClient_of_ne hcc
  · rw [hperm.mem_iff, List.mem_cons, Prod.mk.injEq] at hp
    rcases hp with ⟨rfl, rfl⟩ | hp
    · exact ⟨_, putClient_self, rfl⟩
    · obtain ⟨cl, hcl, hg⟩ := h.known.live g p hp
      exact ⟨cl, (putClient_of_ne (hlive p (List.mem_map.mpr ⟨_, hp, rfl⟩))).trans hcl, hg⟩
  · rw [hitems.nodup_iff, List.nodup_cons]
    exact ⟨fun hmem => hlive c hmem rfl, h.known.nodup⟩
  · have hother : ∀ p ∈ Places.items s.clientHt, ((s.putClient c ⟨tid, 0, 0, []⟩).client p).map (pidof ·.recvTid) =
        (s.client p).map (pidof ·.recvTid) := fun p hp => by rw [putClient_of_ne (hlive p hp)]
    have hself : ((s.putClient c ⟨tid, 0, 0, []⟩).client c).map (pidof ·.recvTid) = some (pidof tid) := by
      rw [putClient_self]
      rfl
    have hdistinct : ∀ p ∈ Places.items s.clientHt, (s.client p).map (pidof ·.recvTid) ≠ some (pidof tid) := by
      intro p hp heq
      obtain ⟨cl, hcl, hpid⟩ := Option.map_eq_some_iff.mp heq
      exact hnew p hp cl hcl hpid
    change ((s.putClient c ⟨tid, 0, 0, []⟩).client p).map _ = ((s.putClient c ⟨tid, 0, 0, []⟩).client q).map _ at heq
    rcases List.mem_cons.mp (hitems.mem_iff.mp hp), List.mem_cons.mp (hitems.mem_iff.mp hq) with ⟨hpc | hps, hqc | hqs⟩
    · exact hpc.trans hqc.symm
    · rw [hpc, hself, hother q hqs] at heq
      exact absurd heq.symm (hdistinct q hqs)
    · rw [hqc, hself, hother p hps] at heq
      exact absurd heq (hdistinct p hps)
    · rw [hother p hps, hother q hqs] at heq
      exact h.known.one p hps q hqs heq

abbrev Info := Tid × Word × Word

def Info.masked (i : Info) (or and : Word) : Info :=
  let new := (i.2.1 &&& and) ||| or
  (i.1, new, i.2.2 &&& ~~~(i.2.1 &&& ~~~new))

def State.look (s : State) (pid : ℕ) : Option Info := (Places.items s.clientHt).findSome? fun c =>
  (s.client c).bind fun cl => if pidof cl.recvTid = pid then some cl.info else none

/-- `setmask`, as far as the masks are concerned, and what it returns. -/
def lookMask (look : ℕ → Option Info) (tid : Tid) (or and : Word) : (ℕ → Option Info) × Word :=
  match look (pidof tid) with
  | none => if and = 0 ∧ or = 0 then (look, 0) else (Function.update look (pidof tid) (some (Info.masked (tid, 0, 0) or and)), 0)
  | some i => (Function.update look (pidof tid) (some (i.masked or and)), i.2.1)

variable {pid : ℕ} {i : Info}

theorem Known.look_eq_some (h : Known s) : s.look pid = some i ↔
    ∃ c ∈ Places.items s.clientHt, ∃ cl, s.client c = some cl ∧ pidof cl.recvTid = pid ∧ cl.info = i := by
  have hentry : ∀ {c j}, ((s.client c).bind fun cl => if pidof cl.recvTid = pid then some cl.info else none) = some j ↔
      ∃ cl, s.client c = some cl ∧ pidof cl.recvTid = pid ∧ cl.info = j := by
    intro c j
    rw [Option.bind_eq_some_iff]
    refine exists_congr fun cl => and_congr_right fun _ => ?_
    rw [Option.ite_none_right_eq_some, Option.some.injEq]
  constructor
  · intro hlook
    obtain ⟨c, hc, hfound⟩ := List.exists_of_findSome?_eq_some hlook
    exact ⟨c, hc, hentry.mp hfound⟩
  · rintro ⟨c, hc, cl, hcl, hpid, hinfo⟩
    cases hlook : s.look pid with
    | none => exact absurd (hentry.mpr ⟨cl, hcl, hpid, hinfo⟩) (by rw [List.findSome?_eq_none_iff.mp hlook c hc]; nofun)
    | some j =>
      obtain ⟨c', hc', hfound⟩ := List.exists_of_findSome?_eq_some hlook
      obtain ⟨cl', hcl', hpid', rfl⟩ := hentry.mp hfound
      have hcc : c' = c := h.one c' hc' c hc (by rw [hcl, hcl', Option.map_some, Option.map_some, hpid, hpid'])
      rw [hcc, hcl, Option.some.injEq] at hcl'
      rw [← hinfo, hcl']

theorem Known.look_eq_none (h : Known s) (hnew : ∀ p ∈ Places.items s.clientHt, ∀ cl, s.client p = some cl → pidof cl.recvTid ≠ pid) :
    s.look pid = none := by
  refine Option.eq_none_iff_forall_ne_some.mpr fun i hi => ?_
  obtain ⟨c, hc, cl, hcl, hpid, -⟩ := h.look_eq_some.mp hi
  exact hnew c hc cl hcl hpid

theorem look_of_frame (h : Known s) (h' : Known s') {cl' : Msgclient} (hmem : c ∈ Places.items s.clientHt) (hc : s.client c = some cl)
    (htid : cl'.recvTid = cl.recvTid) (hframe : Frame (s.putClient c cl') s') :
    s'.look = Function.update s.look (pidof cl.recvTid) (some cl'.info) := by
  have hself : s'.look (pidof cl.recvTid) = some cl'.info := by
    obtain ⟨x, hx, hinfo⟩ := hframe.client putClient_self
    have hx' : x.recvTid = cl.recvTid := (congrArg (·.1) hinfo).trans htid
    exact h'.look_eq_some.mpr ⟨c, hframe.clientHt ▸ hmem, x, hx, by rw [hx'], hinfo⟩
  funext pid
  by_cases hpid : pid = pidof cl.recvTid
  · rw [hpid, Function.update_self, hself]
  · rw [Function.update_of_ne hpid]
    apply Option.ext
    intro i
    rw [h.look_eq_some, h'.look_eq_some, hframe.clientHt]
    refine exists_congr fun p => and_congr_right fun _ => ?_
    by_cases hpc : p = c
    · -- it is of another process
      refine iff_of_false ?_ ?_
      · rintro ⟨x, hx, hxpid, -⟩
        obtain ⟨y, hy, hinfo⟩ := hframe.client putClient_self
        rw [hpc, hy, Option.some.injEq] at hx
        apply hpid
        rw [← hxpid, ← hx, ← htid]
        exact congrArg (fun i : Info => pidof i.1) hinfo
      · rintro ⟨x, hx, hxpid, -⟩
        rw [hpc, hc, Option.some.injEq] at hx
        exact hpid (by rw [← hxpid, hx])
    · have hinfo := hframe.info p
      rw [putClient_of_ne hpc] at hinfo
      have hpids : ∀ t : State, (∃ x, t.client p = some x ∧ pidof x.recvTid = pid ∧ x.info = i) ↔
          (t.client p).map Msgclient.info = some i ∧ pidof i.1 = pid := by
        intro t
        rw [Option.map_eq_some_iff]
        constructor
        · rintro ⟨x, hx, hxpid, rfl⟩
          exact ⟨⟨x, hx, rfl⟩, hxpid⟩
        · rintro ⟨⟨x, hx, rfl⟩, hxpid⟩
          exact ⟨x, hx, hxpid, rfl⟩
      rw [hpids, hpids, hinfo]

theorem look_newClient (h : Known s) {tid : Tid} {t : Places Word Ptr}
    (h' : Known { s.putClient c ⟨tid, 0, 0, []⟩ with clientHt := t }) (hitems : (Places.items t).Perm (c :: Places.items s.clientHt))
    (hlive : ∀ p ∈ Places.items s.clientHt, p ≠ c) : State.look { s.putClient c ⟨tid, 0, 0, []⟩ with clientHt := t } =
      Function.update s.look (pidof tid) (some (tid, 0, 0)) := by
  funext pid
  by_cases hpid : pid = pidof tid
  · rw [hpid, Function.update_self]
    exact h'.look_eq_some.mpr ⟨c, hitems.mem_iff.mpr List.mem_cons_self, _, putClient_self, rfl, rfl⟩
  · rw [Function.update_of_ne hpid]
    apply Option.ext
    intro i
    rw [h'.look_eq_some, h.look_eq_some]
    constructor
    · rintro ⟨p, hp, x, hx, hxpid, hinfo⟩
      rcases List.mem_cons.mp (hitems.mem_iff.mp hp) with hpc | hp
      · change (s.putClient c ⟨tid, 0, 0, []⟩).client p = some x at hx
        rw [hpc, putClient_self, Option.some.injEq] at hx
        exact absurd (by rw [← hxpid, ← hx]) hpid
      · exact ⟨p, hp, x, (putClient_of_ne (hlive p hp)).symm.trans hx, hxpid, hinfo⟩
    · rintro ⟨p, hp, x, hx, hrest⟩
      exact ⟨p, hitems.mem_iff.mpr (List.mem_cons_of_mem c hp), x, (putClient_of_ne (hlive p hp)).trans hx, hrest⟩

theorem Inv.setmask (h : Inv s) (tid : Tid) (or and : Word) (mem : List Answer) :
    Returns (fun r => Inv r.1 ∧ (r.1.look, r.2) = lookMask s.look tid or and) (Subs.setmask ht s tid or and mem) := by
  show Returns _ ((Subs.getClient ht s tid).bind _)
  obtain ⟨c, hmem, cl, hcl, hpid, hfound⟩ | ⟨hnone, hnew⟩ := h.known.getClient tid
  · rw [hfound]
    have hlook : s.look (pidof tid) = some cl.info := h.known.look_eq_some.mpr ⟨c, hmem, cl, hcl, hpid, rfl⟩
    rw [lookMask, hlook]
    refine (h.setmaskOf hcl or and mem).mono ?_
    rintro ⟨s', old⟩ ⟨hinv, rfl, hframe⟩
    refine ⟨hinv, ?_⟩
    have htid : (cl.masked or and).recvTid = cl.recvTid := rfl
    rw [look_of_frame h.known hinv.known hmem hcl htid hframe, hpid]
    rfl
  · rw [hnone, lookMask, h.known.look_eq_none hnew]
    show Returns _ (if and = 0 ∧ or = 0 then _ else _)
    by_cases hzero : and = 0 ∧ or = 0
    · rw [if_pos hzero, if_pos hzero]
      exact ⟨h, rfl⟩
    · rw [if_neg hzero, if_neg hzero]
      refine (malloc_free s mem).bind ?_
      rintro ⟨⟨c, added⟩, mem⟩ hfree
      cases added with
      | false => exact rfl
      | true =>
        have hinv : Inv { s.putClient c ⟨tid, 0, 0, []⟩ with clientHt := ht.put s.clientHt (hashOf (pidof tid), c) } :=
          h.newClient hfree hnew
        refine (hinv.setmaskOf putClient_self or and mem).mono ?_
        rintro ⟨s', old⟩ ⟨hinv', rfl, hframe⟩
        have hitems := ht.items_put s.clientHt (hashOf (pidof tid)) c
        have htid : (Msgclient.masked ⟨tid, 0, 0, []⟩ or and).recvTid = tid := rfl
        refine ⟨hinv', ?_⟩
        rw [look_of_frame hinv.known hinv'.known (hitems.mem_iff.mpr List.mem_cons_self) putClient_self htid hframe,
          look_newClient h.known hinv.known hitems (h.known.ne_of_free hfree), Function.update_idem]
        rfl

def Abstracts (s : State) (t : Sysmsg.State) : Prop :=
  ∀ pid, s.look pid = (t.client pid).map fun c => (c.recvTid, c.subsMask, c.filterMask)

theorem lookMask_setmask (t : Sysmsg.State) (tid : Tid) (or and : Word) :
    lookMask (fun pid => (t.client pid).map fun c => (c.recvTid, c.subsMask, c.filterMask)) tid or and =
      (fun pid => ((Sysmsg.setmask t tid or and).1.client pid).map fun c => (c.recvTid, c.subsMask, c.filterMask),
        (Sysmsg.setmask t tid or and).2) := by
  have hput : ∀ c : Sysmsg.Client, (fun pid => ((Sysmsg.setmaskOf t (pidof tid) c or and).client pid).map
      fun c => (c.recvTid, c.subsMask, c.filterMask)) = Function.update
        (fun pid => (t.client pid).map fun c => (c.recvTid, c.subsMask, c.filterMask)) (pidof tid)
          (some (Info.masked (c.recvTid, c.subsMask, c.filterMask) or and)) := by
    intro c
    funext pid
    by_cases hpid : pid = pidof tid
    · have hself : (Sysmsg.setmaskOf t (pidof tid) c or and).client (pidof tid) = some _ := Function.update_self ..
      rw [hpid, Function.update_self, hself]
      rfl
    · have hother : (Sysmsg.setmaskOf t (pidof tid) c or and).client pid = t.client pid := Function.update_of_ne hpid ..
      rw [Function.update_of_ne hpid, hother]
  rw [lookMask, Sysmsg.setmask]
  cases hc : t.client (pidof tid) with
  | none =>
    by_cases hzero : and = 0 ∧ or = 0
    · simp only [Option.map_none, if_pos hzero]
    · simp only [Option.map_none, if_neg hzero, hput]
  | some c => simp only [Option.map_some, hput]

/-- **A step of the records is one of the masks**, with the same answer. -/
theorem setmask_refines {t : Sysmsg.State} (h : Inv s) (ha : Abstracts s t) (tid : Tid) (or and : Word) (mem : List Answer) :
    Returns (fun r => Abstracts r.1 (Sysmsg.setmask t tid or and).1 ∧ r.2 = (Sysmsg.setmask t tid or and).2)
      (setmask ht s tid or and mem) := by
  refine (h.setmask tid or and mem).mono fun r hr => ?_
  obtain ⟨-, hlook⟩ := hr
  rw [funext ha, lookMask_setmask, Prod.mk.injEq] at hlook
  exact ⟨congrFun hlook.1, hlook.2⟩

-- Runs

theorem Inv.init : Inv .init where
  index :=
    { nodup := .nil
      live := fun g p hp => (List.not_mem_nil hp).elim
      kept := fun p x hx => by cases hx
      keeps := by
        refine fun c bit => ⟨?_, ?_⟩
        · rintro ⟨cl, hcl, -⟩
          cases hcl
        · rintro ⟨p, hp, -⟩
          exact (List.not_mem_nil hp).elim
      unique := fun p hp => (List.not_mem_nil hp).elim
      list := fun c cl hc => by cases hc }
  known := ⟨fun g p hp => (List.not_mem_nil hp).elim, .nil, fun p hp => (List.not_mem_nil hp).elim⟩

theorem Inv.exec {call : Call} (h : Inv s) (he : Subs.exec ht s call = some s') : Inv s' := by
  have hreturns : Returns _ (Subs.setmask ht s call.sender call.or call.and call.mem) := h.setmask ..
  rw [Subs.exec] at he
  cases hr : Subs.setmask ht s call.sender call.or call.and call.mem with
  | error e =>
    rw [hr] at he
    cases he
  | ok r =>
    rw [hr] at he hreturns
    cases he
    exact hreturns.1

theorem inv_of_run {calls : List Call} (h : Run (exec ht) free .init calls s) : Inv s :=
  h.invariant (fun _ _ _ _ he hs => hs.exec he) .init

theorem Index.records_eq (h : Index s K) {l : List Ptr} (hl : l.Nodup) (hitems : ∀ p ∈ l, p ∈ Places.items s.subsHt)
    (hp : p ∈ l) (hsub : s.sub p = some ⟨c, bit⟩) : s.records l c bit = [p] := by
  rw [← List.perm_singleton, State.records, List.perm_ext_iff_of_nodup (hl.filter _) (List.nodup_singleton p)]
  intro q
  rw [List.mem_filter, decide_eq_true_iff, List.mem_singleton]
  refine ⟨fun hq => h.unique q (hitems q hq.1) p (hitems p hp) (hq.2.trans hsub.symm), ?_⟩
  rintro rfl
  exact ⟨hp, hsub⟩

theorem Inv.indexed (h : Inv s) (hc : s.client c = some cl) (bit : ℕ) : Indexed s c cl bit := by
  obtain ⟨hnodup, hlist⟩ := h.index.list c cl hc
  have hsubs : ∀ p ∈ cl.subs, p ∈ Places.items s.subsHt := fun p hp => ((hlist p).mp hp).1
  rw [Indexed]
  split
  · next hbit =>
    obtain ⟨p, hp, hsub⟩ := (h.index.keeps c bit).mp ((held_self hc).mpr hbit)
    refine ⟨p, h.index.records_eq h.index.nodup (fun _ hq => hq) hp hsub,
      h.index.records_eq hnodup hsubs ((hlist p).mpr ⟨hp, bit, hsub⟩) hsub, fun q => ⟨fun hq => ?_, fun hq => hq ▸ hsub⟩⟩
    exact h.index.unique q (h.index.kept q _ hq) p hp (hq.trans hsub.symm)
  · next hbit =>
    have hnone : ∀ p ∈ Places.items s.subsHt, s.sub p ≠ some ⟨c, bit⟩ := fun p hp hsub =>
      hbit ((held_self hc).mp ((h.index.keeps c bit).mpr ⟨p, hp, hsub⟩))
    refine ⟨List.filter_eq_nil_iff.mpr fun p hp => ?_, List.filter_eq_nil_iff.mpr fun p hp => ?_,
      fun q hq => hnone q (h.index.kept q _ hq) hq⟩
    · rw [decide_eq_true_iff]
      exact hnone p hp
    · rw [decide_eq_true_iff]
      exact hnone p (hsubs p hp)

structure Sound (ht : Htable Word Ptr) (s : State) : Prop where
  /-- Each client in the table has its records. -/
  indexed : ∀ c ∈ Places.items s.clientHt, ∃ cl, s.client c = some cl ∧ ∀ bit, Indexed s c cl bit
  /-- A process is one client. -/
  one : ∀ p ∈ Places.items s.clientHt, ∀ q ∈ Places.items s.clientHt,
    (s.client p).map (pidof ·.recvTid) = (s.client q).map (pidof ·.recvTid) → p = q
  /-- The next call returns, unless the server aborts. -/
  returns : ∀ call : Call, Returns (fun _ => True) (setmask ht s call.sender call.or call.and call.mem)

/-- **The subscription index agrees with the masks**, after any calls of `setmask`. -/
theorem subs_indexed {calls : List Call} (h : Run (exec ht) free .init calls s) : Sound ht s := by
  have hinv := inv_of_run h
  refine ⟨fun c hc => ?_, hinv.known.one, fun call => (hinv.setmask _ _ _ _).mono fun _ _ => trivial⟩
  obtain ⟨⟨g, p⟩, hmem, rfl⟩ := List.mem_map.mp hc
  obtain ⟨cl, hcl, -⟩ := hinv.known.live g p hmem
  exact ⟨cl, hcl, hinv.indexed hcl⟩

def appending : Htable Word Ptr where
  same g h := g == h
  put t x := t ++ [some x]
  same_self h := beq_self_eq_true h
  put_perm t x := by
    rw [List.reduceOption_append]
    exact List.perm_append_singleton x _

def highestBit : List Call :=
  [⟨⟨71, 18⟩, 0x80000006, 0, [(0x100, true), (0x200, true), (0x210, true), (0x220, true)]⟩, ⟨⟨71, 18⟩, 0, 0x80000002, []⟩]

theorem subs_indexed_highestBit : ∃ s, Run (exec appending) free .init highestBit s ∧ Sound appending s := by
  have hrun : Run (exec appending) free .init highestBit _ := .cons trivial rfl (.cons trivial rfl (.nil _))
  exact ⟨_, hrun, subs_indexed hrun⟩

def Call.update (call : Call) : Sysmsg.Update := .setmask call.sender call.or call.and

theorem run_refines {s₀ : State} {t₀ : Sysmsg.State} {calls : List Call} (h : Run (exec ht) free s₀ calls s) (h₀ : Inv s₀)
    (ha : Abstracts s₀ t₀) (salt : ℕ → Word) : ∃ t, Run (Sysmsg.exec salt) free t₀ (calls.map Call.update) t ∧ Abstracts s t := by
  induction h generalizing t₀ with
  | nil s => exact ⟨t₀, .nil _, ha⟩
  | @cons s u v call calls _ hs _ ih =>
    have hstep : Returns _ (setmask ht s call.sender call.or call.and call.mem) := setmask_refines h₀ ha _ _ _ _
    have hu : ∃ r, setmask ht s call.sender call.or call.and call.mem = .ok r ∧ r.1 = u := by
      rw [exec] at hs
      cases hr : setmask ht s call.sender call.or call.and call.mem with
      | error e => simp [hr, Except.map, Except.toOption] at hs
      | ok r => exact ⟨r, rfl, by simpa [hr, Except.map, Except.toOption] using hs⟩
    obtain ⟨r, hr, rfl⟩ := hu
    rw [hr] at hstep
    obtain ⟨t, ht, hat⟩ := ih (h₀.exec hs) hstep.1
    exact ⟨t, .cons trivial rfl ht, hat⟩

/-- **The records implement the masks**: what the tables tell after any calls of `setmask` is what the masks
alone come to. -/
theorem records_refine {calls : List Call} (h : Run (exec ht) free .init calls s) (salt : ℕ → Word) :
    ∃ t, Run (Sysmsg.exec salt) free .init (calls.map Call.update) t ∧ Abstracts s t :=
  run_refines h .init (fun _ => rfl) salt

theorem records_refine_highestBit : ∃ s t, Run (Sysmsg.exec fun _ => 0) free .init (highestBit.map Call.update) t ∧
    Abstracts s t := by
  have hrun : Run (exec appending) free .init highestBit _ := .cons trivial rfl (.cons trivial rfl (.nil _))
  obtain ⟨t, ht⟩ := records_refine hrun fun _ => 0
  exact ⟨_, t, ht⟩

end Sneks.Sysmsg.Subs
