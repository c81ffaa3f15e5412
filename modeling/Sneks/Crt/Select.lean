import Sneks.Lib.Run
import Mathlib.Data.List.Nodup
import Mathlib.Data.Int.Notation

/-!
# `select`

`select` of `user/crt/poll.c`, on top of an `epoll` instance of its own. The sets are gone through a
word at a time, and a member is taken out of them when it is added to the instance. One static empty
set stands in for those that are absent.

`epoll_create1` is taken to succeed. `epoll_ctl` may fail, and what `epoll_wait` reports of the
readiness of descriptors is given: it has error and hangup unasked. How long it waits is left out. A
failed assertion and an access past the end of a set are `none`.
-/

namespace Sneks.Crt
open Lib

abbrev FdSet := BitVec 1024

def FdSet.limb (s : FdSet) (j : ℕ) : BitVec 32 := s.extractLsb' (32 * j) 32

def FdSet.set (s : FdSet) (fd : ℕ) : FdSet := s ||| BitVec.twoPow 1024 fd

def FdSet.clr (s : FdSet) (fd : ℕ) : FdSet := s &&& ~~~BitVec.twoPow 1024 fd

/-- `ffsl`: one more than the lowest bit set, or 0. -/
def ffsl (w : BitVec 32) : ℕ :=
  match (List.range 32).find? (w.getLsbD ·) with
  | some i => i + 1
  | none => 0

def EPOLLIN : BitVec 32 := 0x001
def EPOLLOUT : BitVec 32 := 0x004
def EPOLLERR : BitVec 32 := 0x008
def EPOLLHUP : BitVec 32 := 0x010
def EPOLLEXCLUSIVE : BitVec 32 := 0x10000000

inductive SelectErrno
  | EINVAL
  /-- An error of `epoll_ctl`. -/
  | ctl (n : ℕ)
  deriving DecidableEq

/-- What `select` is given, and the descriptors as `epoll` finds them. -/
structure SelectCall where
  nfds : ℤ
  rd : Option FdSet
  wr : Option FdSet
  ex : Option FdSet
  /-- The error of `epoll_ctl(epfd, EPOLL_CTL_ADD, fd, ..)`, if it fails. -/
  ctl : ℕ → Option ℕ
  ready : ℕ → BitVec 32
  /-- The order of what `epoll_wait` reports. -/
  order : List (BitVec 32 × ℕ) → List (BitVec 32 × ℕ)
  order_perm : ∀ l, (order l).Perm l

structure Watching where
  rd : Option FdSet
  wr : Option FdSet
  ex : Option FdSet
  added : List (ℕ × BitVec 32)

namespace SelectCall

variable (c : SelectCall) (dummy : FdSet)

/-- `FD_ISSET`, the assertion that the set is not the one that stands in, and `FD_CLR`; with what to watch for. -/
def takeMember (ev : BitVec 32) (i : ℕ) (p : Option FdSet) : Option (Option FdSet × BitVec 32) :=
  if (p.getD dummy).getLsbD i then p.map fun s => (some (s.clr i), ev) else some (p, 0)

def watchMember (w : Watching) (i : ℕ) : Option (Except SelectErrno Watching) := do
  let (rd, evs) ← takeMember dummy EPOLLIN i w.rd
  let (wr, evs') ← takeMember dummy EPOLLOUT i w.wr
  let (ex, evs'') ← takeMember dummy EPOLLERR i w.ex
  let evs := evs ||| evs' ||| evs''
  if evs = 0 then none
  else
    match c.ctl i with
    | some e => some (.error (.ctl e))
    | none => some (.ok { rd, wr, ex, added := w.added ++ [(i, evs ||| EPOLLEXCLUSIVE)] })

def watchLimb (j : ℕ) : ℕ → Watching → Option (Except SelectErrno Watching)
  | 0, _ => none
  | n + 1, w =>
    let i := ffsl ((w.rd.getD dummy).limb j ||| (w.wr.getD dummy).limb j ||| (w.ex.getD dummy).limb j)
    if i = 0 then some (.ok w)
    else do
      match ← c.watchMember dummy w (i + j * 32 - 1) with
      | .error e => some (.error e)
      | .ok w => watchLimb j n w

/-- From word `j` on, `n` of them. No word has more than 32 rounds with a member. -/
def watchLimbs (j : ℕ) : ℕ → Watching → Option (Except SelectErrno Watching)
  | 0, w => some (.ok w)
  | n + 1, w =>
    if 32 ≤ j then none
    else do
      match ← c.watchLimb dummy j 33 w with
      | .error e => some (.error e)
      | .ok w => watchLimbs (j + 1) n w

/-- What `epoll_wait` reports: of each descriptor what is ready of what it is watched for, error and hangup. -/
def report (added : List (ℕ × BitVec 32)) : List (BitVec 32 × ℕ) :=
  (added.map fun x => (c.ready x.1 &&& (x.2 ||| EPOLLERR ||| EPOLLHUP), x.1)).filter fun ev => ev.1 ≠ 0

/-- `epoll_wait`, which refuses to report no events. -/
def epollWait (added : List (ℕ × BitVec 32)) : Except SelectErrno (List (BitVec 32 × ℕ)) :=
  if added.length ≤ 0 then .error .EINVAL else .ok (c.order (c.report added))

def putMember (ev : BitVec 32) (e : BitVec 32 × ℕ) (p : Option FdSet) : Option (Option FdSet) :=
  if e.1 &&& ev ≠ 0 then p.map fun s => some (s.set e.2) else some p

def writeBack : List (BitVec 32 × ℕ) → Watching → ℕ → Option (Watching × ℕ)
  | [], w, count => some (w, count)
  | e :: es, w, count => do
    let rd ← putMember EPOLLIN e w.rd
    let wr ← putMember EPOLLOUT e w.wr
    let ex ← putMember EPOLLERR e w.ex
    writeBack es { w with rd, wr, ex }
      (if e.1 &&& (EPOLLIN ||| EPOLLOUT ||| EPOLLERR) ≠ 0 then count + 1 else count)

/-- `select`: the count, and the sets with what was watched. -/
def select : Option (Except SelectErrno (ℕ × Watching)) :=
  if c.nfds < 0 then some (.error .EINVAL)
  else do
    let limbs := ((c.nfds + 32 - 1) / 32).toNat
    match ← c.watchLimbs dummy 0 limbs ⟨c.rd, c.wr, c.ex, []⟩ with
    | .error e => some (.error e)
    | .ok w =>
      match c.epollWait w.added with
      | .error e => some (.error e)
      | .ok evs => do
        let (w, count) ← writeBack evs w 0
        some (.ok (count, w))

def exec (dummy : FdSet) (c : SelectCall) : Option FdSet := (c.select dummy).map fun _ => dummy

def isMember (i : ℕ) : Bool := (c.rd.getD 0#1024).getLsbD i || (c.wr.getD 0#1024).getLsbD i || (c.ex.getD 0#1024).getLsbD i

def card (p : Option FdSet) : ℕ := (List.range 1024).countP fun i => (p.getD 0#1024).getLsbD i

/-- What is left of a set are its members below `nfds` for which the event is ready. -/
def ReadyOf (ev : BitVec 32) (p p' : Option FdSet) : Prop :=
  (p'.isSome ↔ p.isSome) ∧
    ∀ i, (p'.getD 0#1024).getLsbD i = true ↔ (i : ℤ) < c.nfds ∧ (p.getD 0#1024).getLsbD i = true ∧ c.ready i &&& ev ≠ 0

/-- What is wanted: members below `nfds` are watched, each once, the sets have what is ready of them, and the
    count is that of their members; an error says that `nfds` is negative or that a member cannot be watched. -/
def Exact (dummy : FdSet) : Prop :=
  match c.select dummy with
  | none => False
  | some (.error _) => c.nfds < 0 ∨ ∃ i : ℕ, i < c.nfds ∧ c.isMember i ∧ c.ctl i ≠ none
  | some (.ok (count, w)) =>
    (∀ i : ℕ, i ∈ w.added.map Prod.fst ↔ (i : ℤ) < c.nfds ∧ c.isMember i) ∧ (w.added.map Prod.fst).Nodup ∧
      c.ReadyOf EPOLLIN c.rd w.rd ∧ c.ReadyOf EPOLLOUT c.wr w.wr ∧ c.ReadyOf EPOLLERR c.ex w.ex ∧
      count = card w.rd + card w.wr + card w.ex

def OneWay (i : ℕ) : Prop :=
  let rd := (c.rd.getD 0#1024).getLsbD i ∧ c.ready i &&& EPOLLIN ≠ 0
  let wr := (c.wr.getD 0#1024).getLsbD i ∧ c.ready i &&& EPOLLOUT ≠ 0
  let ex := (c.ex.getD 0#1024).getLsbD i ∧ c.ready i &&& EPOLLERR ≠ 0
  ¬ (rd ∧ wr) ∧ ¬ (rd ∧ ex) ∧ ¬ (wr ∧ ex)

/-- **The condition**: the sets have members, all of them below `nfds`, which is no more than they hold; those with an
    error are members of the third set; and no descriptor is ready as a member of two. Otherwise there is an error
    to return. -/
def Usual : Prop :=
  c.nfds < 0 ∨ (∃ i : ℕ, i < c.nfds ∧ c.isMember i ∧ c.ctl i ≠ none) ∨
    c.nfds ≤ 1024 ∧ (∃ i, c.isMember i) ∧ (∀ i : ℕ, c.isMember i → (i : ℤ) < c.nfds) ∧
      ∀ i, c.isMember i → (c.ready i &&& EPOLLERR ≠ 0 → (c.ex.getD 0#1024).getLsbD i) ∧ c.OneWay i

end SelectCall

-- Sets

variable {c : SelectCall} {s : FdSet} {w w' : Watching} {i j k n : ℕ} {ev : BitVec 32} {p : Option FdSet}

@[simp] theorem FdSet.set_bit : (s.set i).getLsbD k = (s.getLsbD k || decide (k < 1024 ∧ k = i)) := by
  rw [FdSet.set, BitVec.getLsbD_or, BitVec.getLsbD_twoPow]
  by_cases h : k = i
  · simp [h]
  · simp [h, Ne.symm h]

@[simp] theorem FdSet.clr_bit : (s.clr i).getLsbD k = (s.getLsbD k && decide (k ≠ i)) := by
  rw [FdSet.clr, BitVec.getLsbD_and, BitVec.getLsbD_not, BitVec.getLsbD_twoPow]
  by_cases h : k = i
  · subst h
    by_cases hk : k < 1024
    · simp [hk]
    · simp [BitVec.getLsbD_of_ge s k (Nat.not_lt.mp hk)]
  · by_cases hk : k < 1024
    · simp [h, hk, Ne.symm h]
    · simp [BitVec.getLsbD_of_ge s k (Nat.not_lt.mp hk)]

theorem FdSet.limb_bit : (s.limb j).getLsbD k = (decide (k < 32) && s.getLsbD (32 * j + k)) := by
  rw [FdSet.limb, BitVec.getLsbD_extractLsb']

theorem takeMember_zero : SelectCall.takeMember 0#1024 ev i p =
    some (p.map fun s => FdSet.clr s i, if (p.getD 0#1024).getLsbD i then ev else 0) := by
  rw [SelectCall.takeMember]
  split
  · cases p with
    | none => simp_all
    | some s => rfl
  · next hno =>
    cases p with
    | none => rfl
    | some s =>
      have hsame : s.clr i = s := by
        refine BitVec.eq_of_getLsbD_eq fun k _ => ?_
        rw [FdSet.clr_bit]
        by_cases hk : k = i
        · rw [hk]
          simpa using hno
        · simp [hk]
      rw [Option.map_some, hsame]

theorem ffsl_cases (x : BitVec 32) : (ffsl x = 0 ∧ ∀ b < 32, x.getLsbD b = false) ∨
    ∃ b < 32, ffsl x = b + 1 ∧ x.getLsbD b = true ∧ ∀ k < b, x.getLsbD k = false := by
  rw [ffsl]
  split
  · next b hb =>
    obtain ⟨hbit, hlt, hleast⟩ := List.find?_range_eq_some.mp hb
    exact .inr ⟨b, List.mem_range.mp hlt, rfl, hbit, fun k hk => by simpa using hleast k hk⟩
  · next hnone =>
    refine .inl ⟨rfl, fun b hb => ?_⟩
    simpa using List.find?_eq_none.mp hnone b (List.mem_range.mpr hb)

-- What is watched

namespace Watching

def has (w : Watching) (i : ℕ) : Bool := (w.rd.getD 0#1024).getLsbD i || (w.wr.getD 0#1024).getLsbD i || (w.ex.getD 0#1024).getLsbD i

def evs (w : Watching) (i : ℕ) : BitVec 32 :=
  (if (w.rd.getD 0#1024).getLsbD i then EPOLLIN else 0) ||| (if (w.wr.getD 0#1024).getLsbD i then EPOLLOUT else 0) |||
    (if (w.ex.getD 0#1024).getLsbD i then EPOLLERR else 0)

def taken (w : Watching) (i : ℕ) : Watching where
  rd := w.rd.map fun s => FdSet.clr s i
  wr := w.wr.map fun s => FdSet.clr s i
  ex := w.ex.map fun s => FdSet.clr s i
  added := w.added ++ [(i, w.evs i ||| EPOLLEXCLUSIVE)]

theorem clr_getD {p : Option FdSet} :
    ((p.map fun s => FdSet.clr s i).getD 0#1024).getLsbD k = ((p.getD 0#1024).getLsbD k && decide (k ≠ i)) := by
  cases p with
  | none => simp
  | some s => simp

theorem taken_has : (w.taken i).has k = (w.has k && decide (k ≠ i)) := by
  simp only [has, taken, clr_getD]
  cases decide (k ≠ i) <;> simp

theorem taken_evs (h : k ≠ i) : (w.taken i).evs k = w.evs k := by
  simp [evs, taken, clr_getD, h]

theorem evs_ne_zero (h : w.has i = true) : w.evs i ≠ 0 := by
  have hbits : ∀ a b c : Bool, (a || b || c) = true →
      ((if a then EPOLLIN else 0) ||| (if b then EPOLLOUT else 0) ||| (if c then EPOLLERR else 0) : BitVec 32) ≠ 0 := by
    decide
  exact hbits _ _ _ h

theorem has_lt (h : w.has i = true) : i < 1024 := by
  by_contra hge
  have hout : ∀ s : FdSet, s.getLsbD i = false := fun s => BitVec.getLsbD_of_ge s i (Nat.not_lt.mp hge)
  simp [has, hout] at h

end Watching

def SelectCall.addAll (c : SelectCall) : List ℕ → Watching → Except SelectErrno Watching
  | [], w => .ok w
  | i :: is, w =>
    match c.ctl i with
    | some e => .error (.ctl e)
    | none => c.addAll is (w.taken i)

theorem addAll_append (is js : List ℕ) : c.addAll (is ++ js) w =
    match c.addAll is w with
    | .error e => .error e
    | .ok w => c.addAll js w := by
  induction is generalizing w with
  | nil => rfl
  | cons i is ih =>
    rw [List.cons_append, SelectCall.addAll, SelectCall.addAll]
    cases c.ctl i with
    | some e => rfl
    | none => exact ih

theorem addAll_has {is : List ℕ} (h : c.addAll is w = .ok w') : w'.has k = (w.has k && decide (k ∉ is)) := by
  induction is generalizing w with
  | nil =>
    cases h
    simp
  | cons i is ih =>
    rw [SelectCall.addAll] at h
    cases hctl : c.ctl i with
    | some e =>
      rw [hctl] at h
      cases h
    | none =>
      rw [hctl] at h
      rw [ih h, Watching.taken_has]
      by_cases hk : k = i
      · simp [hk]
      · simp [hk]

theorem watchMember_eq (h : w.has i = true) : c.watchMember 0#1024 w i =
    some (match c.ctl i with
      | some e => .error (.ctl e)
      | none => .ok (w.taken i)) := by
  have hne := Watching.evs_ne_zero h
  simp only [SelectCall.watchMember, takeMember_zero, Option.bind_eq_bind, Option.bind_some]
  rw [Watching.evs] at hne
  rw [if_neg hne]
  cases c.ctl i with
  | some e => rfl
  | none => rfl

def Watching.within (w : Watching) (start n : ℕ) : List ℕ := (List.range' start n).filter w.has

theorem within_append (start n m : ℕ) : w.within start (n + m) = w.within start n ++ w.within (start + n) m := by
  rw [Watching.within, ← List.range'_append_1, List.filter_append]
  rfl

theorem within_eq_nil (h : ∀ i, k ≤ i → i < k + n → w.has i = false) : w.within k n = [] := by
  refine List.filter_eq_nil_iff.mpr fun i hi => ?_
  obtain ⟨hle, hlt⟩ := List.mem_range'_1.mp hi
  simp [h i hle hlt]

theorem watchLimb_eq (b : ℕ) (hb : b ≤ 32) (hbelow : ∀ k < b, w.has (32 * j + k) = false) (hn : 33 - b ≤ n) :
    c.watchLimb 0#1024 j n w = some (c.addAll (w.within (32 * j + b) (32 - b)) w) := by
  induction n generalizing b w with
  | zero => omega
  | succ n ih =>
    have hbit : ∀ k < 32, ((w.rd.getD 0#1024).limb j ||| (w.wr.getD 0#1024).limb j ||| (w.ex.getD 0#1024).limb j).getLsbD k =
        w.has (32 * j + k) := fun k hk => by
      simp only [BitVec.getLsbD_or, FdSet.limb_bit, Watching.has, hk, decide_true, Bool.true_and]
    rw [SelectCall.watchLimb]
    obtain ⟨hzero, hnone⟩ | ⟨k, hk, hfound, hset, hleast⟩ :=
      ffsl_cases ((w.rd.getD 0#1024).limb j ||| (w.wr.getD 0#1024).limb j ||| (w.ex.getD 0#1024).limb j)
    · rw [hzero, within_eq_nil fun i hle hlt => ?_]
      · rfl
      · have hi := hnone (i - 32 * j) (by omega)
        rwa [hbit _ (by omega), Nat.add_sub_of_le (by omega)] at hi
    · rw [hbit k hk] at hset
      have hbk : b ≤ k := by
        by_contra hlt
        rw [hbelow k (by omega)] at hset
        cases hset
      have hsplit : w.within (32 * j + b) (32 - b) = (32 * j + k) :: w.within (32 * j + (k + 1)) (32 - (k + 1)) := by
        have hlen : 32 - b = (k - b) + (1 + (32 - (k + 1))) := by omega
        rw [hlen, within_append, within_append, within_eq_nil fun i hle hlt => ?_]
        · have hstart : 32 * j + b + (k - b) = 32 * j + k := by omega
          rw [hstart, Watching.within, List.range'_one, List.filter_singleton, hset]
          rfl
        · have hi := hleast (i - 32 * j) (by omega)
          rwa [hbit _ (by omega), Nat.add_sub_of_le (by omega)] at hi
      have hfd : k + 1 + j * 32 - 1 = 32 * j + k := by omega
      rw [hfound, if_neg (Nat.succ_ne_zero k), hfd, watchMember_eq hset, hsplit, SelectCall.addAll]
      cases c.ctl (32 * j + k) with
      | some e => rfl
      | none =>
        have hrest : (w.taken (32 * j + k)).within (32 * j + (k + 1)) (32 - (k + 1)) =
            w.within (32 * j + (k + 1)) (32 - (k + 1)) := by
          refine List.filter_congr fun i hi => ?_
          have hle := (List.mem_range'_1.mp hi).1
          rw [Watching.taken_has, decide_eq_true (by omega), Bool.and_true]
        rw [← hrest]
        refine ih (k + 1) (by omega) (fun k' hk' => ?_) (by omega)
        rw [Watching.taken_has]
        by_cases heq : k' = k
        · simp [heq]
        · rw [← hbit k' (by omega), hleast k' (by omega), Bool.false_and]

theorem watchLimbs_eq (h : j + n ≤ 32) : c.watchLimbs 0#1024 j n w = some (c.addAll (w.within (32 * j) (32 * n)) w) := by
  induction n generalizing j w with
  | zero => rfl
  | succ n ih =>
    have hlen : 32 * (n + 1) = 32 + 32 * n := by omega
    rw [SelectCall.watchLimbs, if_neg (by omega), watchLimb_eq 0 (Nat.zero_le _) (fun _ hk => absurd hk (Nat.not_lt_zero _)) (Nat.le_refl _),
      hlen, within_append, addAll_append]
    cases hadd : c.addAll (w.within (32 * j) 32) w with
    | error e => rfl
    | ok w' =>
      have hrest : w'.within (32 * j + 32) (32 * n) = w.within (32 * j + 32) (32 * n) := by
        refine List.filter_congr fun i hi => ?_
        rw [addAll_has hadd, decide_eq_true, Bool.and_true]
        intro hmem
        have hlt := (List.mem_range'_1.mp (List.mem_of_mem_filter hmem)).2
        have hle := (List.mem_range'_1.mp hi).1
        omega
      show c.watchLimbs 0#1024 (j + 1) n w' = _
      rw [ih (by omega), ← hrest]
      rfl

theorem watchLimbs_add (a b : ℕ) : c.watchLimbs 0#1024 j (a + b) w =
    match c.watchLimbs 0#1024 j a w with
    | some (.ok w) => c.watchLimbs 0#1024 (j + a) b w
    | r => r := by
  induction a generalizing j w with
  | zero =>
    rw [Nat.zero_add]
    rfl
  | succ a ih =>
    rw [Nat.succ_add, SelectCall.watchLimbs, SelectCall.watchLimbs]
    split
    · rfl
    · cases c.watchLimb 0#1024 j 33 w with
      | none => rfl
      | some r =>
        cases r with
        | error e => rfl
        | ok w' =>
          show c.watchLimbs 0#1024 (j + 1) (a + b) w' = _
          rw [ih, Nat.add_right_comm j 1 a]
          rfl

theorem watchLimbs_past (h : 32 < n) : c.watchLimbs 0#1024 0 n w =
    match c.addAll (w.within 0 1024) w with
    | .error e => some (.error e)
    | .ok _ => none := by
  obtain ⟨m, rfl⟩ := Nat.exists_eq_add_of_lt h
  rw [Nat.add_assoc, watchLimbs_add, watchLimbs_eq (Nat.le_refl _)]
  dsimp only [Nat.mul_zero]
  cases c.addAll (w.within 0 1024) w with
  | error e => rfl
  | ok w' => rfl

theorem addAll_error {l : List ℕ} (h : ∃ i ∈ l, c.ctl i ≠ none) :
    ∃ i ∈ l, ∃ e, c.ctl i = some e ∧ c.addAll l w = .error (.ctl e) := by
  induction l generalizing w with
  | nil => simp at h
  | cons i is ih =>
    rw [SelectCall.addAll]
    cases hctl : c.ctl i with
    | some e => exact ⟨i, List.mem_cons_self, e, hctl, rfl⟩
    | none =>
      obtain ⟨k, hk, hfail⟩ := h
      have hne : k ≠ i := fun he => hfail (he ▸ hctl)
      obtain ⟨i', hi', e, he, hadd⟩ := ih (w := w.taken i) ⟨k, (List.mem_cons.mp hk).resolve_left hne, hfail⟩
      exact ⟨i', List.mem_cons_of_mem i hi', e, he, hadd⟩

def Without (l : List ℕ) (p p' : Option FdSet) : Prop :=
  (p'.isSome ↔ p.isSome) ∧ ∀ k, (p'.getD 0#1024).getLsbD k = ((p.getD 0#1024).getLsbD k && decide (k ∉ l))

theorem Without.cons {l : List ℕ} {p p' : Option FdSet} (h : Without l (p.map fun s => FdSet.clr s i) p') :
    Without (i :: l) p p' := by
  refine ⟨h.1.trans (by rw [Option.isSome_map]), fun k => ?_⟩
  rw [h.2 k, Watching.clr_getD]
  by_cases hk : k = i
  · simp [hk]
  · simp [hk]

theorem addAll_ok {l : List ℕ} (hnodup : l.Nodup) (h : ∀ i ∈ l, c.ctl i = none) :
    ∃ w', c.addAll l w = .ok w' ∧ Without l w.rd w'.rd ∧ Without l w.wr w'.wr ∧ Without l w.ex w'.ex ∧
      w'.added = w.added ++ l.map fun i => (i, w.evs i ||| EPOLLEXCLUSIVE) := by
  induction l generalizing w with
  | nil => exact ⟨w, rfl, ⟨Iff.rfl, by simp⟩, ⟨Iff.rfl, by simp⟩, ⟨Iff.rfl, by simp⟩, by simp⟩
  | cons i is ih =>
    obtain ⟨hnot, hnodup⟩ := List.nodup_cons.mp hnodup
    obtain ⟨w', hadd, hrd, hwr, hex, hadded⟩ := ih (w := w.taken i) hnodup fun k hk => h k (List.mem_cons_of_mem i hk)
    refine ⟨w', ?_, hrd.cons, hwr.cons, hex.cons, ?_⟩
    · rw [SelectCall.addAll, h i List.mem_cons_self]
      exact hadd
    · have hsame : is.map (fun k => (k, (w.taken i).evs k ||| EPOLLEXCLUSIVE)) = is.map fun k => (k, w.evs k ||| EPOLLEXCLUSIVE) :=
        List.map_congr_left fun k hk => by
          have hne : k ≠ i := fun he => hnot (he ▸ hk)
          rw [Watching.taken_evs hne]
      rw [hadded, hsame, Watching.taken, List.append_assoc, List.map_cons, List.singleton_append]

-- What is written back

theorem and_ne_zero_iff (x : BitVec 32) {b : ℕ} (hb : b < 32) : x &&& BitVec.twoPow 32 b ≠ 0 ↔ x.getLsbD b = true := by
  rw [BitVec.and_twoPow]
  cases x.getLsbD b with
  | false => simp
  | true =>
    simp only [if_true, iff_true]
    intro hzero
    have hbit : (BitVec.twoPow 32 b).getLsbD b = true := by rw [BitVec.getLsbD_twoPow]; simp [hb]
    rw [hzero] at hbit
    simp at hbit

theorem and_in (x : BitVec 32) : x &&& EPOLLIN ≠ 0 ↔ x.getLsbD 0 = true := and_ne_zero_iff x (show 0 < 32 by decide)
theorem and_out (x : BitVec 32) : x &&& EPOLLOUT ≠ 0 ↔ x.getLsbD 2 = true := and_ne_zero_iff x (show 2 < 32 by decide)
theorem and_err (x : BitVec 32) : x &&& EPOLLERR ≠ 0 ↔ x.getLsbD 3 = true := and_ne_zero_iff x (show 3 < 32 by decide)

def Written (ev : BitVec 32) (es : List (BitVec 32 × ℕ)) (p p' : Option FdSet) : Prop :=
  (p'.isSome ↔ p.isSome) ∧ ∀ k, (p'.getD 0#1024).getLsbD k = true ↔
    (p.getD 0#1024).getLsbD k = true ∨ k < 1024 ∧ ∃ e ∈ es, e.1 &&& ev ≠ 0 ∧ e.2 = k

theorem Written.trans {e : BitVec 32 × ℕ} {es : List (BitVec 32 × ℕ)} {p q r : Option FdSet} (h : Written ev [e] p q)
    (h' : Written ev es q r) : Written ev (e :: es) p r := by
  refine ⟨h'.1.trans h.1, fun k => ?_⟩
  rw [h'.2 k, h.2 k]
  have hsplit : (∃ x ∈ e :: es, x.1 &&& ev ≠ 0 ∧ x.2 = k) ↔
      (∃ x ∈ [e], x.1 &&& ev ≠ 0 ∧ x.2 = k) ∨ ∃ x ∈ es, x.1 &&& ev ≠ 0 ∧ x.2 = k := by
    simp only [List.mem_cons, List.not_mem_nil, or_false, or_and_right, exists_or]
  rw [hsplit, or_assoc, ← and_or_left]

theorem putMember_ok {e : BitVec 32 × ℕ} {p : Option FdSet} (h : e.1 &&& ev ≠ 0 → p ≠ none) :
    ∃ p', SelectCall.putMember ev e p = some p' ∧ Written ev [e] p p' := by
  rw [SelectCall.putMember]
  split
  · next hev =>
    obtain ⟨s, rfl⟩ := Option.ne_none_iff_exists'.mp (h hev)
    refine ⟨some (FdSet.set s e.2), rfl, Iff.rfl, fun k => ?_⟩
    rw [Option.getD_some, Option.getD_some, FdSet.set_bit, Bool.or_eq_true, decide_eq_true_eq]
    simp only [List.mem_singleton, exists_eq_left]
    exact or_congr Iff.rfl (and_congr Iff.rfl ⟨fun he => ⟨hev, he.symm⟩, fun he => he.2.symm⟩)
  · next hev =>
    refine ⟨p, rfl, Iff.rfl, fun k => ?_⟩
    simp only [List.mem_singleton, exists_eq_left, hev, false_and, and_false, or_false]

def counted (e : BitVec 32 × ℕ) : Bool := e.1 &&& (EPOLLIN ||| EPOLLOUT ||| EPOLLERR) ≠ 0

theorem writeBack_ok {es : List (BitVec 32 × ℕ)} {w : Watching} (hrd : ∀ e ∈ es, e.1 &&& EPOLLIN ≠ 0 → w.rd ≠ none)
    (hwr : ∀ e ∈ es, e.1 &&& EPOLLOUT ≠ 0 → w.wr ≠ none) (hex : ∀ e ∈ es, e.1 &&& EPOLLERR ≠ 0 → w.ex ≠ none) :
    ∃ w', SelectCall.writeBack es w n = some (w', n + es.countP counted) ∧ Written EPOLLIN es w.rd w'.rd ∧
      Written EPOLLOUT es w.wr w'.wr ∧ Written EPOLLERR es w.ex w'.ex ∧ w'.added = w.added := by
  induction es generalizing w n with
  | nil => exact ⟨w, rfl, ⟨Iff.rfl, by simp⟩, ⟨Iff.rfl, by simp⟩, ⟨Iff.rfl, by simp⟩, rfl⟩
  | cons e es ih =>
    have hstay : ∀ {ev : BitVec 32} {p q : Option FdSet}, Written ev [e] p q → (p ≠ none → q ≠ none) := fun h hne =>
      Option.isSome_iff_ne_none.mp (h.1.mpr (Option.isSome_iff_ne_none.mpr hne))
    obtain ⟨rd, hputrd, hwrd⟩ := putMember_ok (hrd e List.mem_cons_self)
    obtain ⟨wr, hputwr, hwwr⟩ := putMember_ok (hwr e List.mem_cons_self)
    obtain ⟨ex, hputex, hwex⟩ := putMember_ok (hex e List.mem_cons_self)
    obtain ⟨w', hrest, hrd', hwr', hex', hadded⟩ := ih (n := if e.1 &&& (EPOLLIN ||| EPOLLOUT ||| EPOLLERR) ≠ 0 then n + 1 else n)
      (w := { w with rd, wr, ex }) (fun e' he' hev => hstay hwrd (hrd e' (List.mem_cons_of_mem e he') hev))
      (fun e' he' hev => hstay hwwr (hwr e' (List.mem_cons_of_mem e he') hev))
      (fun e' he' hev => hstay hwex (hex e' (List.mem_cons_of_mem e he') hev))
    refine ⟨w', ?_, hwrd.trans hrd', hwwr.trans hwr', hwex.trans hex', hadded⟩
    rw [SelectCall.writeBack, hputrd, hputwr, hputex]
    simp only [Option.bind_eq_bind, Option.bind_some]
    rw [hrest, List.countP_cons]
    by_cases hev : e.1 &&& (EPOLLIN ||| EPOLLOUT ||| EPOLLERR) ≠ 0
    · have hcount : counted e = true := decide_eq_true hev
      rw [if_pos hev, hcount, if_pos rfl]
      congr 2
      omega
    · have hcount : counted e = false := decide_eq_false hev
      rw [if_neg hev, hcount]
      rfl

theorem writeBack_error {es : List (BitVec 32 × ℕ)} {w : Watching} {r : Watching × ℕ}
    (h : SelectCall.writeBack es w n = some r) : ∀ e ∈ es, e.1 &&& EPOLLERR ≠ 0 → w.ex ≠ none := by
  induction es generalizing w n with
  | nil => exact fun e he => absurd he List.not_mem_nil
  | cons e es ih =>
    simp only [SelectCall.writeBack, Option.bind_eq_bind, Option.bind_eq_some_iff] at h
    obtain ⟨rd, -, wr, -, ex, hex, h⟩ := h
    have hsame : ex = none ↔ w.ex = none := by
      rw [SelectCall.putMember] at hex
      split at hex
      · obtain ⟨s, hs, rfl⟩ := Option.map_eq_some_iff.mp hex
        simp [hs]
      · rw [Option.some.inj hex]
    intro e' he' hev
    obtain rfl | he' := List.mem_cons.mp he'
    · intro hnone
      rw [SelectCall.putMember, if_pos hev, hnone] at hex
      cases hex
    · exact fun hnone => ih h e' he' hev (hsame.mpr hnone)

-- What is reported

namespace SelectCall

def start (c : SelectCall) : Watching := ⟨c.rd, c.wr, c.ex, []⟩

def hit (c : SelectCall) (i : ℕ) : BitVec 32 :=
  c.ready i &&& ((c.start.evs i ||| EPOLLEXCLUSIVE) ||| EPOLLERR ||| EPOLLHUP)

def limbs (c : SelectCall) : ℕ := ((c.nfds + 32 - 1) / 32).toNat

def watched (c : SelectCall) : List ℕ := c.start.within 0 (32 * c.limbs)

theorem mem_watched : i ∈ c.watched ↔ i < 32 * c.limbs ∧ c.isMember i = true := by
  rw [watched, Watching.within, List.mem_filter, List.mem_range'_1, Nat.zero_add]
  simp [Watching.has, isMember, start]

theorem watched_nodup : c.watched.Nodup := List.Nodup.filter _ List.nodup_range'

theorem isMember_lt (h : c.isMember i = true) : i < 1024 := Watching.has_lt (w := c.start) h

theorem evs_bits (w : Watching) (i : ℕ) : (w.evs i).getLsbD 0 = (w.rd.getD 0#1024).getLsbD i ∧
    (w.evs i).getLsbD 2 = (w.wr.getD 0#1024).getLsbD i ∧ (w.evs i).getLsbD 3 = (w.ex.getD 0#1024).getLsbD i := by
  have hbits : ∀ a b d : Bool, let x : BitVec 32 := (if a then EPOLLIN else 0) ||| (if b then EPOLLOUT else 0) |||
      (if d then EPOLLERR else 0); x.getLsbD 0 = a ∧ x.getLsbD 2 = b ∧ x.getLsbD 3 = d := by
    decide
  exact hbits _ _ _

theorem hit_in : c.hit i &&& EPOLLIN ≠ 0 ↔ (c.rd.getD 0#1024).getLsbD i = true ∧ c.ready i &&& EPOLLIN ≠ 0 := by
  rw [and_in, and_in, hit, BitVec.getLsbD_and, BitVec.getLsbD_or, BitVec.getLsbD_or, BitVec.getLsbD_or, (evs_bits _ i).1,
    show EPOLLEXCLUSIVE.getLsbD 0 = false from rfl, show EPOLLERR.getLsbD 0 = false from rfl,
    show EPOLLHUP.getLsbD 0 = false from rfl, Bool.or_false, Bool.or_false, Bool.or_false, Bool.and_eq_true]
  exact and_comm

theorem hit_out : c.hit i &&& EPOLLOUT ≠ 0 ↔ (c.wr.getD 0#1024).getLsbD i = true ∧ c.ready i &&& EPOLLOUT ≠ 0 := by
  rw [and_out, and_out, hit, BitVec.getLsbD_and, BitVec.getLsbD_or, BitVec.getLsbD_or, BitVec.getLsbD_or, (evs_bits _ i).2.1,
    show EPOLLEXCLUSIVE.getLsbD 2 = false from rfl, show EPOLLERR.getLsbD 2 = false from rfl,
    show EPOLLHUP.getLsbD 2 = false from rfl, Bool.or_false, Bool.or_false, Bool.or_false, Bool.and_eq_true]
  exact and_comm

theorem hit_err : c.hit i &&& EPOLLERR ≠ 0 ↔ c.ready i &&& EPOLLERR ≠ 0 := by
  rw [and_err, and_err, hit, BitVec.getLsbD_and, BitVec.getLsbD_or, BitVec.getLsbD_or,
    show EPOLLERR.getLsbD 3 = true from rfl, Bool.or_true, Bool.true_or, Bool.and_true]

theorem counted_iff (e : BitVec 32 × ℕ) : counted e = true ↔
    e.1 &&& EPOLLIN ≠ 0 ∨ e.1 &&& EPOLLOUT ≠ 0 ∨ e.1 &&& EPOLLERR ≠ 0 := by
  have hor : ∀ a b : BitVec 32, a ||| b ≠ 0 ↔ a ≠ 0 ∨ b ≠ 0 := fun a b => by
    rw [Ne, show (0 : BitVec 32) = 0#32 from rfl, BitVec.or_eq_zero_iff, not_and_or]
  rw [counted, decide_eq_true_eq, BitVec.and_or_distrib_left, BitVec.and_or_distrib_left, hor, hor, or_assoc]

def events (c : SelectCall) : List (BitVec 32 × ℕ) := c.order (c.report (c.watched.map fun i => (i, c.start.evs i ||| EPOLLEXCLUSIVE)))

theorem mem_events (e : BitVec 32 × ℕ) : e ∈ c.events ↔ e.2 ∈ c.watched ∧ e.1 = c.hit e.2 ∧ e.1 ≠ 0 := by
  rw [events, (c.order_perm _).mem_iff, report, List.mem_filter, decide_eq_true_eq, List.map_map]
  constructor
  · rintro ⟨hmem, hne⟩
    obtain ⟨i, hi, rfl⟩ := List.mem_map.mp hmem
    exact ⟨hi, rfl, hne⟩
  · rintro ⟨hmem, hhit, hne⟩
    refine ⟨List.mem_map.mpr ⟨e.2, hmem, ?_⟩, hne⟩
    obtain ⟨x, i⟩ := e
    exact Prod.ext hhit.symm rfl

theorem exists_event : (∃ e ∈ c.events, e.1 &&& ev ≠ 0 ∧ e.2 = i) ↔ i ∈ c.watched ∧ c.hit i &&& ev ≠ 0 := by
  constructor
  · rintro ⟨e, he, hev, rfl⟩
    obtain ⟨hmem, hhit, -⟩ := (mem_events e).mp he
    exact ⟨hmem, hhit ▸ hev⟩
  · rintro ⟨hmem, hev⟩
    refine ⟨(c.hit i, i), (mem_events _).mpr ⟨hmem, rfl, fun hzero => hev ?_⟩, hev, rfl⟩
    dsimp only at hzero
    rw [hzero]
    exact BitVec.zero_and

theorem countP_events : c.events.countP counted = c.watched.countP fun i => counted (c.hit i, i) := by
  rw [events, (c.order_perm _).countP_eq, report, List.countP_filter, List.countP_map, List.countP_map]
  refine List.countP_congr fun i _ => ?_
  constructor
  · intro h
    exact (Bool.and_eq_true_iff.mp h).1
  · intro h
    have hcount : counted (c.hit i, i) = true := h
    refine Bool.and_eq_true_iff.mpr ⟨hcount, decide_eq_true fun hzero => ?_⟩
    have hzero : c.hit i = 0 := hzero
    rw [counted, hzero] at hcount
    simp at hcount

theorem select_added (hn : 0 ≤ c.nfds) (hle : c.nfds ≤ 1024) (hctl : ∀ i ∈ c.watched, c.ctl i = none) (hne : c.watched ≠ []) :
    ∃ w, c.select 0#1024 = ((writeBack c.events w 0).map fun r => .ok (r.2, r.1)) ∧ Without c.watched c.rd w.rd ∧
      Without c.watched c.wr w.wr ∧ Without c.watched c.ex w.ex ∧ w.added.map Prod.fst = c.watched := by
  have hlimbs : 0 + c.limbs ≤ 32 := by
    rw [limbs]
    omega
  obtain ⟨w, hadd, hrd, hwr, hex, hadded⟩ := addAll_ok (w := c.start) watched_nodup hctl
  refine ⟨w, ?_, hrd, hwr, hex, ?_⟩
  · have hlen : ¬ w.added.length ≤ 0 := by
      rw [hadded, start, List.nil_append, List.length_map]
      exact Nat.not_le.mpr (List.length_pos_iff.mpr hne)
    have hloop : c.watchLimbs 0#1024 0 c.limbs c.start = some (.ok w) := by
      rw [watchLimbs_eq hlimbs, ← hadd]
      rfl
    rw [select, if_neg (Int.not_lt.mpr hn)]
    show (c.watchLimbs 0#1024 0 c.limbs c.start).bind _ = _
    rw [hloop, Option.bind_some]
    dsimp only
    rw [epollWait, if_neg hlen, hadded]
    show (writeBack c.events w 0).bind _ = _
    cases writeBack c.events w 0 <;> rfl
  · rw [hadded, start, List.nil_append, List.map_map]
    exact List.map_id _

theorem bit_after {es : List (BitVec 32 × ℕ)} {p q r : Option FdSet} (hes : es = c.events) (h : Without c.watched p q)
    (h' : Written ev es q r) (k : ℕ) : (r.getD 0#1024).getLsbD k = true ↔
      (p.getD 0#1024).getLsbD k = true ∧ k ∉ c.watched ∨ k ∈ c.watched ∧ c.hit k &&& ev ≠ 0 := by
  rw [h'.2 k, h.2 k, Bool.and_eq_true, decide_eq_true_eq, hes, exists_event]
  refine or_congr Iff.rfl ⟨And.right, fun hmem => ⟨?_, hmem⟩⟩
  exact isMember_lt (mem_watched.mp hmem.1).2

theorem isSome_of_bit {p : Option FdSet} (h : (p.getD 0#1024).getLsbD i = true) : p ≠ none := by
  rintro rfl
  simp at h

theorem watched_iff (hbelow : ∀ i : ℕ, c.isMember i = true → (i : ℤ) < c.nfds) :
    i ∈ c.watched ↔ c.isMember i = true := by
  rw [mem_watched, and_iff_right_iff_imp]
  intro h
  have hlt := hbelow i h
  rw [limbs]
  omega

theorem card_eq {p p' : Option FdSet} (hbelow : ∀ i : ℕ, c.isMember i = true → (i : ℤ) < c.nfds)
    (hsub : ∀ i, (p.getD 0#1024).getLsbD i = true → c.isMember i = true) (h : c.ReadyOf ev p p') :
    card p' = c.watched.countP fun i => (p.getD 0#1024).getLsbD i && decide (c.ready i &&& ev ≠ 0) := by
  have hmem : ∀ i, (p'.getD 0#1024).getLsbD i = true ↔
      (p.getD 0#1024).getLsbD i = true ∧ c.ready i &&& ev ≠ 0 := fun i => by
    rw [h.2 i]
    exact ⟨And.right, fun hi => ⟨hbelow i (hsub i hi.1), hi⟩⟩
  have hperm : c.watched.Perm ((List.range 1024).filter c.isMember) := by
    refine (List.perm_ext_iff_of_nodup watched_nodup (List.Nodup.filter _ List.nodup_range)).mpr fun i => ?_
    rw [watched_iff hbelow, List.mem_filter, List.mem_range]
    exact ⟨fun hi => ⟨isMember_lt hi, hi⟩, And.right⟩
  rw [card, hperm.countP_eq, List.countP_filter]
  refine List.countP_congr fun i _ => ?_
  rw [hmem i, Bool.and_eq_true, Bool.and_eq_true, decide_eq_true_eq]
  exact ⟨fun hi => ⟨hi, hsub i hi.1⟩, And.left⟩

end SelectCall

theorem countP_or_le (a b d : ℕ → Bool) (l : List ℕ) :
    l.countP (fun i => a i || b i || d i) ≤ l.countP a + l.countP b + l.countP d := by
  induction l with
  | nil => exact Nat.zero_le _
  | cons i l ih =>
    simp only [List.countP_cons]
    cases a i <;> cases b i <;> cases d i <;> simp <;> omega

theorem countP_or_eq (a b d : ℕ → Bool) (l : List ℕ) :
    l.countP (fun i => a i || b i || d i) = l.countP a + l.countP b + l.countP d ↔
      ∀ i ∈ l, ¬ (a i ∧ b i) ∧ ¬ (a i ∧ d i) ∧ ¬ (b i ∧ d i) := by
  induction l with
  | nil => simp
  | cons i l ih =>
    have hle := countP_or_le a b d l
    rw [List.forall_mem_cons, ← ih]
    simp only [List.countP_cons]
    cases a i <;> cases b i <;> cases d i <;> simp <;> omega

namespace SelectCall

/-- The descriptors are those of the condition: below `nfds`, with errors for members of the third set only, and ready in
    one way. -/
def Fits (c : SelectCall) : Prop :=
  (∀ i : ℕ, c.isMember i → (i : ℤ) < c.nfds) ∧
    ∀ i, c.isMember i → (c.ready i &&& EPOLLERR ≠ 0 → (c.ex.getD 0#1024).getLsbD i) ∧ c.OneWay i

theorem isMember_of_bit (h : (c.rd.getD 0#1024).getLsbD i = true ∨ (c.wr.getD 0#1024).getLsbD i = true ∨
    (c.ex.getD 0#1024).getLsbD i = true) : c.isMember i = true := by
  rw [isMember, Bool.or_eq_true, Bool.or_eq_true, or_assoc]
  exact h

theorem counted_hit : counted (c.hit i, i) =
    ((c.rd.getD 0#1024).getLsbD i && decide (c.ready i &&& EPOLLIN ≠ 0) ||
      (c.wr.getD 0#1024).getLsbD i && decide (c.ready i &&& EPOLLOUT ≠ 0) || decide (c.ready i &&& EPOLLERR ≠ 0)) := by
  rw [Bool.eq_iff_iff, counted_iff, hit_in, hit_out, hit_err]
  simp only [Bool.or_eq_true, Bool.and_eq_true, decide_eq_true_eq, or_assoc]

theorem count_iff {p q r : Option FdSet} (hbelow : ∀ i : ℕ, c.isMember i = true → (i : ℤ) < c.nfds)
    (herr : ∀ i, c.isMember i = true → c.ready i &&& EPOLLERR ≠ 0 → (c.ex.getD 0#1024).getLsbD i = true)
    (hrd : c.ReadyOf EPOLLIN c.rd p) (hwr : c.ReadyOf EPOLLOUT c.wr q) (hex : c.ReadyOf EPOLLERR c.ex r) :
    c.events.countP counted = card p + card q + card r ↔ ∀ i, c.isMember i = true → c.OneWay i := by
  have hcount : c.events.countP counted = c.watched.countP fun i =>
      ((c.rd.getD 0#1024).getLsbD i && decide (c.ready i &&& EPOLLIN ≠ 0)) ||
        ((c.wr.getD 0#1024).getLsbD i && decide (c.ready i &&& EPOLLOUT ≠ 0)) ||
        ((c.ex.getD 0#1024).getLsbD i && decide (c.ready i &&& EPOLLERR ≠ 0)) := by
    rw [countP_events]
    refine List.countP_congr fun i hi => ?_
    have hmem := (watched_iff hbelow).mp hi
    rw [counted_hit]
    by_cases hready : c.ready i &&& EPOLLERR ≠ 0
    · rw [herr i hmem hready, Bool.true_and]
    · rw [decide_eq_false hready, Bool.and_false]
  rw [hcount, card_eq hbelow (fun i hi => isMember_of_bit (.inl hi)) hrd,
    card_eq hbelow (fun i hi => isMember_of_bit (.inr (.inl hi))) hwr,
    card_eq hbelow (fun i hi => isMember_of_bit (.inr (.inr hi))) hex, countP_or_eq]
  simp only [watched_iff hbelow, OneWay, Bool.and_eq_true, decide_eq_true_eq]

theorem ne_none_of_without {l : List ℕ} {p q : Option FdSet} (h : Without l p q) (hp : p ≠ none) : q ≠ none :=
  Option.isSome_iff_ne_none.mp (h.1.mpr (Option.isSome_iff_ne_none.mpr hp))

theorem fits_of_exact (hn : 0 ≤ c.nfds) (hle : c.nfds ≤ 1024) (hctl : ∀ i ∈ c.watched, c.ctl i = none) (hne : c.watched ≠ [])
    (h : c.Exact 0#1024) : c.Fits := by
  obtain ⟨w, hsel, hrd, hwr, hex, hadded⟩ := select_added hn hle hctl hne
  rw [Exact, hsel] at h
  cases hback : writeBack c.events w 0 with
  | none =>
    rw [hback] at h
    exact h.elim
  | some r =>
    obtain ⟨w', count⟩ := r
    rw [hback] at h
    obtain ⟨hwatch, -, hrd', hwr', hex', hcount⟩ := h
    have hevent : ∀ e ∈ c.events, e.1 = c.hit e.2 := fun e he => ((mem_events e).mp he).2.1
    obtain ⟨w'', hback', hwrd, hwwr, hwex, hadded'⟩ := writeBack_ok (n := 0)
      (fun e he hev => ne_none_of_without hrd (isSome_of_bit (hit_in.mp (hevent e he ▸ hev)).1))
      (fun e he hev => ne_none_of_without hwr (isSome_of_bit (hit_out.mp (hevent e he ▸ hev)).1)) (writeBack_error hback)
    cases hback.symm.trans hback'
    -- a member that is not watched stays in its set
    have hbelow : ∀ i : ℕ, c.isMember i = true → (i : ℤ) < c.nfds := fun i hi => by
      by_cases hmem : i ∈ c.watched
      · refine ((hwatch i).mp ?_).1
        rwa [hadded', hadded]
      · rw [isMember, Bool.or_eq_true, Bool.or_eq_true] at hi
        obtain (hi | hi) | hi := hi
        · exact ((hrd'.2 i).mp ((bit_after rfl hrd hwrd i).mpr (.inl ⟨hi, hmem⟩))).1
        · exact ((hwr'.2 i).mp ((bit_after rfl hwr hwwr i).mpr (.inl ⟨hi, hmem⟩))).1
        · exact ((hex'.2 i).mp ((bit_after rfl hex hwex i).mpr (.inl ⟨hi, hmem⟩))).1
    have herr : ∀ i, c.isMember i = true → c.ready i &&& EPOLLERR ≠ 0 → (c.ex.getD 0#1024).getLsbD i = true :=
      fun i hi hready => ((hex'.2 i).mp ((bit_after rfl hex hwex i).mpr
        (.inr ⟨(watched_iff hbelow).mpr hi, hit_err.mpr hready⟩))).2.1
    rw [Nat.zero_add] at hcount
    exact ⟨hbelow, fun i hi => ⟨herr i hi, (count_iff hbelow herr hrd' hwr' hex').mp hcount i hi⟩⟩

theorem exact_of_fits (hn : 0 ≤ c.nfds) (hle : c.nfds ≤ 1024) (hctl : ∀ i ∈ c.watched, c.ctl i = none) (hne : c.watched ≠ [])
    (h : c.Fits) : c.Exact 0#1024 := by
  obtain ⟨hbelow, hmembers⟩ := h
  have herr : ∀ i, c.isMember i = true → c.ready i &&& EPOLLERR ≠ 0 → (c.ex.getD 0#1024).getLsbD i = true :=
    fun i hi => (hmembers i hi).1
  obtain ⟨w, hsel, hrd, hwr, hex, hadded⟩ := select_added hn hle hctl hne
  have hevent : ∀ e ∈ c.events, e.2 ∈ c.watched ∧ e.1 = c.hit e.2 := fun e he =>
    ⟨((mem_events e).mp he).1, ((mem_events e).mp he).2.1⟩
  obtain ⟨w', hback, hwrd, hwwr, hwex, hadded'⟩ := writeBack_ok (n := 0)
    (fun e he hev => ne_none_of_without hrd (isSome_of_bit (hit_in.mp ((hevent e he).2 ▸ hev)).1))
    (fun e he hev => ne_none_of_without hwr (isSome_of_bit (hit_out.mp ((hevent e he).2 ▸ hev)).1))
    (fun e he hev => ne_none_of_without hex (isSome_of_bit (herr e.2 ((watched_iff hbelow).mp (hevent e he).1)
      (hit_err.mp ((hevent e he).2 ▸ hev)))))
  -- a member of a set is one that is watched
  have hready : ∀ {ev : BitVec 32} {p q r : Option FdSet}, Without c.watched p q → Written ev c.events q r →
      (∀ i, (p.getD 0#1024).getLsbD i = true → c.isMember i = true) →
      (∀ i, c.isMember i = true → (c.hit i &&& ev ≠ 0 ↔ (p.getD 0#1024).getLsbD i = true ∧ c.ready i &&& ev ≠ 0)) →
      c.ReadyOf ev p r := fun hw hw' hsub hhit => by
    refine ⟨hw'.1.trans hw.1, fun i => ?_⟩
    rw [bit_after rfl hw hw']
    constructor
    · rintro (⟨hi, hnot⟩ | ⟨hi, hev⟩)
      · exact absurd ((watched_iff hbelow).mpr (hsub i hi)) hnot
      · have hmem := (watched_iff hbelow).mp hi
        exact ⟨hbelow i hmem, (hhit i hmem).mp hev⟩
    · rintro ⟨-, hi, hev⟩
      exact .inr ⟨(watched_iff hbelow).mpr (hsub i hi), (hhit i (hsub i hi)).mpr ⟨hi, hev⟩⟩
  have hrd' := hready hrd hwrd (fun i hi => isMember_of_bit (.inl hi)) fun i _ => hit_in
  have hwr' := hready hwr hwwr (fun i hi => isMember_of_bit (.inr (.inl hi))) fun i _ => hit_out
  have hex' := hready hex hwex (fun i hi => isMember_of_bit (.inr (.inr hi))) fun i hi =>
    hit_err.trans ⟨fun hev => ⟨herr i hi hev, hev⟩, And.right⟩
  rw [Exact, hsel, hback]
  refine ⟨fun i => ?_, ?_, hrd', hwr', hex', ?_⟩
  · rw [hadded', hadded, watched_iff hbelow]
    exact ⟨fun hi => ⟨hbelow i hi, hi⟩, And.right⟩
  · rw [hadded', hadded]
    exact watched_nodup
  · rw [Nat.zero_add]
    exact (count_iff hbelow herr hrd' hwr' hex').mpr fun i hi => (hmembers i hi).2

theorem select_failed {m : ℕ} (hn : 0 ≤ c.nfds) (hm : m = min (32 * c.limbs) 1024)
    (h : ∃ i ∈ c.start.within 0 m, c.ctl i ≠ none) : ∃ e, c.select 0#1024 = some (.error e) := by
  obtain ⟨i, -, e, -, hadd⟩ := addAll_error (c := c) (w := c.start) h
  have hloop : c.watchLimbs 0#1024 0 c.limbs c.start = some (.error (.ctl e)) := by
    by_cases hle : c.limbs ≤ 32
    · have hsame : m = 32 * c.limbs := by omega
      rw [watchLimbs_eq (by omega), Nat.mul_zero, ← hsame, hadd]
    · have hsame : m = 1024 := by omega
      rw [watchLimbs_past (by omega), ← hsame, hadd]
  refine ⟨.ctl e, ?_⟩
  rw [select, if_neg (Int.not_lt.mpr hn)]
  show (c.watchLimbs 0#1024 0 c.limbs c.start).bind _ = _
  rw [hloop]
  rfl

theorem reached {calls : List SelectCall} {dummy : FdSet} (h : Run exec free 0#1024 calls dummy) : dummy = 0#1024 := by
  refine h.invariant (I := fun s => s = 0#1024) (fun s c t _ he hs => ?_) rfl
  obtain ⟨_, -, rfl⟩ := Option.map_eq_some_iff.mp he
  exact hs

theorem select_unwatched {c : SelectCall} (hn : 0 ≤ c.nfds) (hlimbs : c.limbs ≤ 32) (hne : c.watched = []) :
    c.select 0#1024 = some (.error .EINVAL) := by
  have hloop : c.watchLimbs 0#1024 0 c.limbs c.start = some (.ok c.start) := by
    rw [watchLimbs_eq (by omega)]
    show some (c.addAll c.watched c.start) = _
    rw [hne]
    rfl
  rw [select, if_neg (Int.not_lt.mpr hn)]
  show (c.watchLimbs 0#1024 0 c.limbs c.start).bind _ = _
  rw [hloop]
  rfl

theorem select_past {c : SelectCall} (hgt : 1024 < c.nfds) (hctl : ∀ i, c.isMember i → c.ctl i = none) :
    c.select 0#1024 = none := by
  have hnodup : (c.start.within 0 1024).Nodup := List.Nodup.filter _ List.nodup_range'
  obtain ⟨w, hadd, -⟩ := addAll_ok (c := c) (w := c.start) hnodup fun i hi => hctl i (List.mem_filter.mp hi).2
  have hloop : c.watchLimbs 0#1024 0 c.limbs c.start = none := by
    rw [watchLimbs_past (by rw [limbs]; omega), hadd]
  rw [select, if_neg (by omega)]
  show (c.watchLimbs 0#1024 0 c.limbs c.start).bind _ = _
  rw [hloop]
  rfl

/-- **`select` is exact just for the usual calls**, after any calls before. -/
theorem select_exact_iff {calls : List SelectCall} {dummy : FdSet} (h : Run exec free 0#1024 calls dummy) (c : SelectCall) :
    c.Exact dummy ↔ c.Usual := by
  rw [reached h]
  by_cases hneg : c.nfds < 0
  · have herror : c.select 0#1024 = some (.error .EINVAL) := by rw [select, if_pos hneg]
    rw [Exact, herror]
    exact iff_of_true (.inl hneg) (.inl hneg)
  have hn : 0 ≤ c.nfds := Int.not_lt.mp hneg
  by_cases hfail : ∃ i : ℕ, i < c.nfds ∧ c.isMember i ∧ c.ctl i ≠ none
  · obtain ⟨i, hlt, hmem, hctl⟩ := hfail
    have hi : i ∈ c.start.within 0 (min (32 * c.limbs) 1024) := by
      refine List.mem_filter.mpr ⟨List.mem_range'_1.mpr ⟨Nat.zero_le i, ?_⟩, hmem⟩
      have hsize := isMember_lt hmem
      rw [limbs]
      omega
    obtain ⟨e, herror⟩ := select_failed hn rfl ⟨i, hi, hctl⟩
    rw [Exact, herror]
    exact iff_of_true (.inr ⟨i, hlt, hmem, hctl⟩) (.inr (.inl ⟨i, hlt, hmem, hctl⟩))
  have husual : c.Usual ↔ c.nfds ≤ 1024 ∧ (∃ i, c.isMember i) ∧ c.Fits := by
    rw [Usual, or_iff_right hneg, or_iff_right hfail]
    rfl
  have hnoerror : ¬ (c.nfds < 0 ∨ ∃ i : ℕ, i < c.nfds ∧ c.isMember i ∧ c.ctl i ≠ none) := not_or.mpr ⟨hneg, hfail⟩
  rw [husual]
  by_cases hle : c.nfds ≤ 1024
  · have hlimbs : c.limbs ≤ 32 := by
      rw [limbs]
      omega
    by_cases hctl : ∀ i ∈ c.watched, c.ctl i = none
    · by_cases hne : c.watched = []
      · rw [Exact, select_unwatched hn hlimbs hne]
        refine iff_of_false hnoerror fun ⟨_, ⟨i, hi⟩, hfits⟩ => ?_
        have hmem := (watched_iff hfits.1).mpr hi
        rw [hne] at hmem
        exact List.not_mem_nil hmem
      · obtain ⟨i, hi⟩ := List.exists_mem_of_ne_nil _ hne
        have hmember : ∃ i, c.isMember i := ⟨i, (mem_watched.mp hi).2⟩
        exact ⟨fun hexact => ⟨hle, hmember, fits_of_exact hn hle hctl hne hexact⟩,
          fun hall => exact_of_fits hn hle hctl hne hall.2.2⟩
    · obtain ⟨i, hi, hctl⟩ : ∃ i ∈ c.watched, c.ctl i ≠ none := by
        simpa only [not_forall, exists_prop] using hctl
      obtain ⟨e, herror⟩ := select_failed (c := c) (m := 32 * c.limbs) hn (by omega) ⟨i, hi, hctl⟩
      rw [Exact, herror]
      refine iff_of_false hnoerror fun ⟨_, _, hfits⟩ => hfail ⟨i, ?_, (mem_watched.mp hi).2, hctl⟩
      exact hfits.1 i (mem_watched.mp hi).2
  · rw [Exact, select_past (Int.not_le.mp hle) fun i hmem => by
      by_contra hctl
      have hsize := isMember_lt hmem
      exact hfail ⟨i, by omega, hmem, hctl⟩]
    exact iff_of_false id fun hall => hle hall.1

def both : SelectCall where
  nfds := 4
  rd := some 8
  wr := some 8
  ex := none
  ctl _ := none
  ready _ := 5
  order := id
  order_perm := fun _ => .refl _

/-- Where only reading is asked for the call is exact. -/
theorem select_exact_iff_first : { both with wr := none }.Exact 0#1024 ↔ { both with wr := none }.Usual :=
  @select_exact_iff [] _ (.nil _) { both with wr := none }

def countRight (c : SelectCall) (dummy : FdSet) : Option Bool :=
  (c.select dummy).bind fun r => r.toOption.map fun x => decide (x.1 = card x.2.rd + card x.2.wr + card x.2.ex)

theorem Exact.countRight {dummy : FdSet} (h : c.Exact dummy) : c.countRight dummy ≠ some false := by
  rw [SelectCall.countRight]
  rw [Exact] at h
  cases hsel : c.select dummy with
  | none => exact nofun
  | some r =>
    rw [hsel] at h
    cases r with
    | error e => exact nofun
    | ok x =>
      obtain ⟨-, -, -, -, -, hcount⟩ := h
      simp [hcount, Except.toOption]

/-- A descriptor that is ready for reading and writing is counted once. -/
theorem select_counts_once : ¬ both.Exact 0#1024 :=
  mt Exact.countRight (not_not.mpr (by decide +kernel))

end SelectCall

end Sneks.Crt
