import Sneks.Sysmsg.Filter
import Mathlib.Data.List.Pairwise

/-!
# Who gets a broadcast

The subscription records agree with the clients' masks after any sequence of calls. Given
that, `broadcast` sends one copy to each client that subscribes to a bit of `maskp` and to none
of `maskn`, unless all of `maskp` is in its filter mask and no bit of it passes its filter.
A bit of `maskp` that the client does not subscribe to counts there as any other.
-/

namespace Sneks.Sysmsg
open Lib

variable {s t : State} {mask : Word} {bit pid : ℕ}

theorem mem_bits : bit ∈ bits mask ↔ mask.getLsbD bit = true := by
  rw [bits, List.mem_filter, List.mem_range]
  exact and_iff_right_of_imp BitVec.lt_of_getLsbD

structure Coherent (s : State) : Prop where
  tid : ∀ pid c, s.client pid = some c → pidof c.recvTid = pid
  subs : ∀ pid bit, ⟨pid, bit⟩ ∈ s.subs ↔ ∃ c, s.client pid = some c ∧ c.subsMask.getLsbD bit = true

theorem mem_foldl_rmsub {l : List ℕ} {u : List Sub × List ℕ} {x : Sub} :
    x ∈ (l.foldl (rmsub pid) u).1 ↔ x ∈ u.1 ∧ ¬ (x.client = pid ∧ x.bit ∈ l) := by
  induction l generalizing u with
  | nil => simp
  | cons bit l ih =>
    rw [List.foldl_cons, ih]
    simp only [rmsub, List.mem_filter, decide_eq_true_eq, List.mem_cons]
    tauto

theorem mem_foldl_addsub {l : List ℕ} {u : List Sub × List ℕ} {x : Sub} :
    x ∈ (l.foldl (addsub pid) u).1 ↔ x ∈ u.1 ∨ x.client = pid ∧ x.bit ∈ l := by
  induction l generalizing u with
  | nil => simp
  | cons bit l ih =>
    obtain ⟨client, bit'⟩ := x
    rw [List.foldl_cons, ih]
    simp only [addsub, List.mem_append, Sub.mk.injEq, List.mem_cons]
    tauto

theorem coherent_setmaskOf {c : Client} {or and : Word} (h : Coherent s) (htid : pidof c.recvTid = pid)
    (hold : ∀ bit, ⟨pid, bit⟩ ∈ s.subs ↔ c.subsMask.getLsbD bit = true) :
    Coherent (setmaskOf s pid c or and) := by
  constructor
  case tid =>
    intro pid' c' hc'
    by_cases hpid : pid' = pid
    · subst hpid
      simp only [setmaskOf, State.put, Function.update_self, Option.some.injEq] at hc'
      rw [← hc', htid]
    · simp only [setmaskOf, State.put, Function.update_of_ne hpid] at hc'
      exact h.tid pid' c' hc'
  case subs =>
    intro pid' bit
    simp only [setmaskOf, mem_foldl_addsub, mem_foldl_rmsub, mem_bits, State.put]
    by_cases hpid : pid' = pid
    · subst hpid
      simp only [hold bit, Function.update_self, Option.some.injEq, exists_eq_left', true_and]
      by_cases hlt : bit < 32
      · simp only [BitVec.getLsbD_and, BitVec.getLsbD_or, BitVec.getLsbD_not, hlt, decide_true, Bool.true_and]
        cases c.subsMask.getLsbD bit <;> cases and.getLsbD bit <;> cases or.getLsbD bit <;> decide
      · have hge : ∀ w : Word, w.getLsbD bit = false := fun w => BitVec.getLsbD_of_ge w bit (by omega)
        simp [hge]
    · simp only [hpid, Function.update_of_ne hpid, false_and, not_false_eq_true, and_true, or_false]
      exact h.subs pid' bit

theorem Coherent.put {c c' : Client} (h : Coherent s) (hc : s.client pid = some c) (htid : c'.recvTid = c.recvTid)
    (hmask : c'.subsMask = c.subsMask) : Coherent (s.put pid c') := by
  constructor
  case tid =>
    intro pid' c₁ hc₁
    by_cases hpid : pid' = pid
    · subst hpid
      simp only [State.put, Function.update_self, Option.some.injEq] at hc₁
      rw [← hc₁, htid, h.tid _ c hc]
    · simp only [State.put, Function.update_of_ne hpid] at hc₁
      exact h.tid pid' c₁ hc₁
  case subs =>
    intro pid' bit
    simp only [State.put]
    rw [h.subs]
    by_cases hpid : pid' = pid
    · subst hpid
      simp [hc, hmask]
    · rw [Function.update_of_ne hpid]

section Exec

variable {salt : ℕ → Word} {u : Update}

def Update.caller : Update → ℕ
  | .setmask sender .. | .addFilter sender .. | .rmFilter sender .. => pidof sender

theorem exec_cases (he : exec salt s u = some t) : t = s ∨
    (∃ sender or and, u = .setmask sender or and ∧ t = (setmask s sender or and).1) ∨
    ∃ c c', s.client u.caller = some c ∧ t = s.put u.caller c' ∧ c'.recvTid = c.recvTid ∧ c'.subsMask = c.subsMask := by
  cases u with
  | setmask sender or and =>
    cases he
    exact .inr (.inl ⟨sender, or, and, rfl, rfl⟩)
  | addFilter sender mask labels calloc =>
    simp only [exec, addFilter] at he
    split at he
    · cases he
      exact .inl rfl
    next c hc =>
    split at he
    · cases he
      exact .inr (.inr ⟨c, _, hc, rfl, rfl, rfl⟩)
    split at he
    · cases he
    split at he
    · cases he
      exact .inr (.inr ⟨c, _, hc, rfl, rfl, rfl⟩)
    · cases he
      exact .inl rfl
  | rmFilter sender mask labels =>
    simp only [exec, rmFilter] at he
    split at he
    · cases he
      exact .inl rfl
    next c hc =>
    split at he
    · cases he
      exact .inl rfl
    split at he
    · cases he
      exact .inr (.inr ⟨c, _, hc, rfl, rfl, rfl⟩)
    · cases he

theorem setmask_cases (s : State) (sender : Tid) (or and : Word) : (setmask s sender or and).1 = s ∨
    ∃ c, (setmask s sender or and).1 = setmaskOf s (pidof sender) c or and ∧
      (s.client (pidof sender) = some c ∨
        s.client (pidof sender) = none ∧ c.recvTid = sender ∧ c.subsMask = 0) := by
  simp only [setmask]
  split
  · next hnone =>
    split
    · exact .inl rfl
    · exact .inr ⟨_, rfl, .inr ⟨hnone, rfl, rfl⟩⟩
  · next c hc => exact .inr ⟨c, rfl, .inl hc⟩

theorem Coherent.exec (h : Coherent s) (he : Sysmsg.exec salt s u = some t) : Coherent t := by
  obtain rfl | ⟨sender, or, and, -, rfl⟩ | ⟨c, c', hc, rfl, htid, hmask⟩ := exec_cases he
  · exact h
  · obtain hsame | ⟨c, heq, hc | ⟨hnone, htid, hmask⟩⟩ := setmask_cases s sender or and
    · rw [hsame]
      exact h
    · rw [heq]
      refine coherent_setmaskOf h (h.tid _ c hc) fun bit => ?_
      rw [h.subs, hc]
      simp
    · rw [heq]
      refine coherent_setmaskOf h (by rw [htid]) fun bit => ?_
      rw [h.subs, hnone, hmask]
      simp
  · exact h.put hc htid hmask

theorem Coherent.init : Coherent .init :=
  ⟨nofun, fun pid bit => by simp [State.init]⟩

theorem coherent_of_run {us : List Update} (h : Run (exec salt) free .init us s) : Coherent s :=
  Run.invariant (I := Coherent) (fun _ _ _ _ he hi => hi.exec he) h .init

theorem exec_client_of_ne (he : exec salt s u = some t) (hpid : pid ≠ u.caller) : t.client pid = s.client pid := by
  obtain rfl | ⟨sender, or, and, rfl, rfl⟩ | ⟨c, c', -, rfl, -, -⟩ := exec_cases he
  · rfl
  · obtain hsame | ⟨c, heq, -⟩ := setmask_cases s sender or and
    · rw [hsame]
    · rw [heq]
      exact Function.update_of_ne hpid ..
  · exact Function.update_of_ne hpid ..

theorem recursive_client_of_ne {sender : Tid} {calls : List (Msg × Bool)}
    (h : calls.foldlM (fun s call => recursiveSysmsgCall salt s sender call) s = some t)
    (hpid : pid ≠ pidof sender) : t.client pid = s.client pid := by
  induction calls generalizing s with
  | nil =>
    cases h
    rfl
  | cons call calls ih =>
    rw [List.foldlM_cons] at h
    obtain ⟨s₁, h₁, hrest⟩ := Option.bind_eq_some_iff.mp h
    refine (ih hrest).trans ?_
    simp only [recursiveSysmsgCall] at h₁
    split at h₁
    · cases h₁
      rfl
    · next u hu =>
      refine exec_client_of_ne h₁ ?_
      have hsender : u.caller = pidof sender := by
        simp only [Msg.update] at hu
        split at hu <;> cases hu <;> rfl
      rwa [hsender]

end Exec

theorem uniqFrom_spec {prev : ℕ} {recs : List ℕ} (h : (prev :: recs).Pairwise (· ≤ ·)) :
    (prev :: uniqFrom prev recs).Pairwise (· < ·) ∧
      ∀ pid, pid ∈ prev :: uniqFrom prev recs ↔ pid ∈ prev :: recs := by
  induction recs generalizing prev with
  | nil => exact ⟨List.pairwise_singleton .., fun _ => Iff.rfl⟩
  | cons next recs ih =>
    obtain ⟨hle, hrest⟩ := List.pairwise_cons.mp h
    obtain ⟨hlt, hmem⟩ := ih hrest
    simp only [uniqFrom]
    split
    · next heq =>
      subst heq
      exact ⟨hlt, fun pid => by rw [hmem]; simp⟩
    · next hne =>
      have hfirst : prev < next := Nat.lt_of_le_of_ne (hle next List.mem_cons_self) hne
      refine ⟨List.pairwise_cons.mpr ⟨fun pid hpid => ?_, hlt⟩, fun pid => ?_⟩
      · rcases List.mem_cons.mp hpid with rfl | hpid
        · exact hfirst
        · exact Nat.lt_trans hfirst ((List.pairwise_cons.mp hlt).1 pid hpid)
      · rw [List.mem_cons, hmem, ← List.mem_cons]

theorem uniq_spec {recs : List ℕ} (h : recs.Pairwise (· ≤ ·)) :
    (uniq recs).Nodup ∧ ∀ pid, pid ∈ uniq recs ↔ pid ∈ recs := by
  cases recs with
  | nil => exact ⟨List.nodup_nil, fun _ => Iff.rfl⟩
  | cons prev recs =>
    obtain ⟨hlt, hmem⟩ := uniqFrom_spec h
    exact ⟨hlt.imp Nat.ne_of_lt, hmem⟩

theorem and_ne_zero_iff {a b : Word} : a &&& b ≠ 0 ↔ ∃ bit, a.getLsbD bit = true ∧ b.getLsbD bit = true := by
  constructor
  · intro h
    by_contra hno
    refine h (BitVec.eq_of_getLsbD_eq fun i _ => ?_)
    rw [BitVec.getLsbD_and]
    cases ha : a.getLsbD i
    · simp
    · have hb : b.getLsbD i = false := by
        rw [← Bool.not_eq_true]
        exact fun hb => hno ⟨i, ha, hb⟩
      simp [hb]
  · rintro ⟨bit, ha, hb⟩ h
    have := congrArg (fun w : Word => w.getLsbD bit) h
    simp [ha, hb] at this

theorem mem_gather {maskp maskn : Word} (h : Coherent s) : pid ∈ gather s maskp maskn ↔
    ∃ c, s.client pid = some c ∧ c.subsMask &&& maskp ≠ 0 ∧ c.subsMask &&& maskn = 0 := by
  simp only [gather, List.mem_flatMap, mem_bits, List.mem_map, List.mem_filter, decide_eq_true_eq]
  constructor
  · rintro ⟨bit, hbit, x, ⟨hx, rfl, hn⟩, rfl⟩
    obtain ⟨c, hc, hsub⟩ := (h.subs x.client x.bit).mp hx
    exact ⟨c, hc, and_ne_zero_iff.mpr ⟨x.bit, hsub, hbit⟩, hn c hc⟩
  · rintro ⟨c, hc, hp, hn⟩
    obtain ⟨bit, hsub, hbit⟩ := and_ne_zero_iff.mp hp
    refine ⟨bit, hbit, ⟨pid, bit⟩, ⟨(h.subs pid bit).mpr ⟨c, hc, hsub⟩, rfl, ?_⟩, rfl⟩
    rintro c' hc'
    obtain rfl : c = c' := Option.some.inj (hc.symm.trans hc')
    exact hn

section Selection

variable (salt : ℕ → Word) (maskp maskn hash : Word)

def Client.Passes (c : Client) (bit : ℕ) : Prop := filterPass salt c.filter (BitVec.twoPow 32 bit) hash = true

structure Selected (c : Client) : Prop where
  subscribed : c.subsMask &&& maskp ≠ 0
  not_excluded : c.subsMask &&& maskn = 0
  wanted : ∃ bit, maskp.getLsbD bit = true ∧ (c.filterMask.getLsbD bit = false ∨ c.Passes salt hash bit)

/-- One copy goes to each client of `sel`, and nothing to others. -/
structure Delivers (s : State) (maskp : Word) (body : List Word) (sel : Client → Prop) (sent : List Sent) : Prop where
  copies : ∀ pid c, s.client pid = some c →
    (sel c → (sent.map (·.dest)).count c.recvTid = 1) ∧ (¬ sel c → (sent.map (·.dest)).count c.recvTid = 0)
  others : ∀ m ∈ sent, m.bits = maskp ∧ m.body = body ∧ ∃ pid c, s.client pid = some c ∧ m.dest = c.recvTid

end Selection

variable {salt : ℕ → Word} {maskp maskn hash : Word} {c : Client} {sender : Tid} {body : List Word}
  {answer : ℕ → Answer} {immediate : Bool} {sent : List Sent} {recs : List ℕ}

theorem filterPass_some {f : Filter} {mask : Word} : filterPass salt (some f) mask hash = true ↔
    ∃ bit, mask.getLsbD bit = true ∧ filterQuery f (getSlots (hash ^^^ salt bit)) = true := by
  simp only [filterPass, List.any_eq_true, mem_bits]

theorem passes_some {f : Filter} (hf : c.filter = some f) (hbit : bit < 32) :
    c.Passes salt hash bit ↔ filterQuery f (getSlots (hash ^^^ salt bit)) = true := by
  rw [Client.Passes, hf, filterPass_some]
  constructor
  · rintro ⟨bit', hbit', hq⟩
    rw [BitVec.getLsbD_twoPow] at hbit'
    simp only [Bool.and_eq_true, decide_eq_true_eq] at hbit'
    rwa [hbit'.2]
  · intro hq
    exact ⟨bit, by simp [hbit], hq⟩

theorem not_filtered_iff (hp : maskp ≠ 0) : ¬ c.Filtered salt maskp hash ↔
    ∃ bit, maskp.getLsbD bit = true ∧ (c.filterMask.getLsbD bit = false ∨ c.Passes salt hash bit) := by
  have hmask : c.filterMask &&& maskp = maskp ↔
      ∀ bit, maskp.getLsbD bit = true → c.filterMask.getLsbD bit = true := by
    constructor
    · intro h bit hbit
      rw [← h, BitVec.getLsbD_and, Bool.and_eq_true] at hbit
      exact hbit.1
    · intro h
      refine BitVec.eq_of_getLsbD_eq fun bit _ => ?_
      rw [BitVec.getLsbD_and]
      cases hbit : maskp.getLsbD bit
      · simp
      · simp [h bit hbit]
  rw [Client.Filtered, hmask, not_and_or, Bool.not_eq_false]
  constructor
  · rintro (hno | hpass)
    · simp only [not_forall] at hno
      obtain ⟨bit, hbit, hfm⟩ := hno
      exact ⟨bit, hbit, .inl (by simpa using hfm)⟩
    · cases hf : c.filter with
      | none =>
        obtain ⟨bit, hbit, -⟩ := and_ne_zero_iff.mp (by rwa [BitVec.and_self] : maskp &&& maskp ≠ 0)
        exact ⟨bit, hbit, .inr (by rw [Client.Passes, hf]; rfl)⟩
      | some f =>
        rw [hf, filterPass_some] at hpass
        obtain ⟨bit, hbit, hq⟩ := hpass
        rw [BitVec.getLsbD_and, Bool.and_eq_true] at hbit
        exact ⟨bit, hbit.1, .inr ((passes_some hf (BitVec.lt_of_getLsbD hbit.1)).mpr hq)⟩
  · rintro ⟨bit, hbit, hfm | hpass⟩
    · refine .inl fun h => ?_
      rw [h bit hbit] at hfm
      cases hfm
    · by_cases hfm : c.filterMask.getLsbD bit = true
      · refine .inr ?_
        cases hf : c.filter with
        | none => rfl
        | some f =>
          rw [filterPass_some]
          refine ⟨bit, ?_, (passes_some hf (BitVec.lt_of_getLsbD hbit)).mp hpass⟩
          rw [BitVec.getLsbD_and, hbit, hfm]
          rfl
      · exact .inl fun h => hfm (h bit hbit)

def delivery (salt : ℕ → Word) (maskp : Word) (body : List Word) (hash : Word) (s : State) (pid : ℕ) : Option Sent :=
  (s.client pid).bind fun c => if c.Filtered salt maskp hash then none else some ⟨c.recvTid, maskp, body⟩

theorem sendAll_sent {s₀ : State} (hco : Coherent s₀) (hnodup : recs.Nodup)
    (hagree : ∀ pid ∈ recs, s.client pid = s₀.client pid)
    (h : sendAll salt sender maskp body hash answer s recs = some (t, immediate, sent)) :
    sent = recs.filterMap (delivery salt maskp body hash s₀) := by
  induction recs generalizing s t immediate sent with
  | nil =>
    cases h
    rfl
  | cons pid recs ih =>
    obtain ⟨hpid, hnodup⟩ := List.nodup_cons.mp hnodup
    simp only [sendAll] at h
    split at h
    · cases h
    next c hc =>
    have hc₀ : s₀.client pid = some c := (hagree pid List.mem_cons_self).symm.trans hc
    have hrest : ∀ pid ∈ recs, s.client pid = s₀.client pid := fun p hp => hagree p (List.mem_cons_of_mem _ hp)
    split at h
    · next hf =>
      rw [List.filterMap_cons_none (by simp [delivery, hc₀, hf])]
      exact ih hnodup hrest h
    next hf =>
    rw [List.filterMap_cons_some (by simp [delivery, hc₀, hf]; rfl)]
    split at h
    · cases h
    split at h
    · next s₁ n hs₁ hn =>
      obtain ⟨⟨t', imm', sent'⟩, hall, heq⟩ := Option.map_eq_some_iff.mp h
      cases heq
      refine congrArg _ (ih hnodup (fun p hp => ?_) hall)
      have hne : p ≠ pidof c.recvTid := by
        rw [hco.tid pid c hc₀]
        rintro rfl
        exact hpid hp
      rw [recursive_client_of_ne hs₁ hne]
      exact hrest p hp
    · cases h

theorem isSome_sendAll {s₀ : State} (hco : Coherent s₀) (hnodup : recs.Nodup)
    (hagree : ∀ pid ∈ recs, s.client pid = s₀.client pid)
    (hok : ∀ pid ∈ recs, ∃ c, s₀.client pid = some c ∧ (¬ c.Filtered salt maskp hash → sender ≠ c.recvTid ∧
      (answer pid).status.isSome ∧ ∀ s,
        ((answer pid).calls.foldlM (fun s call => recursiveSysmsgCall salt s c.recvTid call) s).isSome)) :
    (sendAll salt sender maskp body hash answer s recs).isSome := by
  induction recs generalizing s with
  | nil => rfl
  | cons pid recs ih =>
    obtain ⟨hpid, hnodup⟩ := List.nodup_cons.mp hnodup
    obtain ⟨c, hc₀, hcalls⟩ := hok pid List.mem_cons_self
    have hrest : ∀ pid ∈ recs, s.client pid = s₀.client pid := fun p hp => hagree p (List.mem_cons_of_mem _ hp)
    have hok' := fun p hp => hok p (List.mem_cons_of_mem _ hp)
    simp only [sendAll, (hagree pid List.mem_cons_self).trans hc₀]
    split
    · exact ih hnodup hrest hok'
    next hf =>
    obtain ⟨hsender, hstatus, hserve⟩ := hcalls hf
    obtain ⟨n, hn⟩ := Option.isSome_iff_exists.mp hstatus
    obtain ⟨s₁, hs₁⟩ := Option.isSome_iff_exists.mp (hserve s)
    rw [if_neg hsender, hn, hs₁, Option.isSome_map]
    refine ih hnodup (fun p hp => ?_) hok'
    have hne : p ≠ pidof c.recvTid := by
      rw [hco.tid pid c hc₀]
      rintro rfl
      exact hpid hp
    rw [recursive_client_of_ne hs₁ hne]
    exact hrest p hp

theorem recs_spec (h : Coherent s) (maskp maskn : Word) : (uniq ((gather s maskp maskn).insertionSort (· ≤ ·))).Nodup ∧
    ∀ pid, pid ∈ uniq ((gather s maskp maskn).insertionSort (· ≤ ·)) ↔
      ∃ c, s.client pid = some c ∧ c.subsMask &&& maskp ≠ 0 ∧ c.subsMask &&& maskn = 0 := by
  obtain ⟨hnodup, hmem⟩ := uniq_spec (List.pairwise_insertionSort (· ≤ ·) (gather s maskp maskn))
  refine ⟨hnodup, fun pid => ?_⟩
  rw [hmem, List.mem_insertionSort, mem_gather h]

theorem delivers_filterMap (hco : Coherent s) (hp : maskp ≠ 0) (hnodup : recs.Nodup)
    (hrecs : ∀ pid, pid ∈ recs ↔
      ∃ c, s.client pid = some c ∧ c.subsMask &&& maskp ≠ 0 ∧ c.subsMask &&& maskn = 0) :
    Delivers s maskp body (Selected salt maskp maskn hash) (recs.filterMap (delivery salt maskp body hash s)) := by
  have hdelivery : ∀ pid m, delivery salt maskp body hash s pid = some m ↔
      ∃ c, s.client pid = some c ∧ ¬ c.Filtered salt maskp hash ∧ m = ⟨c.recvTid, maskp, body⟩ := by
    intro pid m
    rw [delivery, Option.bind_eq_some_iff]
    refine exists_congr fun c => and_congr_right fun _ => ?_
    split
    · next hf => simp [hf]
    · next hf => simp [hf, eq_comm]
  have hdests : ((recs.filterMap (delivery salt maskp body hash s)).map (·.dest)).Nodup := by
    rw [List.map_filterMap]
    refine hnodup.filterMap fun pid pid' tid htid htid' => ?_
    obtain ⟨m, hm, rfl⟩ := Option.map_eq_some_iff.mp htid
    obtain ⟨m', hm', heq⟩ := Option.map_eq_some_iff.mp htid'
    obtain ⟨c, hc, -, rfl⟩ := (hdelivery pid m).mp hm
    obtain ⟨c', hc', -, rfl⟩ := (hdelivery pid' m').mp hm'
    rw [← hco.tid pid c hc, ← hco.tid pid' c' hc']
    exact congrArg pidof heq.symm
  constructor
  case copies =>
    intro pid c hc
    have hmem : c.recvTid ∈ (recs.filterMap (delivery salt maskp body hash s)).map (·.dest) ↔
        Selected salt maskp maskn hash c := by
      simp only [List.mem_map, List.mem_filterMap, hdelivery]
      constructor
      · rintro ⟨_, ⟨pid', hpid', c', hc', hf, rfl⟩, heq⟩
        have hpids : pid' = pid := by
          rw [← hco.tid pid' c' hc', ← hco.tid pid c hc]
          exact congrArg pidof heq
        subst hpids
        obtain rfl : c' = c := Option.some.inj (hc'.symm.trans hc)
        obtain ⟨c₁, hc₁, hsub, hex⟩ := (hrecs pid').mp hpid'
        obtain rfl : c' = c₁ := Option.some.inj (hc'.symm.trans hc₁)
        exact ⟨hsub, hex, (not_filtered_iff hp).mp hf⟩
      · rintro ⟨hsub, hex, hwant⟩
        exact ⟨_, ⟨pid, (hrecs pid).mpr ⟨c, hc, hsub, hex⟩, c, hc, (not_filtered_iff hp).mpr hwant, rfl⟩, rfl⟩
    exact ⟨fun hsel => List.count_eq_one_of_mem hdests (hmem.mpr hsel),
      fun hsel => List.count_eq_zero_of_not_mem fun hm => hsel (hmem.mp hm)⟩
  case others =>
    intro m hm
    obtain ⟨pid, -, hd⟩ := List.mem_filterMap.mp hm
    obtain ⟨c, hc, -, rfl⟩ := (hdelivery pid m).mp hd
    exact ⟨rfl, rfl, pid, c, hc, rfl⟩

/-- **Broadcast selection**: for any clients, masks and filters, one copy goes to each selected
    client, and nothing to others. The server does not stop before that if the broadcast is not by
    a thread that it would be sent to, and the clients' calls and replies are in order. -/
theorem broadcast_selection (hco : Coherent s) (sender : Tid) (maskp maskn : Word) (body : List Word) (stale : Word)
    (answer : ℕ → Answer) :
    (∀ t immediate sent, broadcast salt s sender maskp maskn body stale answer = some (t, immediate, sent) →
      Delivers s maskp body (Selected salt maskp maskn (intHash (body.headD stale))) sent) ∧
    ((∀ pid c, s.client pid = some c → Selected salt maskp maskn (intHash (body.headD stale)) c →
        sender ≠ c.recvTid ∧ (answer pid).status.isSome ∧
          ∀ s, ((answer pid).calls.foldlM (fun s call => recursiveSysmsgCall salt s c.recvTid call) s).isSome) →
      (broadcast salt s sender maskp maskn body stale answer).isSome) := by
  obtain ⟨hnodup, hrecs⟩ := recs_spec hco maskp maskn
  simp only [broadcast]
  by_cases hearly : maskp = 0 ∨ maskn = ~~~0
  · refine ⟨fun t immediate sent h => ?_, fun _ => by rw [if_pos hearly]; rfl⟩
    rw [if_pos hearly] at h
    cases h
    refine ⟨fun pid c _ => ⟨fun hsel => ?_, fun _ => rfl⟩, nofun⟩
    -- nobody is selected
    rcases hearly with rfl | rfl
    · exact absurd (BitVec.and_zero ..) hsel.subscribed
    · have hall : (~~~0 : Word) = BitVec.allOnes 32 := by decide
      have hzero := hsel.not_excluded
      rw [hall, BitVec.and_allOnes] at hzero
      exact absurd (by rw [hzero]; exact BitVec.zero_and) hsel.subscribed
  · have hp : maskp ≠ 0 := fun h => hearly (.inl h)
    rw [if_neg hearly]
    refine ⟨fun t immediate sent h => ?_, fun hok => ?_⟩
    · rw [sendAll_sent hco hnodup (fun _ _ => rfl) h]
      exact delivers_filterMap hco hp hnodup hrecs
    · refine isSome_sendAll hco hnodup (fun _ _ => rfl) fun pid hpid => ?_
      obtain ⟨c, hc, hsub, hex⟩ := (hrecs pid).mp hpid
      exact ⟨c, hc, fun hf => hok pid c hc ⟨hsub, hex, (not_filtered_iff hp).mp hf⟩⟩

def watcher : Tid := ⟨71, 18⟩
def broadcaster : Tid := ⟨72, 22⟩

def twoClients : List Update :=
  [.setmask listener 1 (~~~0), .addFilter listener 1 [5] true, .setmask watcher 3 (~~~0)]

def addsNine (_ : ℕ) : Answer := ⟨[(⟨3, fun i => [0, 3, 1, 9].getD i 0⟩, true)], some 0⟩

theorem broadcast_selection_twoClients : ∃ s t immediate,
    Run (exec filterSalt) free .init twoClients s ∧
    broadcast filterSalt s broadcaster 1 4 [7] 0 addsNine = some (t, immediate, [⟨watcher, 1, [7]⟩]) ∧
    Delivers s 1 [7] (Selected filterSalt 1 4 (intHash 7)) [⟨watcher, 1, [7]⟩] := by
  obtain ⟨s, hrun, hs⟩ := Run.exists_of_evalRun (exec filterSalt) free .init twoClients
    (fun s => (broadcast filterSalt s broadcaster 1 4 [7] 0 addsNine).map (·.2)) (some (true, [⟨watcher, 1, [7]⟩]))
    (by decide +kernel)
  obtain ⟨⟨t, immediate, sent⟩, ht, heq⟩ := Option.map_eq_some_iff.mp hs
  cases heq
  exact ⟨s, t, _, hrun, ht, (broadcast_selection (coherent_of_run hrun) broadcaster 1 4 [7] 0 addsNine).1 _ _ _ ht⟩

def oneClient : List Update := [.setmask listener 1 (~~~0), .addFilter listener 1 [5] true]

/-- It gets what its filter for that bit does not pass, as the second bit is not in its filter mask. -/
theorem unsubscribed_bit_passes : ∃ s t immediate sent, Run (exec filterSalt) free .init oneClient s ∧
    broadcast filterSalt s broadcaster 3 0 [7] 0 addsNine = some (t, immediate, sent) ∧
    ¬ Delivers s 3 [7] (fun c => c.subsMask &&& 3 ≠ 0 ∧ c.subsMask &&& 0 = 0 ∧
      ∃ bit, (3 : Word).getLsbD bit = true ∧ c.subsMask.getLsbD bit = true ∧
        (c.filterMask.getLsbD bit = false ∨ c.Passes filterSalt (intHash 7) bit)) sent := by
  obtain ⟨s, hrun, hs⟩ := Run.exists_of_evalRun (exec filterSalt) free .init oneClient
    (fun s => ((broadcast filterSalt s broadcaster 3 0 [7] 0 addsNine).map (·.2.2),
      (s.client (pidof listener)).map fun c => (c.recvTid, c.subsMask, c.filterMask,
        filterPass filterSalt c.filter (BitVec.twoPow 32 0) (intHash 7))))
    (some [⟨listener, 3, [7]⟩], some (listener, 1, 1, false)) (by decide +kernel)
  simp only [Prod.mk.injEq] at hs
  obtain ⟨⟨t, immediate, sent⟩, ht, rfl⟩ := Option.map_eq_some_iff.mp hs.1
  obtain ⟨c, hc, heq⟩ := Option.map_eq_some_iff.mp hs.2
  simp only [Prod.mk.injEq] at heq
  obtain ⟨htid, hsub, hfm, hpass⟩ := heq
  refine ⟨s, t, immediate, _, hrun, ht, fun h => ?_⟩
  have hnone := (h.copies _ c hc).2 ?_
  · rw [htid] at hnone
    revert hnone
    decide
  · rintro ⟨-, -, bit, -, hbit, hwant⟩
    rw [hsub, BitVec.ofNat_eq_ofNat, BitVec.getLsbD_one] at hbit
    obtain rfl : bit = 0 := by simpa using hbit
    rcases hwant with hwant | hwant
    · rw [hfm] at hwant
      cases hwant
    · rw [Client.Passes, hpass] at hwant
      cases hwant

end Sneks.Sysmsg
