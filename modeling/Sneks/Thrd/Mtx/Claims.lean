import Sneks.Thrd.Mtx.Defs

/-!
# Mutexes exclude, and no thread is left behind

Each step keeps the invariant: what a thread does by itself, then what the serializer does.
-/

set_option linter.unusedSectionVars false

namespace Sneks.Thrd
open Lib

namespace MtxState

variable {μ : Type*} [DecidableEq μ] (s : MtxState μ) (m : μ) (t : LocalId)

-- Reading what a step has changed

section
variable {s m t} {m' : μ} {t' : LocalId} {p : MtxPc μ} {w : BitVec 32}

theorem setWord_word : (s.setWord m w).word m' = if m' = m then w else s.word m' := Function.update_apply ..

theorem setPc_pc : (s.setPc t p).pc t' = if t' = t then p else s.pc t' := Function.update_apply ..

theorem hold_holders : (s.hold t m).holders m' = if m' = m then t :: s.holders m else s.holders m' :=
  Function.update_apply ..

theorem unhold_holders : (s.unhold t m).holders m' = if m' = m then (s.holders m).erase t else s.holders m' :=
  Function.update_apply ..

theorem enqueue_waits : (s.enqueue t m).waits m' = if m' = m then s.waits m ++ [t] else s.waits m' :=
  Function.update_apply ..

end

/-- A step of a thread as the serializer sees it. Words with `CONFLICT` stay. -/
structure Apart (s s' : MtxState μ) : Prop where
  ser : s'.ser = s.ser
  waits : s'.waits = s.waits
  lockWait : ∀ u m, s'.pc u = .lockWait m ↔ s.pc u = .lockWait m
  unlockWait : ∀ u m, s'.pc u = .unlockWait m ↔ s.pc u = .unlockWait m
  word : ∀ m (u : LocalId), s.word m = u.word true → s'.word m = s.word m

variable {s m t} {s' : MtxState μ}

theorem settled_congr (hwindow : s'.ser.window = s.ser.window) (hword : s'.word m = s.word m) :
    s'.settled m = s.settled m := by
  rw [settled, settled, hwindow, hword]

theorem settled_of_window (h : ∀ w, s.ser.window = some w → w.1 ≠ m) : s.settled m = s.word m := by
  unfold settled
  split
  · next m' prev next hw => exact if_neg (h _ hw)
  · rfl

namespace Apart

theorem serving (h : Apart s s') (hs : s.Serving) : s'.Serving := by
  have hconflict : ∀ m, (∃ u : LocalId, s.word m = u.word true) → ∃ u : LocalId, s'.word m = u.word true :=
    fun m ⟨u, hu⟩ => ⟨u, (h.word m u hu).trans hu⟩
  unfold Serving at hs ⊢
  rw [h.ser]
  cases hser : s.ser <;> simp only [hser, h.lockWait, h.unlockWait] at hs ⊢
  case lockLoad => exact hs
  case lockTry t m prev => exact ⟨hs.1, fun hprev => hconflict m (hs.2 hprev)⟩
  case lockMark t m prev => exact ⟨hs.1, hs.2.1, fun hprev => hconflict m (hs.2.2 hprev)⟩
  case unlockLoad => exact hs
  case reply m prev next later sender =>
    obtain ⟨⟨u, rfl⟩, hword, hs⟩ := hs
    exact ⟨⟨u, rfl⟩, (h.word m u hword).trans hword, hs⟩
  case exchange m prev next sender =>
    obtain ⟨⟨u, rfl⟩, hword, hs⟩ := hs
    exact ⟨⟨u, rfl⟩, (h.word m u hword).trans hword, hs⟩
  case answer => exact hs

theorem handed (h : Apart s s') : s'.Handed m t ↔ s.Handed m t := by
  rw [Handed, Handed, h.lockWait, h.ser]

theorem settled (h : Apart s s') (hword : s'.word m = s.word m) : s'.settled m = s.settled m :=
  settled_congr (congrArg _ h.ser) hword

theorem settled_of_window (h : Apart s s') (hw : ∀ w, s.ser.window = some w → w.1 ≠ m) : s'.settled m = s'.word m :=
  MtxState.settled_of_window (h.ser ▸ hw)

theorem waiting (h : Apart s s') (hw : ∀ m, ∀ t ∈ s.waits m, s.pc t = .lockWait m ∧ t ∉ s.ser.handled) :
    ∀ m, ∀ t ∈ s'.waits m, s'.pc t = .lockWait m ∧ t ∉ s'.ser.handled := by
  intro m t ht
  rw [h.lockWait, h.ser]
  rw [h.waits] at ht
  exact hw m t ht

end Apart

namespace Named

theorem of_same (h : s.Named m) (hsettled : s'.settled m = s.settled m) (hholders : s'.holders m = s.holders m)
    (hhanded : ∀ t, s'.Handed m t ↔ s.Handed m t) (hreleasing : ∀ t, s'.Releasing m t ↔ s.Releasing m t)
    (hqueue : s'.waits m ≠ [] → ∃ t : LocalId, s.settled m = t.word true) : s'.Named m := by
  have hclaim (t : LocalId) : s'.Claim m t ↔ s.Claim m t := by
    rw [Claim, Claim, hholders, hhanded, hreleasing]
  constructor
  · intro t ht
    rw [hsettled]
    exact h.claim t ((hclaim t).mp ht)
  · intro hne
    obtain ⟨t, ht⟩ := h.owner (hsettled ▸ hne)
    exact ⟨t, (hclaim t).mpr ht⟩
  · rw [hholders]
    exact h.nodup
  · intro t ht
    rw [hholders]
    exact h.unheld t (ht.imp (hhanded t).mp (hreleasing t).mp)
  · intro t ht
    rw [hsettled]
    exact h.releasing t ((hreleasing t).mp ht)
  · intro hne
    rw [hsettled]
    exact hqueue hne

theorem congr (h : s.Named m) (hsettled : s'.settled m = s.settled m) (hholders : s'.holders m = s.holders m)
    (hwaits : s'.waits m = s.waits m) (hhanded : ∀ t, s'.Handed m t ↔ s.Handed m t)
    (hreleasing : ∀ t, s'.Releasing m t ↔ s.Releasing m t) : s'.Named m :=
  h.of_same hsettled hholders hhanded hreleasing fun hne => h.queue (hwaits ▸ hne)

variable {u : LocalId} {c : Bool}

theorem claim_iff (h : s.Named m) (hs : s.settled m = t.word c) : s.Claim m u ↔ u = t := by
  have honly : ∀ u, s.Claim m u → u = t := fun u hu => by
    obtain ⟨d, hd⟩ := h.claim u hu
    exact (LocalId.word_inj.mp (hd.symm.trans hs)).1
  refine ⟨honly u, ?_⟩
  rintro rfl
  obtain ⟨v, hv⟩ := h.owner (hs ▸ u.word_ne_zero c)
  exact honly v hv ▸ hv

theorem claim_unique (h : s.Named m) (ht : s.Claim m t) (hu : s.Claim m u) : t = u := by
  obtain ⟨c, hc⟩ := h.claim u hu
  exact (h.claim_iff hc).mp ht

theorem not_claim (h : s.Named m) (hs : s.settled m = 0#32) : ¬ s.Claim m t := by
  intro ht
  obtain ⟨c, hc⟩ := h.claim t ht
  exact t.word_ne_zero c (hc.symm.trans hs)

theorem waits_eq_nil (h : s.Named m) (hs : ∀ u : LocalId, s.settled m ≠ u.word true) : s.waits m = [] := by
  by_contra hne
  obtain ⟨u, hu⟩ := h.queue hne
  exact hs u hu

theorem of_only (hs : s.settled m = t.word c) (honly : ∀ u, s.Claim m u ↔ u = t) (hnodup : (s.holders m).Nodup)
    (hunheld : s.Handed m t ∨ s.Releasing m t → s.holders m = []) (hreleasing : s.Releasing m t → c = true) (hwaits : s.waits m ≠ [] → c = true) : s.Named m where
  claim u hu := ⟨c, (honly u).mp hu ▸ hs⟩
  owner _ := ⟨t, (honly t).mpr rfl⟩
  nodup := hnodup
  unheld u hu := hunheld ((honly u).mp (.inr hu) ▸ hu)
  releasing u hu := by
    obtain rfl := (honly u).mp (.inr (.inr hu))
    rw [hs, hreleasing hu]
  queue hne := ⟨t, by rw [hs, hwaits hne]⟩

theorem of_free (hs : s.settled m = 0#32) (hno : ∀ u, ¬ s.Claim m u) (hwaits : s.waits m = []) : s.Named m where
  claim u hu := absurd hu (hno u)
  owner hne := absurd hs hne
  nodup := by
    rw [List.eq_nil_iff_forall_not_mem.mpr fun u hu => hno u (.inl hu)]
    exact List.nodup_nil
  unheld u hu := absurd (.inr hu) (hno u)
  releasing u hu := absurd (.inr (.inr hu)) (hno u)
  queue hne := absurd hwaits hne

end Named

namespace Inv

theorem window_ne (h : s.Inv) (hm : ∀ u : LocalId, s.word m ≠ u.word true) :
    ∀ w, s.ser.window = some w → w.1 ≠ m := by
  have hs := h.serving
  unfold Serving at hs
  unfold Serializer.window
  cases hser : s.ser <;> simp only [hser] at hs ⊢
  case reply m' prev next later sender =>
    obtain ⟨⟨u, hu⟩, hword, -⟩ := hs
    rintro w ⟨⟩ rfl
    exact hm u (hword.trans hu)
  case exchange m' prev next sender =>
    obtain ⟨⟨u, hu⟩, hword, -⟩ := hs
    rintro w ⟨⟩ rfl
    exact hm u (hword.trans hu)
  all_goals exact fun w hw => nomatch hw

theorem settled_eq (h : s.Inv) (hm : ∀ u : LocalId, s.word m ≠ u.word true) : s.settled m = s.word m :=
  settled_of_window (h.window_ne hm)

theorem settled_cases (h : s.Inv) (m : μ) :
    s.settled m = s.word m ∨ s.settled m = 0#32 ∨ ∃ u : LocalId, s.settled m = u.word true := by
  have hs := h.serving
  unfold Serving at hs
  unfold settled Serializer.window
  cases hser : s.ser <;> simp only [hser] at hs ⊢
  case reply m' prev next later sender =>
    split
    · obtain ⟨-, -, ⟨-, hnext, -⟩ | ⟨-, hnext, -⟩⟩ := hs
      · exact .inr (.inr ⟨later, hnext⟩)
      · exact .inr (.inr ⟨sender, hnext⟩)
    · exact .inl rfl
  case exchange m' prev next sender =>
    split
    · exact .inr hs.2.2.1
    · exact .inl rfl
  all_goals exact .inl trivial

theorem word_cases (h : s.Inv) (m : μ) : s.word m = 0#32 ∨ ∃ (t : LocalId) (c : Bool), s.word m = t.word c := by
  by_cases hm : ∃ u : LocalId, s.word m = u.word true
  · obtain ⟨u, hu⟩ := hm
    exact .inr ⟨u, true, hu⟩
  · have hsettled := h.settled_eq fun u hu => hm ⟨u, hu⟩
    by_cases hzero : s.word m = 0#32
    · exact .inl hzero
    · obtain ⟨t, ht⟩ := (h.named m).owner (hsettled ▸ hzero)
      obtain ⟨c, hc⟩ := (h.named m).claim t ht
      exact .inr ⟨t, c, hsettled ▸ hc⟩

end Inv

-- Steps of threads

def Loose (p : MtxPc μ) : Prop := ∀ m, p ≠ .lockWait m ∧ p ≠ .unlockWait m ∧ p ≠ .unlockCall m

theorem apart_setPc {p : MtxPc μ} (ht : ∀ m, s.pc t ≠ .lockWait m ∧ s.pc t ≠ .unlockWait m)
    (hp : ∀ m, p ≠ .lockWait m ∧ p ≠ .unlockWait m) : Apart s (s.setPc t p) where
  ser := rfl
  waits := rfl
  lockWait u m := by
    rw [setPc_pc]
    split
    · next hu => exact ⟨fun h => absurd h (hp m).1, fun h => absurd (hu ▸ h) (ht m).1⟩
    · rfl
  unlockWait u m := by
    rw [setPc_pc]
    split
    · next hu => exact ⟨fun h => absurd h (hp m).2, fun h => absurd (hu ▸ h) (ht m).2⟩
    · rfl
  word _ _ _ := rfl

theorem apart_setWord {w : BitVec 32} (hm : ∀ u : LocalId, s.word m ≠ u.word true) : Apart s (s.setWord m w) where
  ser := rfl
  waits := rfl
  lockWait _ _ := Iff.rfl
  unlockWait _ _ := Iff.rfl
  word m' u hu := by
    rw [setWord_word, if_neg]
    rintro rfl
    exact hm u hu

theorem Apart.inv (h : Apart s s') (hs : s.Inv) (hnamed : ∀ m, s'.Named m)
    (hloop : ∀ t m prev, s'.pc t = .lockMark m prev → prev ≠ 0#32) : s'.Inv where
  named := hnamed
  loop := hloop
  waiting := h.waiting hs.waiting
  waits_nodup m := h.waits ▸ hs.waits_nodup m
  serving := h.serving hs.serving

namespace Inv

variable {p : MtxPc μ}

theorem loop_setPc (h : ∀ t m prev, s.pc t = .lockMark m prev → prev ≠ 0#32) (hp : ∀ m prev, p = .lockMark m prev → prev ≠ 0#32) {u : LocalId} {prev : BitVec 32}
    (hu : (s.setPc t p).pc u = .lockMark m prev) : prev ≠ 0#32 := by
  rw [setPc_pc] at hu
  split at hu
  · exact hp m prev hu
  · exact h u m prev hu

theorem setPc (h : s.Inv) (ht : Loose (s.pc t)) (hp : Loose p) (hloop : ∀ m prev, p = .lockMark m prev → prev ≠ 0#32) :
    (s.setPc t p).Inv := by
  have hapart : Apart s (s.setPc t p) := apart_setPc (fun m => ⟨(ht m).1, (ht m).2.1⟩) fun m => ⟨(hp m).1, (hp m).2.1⟩
  refine hapart.inv h (fun m => ?_) fun u m prev => loop_setPc h.loop hloop
  refine (h.named m).congr rfl rfl rfl (fun u => hapart.handed) fun u => or_congr_left ?_
  rw [setPc_pc]
  split
  · next hu => exact ⟨fun hc => absurd hc (hp m).2.2, fun hc => absurd (hu ▸ hc) (ht m).2.2⟩
  · rfl

theorem no_conflict {c : Bool} (hm : s.word m = t.word c) (hc : c = false) : ∀ u : LocalId, s.word m ≠ u.word true := by
  rintro u hu
  obtain ⟨-, rfl⟩ := LocalId.word_inj.mp (hm.symm.trans hu)
  cases hc

theorem acquire (h : s.Inv) (hm : s.word m = 0#32) : ((s.setWord m (t.raw ||| LOCKED)).hold t m).Inv := by
  have hno : ∀ u : LocalId, s.word m ≠ u.word true := fun u hu => u.word_ne_zero true (hu.symm.trans hm)
  have hsettled := (h.settled_eq hno).trans hm
  have hapart : Apart s ((s.setWord m (t.raw ||| LOCKED)).hold t m) :=
    let h := apart_setWord hno
    ⟨h.ser, h.waits, h.lockWait, h.unlockWait, h.word⟩
  refine hapart.inv h (fun m' => ?_) h.loop
  by_cases hm' : m' = m
  · subst hm'
    have hnone := fun u => (h.named m').not_claim hsettled (t := u)
    have hholders : ((s.setWord m' (t.raw ||| LOCKED)).hold t m').holders m' = [t] := by
      rw [hold_holders, if_pos rfl]
      exact congrArg (t :: ·) (List.eq_nil_iff_forall_not_mem.mpr fun u hu => hnone u (.inl hu))
    have hwaits : s.waits m' = [] := (h.named m').waits_eq_nil fun u hu => u.word_ne_zero true (hu.symm.trans hsettled)
    refine .of_only (t := t) (c := false) ?_ (fun u => ?_) ?_ (fun ht => ?_) ?_ fun hne => absurd hwaits hne
    · exact (hapart.settled_of_window (h.window_ne hno)).trans ((setWord_word.trans (if_pos rfl)).trans t.locked_eq)
    · have hold := hnone u
      rw [Claim, hholders, List.mem_singleton, hapart.handed]
      exact or_iff_left fun hu => hold (.inr hu)
    · rw [hholders]
      exact List.nodup_singleton t
    · exact absurd (.inr (ht.imp_left hapart.handed.mp)) (hnone t)
    · exact fun ht => absurd (.inr (.inr ht)) (hnone t)
  · refine (h.named m').congr (hapart.settled ?_) ?_ rfl (fun u => hapart.handed) fun u => Iff.rfl
    · exact setWord_word.trans (if_neg hm')
    · exact hold_holders.trans (if_neg hm')

theorem mark (h : s.Inv) {u : LocalId} (hm : s.word m = u.word false) : (s.setWord m (s.word m ||| CONFLICT)).Inv := by
  have hno := no_conflict hm rfl
  have hapart : Apart s (s.setWord m (s.word m ||| CONFLICT)) := apart_setWord hno
  have hsettled := (h.settled_eq hno).trans hm
  refine hapart.inv h (fun m' => ?_) h.loop
  by_cases hm' : m' = m
  · subst hm'
    refine .of_only (t := u) (c := true) ?_ (fun v => ?_) (h.named m').nodup ((h.named m').unheld u) (fun _ => rfl)
      fun _ => rfl
    · rw [hapart.settled_of_window (h.window_ne hno), setWord_word, if_pos rfl, hm, u.word_or_conflict]
    · exact (h.named m').claim_iff hsettled
  · exact (h.named m').congr (hapart.settled (setWord_word.trans (if_neg hm'))) rfl rfl (fun u => hapart.handed) fun u => Iff.rfl

theorem release (h : s.Inv) (hm : s.word m = t.raw ||| LOCKED) (ht : t ∈ s.holders m) (hpc : s.pc t = .idle) :
    ((s.setWord m 0#32).unhold t m).Inv := by
  rw [t.locked_eq] at hm
  have hno := no_conflict hm rfl
  have hsettled := (h.settled_eq hno).trans hm
  have hapart : Apart s ((s.setWord m 0#32).unhold t m) :=
    let h := apart_setWord hno
    ⟨h.ser, h.waits, h.lockWait, h.unlockWait, h.word⟩
  refine hapart.inv h (fun m' => ?_) h.loop
  by_cases hm' : m' = m
  · subst hm'
    have hholders : ((s.setWord m' 0#32).unhold t m').holders m' = (s.holders m').erase t :=
      unhold_holders.trans (if_pos rfl)
    refine .of_free ?_ (fun u hu => ?_) ((h.named m').waits_eq_nil fun u hu => hno u ((h.settled_eq hno).symm.trans hu))
    · exact (hapart.settled_of_window (h.window_ne hno)).trans (setWord_word.trans (if_pos rfl))
    · rw [Claim, hholders, hapart.handed] at hu
      -- only `t` had a claim, as the holder
      obtain rfl : u = t := ((h.named m').claim_iff hsettled).mp (hu.imp_left List.mem_of_mem_erase)
      obtain hu | hu | hu := hu
      · exact ((h.named m').nodup.mem_erase_iff.mp hu).1 rfl
      · exact nomatch hpc.symm.trans hu.1
      · have hc := (h.named m').releasing u hu
        exact Bool.false_ne_true (LocalId.word_inj.mp (hsettled.symm.trans hc)).2
  · refine (h.named m').congr (hapart.settled ?_) ?_ rfl (fun u => hapart.handed) fun u => Iff.rfl
    · exact setWord_word.trans (if_neg hm')
    · exact unhold_holders.trans (if_neg hm')

theorem call (h : s.Inv) (hm : s.word m ≠ t.raw ||| LOCKED) (ht : t ∈ s.holders m) (hpc : s.pc t = .idle) :
    ((s.unhold t m).setPc t (.unlockCall m)).Inv := by
  rw [t.locked_eq] at hm
  have hsettled : s.settled m = t.word true := by
    obtain ⟨c, hc⟩ := (h.named m).claim t (.inl ht)
    obtain heq | heq | ⟨u, heq⟩ := h.settled_cases m
    · cases c
      · exact absurd (heq.symm.trans hc) hm
      · exact hc
    · exact absurd (hc.symm.trans heq) (t.word_ne_zero c)
    · obtain ⟨-, rfl⟩ := LocalId.word_inj.mp (hc.symm.trans heq)
      exact hc
  have hapart : Apart s ((s.unhold t m).setPc t (.unlockCall m)) := by
    have hpcs : ∀ m, s.pc t ≠ .lockWait m ∧ s.pc t ≠ .unlockWait m := fun m => by
      rw [hpc]
      exact ⟨by simp, by simp⟩
    have hapart := apart_setPc (p := .unlockCall m) hpcs fun m => ⟨by simp, by simp⟩
    exact ⟨hapart.ser, hapart.waits, hapart.lockWait, hapart.unlockWait, hapart.word⟩
  refine hapart.inv h (fun m' => ?_) fun u m prev => loop_setPc (s := s.unhold t m) h.loop (by simp)
  by_cases hm' : m' = m
  · subst hm'
    have hholders : ((s.unhold t m').setPc t (.unlockCall m')).holders m' = (s.holders m').erase t :=
      unhold_holders.trans (if_pos rfl)
    have hnil : (s.holders m').erase t = [] := List.eq_nil_iff_forall_not_mem.mpr fun u hu => by
      obtain ⟨hne, hu⟩ := (h.named m').nodup.mem_erase_iff.mp hu
      exact hne (((h.named m').claim_iff hsettled).mp (.inl hu))
    refine .of_only (t := t) (c := true) ?_ (fun u => ⟨fun hu => ?_, ?_⟩) ?_ (fun _ => hholders.trans hnil) (fun _ => rfl)
      fun _ => rfl
    · exact (hapart.settled rfl).trans hsettled
    · by_contra hne
      rw [Claim, hholders, hapart.handed] at hu
      refine hne (((h.named m').claim_iff hsettled).mp (Or.imp List.mem_of_mem_erase (Or.imp_right (Or.imp_left ?_)) hu))
      rw [setPc_pc, if_neg hne]
      exact id
    · rintro rfl
      exact .inr (.inr (.inl (setPc_pc.trans (if_pos rfl))))
    · rw [hholders]
      exact (h.named m').nodup.erase t
  · refine (h.named m').congr (hapart.settled rfl) (unhold_holders.trans (if_neg hm')) rfl (fun u => hapart.handed)
      fun u => or_congr_left ?_
    rw [setPc_pc]
    split
    · next hu =>
      subst hu
      rw [hpc]
      exact ⟨fun hc => absurd (MtxPc.unlockCall.inj hc).symm hm', fun hc => nomatch hc⟩
    · rfl

end Inv

-- Steps of the serializer

theorem settled_of_none (h : s.ser.window = none) : s.settled m = s.word m :=
  settled_of_window fun _ hw => nomatch h.symm.trans hw

namespace Inv

theorem setSer (h : s.Inv) {ser : Serializer μ} (hwindow : ser.window = s.ser.window)
    (haddressed : ser.addressed = s.ser.addressed) (hhandled : ser.handled = s.ser.handled)
    (hunlock : ∀ t m xcpu, ser ≠ .unlockLoad t m xcpu ∧ s.ser ≠ .unlockLoad t m xcpu)
    (hserving : (s.setSer ser).Serving) : (s.setSer ser).Inv where
  named m := by
    refine (h.named m).congr (settled_congr hwindow rfl) rfl rfl (fun t => ?_) fun t => or_congr_right ?_
    · exact and_congr_right' (haddressed ▸ Iff.rfl)
    · exact ⟨fun ⟨x, hx⟩ => absurd hx (hunlock t m x).1, fun ⟨x, hx⟩ => absurd hx (hunlock t m x).2⟩
  loop := h.loop
  waiting m t ht := hhandled ▸ h.waiting m t ht
  waits_nodup := h.waits_nodup
  serving := hserving

theorem enqueue (h : s.Inv) {prev : BitVec 32} (hser : s.ser = .lockMark t m prev)
    (hm : ∃ u : LocalId, s.word m = u.word true) : ((s.enqueue t m).setSer .ready).Inv where
  named m' := by
    have hsettled : s.settled m' = s.word m' := settled_of_none (by rw [hser]; rfl)
    have hnamed := h.named m'
    have hhanded (u : LocalId) : ((s.enqueue t m).setSer .ready).Handed m' u ↔ s.Handed m' u :=
      and_congr_right' (by rw [hser]; rfl)
    have hreleasing (u : LocalId) : ((s.enqueue t m).setSer .ready).Releasing m' u ↔ s.Releasing m' u :=
      or_congr_right ⟨fun ⟨x, hx⟩ => (nomatch hx), fun ⟨x, hx⟩ => (nomatch hser.symm.trans hx)⟩
    refine hnamed.of_same ?_ rfl hhanded hreleasing fun hne => ?_
    · exact (settled_of_none rfl).trans hsettled.symm
    · by_cases hm' : m' = m
      · subst hm'
        rw [hsettled]
        exact hm
      · refine hnamed.queue fun hnil => hne ?_
        exact enqueue_waits.trans ((if_neg hm').trans hnil)
  loop := h.loop
  waiting m' u hu := by
    have hserving := h.serving
    rw [Serving, hser] at hserving
    refine ⟨?_, List.not_mem_nil⟩
    rw [show ((s.enqueue t m).setSer .ready).waits m' = _ from enqueue_waits] at hu
    split at hu
    · next hm' =>
      subst hm'
      obtain hu | hu := List.mem_append.mp hu
      · exact (h.waiting m' u hu).1
      · exact List.mem_singleton.mp hu ▸ hserving.1
    · exact (h.waiting m' u hu).1
  waits_nodup m' := by
    rw [show ((s.enqueue t m).setSer .ready).waits m' = _ from enqueue_waits]
    split
    · refine List.Nodup.append (h.waits_nodup m) (List.nodup_singleton t) (List.disjoint_singleton.mpr fun ht => ?_)
      refine (h.waiting m t ht).2 ?_
      rw [hser]
      exact List.mem_singleton_self t
    · exact h.waits_nodup m'
  serving := trivial

theorem grant (h : s.Inv) {prev : BitVec 32} (hser : s.ser = .lockTry t m prev) (hm : s.word m = 0#32) :
    ((s.setWord m (t.raw ||| LOCKED)).setSer (.answer t)).Inv where
  named m' := by
    have hserving := h.serving
    rw [Serving, hser] at hserving
    have hsettled : s.settled m' = s.word m' := settled_of_none (by rw [hser]; rfl)
    have hsettled' : ((s.setWord m (t.raw ||| LOCKED)).setSer (.answer t)).settled m' = _ :=
      (settled_of_none rfl).trans setWord_word
    have hno (u : LocalId) : ¬ s.Handed m' u := fun hu => by
      have hmem := hu.2
      rw [hser] at hmem
      exact List.not_mem_nil hmem
    have hreleasing (u : LocalId) :
        ((s.setWord m (t.raw ||| LOCKED)).setSer (.answer t)).Releasing m' u ↔ s.Releasing m' u :=
      or_congr_right ⟨fun ⟨x, hx⟩ => (nomatch hx), fun ⟨x, hx⟩ => (nomatch hser.symm.trans hx)⟩
    by_cases hm' : m' = m
    · subst hm'
      replace hsettled' := hsettled'.trans ((if_pos rfl).trans t.locked_eq)
      have hfree := hsettled.trans hm
      have hnone := fun u => (h.named m').not_claim hfree (t := u)
      have hnil : s.holders m' = [] := List.eq_nil_iff_forall_not_mem.mpr fun u hu => hnone u (.inl hu)
      refine .of_only hsettled' (fun u => ⟨?_, ?_⟩) (h.named m').nodup (fun _ => hnil) (fun hu => ?_) fun hne => ?_
      · rintro (hu | hu | hu)
        · exact absurd (.inl hu) (hnone u)
        · exact List.mem_singleton.mp hu.2
        · exact absurd (.inr (.inr ((hreleasing u).mp hu))) (hnone u)
      · rintro rfl
        exact .inr (.inl ⟨hserving.1, List.mem_singleton_self u⟩)
      · exact absurd (.inr (.inr ((hreleasing t).mp hu))) (hnone t)
      · refine absurd ((h.named m').waits_eq_nil fun u hu => ?_) hne
        exact u.word_ne_zero true (hu.symm.trans hfree)
    · rw [if_neg hm'] at hsettled'
      refine (h.named m').congr (hsettled'.trans hsettled.symm) rfl rfl (fun u => ⟨fun hu => ?_, fun hu => absurd hu (hno u)⟩) hreleasing
      obtain rfl := List.mem_singleton.mp hu.2
      exact absurd (MtxPc.lockWait.inj (hserving.1.symm.trans hu.1)).symm hm'
  loop := h.loop
  waiting m' u hu := by
    have hold := h.waiting m' u hu
    rw [hser] at hold
    exact hold
  waits_nodup := h.waits_nodup
  serving := by
    have hserving := h.serving
    rw [Serving, hser] at hserving
    exact ⟨m, .inl hserving.1⟩

section
variable {ser : Serializer μ} (hwindow : ser.window = s.ser.window)
  (haddressed : ∀ u, u ≠ t → (u ∈ ser.addressed ↔ u ∈ s.ser.addressed))
  (hhandled : ∀ u ∈ ser.handled, u ∈ s.ser.handled)
  (hunlock : ∀ t m xcpu, ser ≠ .unlockLoad t m xcpu ∧ s.ser ≠ .unlockLoad t m xcpu)
include haddressed hunlock

theorem woken_iff {u : LocalId} (hu : u ≠ t) :
    (((s.setPc t .idle).setSer ser).Handed m u ↔ s.Handed m u) ∧
      (((s.setPc t .idle).setSer ser).Releasing m u ↔ s.Releasing m u) := by
  have hpc : ((s.setPc t .idle).setSer ser).pc u = s.pc u := setPc_pc.trans (if_neg hu)
  rw [Handed, Handed, Releasing, Releasing, hpc]
  refine ⟨and_congr_right' (haddressed u hu), or_congr_right ?_⟩
  exact ⟨fun ⟨x, hx⟩ => absurd hx (hunlock u m x).1, fun ⟨x, hx⟩ => absurd hx (hunlock u m x).2⟩

theorem not_woken : ¬ (((s.setPc t .idle).setSer ser).Handed m t ∨ ((s.setPc t .idle).setSer ser).Releasing m t) := by
  have hpc : ((s.setPc t .idle).setSer ser).pc t = .idle := setPc_pc.trans (if_pos rfl)
  rintro (hu | hu | ⟨x, hx⟩)
  · exact nomatch hpc.symm.trans hu.1
  · exact nomatch hpc.symm.trans hu
  · exact (hunlock t m x).1 hx

include hwindow hhandled

theorem wake_lock (h : s.Inv) (hpc : s.pc t = .lockWait m) (ht : t ∈ s.ser.addressed)
    (hserving : ((s.wake t).setSer ser).Serving) : ((s.wake t).setSer ser).Inv := by
  have hwake : s.wake t = (s.hold t m).setPc t .idle := by rw [wake, hpc]
  rw [hwake] at hserving ⊢
  have hreleasing : ∀ m', ¬ s.Releasing m' t := by
    rintro m' (hu | ⟨x, hx⟩)
    · exact nomatch hpc.symm.trans hu
    · exact (hunlock t m' x).2 hx
  refine ⟨fun m' => ?_, fun u m' prev hu => ?_, fun m' u hu => ?_, h.waits_nodup, hserving⟩
  · by_cases hm' : m' = m
    · subst hm'
      have hclaim : s.Claim m' t := .inr (.inl ⟨hpc, ht⟩)
      obtain ⟨c, hc⟩ := (h.named m').claim t hclaim
      have hholders : (((s.hold t m').setPc t .idle).setSer ser).holders m' = [t] := by
        refine hold_holders.trans ((if_pos rfl).trans ?_)
        rw [(h.named m').unheld t (.inl ⟨hpc, ht⟩)]
      have hsettled : (((s.hold t m').setPc t .idle).setSer ser).settled m' = s.settled m' := settled_congr hwindow rfl
      have hnot := not_woken (m := m') haddressed hunlock
      refine .of_only (t := t) (c := c) (hsettled.trans hc) (fun u => ?_) ?_ (fun hu => absurd hu hnot)
        (fun hu => absurd (.inr hu) hnot) fun hne => ?_
      · rw [Claim, hholders, List.mem_singleton, or_iff_left_iff_imp]
        by_contra hu
        obtain ⟨hu, hne⟩ := Classical.not_imp.mp hu
        have hiff := woken_iff (m := m') haddressed hunlock hne
        refine hne (((h.named m').claim_iff hc).mp (.inr ?_))
        exact hu.imp hiff.1.mp hiff.2.mp
      · rw [hholders]
        exact List.nodup_singleton t
      · obtain ⟨u, hu⟩ := (h.named m').queue hne
        exact (LocalId.word_inj.mp (hc.symm.trans hu)).2
    · refine (h.named m').congr (settled_congr hwindow rfl) (hold_holders.trans (if_neg hm')) rfl (fun u => ?_) fun u => ?_
      · by_cases hu : u = t
        · subst hu
          refine iff_of_false (fun hu => not_woken (m := m') haddressed hunlock (.inl hu)) fun hu => ?_
          exact hm' (MtxPc.lockWait.inj (hu.1.symm.trans hpc))
        · exact (woken_iff (m := m') haddressed hunlock hu).1
      · by_cases hu : u = t
        · subst hu
          exact iff_of_false (fun hu => not_woken (m := m') haddressed hunlock (.inr hu)) (hreleasing m')
        · exact (woken_iff (m := m') haddressed hunlock hu).2
  · exact loop_setPc (s := s.hold t m) h.loop (by simp) hu
  · obtain ⟨hlock, hnot⟩ := h.waiting m' u hu
    refine ⟨setPc_pc.trans ((if_neg ?_).trans hlock), fun hmem => hnot (hhandled u hmem)⟩
    rintro rfl
    exact hnot (s.ser.addressed_subset ht)

theorem wake_unlock (h : s.Inv) (hpc : s.pc t = .unlockWait m)
    (hserving : ((s.wake t).setSer ser).Serving) : ((s.wake t).setSer ser).Inv := by
  have hwake : s.wake t = s.setPc t .idle := by rw [wake, hpc]
  rw [hwake] at hserving ⊢
  refine ⟨fun m' => ?_, fun u m' prev hu => loop_setPc h.loop (by simp) hu, fun m' u hu => ?_, h.waits_nodup, hserving⟩
  · have hnot := not_woken (m := m') haddressed hunlock
    refine (h.named m').congr (settled_congr hwindow rfl) rfl rfl (fun u => ?_) fun u => ?_
    · by_cases hu : u = t
      · subst hu
        exact iff_of_false (fun hu => hnot (.inl hu)) fun hu => nomatch hpc.symm.trans hu.1
      · exact (woken_iff (m := m') haddressed hunlock hu).1
    · by_cases hu : u = t
      · subst hu
        refine iff_of_false (fun hu => hnot (.inr hu)) ?_
        rintro (hu | ⟨x, hx⟩)
        · exact nomatch hpc.symm.trans hu
        · exact (hunlock u m' x).2 hx
      · exact (woken_iff (m := m') haddressed hunlock hu).2
  · obtain ⟨hlock, hnot⟩ := h.waiting m' u hu
    refine ⟨setPc_pc.trans ((if_neg ?_).trans hlock), fun hmem => hnot (hhandled u hmem)⟩
    rintro rfl
    exact nomatch hpc.symm.trans hlock

end

theorem receive_lock (h : s.Inv) (hser : s.ser = .ready) (hpc : s.pc t = .lockCall m) :
    ((s.setPc t (.lockWait m)).setSer (.lockLoad t m)).Inv := by
  refine ⟨fun m' => ?_, fun u m' prev hu => loop_setPc h.loop (by simp) hu, fun m' u hu => ?_, h.waits_nodup, ?_⟩
  · refine (h.named m').congr (settled_congr (by rw [hser]; rfl) rfl) rfl rfl (fun u => ?_) fun u => ?_
    · refine iff_of_false (fun hu => List.not_mem_nil hu.2) fun hu => ?_
      have hmem := hu.2
      rw [hser] at hmem
      exact List.not_mem_nil hmem
    · refine or_congr ?_ ⟨fun ⟨x, hx⟩ => (nomatch hx), fun ⟨x, hx⟩ => (nomatch hser.symm.trans hx)⟩
      show (s.setPc t (.lockWait m)).pc u = _ ↔ _
      rw [setPc_pc]
      split
      · next hu =>
        subst hu
        rw [hpc]
        simp
      · rfl
  · obtain ⟨hlock, -⟩ := h.waiting m' u hu
    have hu : u ≠ t := by
      rintro rfl
      exact nomatch hpc.symm.trans hlock
    exact ⟨setPc_pc.trans ((if_neg hu).trans hlock), fun hmem => hu (List.mem_singleton.mp hmem)⟩
  · exact setPc_pc.trans (if_pos rfl)

theorem receive_unlock (h : s.Inv) (hser : s.ser = .ready) (hpc : s.pc t = .unlockCall m) (xcpu : Bool) :
    ((s.setPc t (.unlockWait m)).setSer (.unlockLoad t m xcpu)).Inv := by
  refine ⟨fun m' => ?_, fun u m' prev hu => loop_setPc h.loop (by simp) hu, fun m' u hu => ?_, h.waits_nodup, ?_⟩
  · refine (h.named m').congr (settled_congr (by rw [hser]; rfl) rfl) rfl rfl (fun u => ?_) fun u => ?_
    · refine iff_of_false (fun hu => List.not_mem_nil hu.2) fun hu => ?_
      have hmem := hu.2
      rw [hser] at hmem
      exact List.not_mem_nil hmem
    · rw [Releasing, Releasing, hser]
      show (s.setPc t (.unlockWait m)).pc u = _ ∨ (∃ x, Serializer.unlockLoad t m xcpu = _) ↔ _
      rw [setPc_pc]
      split
      · next hu =>
        subst hu
        rw [hpc]
        simp
      · next hu => simp [Ne.symm hu]
  · obtain ⟨hlock, -⟩ := h.waiting m' u hu
    have hu : u ≠ t := by
      rintro rfl
      exact nomatch hpc.symm.trans hlock
    exact ⟨setPc_pc.trans ((if_neg hu).trans hlock), fun hmem => hu (List.mem_singleton.mp hmem)⟩
  · exact setPc_pc.trans (if_pos rfl)

section
variable {xcpu : Bool} (hser : s.ser = .unlockLoad t m xcpu)
include hser

theorem of_unlockLoad (h : s.Inv) :
    s.pc t = .unlockWait m ∧ s.word m = t.word true ∧ s.holders m = [] ∧ ∀ u, s.Claim m u ↔ u = t := by
  have hserving := h.serving
  rw [Serving, hser] at hserving
  have hsettled : s.settled m = s.word m := settled_of_none (by rw [hser]; rfl)
  have hreleasing : s.Releasing m t := .inr ⟨xcpu, hser⟩
  have hword := (h.named m).releasing t hreleasing
  exact ⟨hserving, hsettled.symm.trans hword, (h.named m).unheld t (.inr hreleasing), fun u => (h.named m).claim_iff hword⟩

theorem named_of_ne (h : s.Inv) {m' : μ} {ser : Serializer μ} {waits : μ → List LocalId} (hm' : m' ≠ m)
    (hwindow : ∀ w, ser.window = some w → w.1 = m) (hunlock : ∀ u m xcpu, ser ≠ .unlockLoad u m xcpu)
    (haddressed : ∀ u ∈ ser.addressed, s.pc u ≠ .lockWait m') (hwaits : waits m' = s.waits m') :
    ({ s with waits }.setSer ser).Named m' := by
  have hsettled : s.settled m' = s.word m' := settled_of_none (by rw [hser]; rfl)
  refine (h.named m').congr ?_ rfl hwaits (fun u => iff_of_false (fun hu => haddressed u hu.2 hu.1) fun hu => ?_) fun u => ?_
  · rw [hsettled]
    refine settled_of_window fun w hw => ?_
    rw [hwindow w hw]
    exact hm'.symm
  · have hmem := hu.2
    rw [hser] at hmem
    exact List.not_mem_nil hmem
  · refine or_congr_right (iff_of_false (fun ⟨x, hx⟩ => hunlock u m' x hx) fun ⟨x, hx⟩ => ?_)
    exact hm' (Serializer.unlockLoad.inj (hser.symm.trans hx)).2.1.symm

theorem free (h : s.Inv) (hwaits : s.waits m = []) : (s.setSer (.exchange m (s.word m) 0#32 t)).Inv := by
  obtain ⟨hpc, hword, hholders, hclaim⟩ := h.of_unlockLoad hser
  refine ⟨fun m' => ?_, h.loop, fun m' u hu => ?_, h.waits_nodup, ⟨t, hword⟩, rfl, .inl rfl, .inl hpc⟩
  · by_cases hm' : m' = m
    · subst hm'
      refine .of_free (if_pos rfl) (fun u hu => ?_) hwaits
      obtain hu | hu | hu | ⟨x, hx⟩ := hu
      · exact List.not_mem_nil (hholders ▸ hu)
      · have hlock := hu.1
        rw [List.mem_singleton.mp hu.2] at hlock
        exact nomatch hpc.symm.trans hlock
      · obtain rfl := (hclaim u).mp (.inr (.inr (.inl hu)))
        exact nomatch hpc.symm.trans hu
      · cases hx
    · show ({ s with waits := s.waits }.setSer (.exchange m (s.word m) 0#32 t)).Named m'
      refine h.named_of_ne hser hm' (fun w hw => ?_) (fun _ _ _ hx => nomatch hx) (fun u hu hlock => ?_) rfl
      · cases hw
        rfl
      · rw [List.mem_singleton.mp hu] at hlock
        exact nomatch hpc.symm.trans hlock
  · obtain ⟨hlock, hnot⟩ := h.waiting m' u hu
    rw [hser] at hnot
    exact ⟨hlock, hnot⟩

theorem pop (h : s.Inv) {w : LocalId} {waits : List LocalId} (hwaits : s.waits m = w :: waits) {later sender : LocalId}
    (hreply : later = w ∧ sender = t ∨ later = t ∧ sender = w) :
    ({ s with waits := Function.update s.waits m waits }.setSer (.reply m (s.word m) (w.word true) later sender)).Inv := by
  obtain ⟨hpc, hword, hholders, hclaim⟩ := h.of_unlockLoad hser
  obtain ⟨hlock, hnot⟩ := h.waiting m w (by rw [hwaits]; exact List.mem_cons_self)
  have hmem (u : LocalId) : u ∈ [later, sender] ↔ u = w ∨ u = t := by
    obtain ⟨rfl, rfl⟩ | ⟨rfl, rfl⟩ := hreply <;> simp [or_comm]
  have hnodup := hwaits ▸ h.waits_nodup m
  have hsub (m' : μ) (u : LocalId) (hu : u ∈ Function.update s.waits m waits m') : u ∈ s.waits m' ∧ u ≠ w := by
    rw [Function.update_apply] at hu
    split at hu
    · next hm' =>
      subst hm'
      rw [hwaits]
      exact ⟨List.mem_cons_of_mem _ hu, fun heq => (List.nodup_cons.mp hnodup).1 (heq ▸ hu)⟩
    · next hm' =>
      refine ⟨hu, ?_⟩
      rintro rfl
      exact hm' (MtxPc.lockWait.inj ((h.waiting m' u hu).1.symm.trans hlock))
  refine ⟨fun m' => ?_, h.loop, fun m' u hu => ?_, fun m' => ?_, ⟨t, hword⟩, rfl, ?_⟩
  · by_cases hm' : m' = m
    · subst hm'
      have honly (u : LocalId) : ({ s with waits := Function.update s.waits m' waits }.setSer
          (.reply m' (s.word m') (w.word true) later sender)).Claim m' u ↔ u = w := by
        constructor
        · rintro (hu | ⟨hu, haddressed⟩ | hu | ⟨x, hx⟩)
          · exact absurd (hholders ▸ hu) List.not_mem_nil
          · obtain rfl | rfl := (hmem u).mp haddressed
            · rfl
            · exact nomatch hpc.symm.trans hu
          · obtain rfl := (hclaim u).mp (.inr (.inr (.inl hu)))
            exact nomatch hpc.symm.trans hu
          · cases hx
        · rintro rfl
          exact .inr (.inl ⟨hlock, (hmem u).mpr (.inl rfl)⟩)
      exact .of_only (if_pos rfl) honly (h.named m').nodup (fun _ => hholders) (fun _ => rfl) fun _ => rfl
    · refine h.named_of_ne hser hm' (fun w hw => ?_) (fun _ _ _ hx => nomatch hx) (fun u hu hlock' => ?_)
        (Function.update_of_ne hm' _ _)
      · cases hw
        rfl
      · obtain rfl | rfl := (hmem u).mp hu
        · exact hm' (MtxPc.lockWait.inj (hlock'.symm.trans hlock))
        · exact nomatch hpc.symm.trans hlock'
  · obtain ⟨hu, hne⟩ := hsub m' u hu
    obtain ⟨hlock', hnot'⟩ := h.waiting m' u hu
    refine ⟨hlock', fun hu' => ?_⟩
    obtain rfl | rfl := (hmem u).mp hu'
    · exact hne rfl
    · exact nomatch hpc.symm.trans hlock'
  · show (Function.update s.waits m waits m').Nodup
    rw [Function.update_apply]
    split
    · exact (List.nodup_cons.mp hnodup).2
    · exact h.waits_nodup m'
  · obtain ⟨rfl, rfl⟩ | ⟨rfl, rfl⟩ := hreply
    · exact .inl ⟨hlock, rfl, hpc⟩
    · exact .inr ⟨hlock, rfl, hpc⟩

end

theorem exchange (h : s.Inv) {prev next : BitVec 32} (hser : s.ser = .exchange m prev next t) :
    ((s.setWord m next).setSer (.answer t)).Inv := by
  have hserving := h.serving
  rw [Serving, hser] at hserving
  refine ⟨fun m' => ?_, h.loop, fun m' u hu => ?_, h.waits_nodup, m, ?_⟩
  · have hsettled : s.settled m' = if m' = m then next else s.word m' := by
      rw [settled, hser]
      exact if_congr eq_comm rfl rfl
    refine (h.named m').congr ?_ rfl rfl (fun u => and_congr_right' ?_) fun u => or_congr_right ?_
    · rw [hsettled]
      exact (settled_of_none rfl).trans setWord_word
    · rw [hser]
      rfl
    · exact ⟨fun ⟨x, hx⟩ => (nomatch hx), fun ⟨x, hx⟩ => (nomatch hser.symm.trans hx)⟩
  · have hold := h.waiting m' u hu
    rw [hser] at hold
    exact hold
  · obtain ⟨-, -, -, hpc | ⟨hpc, -⟩⟩ := hserving
    · exact .inr hpc
    · exact .inl hpc

end Inv

-- All steps

theorem inv_init : (init : MtxState μ).Inv where
  named m := by
    refine .of_free rfl (fun u hu => ?_) rfl
    obtain hu | ⟨hu, -⟩ | hu | ⟨x, hx⟩ := hu
    · cases hu
    · cases hu
    · cases hu
    · cases hx
  loop _ _ _ hu := nomatch hu
  waiting _ _ ht := nomatch ht
  waits_nodup _ := List.nodup_nil
  serving := trivial

theorem Inv.conflicted (h : s.Inv) (hm : ~~~(s.word m) &&& CONFLICT = 0#32) : ∃ u : LocalId, s.word m = u.word true := by
  obtain hzero | ⟨u, c, hu⟩ := h.word_cases m
  · rw [hzero] at hm
    exact absurd hm (by decide)
  · cases c
    · rw [hu] at hm
      exact absurd hm ((u.not_word_and_conflict false).mpr rfl)
    · exact ⟨u, hu⟩

theorem Inv.unmarked (h : s.Inv) (hne : s.word m ≠ 0#32) (hm : ~~~(s.word m) &&& CONFLICT ≠ 0#32) :
    ∃ u : LocalId, s.word m = u.word false := by
  obtain hzero | ⟨u, c, hu⟩ := h.word_cases m
  · exact absurd hzero hne
  · rw [hu, u.not_word_and_conflict] at hm
    exact ⟨u, hm ▸ hu⟩

theorem Inv.lock (h : s.Inv) (hs : s.lock t m = some s') : s'.Inv := by
  unfold MtxState.lock at hs
  split at hs
  · next hpc =>
    cases hs
    refine h.setPc ?_ (fun m => by simp) (by simp)
    rw [hpc]
    exact fun m => by simp
  · cases hs

theorem Inv.run (h : s.Inv) (hs : s.run t = some s') : s'.Inv := by
  unfold MtxState.run at hs
  split at hs
  · next m prev hpc =>
    have hloose : Loose (s.pc t) := by
      rw [hpc]
      exact fun m => by simp
    split at hs
    · split at hs
      · next hm =>
        cases hs
        exact (h.acquire hm).setPc hloose (fun m => by simp) (by simp)
      · next hm =>
        cases hs
        exact h.setPc hloose (fun m => by simp) fun _ _ heq => (MtxPc.lockMark.inj heq).2 ▸ hm
    · next hprev =>
      cases hs
      exact h.setPc hloose (fun m => by simp) fun _ _ heq => (MtxPc.lockMark.inj heq).2 ▸ hprev
  · next m prev hpc =>
    have hloose : Loose (s.pc t) := by
      rw [hpc]
      exact fun m => by simp
    split at hs
    · next hconflict =>
      split at hs
      · next hm =>
        cases hs
        subst hm
        obtain ⟨u, hu⟩ := h.unmarked (h.loop t m _ hpc) hconflict
        exact (h.mark hu).setPc hloose (fun m => by simp) (by simp)
      · cases hs
        exact h.setPc hloose (fun m => by simp) (by simp)
    · cases hs
      exact h.setPc hloose (fun m => by simp) (by simp)
  · cases hs

theorem Inv.trylock (h : s.Inv) (hs : s.trylock t m = some s') : s'.Inv := by
  unfold MtxState.trylock at hs
  split at hs
  · split at hs
    · next hm =>
      cases hs
      exact h.acquire hm
    · cases hs
      exact h
  · cases hs

theorem Inv.unlock (h : s.Inv) (hs : s.unlock t m = some s') : s'.Inv := by
  unfold MtxState.unlock at hs
  split at hs
  · next hpc =>
    split at hs
    · next ht =>
      split at hs
      · next hm =>
        cases hs
        exact h.release hm ht hpc
      · next hm =>
        cases hs
        exact h.call hm ht hpc
    · cases hs
  · cases hs

theorem Inv.receive (h : s.Inv) {xcpu : Bool} (hs : s.receive t xcpu = some s') : s'.Inv := by
  unfold MtxState.receive at hs
  split at hs
  · next hser hpc =>
    cases hs
    exact h.receive_lock hser hpc
  · next hser hpc =>
    cases hs
    exact h.receive_unlock hser hpc xcpu
  · cases hs

theorem Inv.serUnlockOp (h : s.Inv) {xcpu : Bool} (hser : s.ser = .unlockLoad t m xcpu) : (s.serUnlockOp t m xcpu).Inv := by
  obtain ⟨-, hword, -⟩ := h.of_unlockLoad hser
  have howner : s.word m &&& ~~~0x3f#32 = t.raw := by rw [hword, t.word_owner]
  unfold MtxState.serUnlockOp
  rw [if_neg (not_not.mpr howner)]
  split
  · next hwaits => exact h.free hser hwaits
  · next w waits hwaits =>
    dsimp only
    rw [w.handed_eq]
    split
    · exact h.pop hser hwaits (.inr ⟨rfl, rfl⟩)
    · exact h.pop hser hwaits (.inl ⟨rfl, rfl⟩)

theorem Inv.wake (h : s.Inv) {ser : Serializer μ} (ht : t ∈ s.ser.addressed)
    (hpc : ∃ m, s.pc t = .lockWait m ∨ s.pc t = .unlockWait m) (hwindow : ser.window = s.ser.window)
    (haddressed : ∀ u, u ≠ t → (u ∈ ser.addressed ↔ u ∈ s.ser.addressed))
    (hhandled : ∀ u ∈ ser.handled, u ∈ s.ser.handled)
    (hunlock : ∀ t m xcpu, ser ≠ .unlockLoad t m xcpu ∧ s.ser ≠ .unlockLoad t m xcpu)
    (hserving : ((s.wake t).setSer ser).Serving) : ((s.wake t).setSer ser).Inv := by
  obtain ⟨m, hpc | hpc⟩ := hpc
  · exact h.wake_lock hwindow haddressed hhandled hunlock hpc ht hserving
  · exact h.wake_unlock hwindow haddressed hhandled hunlock hpc hserving

theorem wake_word : (s.wake t).word = s.word := by
  unfold wake
  split <;> rfl

theorem wake_pc {u : LocalId} (hu : u ≠ t) : (s.wake t).pc u = s.pc u := by
  unfold wake
  split
  · exact setPc_pc.trans (if_neg hu)
  · exact setPc_pc.trans (if_neg hu)
  · rfl

theorem Inv.serLockOp (h : s.Inv) {prev : BitVec 32} (hser : s.ser = .lockMark t m prev)
    (hprev : ~~~prev &&& CONFLICT ≠ 0#32) (hm : s.word m = prev) :
    (((s.setWord m (prev ||| CONFLICT)).enqueue t m).setSer .ready).Inv := by
  have hserving := h.serving
  rw [Serving, hser] at hserving
  subst hm
  obtain ⟨u, hu⟩ := h.unmarked hserving.2.1 hprev
  refine (h.mark hu).enqueue hser ⟨u, ?_⟩
  rw [setWord_word, if_pos rfl, hu, u.word_or_conflict]

theorem Inv.serve (h : s.Inv) (hs : s.serve = some s') : s'.Inv := by
  have hserving := h.serving
  unfold MtxState.serve at hs
  split at hs
  · cases hs
  · next t m hser =>
    rw [Serving, hser] at hserving
    cases hs
    exact h.setSer (by rw [hser]; rfl) (by rw [hser]; rfl) (by rw [hser]; rfl) (fun _ _ _ => by simp [hser])
      ⟨hserving, h.conflicted⟩
  · next t m prev hser =>
    rw [Serving, hser] at hserving
    split at hs
    · split at hs
      · next hm =>
        cases hs
        exact h.grant hser hm
      · next hm =>
        cases hs
        exact h.setSer (by rw [hser]; rfl) (by rw [hser]; rfl) (by rw [hser]; rfl) (fun _ _ _ => by simp [hser])
          ⟨hserving.1, hm, h.conflicted⟩
    · next hprev =>
      cases hs
      exact h.setSer (by rw [hser]; rfl) (by rw [hser]; rfl) (by rw [hser]; rfl) (fun _ _ _ => by simp [hser])
        ⟨hserving.1, hprev, hserving.2⟩
  · next t m prev hser =>
    rw [Serving, hser] at hserving
    split at hs
    · next hprev =>
      split at hs
      · next hm =>
        cases hs
        exact h.serLockOp hser hprev hm
      · cases hs
        exact h.setSer (by rw [hser]; rfl) (by rw [hser]; rfl) (by rw [hser]; rfl) (fun _ _ _ => by simp [hser])
          ⟨hserving.1, h.conflicted⟩
    · next hprev =>
      cases hs
      exact h.enqueue hser (hserving.2.2 (not_not.mp hprev))
  · next t m xcpu hser =>
    cases hs
    exact h.serUnlockOp hser
  · next m prev next later sender hser =>
    rw [Serving, hser] at hserving
    cases hs
    obtain ⟨hprev, hword, hreply⟩ := hserving
    have hne : sender ≠ later := by
      rintro rfl
      obtain ⟨hlock, -, hunlock⟩ | ⟨hlock, -, hunlock⟩ := hreply
      · exact nomatch hlock.symm.trans hunlock
      · exact nomatch hlock.symm.trans hunlock
    refine h.wake (by rw [hser]; exact List.mem_cons_self) ⟨m, ?_⟩ (by rw [hser]; rfl) (fun u hu => ?_) (fun u hu => ?_)
      (fun _ _ _ => by simp [hser]) ⟨hprev, ?_, ?_, ?_⟩
    · exact hreply.imp (fun hr => hr.1) fun hr => hr.2.2
    · rw [hser]
      exact ⟨List.mem_cons_of_mem _, fun hmem => (List.mem_cons.mp hmem).resolve_left hu⟩
    · rw [hser]
      exact List.mem_cons_of_mem _ hu
    · exact (congrFun wake_word m).trans hword
    · exact .inr (hreply.elim (fun hr => ⟨later, hr.2.1⟩) fun hr => ⟨sender, hr.2.1⟩)
    · show (s.wake later).pc sender = _ ∨ (s.wake later).pc sender = _ ∧ _
      rw [wake_pc hne]
      exact hreply.imp (fun hr => hr.2.2) fun hr => ⟨hr.1, hr.2.1⟩
  · next m prev next sender hser =>
    cases hs
    exact h.exchange hser
  · next sender hser =>
    rw [Serving, hser] at hserving
    cases hs
    refine h.wake (by rw [hser]; exact List.mem_singleton_self _) hserving (by rw [hser]; rfl) (fun u hu => ?_)
      (fun u hu => nomatch hu) (fun _ _ _ => by simp [hser]) trivial
    rw [hser]
    exact iff_of_false List.not_mem_nil fun hmem => hu (List.mem_singleton.mp hmem)

theorem Inv.exec {step : MtxStep μ} (h : s.Inv) (hs : s.exec step = some s') : s'.Inv := by
  cases step with
  | lock t m => exact h.lock hs
  | trylock t m => exact h.trylock hs
  | unlock t m => exact h.unlock hs
  | run t => exact h.run hs
  | receive t xcpu => exact h.receive hs
  | serve => exact h.serve hs

theorem Inv.hands_on (h : s.Inv) {xcpu : Bool} (hser : s.ser = .unlockLoad t m xcpu) {w : LocalId}
    {waits : List LocalId} (hwaits : s.waits m = w :: waits) : ∃ s', s.serve = some s' ∧ s'.Handed m w := by
  obtain ⟨-, hword, -⟩ := h.of_unlockLoad hser
  have howner : s.word m &&& ~~~0x3f#32 = t.raw := by rw [hword, t.word_owner]
  have hlock := (h.waiting m w (by rw [hwaits]; exact List.mem_cons_self)).1
  refine ⟨s.serUnlockOp t m xcpu, by rw [MtxState.serve, hser], ?_⟩
  unfold MtxState.serUnlockOp
  rw [if_neg (not_not.mpr howner), hwaits]
  refine ⟨hlock, ?_⟩
  dsimp only [setSer]
  split
  · exact List.mem_cons_of_mem _ List.mem_cons_self
  · exact List.mem_cons_self

theorem Inv.kept (h : s.Inv) : s.Kept where
  one m := by
    have hsame : ∀ t ∈ s.holders m, ∀ u ∈ s.holders m, t = u := fun t ht u hu =>
      (h.named m).claim_unique (.inl ht) (.inl hu)
    have hnodup := (h.named m).nodup
    match hholders : s.holders m with
    | [] => exact Nat.zero_le _
    | [t] => exact Nat.le_refl _
    | t :: u :: rest =>
      rw [hholders] at hsame hnodup
      refine absurd (hsame t List.mem_cons_self u (List.mem_cons_of_mem _ List.mem_cons_self)) fun heq => ?_
      exact (List.nodup_cons.mp hnodup).1 (heq ▸ List.mem_cons_self)
  waited m hne := by
    obtain ⟨u, hu⟩ := (h.named m).queue hne
    refine ⟨fun hzero => ?_, (h.named m).owner (hu ▸ u.word_ne_zero true)⟩
    have hsettled : s.settled m = s.word m := h.settled_eq fun v hv => v.word_ne_zero true (hv.symm.trans hzero)
    exact u.word_ne_zero true (hu.symm.trans (hsettled.trans hzero))

/-- **Mutexes**: in every run at most one thread holds a mutex, and where threads wait for one its
word is not 0 and a thread holds it, is handed it, or is about to hand it on. -/
theorem mutex {steps : List (MtxStep μ)} (hrun : Run exec free init steps s) : s.Kept :=
  (hrun.invariant (I := Inv) (fun _ _ _ _ hs h => h.exec hs) inv_init).kept

def tidOne : LocalId := ⟨0x40#32, by decide, by decide⟩

def tidTwo : LocalId := ⟨0x80#32, by decide, by decide⟩

def contended : List (MtxStep Unit) :=
  [.lock tidOne (), .run tidOne, .lock tidTwo (), .run tidTwo, .run tidTwo, .receive tidTwo false, .serve, .serve, .serve,
    .unlock tidOne ()]

theorem mutex_contended : ∃ s : MtxState Unit, s.waits () = [tidTwo] ∧ s.pc tidOne = .unlockCall () ∧ s.Kept := by
  obtain ⟨s, hrun, hs⟩ := Run.exists_of_evalRun exec free init contended (fun s => (s.waits (), s.pc tidOne))
    ([tidTwo], .unlockCall ()) rfl
  exact ⟨s, congrArg Prod.fst hs, congrArg Prod.snd hs, mutex hrun⟩

/-- **Handing on**: an `unlock` that the serializer has received goes to the first in the queue. -/
theorem served_first {steps : List (MtxStep μ)} (hrun : Run exec free init steps s) {xcpu : Bool}
    (hser : s.ser = .unlockLoad t m xcpu) {w : LocalId} {waits : List LocalId} (hwaits : s.waits m = w :: waits) :
    ∃ s', s.serve = some s' ∧ s'.Handed m w :=
  (hrun.invariant (I := Inv) (fun _ _ _ _ hs h => h.exec hs) inv_init).hands_on hser hwaits

theorem served_first_contended : ∃ s s' : MtxState Unit, s.serve = some s' ∧ s'.Handed () tidTwo := by
  obtain ⟨s, hrun, hs⟩ := Run.exists_of_evalRun exec free init (contended ++ [.receive tidOne false])
    (fun s => (s.waits (), s.ser)) ([tidTwo], .unlockLoad tidOne () false) rfl
  obtain ⟨s', hs'⟩ := served_first hrun (congrArg Prod.snd hs) (congrArg Prod.fst hs)
  exact ⟨s, s', hs'⟩

end MtxState

end Sneks.Thrd
