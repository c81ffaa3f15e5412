import Sneks.Root.Effects
import Sneks.Lib.Slots

/-!
# Thread numbers and UTCB slots

Root keeps a bitmap of the UTCB slots of each task, and bitmaps with counters of the thread
numbers of them all. They are right for as long as `remove_thread` is told the UTCB address of
the thread that it removes, the signal helper is not removed that way, and no process with a
running signal helper calls `exec`, which frees the helper and does not forget it.
-/

namespace Sneks.Root
open Lib

def Fpage.utcbSlots (area : Fpage) : ℕ := 2 ^ (area.sizeLog2 - utcbSizeLog2)

namespace State

variable (s : State)

def utcbSlot (area : Fpage) (tid : Tid) : ℕ := (s.utcbLoc tid - area.address) >>> utcbSizeLog2

def freeNo (n : ℕ) : Bool := s.tnoFreeMaps (n >>> 16) (n % 2 ^ 16)

def Live (tid : Tid) : Prop := tid ∈ (s.task (pidof tid)).threads

end State

/-- No two threads of a task share a UTCB slot, no two threads a number, and the bitmaps and
    counters say just what is not taken. Numbers in `reserved` were burnt when root started. -/
structure ThreadsAgree (reserved : ℕ → Prop) (s : State) : Prop where
  slots : ∀ pid area, (s.task pid).utcbArea = some area → ∀ tid ∈ (s.task pid).threads,
    ∀ tid' ∈ (s.task pid).threads, s.utcbSlot area tid = s.utcbSlot area tid' → tid = tid'
  numbers : ∀ pid pid' tid tid', tid ∈ (s.task pid).threads → tid' ∈ (s.task pid').threads →
    tid.threadNo = tid'.threadNo → pid = pid' ∧ tid = tid'
  listed : ∀ pid, (s.task pid).threads.Nodup
  utcbFree : ∀ pid area free, (s.task pid).utcbArea = some area → (s.task pid).utcbFree = some free →
    ∀ slot < area.utcbSlots, free slot = true ↔ ∀ tid ∈ (s.task pid).threads, s.utcbSlot area tid ≠ slot
  noUtcbs : ∀ pid, (s.task pid).utcbFree = none → (s.task pid).threads = []
  tnoFree : ∀ n < 4 * tnosPerBitmap, s.freeNo n = true ↔
    ¬ reserved n ∧ ∀ pid, ∀ tid ∈ (s.task pid).threads, tid.threadNo ≠ n
  counts : ∀ map < 4, s.tnoFreeCounts map = freeCount (s.tnoFreeMaps map) tnosPerBitmap

def tidyThreads (s : State) : Step → Prop
  | .call sender (.removeThread tid utcbAddr) => tid ∈ (s.task (pidof sender)).threads →
    (s.proc (pidof sender)).sighelperTid ≠ some tid ∧
    ∀ area ∈ (s.task (pidof sender)).utcbArea,
      (utcbAddr - area.address) >>> utcbSizeLog2 = s.utcbSlot area tid
  | .call _ (.exec (.rejected _)) => True
  | .call sender (.exec _) => (s.proc (pidof sender)).sighelperTid = none
  | _ => True

instance (s : State) (step : Step) : Decidable (tidyThreads s step) := by
  unfold tidyThreads; split <;> infer_instance

variable {s t u : State} {pid : ℕ} {r : Result} {sender : Tid} {reserved : ℕ → Prop}

theorem bitmapFfs_spec (bits : ℕ → Bool) (first n : ℕ) : bitmapFfs bits first n ≤ first + n ∧
    (bitmapFfs bits first n < first + n → bits (bitmapFfs bits first n) = true) := by
  induction n generalizing first with
  | zero => exact ⟨Nat.le_refl _, fun h => absurd h (Nat.lt_irrefl _)⟩
  | succ n ih =>
    simp only [bitmapFfs]
    split
    · next hbit => exact ⟨Nat.le_add_right _ _, fun _ => hbit⟩
    · obtain ⟨hle, hset⟩ := ih (first + 1)
      exact ⟨by omega, fun hlt => hset (by omega)⟩

theorem tno_split {n map bit : ℕ} (hbit : bit < tnosPerBitmap) :
    (n >>> 16 = map ∧ n % 2 ^ 16 = bit) ↔ n = map * tnosPerBitmap + bit := by
  simp only [tnosPerBitmap] at hbit ⊢
  rw [Nat.shiftRight_eq_div_pow]
  constructor
  · rintro ⟨rfl, rfl⟩
    omega
  · rintro rfl
    constructor <;> omega

theorem makeTid_threadNo {map bit : ℕ} (hmap : map < 4) (hbit : bit < tnosPerBitmap) :
    (State.makeTid pid map bit).threadNo = map * tnosPerBitmap + bit := by
  simp only [State.makeTid]
  rw [← Nat.shiftLeft_add_eq_or_of_lt (show bit < 2 ^ 16 from hbit), Nat.shiftLeft_eq]
  simp only [tnosPerBitmap] at hbit ⊢
  omega

theorem setTno_freeNo {map bit count : ℕ} {free : Bool} (hbit : bit < tnosPerBitmap) :
    (s.setTno map bit free count).freeNo = Function.update s.freeNo (map * tnosPerBitmap + bit) free := by
  funext n
  simp only [State.freeNo, State.setTno]
  by_cases hn : n = map * tnosPerBitmap + bit
  · obtain ⟨hmap, hbit'⟩ := (tno_split hbit).mpr hn
    rw [hmap, hbit', hn, Function.update_self, Function.update_self, Function.update_self]
  · rw [Function.update_of_ne hn]
    by_cases hmap : n >>> 16 = map
    · have hne : n % 2 ^ 16 ≠ bit := fun hbit' => hn ((tno_split hbit).mp ⟨hmap, hbit'⟩)
      rw [hmap, Function.update_self, Function.update_of_ne hne, State.freeNo, hmap]
    · rw [Function.update_of_ne hmap]
      rfl

/-- The thread number bitmaps and counters, for the threads in `live`. -/
structure Numbers (reserved : ℕ → Prop) (live : Tid → Prop) (s : State) : Prop where
  slots : Slots live Tid.threadNo reserved s.freeNo (4 * tnosPerBitmap)
  counts : ∀ map < 4, s.tnoFreeCounts map = freeCount (s.tnoFreeMaps map) tnosPerBitmap

theorem Numbers.congr {live live' : Tid → Prop} (h : Numbers reserved live s)
    (hlive : ∀ tid, live' tid ↔ live tid) (hmaps : t.tnoFreeMaps = s.tnoFreeMaps)
    (hcounts : t.tnoFreeCounts = s.tnoFreeCounts) : Numbers reserved live' t := by
  have hfree : t.freeNo = s.freeNo := by
    funext n
    simp only [State.freeNo, hmaps]
  refine ⟨?_, fun map hmap => ?_⟩
  · rw [hfree]
    exact h.slots.congr hlive fun _ _ => rfl
  · rw [hmaps, hcounts]
    exact h.counts map hmap

theorem Numbers.take {live : Tid → Prop} {tid : Tid} {map bit : ℕ} (h : Numbers reserved live s)
    (hmap : map < 4) (hbit : bit < tnosPerBitmap) (hfree : s.tnoFreeMaps map bit = true)
    (htid : tid.threadNo = map * tnosPerBitmap + bit) :
    Numbers reserved (fun x => live x ∨ x = tid) (s.setTno map bit false (s.tnoFreeCounts map - 1)) := by
  have hlt : map * tnosPerBitmap + bit < 4 * tnosPerBitmap := by
    simp only [tnosPerBitmap] at hbit ⊢
    omega
  obtain ⟨hm, hb⟩ := (tno_split hbit).mpr rfl
  refine ⟨?_, fun m hm' => ?_⟩
  · rw [setTno_freeNo hbit]
    refine h.slots.take hlt ?_ htid fun _ _ => rfl
    rw [State.freeNo, hm, hb, hfree]
  · simp only [State.setTno]
    by_cases hmm : m = map
    · subst hmm
      rw [Function.update_self, Function.update_self, freeCount_take hbit hfree, h.counts m hm']
    · rw [Function.update_of_ne hmm, Function.update_of_ne hmm]
      exact h.counts m hm'

theorem Numbers.freeThreadno {live : Tid → Prop} {tid : Tid} (h : Numbers reserved live s) (hlive : live tid)
    (hs : s.freeThreadno tid = some t) : Numbers reserved (fun x => live x ∧ x ≠ tid) t := by
  simp only [State.freeThreadno] at hs
  split at hs
  · cases hs
  next htaken =>
  simp only [Bool.not_eq_true] at htaken
  split at hs
  · cases hs
    have hbit : tid.threadNo % 2 ^ 16 < tnosPerBitmap := Nat.mod_lt _ (by decide)
    have hno : (tid.threadNo >>> 16) * tnosPerBitmap + tid.threadNo % 2 ^ 16 = tid.threadNo :=
      ((tno_split hbit).mp ⟨rfl, rfl⟩).symm
    refine ⟨?_, fun m hm => ?_⟩
    · rw [setTno_freeNo hbit, hno]
      exact h.slots.release hlive
    · simp only [State.setTno]
      by_cases hmm : m = tid.threadNo >>> 16
      · subst hmm
        rw [Function.update_self, Function.update_self, freeCount_release hbit htaken, h.counts _ hm]
      · rw [Function.update_of_ne hmm, Function.update_of_ne hmm]
        exact h.counts m hm
  · cases hs

theorem freeThreadno_eq {tid : Tid} (hs : s.freeThreadno tid = some t) :
    t = { s with tnoFreeMaps := t.tnoFreeMaps, tnoFreeCounts := t.tnoFreeCounts } := by
  simp only [State.freeThreadno] at hs
  split at hs
  · cases hs
  · split at hs <;> cases hs
    rfl

theorem freeThreadnos_eq {tids : List Tid} (hs : s.freeThreadnos tids = some t) :
    t = { s with tnoFreeMaps := t.tnoFreeMaps, tnoFreeCounts := t.tnoFreeCounts } := by
  simp only [State.freeThreadnos] at hs
  induction tids generalizing s with
  | nil =>
    cases hs
    rfl
  | cons tid tids ih =>
    simp only [List.foldlM_cons, Option.bind_eq_bind, Option.bind_eq_some_iff] at hs
    obtain ⟨u, hu, hs⟩ := hs
    rw [ih hs, freeThreadno_eq hu]

theorem Numbers.freeThreadnos {live : Tid → Prop} {tids : List Tid} (h : Numbers reserved live s)
    (hnodup : tids.Nodup) (hlive : ∀ tid ∈ tids, live tid) (hs : s.freeThreadnos tids = some t) :
    Numbers reserved (fun x => live x ∧ x ∉ tids) t := by
  simp only [State.freeThreadnos] at hs
  induction tids generalizing s live with
  | nil =>
    cases hs
    exact h.congr (fun _ => by simp) rfl rfl
  | cons tid tids ih =>
    simp only [List.foldlM_cons, Option.bind_eq_bind, Option.bind_eq_some_iff] at hs
    obtain ⟨u, hu, hs⟩ := hs
    obtain ⟨hno, hnodup⟩ := List.nodup_cons.mp hnodup
    have hu := h.freeThreadno (hlive tid (by simp)) hu
    refine (ih hu hnodup (fun x hx => ⟨hlive x (by simp [hx]), ?_⟩) hs).congr (fun x => ?_) rfl rfl
    · rintro rfl
      exact hno hx
    · simp only [List.mem_cons, not_or]
      exact and_assoc.symm

-- The tables

structure Tables (reserved : ℕ → Prop) (s : State) : Prop where
  own : ∀ q, ∀ tid ∈ (s.task q).threads, pidof tid = q
  nodup : ∀ q, (s.task q).threads.Nodup
  numbers : Numbers reserved s.Live s
  utcbs : ∀ q area free, (s.task q).utcbArea = some area → (s.task q).utcbFree = some free →
    Slots (· ∈ (s.task q).threads) (s.utcbSlot area) (fun _ => False) free area.utcbSlots
  bare : ∀ q, s.hasTask q = false ∨ (s.task q).utcbFree = none → (s.task q).threads = []

theorem Tables.live (h : Tables reserved s) {tid : Tid} {q : ℕ} (hm : tid ∈ (s.task q).threads) : s.Live tid := by
  rw [State.Live, h.own q tid hm]
  exact hm

theorem Tables.agree (h : Tables reserved s) : ThreadsAgree reserved s where
  slots pid area harea tid hm tid' hm' he := by
    cases hfree : (s.task pid).utcbFree with
    | none =>
      rw [h.bare pid (.inr hfree)] at hm
      cases hm
    | some free => exact (h.utcbs pid area free harea hfree).inj tid tid' hm hm' he
  numbers pid pid' tid tid' hm hm' he := by
    have htid := h.numbers.slots.inj tid tid' (h.live hm) (h.live hm') he
    subst htid
    exact ⟨(h.own pid tid hm).symm.trans (h.own pid' tid hm'), rfl⟩
  listed := h.nodup
  utcbFree pid area free harea hfree slot hslot := by
    rw [(h.utcbs pid area free harea hfree).free_iff slot hslot]
    exact ⟨fun hall => hall.2, fun hall => ⟨id, hall⟩⟩
  noUtcbs pid hnone := h.bare pid (.inr hnone)
  tnoFree n hn := by
    rw [h.numbers.slots.free_iff n hn]
    refine and_congr_right fun _ => ⟨fun hall pid tid hm => hall tid (h.live hm), fun hall tid hl => ?_⟩
    exact hall (pidof tid) tid hl
  counts := h.numbers.counts

theorem Tables.congr (h : Tables reserved s) (htask : t.task = s.task) (hmaps : t.tnoFreeMaps = s.tnoFreeMaps)
    (hcounts : t.tnoFreeCounts = s.tnoFreeCounts) (hloc : t.utcbLoc = s.utcbLoc) : Tables reserved t := by
  have hhas : ∀ q, t.hasTask q = s.hasTask q := by
    intro q
    simp only [State.hasTask, State.hasProcess, htask]
  constructor
  case own => rw [htask]; exact h.own
  case nodup => rw [htask]; exact h.nodup
  case numbers =>
    refine h.numbers.congr (fun tid => ?_) hmaps hcounts
    rw [State.Live, State.Live, htask]
  case utcbs =>
    intro q area free harea hfree
    rw [htask] at harea hfree ⊢
    exact (h.utcbs q area free harea hfree).congr (fun _ => Iff.rfl) fun tid _ => by
      rw [State.utcbSlot, State.utcbSlot, hloc]
  case bare =>
    intro q hq
    rw [htask, hhas] at hq
    rw [htask]
    exact h.bare q hq

theorem Tables.setTask {a : Task} (h : Tables reserved s) (hold : (s.task pid).threads = [])
    (hnew : a.threads = []) (hbitmap : ∀ area free, a.utcbArea = some area → a.utcbFree = some free →
      free = allocUtcbBitmap area) : Tables reserved (s.setTask pid a) := by
  have hthreads : ∀ q, ((s.setTask pid a).task q).threads = (s.task q).threads := by
    intro q
    by_cases hq : q = pid
    · subst hq
      simp only [State.setTask, Function.update_self, hold, hnew]
    · simp only [State.setTask, Function.update_of_ne hq]
  constructor
  case own =>
    intro q
    rw [hthreads]
    exact h.own q
  case nodup =>
    intro q
    rw [hthreads]
    exact h.nodup q
  case numbers =>
    refine h.numbers.congr (fun tid => ?_) rfl rfl
    rw [State.Live, State.Live, hthreads]
  case utcbs =>
    intro q area free harea hfree
    by_cases hq : q = pid
    · subst hq
      rw [hthreads, hold]
      simp only [State.setTask, Function.update_self] at harea hfree
      rw [hbitmap area free harea hfree]
      refine ⟨by rintro _ ⟨⟩, by rintro _ ⟨⟩, by rintro _ _ ⟨⟩, fun i hi => ?_⟩
      exact iff_of_true (decide_eq_true hi) ⟨id, by rintro _ ⟨⟩⟩
    · rw [hthreads]
      simp only [State.setTask, Function.update_of_ne hq] at harea hfree
      exact h.utcbs q area free harea hfree
  case bare =>
    intro q hq
    rw [hthreads]
    by_cases hqp : q = pid
    · rw [hqp, hold]
    · refine h.bare q ?_
      simpa only [State.hasTask, State.hasProcess, State.setTask, Function.update_of_ne hqp] using hq

theorem allocateThread_spec {got : Option (Tid × ℕ)} (h : s.allocateThread pid = some (t, got)) :
    (t = s ∧ got = none) ∨ ∃ map bit area free slot tid, map < 4 ∧ bit < tnosPerBitmap ∧
      s.tnoFreeMaps map bit = true ∧ tid = State.makeTid pid map bit ∧ pidof tid = pid ∧ s.hasTask pid = true ∧
      (s.task pid).utcbArea = some area ∧ (s.task pid).utcbFree = some free ∧
      slot < area.utcbSlots ∧ free slot = true ∧
      got = some (tid, area.address + slot <<< utcbSizeLog2) ∧
      t = ((s.setTno map bit false (s.tnoFreeCounts map - 1)).setTask pid
        { s.task pid with
          utcbFree := some (Function.update free slot false)
          threads := (s.task pid).threads ++ [tid] }).placeUtcb tid (area.address + slot <<< utcbSizeLog2) := by
  simp only [State.allocateThread] at h
  split at h
  · cases h
    exact .inl ⟨rfl, rfl⟩
  next hmap =>
  split at h
  · cases h
    exact .inl ⟨rfl, rfl⟩
  next hhas =>
  split at h
  · cases h
  next hbit =>
  simp only [not_or, not_lt, ge_iff_le, not_le, Decidable.not_not] at hbit hmap
  split at h
  · next area free harea hfree =>
    split at h
    · cases h
      exact .inl ⟨rfl, rfl⟩
    next hslot =>
    cases h
    have hffs := bitmapFfs_spec (s.tnoFreeMaps (s.tnoMap pid)) 0 tnosPerBitmap
    have hffs' := bitmapFfs_spec free 0 (2 ^ (area.sizeLog2 - utcbSizeLog2))
    rw [Nat.zero_add] at hffs hffs'
    have hlt := Nat.lt_of_le_of_ne hffs'.1 hslot
    exact .inr ⟨_, _, area, free, _, _, Nat.lt_succ_of_le hmap.1, hbit.1, hffs.2 hbit.1, rfl, hbit.2,
      by simpa using hhas, harea, hfree, hlt, hffs'.2 hlt, rfl, rfl⟩
  · cases h

theorem SameButThreads.hasTask_eq (h : SameButThreads pid s t) (q : ℕ) : t.hasTask q = s.hasTask q := by
  simp only [State.hasTask, h.hasProcess_eq, h.area_eq]

theorem Tables.allocateThread {got : Option (Tid × ℕ)} (h : Tables reserved s)
    (hs : s.allocateThread pid = some (t, got)) :
    Tables reserved t ∧ (∀ q, ∀ tid ∈ (s.task q).threads, tid ∈ (t.task q).threads ∧ t.utcbLoc tid = s.utcbLoc tid) ∧
    (∀ tid utcb, got = some (tid, utcb) → tid ∈ (t.task pid).threads ∧ t.utcbLoc tid = utcb) ∧
    (got = none → t = s) := by
  have hframe := allocateThread_frame hs
  rcases allocateThread_spec hs with ⟨rfl, rfl⟩ | ⟨map, bit, area, free, slot, tid, hmap, hbit, hset, htid, hpid,
    hhas, harea, hfree, hslot, hslotfree, rfl, hteq⟩
  · exact ⟨h, fun _ _ hm => ⟨hm, rfl⟩, nofun, fun _ => rfl⟩
  have hno : tid.threadNo = map * tnosPerBitmap + bit := by rw [htid, makeTid_threadNo hmap hbit]
  -- its number is free, so nobody has it
  have hnew : ∀ x, s.Live x → x ≠ tid := by
    rintro x hx rfl
    have hbusy := h.numbers.slots.not_free hx
    obtain ⟨hm, hb⟩ := (tno_split hbit).mpr hno
    rw [State.freeNo, hm, hb, hset] at hbusy
    cases hbusy
  have hself : t.task pid = { s.task pid with
      utcbFree := some (Function.update free slot false), threads := (s.task pid).threads ++ [tid] } := by
    rw [hteq]
    exact Function.update_self ..
  have hloc : ∀ x, x ≠ tid → t.utcbLoc x = s.utcbLoc x := by
    intro x hx
    rw [hteq]
    exact Function.update_of_ne hx ..
  have hlocnew : t.utcbLoc tid = area.address + slot <<< utcbSizeLog2 := by
    rw [hteq]
    exact Function.update_self ..
  have hmem : ∀ q x, x ∈ (t.task q).threads ↔ x ∈ (s.task q).threads ∨ q = pid ∧ x = tid := by
    intro q x
    by_cases hq : q = pid
    · subst hq
      rw [hself]
      simp
    · rw [hframe.others q hq]
      simp [hq]
  refine ⟨?_, fun q x hx => ⟨(hmem q x).mpr (.inl hx), hloc x (hnew x (h.live hx))⟩, ?_, nofun⟩
  swap
  · rintro _ _ ⟨⟩
    exact ⟨(hmem pid tid).mpr (.inr ⟨rfl, rfl⟩), hlocnew⟩
  constructor
  case own =>
    intro q x hx
    rcases (hmem q x).mp hx with hx | ⟨rfl, rfl⟩
    · exact h.own q x hx
    · exact hpid
  case nodup =>
    intro q
    by_cases hq : q = pid
    · subst hq
      rw [hself]
      refine List.nodup_append.mpr ⟨h.nodup q, List.nodup_singleton _, fun x hx y hy => ?_⟩
      rw [List.mem_singleton.mp hy]
      exact hnew x (h.live hx)
    · rw [hframe.others q hq]
      exact h.nodup q
  case numbers =>
    refine (h.numbers.take hmap hbit hset hno).congr (fun x => ?_) (by rw [hteq]; rfl) (by rw [hteq]; rfl)
    rw [State.Live, hmem]
    refine or_congr_right ⟨fun hx => hx.2, ?_⟩
    rintro rfl
    exact ⟨hpid, rfl⟩
  case utcbs =>
    intro q area' free' harea' hfree'
    by_cases hq : q = pid
    · subst hq
      rw [hself] at harea' hfree'
      obtain rfl : area = area' := Option.some.inj (harea.symm.trans harea')
      obtain rfl : Function.update free slot false = free' := Option.some.inj hfree'
      have hplace : t.utcbSlot area tid = slot := by
        rw [State.utcbSlot, hlocnew, Nat.add_sub_cancel_left, Nat.shiftLeft_shiftRight]
      have hslots := (h.utcbs q area free harea hfree).take hslot hslotfree hplace
        fun x hx => by rw [State.utcbSlot, State.utcbSlot, hloc x (hnew x (h.live hx))]
      refine hslots.congr (fun x => ?_) fun _ _ => rfl
      rw [hmem]
      simp
    · rw [hframe.others q hq] at harea' hfree' ⊢
      refine (h.utcbs q area' free' harea' hfree').congr (fun _ => Iff.rfl) fun x hx => ?_
      rw [State.utcbSlot, State.utcbSlot, hloc x (hnew x (h.live hx))]
  case bare =>
    intro q hq
    rw [hframe.hasTask_eq] at hq
    by_cases hqp : q = pid
    · subst hqp
      rw [hself, hhas] at hq
      simp at hq
    · rw [hframe.others q hqp] at hq ⊢
      exact h.bare q hq

theorem tidlistRemoveFrom_perm (tids : List Tid) (tid : Tid) :
    (tidlistRemoveFrom tids tid).Perm (tids.erase tid) := by
  rw [List.erase_eq_eraseIdx]
  simp only [tidlistRemoveFrom]
  cases hix : tids.idxOf? tid with
  | none => exact .refl _
  | some ix =>
    obtain ⟨hlt, -⟩ := List.idxOf?_eq_some_iff.mp hix
    obtain ⟨before, x, after, rfl, rfl⟩ : ∃ before x after, tids = before ++ x :: after ∧ before.length = ix :=
      ⟨tids.take ix, tids[ix], tids.drop (ix + 1), by simp, by simp; omega⟩
    rcases List.eq_nil_or_concat after with rfl | ⟨init, last, rfl⟩
    · simp [List.eraseIdx_append_of_length_le]
    · have hlast : (before ++ x :: (init ++ [last])).getLastD tid = last := by
        rw [← List.cons_append, ← List.append_assoc, List.getLastD_concat]
      have hset : (before ++ x :: (init ++ [last])).set before.length last = before ++ last :: (init ++ [last]) := by
        simp
      have hdrop : (before ++ last :: (init ++ [last])).dropLast = before ++ last :: init := by
        rw [← List.cons_append, ← List.append_assoc, List.dropLast_concat]
      have herase : (before ++ x :: (init ++ [last])).eraseIdx before.length = before ++ (init ++ [last]) := by
        simp [List.eraseIdx_append_of_length_le]
      simp only [List.concat_eq_append, hlast, hset, hdrop, herase]
      exact (List.perm_append_singleton last init).symm.append_left before

theorem Tables.release {tid : Tid} {utcb : ℕ} (h : Tables reserved s) (hm : tid ∈ (s.task pid).threads)
    (hutcb : ∀ area, (s.task pid).utcbArea = some area → (utcb - area.address) >>> utcbSizeLog2 = s.utcbSlot area tid)
    (hu : s.freeThread pid tid utcb = some u) (ht : u.freeThreadno tid = some t) :
    Tables reserved t ∧ t.utcbLoc = s.utcbLoc ∧
      ∀ q, ∀ x ∈ (s.task q).threads, x ≠ tid → x ∈ (t.task q).threads := by
  have hframe := (freeThread_frame hu).1
  have htask := (freeThreadno_frame pid ht).2
  have hframe' := (freeThreadno_frame pid ht).1
  simp only [State.freeThread] at hu
  split at hu
  case h_2 => cases hu
  next area free harea hfree =>
  split at hu
  · cases hu
  split at hu
  · cases hu
  cases hu
  rw [hutcb area harea] at htask hframe hframe' ht
  set u := s.setTask pid { s.task pid with
    utcbFree := some (Function.update free (s.utcbSlot area tid) true)
    threads := tidlistRemoveFrom (s.task pid).threads tid } with hu
  have hself : t.task pid = { s.task pid with
      utcbFree := some (Function.update free (s.utcbSlot area tid) true)
      threads := tidlistRemoveFrom (s.task pid).threads tid } := by
    rw [htask, hu]
    exact Function.update_self ..
  have hothers : ∀ q, q ≠ pid → t.task q = s.task q := by
    intro q hq
    rw [htask, hframe.others q hq]
  have hmem : ∀ q x, x ∈ (t.task q).threads ↔ x ∈ (s.task q).threads ∧ x ≠ tid := by
    intro q x
    by_cases hq : q = pid
    · subst hq
      rw [hself]
      rw [(tidlistRemoveFrom_perm _ tid).mem_iff, (h.nodup q).mem_erase_iff]
      exact and_comm
    · rw [hothers q hq]
      refine ⟨fun hx => ⟨hx, ?_⟩, fun hx => hx.1⟩
      rintro rfl
      exact hq ((h.own q x hx).symm.trans (h.own pid x hm))
  have hloc : t.utcbLoc = s.utcbLoc := by
    rw [freeThreadno_eq ht]
    rfl
  refine ⟨?_, hloc, fun q x hx hne => (hmem q x).mpr ⟨hx, hne⟩⟩
  constructor
  case own => exact fun q x hx => h.own q x ((hmem q x).mp hx).1
  case nodup =>
    intro q
    by_cases hq : q = pid
    · subst hq
      rw [hself]
      exact (tidlistRemoveFrom_perm _ tid).nodup_iff.mpr ((h.nodup q).erase tid)
    · rw [hothers q hq]
      exact h.nodup q
  case numbers =>
    have hnum : Numbers reserved s.Live u := h.numbers.congr (fun _ => Iff.rfl) rfl rfl
    refine (hnum.freeThreadno (h.live hm) ht).congr (fun x => ?_) rfl rfl
    exact hmem (pidof x) x
  case utcbs =>
    intro q area' free' harea' hfree'
    have hslot : ∀ a, t.utcbSlot a = s.utcbSlot a := by
      intro a
      funext x
      rw [State.utcbSlot, State.utcbSlot, hloc]
    rw [hslot]
    by_cases hq : q = pid
    · subst hq
      rw [hself] at harea' hfree'
      obtain rfl : area = area' := Option.some.inj (harea.symm.trans harea')
      obtain rfl : Function.update free (s.utcbSlot area tid) true = free' := Option.some.inj hfree'
      exact ((h.utcbs q area free harea hfree).release hm).congr (hmem q) fun _ _ => rfl
    · rw [hothers q hq] at harea' hfree' ⊢
      exact h.utcbs q area' free' harea' hfree'
  case bare =>
    intro q hq
    rw [hframe'.hasTask_eq, hframe.hasTask_eq] at hq
    by_cases hqp : q = pid
    · subst hqp
      rw [hself] at hq
      have hnil := h.bare q (.inl (hq.resolve_right (by simp)))
      rw [hnil] at hm
      cases hm
    · rw [hothers q hqp] at hq ⊢
      exact h.bare q hq

theorem Tables.taskDtor (h : Tables reserved s) (hs : s.taskDtor pid = some t) :
    Tables reserved t ∧ t.utcbLoc = s.utcbLoc := by
  obtain ⟨hframe, hgone⟩ := taskDtor_frame hs
  simp only [State.taskDtor, Option.bind_eq_bind, Option.bind_eq_some_iff] at hs
  obtain ⟨u, hu, hs⟩ := hs
  split at hs
  · cases hs
  cases hs
  have hueq := freeThreadnos_eq hu
  have hloc : u.utcbLoc = s.utcbLoc := by rw [hueq]
  have hmem : ∀ q x, x ∈ ((u.setTask pid { s.task pid with utcbFree := none, threads := [] }).task q).threads ↔
      x ∈ (s.task q).threads ∧ x ∉ (s.task pid).threads := by
    intro q x
    by_cases hq : q = pid
    · subst hq
      rw [hgone]
      simp
    · rw [hframe.others q hq]
      refine ⟨fun hx => ⟨hx, fun hx' => hq ?_⟩, fun hx => hx.1⟩
      exact (h.own q x hx).symm.trans (h.own pid x hx')
  refine ⟨?_, hloc⟩
  constructor
  case own => exact fun q x hx => h.own q x ((hmem q x).mp hx).1
  case nodup =>
    intro q
    by_cases hq : q = pid
    · subst hq
      rw [hgone]
      exact List.nodup_nil
    · rw [hframe.others q hq]
      exact h.nodup q
  case numbers =>
    refine (h.numbers.freeThreadnos (h.nodup pid) (fun x hx => h.live hx) hu).congr (fun x => ?_) rfl rfl
    exact hmem (pidof x) x
  case utcbs =>
    intro q area free harea hfree
    by_cases hq : q = pid
    · subst hq
      simp only [State.setTask, Function.update_self, reduceCtorEq] at hfree
    · rw [hframe.others q hq] at harea hfree ⊢
      refine (h.utcbs q area free harea hfree).congr (fun _ => Iff.rfl) fun x _ => ?_
      change (u.utcbLoc x - area.address) >>> utcbSizeLog2 = _
      rw [hloc]
      rfl
  case bare =>
    intro q hq
    by_cases hqp : q = pid
    · rw [hqp]
      exact hgone
    · rw [hframe.hasTask_eq, hframe.others q hqp] at hq
      rw [hframe.others q hqp]
      exact h.bare q hq

-- Signal helpers

def Helpers (s : State) : Prop := ∀ q, isSystask q = false → ∀ tid, (s.proc q).sighelperTid = some tid →
  tid ∈ (s.task q).threads ∧ s.utcbLoc tid = (s.proc q).sighelperUtcb

structure Tidy (reserved : ℕ → Prop) (s : State) : Prop where
  tables : Tables reserved s
  helpers : Helpers s

theorem Tidy.congr (h : Tidy reserved s) (htask : t.task = s.task) (hmaps : t.tnoFreeMaps = s.tnoFreeMaps)
    (hcounts : t.tnoFreeCounts = s.tnoFreeCounts) (hloc : t.utcbLoc = s.utcbLoc)
    (hhelper : ∀ q, (t.proc q).sighelperTid = none ∨ (t.proc q).sighelperTid = (s.proc q).sighelperTid ∧
      (t.proc q).sighelperUtcb = (s.proc q).sighelperUtcb) : Tidy reserved t := by
  refine ⟨h.tables.congr htask hmaps hcounts hloc, fun q hq tid htid => ?_⟩
  rcases hhelper q with hnone | ⟨hsame, hutcb⟩
  · rw [hnone] at htid
    cases htid
  · rw [htask, hloc, hutcb]
    exact h.helpers q hq tid (hsame ▸ htid)

theorem Tidy.setProc {p : Process} (h : Tidy reserved s)
    (hp : p.sighelperTid = none ∨ p.sighelperTid = (s.proc pid).sighelperTid ∧
      p.sighelperUtcb = (s.proc pid).sighelperUtcb) : Tidy reserved (s.setProc pid p) := by
  refine h.congr rfl rfl rfl rfl fun q => ?_
  by_cases hq : q = pid
  · subst hq
    simpa only [State.setProc, Function.update_self] using hp
  · simp [State.setProc, Function.update_of_ne hq]

theorem Tidy.setTask {a : Task} (h : Tidy reserved s) (hold : (s.task pid).threads = [])
    (hnew : a.threads = []) (hbitmap : ∀ area free, a.utcbArea = some area → a.utcbFree = some free →
      free = allocUtcbBitmap area) : Tidy reserved (s.setTask pid a) := by
  refine ⟨h.tables.setTask hold hnew hbitmap, fun q hq tid htid => ?_⟩
  obtain ⟨hm, hutcb⟩ := h.helpers q hq tid htid
  have hne : q ≠ pid := by
    rintro rfl
    rw [hold] at hm
    cases hm
  simp only [State.setTask, Function.update_of_ne hne]
  exact ⟨hm, hutcb⟩

theorem Tidy.allocateThread {got : Option (Tid × ℕ)} (h : Tidy reserved s)
    (hs : s.allocateThread pid = some (t, got)) : Tidy reserved t := by
  obtain ⟨htables, hkeep, -, -⟩ := h.tables.allocateThread hs
  refine ⟨htables, fun q hq tid htid => ?_⟩
  rw [(allocateThread_frame hs).proc_eq] at htid ⊢
  obtain ⟨hm, hutcb⟩ := h.helpers q hq tid htid
  exact ⟨(hkeep q tid hm).1, (hkeep q tid hm).2.trans hutcb⟩

theorem Tidy.launchProcess {ok : Bool} (h : Tidy reserved s) (hs : s.launchProcess pid = some (t, ok)) :
    Tidy reserved t ∧ (ok = false → t = s) := by
  simp only [State.launchProcess, Option.bind_eq_bind, Option.bind_eq_some_iff] at hs
  obtain ⟨⟨u, got⟩, hu, hs⟩ := hs
  cases hs
  refine ⟨h.allocateThread hu, fun hno => (h.tables.allocateThread hu).2.2.2 ?_⟩
  rwa [← Option.isNone_iff_eq_none, ← Option.not_isSome, Bool.not_eq_true']

theorem Tidy.taskDtor (h : Tidy reserved s) (hnone : isSystask pid = false → (s.proc pid).sighelperTid = none)
    (hs : s.taskDtor pid = some t) : Tidy reserved t := by
  obtain ⟨htables, hloc⟩ := h.tables.taskDtor hs
  have hframe := (taskDtor_frame hs).1
  refine ⟨htables, fun q hq tid htid => ?_⟩
  rw [hframe.proc_eq] at htid ⊢
  have hne : q ≠ pid := by
    rintro rfl
    rw [hnone hq] at htid
    cases htid
  rw [hframe.others q hne, hloc]
  exact h.helpers q hq tid htid

theorem Tidy.release {tid : Tid} {utcb : ℕ} (h : Tidy reserved s) (hm : tid ∈ (s.task pid).threads)
    (hutcb : ∀ area, (s.task pid).utcbArea = some area → (utcb - area.address) >>> utcbSizeLog2 = s.utcbSlot area tid)
    (hother : (s.proc pid).sighelperTid ≠ some tid)
    (hu : s.freeThread pid tid utcb = some u) (ht : u.freeThreadno tid = some t) : Tidy reserved t := by
  obtain ⟨htables, hloc, hkeep⟩ := h.tables.release hm hutcb hu ht
  have hproc := ((freeThread_frame hu).1.trans (freeThreadno_frame pid ht).1).proc_eq
  refine ⟨htables, fun q hq x hx => ?_⟩
  rw [hproc] at hx ⊢
  obtain ⟨hxm, hxu⟩ := h.helpers q hq x hx
  have hne : x ≠ tid := by
    rintro rfl
    have hqp : q = pid := (h.tables.own q x hxm).symm.trans (h.tables.own pid x hm)
    exact hother (hqp ▸ hx)
  exact ⟨hkeep q x hxm hne, by rw [hloc, hxu]⟩

theorem Tidy.sigRemoveHelper (h : Tidy reserved s) (hpid : isSystask pid = false)
    (hs : s.sigRemoveHelper pid = some t) : Tidy reserved t ∧ (t.proc pid).sighelperTid = none := by
  obtain ⟨tid, u, v, htid, hu, hv, rfl⟩ := sigRemoveHelper_cases hs
  obtain ⟨hm, hutcb⟩ := h.helpers pid hpid tid htid
  obtain ⟨htables, hloc, hkeep⟩ := h.tables.release hm
    (fun area _ => by rw [State.utcbSlot, hutcb]) hu hv
  have hproc := ((freeThread_frame hu).1.trans (freeThreadno_frame pid hv).1).proc_eq
  have hself : ((v.setProc pid { v.proc pid with sighelperTid := none }).proc pid).sighelperTid = none := by
    simp only [State.setProc, Function.update_self]
  refine ⟨⟨htables.congr rfl rfl rfl rfl, fun q hq x hx => ?_⟩, hself⟩
  have hne : q ≠ pid := by
    rintro rfl
    rw [hself] at hx
    cases hx
  simp only [State.setProc, Function.update_of_ne hne, hproc] at hx ⊢
  obtain ⟨hxm, hxu⟩ := h.helpers q hq x hx
  have hxt : x ≠ tid := by
    rintro rfl
    exact hne ((h.tables.own q x hxm).symm.trans (h.tables.own pid x hm))
  exact ⟨hkeep q x hxm hxt, by rw [hloc, hxu]⟩

-- Signals and deaths

theorem Tidy.sigDeliver {sig : ℕ} {self : Bool} (h : Tidy reserved s)
    (hs : s.sigDeliver pid sig self = some t) : Tidy reserved t := by
  obtain rfl | ⟨-, hnone | ⟨u, helper, utcb, hu, rfl⟩⟩ := sigDeliver_cases hs
  · exact h.setProc (.inr ⟨rfl, rfl⟩)
  · exact h.allocateThread hnone
  · have htidy := h.allocateThread hu
    obtain ⟨-, -, hgot, -⟩ := h.tables.allocateThread hu
    obtain ⟨hm, hutcb⟩ := hgot helper utcb rfl
    have hset : Tidy reserved (u.setProc pid { u.proc pid with sighelperTid := some helper, sighelperUtcb := utcb }) := by
      refine ⟨htidy.tables.congr rfl rfl rfl rfl, fun q hq tid htid => ?_⟩
      by_cases hqp : q = pid
      · subst hqp
        simp only [State.setProc, Function.update_self, Option.some.injEq] at htid ⊢
        exact htid ▸ ⟨hm, hutcb⟩
      · simp only [State.setProc, Function.update_of_ne hqp] at htid ⊢
        exact htidy.helpers q hq tid htid
    exact hset.setProc (.inr ⟨rfl, rfl⟩)

theorem Tidy.sigAct {sig : ℕ} {self dies : Bool} (h : Tidy reserved s)
    (hs : s.sigAct pid sig self = some (t, dies)) : Tidy reserved t := by
  obtain ⟨-, rfl | ⟨-, rfl | hdeliver⟩⟩ | ⟨-, -, -, rfl⟩ := sigAct_cases hs
  · exact h
  · exact h.setProc (.inr ⟨rfl, rfl⟩)
  · exact h.sigDeliver hdeliver
  · exact h.setProc (.inr ⟨rfl, rfl⟩)

theorem Tidy.destroyProcess (h : Tidy reserved s) (hgone : (s.task pid).threads = []) :
    Tidy reserved (s.destroyProcess pid) :=
  (h.setTask (a := { s.task pid with utcbArea := none }) hgone hgone nofun).congr rfl rfl rfl rfl
    fun _ => .inr ⟨rfl, rfl⟩

theorem Tidy.dropHelper (h : Tidy reserved s) (hpid : isSystask pid = false) (hs : s.dropHelper pid = some t) :
    Tidy reserved t ∧ (t.proc pid).sighelperTid = none := by
  obtain ⟨hno, rfl⟩ | hremove := dropHelper_cases hs
  · exact ⟨h, hno⟩
  · exact h.sigRemoveHelper hpid hremove

theorem Tidy.layOut (h : Tidy reserved s) (hpid : isSystask pid = false) (hs : s.layOut pid = some t) :
    Tidy reserved t := by
  simp only [State.layOut, Option.bind_eq_bind, Option.bind_eq_some_iff] at hs
  obtain ⟨u, hu, v, hv, w, hw, ⟨x, dies⟩, hx, hs⟩ := hs
  cases hs
  have hlog : Tidy reserved (s.logZombify pid) := h.congr rfl rfl rfl rfl fun _ => .inr ⟨rfl, rfl⟩
  obtain ⟨hu, hnone⟩ := hlog.dropHelper hpid hu
  have hv := hu.taskDtor (fun _ => hnone) hv
  have hw : Tidy reserved w := by
    obtain ⟨-, rfl⟩ | ⟨-, -, rfl⟩ := reparent_cases hw
    · exact hv
    · exact hv.setProc (.inr ⟨rfl, rfl⟩)
  exact hw.sigAct hx

theorem Tidy.takeWaiter (h : Tidy reserved s) (pid parent : ℕ) : Tidy reserved (s.takeWaiter pid parent) ∧
    (s.takeWaiter pid parent).task = s.task := by
  have hhash : Tidy reserved { s with waitanyHash := s.otherWaiters parent } :=
    h.congr rfl rfl rfl rfl fun _ => .inr ⟨rfl, rfl⟩
  simp only [State.takeWaiter]
  split
  · split
    · exact ⟨hhash, rfl⟩
    · exact ⟨hhash.setProc (.inr ⟨rfl, rfl⟩), rfl⟩
  · exact ⟨h, rfl⟩

theorem Tidy.zombify {replyOk : Bool} (h : Tidy reserved s) (hpid : isSystask pid = false)
    (hs : s.zombify pid replyOk = some t) : Tidy reserved t := by
  simp only [State.zombify, Option.bind_eq_bind, Option.bind_eq_some_iff] at hs
  obtain ⟨u, hu, hs⟩ := hs
  cases hs
  have hgone := (layOut_spec hu).1.gone
  obtain ⟨htaken, htask⟩ := (h.layOut hpid hu).takeWaiter pid (u.proc pid).ppid
  have htold : Tidy reserved ((u.takeWaiter pid (u.proc pid).ppid).broadcastExit pid) :=
    htaken.congr rfl rfl rfl rfl fun _ => .inr ⟨rfl, rfl⟩
  simp only [State.bury]
  split
  · refine htold.destroyProcess ?_
    change ((u.takeWaiter pid (u.proc pid).ppid).task pid).threads = []
    rw [htask, hgone]
  · exact htold.setProc (.inr ⟨rfl, rfl⟩)

theorem Tidy.sigSend {sig : ℕ} {self replyOk : Bool} (h : Tidy reserved s) (hpid : isSystask pid = false)
    (hs : s.sigSend pid sig self replyOk = some t) : Tidy reserved t := by
  simp only [State.sigSend, Option.bind_eq_bind, Option.bind_eq_some_iff] at hs
  obtain ⟨⟨u, dies⟩, hu, hs⟩ := hs
  have hu := h.sigAct hu
  split at hs
  · exact hu.zombify hpid hs
  · cases hs
    exact hu

theorem Tidy.sigLoop {sigs : List ℕ} {replyOk : Bool} (h : Tidy reserved s) (hpid : isSystask pid = false)
    (hs : sigs.foldlM (fun s sig => s.sigSend pid sig true replyOk) s = some t) : Tidy reserved t := by
  induction sigs generalizing s with
  | nil =>
    cases hs
    exact h
  | cons sig sigs ih =>
    simp only [List.foldlM_cons, Option.bind_eq_bind, Option.bind_eq_some_iff] at hs
    obtain ⟨u, hu, hs⟩ := hs
    exact ih (h.sigSend hpid hu) hs

def State.ConfirmsDead (s : State) : Prop := ∀ c ∈ s.confirm, (s.task c.dead).threads = []

theorem Inv.confirmsDead (h : Inv s) : s.ConfirmsDead := by
  intro c hc
  obtain ⟨hself, hm⟩ := h.confirm c hc
  exact h.threads c.dead (h.members c.self c.dead hself hm).1

theorem Tidy.syncConfirm (h : Tidy reserved s) (hdead : s.ConfirmsDead) (hs : s.syncConfirm = some t) :
    Tidy reserved t ∧ ∀ q, (t.task q).threads = (s.task q).threads := by
  rcases syncConfirm_spec hs with ⟨-, rfl⟩ | ⟨c, hc, -, rfl⟩
  · exact ⟨h, fun _ => rfl⟩
  have hnone : Tidy reserved { s with confirm := none } := h.congr rfl rfl rfl rfl fun _ => .inr ⟨rfl, rfl⟩
  have hunlist : Tidy reserved (s.unlist c) := hnone.setProc (.inr ⟨rfl, rfl⟩)
  refine ⟨hunlist.destroyProcess (hdead c hc), fun q => ?_⟩
  by_cases hq : q = c.dead
  · subst hq
    simp only [State.destroyProcess, State.setTask, State.setProc, Function.update_self]
  · simp only [State.destroyProcess, State.setTask, State.setProc, Function.update_of_ne hq]

theorem Tidy.allocProcess {mem : Process} {n : ℕ} {got : Option ℕ} (h : Tidy reserved s) (hinv : Inv s)
    (hs : s.allocProcess mem n = some (t, got)) : Tidy reserved t ∧ t.task = s.task ∧ t.confirm = s.confirm ∧
      ∀ newpid ∈ got, (s.task newpid).threads = [] := by
  rcases allocProcess_spec hs with ⟨next, -, rfl, rfl⟩ | ⟨next, -, pid, -, rfl, hfree, hle, rfl⟩
  · exact ⟨h.congr rfl rfl rfl rfl fun _ => .inr ⟨rfl, rfl⟩, rfl, rfl, nofun⟩
  have hctor : Tidy reserved (s.setProc pid (processCtor mem s.nextInc)) := h.setProc (.inl rfl)
  refine ⟨hctor.congr rfl rfl rfl rfl fun _ => .inr ⟨rfl, rfl⟩, rfl, rfl, ?_⟩
  rintro _ ⟨⟩
  refine h.tables.bare pid (.inl ?_)
  simp only [State.hasTask, isSystask_eq_false hle, Bool.false_eq_true, if_false]
  rw [← Bool.not_eq_true]
  intro hp
  rw [hinv.allocated pid hp] at hfree
  cases hfree

theorem Tidy.configure {area : Fpage} (h : Tidy reserved s) (hempty : (s.task pid).threads = []) :
    Tidy reserved (s.configure pid area) := by
  refine h.setTask hempty rfl ?_
  rintro _ _ ⟨⟩ ⟨⟩
  rfl

theorem Tidy.abandon (h : Tidy reserved s) (hempty : (s.task pid).threads = []) :
    Tidy reserved (s.abandon pid) :=
  (h.setTask (a := { s.task pid with utcbArea := none }) hempty hempty nofun).congr rfl rfl rfl rfl
    fun _ => .inr ⟨rfl, rfl⟩

theorem Tidy.spawnIdentity {caller : ℕ} {ok : Bool} (h : Tidy reserved s) (hdead : s.ConfirmsDead)
    (hs : s.spawnIdentity caller pid = some (t, ok)) :
    Tidy reserved t ∧ t.ConfirmsDead ∧ ∀ q, (t.task q).threads = (s.task q).threads := by
  simp only [State.spawnIdentity] at hs
  split at hs
  · cases hs
    exact ⟨h.setProc (.inr ⟨rfl, rfl⟩), hdead, fun _ => rfl⟩
  simp only [Option.bind_eq_bind, Option.bind_eq_some_iff] at hs
  obtain ⟨u, hsync, hs⟩ := hs
  obtain ⟨hu, hthreads⟩ := h.syncConfirm hdead hsync
  have hconf : u.ConfirmsDead := by
    intro c hc
    rw [syncConfirm_confirm hsync] at hc
    cases hc
  split at hs <;> cases hs
  · exact ⟨hu.setProc (.inr ⟨rfl, rfl⟩), hconf, hthreads⟩
  · exact ⟨hu, hconf, hthreads⟩

theorem Tidy.spawnLaunch {area : Fpage} (h : Tidy reserved s) (hdead : s.ConfirmsDead)
    (hempty : (s.task pid).threads = []) (hs : s.spawnLaunch pid area = some (t, r)) : Tidy reserved t := by
  simp only [State.spawnLaunch, Option.bind_eq_bind, Option.bind_eq_some_iff] at hs
  obtain ⟨u, hsync, ⟨v, ok⟩, hlaunch, hs⟩ := hs
  have hself : ((s.configure pid area).task pid).threads = [] := by
    simp only [State.configure, State.setTask, Function.update_self]
  have hconf : (s.configure pid area).ConfirmsDead := by
    intro c hc
    by_cases hq : c.dead = pid
    · rw [hq, hself]
    · simp only [State.configure, State.setTask, Function.update_of_ne hq]
      exact hdead c hc
  obtain ⟨hu, hthreads⟩ := (h.configure hempty).syncConfirm hconf hsync
  obtain ⟨hv, hsame⟩ := hu.launchProcess hlaunch
  cases ok with
  | true =>
    cases hs
    exact hv
  | false =>
    cases hs
    refine hv.abandon ?_
    rw [hsame rfl, hthreads, hself]

theorem Tidy.spawn {caller : ℕ} {load : Load} {mem : Process} (h : Tidy reserved s) (hinv : Inv s)
    (hs : s.spawn caller load mem = some (t, r)) : Tidy reserved t := by
  simp only [State.spawn] at hs
  split at hs
  · cases hs
    exact h
  simp only [Option.bind_eq_bind, Option.bind_eq_some_iff] at hs
  obtain ⟨⟨u, got⟩, halloc, hs⟩ := hs
  obtain ⟨hu, htask, hconf, hempty⟩ := h.allocProcess hinv halloc
  cases got with
  | none =>
    cases hs
    exact hu
  | some pid =>
    simp only [State.spawnInto, Option.bind_eq_bind, Option.bind_eq_some_iff] at hs
    obtain ⟨⟨v, ok⟩, hident, hs⟩ := hs
    have hdead : u.ConfirmsDead := by
      intro c hc
      rw [htask]
      exact hinv.confirmsDead c (hconf ▸ hc)
    obtain ⟨hv, hdead, hthreads⟩ := hu.spawnIdentity hdead hident
    have hnil : (v.task pid).threads = [] := by rw [hthreads, htask, hempty pid rfl]
    cases ok with
    | false =>
      cases hs
      exact hv.abandon hnil
    | true =>
      cases load with
      | loaded area => exact hv.spawnLaunch hdead hnil hs
      | _ =>
        cases hs
        exact hv.abandon hnil

theorem Tidy.fork {env : ForkEnv} (h : Tidy reserved s) (hinv : Inv s)
    (hs : s.fork pid env = some (t, r)) : Tidy reserved t := by
  simp only [State.fork] at hs
  split at hs
  · cases hs
    exact h
  split at hs
  · cases hs
  simp only [Option.bind_eq_bind, Option.bind_eq_some_iff] at hs
  obtain ⟨⟨u, got⟩, halloc, hs⟩ := hs
  obtain ⟨hu, htask, -, hempty⟩ := h.allocProcess hinv halloc
  cases got with
  | none =>
    cases hs
    exact hu
  | some newpid =>
    simp only [State.forkInto] at hs
    have hnil : (u.task newpid).threads = [] := by rw [htask, hempty newpid rfl]
    have hborn := hu.setTask (a := ⟨(u.task pid).utcbArea,
      if env.bitmapOk then (u.task pid).utcbArea.map allocUtcbBitmap else none, []⟩) hnil rfl (by
        intro area free harea hfree
        simp only at harea hfree
        rw [harea] at hfree
        split at hfree <;> cases hfree
        rfl)
    split at hs
    · cases hs
      exact hborn
    have hrec : Tidy reserved ((u.setTask newpid _).setProc newpid
        (State.forkRecord (u.proc pid) (u.proc newpid) pid)) := hborn.setProc (.inr ⟨rfl, rfl⟩)
    split at hs
    · cases hs
      exact hrec
    have hfiled := hrec.congr (t := { (u.setTask newpid _).setProc newpid _ with
      pidToChild := u.pidToChild ++ [(pid, newpid)] }) rfl rfl rfl rfl fun _ => .inr ⟨rfl, rfl⟩
    split at hs
    · cases hs
      exact hfiled
    · simp only [Option.bind_eq_bind, Option.bind_eq_some_iff] at hs
      obtain ⟨⟨v, ok⟩, hlaunch, hs⟩ := hs
      split at hs <;> cases hs
      exact (hfiled.launchProcess hlaunch).1

theorem Tidy.wait {id : WaitFor} {nohang : Bool} (h : Tidy reserved s)
    (hs : s.wait sender id nohang = some (t, r)) : Tidy reserved t := by
  rcases wait_cases hs with rfl | ⟨dead, -, rfl⟩ | ⟨child, -, rfl⟩ | ⟨-, rfl⟩
  · exact h
  · exact h.congr rfl rfl rfl rfl fun _ => .inr ⟨rfl, rfl⟩
  · exact h.setProc (.inr ⟨rfl, rfl⟩)
  · have hany : Tidy reserved (s.setProc (pidof sender) { s.proc (pidof sender) with waitAny := true }) :=
      h.setProc (.inr ⟨rfl, rfl⟩)
    exact hany.congr rfl rfl rfl rfl fun _ => .inr ⟨rfl, rfl⟩

theorem Tidy.execCall {load : Load} (h : Tidy reserved s) (hok : tidyThreads s (.call sender (.exec load)))
    (hs : s.exec (pidof sender) load = some (t, r)) : Tidy reserved t := by
  obtain rfl | ⟨hload, -, u, hu, hend⟩ := exec_cases hs
  · exact h
  have hhelper : (s.proc (pidof sender)).sighelperTid = none := by
    cases load with
    | rejected e => exact absurd rfl (hload e)
    | failed | unlaunched | loaded => exact hok
  have htidy := h.taskDtor (fun _ => hhelper) hu
  have hgone := (taskDtor_frame hu).2
  obtain rfl | ⟨area, rfl | ⟨ok, hv⟩⟩ := hend
  · exact htidy
  · exact htidy.configure hgone
  · exact ((htidy.configure hgone).launchProcess hv).1

theorem Tidy.sigset {setName : ℕ} {orBits andBits : SigSet} {replyOk : Bool} (h : Tidy reserved s)
    (hs : s.sigset sender setName orBits andBits replyOk = some (t, r)) : Tidy reserved t := by
  obtain ⟨hp, rfl | hremove | ⟨_, _, rfl⟩ | ⟨-, hmask⟩ | ⟨_, _, _, rfl⟩⟩ := sigset_cases hs
  · exact h
  · exact (h.sigRemoveHelper (not_isSystask_of_hasProcess hp) hremove).1
  · exact h.setProc (.inr ⟨rfl, rfl⟩)
  · have hremask : Tidy reserved (s.setProc (pidof sender) (State.remask (s.proc (pidof sender)) orBits andBits)) :=
      h.setProc (.inr ⟨rfl, rfl⟩)
    exact hremask.sigLoop (not_isSystask_of_hasProcess hp) (setMask_cases hmask)
  · exact h.setProc (.inr ⟨rfl, rfl⟩)

theorem Tidy.handle {call : Call} (h : Tidy reserved s) (hinv : Inv s)
    (hok : tidyThreads s (.call sender call)) (hs : s.handle sender call = some (t, r)) : Tidy reserved t := by
  cases call with
  | createThread =>
    obtain rfl | ⟨got, hgot⟩ := createThread_cases hs
    · exact h
    · exact h.allocateThread hgot
  | removeThread tid utcbAddr =>
    obtain rfl | ⟨hm, u, hu, ht⟩ := removeThread_cases hs
    · exact h
    · obtain ⟨hother, hutcb⟩ := hok hm
      exact h.release hm hutcb hother hu ht
  | spawn load mem => exact h.spawn hinv hs
  | exec load => exact h.execCall hok hs
  | kill pid sig earlyReplyOk replyOk =>
    obtain rfl | ⟨herr, -, hsend⟩ := kill_cases hs
    · exact h
    · exact h.sigSend (not_isSystask_of_hasProcess (hasProcess_of_killError herr)) hsend
  | exit status replyOk =>
    obtain ⟨hsys, hu⟩ | ⟨hsys, -, hz⟩ := exit_cases hs
    · refine h.taskDtor (fun hno => ?_) hu
      rw [hsys] at hno
      cases hno
    · have hrec : Tidy reserved (s.setRecord (pidof sender) 0 (toShort status) CLD_EXITED) := h.setProc (.inr ⟨rfl, rfl⟩)
      exact hrec.zombify hsys hz
  | wait id nohang => exact h.wait hs
  | fork env => exact h.fork hinv hs
  | sigset setName orBits andBits replyOk => exact h.sigset hs
  | sigsuspend mask =>
    obtain rfl | ⟨_, _, _, _, rfl⟩ := sigsuspend_cases hs
    · exact h
    · exact h.setProc (.inr ⟨rfl, rfl⟩)
  | setresugid mode rUid eUid sUid =>
    obtain rfl | ⟨_, _, _, rfl⟩ := setresugid_cases hs
    · exact h
    · exact h.setProc (.inr ⟨rfl, rfl⟩)

theorem Tidy.exec {step : Step} (h : Tidy reserved s) (hinv : Inv s) (hok : tidyThreads s step)
    (hs : exec s step = some t) : Tidy reserved t := by
  cases step with
  | call sender call =>
    obtain ⟨⟨u, r⟩, hr, rfl⟩ := Option.map_eq_some_iff.mp hs
    simp only [respond] at hr
    split at hr
    · cases hr
    split at hr
    · cases hr
    · exact h.handle hinv hok hr
  | confirm =>
    simp only [Root.exec] at hs
    split at hs
    · exact (h.syncConfirm hinv.confirmsDead hs).1
    · cases hs
  | dropConfirm =>
    cases hs
    exact h.congr rfl rfl rfl rfl fun _ => .inr ⟨rfl, rfl⟩

/-- What `uapi_init` and `add_systask` leave: the first 512 thread numbers are taken, among them those
    of the threads there are, whose UTCB slots are marked in their tasks' bitmaps. -/
structure ThreadsBooted (s : State) : Prop where
  maps : ∀ map bit, s.tnoFreeMaps map bit = (map ≠ 0 || 512 ≤ bit)
  counts : ∀ map, s.tnoFreeCounts map = if map = 0 then tnosPerBitmap - 512 else tnosPerBitmap
  own : ∀ q, ∀ tid ∈ (s.task q).threads, pidof tid = q ∧ tid.threadNo < 512
  nodup : ∀ q, (s.task q).threads.Nodup
  distinct : ∀ tid tid', s.Live tid → s.Live tid' → tid.threadNo = tid'.threadNo → tid = tid'
  utcbs : ∀ q area free, (s.task q).utcbArea = some area → (s.task q).utcbFree = some free →
    Slots (· ∈ (s.task q).threads) (s.utcbSlot area) (fun _ => False) free area.utcbSlots
  bare : ∀ q, s.hasTask q = false ∨ (s.task q).utcbFree = none → (s.task q).threads = []
  helpers : ∀ q, (s.proc q).sighelperTid = none

def State.burnt (s : State) (n : ℕ) : Prop := n < 512 ∧ ∀ tid, s.Live tid → tid.threadNo ≠ n

theorem ThreadsBooted.tidy (h : ThreadsBooted s) : Tidy s.burnt s := by
  refine ⟨⟨fun q tid hm => (h.own q tid hm).1, h.nodup, ⟨⟨?_, ?_, h.distinct, ?_⟩, ?_⟩, h.utcbs, h.bare⟩, ?_⟩
  · intro tid htid
    have hlt := (h.own _ tid htid).2
    simp only [tnosPerBitmap]
    omega
  · exact fun tid htid hburnt => hburnt.2 tid htid rfl
  · intro n hn
    have hlow : s.freeNo n = true ↔ 512 ≤ n := by
      simp only [State.freeNo, h.maps, Nat.shiftRight_eq_div_pow, Bool.or_eq_true, decide_eq_true_eq]
      omega
    rw [hlow]
    constructor
    · intro hle
      refine ⟨fun hburnt => absurd hburnt.1 (by omega), fun tid htid he => ?_⟩
      have hlt := (h.own _ tid htid).2
      omega
    · rintro ⟨hno, hall⟩
      by_contra hlt
      exact hno ⟨by omega, hall⟩
  · intro map _
    have hmap : s.tnoFreeMaps map = fun bit => decide ((if map = 0 then 512 else 0) ≤ bit) := by
      funext bit
      rw [h.maps]
      split <;> simp [*]
    rw [h.counts, hmap, freeCount_from]
    split <;> rfl
  · intro q _ tid htid
    rw [h.helpers] at htid
    cases htid

/-- In every run whose steps are orderly and tidy, threads, bitmaps and counters agree. -/
theorem threads_agree {s₀ s : State} {steps : List Step} (hboot : Booted s₀) (hthreads : ThreadsBooted s₀)
    (h : Run exec (fun s step => orderlyDeath s step ∧ tidyThreads s step) s₀ steps s) :
    ThreadsAgree s₀.burnt s := by
  have hend : Inv s ∧ Tidy s₀.burnt s := by
    refine Run.invariant (I := fun s => Inv s ∧ Tidy s₀.burnt s) (fun _ _ _ hok hs hi => ?_) h
      ⟨hboot.inv, hthreads.tidy⟩
    exact ⟨hi.1.exec hok.1 hs, hi.2.exec hi.1 hok.2 hs⟩
  exact hend.2.tables.agree

/-- A thread of root from before `uapi_init`. -/
def earlyTid : Tid := ⟨400, 2⟩

def freshState : State where
  task pid := if pid = minSysid then ⟨some ⟨0x100000, 19⟩, some (0 < ·), [earlyTid]⟩ else ⟨none, none, []⟩
  proc _ := .blank
  allocated _ := false
  nextUserPid := 1
  tnoFreeMaps map bit := map ≠ 0 || 512 ≤ bit
  tnoFreeCounts map := if map = 0 then tnosPerBitmap - 512 else tnosPerBitmap
  utcbLoc _ := 0x100000
  pidToChild := []
  waitanyHash := []
  confirm := none
  vmTid := ⟨401, 10⟩
  nextInc := 0
  log := []

theorem freshState_booted : Booted freshState where
  process pid := by
    simp only [State.hasProcess, freshState, Bool.and_eq_false_iff, decide_eq_false_iff_not]
    by_cases hp : pid = minSysid
    · exact .inl (.inr (by rw [hp]; decide))
    · exact .inr (by simp [hp])
  confirm := rfl
  log := rfl

theorem freshState_threads (q : ℕ) : (freshState.task q).threads = if q = minSysid then [earlyTid] else [] := by
  simp only [freshState]
  split <;> rfl

theorem freshState_threadsBooted : ThreadsBooted freshState := by
  have hmem : ∀ q, ∀ tid ∈ (freshState.task q).threads, q = minSysid ∧ tid = earlyTid := by
    intro q tid hm
    rw [freshState_threads] at hm
    split at hm
    · next hq => exact ⟨hq, List.mem_singleton.mp hm⟩
    · cases hm
  refine ⟨fun _ _ => rfl, fun _ => rfl, ?_, ?_, ?_, ?_, ?_, fun _ => rfl⟩
  · intro q tid hm
    obtain ⟨rfl, rfl⟩ := hmem q tid hm
    decide
  · intro q
    rw [freshState_threads]
    split <;> simp
  · intro tid tid' hm hm' _
    rw [(hmem _ tid hm).2, (hmem _ tid' hm').2]
  · intro q area free harea hfree
    by_cases hq : q = minSysid
    · subst hq
      simp only [freshState, if_true, Option.some.injEq] at harea hfree
      subst harea hfree
      refine ⟨fun tid hm => ?_, fun _ _ => id, fun tid tid' hm hm' _ => ?_, fun i _ => ?_⟩
      · rw [(hmem _ tid hm).2]
        decide
      · rw [(hmem _ tid hm).2, (hmem _ tid' hm').2]
      · simp only [freshState_threads, if_true, List.mem_singleton, forall_eq, not_false_eq_true, true_and,
          decide_eq_true_eq]
        change 0 < i ↔ 0 ≠ i
        omega
    · simp only [freshState, if_neg hq, reduceCtorEq] at harea
  · intro q hq
    rw [freshState_threads]
    by_cases hs : q = minSysid
    · subst hs
      exact absurd hq (by decide)
    · rw [if_neg hs]

def threadRun : List Step :=
  [.call earlyTid (.spawn (.loaded ⟨0x100000, 19⟩) .blank),
    .call ⟨512, 3⟩ .createThread]

/-- The second thread is removed with its own UTCB address, and another takes its place. -/
theorem threads_agree_own :
    Booted freshState ∧ ThreadsBooted freshState ∧
    ∃ s, Run exec (fun s step => orderlyDeath s step ∧ tidyThreads s step) freshState
        (threadRun ++ [.call ⟨512, 3⟩ (.removeThread ⟨513, 3⟩ 0x100200), .call ⟨512, 3⟩ .createThread]) s ∧
      (s.task 1).threads = [⟨512, 3⟩, ⟨513, 3⟩] ∧ s.utcbLoc ⟨513, 3⟩ = 0x100200 ∧
      ThreadsAgree freshState.burnt s := by
  obtain ⟨s, hs, he⟩ := Run.exists_of_evalRun exec (fun s step => orderlyDeath s step ∧ tidyThreads s step)
    freshState (threadRun ++ [.call ⟨512, 3⟩ (.removeThread ⟨513, 3⟩ 0x100200), .call ⟨512, 3⟩ .createThread])
    (fun s => ((s.task 1).threads, s.utcbLoc ⟨513, 3⟩)) ([⟨512, 3⟩, ⟨513, 3⟩], 0x100200) (by decide +kernel)
  simp only [Prod.mk.injEq] at he
  exact ⟨freshState_booted, freshState_threadsBooted, s, hs, he.1, he.2,
    threads_agree freshState_booted freshState_threadsBooted hs⟩

/-- It is removed with the UTCB address of the first thread, and the thread made after that shares it. -/
theorem threads_share_utcb :
    ¬ ∀ s₀ steps s, Booted s₀ → ThreadsBooted s₀ → Run exec free s₀ steps s → ThreadsAgree s₀.burnt s := by
  intro h
  obtain ⟨s, hs, he⟩ := Run.exists_of_evalRun exec free freshState
    (threadRun ++ [.call ⟨512, 3⟩ (.removeThread ⟨513, 3⟩ 0x100000), .call ⟨512, 3⟩ .createThread])
    (fun s => ((s.task 1).utcbArea, (s.task 1).threads, s.utcbLoc ⟨512, 3⟩, s.utcbLoc ⟨513, 3⟩))
    (some ⟨0x100000, 19⟩, [⟨512, 3⟩, ⟨513, 3⟩], 0x100000, 0x100000) (by decide +kernel)
  simp only [Prod.mk.injEq] at he
  obtain ⟨harea, hlist, hfirst, hsecond⟩ := he
  have hsame := (h _ _ _ freshState_booted freshState_threadsBooted hs).slots 1 _ harea ⟨512, 3⟩ (by simp [hlist])
    ⟨513, 3⟩ (by simp [hlist]) (by rw [State.utcbSlot, State.utcbSlot, hfirst, hsecond])
  exact absurd hsame (by decide)

end Sneks.Root
