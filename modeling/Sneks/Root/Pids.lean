import Sneks.Root.Frames
import Sneks.Root.Threads

/-!
# Process numbers

How `alloc_process` goes through the numbers, and how `allocate_thread` puts a number into a
thread id (`root/uapi.c`). The counter is to start again from 1 past `SNEKS_MAX_PID`, but it is
compared with what it was before its increment, so that the assertion after that fails. The version
of a thread id has 14 bits, of which a system task's number has 12.
-/

namespace Sneks.Root

-- Allocating a process

def State.Allocates (s : State) (mem : Process) : Prop :=
  ∃ t got, s.allocProcess mem maxPid = some (t, got) ∧
    (∀ pid, got = some pid → 0 < pid ∧ pid ≤ maxPid ∧ s.allocated pid = false) ∧
    (got = none → ∀ pid, 0 < pid → pid ≤ maxPid → s.allocated pid = true)

variable {s t : State} {mem : Process} {n pid map bit : ℕ}

theorem allocProcess_past (h : maxPid < s.nextUserPid) : State.allocProcess mem (n + 1) s = none := by
  have hle : ¬ s.nextUserPid + 1 ≤ maxPid := by omega
  simp [State.allocProcess, h, hle]

theorem allocProcess_taken (h : s.nextUserPid ≤ maxPid) (htaken : s.allocated s.nextUserPid = true) :
    State.allocProcess mem (n + 1) s = State.allocProcess mem n { s with nextUserPid := s.nextUserPid + 1 } := by
  have hgt : ¬ s.nextUserPid > maxPid := by omega
  simp [State.allocProcess, hgt, htaken]

theorem allocProcess_free (h : s.nextUserPid ≤ maxPid) (hfree : s.allocated s.nextUserPid = false) :
    ∃ t, State.allocProcess mem (n + 1) s = some (t, some s.nextUserPid) := by
  have hgt : ¬ s.nextUserPid > maxPid := by omega
  simp [State.allocProcess, hgt, hfree]

theorem allocProcess_reaches (hle : s.nextUserPid ≤ pid) (hmax : pid ≤ maxPid) (hfree : s.allocated pid = false)
    (hn : pid < s.nextUserPid + n) :
    ∃ t got, State.allocProcess mem n s = some (t, some got) ∧ s.nextUserPid ≤ got ∧ got ≤ maxPid ∧
      s.allocated got = false := by
  induction n generalizing s with
  | zero => omega
  | succ n ih =>
    cases hat : s.allocated s.nextUserPid with
    | false =>
      obtain ⟨t, ht⟩ := @allocProcess_free s mem n (Nat.le_trans hle hmax) hat
      exact ⟨t, _, ht, Nat.le_refl _, Nat.le_trans hle hmax, hat⟩
    | true =>
      have hne : pid ≠ s.nextUserPid := fun h => by
        rw [h, hat] at hfree
        cases hfree
      rw [allocProcess_taken (Nat.le_trans hle hmax) hat]
      obtain ⟨t, got, ht, hge, hrest⟩ := @ih { s with nextUserPid := s.nextUserPid + 1 }
        (by dsimp only; omega) hfree (by dsimp only; omega)
      exact ⟨t, got, ht, Nat.le_of_succ_le hge, hrest⟩

theorem allocProcess_full (hfull : ∀ q, s.nextUserPid ≤ q → q ≤ maxPid → s.allocated q = true)
    (hnext : s.nextUserPid ≤ maxPid + 1) :
    (s.nextUserPid + n ≤ maxPid + 1 → ∃ t, State.allocProcess mem n s = some (t, none)) ∧
      (maxPid + 1 < s.nextUserPid + n → State.allocProcess mem n s = none) := by
  induction n generalizing s with
  | zero => exact ⟨fun _ => ⟨s, rfl⟩, fun h => by omega⟩
  | succ n ih =>
    by_cases hpast : maxPid < s.nextUserPid
    · exact ⟨fun h => by omega, fun _ => allocProcess_past hpast⟩
    · have hle := Nat.not_lt.mp hpast
      obtain ⟨hends, hfails⟩ := @ih { s with nextUserPid := s.nextUserPid + 1 }
        (fun q hq => hfull q (Nat.le_of_succ_le hq)) (Nat.succ_le_succ hle)
      rw [allocProcess_taken hle (hfull _ (Nat.le_refl _) hle)]
      exact ⟨fun h => hends (by dsimp only; omega), fun h => hfails (by dsimp only; omega)⟩

/-- **Allocating a process.** Whatever is in use, `alloc_process` does what it is for just if the counter
is 1 or a number is free from the counter on. -/
theorem allocates_iff (s : State) (mem : Process) (hnext : 0 < s.nextUserPid) :
    s.Allocates mem ↔
      s.nextUserPid = 1 ∨ ∃ pid, s.nextUserPid ≤ pid ∧ pid ≤ maxPid ∧ s.allocated pid = false := by
  by_cases hfree : ∃ pid, s.nextUserPid ≤ pid ∧ pid ≤ maxPid ∧ s.allocated pid = false
  · obtain ⟨pid, hle, hmax, hat⟩ := hfree
    obtain ⟨t, got, ht, hge, hgot, hnot⟩ := @allocProcess_reaches s mem maxPid pid hle hmax hat (by omega)
    refine iff_of_true ⟨t, some got, ht, fun q hq => ?_, nofun⟩ (.inr ⟨pid, hle, hmax, hat⟩)
    cases hq
    exact ⟨Nat.lt_of_lt_of_le hnext hge, hgot, hnot⟩
  · have hfull : ∀ q, s.nextUserPid ≤ q → q ≤ maxPid → s.allocated q = true := fun q hq hmax =>
      Bool.eq_true_of_not_eq_false fun hat => hfree ⟨q, hq, hmax, hat⟩
    by_cases hone : s.nextUserPid = 1
    · obtain ⟨t, ht⟩ := (@allocProcess_full s mem maxPid hfull (by rw [hone]; decide)).1 (by omega)
      exact iff_of_true ⟨t, none, ht, nofun, fun _ q hq => hfull q (by omega)⟩ (.inl hone)
    · refine iff_of_false ?_ (not_or.mpr ⟨hone, hfree⟩)
      rintro ⟨t, got, ht, -⟩
      have hnone : s.allocProcess mem maxPid = none := by
        by_cases hpast : maxPid < s.nextUserPid
        · exact @allocProcess_past s mem 32766 hpast
        · exact (@allocProcess_full s mem maxPid hfull (by omega)).2 (by omega)
      cases ht.symm.trans hnone

theorem allocates_iff_fresh : freshState.Allocates .blank ↔
    freshState.nextUserPid = 1 ∨ ∃ pid, freshState.nextUserPid ≤ pid ∧ pid ≤ maxPid ∧ freshState.allocated pid = false :=
  allocates_iff freshState .blank (by decide)

/-- The counter past `SNEKS_MAX_PID`, with all numbers free. -/
def wornState : State := { freshState with nextUserPid := 32768 }

theorem allocates_worn : ¬ wornState.Allocates .blank := by
  rintro ⟨t, got, ht, -⟩
  have hnone : wornState.allocProcess .blank maxPid = none := @allocProcess_past wornState .blank 32766 (by decide)
  cases ht.symm.trans hnone

-- Thread ids

def numSystaskIds : ℕ := 2 ^ 14

def TaskNumber (pid : ℕ) : Prop := 0 < pid ∧ pid ≤ maxPid ∨ minSysid ≤ pid ∧ pid < minSysid + numSystaskIds

/-- A bitmap that `allocate_thread` may take a thread number of `pid` from: any for a system task. -/
def MapOf (pid map : ℕ) : Prop := map < 4 ∧ (isSystask pid = false → map = (pid &&& 0x6000) >>> 13)

theorem threadNo_bits (pid : ℕ) (hmap : map < 4) (hbit : bit < tnosPerBitmap) :
    ((State.makeTid pid map bit).threadNo &&& 0x30000) >>> 3 = map <<< 13 := by
  have hno : (State.makeTid pid map bit).threadNo = map <<< 16 ||| bit := by
    rw [makeTid_threadNo hmap hbit, ← Nat.shiftLeft_add_eq_or_of_lt (show bit < 2 ^ 16 from hbit), Nat.shiftLeft_eq]
    rfl
  have hmask : (0x30000 : ℕ) = (2 ^ 2 - 1) <<< 16 := rfl
  rw [hno, hmask]
  refine Nat.eq_of_testBit_eq fun i => ?_
  simp only [Nat.testBit_shiftRight, Nat.testBit_and, Nat.testBit_or, Nat.testBit_shiftLeft, Nat.testBit_two_pow_sub_one]
  by_cases hi : 13 ≤ i
  · have hwide : 2 ^ 16 ≤ 2 ^ (3 + i) := Nat.pow_le_pow_right (by decide) (by omega)
    have hlow : bit.testBit (3 + i) = false := Nat.testBit_lt_two_pow (Nat.lt_of_lt_of_le hbit hwide)
    have hindex : 3 + i - 16 = i - 13 := by omega
    rw [hlow, hindex, Bool.or_false]
    by_cases htwo : i - 13 < 2
    · simp [hi, htwo, (by omega : 16 ≤ 3 + i)]
    · have hwide' : 2 ^ 2 ≤ 2 ^ (i - 13) := Nat.pow_le_pow_right (by decide) (by omega)
      have hhigh : map.testBit (i - 13) = false := Nat.testBit_lt_two_pow (Nat.lt_of_lt_of_le hmap hwide')
      simp [hhigh]
  · have hi' : ¬ 16 ≤ 3 + i := by omega
    rw [decide_eq_false hi, decide_eq_false hi']
    simp

theorem pidof_makeTid_user (hpid : pid ≤ maxPid) (hmap : MapOf pid map) (hbit : bit < tnosPerBitmap) :
    pidof (State.makeTid pid map bit) = pid := by
  simp only [maxPid] at hpid
  have huser : isSystask pid = false := by
    rw [isSystask, minSysid, decide_eq_false_iff_not]
    omega
  have hlow : pid &&& 0x1fff = pid % 2 ^ 13 := Nat.and_two_pow_sub_one_eq_mod pid 13
  have hversion : (State.makeTid pid map bit).version = pid % 2 ^ 13 * 2 + 1 := by
    simp only [State.makeTid, huser, Bool.false_eq_true, if_false, hlow]
    rw [← Nat.shiftLeft_add_eq_or_of_lt (by decide : 1 < 2 ^ 1), Nat.shiftLeft_eq]
    omega
  have hmask : (0x6000 : ℕ) >>> 13 = 2 ^ 2 - 1 := rfl
  have hhigh : map = pid / 2 ^ 13 := by
    rw [hmap.2 huser, Nat.shiftRight_and_distrib, hmask, Nat.and_two_pow_sub_one_eq_mod, Nat.shiftRight_eq_div_pow]
    omega
  rw [pidof, threadNo_bits pid hmap.1 hbit, hversion, if_pos (by omega), Nat.shiftRight_eq_div_pow, Nat.or_comm,
    ← Nat.shiftLeft_add_eq_or_of_lt (by omega), Nat.shiftLeft_eq, hhigh]
  omega

theorem pidof_makeTid_systask (hpid : minSysid ≤ pid) :
    pidof (State.makeTid pid map bit) = minSysid + (pid - minSysid) % 2 ^ 12 := by
  have hsys : isSystask pid = true := decide_eq_true hpid
  have hversion : (State.makeTid pid map bit).version = (pid - minSysid) % 2 ^ 12 * 4 + 2 := by
    simp only [State.makeTid, hsys, if_true]
    rw [← Nat.shiftLeft_add_eq_or_of_lt (by decide : 2 < 2 ^ 2), Nat.shiftLeft_eq]
    omega
  rw [pidof, hversion, if_neg (by omega), if_pos (by omega), Nat.shiftRight_eq_div_pow]
  omega

def Tells (pid : ℕ) : Prop :=
  ∀ map bit, MapOf pid map → bit < tnosPerBitmap → pidof (State.makeTid pid map bit) = pid

def ToldApart (pid pid' : ℕ) : Prop :=
  ∀ map bit map' bit', MapOf pid map → MapOf pid' map' → bit < tnosPerBitmap → bit' < tnosPerBitmap →
    pidof (State.makeTid pid map bit) = pidof (State.makeTid pid' map' bit') → pid = pid'

/-- **Thread ids.** Of the numbers that `get_task` accepts, those are told by their threads' ids that are
below `SNEKS_MIN_SYSID` + 4096, and these are told apart. -/
theorem pidof_makeTid_iff (pid : ℕ) (haccepted : TaskNumber pid) :
    (Tells pid ↔ pid < minSysid + 2 ^ 12) ∧
      (pid < minSysid + 2 ^ 12 → ∀ pid', TaskNumber pid' → pid' < minSysid + 2 ^ 12 → ToldApart pid pid') := by
  have htells : ∀ q, TaskNumber q → q < minSysid + 2 ^ 12 → Tells q := by
    rintro q (⟨-, hmax⟩ | ⟨hmin, -⟩) hlt map bit hmap hbit
    · exact pidof_makeTid_user hmax hmap hbit
    · rw [pidof_makeTid_systask hmin]
      omega
  refine ⟨⟨fun h => ?_, htells pid haccepted⟩, fun hlt pid' haccepted' hlt' map bit map' bit' hmap hmap' hbit hbit' he => ?_⟩
  · obtain ⟨-, hmax⟩ | ⟨hmin, -⟩ := haccepted
    · simp only [maxPid, minSysid] at hmax ⊢
      omega
    · have hsys : isSystask pid = true := decide_eq_true hmin
      have hzero := h 0 0 ⟨by decide, fun huser => by rw [hsys] at huser; cases huser⟩ (by decide)
      rw [pidof_makeTid_systask hmin] at hzero
      omega
  · rw [htells pid haccepted hlt map bit hmap hbit, htells pid' haccepted' hlt' map' bit' hmap' hbit'] at he
    exact he

theorem pidof_makeTid_first : (Tells 1 ↔ 1 < minSysid + 2 ^ 12) ∧
    (1 < minSysid + 2 ^ 12 → ∀ pid', TaskNumber pid' → pid' < minSysid + 2 ^ 12 → ToldApart 1 pid') :=
  pidof_makeTid_iff 1 (.inl ⟨by decide, by decide⟩)

/-- The threads of system task 4096 have ids that tell system task 0. -/
theorem pidof_makeTid_wraps : TaskNumber 54096 ∧ ¬ Tells 54096 := by
  refine ⟨.inr ⟨by decide, by decide⟩, fun h => ?_⟩
  exact absurd (h 0 512 ⟨by decide, fun huser => by cases huser⟩ (by decide)) (by decide)

end Sneks.Root
