import Sneks.Root.Dispositions

/-!
# The runtime's copies of the signal sets

`sigaction` and `signal` of the user runtime (`user/crt/sigaction.c`) keep `ign_set` and
`dfl_set` beside root's, and tell root of each change. A forked process has a copy of its
parent's runtime; a program that was spawned or executed starts with the initial values,
while `uapi_exec` keeps what root has recorded.

The runtime asks root to change either set in `sigaction` only. What else a process asks of
root is a step as in `Sneks.Root.Uapi`.
-/

namespace Sneks.Crt
open Lib Root

inductive Handler
  | dfl | ign
  | function (address : ℕ)
  deriving DecidableEq

def SA_SIGINFO : BitVec 32 := 4
def SA_RESTART : BitVec 32 := 0x10000000

/-- `struct sigaction`, less the handler that `SA_SIGINFO` would call. -/
structure Sigaction where
  handler : Handler
  mask : SigSet
  flags : BitVec 32

/-- The static data of `sigaction.c` that `sigaction` works on. `block_set` is not in it:
    it is set for a while and put back. -/
structure Runtime where
  ignSet : SigSet
  dflSet : SigSet
  deliveryPage : Bool
  /-- By signal number. -/
  sigActions : ℕ → Sigaction

namespace Runtime

def fresh : Runtime where
  ignSet := 0
  dflSet := ~~~0
  deliveryPage := false
  sigActions _ := ⟨.dfl, 0, 0⟩

variable (c : Runtime)

def sets : SigSet × SigSet := (c.ignSet, c.dflSet)

/-- The `Proc::sigset` that a new handler takes, if any: the set, what is added to it and
    what is kept of it. -/
def request (sig : ℕ) : Handler → Option (ℕ × SigSet × SigSet)
  | .ign => if ~~~c.ignSet &&& sigBit sig ≠ 0 then some (0, sigBit sig, ~~~0) else none
  | .dfl => if ~~~c.dflSet &&& sigBit sig ≠ 0 then some (1, sigBit sig, ~~~0) else none
  | .function _ =>
    if (c.ignSet ||| c.dflSet) &&& sigBit sig ≠ 0 then
      some (if c.ignSet &&& sigBit sig ≠ 0 then 0 else 1, 0, ~~~sigBit sig)
    else none

def oldOk (sig : ℕ) (handler : Handler) (old : SigSet) : Bool :=
  match handler with
  | .function _ => old &&& sigBit sig ≠ 0
  | _ => ~~~old &&& sigBit sig ≠ 0

def record (sig : ℕ) : Handler → Runtime
  | .ign => { c with dflSet := c.dflSet &&& ~~~sigBit sig, ignSet := c.ignSet ||| sigBit sig }
  | .dfl => { c with ignSet := c.ignSet &&& ~~~sigBit sig, dflSet := c.dflSet ||| sigBit sig }
  | .function _ =>
    { c with ignSet := c.ignSet &&& ~~~sigBit sig, dflSet := c.dflSet &&& ~~~sigBit sig }

def install (sig : ℕ) (act : Sigaction) : Runtime :=
  { c with sigActions := Function.update c.sigActions sig act }

end Runtime

structure World where
  root : State
  crt : ℕ → Option Runtime

namespace World

variable (w : World)

def setCrt (pid : ℕ) (c : Runtime) : World := { w with crt := Function.update w.crt pid (some c) }

/-- `sigaction` past its checks, with the delivery page in place. A failed assertion and an
    error of `Proc::sigset` end the program. -/
def changeHandler (sender : Tid) (c : Runtime) (sig : ℕ) (act : Sigaction) :
    Option (World × Except Errno Sigaction) :=
  if c.ignSet &&& c.dflSet ≠ 0 then none
  else match c.request sig act.handler with
    | none => some (w.setCrt (pidof sender) (c.install sig act), .ok (c.sigActions sig))
    | some (setName, orBits, andBits) => do
      let (s, r) ← respond w.root sender (.sigset setName orBits andBits true)
      match r with
      | .error _ => none
      | .ok old =>
        let c' := c.record sig act.handler
        if !Runtime.oldOk sig act.handler (BitVec.ofNat 64 old) || c'.ignSet &&& c'.dflSet ≠ 0 then none
        else some ({ w with root := s }.setCrt (pidof sender) (c'.install sig act), .ok (c.sigActions sig))

/-- `sigaction`. `page` tells whether the delivery page can be set up when it has to be. -/
def sigaction (sender : Tid) (signum : ℤ) (act : Sigaction) (page : Bool) :
    Option (World × Except Errno Sigaction) :=
  match w.crt (pidof sender) with
  | none => none
  | some c =>
    if sender ∉ (w.root.task (pidof sender)).threads then none
    else if signum < 1 ∨ 64 < signum then some (w, .error .EINVAL)
    else if !c.deliveryPage && !page then none
    else
      let c := { c with deliveryPage := true }
      let w := w.setCrt (pidof sender) c
      if act.flags &&& SA_SIGINFO ≠ 0 then some (w, .error .ENOSYS)
      else w.changeHandler sender c signum.toNat act

/-- `signal`, with the former handler or the error. -/
def signal (sender : Tid) (signum : ℤ) (handler : Handler) (page : Bool) :
    Option (World × Except Errno Handler) :=
  (w.sigaction sender signum ⟨handler, 0, SA_RESTART⟩ page).map fun (w, r) => (w, r.map (·.handler))

def runtimes (sender : Tid) (call : Call) (s : State) (r : Result) : ℕ → Option Runtime :=
  match call, r with
  | .fork _, .ok child => Function.update w.crt child (w.crt (pidof sender))
  | .spawn .., .ok child => Function.update w.crt child (some .fresh)
  | .exec _, .ok _ =>
    Function.update w.crt (pidof sender)
      (if (s.task (pidof sender)).threads = [] then none else some .fresh)
  | _, _ => w.crt

end World

inductive Step
  | sigaction (sender : Tid) (signum : ℤ) (act : Sigaction) (page : Bool)
  | signal (sender : Tid) (signum : ℤ) (handler : Handler) (page : Bool)
  | root (step : Root.Step)

def namesDisposition : Call → Bool
  | .sigset setName .. => setName = 0 || setName = 1
  | _ => false

def exec (w : World) : Step → Option World
  | .sigaction sender signum act page => (w.sigaction sender signum act page).map (·.1)
  | .signal sender signum handler page => (w.signal sender signum handler page).map (·.1)
  | .root (.call sender call) =>
    if namesDisposition call then none
    else (respond w.root sender call).map fun (s, r) => ⟨s, w.runtimes sender call s r⟩
  | .root step => (Root.exec w.root step).map fun s => { w with root := s }

def Mirrored (w : World) : Prop :=
  ∀ pid c, w.crt pid = some c → w.root.hasProcess pid = true → c.sets = (w.root.proc pid).dispositions

def HandlersReset (w : World) : Step → World → Prop
  | .root (.call sender (.exec (.loaded _))), w' =>
    ∀ sig, 1 ≤ sig → sig ≤ 64 →
      ((w.root.proc (pidof sender)).ignSet ||| (w.root.proc (pidof sender)).dflSet) &&& sigBit sig = 0 →
      (w'.root.proc (pidof sender)).dflSet &&& sigBit sig ≠ 0
  | _, _ => True

def IgnoredKept (w : World) : Step → World → Prop
  | .root (.call sender (.exec _)), w' =>
    ∀ sig, (w.root.proc (pidof sender)).ignSet &&& sigBit sig ≠ 0 →
      (w'.root.proc (pidof sender)).ignSet &&& sigBit sig ≠ 0
  | _, _ => True

def defaultExec (w : World) : Step → Prop
  | .root (.call sender (.exec (.loaded _))) => (w.root.proc (pidof sender)).dispositions = (0, ~~~0)
  | _ => True

instance (w : World) (step : Step) : Decidable (defaultExec w step) := by
  unfold defaultExec; split <;> infer_instance

-- What `sigaction` does

theorem add_sets {set other : SigSet} (h : set &&& other = 0) (bit : SigSet) :
    (set &&& ~~~0) ||| bit = set ||| bit ∧
      other &&& ~~~(((set &&& ~~~0) ||| bit) &&& ~~~set) = other &&& ~~~bit := by
  have hset : (set &&& ~~~0) ||| bit = set ||| bit := by
    rw [show (~~~0 : SigSet) = BitVec.allOnes 64 from rfl, BitVec.and_allOnes]
  refine ⟨hset, ?_⟩
  rw [hset]
  ext i hi
  have hbit := and_eq_zero_bit h i hi
  simp only [BitVec.getElem_and, BitVec.getElem_or, BitVec.getElem_not]
  grind

theorem remove_sets (set other bit : SigSet) :
    (set &&& ~~~bit) ||| 0 = set &&& ~~~bit ∧
      other &&& ~~~(((set &&& ~~~bit) ||| 0) &&& ~~~set) = other := by
  have hset : (set &&& ~~~bit) ||| 0 = set &&& ~~~bit := BitVec.or_zero
  refine ⟨hset, ?_⟩
  rw [hset]
  ext i hi
  simp only [BitVec.getElem_and, BitVec.getElem_not]
  grind

theorem and_not_of_absent {set : SigSet} {sig : ℕ} (h : set &&& sigBit sig = 0) :
    set &&& ~~~sigBit sig = set := by
  ext i hi
  have hbit := and_eq_zero_bit h i hi
  simp only [BitVec.getElem_and, BitVec.getElem_not]
  grind

theorem record_sets {c : Runtime} {sig : ℕ} {handler : Handler} {setName : ℕ} {orBits andBits : SigSet}
    (h : c.ignSet &&& c.dflSet = 0) (hr : c.request sig handler = some (setName, orBits, andBits)) :
    adjusted setName orBits andBits c.sets = (c.record sig handler).sets := by
  have h' : c.dflSet &&& c.ignSet = 0 := by rw [BitVec.and_comm, h]
  cases handler with
  | ign =>
    simp only [Runtime.request] at hr
    split at hr <;> cases hr
    exact Prod.ext (add_sets h _).1 (add_sets h _).2
  | dfl =>
    simp only [Runtime.request] at hr
    split at hr <;> cases hr
    exact Prod.ext (add_sets h' _).2 (add_sets h' _).1
  | function address =>
    simp only [Runtime.request] at hr
    split at hr
    · simp only [Option.some.injEq, Prod.mk.injEq] at hr
      obtain ⟨rfl, rfl, rfl⟩ := hr
      simp only [Runtime.record, Runtime.sets]
      split
      · next hign =>
        -- the signal is ignored, so it is not in the other set
        have hdfl := and_not_of_absent (sigBit_apart h' hign)
        refine Prod.ext (remove_sets _ c.dflSet _).1 ?_
        rw [hdfl]
        exact (remove_sets _ _ _).2
      · next hign =>
        have hign := and_not_of_absent (Decidable.not_not.mp hign)
        refine Prod.ext ?_ (remove_sets _ c.ignSet _).1
        rw [hign]
        exact (remove_sets _ _ _).2
    · cases hr

-- The invariant

structure Inv (w : World) : Prop where
  sets : SetsInv w.root
  old : ∀ pid c, w.crt pid = some c → pid < w.root.nextUserPid
  mirrored : Mirrored w

variable {w w' : World} {s t : State} {r : Result} {sender : Tid}

theorem Inv.replace {pid : ℕ} {c : Option Runtime} (h : Inv w) (hs : SameSets w.root s)
    (hc : ∀ d, c = some d → pid < w.root.nextUserPid ∧
      (w.root.hasProcess pid = true → d.sets = (w.root.proc pid).dispositions)) :
    Inv ⟨s, Function.update w.crt pid c⟩ where
  sets := h.sets.same hs
  old q d hd := by
    refine Nat.lt_of_lt_of_le ?_ hs.nextPid
    simp only [Function.update_apply] at hd
    split at hd
    · next hq => exact hq ▸ (hc d hd).1
    · exact h.old q d hd
  mirrored q d hd hp := by
    rw [hs.sets]
    simp only [Function.update_apply] at hd
    split at hd
    · next hq =>
      subst hq
      exact (hc d hd).2 (hs.process q hp)
    · exact h.mirrored q d hd (hs.process q hp)

theorem Inv.setCrt {c c' : Runtime} (h : Inv w) (hc : w.crt (pidof sender) = some c) (hsets : c'.sets = c.sets) :
    Inv (w.setCrt (pidof sender) c') := by
  refine h.replace (.refl _) fun d hd => ?_
  cases hd
  exact ⟨h.old _ c hc, fun hp => hsets.trans (h.mirrored _ c hc hp)⟩

theorem Inv.same (h : Inv w) (hs : SameSets w.root s) : Inv { w with root := s } where
  sets := h.sets.same hs
  old pid c hc := Nat.lt_of_lt_of_le (h.old pid c hc) hs.nextPid
  mirrored pid c hc hp := (h.mirrored pid c hc (hs.process pid hp)).trans (hs.sets pid).symm

theorem Inv.makes {pid : ℕ} {c : Option Runtime} (h : Inv w) (hm : Makes pid w.root s)
    (hapart : Apart (s.proc pid).dispositions) (hc : ∀ d, c = some d → d.sets = (s.proc pid).dispositions) :
    Inv ⟨s, Function.update w.crt pid c⟩ where
  sets := h.sets.makes hm hapart
  old q d hd := by
    simp only [Function.update_apply] at hd
    split at hd
    · next hq => exact hq ▸ hm.nextPid
    · exact Nat.lt_trans (Nat.lt_of_lt_of_le (h.old q d hd) hm.fresh) hm.nextPid
  mirrored q d hd hp := by
    simp only [Function.update_apply] at hd
    split at hd
    · next hq => exact hq ▸ hc d hd
    · next hq => exact (h.mirrored q d hd (hm.process q hq hp)).trans (hm.sets q hq).symm

theorem Inv.makes_none {pid : ℕ} (h : Inv w) (hm : Makes pid w.root s) (hapart : Apart (s.proc pid).dispositions) :
    Inv { w with root := s } := by
  have hno : w.crt pid = none := by
    by_contra hsome
    obtain ⟨c, hc⟩ := Option.ne_none_iff_exists'.mp hsome
    have := h.old pid c hc
    have := hm.fresh
    omega
  have hinv := h.makes (c := none) hm hapart nofun
  rwa [← hno, Function.update_eq_self] at hinv

theorem respond_handle {call : Call} (h : respond s sender call = some (t, r)) :
    s.handle sender call = some (t, r) := by
  simp only [respond] at h
  split at h
  · cases h
  split at h
  · cases h
  · exact h

theorem Inv.request {c : Runtime} {sig : ℕ} {handler : Handler} {setName : ℕ} {orBits andBits : SigSet} {ok : Bool}
    (h : Inv w) (hc : w.crt (pidof sender) = some c) (happ : c.ignSet &&& c.dflSet = 0)
    (hr : c.request sig handler = some (setName, orBits, andBits))
    (hs : respond w.root sender (.sigset setName orBits andBits ok) = some (s, r)) :
    Inv ({ w with root := s }.setCrt (pidof sender) (c.record sig handler)) := by
  have hp : w.root.hasProcess (pidof sender) = true := by
    have hh := respond_handle hs
    by_contra hno
    simp [State.handle, State.sigset, hno] at hh
  have hmirror := h.mirrored _ c hc hp
  obtain ⟨hsets, hproc, hnext⟩ := sigset_sets (h.sets.apart _ hp) (respond_handle hs)
  have hself : (s.proc (pidof sender)).dispositions = (c.record sig handler).sets := by
    rw [hsets, ← record_sets happ hr, hmirror]
    simp only [Root.Step.adjusts, if_true]
  have hexec : Root.exec w.root (.call sender (.sigset setName orBits andBits ok)) = some s := by
    simp only [Root.exec, hs, Option.map_some]
  refine ⟨(exec_sets h.sets hexec).1, fun pid d hd => ?_, fun pid d hd hpid => ?_⟩
  · simp only [World.setCrt, Function.update_apply] at hd
    split at hd
    · next hq =>
      rw [hq]
      exact Nat.lt_of_lt_of_le (h.old _ c hc) hnext
    · exact Nat.lt_of_lt_of_le (h.old pid d hd) hnext
  · simp only [World.setCrt, Function.update_apply] at hd
    split at hd
    · next hq =>
      cases hd
      exact hq ▸ hself.symm
    · next hq =>
      have hother : (s.proc pid).dispositions = (w.root.proc pid).dispositions := by
        rw [hsets]
        simp only [Root.Step.adjusts, if_neg hq, id]
      exact (h.mirrored pid d hd (hproc pid hpid)).trans hother.symm

theorem Inv.changeHandler {c : Runtime} {sig : ℕ} {act : Sigaction} {old : Except Errno Sigaction} (h : Inv w)
    (hc : w.crt (pidof sender) = some c) (hs : w.changeHandler sender c sig act = some (w', old)) : Inv w' := by
  simp only [World.changeHandler] at hs
  split at hs
  · cases hs
  next happ =>
  have happ := Decidable.not_not.mp happ
  split at hs
  · cases hs
    exact h.setCrt hc rfl
  · next setName orBits andBits hr =>
    simp only [Option.bind_eq_bind, Option.bind_eq_some_iff] at hs
    obtain ⟨⟨t, res⟩, ht, hs⟩ := hs
    have hinv := h.request hc happ hr ht
    split at hs
    · cases hs
    split at hs
    · cases hs
    · cases hs
      -- the handler table is all that is left to set
      have hlast : Inv (World.setCrt _ (pidof sender) ((c.record sig act.handler).install sig act)) :=
        hinv.setCrt (Function.update_self ..) rfl
      simpa only [World.setCrt, Function.update_idem] using hlast

theorem Inv.sigaction {signum : ℤ} {act : Sigaction} {page : Bool} {old : Except Errno Sigaction} (h : Inv w)
    (hs : w.sigaction sender signum act page = some (w', old)) : Inv w' := by
  simp only [World.sigaction] at hs
  split at hs
  · cases hs
  next c hc =>
  split at hs
  · cases hs
  split at hs
  · cases hs
    exact h
  split at hs
  · cases hs
  have hpage : Inv (w.setCrt (pidof sender) { c with deliveryPage := true }) := h.setCrt hc rfl
  split at hs
  · cases hs
    exact hpage
  · exact hpage.changeHandler (Function.update_self ..) hs

theorem defaults_apart : Apart (0, ~~~0) := by decide

theorem exec_loaded {load : Load} {n : ℕ} (h : s.exec (pidof sender) load = some (t, .ok n))
    (hth : (t.task (pidof sender)).threads ≠ []) :
    s.hasProcess (pidof sender) = true ∧ ∃ area, load = .loaded area := by
  simp only [State.exec] at h
  split at h
  · cases h
  split at h
  · cases h
  next hp =>
  refine ⟨by simpa using hp, ?_⟩
  cases load with
  | rejected e => cases h
  | failed e =>
    simp only [Option.bind_eq_bind, Option.bind_eq_some_iff] at h
    obtain ⟨u, hu, h⟩ := h
    cases h
    exact absurd (taskDtor_frame hu).2 hth
  | unlaunched area e =>
    simp only [Option.bind_eq_bind, Option.bind_eq_some_iff] at h
    obtain ⟨u, hu, h⟩ := h
    cases h
    simp [State.configure, State.setTask] at hth
  | loaded area => exact ⟨area, rfl⟩

theorem Inv.call {call : Call} (h : Inv w) (hok : defaultExec w (.root (.call sender call)))
    (hnames : namesDisposition call = false) (hs : respond w.root sender call = some (s, r)) :
    Inv ⟨s, w.runtimes sender call s r⟩ := by
  have hh := respond_handle hs
  cases call with
  | spawn load mem =>
    obtain ⟨hsame, hno⟩ | ⟨pid, hmakes, hsets, hchild⟩ := spawn_makes hh
    · cases r with
      | error e => exact h.same hsame
      | ok child => exact absurd rfl (hno child)
    · have hapart : Apart (s.proc pid).dispositions := by
        rw [hsets]
        exact defaults_apart
      cases r with
      | error e => exact h.makes_none hmakes hapart
      | ok child =>
        obtain rfl := hchild child rfl
        refine h.makes hmakes hapart ?_
        intro d hd
        cases hd
        exact hsets.symm
  | fork env =>
    obtain ⟨hsame, hno⟩ | ⟨hp, newpid, hmakes, hchild, hsets⟩ := fork_makes h.sets.old hh
    · cases r with
      | error e => exact h.same hsame
      | ok child => exact absurd rfl (hno child)
    · have hapart : Apart (s.proc newpid).dispositions := by
        obtain hsets | ⟨hsets, -⟩ := hsets
        · rw [hsets]
          exact h.sets.apart _ hp
        · rw [hsets]
          exact defaults_apart
      cases r with
      | error e => exact h.makes_none hmakes hapart
      | ok child =>
        -- the child starts with a copy of its parent's memory
        obtain rfl := hchild child rfl
        refine h.makes hmakes hapart fun d hd => ?_
        obtain hsets | ⟨-, hno⟩ := hsets
        · exact (h.mirrored _ d hd hp).trans hsets.symm
        · exact absurd rfl (hno child)
  | exec load =>
    have hsame : SameSets w.root s := handle_sameSets rfl hh
    cases r with
    | error e => exact h.same hsame
    | ok n =>
      refine h.replace hsame fun d hd => ?_
      split at hd
      · cases hd
      · next hth =>
        obtain ⟨hp, area, rfl⟩ := exec_loaded hh hth
        cases hd
        exact ⟨h.sets.old _ hp, fun _ => hok.symm⟩
  | sigset setName orBits andBits ok =>
    have hp : w.root.hasProcess (pidof sender) = true := by
      by_contra hno
      simp [State.handle, State.sigset, hno] at hh
    obtain ⟨hsets, hproc, hnext⟩ := sigset_sets (h.sets.apart _ hp) hh
    refine h.same ⟨fun q => ?_, hproc, hnext⟩
    rw [hsets]
    simp only [Root.Step.adjusts]
    split
    · -- the call names neither set
      obtain _ | _ | n := setName
      · cases hnames
      · cases hnames
      · rfl
    · rfl
  | _ => exact h.same (handle_sameSets rfl hh)

theorem Inv.exec {step : Step} (h : Inv w) (hok : defaultExec w step) (hs : exec w step = some w') : Inv w' := by
  cases step with
  | sigaction sender signum act page =>
    obtain ⟨⟨u, old⟩, hu, he⟩ := Option.map_eq_some_iff.mp hs
    cases he
    exact h.sigaction hu
  | signal sender signum handler page =>
    obtain ⟨⟨u, old⟩, hu, he⟩ := Option.map_eq_some_iff.mp hs
    cases he
    obtain ⟨⟨v, old'⟩, hv, he⟩ := Option.map_eq_some_iff.mp hu
    cases he
    exact h.sigaction hv
  | root step =>
    cases step with
    | call sender call =>
      simp only [Crt.exec] at hs
      split at hs
      · cases hs
      next hnames =>
      obtain ⟨⟨s, r⟩, hr, he⟩ := Option.map_eq_some_iff.mp hs
      cases he
      exact h.call hok (by simpa using hnames) hr
    | confirm =>
      obtain ⟨s, hr, he⟩ := Option.map_eq_some_iff.mp hs
      cases he
      simp only [Root.exec] at hr
      split at hr
      · exact h.same (syncConfirm_sameSets hr)
      · cases hr
    | dropConfirm =>
      simp only [Crt.exec, Root.exec, Option.map_some, Option.some.injEq] at hs
      subst hs
      exact h.same ⟨fun _ => rfl, fun _ hp => hp, Nat.le_refl _⟩

-- Executing a program

theorem exec_keeps {load : Load} (hs : exec w (.root (.call sender (.exec load))) = some w') (pid : ℕ) :
    (w'.root.proc pid).dispositions = (w.root.proc pid).dispositions := by
  simp only [exec, namesDisposition, Bool.false_eq_true, if_false] at hs
  obtain ⟨⟨s, r⟩, hr, he⟩ := Option.map_eq_some_iff.mp hs
  cases he
  exact (handle_sameSets rfl (respond_handle hr)).sets pid

theorem ignoredKept {step : Step} (hs : exec w step = some w') : IgnoredKept w step w' := by
  simp only [IgnoredKept]
  split
  · next sender _ =>
    intro sig hsig
    have hign : (w'.root.proc (pidof sender)).ignSet = (w.root.proc (pidof sender)).ignSet :=
      congrArg Prod.fst (exec_keeps hs (pidof sender))
    rw [hign]
    exact hsig
  · trivial

theorem sigBit_ne_zero {sig : ℕ} (h1 : 1 ≤ sig) (h64 : sig ≤ 64) : sigBit sig ≠ 0 := by
  intro h
  have hbit : (sigBit sig).getLsbD (sig - 1) = false := by
    rw [h]
    exact BitVec.getLsbD_zero
  rw [sigBit, ← BitVec.twoPow_eq, BitVec.getLsbD_twoPow] at hbit
  simp at hbit
  omega

theorem handlersReset {step : Step} (hok : defaultExec w step) : HandlersReset w step w' := by
  simp only [HandlersReset]
  split
  · intro sig h1 h64 hnone
    -- there is no handler to reset
    exfalso
    have hign := congrArg Prod.fst hok
    have hdfl := congrArg Prod.snd hok
    simp only [Process.dispositions] at hign hdfl
    rw [hign, hdfl] at hnone
    change BitVec.allOnes 64 &&& sigBit sig = 0 at hnone
    rw [BitVec.allOnes_and] at hnone
    exact sigBit_ne_zero h1 h64 hnone
  · trivial

/-- **The runtime's signal sets are root's**, as long as programs are executed by processes
    that have every signal at its default. Then there is no handler to reset; ignored signals
    stay ignored in any case. -/
theorem dispositions_mirrored {w₀ : World} {steps : List Step} (hboot : Booted w₀.root)
    (hcrt : ∀ pid, w₀.crt pid = none) (h : Run exec defaultExec w₀ steps w) :
    Mirrored w ∧ ∀ step w', exec w step = some w' → IgnoredKept w step w' ∧
      (defaultExec w step → Mirrored w' ∧ HandlersReset w step w') := by
  have hstart : Inv w₀ := by
    refine ⟨⟨fun q hq => ?_, fun q hq => ?_⟩, fun pid c hc => ?_, fun pid c hc _ => ?_⟩
    · rw [hboot.process] at hq
      cases hq
    · rw [hboot.process] at hq
      cases hq
    · rw [hcrt] at hc
      cases hc
    · rw [hcrt] at hc
      cases hc
  have hinv : Inv w := h.invariant (fun _ _ _ hok hs hi => Inv.exec hi hok hs) hstart
  refine ⟨hinv.mirrored, fun step w' hs => ⟨ignoredKept hs, fun hok => ?_⟩⟩
  exact ⟨(hinv.exec hok hs).mirrored, handlersReset hok⟩

def bootWorld : World := ⟨bootState, fun _ => none⟩

/-- Init ignores `SIGTERM` and handles `SIGCHLD`. -/
def initSteps : List Step :=
  [.root (.call rootTid (.spawn (.loaded ⟨0x100000, 19⟩) .blank)),
    .sigaction initTid SIGTERM ⟨.ign, 0, 0⟩ true,
    .signal initTid SIGCHLD (.function 0x1000) true]

theorem dispositions_mirrored_fork :
    Booted bootWorld.root ∧ (∀ pid, bootWorld.crt pid = none) ∧
    ∃ w, Run exec defaultExec bootWorld
      (initSteps ++ [.root (.call initTid (.fork ⟨.blank, true, true, none⟩))]) w ∧
      (w.crt 2).map (·.sets) = some (sigBit SIGTERM, ~~~(sigBit SIGTERM ||| sigBit SIGCHLD)) ∧ Mirrored w := by
  obtain ⟨w, hw, he⟩ := Run.exists_of_evalRun exec defaultExec bootWorld
    (initSteps ++ [.root (.call initTid (.fork ⟨.blank, true, true, none⟩))])
    (fun w => (w.crt 2).map (·.sets)) (some (sigBit SIGTERM, ~~~(sigBit SIGTERM ||| sigBit SIGCHLD)))
    (by decide +kernel)
  exact ⟨bootState_booted, fun _ => rfl, w, hw, he,
    (dispositions_mirrored bootState_booted (fun _ => rfl) hw).1⟩

/-- After `exec` root still has init's sets, and the new program does not know. -/
theorem dispositions_not_mirrored :
    ¬ ∀ w₀ steps w, Booted w₀.root → (∀ pid, w₀.crt pid = none) → Run exec free w₀ steps w → Mirrored w := by
  intro h
  obtain ⟨w, hw, he⟩ := Run.exists_of_evalRun exec free bootWorld
    (initSteps ++ [.root (.call initTid (.exec (.loaded ⟨0x100000, 19⟩)))])
    (fun w => ((w.crt 1).map (·.sets), w.root.hasProcess 1, (w.root.proc 1).dispositions))
    (some (0, ~~~0), true, (sigBit SIGTERM, ~~~(sigBit SIGTERM ||| sigBit SIGCHLD))) (by decide +kernel)
  simp only [Prod.mk.injEq] at he
  obtain ⟨hc, hp, hsets⟩ := he
  obtain ⟨c, hc, hfresh⟩ := Option.map_eq_some_iff.mp hc
  have hm := h bootWorld _ w bootState_booted (fun _ => rfl) hw 1 c hc hp
  rw [hfresh, hsets] at hm
  exact absurd hm (by decide)

end Sneks.Crt
