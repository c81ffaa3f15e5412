import Sneks.Devices

/-!
# Device nodes

The filesystem that has the device directory looks the last component of a path that leads there
up among the device nodes which were configured (`squashfs_resolve`, `sys/fs.squashfs/squashfs.c`),
in a hash table by name. Only the file that they are configured in is found as other files are.

CCAN's hash of a string is a parameter. Its `htable_get` gives one of the elements which have the
hash and for which the comparison holds; a table is a choice of one.
-/

namespace Sneks.Squashfs
open Devices

abbrev Name := List UInt8

structure DeviceNode where
  name : Name
  dev : Dev
  deriving DecidableEq

def streq (a b : Name) : Bool := a == b

/-- `cmp_dev_name`. Both sides are taken from the key: `dev` is the key, not the candidate. -/
def cmpDevName (_cand : DeviceNode) (key : Name) : Bool :=
  let devName := key
  streq devName key

/-- CCAN's `htable_get` on the nodes in a table, which are entered by the hash of their names. -/
structure Htable (hash : Name → Word) (nodes : List DeviceNode) where
  get : Word → (DeviceNode → Bool) → Option DeviceNode
  get_some : ∀ h cmp d, get h cmp = some d → d ∈ nodes ∧ hash d.name = h ∧ cmp d = true
  get_none : ∀ h cmp, get h cmp = none → ∀ d ∈ nodes, hash d.name = h → cmp d = false

/-- `.device-nodes`, the file that has the device nodes. -/
def deviceNodesName : Name := [46, 100, 101, 118, 105, 99, 101, 45, 110, 111, 100, 101, 115]

inductive Found
  | device (d : DeviceNode)
  | enoent
  | file
  deriving DecidableEq

/-- The branch of `squashfs_resolve` for a last component in the device directory. -/
def resolveDev {hash : Name → Word} {nodes : List DeviceNode} (t : Htable hash nodes) (part : Name) : Found :=
  if streq part deviceNodesName then .file
  else
    match t.get (hash part) fun cand => cmpDevName cand part with
    | none => .enoent
    | some d => .device d

def Yields (nodes : List DeviceNode) (part : Name) : Found → Prop
  | .device d => d ∈ nodes ∧ d.name = part
  | .enoent => ∀ d ∈ nodes, d.name ≠ part
  | .file => False

variable {hash : Name → Word} {nodes : List DeviceNode} {part : Name}

def Htable.ofList (hash : Name → Word) (nodes order : List DeviceNode) (h : ∀ d, d ∈ order ↔ d ∈ nodes) :
    Htable hash nodes where
  get x cmp := order.find? fun d => hash d.name == x && cmp d
  get_some x cmp d he := by
    have hd := List.find?_some he
    rw [Bool.and_eq_true, beq_iff_eq] at hd
    exact ⟨(h d).mp (List.mem_of_find?_eq_some he), hd⟩
  get_none x cmp he d hd hx := by
    have hno := List.find?_eq_none.mp he d ((h d).mpr hd)
    simpa [hx] using hno

theorem cmpDevName_eq_true (cand : DeviceNode) : cmpDevName cand part = true := beq_self_eq_true part

/-- **Device nodes.** Every table of the nodes gives the right one, or none where no node has the
name, if and only if no node of another name has the hash of this one. -/
theorem yields_iff : (∀ t : Htable hash nodes, Yields nodes part (resolveDev t part)) ↔
    part ≠ deviceNodesName ∧ ∀ d ∈ nodes, hash d.name = hash part → d.name = part := by
  constructor
  · intro hall
    have hpart : part ≠ deviceNodesName := by
      rintro rfl
      have hyields := hall (.ofList hash nodes nodes fun _ => Iff.rfl)
      rw [resolveDev, streq, beq_self_eq_true] at hyields
      exact hyields
    have hstreq : streq part deviceNodesName = false := beq_eq_false_iff_ne.mpr hpart
    refine ⟨hpart, fun d hd hcoll => ?_⟩
    -- a table that comes to `d` first
    have hmem : ∀ e, e ∈ d :: nodes ↔ e ∈ nodes := fun e => by
      rw [List.mem_cons]
      exact or_iff_right_of_imp fun he => he ▸ hd
    have hfound : resolveDev (.ofList hash nodes (d :: nodes) hmem) part = .device d := by
      rw [resolveDev, hstreq]
      simp [Htable.ofList, hcoll, cmpDevName_eq_true]
    have hyields := hall (.ofList hash nodes (d :: nodes) hmem)
    rw [hfound] at hyields
    exact hyields.2
  · rintro ⟨hpart, hsole⟩ t
    have hstreq : streq part deviceNodesName = false := beq_eq_false_iff_ne.mpr hpart
    rw [resolveDev, hstreq]
    cases hget : t.get (hash part) fun cand => cmpDevName cand part with
    | none =>
      intro d hd he
      have hcmp := t.get_none _ _ hget d hd (he ▸ rfl)
      rw [cmpDevName_eq_true] at hcmp
      cases hcmp
    | some d =>
      obtain ⟨hd, hcoll, -⟩ := t.get_some _ _ _ hget
      exact ⟨hd, hsole d hd hcoll⟩

/-- CCAN's `hash_string`: each byte is added to 31 times what came before. -/
def hashString (s : Name) : Word := s.foldl (fun h c => h * 31#32 + c.toNat) 0#32

/-- The nodes `Aa` and `BB`, whose names have one hash. -/
def collidingNodes : List DeviceNode := [⟨[65, 97], ⟨1, 3, true⟩⟩, ⟨[66, 66], ⟨1, 5, true⟩⟩]

/-- A table may give the first node for the name of the second. -/
theorem yields_fails : (collidingNodes.map DeviceNode.name).Nodup ∧
    ∃ t : Htable hashString collidingNodes, ¬ Yields collidingNodes [66, 66] (resolveDev t [66, 66]) := by
  refine ⟨by decide, .ofList _ _ collidingNodes fun _ => Iff.rfl, fun hyields => ?_⟩
  have hfound : resolveDev (.ofList hashString collidingNodes collidingNodes fun _ => Iff.rfl) [66, 66] =
      .device ⟨[65, 97], ⟨1, 3, true⟩⟩ := by decide
  rw [hfound] at hyields
  exact absurd hyields.2 (by decide)

end Sneks.Squashfs
