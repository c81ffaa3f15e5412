import Sneks.Pid
import Mathlib.Data.List.Sort
import Mathlib.Data.Int.Notation
import Mathlib.Logic.Function.Basic

/-!
# System messages: `sys/msg/sysmsg.c`

Clients subscribe to the bits of a mask, and may ask that of the broadcasts to a bit only
those be passed whose first word is in their filter. The filter is a Bloom filter of 4-bit
counters, eight to a word. Words are 32 bits wide.

`client_ht` is a function of the process id, `subs_ht` a list. A failed assertion is `none`.
The salt of each bit comes from CCAN's siphash and is a parameter, and so is the answer of
each client that a message is sent to: the calls it makes from within its handler, and its
reply. Where `malloc` fails in `setmask` and `broadcast` the server aborts, so that these
are not modelled; `add_filter` goes on without a filter when `calloc` fails.
-/

namespace Sneks.Sysmsg

abbrev Word := BitVec 32

def hash32shiftmult (key : Word) : Word :=
  let key := (key ^^^ 61#32) ^^^ (key >>> 16)
  let key := key + (key <<< 3)
  let key := key ^^^ (key >>> 4)
  let key := key * 0x27d4eb2d#32
  key ^^^ (key >>> 15)

def intHash (x : Word) : Word := hash32shiftmult x

/-- `for_each_bit`: the bits of a mask, from the lowest on. -/
def bits (mask : Word) : List ℕ := (List.range 32).filter fun b => mask.getLsbD b

abbrev Slot := Fin 128

abbrev Filter := Fin 16 → Word

def limb (slot : Slot) : Fin 16 := ⟨slot / 8, by omega⟩

def offs (slot : Slot) : ℕ := slot % 8 * 4

/-- `filter_inc`, and if the field became saturated. -/
def filterInc (filter : Filter) (slot : Slot) : Filter × Bool :=
  let field := (filter (limb slot) >>> offs slot) &&& 0xf#32
  let sat := field == 0xe#32
  if field < 0xf#32 then
    (Function.update filter (limb slot) (filter (limb slot) + 1#32 <<< offs slot), sat)
  else (filter, sat)

def filterDec (filter : Filter) (slot : Slot) : Filter :=
  if 1#32 < ((filter (limb slot) >>> offs slot) + 1#32) &&& 0xf#32 then
    Function.update filter (limb slot) (filter (limb slot) - 1#32 <<< offs slot)
  else filter

def slotOf (hash : Word) : Slot :=
  ⟨(hash &&& 127#32).toNat, Nat.lt_of_le_of_lt (BitVec.toNat_and hash 127#32 ▸ Nat.and_le_right) (by decide)⟩

def getSlots (hash : Word) : List Slot :=
  [slotOf hash, slotOf (hash / 128#32), slotOf (hash / 128#32 / 128#32)]

def filterQuery (filter : Filter) (slots : List Slot) : Bool :=
  slots.foldl (fun ret slot => ret && (filter (limb slot) &&& (0xf#32 <<< offs slot)) != 0#32) true

section

variable (salt : ℕ → Word)

def filterPass (filter : Option Filter) (maskp hash : Word) : Bool :=
  match filter with
  | none => true
  | some filter => (bits maskp).any fun bit => filterQuery filter (getSlots (hash ^^^ salt bit))

/-- `struct msgclient`. `subs` has the bits of the records on the list. -/
structure Client where
  recvTid : Tid
  subsMask : Word
  filterMask : Word
  nFilters : ℤ
  filter : Option Filter
  subs : List ℕ

/-- `struct sub`. The client is named by its process id. -/
structure Sub where
  client : ℕ
  bit : ℕ
  deriving DecidableEq

structure State where
  client : ℕ → Option Client
  subs : List Sub

def State.init : State := ⟨fun _ => none, []⟩

def State.put (s : State) (pid : ℕ) (c : Client) : State :=
  { s with client := Function.update s.client pid (some c) }

/-- `rmsub`, on `subs_ht` and the client's list. -/
def rmsub (pid : ℕ) (t : List Sub × List ℕ) (bit : ℕ) : List Sub × List ℕ :=
  let found := t.1.filter fun x => x.bit = bit ∧ x.client = pid
  (t.1.filter fun x => ¬ (x.bit = bit ∧ x.client = pid), found.foldl (fun l x => l.erase x.bit) t.2)

def addsub (pid : ℕ) (t : List Sub × List ℕ) (bit : ℕ) : List Sub × List ℕ :=
  (t.1 ++ [⟨pid, bit⟩], t.2 ++ [bit])

def setmaskOf (s : State) (pid : ℕ) (c : Client) (or and : Word) : State :=
  let new := (c.subsMask &&& and) ||| or
  let removed := c.subsMask &&& ~~~new
  let added := ~~~c.subsMask &&& new
  let (subs, own) := (bits added).foldl (addsub pid) ((bits removed).foldl (rmsub pid) (s.subs, c.subs))
  { s.put pid { c with subsMask := new, filterMask := c.filterMask &&& ~~~removed, subs := own } with
    subs := subs }

def setmask (s : State) (recvTid : Tid) (or and : Word) : State × Word :=
  match s.client (pidof recvTid) with
  | none =>
    if and = 0 ∧ or = 0 then (s, 0)
    else (setmaskOf s (pidof recvTid) ⟨recvTid, 0, 0, 0, none, []⟩ or and, 0)
  | some c => (setmaskOf s (pidof recvTid) c or and, c.subsMask)

def addLabels (mask : Word) (labels : List Word) (filter : Filter) : Filter :=
  labels.foldl (fun filter label =>
    (bits mask).foldl (fun filter bit =>
      (getSlots (intHash label ^^^ salt bit)).foldl (fun filter slot => (filterInc filter slot).1) filter)
      filter) filter

def wrap (n : ℤ) : ℤ := n.bmod (2 ^ 32)

/-- `add_filter`; `calloc` is what becomes of the allocation, if there is one. -/
def addFilter (s : State) (sender : Tid) (mask : Word) (labels : List Word) (calloc : Bool) : Option State :=
  match s.client (pidof sender) with
  | none => some s
  | some c =>
    let add (filter : Filter) : State := s.put (pidof sender) { c with
      filter := some (addLabels salt mask labels filter)
      filterMask := if labels.isEmpty then c.filterMask else c.filterMask ||| mask
      nFilters := wrap (c.nFilters + labels.length * (bits mask).length) }
    match c.filter with
    | some filter => some (add filter)
    | none =>
      if c.nFilters ≠ 0 then none
      else if calloc then some (add fun _ => 0)
      else some s

/-- What `rm_filter` does to the counters, and how many pairs it removes. -/
def rmLabels (mask : Word) (labels : List Word) (t : Filter × ℕ) : Filter × ℕ :=
  labels.foldl (fun t label =>
    (bits mask).foldl (fun t bit =>
      let slots := getSlots (intHash label ^^^ salt bit)
      if filterQuery t.1 slots then (slots.foldl filterDec t.1, t.2 + 1) else t) t) t

def rmFilter (s : State) (sender : Tid) (mask : Word) (labels : List Word) : Option State :=
  match s.client (pidof sender) with
  | none => some s
  | some c =>
    match c.filter with
    | none => some s
    | some filter =>
      let (filter, removed) := rmLabels salt mask labels (filter, 0)
      if (removed : ℤ) ≤ c.nFilters then
        let n := wrap (c.nFilters - removed)
        some (s.put (pidof sender) { c with nFilters := n, filter := if n = 0 then none else some filter })
      else none

inductive Update
  | setmask (sender : Tid) (or and : Word)
  | addFilter (sender : Tid) (mask : Word) (labels : List Word) (calloc : Bool)
  | rmFilter (sender : Tid) (mask : Word) (labels : List Word)

def exec (s : State) : Update → Option State
  | .setmask sender or and => some (setmask s sender or and).1
  | .addFilter sender mask labels calloc => addFilter salt s sender mask labels calloc
  | .rmFilter sender mask labels => rmFilter salt s sender mask labels

/-- A message of `u` untyped words, by message register. -/
structure Msg where
  u : ℕ
  mr : ℕ → Word

/-- The call that `recursive_sysmsg_call` makes, if any. -/
def Msg.update (msg : Msg) (sender : Tid) (calloc : Bool) : Option Update :=
  let labels := (List.range (msg.u - 2)).map fun i => msg.mr (3 + i)
  match (msg.mr 1).toNat with
  | 1 => some (.setmask sender (msg.mr 1) (msg.mr 2))
  | 3 => some (.addFilter sender (msg.mr 2) labels calloc)
  | 4 => some (.rmFilter sender (msg.mr 2) labels)
  | _ => none

/-- The tables after `recursive_sysmsg_call`. -/
def recursiveSysmsgCall (s : State) (sender : Tid) (call : Msg × Bool) : Option State :=
  match call.1.update sender call.2 with
  | none => some s
  | some u => exec salt s u

/-- What a client does with a message: its calls of the server, and its reply; `none` is a reply
    that is not of one word. -/
structure Answer where
  calls : List (Msg × Bool)
  status : Option ℤ

structure Sent where
  dest : Tid
  bits : Word
  body : List Word
  deriving DecidableEq

/-- The clients to be considered by `broadcast`, as gathered. -/
def gather (s : State) (maskp maskn : Word) : List ℕ :=
  (bits maskp).flatMap fun bit => (s.subs.filter fun x => x.bit = bit ∧
    ∀ c ∈ s.client x.client, c.subsMask &&& maskn = 0).map (·.client)

/-- The loop that follows `qsort`, past the first element. -/
def uniqFrom (prev : ℕ) : List ℕ → List ℕ
  | [] => []
  | pid :: recs => if prev = pid then uniqFrom pid recs else pid :: uniqFrom pid recs

def uniq : List ℕ → List ℕ
  | [] => []
  | pid :: recs => pid :: uniqFrom pid recs

/-- The filter is for all of `maskp`, and no bit of it passes. -/
def Client.Filtered (c : Client) (maskp hash : Word) : Prop :=
  c.filterMask &&& maskp = maskp ∧ filterPass salt c.filter (maskp &&& c.filterMask) hash = false

instance (c : Client) (maskp hash : Word) : Decidable (c.Filtered salt maskp hash) :=
  inferInstanceAs (Decidable (_ ∧ _))

def sendAll (sender : Tid) (maskp : Word) (body : List Word) (hash : Word) (answer : ℕ → Answer) :
    State → List ℕ → Option (State × Bool × List Sent)
  | s, [] => some (s, true, [])
  | s, pid :: recs =>
    match s.client pid with
    | none => none
    | some c =>
      if c.Filtered salt maskp hash then sendAll sender maskp body hash answer s recs
      -- `send_to_client`
      else if sender = c.recvTid then none
      else
        match (answer pid).calls.foldlM (fun s call => recursiveSysmsgCall salt s c.recvTid call) s,
          (answer pid).status with
        | some s, some n => (sendAll sender maskp body hash answer s recs).map fun (s, immediate, sent) =>
            (s, n ≠ 1 && immediate, ⟨c.recvTid, maskp, body⟩ :: sent)
        | _, _ => none

/-- `impl_broadcast`, with the messages sent. `stale` is what is read for the first word of an
    empty body. -/
def broadcast (s : State) (sender : Tid) (maskp maskn : Word) (body : List Word) (stale : Word)
    (answer : ℕ → Answer) : Option (State × Bool × List Sent) :=
  if maskp = 0 ∨ maskn = ~~~0 then some (s, true, [])
  else
    let recs := uniq ((gather s maskp maskn).insertionSort (· ≤ ·))
    sendAll salt sender maskp body (intHash (body.headD stale)) answer s recs

end

end Sneks.Sysmsg
